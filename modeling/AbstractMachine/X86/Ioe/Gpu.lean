import Mathlib.Algebra.Group.Int.Defs
import Mathlib.Logic.Function.Basic
import AbstractMachine.Lib.Picture
import AbstractMachine.Lib.SignedWord
import AbstractMachine.X86.Header

/-!
# The screen of x86-qemu

`gpu_fbdraw` draws a block row by row into a frame buffer of 3-byte pixels.  Of
the block it draws what lies on the screen: the rows below the screen are left
out, and every other row is cut off at the right edge.

`int` is an integer here, but for the index of a row in the frame buffer, which
wraps around.  Nothing else overflows while the block ends before 2 ^ 31.
-/

namespace AbstractMachine.X86.Gpu

open AbstractMachine.Lib

/-- A pixel of the program, or a coordinate. -/
abbrev Word := BitVec 32

/-! ## Model -/

/-- `struct pixel`. -/
structure Pixel where
  b : BitVec 8
  g : BitVec 8
  r : BitVec 8
  deriving DecidableEq, Repr

def R (p : Word) : BitVec 8 := (p >>> 16).setWidth 8

def G (p : Word) : BitVec 8 := (p >>> 8).setWidth 8

def B (p : Word) : BitVec 8 := p.setWidth 8

/-- A pixel of the frame buffer. -/
def toPixel (p : Word) : Pixel := { r := R p, g := G p, b := B p }

/-- `struct gpu_canvas`, as far as the screen is one. -/
structure GpuCanvas where
  w : BitVec 16
  h : BitVec 16
  deriving DecidableEq, Repr

/-- The static variables `display` and `fb`, and what `fb` points to. -/
structure Screen where
  display : GpuCanvas
  fb : Int → Pixel

/-- `AM_GPU_FBDRAW`, with what `pixels` points to. -/
structure Fbdraw where
  x : Word
  y : Word
  pixels : Int → Word
  w : Word
  h : Word

/-- The inner loop, for `n` more pixels; `px` is an index into `fb`. -/
def fbRow (pixels : Int → Word) : Nat → Int → Int → (Int → Pixel) → Int → Pixel
  | 0, _, _, fb => fb
  | n + 1, i, px, fb =>
      fbRow pixels n (i + 1) (px + 1) (Function.update fb px (toPixel (pixels i)))

/-- `x + (j + y) * W`, as an `int`. -/
def rowIndex (draw : Fbdraw) (W j : Int) : Int :=
  (draw.x.toInt + (j + draw.y.toInt) * W).bmod (2 ^ 32)

/-- The outer loop, for `n` more rows; `p` is how far `pixels` has come. -/
def fbRows (draw : Fbdraw) (W H len : Int) : Nat → Int → Int → (Int → Pixel) → Int → Pixel
  | 0, _, _, fb => fb
  | n + 1, j, p, fb =>
      let fb :=
        if draw.y.toInt + j < H then
          fbRow draw.pixels len.toNat p (rowIndex draw W j) fb
        else fb
      fbRows draw W H len n (j + 1) (p + draw.w.toInt) fb

/-- `gpu_fbdraw`: rows from the top, clipped at the lower and the right edge. -/
def gpuFbdraw (draw : Fbdraw) (s : Screen) : Screen :=
  let x := draw.x.toInt
  let w := draw.w.toInt
  let W : Int := s.display.w.toNat
  let H : Int := s.display.h.toNat
  let len := if x + w ≥ W then W - x else w
  { s with fb := fbRows draw W H len draw.h.toInt.toNat 0 0 s.fb }

/-! ## One row -/

variable {pixels : Int → Word} {draw : Fbdraw} {fb : Int → Pixel} {s : Screen}
  {W H len j k p px : Int} {i n r : Nat}

private theorem fbRow_outside (h : ∀ i : Nat, i < n → k ≠ px + i) :
    fbRow pixels n p px fb k = fb k := by
  induction n generalizing p px fb with
  | zero => rfl
  | succ n ih =>
      have hFirst : k ≠ px := by
        have hPx := h 0 (by omega)
        rwa [Int.natCast_zero, Int.add_zero] at hPx
      rw [fbRow, ih]
      · exact Function.update_of_ne hFirst _ _
      · intro i hi
        have hNext := h (i + 1) (by omega)
        omega

private theorem fbRow_at (hi : i < n) :
    fbRow pixels n p px fb (px + i) = toPixel (pixels (p + i)) := by
  induction n generalizing p px fb i with
  | zero => omega
  | succ n ih =>
      rw [fbRow]
      cases i with
      | zero =>
          rw [fbRow_outside]
          · rw [Int.natCast_zero, Int.add_zero, Int.add_zero, Function.update_self]
          · intro i hi
            omega
      | succ i =>
          have hPx : px + (i + 1 : Nat) = px + 1 + i := by omega
          have hp : p + (i + 1 : Nat) = p + 1 + i := by omega
          rw [hPx, hp]
          exact ih (by omega)

/-! ## All rows -/

/-- Only the rows above the lower edge are drawn. -/
theorem fbRows_outside
    (h : ∀ r i : Nat, r < n → draw.y.toInt + (j + r) < H → i < len.toNat →
      k ≠ rowIndex draw W (j + r) + i) :
    fbRows draw W H len n j p fb k = fb k := by
  induction n generalizing j p fb with
  | zero => rfl
  | succ n ih =>
      rw [fbRows, ih]
      · by_cases hRow : draw.y.toInt + j < H
        · rw [if_pos hRow]
          apply fbRow_outside
          intro i hi
          have hFirst := h 0 i (by omega) (by omega) hi
          rwa [Int.natCast_zero, Int.add_zero] at hFirst
        · rw [if_neg hRow]
      · intro r i hr hRow hi
        have hLater := h (r + 1) i (by omega) (by omega) hi
        have hIndex : j + (r + 1 : Nat) = j + 1 + r := by omega
        rwa [hIndex] at hLater

/-- Rows that do not overlap. -/
theorem fbRows_at
    (hApart : ∀ r r' i i' : Nat, r < r' → r' < n → draw.y.toInt + (j + r') < H →
      i < len.toNat → i' < len.toNat →
      rowIndex draw W (j + r) + i ≠ rowIndex draw W (j + r') + i')
    (hr : r < n) (hRow : draw.y.toInt + (j + r) < H) (hi : i < len.toNat) :
    fbRows draw W H len n j p fb (rowIndex draw W (j + r) + i) =
      toPixel (draw.pixels (p + r * draw.w.toInt + i)) := by
  induction n generalizing j p fb r with
  | zero => omega
  | succ n ih =>
      have hNext : ∀ r : Nat, j + (r + 1 : Nat) = j + 1 + r := by
        intro r
        omega
      rw [fbRows]
      cases r with
      | zero =>
          rw [fbRows_outside]
          · rw [Int.natCast_zero, Int.add_zero] at hRow ⊢
            rw [if_pos hRow, fbRow_at hi, Int.zero_mul, Int.add_zero]
          · intro r' i' hr' hRow' hi'
            rw [← hNext] at hRow' ⊢
            exact hApart 0 (r' + 1) i i' (by omega) (by omega) hRow' hi hi'
      | succ r =>
          have hp : p + (r + 1 : Nat) * draw.w.toInt + i =
              p + draw.w.toInt + r * draw.w.toInt + i := by grind
          rw [hNext] at hRow ⊢
          rw [hp]
          apply ih _ (by omega) hRow
          intro r₁ r₂ i₁ i₂ hLt hr₂ hRow₂ hi₁ hi₂
          rw [← hNext] at hRow₂
          rw [← hNext, ← hNext]
          exact hApart _ _ i₁ i₂ (by omega) (by omega) hRow₂ hi₁ hi₂

/-! ## Drawing -/

/-- A block that begins at a column and a row and ends before 2 ^ 31. -/
structure Block (draw : Fbdraw) : Prop where
  x : 0 ≤ draw.x.toInt
  y : 0 ≤ draw.y.toInt
  w : 0 ≤ draw.w.toInt
  h : 0 ≤ draw.h.toInt
  right : draw.x.toInt + draw.w.toInt < 2 ^ 31
  bottom : draw.y.toInt + draw.h.toInt < 2 ^ 31

/-- The block, in natural numbers. -/
theorem Block.toNat (h : Block draw) :
    draw.x.toInt = draw.x.toNat ∧ draw.y.toInt = draw.y.toNat ∧ draw.w.toInt = draw.w.toNat ∧
      draw.h.toInt.toNat = draw.h.toNat := by
  have hh := SignedWord.toInt_of_nonneg h.h
  exact ⟨SignedWord.toInt_of_nonneg h.x, SignedWord.toInt_of_nonneg h.y,
    SignedWord.toInt_of_nonneg h.w, by omega⟩

/-- How many pixels of a row are drawn. -/
theorem len_eq (W x w : Int) : (if x + w ≥ W then W - x else w) = min (W - x) w := by
  split <;> omega

/-- The pixel in row `r` and column `i` of the block lies on the screen. -/
structure Drawn (draw : Fbdraw) (d : GpuCanvas) (r i : Nat) : Prop where
  row : r < draw.h.toNat
  col : i < draw.w.toNat
  bottom : draw.y.toNat + r < d.h.toNat
  right : draw.x.toNat + i < d.w.toNat

/-- Its place there. -/
def place (draw : Fbdraw) (d : GpuCanvas) (r i : Nat) : Nat :=
  Picture.index d.w.toNat (draw.x.toNat + i) (draw.y.toNat + r)

/-- No row that is drawn has an index that overflows. -/
def Indexed (draw : Fbdraw) (d : GpuCanvas) : Prop :=
  ∀ r i, Drawn draw d r i → place draw d r 0 < 2 ^ 31

variable {d : GpuCanvas}

private theorem place_col (draw : Fbdraw) (d : GpuCanvas) (r i : Nat) :
    place draw d r i = place draw d r 0 + i := by
  unfold place Picture.index
  omega

/-- Two pixels at the same place. -/
theorem place_inj {r' i' : Nat} (h : Drawn draw d r i) (h' : Drawn draw d r' i')
    (hEq : place draw d r i = place draw d r' i') : r = r' ∧ i = i' := by
  have hSame := Picture.index_inj h.right h'.right hEq
  omega

theorem place_lt (h : Drawn draw d r i) : place draw d r i < 2 ^ 32 := by
  have hIndex := Picture.index_lt h.right h.bottom
  have hSize : d.w.toNat * d.h.toNat ≤ 2 ^ 16 * 2 ^ 16 :=
    Nat.mul_le_mul (Nat.le_of_lt d.w.isLt) (Nat.le_of_lt d.h.isLt)
  exact Nat.lt_of_lt_of_le hIndex hSize

private theorem rowIndex_eq (hBlock : Block draw) (r : Nat) :
    rowIndex draw d.w.toNat (0 + r) = ((place draw d r 0 : Nat) : Int).bmod (2 ^ 32) := by
  obtain ⟨hx, hy, -, -⟩ := hBlock.toNat
  unfold rowIndex place Picture.index
  rw [hx, hy]
  congr 1
  push_cast
  grind

/-- What is not written stays. -/
theorem gpuFbdraw_unwritten (hBlock : Block draw)
    (h : ∀ r i, Drawn draw s.display r i →
      k ≠ ((place draw s.display r 0 : Nat) : Int).bmod (2 ^ 32) + i) :
    (gpuFbdraw draw s).fb k = s.fb k := by
  obtain ⟨hx, hy, hw, hh⟩ := hBlock.toNat
  unfold gpuFbdraw
  dsimp only
  rw [len_eq, hh]
  apply fbRows_outside
  intro r i hr hRow hi
  rw [rowIndex_eq hBlock]
  exact h r i ⟨hr, by omega, by omega, by omega⟩

private theorem bmod_place {v : Nat} (h : v < 2 ^ 31) : ((v : Nat) : Int).bmod (2 ^ 32) = v := by
  apply Int.bmod_eq_of_le_mul_two <;> omega

/-- Nothing but the part of the block that lies on the screen is drawn. -/
theorem gpuFbdraw_outside (hBlock : Block draw) (hIndexed : Indexed draw s.display)
    (h : ∀ r i, Drawn draw s.display r i → k ≠ place draw s.display r i) :
    (gpuFbdraw draw s).fb k = s.fb k := by
  apply gpuFbdraw_unwritten hBlock
  intro r i hDrawn
  have hPlace := h r i hDrawn
  rw [place_col] at hPlace
  rw [bmod_place (hIndexed r i hDrawn)]
  exact_mod_cast hPlace

theorem gpuFbdraw_at (hBlock : Block draw) (hIndexed : Indexed draw s.display)
    (hDrawn : Drawn draw s.display r i) :
    (gpuFbdraw draw s).fb (place draw s.display r i) =
      toPixel (draw.pixels (r * draw.w.toNat + i : Nat)) := by
  obtain ⟨hx, hy, hw, hh⟩ := hBlock.toNat
  have hWidth : ∀ i : Nat, i < (min ((s.display.w.toNat : Int) - draw.x.toNat)
      draw.w.toNat).toNat → i < draw.w.toNat ∧ draw.x.toNat + i < s.display.w.toNat := by
    intro i hi
    omega
  have hIndex : ∀ r i, Drawn draw s.display r i →
      rowIndex draw s.display.w.toNat (0 + r) + i = place draw s.display r i := by
    intro r i h
    rw [rowIndex_eq hBlock, bmod_place (hIndexed r i h), place_col draw _ r i]
    push_cast
    rfl
  have hSource : ((r * draw.w.toNat + i : Nat) : Int) = 0 + r * draw.w.toInt + i := by
    rw [hw]
    push_cast
    omega
  unfold gpuFbdraw
  dsimp only
  rw [len_eq, hh, hx, hw, ← hIndex r i hDrawn, hSource]
  apply fbRows_at _ hDrawn.row
  · have hBottom := hDrawn.bottom
    omega
  · have hCol := hDrawn.col
    have hRight := hDrawn.right
    omega
  · intro r₁ r₂ i₁ i₂ hLt hr₂ hRow hi₁ hi₂ hEq
    obtain ⟨hCol₁, hRight₁⟩ := hWidth i₁ hi₁
    obtain ⟨hCol₂, hRight₂⟩ := hWidth i₂ hi₂
    have h₁ : Drawn draw s.display r₁ i₁ := ⟨by omega, hCol₁, by omega, hRight₁⟩
    have h₂ : Drawn draw s.display r₂ i₂ := ⟨hr₂, hCol₂, by omega, hRight₂⟩
    rw [hIndex r₁ i₁ h₁, hIndex r₂ i₂ h₂] at hEq
    have hSame := (place_inj h₁ h₂ (by exact_mod_cast hEq)).1
    omega

/-! ## What should be drawn -/

/-- `(X, Y)` is a pixel of the block and of the screen. -/
def Covered (draw : Fbdraw) (d : GpuCanvas) (X Y : Nat) : Prop :=
  (draw.x.toNat ≤ X ∧ X < min (draw.x.toNat + draw.w.toNat) d.w.toNat) ∧
    draw.y.toNat ≤ Y ∧ Y < min (draw.y.toNat + draw.h.toNat) d.h.toNat

/-- The block has been drawn, and nothing else has changed. -/
structure DrawsBlock (draw : Fbdraw) (d : GpuCanvas) (fb fb' : Int → Pixel) : Prop where
  block : ∀ X Y, Covered draw d X Y → fb' (Picture.index d.w.toNat X Y : Nat) =
    toPixel (draw.pixels ((Y - draw.y.toNat) * draw.w.toNat + (X - draw.x.toNat) : Nat))
  others : ∀ k : Int, (∀ X Y, Covered draw d X Y → k ≠ (Picture.index d.w.toNat X Y : Nat)) →
    fb' k = fb k

theorem Drawn.covered (h : Drawn draw d r i) :
    Covered draw d (draw.x.toNat + i) (draw.y.toNat + r) := by
  obtain ⟨hRow, hCol, hBottom, hRight⟩ := h
  unfold Covered
  omega

private theorem drawn_of_covered {X Y : Nat} (h : Covered draw d X Y) :
    ∃ r i, Drawn draw d r i ∧ X = draw.x.toNat + i ∧ Y = draw.y.toNat + r := by
  unfold Covered at h
  exact ⟨Y - draw.y.toNat, X - draw.x.toNat, ⟨by omega, by omega, by omega, by omega⟩, by omega,
    by omega⟩

private theorem drawsBlock_of_indexed (hBlock : Block draw) (hIndexed : Indexed draw s.display) :
    DrawsBlock draw s.display s.fb (gpuFbdraw draw s).fb := by
  constructor
  · intro X Y hCovered
    obtain ⟨r, i, hDrawn, rfl, rfl⟩ := drawn_of_covered hCovered
    rw [Nat.add_sub_cancel_left, Nat.add_sub_cancel_left]
    exact gpuFbdraw_at hBlock hIndexed hDrawn
  · intro k hk
    apply gpuFbdraw_outside hBlock hIndexed
    intro r i hDrawn
    exact hk _ _ hDrawn.covered

/-- The colour of no pixel of the block. -/
def other (c : Pixel) : Pixel := { c with b := c.b + 1 }

theorem other_ne (c : Pixel) : other c ≠ c := by
  intro hEq
  have hBlue := congrArg (fun c => c.b.toNat) hEq
  have hOne : (1 : BitVec 8).toNat = 1 := rfl
  unfold other at hBlue
  dsimp only at hBlue
  rw [BitVec.toNat_add, hOne] at hBlue
  omega

/-- A row whose index overflows is not drawn in its place. -/
theorem overflowed_unwritten (hBlock : Block draw) (h : Drawn draw s.display r i)
    (hOver : 2 ^ 31 ≤ place draw s.display r 0) :
    (gpuFbdraw draw s).fb (place draw s.display r 0 : Nat) =
      s.fb (place draw s.display r 0 : Nat) := by
  have hFirst : Drawn draw s.display r 0 :=
    ⟨h.row, Nat.zero_lt_of_lt h.col, h.bottom, by have hRight := h.right; omega⟩
  apply gpuFbdraw_unwritten hBlock
  intro r' i' h' hEq
  have hi' : i' < 2 ^ 16 := by
    have hRight := h'.right
    have hWidth := s.display.w.isLt
    omega
  by_cases hInt : place draw s.display r' 0 < 2 ^ 31
  · rw [bmod_place hInt] at hEq
    have hPlace := place_col draw s.display r' i'
    obtain ⟨hSame, -⟩ := place_inj hFirst h' (by omega)
    rw [hSame] at hOver
    omega
  · have hSplit := place_col draw s.display r' i'
    have hTop := place_lt h'
    have hWrap : ((place draw s.display r' 0 : Nat) : Int).bmod (2 ^ 32) =
        place draw s.display r' 0 - 2 ^ 32 := by
      rw [Int.bmod_eq_iff (by decide)]
      omega
    omega

private theorem indexed_of_drawsBlock (hBlock : Block draw)
    (h : ∀ fb, DrawsBlock draw d fb (gpuFbdraw draw { display := d, fb := fb }).fb) :
    Indexed draw d := by
  intro r i hDrawn
  by_contra hNot
  have hOver : 2 ^ 31 ≤ place draw d r 0 := Nat.le_of_not_lt hNot
  have hFirst : Drawn draw d r 0 :=
    ⟨hDrawn.row, Nat.zero_lt_of_lt hDrawn.col, hDrawn.bottom, by
      have hRight := hDrawn.right
      omega⟩
  -- the screen shows another colour there than the one that should be drawn
  let c := toPixel (draw.pixels (r * draw.w.toNat + 0 : Nat))
  have hRight := (h fun _ => other c).block _ _ hFirst.covered
  have hKept := overflowed_unwritten (s := { display := d, fb := fun _ => other c }) hBlock
    hDrawn hOver
  rw [Nat.add_sub_cancel_left, Nat.add_sub_cancel_left] at hRight
  exact other_ne c (hKept.symm.trans hRight)

private theorem indexed_iff (draw : Fbdraw) (d : GpuCanvas) :
    Indexed draw d ↔ draw.w.toNat = 0 ∨ draw.h.toNat = 0 ∨ d.w.toNat ≤ draw.x.toNat ∨
      d.h.toNat ≤ draw.y.toNat ∨
        (min (draw.y.toNat + draw.h.toNat) d.h.toNat - 1) * d.w.toNat + draw.x.toNat < 2 ^ 31 := by
  constructor
  · intro h
    by_contra hNot
    simp only [not_or] at hNot
    obtain ⟨hw, hh, hx, hy, hLast⟩ := hNot
    have hDrawn : Drawn draw d
        (min (draw.y.toNat + draw.h.toNat) d.h.toNat - 1 - draw.y.toNat) 0 :=
      ⟨by omega, by omega, by omega, by omega⟩
    have hRow : draw.y.toNat + (min (draw.y.toNat + draw.h.toNat) d.h.toNat - 1 - draw.y.toNat) =
        min (draw.y.toNat + draw.h.toNat) d.h.toNat - 1 := by omega
    have hPlace := h _ _ hDrawn
    unfold place Picture.index at hPlace
    rw [hRow] at hPlace
    omega
  · intro hCond r i hDrawn
    obtain ⟨hRow, hCol, hBottom, hRight⟩ := hDrawn
    have hLe : (draw.y.toNat + r) * d.w.toNat ≤
        (min (draw.y.toNat + draw.h.toNat) d.h.toNat - 1) * d.w.toNat :=
      Nat.mul_le_mul_right _ (by omega)
    unfold place Picture.index
    omega

/--
**Drawing a block.** Whatever the frame buffer held, `gpu_fbdraw` puts the pixels
of the block that lie on the screen there and changes nothing else, exactly when
there are none, or the first of the last row has an index that is an `int`.
-/
theorem gpuFbdraw_iff (draw : Fbdraw) (d : GpuCanvas) (hBlock : Block draw) :
    (∀ fb, DrawsBlock draw d fb (gpuFbdraw draw { display := d, fb := fb }).fb) ↔
      draw.w.toNat = 0 ∨ draw.h.toNat = 0 ∨ d.w.toNat ≤ draw.x.toNat ∨
        d.h.toNat ≤ draw.y.toNat ∨
          (min (draw.y.toNat + draw.h.toNat) d.h.toNat - 1) * d.w.toNat + draw.x.toNat <
            2 ^ 31 := by
  rw [← indexed_iff draw d]
  constructor
  · exact indexed_of_drawsBlock hBlock
  · intro hIndexed fb
    exact drawsBlock_of_indexed (s := { display := d, fb := fb }) hBlock hIndexed

/--
**Drawing a block on a screen of at most 2 ^ 31 pixels.** Every index is an `int`
then, so whatever the frame buffer held, the pixels of the block that lie on the
screen are put there, and nothing else changes.
-/
theorem gpuFbdraw_draws (draw : Fbdraw) (d : GpuCanvas) (hBlock : Block draw)
    (hScreen : d.w.toNat * d.h.toNat ≤ 2 ^ 31) (fb : Int → Pixel) :
    DrawsBlock draw d fb (gpuFbdraw draw { display := d, fb := fb }).fb := by
  have hIndexed : Indexed draw d := by
    intro r i hDrawn
    have hLast : place draw d r i < d.w.toNat * d.h.toNat :=
      Picture.index_lt hDrawn.right hDrawn.bottom
    have hFirst := place_col draw d r i
    omega
  exact drawsBlock_of_indexed (s := { display := d, fb := fb }) hBlock hIndexed

/-- One white pixel in the first column. -/
def onePixel (y : Word) : Fbdraw := { x := 0, y := y, pixels := fun _ => 0xffffff, w := 1, h := 1 }

private theorem onePixel_block (y : Word) (hy : 0 ≤ y.toInt) (hBottom : y.toInt + 1 < 2 ^ 31) :
    Block (onePixel y) :=
  have hSmall : 0 ≤ (0 : Word).toInt ∧ 0 ≤ (1 : Word).toInt ∧
      (0 : Word).toInt + (1 : Word).toInt < 2 ^ 31 := by decide
  ⟨hSmall.1, hy, hSmall.2.1, hSmall.2.1, hSmall.2.2, hBottom⟩

theorem gpuFbdraw_draws_vga :
    (640#16).toNat * (480#16).toNat ≤ 2 ^ 31 ∧
      ∀ fb, DrawsBlock (onePixel 479) ⟨640, 480⟩ fb
        (gpuFbdraw (onePixel 479) { display := ⟨640, 480⟩, fb := fb }).fb :=
  ⟨by decide, gpuFbdraw_draws (onePixel 479) ⟨640, 480⟩
    (onePixel_block 479 (by decide) (by decide)) (by decide)⟩

/-- The first pixel of row 32769 of a screen of 65535 by 65535. -/
theorem gpuFbdraw_overflow :
    Block (onePixel 32769) ∧
      ¬ ∀ fb, DrawsBlock (onePixel 32769) ⟨65535, 65535⟩ fb
        (gpuFbdraw (onePixel 32769) { display := ⟨65535, 65535⟩, fb := fb }).fb := by
  have hBlock := onePixel_block 32769 (by decide) (by decide)
  refine ⟨hBlock, ?_⟩
  intro hAll
  have hInt := indexed_of_drawsBlock hBlock hAll 0 0 ⟨by decide, by decide, by decide, by decide⟩
  exact absurd hInt (by decide)

end AbstractMachine.X86.Gpu
