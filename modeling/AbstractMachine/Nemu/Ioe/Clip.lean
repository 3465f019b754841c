import AbstractMachine.Nemu.Ioe.Gpu
import AbstractMachine.X86.Ioe.Gpu

/-!
# Blocks that stick out of the screen

`__am_gpu_fbdraw` of nemu does not look at the edges of the screen.  What sticks
out on the right lands on the left of the rows below, and what sticks out below
lands behind the frame buffer; `gpu_fbdraw` of x86-qemu draws neither.
-/

namespace AbstractMachine.Nemu

open AbstractMachine.X86.Gpu (Block Drawn Fbdraw GpuCanvas Indexed Screen gpuFbdraw gpuFbdraw_at
  gpuFbdraw_outside place toPixel)

variable {dev : Device} {ctl : AmGpuFbdraw} {s : Ioe} {t : Screen} {io : Word → Word}

/-! ## Two screens -/

/-- The loops of `__am_gpu_fbdraw`, without the register that is written after them. -/
def drawBlock (ctl : AmGpuFbdraw) (s : Ioe) : Word → Word :=
  (drawRows ctl.pixels s.gpu.width ctl.w ctl.h.toInt.toNat
    { pixelIdx := 0, bufferIdx := ctl.y * s.gpu.width + ctl.x, io := s.io }).io

/-- The request, as x86-qemu gets it. -/
def AmGpuFbdraw.toFbdraw (ctl : AmGpuFbdraw) : Fbdraw where
  x := ctl.x
  y := ctl.y
  pixels n := ctl.pixels (BitVec.ofInt 32 n)
  w := ctl.w
  h := ctl.h

instance : Coe AmGpuFbdraw Fbdraw := ⟨AmGpuFbdraw.toFbdraw⟩

private theorem block_toNat (h : Block ctl) :
    ctl.x.toInt = ctl.x.toNat ∧ ctl.y.toInt = ctl.y.toNat ∧ ctl.w.toInt = ctl.w.toNat ∧
      ctl.h.toInt.toNat = ctl.h.toNat := h.toNat

/-- The screen of x86-qemu is as large as the one of nemu. -/
structure SameSize (dev : Device) (display : GpuCanvas) : Prop where
  w : display.w.toNat = dev.width
  h : display.h.toNat = dev.height

/-- The frame buffers show the same colours. -/
def SameScreen (dev : Device) (s : Ioe) (t : Screen) : Prop :=
  ∀ n : Nat, n < dev.width * dev.height → toPixel (s.io (fbWord n)) = t.fb n

/-- Both drivers change the screen in the same way, and neither writes outside the
frame buffer, whatever was there. -/
structure Agrees (dev : Device) (ctl : AmGpuFbdraw) : Prop where
  same : ∀ s t, s.gpu = amGpuConfig dev → SameSize dev t.display → SameScreen dev s t →
    SameScreen dev (amGpuFbdraw ctl s) (gpuFbdraw ctl t)
  nemu : ∀ s a, s.gpu = amGpuConfig dev → (∀ n, n < dev.width * dev.height → a ≠ fbWord n) →
    drawBlock ctl s a = s.io a
  qemu : ∀ (t : Screen) (k : Int), SameSize dev t.display →
    (∀ n : Nat, n < dev.width * dev.height → k ≠ n) → (gpuFbdraw ctl t).fb k = t.fb k

/-- The index of a row of a screen that nemu can address is an `int`. -/
theorem indexed_of_fits {d : GpuCanvas} (hFits : FbFits dev) (hSize : SameSize dev d) :
    Indexed ctl d := by
  intro r i hDrawn
  have hRight := hDrawn.right
  have hPlace : place ctl d r 0 < d.w.toNat * d.h.toNat :=
    Lib.Picture.index_lt (by omega) hDrawn.bottom
  have hFb : FB_ADDR.toNat = 0xa1000000 := rfl
  rw [hSize.w, hSize.h] at hPlace
  unfold FbFits at hFits
  omega

/-! ## What is overwritten -/

variable {pixels : Word → Word} {d d' : Draw} {a : Word} {b i j k n r stride : Nat}

/-- The loops are at the same place. -/
structure SameIdx (d d' : Draw) : Prop where
  pixel : d'.pixelIdx = d.pixelIdx
  buffer : d'.bufferIdx = d.bufferIdx

theorem SameIdx.row (h : SameIdx d d') (pixels : Word → Word) (n : Nat) :
    SameIdx (drawRow pixels n d) (drawRow pixels n d') := by
  have hIdx := drawRow_idx pixels n d
  have hIdx' := drawRow_idx pixels n d'
  rw [h.pixel, h.buffer] at hIdx'
  exact ⟨hIdx'.1.trans hIdx.1.symm, hIdx'.2.trans hIdx.2.symm⟩

/-- What a row leaves in a word depends on what was there only where it does not draw. -/
theorem drawRow_same (hSame : SameIdx d d') (hd : d.bufferIdx = BitVec.ofNat 32 b)
    (h : d.io a = d'.io a ∨ ∃ j, j < n ∧ a = fbWord (b + j)) :
    (drawRow pixels n d).io a = (drawRow pixels n d').io a := by
  induction n generalizing d d' b with
  | zero =>
      rcases h with h | ⟨j, hj, -⟩
      · exact h
      · omega
  | succ n ih =>
      rw [drawRow, drawRow, hSame.pixel, hSame.buffer]
      apply ih (b := b + 1)
      · exact ⟨rfl, rfl⟩
      · exact (congrArg (· + 1) hd).trans (ofNat_next _)
      · dsimp only
        by_cases hFirst : a = FB_ADDR + 4 * d.bufferIdx
        · left
          rw [hFirst, Function.update_self, Function.update_self]
        · rw [Function.update_of_ne hFirst, Function.update_of_ne hFirst]
          rcases h with h | ⟨j, hj, ha⟩
          · exact Or.inl h
          · cases j with
            | zero =>
                rw [hd] at hFirst
                exact absurd ha hFirst
            | succ j =>
                refine Or.inr ⟨j, by omega, ?_⟩
                rw [ha, Nat.add_assoc, Nat.add_comm 1 j]

private theorem drawRows_same {width w : Word} (hSame : SameIdx d d')
    (hd : d.bufferIdx = BitVec.ofNat 32 b)
    (hWidth : width = BitVec.ofNat 32 stride) (hw : w = BitVec.ofNat 32 k) (hk : w.toInt.toNat = k)
    (h : d.io a = d'.io a ∨ ∃ r j, r < i ∧ j < k ∧ a = fbWord (b + r * stride + j)) :
    (drawRows pixels width w i d).io a = (drawRows pixels width w i d').io a := by
  induction i generalizing d d' b with
  | zero =>
      rcases h with h | ⟨r, -, hr, -⟩
      · exact h
      · omega
  | succ i ih =>
      have hNext := (drawRow_next pixels hd (word_toNat _) hWidth hw).1
      have hRow := hSame.row pixels k
      rw [drawRows, drawRows, hk]
      apply ih (b := b + stride)
      · exact ⟨hRow.pixel, congrArg (· + (width - w)) hRow.buffer⟩
      · exact hNext
      · rcases h with h | ⟨r, j, hr, hj, ha⟩
        · exact Or.inl (drawRow_same hSame hd (Or.inl h))
        · cases r with
          | zero =>
              rw [Nat.zero_mul, Nat.add_zero] at ha
              exact Or.inl (drawRow_same hSame hd (Or.inr ⟨j, hj, ha⟩))
          | succ r =>
              refine Or.inr ⟨r, j, by omega, hj, ?_⟩
              rw [ha, Nat.succ_mul, Nat.add_comm (r * stride), ← Nat.add_assoc b]

/-! ## Drawing -/

/-- The place of pixel `(j, r)` of the block, as the loops reach it. -/
theorem place_eq (ctl : AmGpuFbdraw) (stride r j : Nat) :
    ctl.y.toNat * stride + ctl.x.toNat + r * stride + j =
      (ctl.y.toNat + r) * stride + (ctl.x.toNat + j) := by
  rw [Nat.add_mul]
  omega

private theorem drawBlock_outside (hBlock : Block ctl) (hInit : s.gpu = amGpuConfig dev)
    (ha : ∀ r j, r < ctl.h.toNat → j < ctl.w.toNat →
      a ≠ pixelWord dev (ctl.x.toNat + j) (ctl.y.toNat + r)) :
    drawBlock ctl s a = s.io a := by
  obtain ⟨-, -, hw, hh⟩ := block_toNat hBlock
  have hWidth := cfg_width hInit
  unfold drawBlock
  rw [hh]
  apply drawRows_outside (start_idx hWidth) hWidth (word_toNat ctl.w) (by omega)
  intro r j hr hj
  rw [place_eq]
  exact ha r j hr hj

/-- A word that is drawn does not show what was there. -/
theorem drawBlock_same (hBlock : Block ctl) (hInit : s.gpu = amGpuConfig dev)
    (hr : r < ctl.h.toNat) (hj : j < ctl.w.toNat)
    (ha : a = pixelWord dev (ctl.x.toNat + j) (ctl.y.toNat + r)) :
    drawBlock ctl s a = drawBlock ctl { s with io := io } a := by
  obtain ⟨-, -, hw, hh⟩ := block_toNat hBlock
  have hWidth := cfg_width hInit
  unfold drawBlock
  rw [hh]
  refine drawRows_same ?_ (start_idx hWidth) hWidth (word_toNat ctl.w) (by omega) ?_
  · exact ⟨rfl, rfl⟩
  · refine Or.inr ⟨r, j, hr, hj, ?_⟩
    rw [place_eq]
    exact ha

private theorem fbdraw_eq_drawBlock (hFits : FbFits dev) (hn : n < dev.width * dev.height) :
    (amGpuFbdraw ctl s).io (fbWord n) = drawBlock ctl s (fbWord n) :=
  amGpuFbdraw_io hFits hn

/-! ## Agreement -/

/-- A `uint16_t`, as a word. -/
theorem half_lt (v : BitVec 16) : (v.setWidth 32).toNat < 2 ^ 16 := by
  rw [BitVec.toNat_setWidth]
  exact Nat.lt_of_le_of_lt (Nat.mod_le _ _) v.isLt

private theorem width_lt (dev : Device) : dev.width < 2 ^ 16 := half_lt _

private theorem height_lt (dev : Device) : dev.height < 2 ^ 16 := half_lt _

/-- A screen of x86-qemu of that size, all of one colour. -/
def plain (dev : Device) (v : Word) : Screen where
  display := { w := BitVec.ofNat 16 dev.width, h := BitVec.ofNat 16 dev.height }
  fb _ := toPixel v

private theorem plain_size (dev : Device) (v : Word) : SameSize dev (plain dev v).display :=
  ⟨Nat.mod_eq_of_lt (width_lt dev), Nat.mod_eq_of_lt (height_lt dev)⟩

/-- The lowest byte is the blue of a pixel. -/
theorem toPixel_next (v : Word) : toPixel (v + 1) ≠ toPixel v := by
  intro hEq
  have hBlue := congrArg (fun p => p.b.toNat) hEq
  have hOne : (1 : Word).toNat = 1 := rfl
  unfold toPixel X86.Gpu.B at hBlue
  rw [BitVec.toNat_setWidth, BitVec.toNat_setWidth, BitVec.toNat_add, hOne] at hBlue
  omega

/-- Where the drivers agree, nemu draws no pixel that x86-qemu does not draw. -/
theorem Agrees.drawn (h : Agrees dev ctl) (hFits : FbFits dev) (hBlock : Block ctl)
    (hr : r < ctl.h.toNat) (hj : j < ctl.w.toNat) :
    ∃ r' j', r' < ctl.h.toNat ∧ ctl.y.toNat + r' < dev.height ∧ j' < ctl.w.toNat ∧
      ctl.x.toNat + j' < dev.width ∧
      pixelWord dev (ctl.x.toNat + j) (ctl.y.toNat + r) =
        pixelWord dev (ctl.x.toNat + j') (ctl.y.toNat + r') := by
  by_contra hNot
  -- the screen shows another colour than the one that is drawn
  let blank := amGpuInit dev (loaded (fun _ => 0) 0 (fun _ => 0))
  let a := pixelWord dev (ctl.x.toNat + j) (ctl.y.toNat + r)
  let v := drawBlock ctl blank a
  let s : Ioe := { blank with io := fun _ => v + 1 }
  have hDrawn : drawBlock ctl s a = v := (drawBlock_same hBlock rfl hr hj rfl).symm
  by_cases hScreen : ∃ n, n < dev.width * dev.height ∧ a = fbWord n
  · obtain ⟨n, hn, ha⟩ := hScreen
    have hSize := plain_size dev (v + 1)
    have hSame := h.same s (plain dev (v + 1)) rfl hSize (fun _ _ => rfl) n hn
    have hKept : (gpuFbdraw ctl (plain dev (v + 1))).fb n = (plain dev (v + 1)).fb n := by
      apply gpuFbdraw_outside hBlock (indexed_of_fits hFits hSize)
      rintro r' j' ⟨hr', hj', hRow, hCol⟩ hEq
      unfold place at hEq
      rw [hSize.w] at hCol hEq
      rw [hSize.h] at hRow
      have hPlace : n = (ctl.y.toNat + r') * dev.width + (ctl.x.toNat + j') :=
        Int.ofNat.inj hEq
      rw [hPlace] at ha
      exact hNot ⟨r', j', hr', hRow, hj', hCol, ha⟩
    rw [fbdraw_eq_drawBlock hFits hn, ← ha, hDrawn, hKept] at hSame
    exact toPixel_next v hSame.symm
  · have hKept := h.nemu s a rfl (fun n hn ha => hScreen ⟨n, hn, ha⟩)
    rw [hDrawn] at hKept
    exact toPixel_next v (congrArg toPixel hKept.symm)

/-- The last pixel of a block that sticks out has no counterpart. -/
theorem Agrees.inScreen (h : Agrees dev ctl) (hFits : FbFits dev) (hBlock : Block ctl)
    (hw : 0 < ctl.w.toNat) (hh : 0 < ctl.h.toNat) : InScreen dev ctl := by
  obtain ⟨hx, hy, hw', hh'⟩ := block_toNat hBlock
  have hNonneg := hBlock.h
  have hWidth := width_lt dev
  have hRoom : dev.width * dev.height + dev.width < 2 ^ 30 := by
    have hFb : FB_ADDR.toNat = 0xa1000000 := rfl
    unfold FbFits at hFits
    omega
  have hRowLe : ∀ Y Y' : Nat, Y ≤ Y' → Y * dev.width ≤ Y' * dev.width :=
    fun _ _ hLe => Nat.mul_le_mul_right _ hLe
  have hComm := Nat.mul_comm dev.width dev.height
  -- some pixel is drawn, so the block begins on the screen
  obtain ⟨r₀, j₀, -, hRow, -, hCol, -⟩ := h.drawn hFits hBlock hh hw
  have hBottom : ctl.y.toNat + ctl.h.toNat ≤ dev.height := by
    by_contra hOut
    obtain ⟨r, j, -, hr, -, hj, hEq⟩ := h.drawn hFits hBlock (r := dev.height - ctl.y.toNat)
      (j := 0) (by omega) hw
    have hBelow : ctl.y.toNat + (dev.height - ctl.y.toNat) = dev.height := by omega
    have hPlace := place_lt hj hr
    rw [hBelow] at hEq
    have hSame := fbWord_inj (by omega) (by omega) hEq
    omega
  have hRight : ctl.x.toNat + ctl.w.toNat ≤ dev.width := by
    by_contra hOut
    obtain ⟨r, j, hr, -, -, hj, hEq⟩ := h.drawn hFits hBlock (r := ctl.h.toNat - 1)
      (j := dev.width - ctl.x.toNat) (by omega) (by omega)
    have hEnd : ctl.x.toNat + (dev.width - ctl.x.toNat) = dev.width := by omega
    have hLast := hRowLe (ctl.y.toNat + (ctl.h.toNat - 1)) dev.height (by omega)
    have hLe := hRowLe (ctl.y.toNat + r) (ctl.y.toNat + (ctl.h.toNat - 1)) (by omega)
    rw [hEnd] at hEq
    have hSame := fbWord_inj (by omega) (by omega) hEq
    omega
  exact ⟨hBlock.x, hBlock.y, hBlock.w, hBlock.h, by omega, by omega⟩

/-- A block without pixels, or one that does not stick out. -/
theorem agrees_of_inScreen (hFits : FbFits dev) (hBlock : Block ctl)
    (hIn : 0 < ctl.w.toNat → 0 < ctl.h.toNat → InScreen dev ctl) : Agrees dev ctl := by
  -- every pixel of the block is one of the screen
  have hPixel : ∀ {r j : Nat}, r < ctl.h.toNat → j < ctl.w.toNat →
      ctl.y.toNat + r < dev.height ∧ ctl.x.toNat + j < dev.width := by
    intro r j hr hj
    have hToNat := (hIn (by omega) (by omega)).toNat
    omega
  constructor
  · intro s t hInit hSize hSame n hn
    by_cases hBlock' : ∃ r j, r < ctl.h.toNat ∧ j < ctl.w.toNat ∧
        n = (ctl.y.toNat + r) * dev.width + (ctl.x.toNat + j)
    · obtain ⟨r, j, hr, hj, rfl⟩ := hBlock'
      obtain ⟨hRow, hCol⟩ := hPixel hr hj
      have hDrawn := drawn_initialised hFits (hIn (by omega) (by omega)) hInit
      rw [← hSize.h] at hRow
      rw [← hSize.w] at hCol
      have hQemu := gpuFbdraw_at (s := t) hBlock (indexed_of_fits hFits hSize)
        ⟨hr, hj, hRow, hCol⟩
      have hSource : ctl.toFbdraw.pixels (r * ctl.w.toNat + j : Nat) =
          ctl.pixels (BitVec.ofNat 32 (r * ctl.w.toNat + j)) :=
        congrArg ctl.pixels (BitVec.ofInt_natCast _ _)
      unfold place at hQemu
      rw [hSize.w] at hQemu
      have hQemu := hQemu.trans (congrArg toPixel hSource)
      exact (congrArg toPixel (hDrawn.block r j hr hj)).trans hQemu.symm
    · have hKept : drawBlock ctl s (fbWord n) = s.io (fbWord n) := by
        apply drawBlock_outside hBlock hInit
        intro r j hr hj hEq
        obtain ⟨hRow, hCol⟩ := hPixel hr hj
        have hPlace := fbWord_inj (hFits.lt hn) (hFits.lt (place_lt hCol hRow)) hEq
        exact hBlock' ⟨r, j, hr, hj, hPlace⟩
      have hQemu : (gpuFbdraw ctl t).fb n = t.fb n := by
        apply gpuFbdraw_outside hBlock (indexed_of_fits hFits hSize)
        rintro r j ⟨hr, hj, -, -⟩ hEq
        unfold place at hEq
        rw [hSize.w] at hEq
        exact hBlock' ⟨r, j, hr, hj, Int.ofNat.inj hEq⟩
      rw [fbdraw_eq_drawBlock hFits hn, hKept, hQemu]
      exact hSame n hn
  · intro s a hInit ha
    apply drawBlock_outside hBlock hInit
    intro r j hr hj
    obtain ⟨hRow, hCol⟩ := hPixel hr hj
    exact ha _ (place_lt hCol hRow)
  · intro t k hSize hk
    apply gpuFbdraw_outside hBlock (indexed_of_fits hFits hSize)
    rintro r j ⟨-, -, hRow, hCol⟩
    unfold place
    rw [hSize.w] at hCol ⊢
    rw [hSize.h] at hRow
    exact hk _ (place_lt hCol hRow)

/--
**Two drivers, one picture.** With the size of the screen cached, nemu and
x86-qemu draw the same and write nowhere else, if and only if the block has no
pixels or lies inside the screen.
-/
theorem fbdraw_agrees_iff (dev : Device) (ctl : AmGpuFbdraw) (hFits : FbFits dev)
    (hBlock : Block ctl) :
    Agrees dev ctl ↔ ctl.w = 0 ∨ ctl.h = 0 ∨
      ctl.x.toInt + ctl.w.toInt ≤ dev.width ∧ ctl.y.toInt + ctl.h.toInt ≤ dev.height := by
  have hNone : ∀ {v : Word}, v = 0 ↔ v.toNat = 0 := BitVec.toNat_inj.symm
  constructor
  · intro h
    by_contra hNot
    simp only [not_or, hNone] at hNot
    obtain ⟨hw, hh, hOut⟩ := hNot
    have hIn := h.inScreen hFits hBlock (by omega) (by omega)
    exact hOut ⟨hIn.right, hIn.bottom⟩
  · intro hCond
    apply agrees_of_inScreen hFits hBlock
    intro hw hh
    rcases hCond with h0 | h0 | ⟨hRight, hBottom⟩
    · rw [hNone] at h0
      omega
    · rw [hNone] at h0
      omega
    · exact ⟨hBlock.x, hBlock.y, hBlock.w, hBlock.h, hRight, hBottom⟩

/-- One pixel, at column `x` of the first row. -/
def onePixel (x : Word) : AmGpuFbdraw :=
  { x := x, y := 0, pixels := fun _ => 0xff, w := 1, h := 1, sync := true }

theorem fbdraw_agrees_iff_corner :
    Agrees screen (onePixel 399) ↔ (onePixel 399).w = 0 ∨ (onePixel 399).h = 0 ∨
      (onePixel 399).x.toInt + (onePixel 399).w.toInt ≤ screen.width ∧
        (onePixel 399).y.toInt + (onePixel 399).h.toInt ≤ screen.height :=
  fbdraw_agrees_iff screen (onePixel 399) (by decide)
    ⟨by decide, by decide, by decide, by decide, by decide, by decide⟩

/-- Right of the last column is, for nemu, the first column of the next row. -/
theorem fbdraw_right_edge :
    FbFits screen ∧ Block (onePixel 400) ∧ ¬ Agrees screen (onePixel 400) := by
  have hFits : FbFits screen := by decide
  have hBlock : Block (onePixel 400) :=
    ⟨by decide, by decide, by decide, by decide, by decide, by decide⟩
  refine ⟨hFits, hBlock, ?_⟩
  intro hAgrees
  have hIn := hAgrees.inScreen hFits hBlock (by decide) (by decide)
  exact absurd hIn.right (by decide)

end AbstractMachine.Nemu
