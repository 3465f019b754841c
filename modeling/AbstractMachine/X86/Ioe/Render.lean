import Mathlib.Tactic.Choose
import AbstractMachine.X86.Ioe.Scale

/-!
# What is rendered

The picture of a texture is what stands in `vmem`; the one of a subtree is black,
with the pictures of its children scaled and pasted into it, one after another.
`gpu_render` puts the picture of the root into the frame buffer.

The picture of a parent lies below `vbuf_head` while its children are rendered,
and their blocks above.
-/

namespace AbstractMachine.X86.Render

open AbstractMachine.Lib
open AbstractMachine.X86.Gpu (GpuCanvas Pixel Word)

variable {arch : Arch}

/-! ## The composition -/

/-- A pixel of a cleared canvas. -/
def black : Pixel := { b := 0, g := 0, r := 0 }

/-- The picture of a texture. -/
def texture (m : Bytes) (c : Canvas) : Picture Pixel := fun X Y =>
  loadPixel m (c.texturePixels.toNat + 3 * (Picture.index c.width.toNat X Y : Nat))

/-- The local picture, scaled to `w1` by `h1`. -/
def Canvas.scaled (c : Canvas) (src : Picture Pixel) : Picture Pixel :=
  Picture.scale c.width.toNat c.height.toNat c.w1.toNat c.h1.toNat src

/-- The scaled picture is pasted into the one of the parent. -/
def Canvas.onto (c : Canvas) (src dest : Picture Pixel) : Picture Pixel :=
  Picture.paste c.x1.toNat c.y1.toNat c.w1.toNat c.h1.toNat (c.scaled src) dest

/-- The local picture of a canvas; `kids` paints its children. -/
def Canvas.picture (c : Canvas) (m : Bytes) (kids : Picture Pixel → Picture Pixel) :
    Picture Pixel :=
  if c.type = AM_GPU_TEXTURE then texture m c else kids fun _ _ => black

/-- The picture `dest`, after the canvases have been painted in it. -/
def Forest.compose (m : Bytes) : Forest → Picture Pixel → Picture Pixel
  | .nil, dest => dest
  | .node c kids rest, dest => rest.compose m (c.onto (c.picture m (kids.compose m)) dest)

/-- The picture that a pointer to pixels shows. -/
def Gpu.Shows (s : Gpu arch) (px : Ptr) (W H : Nat) (p : Picture Pixel) : Prop :=
  ∀ X Y, X < W → Y < H → s.load px (Picture.index W X Y : Nat) = p X Y

/-! ## Pixels in memory -/

variable {s t : Gpu arch} {px pxLocal : Ptr} {p : Pixel} {k l a b x : Int} {m : Bytes}

private theorem loadPixel_congr {m' : Bytes} (h : ∀ x, a ≤ x → x < a + 3 → m' x = m x) :
    loadPixel m' a = loadPixel m a := by
  unfold loadPixel
  rw [h a (by omega) (by omega), h (a + 1) (by omega) (by omega), h (a + 2) (by omega) (by omega)]

private theorem storePixel_outside (h : x < a ∨ a + 3 ≤ x) : storePixel m a p x = m x := by
  unfold storePixel
  rw [if_neg (by omega), if_neg (by omega), if_neg (by omega)]

private theorem loadPixel_store (m : Bytes) (a : Int) (p : Pixel) :
    loadPixel (storePixel m a p) a = p := by
  have hG : a + 1 ≠ a := by omega
  have hR : a + 2 ≠ a ∧ a + 2 ≠ a + 1 := by omega
  unfold loadPixel storePixel
  rw [if_pos rfl, if_neg hG, if_pos rfl, if_neg hR.1, if_neg hR.2, if_pos rfl]

theorem load_store_same (s : Gpu arch) (px : Ptr) (k : Int) (p : Pixel) :
    (s.store px k p).load px k = p := by
  cases px with
  | fb => exact Function.update_self ..
  | mem r a =>
      show loadPixel (Function.update s.mem r (storePixel (s.mem r) (a + 3 * k) p) r) _ = p
      rw [Function.update_self]
      exact loadPixel_store ..

private theorem load_store_ne (h : l ≠ k) : (s.store px k p).load px l = s.load px l := by
  cases px with
  | fb => exact Function.update_of_ne h ..
  | mem r a =>
      show loadPixel (Function.update s.mem r (storePixel (s.mem r) (a + 3 * k) p) r) _ = _
      rw [Function.update_self]
      apply loadPixel_congr
      intro x hLe hLt
      exact storePixel_outside (by omega)

/-- The bytes of the first `n` pixels behind a pointer. -/
def Ptr.Covers (px : Ptr) (n : Int) (r : Region) (x : Int) : Prop :=
  ∃ a, px = .mem r a ∧ a ≤ x ∧ x < a + 3 * n

variable {n n' : Int} {r : Region}

private theorem store_mem (hk : 0 ≤ k ∧ k < n) (hx : ¬ px.Covers n r x) :
    (s.store px k p).mem r x = s.mem r x := by
  cases px with
  | fb => rfl
  | mem r' a =>
      show Function.update s.mem r' (storePixel (s.mem r') (a + 3 * k) p) r x = _
      by_cases hr : r = r'
      · subst hr
        rw [Function.update_self]
        apply storePixel_outside
        by_contra hIn
        exact hx ⟨a, rfl, by omega, by omega⟩
      · rw [Function.update_of_ne hr]

/-- `n'` pixels at `pxLocal` that are none of the `n` at `px`. -/
structure Ptr.Apart (px pxLocal : Ptr) (n n' : Int) : Prop where
  mem : pxLocal ≠ .fb
  covers : ∀ r x, pxLocal.Covers n' r x → ¬ px.Covers n r x

theorem load_store_apart (h : px.Apart pxLocal n n') (hk : 0 ≤ k ∧ k < n) (hl : 0 ≤ l ∧ l < n') :
    (s.store px k p).load pxLocal l = s.load pxLocal l := by
  cases pxLocal with
  | fb => exact absurd rfl h.mem
  | mem r a =>
      apply loadPixel_congr
      intro x hLe hLt
      exact store_mem hk (h.covers r x ⟨a, rfl, by omega, by omega⟩)

/-! ## The loops -/

variable {c : Canvas} {W w h : BitVec 16} {H i j : Nat} {cell : Nat × Nat}
  {cs : List (Nat × Nat)}

/-- Where a cell is copied to, and from. -/
def Canvas.dst (c : Canvas) (W : BitVec 16) (cell : Nat × Nat) : Int :=
  (dstIndex c W cell.1 cell.2).toInt

/-- Where a cell is copied from. -/
def Canvas.src (c : Canvas) (w h : BitVec 16) (cell : Nat × Nat) : Int :=
  (srcIndex w h c.w1 c.h1 cell.1 cell.2).toInt

private theorem copyPixel_load (q : Ptr) (k : Int) :
    (copyPixel c W w h pxLocal px s cell).load q k =
    (s.store px (c.dst W cell) (s.load pxLocal (c.src w h cell))).load q k := by
  cases q <;> rfl

theorem fold_unwritten (h' : ∀ cell ∈ cs, k ≠ c.dst W cell) :
    (cs.foldl (copyPixel c W w h pxLocal px) s).load px k = s.load px k := by
  induction cs generalizing s with
  | nil => rfl
  | cons cell cs ih =>
      rw [List.foldl_cons, ih fun cell hMem => h' cell (List.mem_cons_of_mem _ hMem),
        copyPixel_load, load_store_ne (h' cell List.mem_cons_self)]

/-- Every cell lies among the pixels at `px`, and is copied from those at `pxLocal`. -/
structure InRange (c : Canvas) (W w h : BitVec 16) (n n' : Int) (cs : List (Nat × Nat)) : Prop where
  dst : ∀ cell ∈ cs, 0 ≤ c.dst W cell ∧ c.dst W cell < n
  src : ∀ cell ∈ cs, 0 ≤ c.src w h cell ∧ c.src w h cell < n'

theorem InRange.tail (hRange : InRange c W w h n n' (cell :: cs)) : InRange c W w h n n' cs :=
  ⟨fun x hx => hRange.dst x (List.mem_cons_of_mem _ hx),
    fun x hx => hRange.src x (List.mem_cons_of_mem _ hx)⟩

/-- Cells that are copied to different places. -/
theorem fold_written (hApart : px.Apart pxLocal n n') (hRange : InRange c W w h n n' cs)
    (hInj : ∀ x ∈ cs, ∀ y ∈ cs, c.dst W x = c.dst W y → x = y) (hCell : cell ∈ cs) :
    (cs.foldl (copyPixel c W w h pxLocal px) s).load px (c.dst W cell) =
      s.load pxLocal (c.src w h cell) := by
  induction cs generalizing s with
  | nil => cases hCell
  | cons first cs ih =>
      rw [List.foldl_cons]
      by_cases hLater : cell ∈ cs
      · rw [ih hRange.tail (fun x hx y hy => hInj x (List.mem_cons_of_mem _ hx) y
          (List.mem_cons_of_mem _ hy)) hLater, copyPixel_load,
          load_store_apart hApart (hRange.dst first List.mem_cons_self) (hRange.src cell hCell)]
      · have hFirst : cell = first := (List.mem_cons.mp hCell).resolve_right hLater
        subst hFirst
        rw [fold_unwritten, copyPixel_load, load_store_same]
        intro y hy hEq
        cases hInj cell List.mem_cons_self y (List.mem_cons_of_mem _ hy) hEq
        exact hLater hy

theorem fold_mem (hDst : ∀ cell ∈ cs, 0 ≤ c.dst W cell ∧ c.dst W cell < n)
    (hx : ¬ px.Covers n r x) :
    (cs.foldl (copyPixel c W w h pxLocal px) s).mem r x = s.mem r x := by
  induction cs generalizing s with
  | nil => rfl
  | cons cell cs ih =>
      rw [List.foldl_cons, ih fun cell hMem => hDst cell (List.mem_cons_of_mem _ hMem)]
      exact store_mem (hDst cell List.mem_cons_self) hx

theorem fold_fb (hMem : px ≠ .fb) :
    (cs.foldl (copyPixel c W w h pxLocal px) s).fb = s.fb := by
  induction cs generalizing s with
  | nil => rfl
  | cons cell cs ih =>
      rw [List.foldl_cons, ih]
      cases px with
      | fb => exact absurd rfl hMem
      | mem r a => rfl

/-! ## One canvas -/

/-- The place of column `i` and row `j` of the rectangle, in a picture of width `W`. -/
def Canvas.place (c : Canvas) (W : BitVec 16) (i j : Nat) : Nat :=
  Picture.index W.toNat (c.x1.toNat + i) (c.y1.toNat + j)

private theorem dstIndex_eq (c : Canvas) (W : BitVec 16) (i j : Nat) :
    dstIndex c W i j = BitVec.ofNat 32 (c.place W i j) := by
  unfold dstIndex Canvas.place Picture.index
  rw [setWidth_half, setWidth_half, setWidth_half, ← BitVec.ofNat_add, ← BitVec.ofNat_add,
    ← BitVec.ofNat_mul, ← BitVec.ofNat_add, Nat.mul_comm]

/-- The rectangle has indices that are `int`s. -/
def Canvas.Placed (c : Canvas) (W : BitVec 16) : Prop :=
  ∀ i j, i < c.w1.toNat → j < c.h1.toNat → c.place W i j < 2 ^ 31

private theorem dst_eq (hPlaced : c.Placed W) (hi : i < c.w1.toNat) (hj : j < c.h1.toNat) :
    c.dst W (i, j) = c.place W i j := by
  unfold Canvas.dst
  rw [dstIndex_eq, toInt_int (hPlaced i j hi hj)]

/-- What a canvas needs to be copied rightly from a picture of its size. -/
structure Canvas.Fits (c : Canvas) (W : BitVec 16) (H : Nat) : Prop where
  inside : c.Inside W.toNat H
  scalable : c.Scalable
  area : 3 * (c.width.toNat * c.height.toNat) ≤ VMEM_SIZE

theorem place_lt (hRect : c.RectInside W.toNat H) (hi : i < c.w1.toNat) (hj : j < c.h1.toNat) :
    c.place W i j < W.toNat * H := by
  unfold Canvas.RectInside at hRect
  exact Picture.index_lt (by omega) (by omega)

/-- A canvas drawn inside is copied to pixels of the picture. -/
theorem dst_cells (hRect : c.RectInside W.toNat H) (hPlaced : c.Placed W) :
    ∀ cell ∈ cells c, 0 ≤ c.dst W cell ∧ c.dst W cell < (W.toNat * H : Nat) := by
  rintro ⟨i, j⟩ hCell
  obtain ⟨hi, hj⟩ := mem_cells.mp hCell
  have hLt := place_lt hRect hi hj
  rw [dst_eq hPlaced hi hj]
  omega

/-- The pixel that a cell is copied from. -/
theorem src_eq (hFits : c.Fits W H) (hi : i < c.w1.toNat) (hj : j < c.h1.toNat) :
    c.src c.width c.height (i, j) =
        (Picture.index c.width.toNat (i * c.width.toNat / c.w1.toNat)
          (j * c.height.toNat / c.h1.toNat) : Nat) ∧
      Picture.index c.width.toNat (i * c.width.toNat / c.w1.toNat)
        (j * c.height.toNat / c.h1.toNat) < c.width.toNat * c.height.toNat := by
  have hSize : VMEM_SIZE = 2 ^ 19 := rfl
  have hArea := hFits.area
  obtain ⟨hRow, hCol⟩ := hFits.scalable.products hi hj
  have hIndex := Picture.index_lt (Picture.scaled_lt hi hFits.inside.width)
    (Picture.scaled_lt hj hFits.inside.height)
  refine ⟨?_, hIndex⟩
  unfold Canvas.src
  rw [srcIndex_eq hRow hCol, toInt_int (by omega)]

private theorem inRange_cells (hFits : c.Fits W H) (hPlaced : c.Placed W) :
    InRange c W c.width c.height (W.toNat * H : Nat) (c.width.toNat * c.height.toNat : Nat)
      (cells c) := by
  refine ⟨dst_cells hFits.inside.rect hPlaced, ?_⟩
  rintro ⟨i, j⟩ hCell
  obtain ⟨hi, hj⟩ := mem_cells.mp hCell
  obtain ⟨hEq, hLt⟩ := src_eq hFits hi hj
  rw [hEq]
  omega

private theorem dst_inj (hFits : c.Fits W H) (hPlaced : c.Placed W) :
    ∀ x ∈ cells c, ∀ y ∈ cells c, c.dst W x = c.dst W y → x = y := by
  rintro ⟨i, j⟩ hx ⟨i', j'⟩ hy hEq
  obtain ⟨hi, hj⟩ := mem_cells.mp hx
  obtain ⟨hi', hj'⟩ := mem_cells.mp hy
  have hRight := hFits.inside.right
  rw [dst_eq hPlaced hi hj, dst_eq hPlaced hi' hj'] at hEq
  obtain ⟨hCol, hRow⟩ := Picture.index_inj (by omega) (by omega) (Int.ofNat.inj hEq)
  exact Prod.ext (by dsimp only; omega) (by dsimp only; omega)

variable {q : Picture Pixel} {dest : Picture Pixel}

/-- The rectangle shows the scaled picture. -/
theorem drawLocal_at (hFits : c.Fits W H) (hPlaced : c.Placed W)
    (hApart : px.Apart pxLocal (W.toNat * H : Nat) (c.width.toNat * c.height.toNat : Nat))
    (hShows : s.Shows pxLocal c.width.toNat c.height.toNat q)
    (hi : i < c.w1.toNat) (hj : j < c.h1.toNat) :
    (drawLocal c W c.width c.height pxLocal px s).load px (c.place W i j) = c.scaled q i j := by
  have hWritten := fold_written (s := s) hApart (inRange_cells hFits hPlaced)
    (dst_inj hFits hPlaced) (mem_cells.mpr ⟨hi, hj⟩)
  rw [dst_eq hPlaced hi hj, (src_eq hFits hi hj).1] at hWritten
  exact hWritten.trans (hShows _ _ (Picture.scaled_lt hi hFits.inside.width)
    (Picture.scaled_lt hj hFits.inside.height))

private theorem drawLocal_outside (hPlaced : c.Placed W)
    (hOut : ∀ i j, i < c.w1.toNat → j < c.h1.toNat → k ≠ c.place W i j) :
    (drawLocal c W w h pxLocal px s).load px k = s.load px k := by
  apply fold_unwritten
  rintro ⟨i, j⟩ hCell
  obtain ⟨hi, hj⟩ := mem_cells.mp hCell
  rw [dst_eq hPlaced hi hj]
  exact hOut i j hi hj

/-- The picture of the parent. -/
theorem drawLocal_shows (hFits : c.Fits W H) (hPlaced : c.Placed W)
    (hApart : px.Apart pxLocal (W.toNat * H : Nat) (c.width.toNat * c.height.toNat : Nat))
    (hShows : s.Shows pxLocal c.width.toNat c.height.toNat q) (hDest : s.Shows px W.toNat H dest) :
    (drawLocal c W c.width c.height pxLocal px s).Shows px W.toNat H (c.onto q dest) := by
  intro X Y hX hY
  unfold Canvas.onto Picture.paste
  by_cases hIn : (c.x1.toNat ≤ X ∧ X < c.x1.toNat + c.w1.toNat) ∧
      c.y1.toNat ≤ Y ∧ Y < c.y1.toNat + c.h1.toNat
  · have hCol : c.x1.toNat + (X - c.x1.toNat) = X := by omega
    have hRow : c.y1.toNat + (Y - c.y1.toNat) = Y := by omega
    have hAt := drawLocal_at hFits hPlaced hApart hShows (i := X - c.x1.toNat)
      (j := Y - c.y1.toNat) (by omega) (by omega)
    unfold Canvas.place at hAt
    rw [hCol, hRow] at hAt
    rw [if_pos hIn]
    exact hAt
  · rw [if_neg hIn, drawLocal_outside hPlaced, hDest X Y hX hY]
    intro i j hi hj hEq
    have hRight := hFits.inside.right
    obtain ⟨hCol, hRow⟩ := Picture.index_inj hX (by omega) (Int.ofNat.inj hEq)
    omega

/-! ## The local picture -/

variable {vbuf : BitVec (wordBits arch)} {kids rest F : Forest} {ptr : Word} {S fuel A : Nat}

/-- The first `S` bytes of `vbuf` are taken, and `vmem` is `m`. -/
structure Ready (vbuf : BitVec (wordBits arch)) (m : Bytes) (S : Nat) (s : Gpu arch) : Prop where
  head : s.vbufHead = vbuf + BitVec.ofNat _ S
  vmem : s.mem .vmem = m

/-- What the children leave when they are painted in the picture of `n` pixels at
`A`, which showed `dest`. -/
structure Painted (vbuf : BitVec (wordBits arch)) (m : Bytes) (F : Forest) (S A W H : Nat)
    (dest : Picture Pixel) (s t : Gpu arch) : Prop where
  ready : Ready vbuf m (S + Bump.total Request.need F.requests) t
  shows : t.Shows (.mem .vbuf A) W H (F.compose m dest)
  fb : t.fb = s.fb
  display : t.display = s.display
  below : ∀ x : Int, x < S → (x < A ∨ A + 3 * (W * H : Nat) ≤ x) → t.mem .vbuf x = s.mem .vbuf x

/-- What is ready before a canvas is drawn: its picture of `n` pixels, apart from
the first `S` bytes of `vbuf`. -/
structure Prepared (vbuf : BitVec (wordBits arch)) (m : Bytes) (c : Canvas) (kids : Forest)
    (S : Nat) (s t : Gpu arch) (pxLocal : Ptr) : Prop where
  ready : Ready vbuf m (S + Bump.total Request.need (c.requests ++ kids.requests)) t
  shows : t.Shows pxLocal c.width.toNat c.height.toNat (c.picture m (kids.compose m))
  fb : t.fb = s.fb
  display : t.display = s.display
  below : ∀ x : Int, x < S → t.mem .vbuf x = s.mem .vbuf x
  mem : pxLocal ≠ .fb
  above : ∀ r x, pxLocal.Covers (c.width.toNat * c.height.toNat : Nat) r x →
    r = .vmem ∨ r = .vbuf ∧ S ≤ x

/-- A block that has just been zeroed. -/
theorem shows_black {W H : Nat} (hMem : s.mem .vbuf = zeroFill m S (3 * (W * H) : Nat)) :
    s.Shows (.mem .vbuf S) W H fun _ _ => black := by
  intro X Y hX hY
  have hIndex := Picture.index_lt hX hY
  have hZero : ∀ x : Int, S ≤ x → x < S + (3 * (W * H) : Nat) → s.mem .vbuf x = 0 := by
    intro x hLe hLt
    rw [hMem]
    exact if_pos ⟨hLe, hLt⟩
  show loadPixel (s.mem .vbuf) (S + 3 * (Picture.index W X Y : Nat)) = black
  unfold loadPixel
  rw [hZero _ (by omega) (by omega), hZero _ (by omega) (by omega), hZero _ (by omega) (by omega)]
  rfl

private theorem prepared_texture (hReady : Ready vbuf m S s) (hType : c.type = AM_GPU_TEXTURE)
    (hKids : kids = .nil) : Prepared vbuf m c kids S s s (.mem .vmem c.texturePixels.toNat) := by
  have hNot : AM_GPU_TEXTURE ≠ AM_GPU_SUBTREE := by decide
  have hNone : c.requests ++ kids.requests = [] := by
    unfold Canvas.requests
    rw [hType, if_neg hNot, hKids]
    rfl
  refine ⟨?_, ?_, rfl, rfl, fun _ _ => rfl, nofun, ?_⟩
  · rw [hNone, Bump.total_nil]
    exact hReady
  · intro X Y _ _
    unfold Canvas.picture
    rw [if_pos hType]
    show loadPixel (s.mem .vmem) _ = texture m c X Y
    rw [hReady.vmem]
    rfl
  · rintro r x ⟨a, hEq, -⟩
    cases hEq
    exact Or.inl rfl

/-- The children of a subtree are painted in a block of its own. -/
theorem prepared_subtree (hType : c.type = AM_GPU_SUBTREE) {s' t : Gpu arch}
    (hFb : s'.fb = s.fb) (hDisplay : s'.display = s.display)
    (hMem : s'.mem .vbuf = zeroFill (s.mem .vbuf) S (3 * (c.w.toNat * c.h.toNat) : Nat))
    (hPainted : Painted vbuf m kids (S + 3 * (c.w.toNat * c.h.toNat)) S c.w.toNat c.h.toNat
      (fun _ _ => black) s' t) :
    Prepared vbuf m c kids S s t (.mem .vbuf S) := by
  have hNot : AM_GPU_SUBTREE ≠ AM_GPU_TEXTURE := by decide
  have hWidth : c.width = c.w ∧ c.height = c.h := by
    unfold Canvas.width Canvas.height
    rw [hType, if_neg hNot, if_neg hNot]
    exact ⟨rfl, rfl⟩
  have hRequests : Bump.total Request.need (c.requests ++ kids.requests) =
      3 * (c.w.toNat * c.h.toNat) + Bump.total Request.need kids.requests := by
    unfold Canvas.requests
    rw [hType, if_pos rfl]
    rfl
  refine ⟨?_, ?_, hPainted.fb.trans hFb, hPainted.display.trans hDisplay, ?_, nofun, ?_⟩
  · rw [hRequests, ← Nat.add_assoc]
    exact hPainted.ready
  · unfold Canvas.picture
    rw [hType, if_neg hNot, hWidth.1, hWidth.2]
    exact hPainted.shows
  · intro x hx
    rw [hPainted.below x (by omega) (Or.inl hx), hMem]
    exact if_neg (by omega)
  · rintro r x ⟨a, hEq, hLe, -⟩
    cases hEq
    exact Or.inr ⟨rfl, hLe⟩

/-- In a picture of its own below `vbuf_head`, the loop over siblings paints them. -/
def Paints (vbuf : BitVec (wordBits arch)) (m : Bytes) (fuel : Nat) (F : Forest) : Prop :=
  ∀ (ptr : Word) (S A : Nat) (W : BitVec 16) (H : Nat) (dest : Picture Pixel) (s : Gpu arch),
    F.Holds m ptr → F.Inside W.toNat H → S + Bump.total Request.need F.requests ≤ VMEM_SIZE →
    A + 3 * (W.toNat * H) ≤ S → Ready vbuf m S s → s.Shows (.mem .vbuf A) W.toNat H dest →
    ∃ t, renderChildren vbuf fuel ptr W (.mem .vbuf A) s = .ok () t ∧
      Painted vbuf m F S A W.toNat H dest s t

/-- The children of a subtree, in a block behind `S` bytes. -/
theorem children_painted (hVbuf : vbuf.toNat + VMEM_SIZE < 2 ^ wordBits arch)
    (hReady : Ready vbuf m S s) (hType : c.type = AM_GPU_SUBTREE) (hHolds : kids.Holds m c.child)
    (hInKids : kids.Inside c.width.toNat c.height.toNat)
    (hFits : S + Bump.total Request.need (c.requests ++ kids.requests) ≤ VMEM_SIZE)
    (hKids : Paints vbuf m fuel kids) :
    ∃ s' t, vbufAlloc vbuf { w := c.w, h := c.h } s = .ok (.mem .vbuf S) s' ∧
      renderChildren vbuf fuel c.child c.w (.mem .vbuf S) s' = .ok () t ∧
      Prepared vbuf m c kids S s t (.mem .vbuf S) := by
  have hNot : AM_GPU_SUBTREE ≠ AM_GPU_TEXTURE := by decide
  unfold Canvas.width Canvas.height at hInKids
  rw [hType, if_neg hNot, if_neg hNot] at hInKids
  unfold Canvas.requests at hFits
  rw [hType, if_pos rfl, Bump.total_append, Bump.total_cons, Bump.total_nil] at hFits
  have hNeed : (Request.mk c.w c.h).need = 3 * (c.w.toNat * c.h.toNat) := rfl
  obtain ⟨s', hAlloc, hZeroed⟩ := vbufAlloc_fits (r := { w := c.w, h := c.h }) hVbuf hReady.head
    (by omega)
  have hAfter : Ready vbuf m (S + 3 * (c.w.toNat * c.h.toNat)) s' :=
    ⟨hZeroed.head, (hZeroed.others .vmem nofun).trans hReady.vmem⟩
  obtain ⟨t, hRun, hPainted⟩ := hKids c.child (S + 3 * (c.w.toNat * c.h.toNat)) S c.w c.h.toNat _ s'
    hHolds hInKids (by omega) (Nat.le_refl _) hAfter (shows_black hZeroed.vbuf)
  exact ⟨s', t, hAlloc, hRun,
    prepared_subtree hType hZeroed.fb hZeroed.display hZeroed.vbuf hPainted⟩

/-- One canvas, once its children are known. -/
theorem render_prepared (hVbuf : vbuf.toNat + VMEM_SIZE < 2 ^ wordBits arch) {Wp Hp : Nat}
    (px : Ptr) (hReady : Ready vbuf m S s) (hNode : IsNode m c (kids.Holds m) kids ptr)
    (hInside : c.Inside Wp Hp) (hInKids : kids.Inside c.width.toNat c.height.toNat)
    (hFits : S + Bump.total Request.need (c.requests ++ kids.requests) ≤ VMEM_SIZE)
    (hKids : Paints vbuf m fuel kids) :
    ∃ t pxLocal, render vbuf (renderChildren vbuf fuel) (toHost ptr) W px s =
        .ok () (drawLocal c W c.width c.height pxLocal px t) ∧
      Prepared vbuf m c kids S s t pxLocal := by
  rw [(toHost_inside hNode.inside).2]
  show ∃ t pxLocal, (if (canvasAt (s.mem .vmem) ptr.toNat).type = AM_GPU_TEXTURE then _
    else _ : EStateM Stop (Gpu arch) Unit) s = _ ∧ _
  rw [hReady.vmem, hNode.canvas]
  rcases hNode.kind with ⟨hType, hNil⟩ | ⟨hType, hHolds⟩
  · have hHost := (toHost_inside (hInside.texture hType)).2
    refine ⟨s, _, ?_, prepared_texture hReady hType hNil⟩
    unfold Canvas.width Canvas.height
    rw [if_pos hType, if_pos hType, if_pos hType, hHost]
    rfl
  · have hNot : ¬ c.type = AM_GPU_TEXTURE := by
      rw [hType]
      decide
    obtain ⟨s', t, hAlloc, hRun, hPrepared⟩ :=
      children_painted hVbuf hReady hType hHolds hInKids hFits hKids
    refine ⟨t, .mem .vbuf S, ?_, hPrepared⟩
    unfold Canvas.width Canvas.height
    rw [if_neg hNot, if_neg hNot, if_neg hNot, if_pos hType, bind_of_ok hAlloc, bind_of_ok hRun]
    rfl

/-! ## Siblings -/

private theorem shows_congr {W : Nat} {t : Gpu arch} {dest : Picture Pixel}
    (hShows : s.Shows (.mem r A) W H dest)
    (hSame : ∀ x : Int, A ≤ x → x < A + 3 * (W * H : Nat) → t.mem r x = s.mem r x) :
    t.Shows (.mem r A) W H dest := by
  intro X Y hX hY
  have hIndex := Picture.index_lt hX hY
  rw [← hShows X Y hX hY]
  apply loadPixel_congr
  intro x hLe hLt
  exact hSame x (by omega) (by omega)

private theorem requests_alone (c : Canvas) (kids : Forest) :
    (Forest.node c kids .nil).requests = c.requests ++ kids.requests := List.append_nil _

/-- The loops, after the local picture is ready. -/
theorem Prepared.painted (h : Prepared vbuf m c kids S s t pxLocal) (hFits : c.Fits W H)
    (hBlock : A + 3 * (W.toNat * H) ≤ S) (hSpace : S ≤ VMEM_SIZE)
    (hDest : s.Shows (.mem .vbuf A) W.toNat H dest) :
    Painted vbuf m (.node c kids .nil) S A W.toNat H dest s
      (drawLocal c W c.width c.height pxLocal (.mem .vbuf A) t) := by
  have hSize : VMEM_SIZE = 2 ^ 19 := rfl
  have hPlaced : c.Placed W := fun i j hi hj => by
    have hLt := place_lt hFits.inside.rect hi hj
    omega
  have hApart : (Ptr.mem .vbuf A).Apart pxLocal (W.toNat * H : Nat)
      (c.width.toNat * c.height.toNat : Nat) := by
    refine ⟨h.mem, ?_⟩
    rintro r x hLocal ⟨a, hEq, -, hLt⟩
    cases hEq
    rcases h.above .vbuf x hLocal with hRegion | ⟨-, hLe⟩
    · cases hRegion
    · omega
  have hBefore : t.Shows (.mem .vbuf A) W.toNat H dest :=
    shows_congr hDest fun x _ hLt => h.below x (by omega)
  have hMem : Ptr.mem .vbuf A ≠ .fb := nofun
  have hOut := Ptr.out_vbuf A
  have hWalked : Walked vbuf [] _ t (drawLocal c W c.width c.height pxLocal (.mem .vbuf A) t) :=
    drawLocal_walked hOut t
  have hHead := congrArg Heap.head (Option.some.inj hWalked.heap)
  constructor
  · rw [requests_alone]
    exact ⟨hHead.symm.trans h.ready.head, hWalked.vmem.trans h.ready.vmem⟩
  · exact drawLocal_shows hFits hPlaced hApart h.shows hBefore
  · exact (fold_fb hMem).trans h.fb
  · exact hWalked.display.trans h.display
  · intro x hx hOut
    rw [← h.below x hx]
    apply fold_mem (dst_cells hFits.inside.rect hPlaced)
    rintro ⟨a, hEq, hLe, hLt⟩
    cases hEq
    omega

theorem Painted.cons {W : Nat} {t' : Gpu arch}
    (h : Painted vbuf m (.node c kids .nil) S A W H dest s t)
    (h' : Painted vbuf m rest (S + Bump.total Request.need (c.requests ++ kids.requests)) A W H
      (c.onto (c.picture m (kids.compose m)) dest) t t') :
    Painted vbuf m (.node c kids rest) S A W H dest s t' := by
  constructor
  · have hReady := h'.ready
    rw [Nat.add_assoc, ← Bump.total_append] at hReady
    exact hReady
  · exact h'.shows
  · exact h'.fb.trans h.fb
  · exact h'.display.trans h.display
  · intro x hx hOut
    rw [h'.below x (by omega) hOut, h.below x hx hOut]

private theorem node_fits {Hp : Nat} (hNode : IsNode m c (kids.Holds m) kids ptr)
    (hInside : c.Inside W.toNat Hp) (hScalable : c.Scalable)
    (hFits : Bump.total Request.need c.requests ≤ VMEM_SIZE) :
    c.Fits W Hp :=
  ⟨hInside, hScalable, area_le hInside hNode.type hFits⟩

private theorem renderChildren_paints (hVbuf : vbuf.toNat + VMEM_SIZE < 2 ^ wordBits arch)
    (hFuel : F.size < fuel) (hAll : F.All Canvas.Scalable) : Paints vbuf m fuel F := by
  induction F generalizing fuel with
  | nil =>
      rintro ptr S A W H dest s hNull - - - hReady hDest
      obtain ⟨f, rfl⟩ : ∃ f, fuel = f + 1 := Nat.exists_eq_add_one_of_ne_zero (by omega)
      have hNull : ptr = AM_GPU_NULL := hNull
      rw [renderChildren, if_pos hNull]
      exact ⟨s, rfl, hReady, hDest, rfl, rfl, fun _ _ _ => rfl⟩
  | node c kids rest ihKids ihRest =>
      intro ptr S A W H dest s hHolds hInside hFits hBlock hReady hDest
      obtain ⟨f, rfl⟩ : ∃ f, fuel = f + 1 := Nat.exists_eq_add_one_of_ne_zero (by omega)
      have hSize : kids.size + rest.size + 1 < f + 1 := hFuel
      obtain ⟨hNode, hRest⟩ := hHolds
      obtain ⟨hCanvas, hInKids, hInRest⟩ := hInside
      obtain ⟨hScalable, hAllKids, hAllRest⟩ := hAll
      have hTotal : S + Bump.total Request.need (c.requests ++ kids.requests) +
          Bump.total Request.need rest.requests ≤ VMEM_SIZE := by
        rw [Nat.add_assoc, ← Bump.total_append]
        exact hFits
      have hOwn : Bump.total Request.need (c.requests ++ kids.requests) = _ :=
        Bump.total_append c.requests kids.requests
      have hPaintKids : Paints vbuf m f kids := ihKids (by omega) hAllKids
      have hPaintRest : Paints vbuf m f rest := ihRest (by omega) hAllRest
      obtain ⟨t, pxLocal, hRun, hPrepared⟩ := render_prepared (W := W) hVbuf (.mem .vbuf A) hReady
        hNode hCanvas hInKids (by omega) hPaintKids
      have hPainted := hPrepared.painted (node_fits hNode hCanvas hScalable (by omega)) hBlock
        (by omega) hDest
      have hNext := hPainted.ready
      rw [requests_alone] at hNext
      obtain ⟨t', hRunRest, hPaintedRest⟩ := hPaintRest c.sibling _ A W H _ _ hRest
        hInRest hTotal (by omega) hNext hPainted.shows
      refine ⟨t', ?_, hPainted.cons hPaintedRest⟩
      rw [renderChildren, if_neg (toHost_inside hNode.inside).1, bind_of_ok hRun]
      show renderChildren vbuf f (canvasAt (Gpu.mem _ .vmem) ptr.toNat).sibling W _ _ = _
      rw [hPainted.ready.vmem, hNode.canvas]
      exact hRunRest

/-! ## The frame buffer -/

/-- Neither `h * h1` nor `w * w1` overflows. -/
def Canvas.Products (c : Canvas) : Prop :=
  c.height.toNat * c.h1.toNat < 2 ^ 31 ∧ c.width.toNat * c.w1.toNat < 2 ^ 31

theorem Canvas.Products.scalable (h : c.Products) : c.Scalable := by
  obtain ⟨hRows, hColumns⟩ := h
  have hLastRow : (c.h1.toNat - 1) * c.height.toNat ≤ c.h1.toNat * c.height.toNat :=
    Nat.mul_le_mul_right _ (Nat.sub_le _ _)
  have hLastColumn : (c.w1.toNat - 1) * c.width.toNat ≤ c.w1.toNat * c.width.toNat :=
    Nat.mul_le_mul_right _ (Nat.sub_le _ _)
  rw [Nat.mul_comm] at hRows hColumns
  exact Or.inr (Or.inr ⟨by omega, by omega⟩)

private theorem all_imp {P Q : Canvas → Prop} (hImp : ∀ c, P c → Q c) (hAll : F.All P) :
    F.All Q := by
  induction F with
  | nil => trivial
  | node c kids rest ihKids ihRest => exact ⟨hImp c hAll.1, ihKids hAll.2.1, ihRest hAll.2.2⟩

/-- The picture has been put into the rectangle of the canvas, and nothing else has
changed. -/
structure Composed (c : Canvas) (W : BitVec 16) (q : Picture Pixel) (fb fb' : Int → Pixel) :
    Prop where
  block : ∀ i j, i < c.w1.toNat → j < c.h1.toNat → fb' (c.place W i j : Nat) = c.scaled q i j
  others : ∀ k : Int, (∀ i j, i < c.w1.toNat → j < c.h1.toNat → k ≠ (c.place W i j : Nat)) →
    fb' k = fb k

/-- The loops of the root. -/
theorem Prepared.composed (h : Prepared vbuf m c kids S s t pxLocal) (hFits : c.Fits W H)
    (hPlaced : c.Placed W) :
    Composed c W (c.picture m (kids.compose m)) s.fb
      (drawLocal c W c.width c.height pxLocal .fb t).fb := by
  have hApart : Ptr.fb.Apart pxLocal (W.toNat * H : Nat) (c.width.toNat * c.height.toNat : Nat) :=
    ⟨h.mem, fun r x _ ⟨a, hEq, _⟩ => nomatch hEq⟩
  rw [← h.fb]
  constructor
  · intro i j hi hj
    show (drawLocal c W c.width c.height pxLocal .fb t).load .fb _ = _
    exact drawLocal_at hFits hPlaced hApart h.shows hi hj
  · intro k hk
    show (drawLocal c W c.width c.height pxLocal .fb t).load .fb k = t.load .fb k
    exact drawLocal_outside hPlaced hk

/-- A place whose index is no `int` is not written. -/
theorem overflowed_kept (hOver : 2 ^ 31 ≤ k) :
    (drawLocal c W w h pxLocal px s).load px k = s.load px k := by
  apply fold_unwritten
  intro cell _ hEq
  have hInt := (dstIndex c W cell.1 cell.2).toInt_lt
  unfold Canvas.dst at hEq
  omega

private theorem gpuRender_prepared (hVbuf : vbuf.toNat + VMEM_SIZE < 2 ^ wordBits arch)
    (hNode : IsNode (s.mem .vmem) c (kids.Holds (s.mem .vmem)) kids ptr) (hFuel : kids.size < fuel)
    (hInside : (Forest.node c kids .nil).Inside s.display.w.toNat H)
    (hAll : kids.All Canvas.Scalable)
    (hFits : Bump.total Request.need (c.requests ++ kids.requests) ≤ VMEM_SIZE) :
    ∃ t pxLocal, gpuRender vbuf fuel ptr s =
        .ok () (drawLocal c s.display.w c.width c.height pxLocal .fb t) ∧
      Prepared vbuf (s.mem .vmem) c kids 0 s t pxLocal := by
  have hReady : Ready vbuf (s.mem .vmem) 0 (s.reset vbuf) := ⟨(BitVec.add_zero vbuf).symm, rfl⟩
  obtain ⟨t, pxLocal, hRun, hPrepared⟩ := render_prepared (W := s.display.w) hVbuf .fb hReady hNode
    hInside.1 hInside.2.1 (by omega) (renderChildren_paints hVbuf hFuel hAll)
  exact ⟨t, pxLocal, hRun, hPrepared.ready, hPrepared.shows, hPrepared.fb, hPrepared.display,
    hPrepared.below, hPrepared.mem, hPrepared.above⟩

private theorem gpuRender_kept (hRun : gpuRender vbuf fuel ptr s = .ok () t)
    (hVbuf : vbuf.toNat + VMEM_SIZE < 2 ^ wordBits arch)
    (hNode : IsNode (s.mem .vmem) c (kids.Holds (s.mem .vmem)) kids ptr) (hFuel : kids.size < fuel)
    (hInside : (Forest.node c kids .nil).Inside s.display.w.toNat H)
    (hAll : kids.All Canvas.Scalable)
    (hFits : Bump.total Request.need (c.requests ++ kids.requests) ≤ VMEM_SIZE)
    (hOver : 2 ^ 31 ≤ k) : t.fb k = s.fb k := by
  obtain ⟨t₀, pxLocal, hPart, hPrepared⟩ :=
    gpuRender_prepared hVbuf hNode hFuel hInside hAll hFits
  have hEq : EStateM.Result.ok () t =
      .ok () (drawLocal c s.display.w c.width c.height pxLocal .fb t₀) := hRun.symm.trans hPart
  have hDrawn := (EStateM.Result.ok.inj hEq).2
  rw [hDrawn, ← hPrepared.fb]
  show (drawLocal c s.display.w c.width c.height pxLocal .fb t₀).load .fb k = t₀.load .fb k
  exact overflowed_kept hOver

/-- The last index of the rectangle. -/
theorem placed_iff (c : Canvas) (W : BitVec 16) :
    c.Placed W ↔ c.w1.toNat = 0 ∨ c.h1.toNat = 0 ∨
      (c.y1.toNat + c.h1.toNat - 1) * W.toNat + (c.x1.toNat + c.w1.toNat - 1) < 2 ^ 31 := by
  unfold Canvas.Placed Canvas.place Picture.index
  constructor
  · intro h
    by_cases hw1 : c.w1.toNat = 0
    · exact Or.inl hw1
    by_cases hh1 : c.h1.toNat = 0
    · exact Or.inr (Or.inl hh1)
    have hLast := h (c.w1.toNat - 1) (c.h1.toNat - 1) (by omega) (by omega)
    rw [← Nat.add_sub_assoc (by omega), ← Nat.add_sub_assoc (by omega)] at hLast
    exact Or.inr (Or.inr hLast)
  · intro hCond i j hi hj
    have hRow : (c.y1.toNat + j) * W.toNat ≤ (c.y1.toNat + c.h1.toNat - 1) * W.toNat :=
      Nat.mul_le_mul_right _ (by omega)
    omega

/-- A rectangle that is not placed is not drawn in full. -/
theorem placed_of_composed {q : Picture Pixel} {draw : (Int → Pixel) → Int → Pixel}
    (hKept : ∀ fb k, 2 ^ 31 ≤ k → draw fb k = fb k)
    (hComposed : ∀ fb, Composed c W q fb (draw fb)) : c.Placed W := by
  intro i j hi hj
  by_contra hNot
  -- the screen shows another colour there than the one that should be drawn
  have hBlock := (hComposed fun _ => Gpu.other (c.scaled q i j)).block i j hi hj
  rw [hKept _ _ (by omega)] at hBlock
  exact Gpu.other_ne _ hBlock

/--
**Rendering.** For every tree of canvases in `vmem` whose textures lie there, whose
buffers fit into `vbuf`, whose canvases have pixels and lie inside their parents,
and whose products `h * h1` and `w * w1` are below 2 ^ 31, `gpu_render` comes to its
end.  Whatever the frame buffer held, it puts the composed picture into the
rectangle of the root and changes nothing else, exactly when the rectangle is
empty or its last pixel has an index that is an `int`.
-/
theorem gpuRender_composes_iff (vbuf : BitVec (wordBits arch)) (s : Gpu arch) (fuel : Nat)
    (root : Word) (c : Canvas) (kids : Forest)
    (hVbuf : vbuf.toNat + VMEM_SIZE < 2 ^ wordBits arch)
    (hNode : IsNode (s.mem .vmem) c (kids.Holds (s.mem .vmem)) kids root)
    (hFuel : kids.size < fuel)
    (hInside : (Forest.node c kids .nil).Inside s.display.w.toNat s.display.h.toNat)
    (hProducts : (Forest.node c kids .nil).All Canvas.Products)
    (hFits : Bump.total Request.need (c.requests ++ kids.requests) ≤ VMEM_SIZE) :
    ∃ draw : (Int → Pixel) → Gpu arch,
      (∀ fb, gpuRender vbuf fuel root { s with fb := fb } = .ok () (draw fb)) ∧
      ((∀ fb, Composed c s.display.w
          (c.picture (s.mem .vmem) (kids.compose (s.mem .vmem))) fb (draw fb).fb) ↔
        c.w1.toNat = 0 ∨ c.h1.toNat = 0 ∨
          (c.y1.toNat + c.h1.toNat - 1) * s.display.w.toNat + (c.x1.toNat + c.w1.toNat - 1) <
            2 ^ 31) := by
  have hAll : (Forest.node c kids .nil).All Canvas.Scalable :=
    all_imp (fun _ => Canvas.Products.scalable) hProducts
  have hCanvas := node_fits hNode hInside.1 hAll.1 (fits_parts hFits).1
  have hRuns : ∀ fb, ∃ t pxLocal, gpuRender vbuf fuel root { s with fb := fb } =
        .ok () (drawLocal c s.display.w c.width c.height pxLocal .fb t) ∧
      Prepared vbuf (s.mem .vmem) c kids 0 { s with fb := fb } t pxLocal := fun fb =>
    gpuRender_prepared hVbuf hNode hFuel hInside hAll.2.1 hFits
  choose t pxLocal hRun hPrepared using hRuns
  refine ⟨_, hRun, ?_⟩
  rw [← placed_iff]
  constructor
  · apply placed_of_composed
    intro fb k hOver
    exact gpuRender_kept (hRun fb) hVbuf hNode hFuel hInside hAll.2.1 hFits hOver
  · intro hPlaced fb
    exact (hPrepared fb).composed hCanvas hPlaced

/--
**Rendering on a screen of at most 2 ^ 31 pixels.** For every such tree `gpu_render`
comes to its end and, whatever the frame buffer held, puts the composed picture into
the rectangle of the root and changes nothing else.
-/
theorem gpuRender_composes (vbuf : BitVec (wordBits arch)) (s : Gpu arch) (fuel : Nat)
    (root : Word) (c : Canvas) (kids : Forest)
    (hVbuf : vbuf.toNat + VMEM_SIZE < 2 ^ wordBits arch)
    (hScreen : s.display.w.toNat * s.display.h.toNat ≤ 2 ^ 31)
    (hNode : IsNode (s.mem .vmem) c (kids.Holds (s.mem .vmem)) kids root)
    (hFuel : kids.size < fuel)
    (hInside : (Forest.node c kids .nil).Inside s.display.w.toNat s.display.h.toNat)
    (hProducts : (Forest.node c kids .nil).All Canvas.Products)
    (hFits : Bump.total Request.need (c.requests ++ kids.requests) ≤ VMEM_SIZE)
    (fb : Int → Pixel) :
    ∃ t, gpuRender vbuf fuel root { s with fb := fb } = .ok () t ∧
      Composed c s.display.w
        (c.picture (s.mem .vmem) (kids.compose (s.mem .vmem))) fb t.fb := by
  have hPlaced : c.Placed s.display.w := by
    intro i j hi hj
    exact Nat.lt_of_lt_of_le (place_lt hInside.1.rect hi hj) hScreen
  obtain ⟨draw, hRun, hIff⟩ := gpuRender_composes_iff vbuf s fuel root c kids hVbuf hNode hFuel
    hInside hProducts hFits
  exact ⟨draw fb, hRun fb, hIff.mpr ((placed_iff c s.display.w).mp hPlaced) fb⟩

/-- The strip, on a screen as wide. -/
theorem gpuRender_composes_strip :
    ∃ t, gpuRender vbufAddr 2 0
        { gpuOf .x86_64 ⟨640, 480⟩ [stripSubtree 640, stripTexture 640 0] with
          fb := fun _ => black } = .ok () t ∧
      Composed (stripSubtree 640) 640 ((stripSubtree 640).picture (stripVmem 640)
        ((stripForest 640).compose (stripVmem 640))) (fun _ => black) t.fb :=
  gpuRender_composes vbufAddr
    (gpuOf .x86_64 ⟨640, 480⟩ [stripSubtree 640, stripTexture 640 0]) 2 0 (stripSubtree 640)
    (stripForest 640) (by decide) (by decide) (strip_isNode 640 (by decide)) (by decide)
    (strip_inside 640 (by decide) (by decide))
    ⟨⟨by decide, by decide⟩, ⟨⟨by decide, by decide⟩, trivial, trivial⟩, trivial⟩ (by decide)
    fun _ => black

/-- One pixel, in row 32769 of a screen of 65535 by 65535. -/
theorem gpuRender_overflow :
    IsNode (vmemOf [stripTexture 1 32769]) (stripTexture 1 32769)
        (Forest.nil.Holds (vmemOf [stripTexture 1 32769])) .nil 0 ∧
      (Forest.node (stripTexture 1 32769) .nil .nil).Inside 65535 65535 ∧
      (Forest.node (stripTexture 1 32769) .nil .nil).All Canvas.Products ∧
      Bump.total Request.need ((stripTexture 1 32769).requests ++ Forest.nil.requests) ≤ VMEM_SIZE ∧
      ¬ ∃ draw : (Int → Pixel) → Gpu .x86_64,
        (∀ fb, gpuRender vbufAddr 1 0
          { gpuOf .x86_64 ⟨65535, 65535⟩ [stripTexture 1 32769] with fb := fb } =
            .ok () (draw fb)) ∧
        ∀ fb, Composed (stripTexture 1 32769) 65535
          ((stripTexture 1 32769).picture (vmemOf [stripTexture 1 32769])
            (Forest.nil.compose (vmemOf [stripTexture 1 32769]))) fb (draw fb).fb := by
  have hNode : IsNode (vmemOf [stripTexture 1 32769]) (stripTexture 1 32769)
      (Forest.nil.Holds (vmemOf [stripTexture 1 32769])) .nil 0 :=
    ⟨by decide, by decide, Or.inl ⟨rfl, rfl⟩⟩
  have hInside : (Forest.node (stripTexture 1 32769) .nil .nil).Inside 65535 65535 :=
    ⟨⟨by decide, by decide, by decide, by decide, fun _ => by decide⟩, trivial, trivial⟩
  have hFits : Bump.total Request.need
      ((stripTexture 1 32769).requests ++ Forest.nil.requests) ≤ VMEM_SIZE := by decide
  refine ⟨hNode, hInside, ⟨⟨by decide, by decide⟩, trivial, trivial⟩, hFits, ?_⟩
  rintro ⟨draw, hRun, hComposed⟩
  have hVbuf : vbufAddr.toNat + VMEM_SIZE < 2 ^ wordBits .x86_64 := by decide
  have hKept : ∀ fb k, 2 ^ 31 ≤ k → (draw fb).fb k = fb k := by
    intro fb k hOver
    exact gpuRender_kept (hRun fb) hVbuf hNode Nat.zero_lt_one hInside trivial hFits hOver
  have hPlaced := (placed_iff _ _).mp (placed_of_composed hKept hComposed)
  exact absurd hPlaced (by decide)

end AbstractMachine.X86.Render
