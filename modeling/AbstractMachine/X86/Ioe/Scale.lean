import AbstractMachine.X86.Ioe.Vbuf

/-!
# Scaling

A pixel is copied from row `j * h / h1` and column `i * w / w1`.  Both products
are `int`s: they stay below 2 ^ 31 unless a long canvas is drawn with about as
many columns or rows, which takes less than `vmem` holds.
-/

namespace AbstractMachine.X86.Render

open AbstractMachine.Lib
open AbstractMachine.X86.Gpu (Word)

variable {arch : Arch} {w h w1 h1 : BitVec 16} {i j a b : Nat} {c : Canvas} {kids rest F : Forest}
  {W H : Nat}

/-! ## Arithmetic -/

theorem setWidth_half (v : BitVec 16) : v.setWidth 32 = BitVec.ofNat 32 v.toNat :=
  (BitVec.ofNat_toNat ..).symm

theorem toInt_int (ha : a < 2 ^ 31) : (BitVec.ofNat 32 a).toInt = a :=
  SignedWord.toInt_ofNat (by omega)

private theorem smulOverflow_int (ha : a < 2 ^ 31) (hb : b < 2 ^ 31) :
    (BitVec.ofNat 32 a).smulOverflow (BitVec.ofNat 32 b) = false ↔ a * b < 2 ^ 31 := by
  have hPos : ∀ {k : Nat}, k < 2 ^ 31 → 0 ≤ (BitVec.ofNat 32 k).toInt := by
    intro k hk
    rw [toInt_int hk]
    exact Int.natCast_nonneg k
  rw [SignedWord.smulOverflow_iff (hPos ha) (hPos hb), SignedWord.toNat_ofNat (by omega),
    SignedWord.toNat_ofNat (by omega)]

/-- The index, when no product overflows. -/
theorem srcIndex_eq (hRow : j * h.toNat < 2 ^ 31) (hCol : i * w.toNat < 2 ^ 31) :
    srcIndex w h w1 h1 i j =
      BitVec.ofNat 32 (Picture.index w.toNat (i * w.toNat / w1.toNat)
        (j * h.toNat / h1.toNat)) := by
  have hw1 := w1.isLt
  have hh1 := h1.isLt
  unfold srcIndex Picture.index
  rw [setWidth_half, setWidth_half, setWidth_half, setWidth_half, ← BitVec.ofNat_mul,
    ← BitVec.ofNat_mul, SignedWord.sdiv_ofNat (by omega) (by omega),
    SignedWord.sdiv_ofNat (by omega) (by omega), ← BitVec.ofNat_mul,
    ← BitVec.ofNat_add, Nat.mul_comm w.toNat]

/-! ## One canvas -/

/-- No product overflows, and the index is one of the source. -/
structure Sample.Scales (x : Sample) : Prop where
  row : (BitVec.ofNat 32 x.j).smulOverflow (x.h.setWidth 32) = false
  column : (BitVec.ofNat 32 x.i).smulOverflow (x.w.setWidth 32) = false
  stride : (x.w.setWidth 32 : Word).smulOverflow
    ((BitVec.ofNat 32 x.j * x.h.setWidth 32).sdiv (x.h1.setWidth 32)) = false
  index : 0 ≤ (srcIndex x.w x.h x.w1 x.h1 x.i x.j).toInt ∧
    (srcIndex x.w x.h x.w1 x.h1 x.i x.j).toInt < (x.w.toNat * x.h.toNat : Nat)

/-- The last column and the last row have products below 2 ^ 31. -/
def Canvas.Scalable (c : Canvas) : Prop :=
  c.w1.toNat = 0 ∨ c.h1.toNat = 0 ∨
    (c.w1.toNat - 1) * c.width.toNat < 2 ^ 31 ∧ (c.h1.toNat - 1) * c.height.toNat < 2 ^ 31

theorem mem_cells : (i, j) ∈ cells c ↔ i < c.w1.toNat ∧ j < c.h1.toNat := by
  simp [cells]

/-- The products of a cell of a canvas that is scalable. -/
theorem Canvas.Scalable.products (h : c.Scalable) (hi : i < c.w1.toNat) (hj : j < c.h1.toNat) :
    j * c.height.toNat < 2 ^ 31 ∧ i * c.width.toNat < 2 ^ 31 := by
  have hRow : j * c.height.toNat ≤ (c.h1.toNat - 1) * c.height.toNat :=
    Nat.mul_le_mul_right _ (by omega)
  have hCol : i * c.width.toNat ≤ (c.w1.toNat - 1) * c.width.toNat :=
    Nat.mul_le_mul_right _ (by omega)
  rcases h with h0 | h0 | ⟨hColumns, hRows⟩ <;> omega

private theorem sample_scales (hScalable : c.Scalable) (hInside : c.Inside W H)
    (hArea : 3 * (c.width.toNat * c.height.toNat) ≤ VMEM_SIZE) (hi : i < c.w1.toNat)
    (hj : j < c.h1.toNat) : (c.sample c.width c.height (i, j)).Scales := by
  obtain ⟨hRow, hCol⟩ := hScalable.products hi hj
  have hSize : VMEM_SIZE = 2 ^ 19 := rfl
  have hw := c.width.isLt
  have hh := c.height.isLt
  have hw1 := c.w1.isLt
  have hh1 := c.h1.isLt
  have hX := Picture.scaled_lt hi hInside.width
  have hY := Picture.scaled_lt hj hInside.height
  have hIndex := Picture.index_lt hX hY
  have hStride : c.width.toNat * (j * c.height.toNat / c.h1.toNat) ≤
      c.width.toNat * c.height.toNat := Nat.mul_le_mul_left _ (Nat.le_of_lt hY)
  unfold Canvas.sample
  constructor
  · dsimp only
    rw [setWidth_half, smulOverflow_int (by omega) (by omega)]
    exact hRow
  · dsimp only
    rw [setWidth_half, smulOverflow_int (by omega) (by omega)]
    exact hCol
  · dsimp only
    rw [setWidth_half, setWidth_half, setWidth_half, ← BitVec.ofNat_mul,
      SignedWord.sdiv_ofNat (by omega) (by omega), smulOverflow_int (by omega) (by omega)]
    omega
  · dsimp only
    rw [srcIndex_eq hRow hCol, toInt_int (by omega)]
    omega

private theorem canvas_scales_iff (hInside : c.Inside W H)
    (hArea : 3 * (c.width.toNat * c.height.toNat) ≤ VMEM_SIZE) :
    (∀ x ∈ c.samples, x.Scales) ↔ c.Scalable := by
  constructor
  · intro hAll
    by_cases hw1 : c.w1.toNat = 0
    · exact Or.inl hw1
    by_cases hh1 : c.h1.toNat = 0
    · exact Or.inr (Or.inl hh1)
    have hLast : (c.w1.toNat - 1, c.h1.toNat - 1) ∈ cells c := mem_cells.mpr (by omega)
    have hScales := hAll _ (List.mem_map_of_mem hLast)
    have hw := c.width.isLt
    have hh := c.height.isLt
    have hw1 := c.w1.isLt
    have hh1 := c.h1.isLt
    have hRow := hScales.row
    have hColumn := hScales.column
    unfold Canvas.sample at hRow hColumn
    dsimp only at hRow hColumn
    rw [setWidth_half, smulOverflow_int (by omega) (by omega)] at hRow hColumn
    exact Or.inr (Or.inr ⟨hColumn, hRow⟩)
  · intro hScalable x hx
    obtain ⟨⟨i, j⟩, hCell, rfl⟩ := List.mem_map.mp hx
    obtain ⟨hi, hj⟩ := mem_cells.mp hCell
    exact sample_scales hScalable hInside hArea hi hj

/-! ## A tree -/

/-- The area of a canvas, in a tree that fits. -/
theorem area_le (hInside : c.Inside W H) (hKind : c.type = AM_GPU_TEXTURE ∨ c.type = AM_GPU_SUBTREE)
    (hFits : Bump.total Request.need c.requests ≤ VMEM_SIZE) :
    3 * (c.width.toNat * c.height.toNat) ≤ VMEM_SIZE := by
  rcases hKind with hType | hType
  · have hTexture := hInside.texture hType
    omega
  · have hNot : AM_GPU_SUBTREE ≠ AM_GPU_TEXTURE := by decide
    unfold Canvas.requests at hFits
    unfold Canvas.width Canvas.height
    rw [hType, if_pos rfl, Bump.total_cons, Bump.total_nil] at hFits
    rw [hType, if_neg hNot, if_neg hNot]
    exact hFits

variable {m : Bytes} {ptr : Word}

theorem IsNode.type {Kids : Word → Prop} (h : IsNode m c Kids kids ptr) :
    c.type = AM_GPU_TEXTURE ∨ c.type = AM_GPU_SUBTREE :=
  h.kind.imp And.left And.left

/-- Of the requests of a node, each part fits. -/
theorem fits_parts {rs rs' : List Request}
    (h : Bump.total Request.need (rs ++ rs') ≤ VMEM_SIZE) :
    Bump.total Request.need rs ≤ VMEM_SIZE ∧ Bump.total Request.need rs' ≤ VMEM_SIZE := by
  rw [Bump.total_append] at h
  omega

/-- A canvas, once its children are known. -/
theorem node_scales_iff (hNode : IsNode m c (kids.Holds m) kids ptr) (hCanvas : c.Inside W H)
    (hFits : Bump.total Request.need c.requests ≤ VMEM_SIZE)
    (hKids : kids.Holds m c.child →
      ((∀ x ∈ kids.samples, x.Scales) ↔ kids.All Canvas.Scalable)) :
    (∀ x ∈ kids.samples ++ c.samples, x.Scales) ↔ c.Scalable ∧ kids.All Canvas.Scalable := by
  have hOwn := canvas_scales_iff hCanvas (area_le hCanvas hNode.type hFits)
  have hBelow : (∀ x ∈ kids.samples, x.Scales) ↔ kids.All Canvas.Scalable := by
    rcases hNode.kind with ⟨-, rfl⟩ | ⟨-, hHolds⟩
    · simp [Forest.samples, Forest.All]
    · exact hKids hHolds
  rw [List.forall_mem_append, hOwn, hBelow, and_comm]

private theorem forest_scales_iff (hHolds : F.Holds m ptr) (hInside : F.Inside W H)
    (hFits : Bump.total Request.need F.requests ≤ VMEM_SIZE) :
    (∀ x ∈ F.samples, x.Scales) ↔ F.All Canvas.Scalable := by
  induction F generalizing ptr W H with
  | nil => simp [Forest.samples, Forest.All]
  | node c kids rest ihKids ihRest =>
      obtain ⟨hNode, hRest⟩ := hHolds
      obtain ⟨hCanvas, hInKids, hInRest⟩ := hInside
      obtain ⟨hTree, hFitsRest⟩ := fits_parts hFits
      obtain ⟨hFitsCanvas, hFitsKids⟩ := fits_parts hTree
      have hFirst := node_scales_iff hNode hCanvas hFitsCanvas
        fun hKids => ihKids hKids hInKids hFitsKids
      show (∀ x ∈ kids.samples ++ c.samples ++ rest.samples, x.Scales) ↔
        c.Scalable ∧ kids.All Canvas.Scalable ∧ rest.All Canvas.Scalable
      rw [List.forall_mem_append, hFirst, ihRest hRest hInRest hFitsRest, and_assoc]

/-! ## A run -/

variable {vbuf : BitVec (wordBits arch)} {s : Gpu arch} {fuel : Nat}

/-- A tree that fits into `vbuf` is rendered to the end. -/
theorem gpuRender_fits (hVbuf : vbuf.toNat + VMEM_SIZE < 2 ^ wordBits arch)
    (hNode : IsNode (s.mem .vmem) c (kids.Holds (s.mem .vmem)) kids ptr) (hFuel : kids.size < fuel)
    (hFits : Bump.total Request.need (c.requests ++ kids.requests) ≤ VMEM_SIZE) :
    ∃ t, gpuRender vbuf fuel ptr s = .ok () t ∧ t.drawn = kids.samples ++ c.samples := by
  have hOutcome : Outcome vbuf (c.requests ++ kids.requests) (kids.samples ++ c.samples)
      (s.reset vbuf) (gpuRender vbuf fuel ptr s) := gpuRender_outcome hFuel hNode
  cases hRun : gpuRender vbuf fuel ptr s with
  | ok u t =>
      rw [hRun] at hOutcome
      exact ⟨t, rfl, hOutcome.drawn⟩
  | error e t =>
      rw [hRun] at hOutcome
      obtain ⟨-, pre, r, post, H, hEq, hRefused⟩ := hOutcome
      have hAll := allocs_reset s hVbuf hFits
      rw [hEq, List.append_cons] at hAll
      obtain ⟨H₁, hServed, -⟩ := allocs_left hAll
      rw [allocs_append, hRefused.served, Option.bind_some, allocs_one, hRefused.refused] at hServed
      cases hServed

/--
**Scaling.** For every tree of canvases in `vmem` whose textures lie there, whose
buffers fit into `vbuf` and whose canvases have pixels and lie inside their
parents, all pixels are copied; no product overflows in scaling them, and every
index is one of the source, if and only if no canvas that is drawn has a last
column or row with a product of 2 ^ 31 or more.
-/
theorem render_scales_iff (vbuf : BitVec (wordBits arch)) (s : Gpu arch) (fuel : Nat)
    (root : Word) (c : Canvas) (kids : Forest)
    (hVbuf : vbuf.toNat + VMEM_SIZE < 2 ^ wordBits arch)
    (hNode : IsNode (s.mem .vmem) c (kids.Holds (s.mem .vmem)) kids root)
    (hFuel : kids.size < fuel)
    (hInside : (Forest.node c kids .nil).Inside s.display.w.toNat s.display.h.toNat)
    (hFits : Bump.total Request.need (c.requests ++ kids.requests) ≤ VMEM_SIZE) :
    ∃ t, gpuRender vbuf fuel root s = .ok () t ∧
      t.drawn = kids.samples ++ c.samples ∧
      ((∀ x ∈ t.drawn, x.Scales) ↔ (Forest.node c kids .nil).All fun c =>
        c.w1.toNat = 0 ∨ c.h1.toNat = 0 ∨
          (c.w1.toNat - 1) * c.width.toNat < 2 ^ 31 ∧
            (c.h1.toNat - 1) * c.height.toNat < 2 ^ 31) := by
  obtain ⟨t, hRun, hDrawn⟩ := gpuRender_fits hVbuf hNode hFuel hFits
  refine ⟨t, hRun, hDrawn, ?_⟩
  obtain ⟨hCanvas, hInKids, -⟩ := hInside
  obtain ⟨hFitsCanvas, hFitsKids⟩ := fits_parts hFits
  rw [hDrawn, node_scales_iff hNode hCanvas hFitsCanvas
    fun hKids => forest_scales_iff hKids hInKids hFitsKids]
  exact and_congr_right fun _ => (and_iff_left trivial).symm

/-- A strip of `w` by 1 in a picture of `w` by 2. -/
def stripVmem (w : BitVec 16) : Bytes := vmemOf [stripSubtree w, stripTexture w 0]

/-- The texture is the one child. -/
def stripForest (w : BitVec 16) : Forest := .node (stripTexture w 0) .nil .nil

theorem strip_isNode (w : BitVec 16)
    (hCanvas : canvasAt (stripVmem w) 0 = stripSubtree w ∧
      canvasAt (stripVmem w) 26 = stripTexture w 0) :
    IsNode (stripVmem w) (stripSubtree w) ((stripForest w).Holds (stripVmem w)) (stripForest w) 0 :=
  ⟨by decide, hCanvas.1,
    Or.inr ⟨rfl, ⟨by show 26 + 26 ≤ VMEM_SIZE; decide, hCanvas.2, Or.inl ⟨rfl, rfl⟩⟩, rfl⟩⟩

theorem strip_inside (w : BitVec 16) (hw : 1 ≤ w.toNat)
    (hTexture : 0x100 + 3 * (w.toNat * 1) ≤ VMEM_SIZE) :
    (Forest.node (stripSubtree w) (stripForest w) .nil).Inside 640 480 :=
  ⟨⟨hw, by show 1 ≤ 2; decide, by show 0 + 640 ≤ 640; omega, by show 0 + 2 ≤ 480; omega, nofun⟩,
    ⟨⟨hw, by show 1 ≤ 1; decide, by show 0 + w.toNat ≤ w.toNat; omega, by show 0 + 1 ≤ 2; omega,
      fun _ => hTexture⟩, trivial, trivial⟩, trivial⟩

/-- As wide as the screen. -/
theorem render_scales_iff_vga :
    ∃ t, gpuRender vbufAddr 2 0 (gpuOf .x86_64 ⟨640, 480⟩ [stripSubtree 640, stripTexture 640 0]) =
        .ok () t ∧
      t.drawn = (stripForest 640).samples ++ (stripSubtree 640).samples ∧
      ((∀ x ∈ t.drawn, x.Scales) ↔
        (Forest.node (stripSubtree 640) (stripForest 640) .nil).All fun c =>
          c.w1.toNat = 0 ∨ c.h1.toNat = 0 ∨
            (c.w1.toNat - 1) * c.width.toNat < 2 ^ 31 ∧
              (c.h1.toNat - 1) * c.height.toNat < 2 ^ 31) :=
  render_scales_iff vbufAddr (gpuOf .x86_64 ⟨640, 480⟩ [stripSubtree 640, stripTexture 640 0]) 2 0
    (stripSubtree 640) (stripForest 640) (by decide) (strip_isNode 640 (by decide)) (by decide)
    (strip_inside 640 (by decide) (by decide)) (by decide)

/-- As wide as a canvas can be: 65534 * 65535 is no `int`. -/
theorem render_scale_overflow :
    (∃ t, gpuRender vbufAddr 2 0
        (gpuOf .x86_64 ⟨640, 480⟩ [stripSubtree 65535, stripTexture 65535 0]) = .ok () t ∧
      ¬ ∀ x ∈ t.drawn, x.Scales) ∧
      IsNode (stripVmem 65535) (stripSubtree 65535) ((stripForest 65535).Holds (stripVmem 65535))
        (stripForest 65535) 0 ∧
      (Forest.node (stripSubtree 65535) (stripForest 65535) .nil).Inside 640 480 ∧
      Bump.total Request.need ((stripSubtree 65535).requests ++ (stripForest 65535).requests) ≤
        VMEM_SIZE := by
  have hNode := strip_isNode 65535 (by decide)
  have hInside := strip_inside 65535 (by decide) (by decide)
  have hFits : Bump.total Request.need
      ((stripSubtree 65535).requests ++ (stripForest 65535).requests) ≤ VMEM_SIZE := by decide
  have hVbuf : vbufAddr.toNat + VMEM_SIZE < 2 ^ wordBits .x86_64 := by decide
  refine ⟨?_, hNode, hInside, hFits⟩
  obtain ⟨t, hRun, hDrawn⟩ := gpuRender_fits
    (s := gpuOf .x86_64 ⟨640, 480⟩ [stripSubtree 65535, stripTexture 65535 0]) hVbuf hNode
    Nat.one_lt_two hFits
  refine ⟨t, hRun, ?_⟩
  rw [hDrawn]
  intro hAll
  have hTexture := (canvas_scales_iff hInside.2.1.1 (by decide)).mp fun x hx =>
    hAll x (List.mem_append_left _ (List.mem_append_left _ (List.mem_append_right _ hx)))
  rcases hTexture with h0 | h0 | ⟨hOver, -⟩
  · exact absurd h0 (by decide)
  · exact absurd h0 (by decide)
  · exact absurd hOver (by decide)

end AbstractMachine.X86.Render
