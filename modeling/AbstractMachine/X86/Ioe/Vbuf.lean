import AbstractMachine.Lib.Bump
import AbstractMachine.Lib.ByteMem
import AbstractMachine.Lib.SignedWord
import AbstractMachine.Lib.StateExcept
import AbstractMachine.X86.Ioe.Canvas

/-!
# The blocks of `vbuf`

The size of a block is 3 * w * h, but as an `int`; only the end of `vbuf` is
compared with.  While the requests fit, the blocks lie one behind another.  The
first one that does not fit stops `gpu_render` only if its size, as an `int`,
moves `vbuf_head` above the end, and otherwise gets less than it needs.
-/

namespace AbstractMachine.X86.Render

open AbstractMachine.Lib
open AbstractMachine.X86.Gpu (Word)

variable {arch : Arch}

/-! ## Allocation by itself -/

/-- What `vbuf_alloc` goes by. -/
structure Heap (arch : Arch) where
  head : BitVec (wordBits arch)
  blocks : List Alloc

/-- The part of the statics that `vbuf_alloc` uses. -/
def Gpu.heap (s : Gpu arch) : Heap arch := { head := s.vbufHead, blocks := s.blocks }

/-- One request; `none` is a panic. -/
def Heap.alloc (vbuf : BitVec (wordBits arch)) (H : Heap arch) (r : Request) :
    Option (Heap arch) :=
  let size := r.size arch
  let head := H.head + size.signExtend (wordBits arch)
  if vbuf + BitVec.ofNat _ VMEM_SIZE < head then none
  else
    some
      { head := head
        blocks := H.blocks ++
          [{ ret := (H.head - vbuf).toInt, size := size.toInt, need := r.need }] }

/-- One call after another; `none` once one has panicked. -/
def Heap.allocs (vbuf : BitVec (wordBits arch)) (H : Heap arch) (rs : List Request) :
    Option (Heap arch) := rs.foldlM (Heap.alloc vbuf) H

variable {vbuf : BitVec (wordBits arch)} {H H' : Heap arch} {r : Request}
  {rs rs' pre post : List Request} {s s' : Gpu arch}

theorem allocs_append :
    H.allocs vbuf (rs ++ rs') = (H.allocs vbuf rs).bind fun H => H.allocs vbuf rs' :=
  List.foldlM_append

private theorem allocs_cons :
    H.allocs vbuf (r :: rs) = (H.alloc vbuf r).bind (Heap.allocs vbuf · rs) :=
  List.foldlM_cons

theorem allocs_one : H.allocs vbuf [r] = H.alloc vbuf r := by
  rw [allocs_cons]
  cases H.alloc vbuf r <;> rfl

/-- The blocks stay. -/
theorem allocs_prefix (h : H.allocs vbuf rs = some H') : H.blocks <+: H'.blocks := by
  induction rs generalizing H with
  | nil =>
      cases h
      exact List.prefix_refl _
  | cons r rs ih =>
      rw [allocs_cons] at h
      obtain ⟨H₁, hFirst, hRest⟩ := Option.bind_eq_some_iff.mp h
      refine List.IsPrefix.trans ?_ (ih hRest)
      obtain ⟨-, hEq⟩ := Option.ite_none_left_eq_some.mp hFirst
      cases hEq
      exact List.prefix_append _ _

/-- The first requests have been served before the others. -/
theorem allocs_left (h : H.allocs vbuf (rs ++ rs') = some H') :
    ∃ H₁, H.allocs vbuf rs = some H₁ ∧ H₁.blocks <+: H'.blocks := by
  rw [allocs_append] at h
  obtain ⟨H₁, hFirst, hRest⟩ := Option.bind_eq_some_iff.mp h
  exact ⟨H₁, hFirst, allocs_prefix hRest⟩

/-- `vbuf_alloc` serves a request as `Heap.alloc` does. -/
theorem vbufAlloc_some (h : s.heap.alloc vbuf r = some H) :
    ∃ s', vbufAlloc vbuf r s = .ok (.mem .vbuf (s.vbufHead - vbuf).toInt) s' ∧ s'.heap = H ∧
      s'.mem .vmem = s.mem .vmem ∧ s'.drawn = s.drawn ∧ s'.display = s.display := by
  obtain ⟨hFits, hEq⟩ := Option.ite_none_left_eq_some.mp h
  cases hEq
  exact ⟨_, if_neg hFits, rfl, rfl, rfl, rfl⟩

theorem vbufAlloc_none (h : s.heap.alloc vbuf r = none) :
    ∃ s', vbufAlloc vbuf r s = .error (.panic "no memory") s' ∧ s'.blocks = s.blocks ∧
      s'.mem = s.mem ∧ s'.fb = s.fb := by
  unfold Heap.alloc at h
  dsimp only at h
  split at h
  · rename_i hFull
    exact ⟨_, if_pos hFull, rfl, rfl, rfl⟩
  · cases h

/-! ## What is asked for in a tree -/

/-- The run has gone through the requests, and has copied `ds`. -/
structure Walked (vbuf : BitVec (wordBits arch)) (rs : List Request) (ds : List Sample)
    (s s' : Gpu arch) : Prop where
  heap : s.heap.allocs vbuf rs = some s'.heap
  vmem : s'.mem .vmem = s.mem .vmem
  drawn : s'.drawn = s.drawn ++ ds
  display : s'.display = s.display

/-- The run has stopped at one of the requests. -/
structure Refused (vbuf : BitVec (wordBits arch)) (s s' : Gpu arch) (pre : List Request)
    (r : Request) (H : Heap arch) : Prop where
  served : s.heap.allocs vbuf pre = some H
  refused : H.alloc vbuf r = none
  blocks : s'.blocks = H.blocks

/-- How a run ends that asks for `rs` and copies `ds`. -/
def Outcome (vbuf : BitVec (wordBits arch)) (rs : List Request) (ds : List Sample)
    (s : Gpu arch) : EStateM.Result Stop (Gpu arch) Unit → Prop
  | .ok _ s' => Walked vbuf rs ds s s'
  | .error e s' => e = .panic "no memory" ∧
      ∃ pre r post H, rs = pre ++ r :: post ∧ Refused vbuf s s' pre r H

variable {ds ds' : List Sample} {x : EStateM Stop (Gpu arch) Unit}
  {f : Unit → EStateM Stop (Gpu arch) Unit}

theorem Walked.trans {t : Gpu arch} (h : Walked vbuf rs ds s t) (h' : Walked vbuf rs' ds' t s') :
    Walked vbuf (rs ++ rs') (ds ++ ds') s s' := by
  refine ⟨?_, h'.vmem.trans h.vmem, ?_, h'.display.trans h.display⟩
  · rw [allocs_append, h.heap]
    exact h'.heap
  · rw [h'.drawn, h.drawn, List.append_assoc]

/-- What follows a run that has gone through its requests. -/
theorem Outcome.after {t : Gpu arch} {result : EStateM.Result Stop (Gpu arch) Unit}
    (hWalked : Walked vbuf rs ds s t) (h : Outcome vbuf rs' ds' t result) :
    Outcome vbuf (rs ++ rs') (ds ++ ds') s result := by
  cases result with
  | ok u t' => exact hWalked.trans h
  | error e t' =>
      obtain ⟨rfl, pre, r, post, H, rfl, hRefused⟩ := h
      refine ⟨rfl, rs ++ pre, r, post, H, (List.append_assoc ..).symm, ?_, hRefused.refused,
        hRefused.blocks⟩
      rw [allocs_append, hWalked.heap]
      exact hRefused.served

/-- One run after another. -/
theorem Outcome.bind (h : Outcome vbuf rs ds s (x s))
    (hNext : ∀ s', Walked vbuf rs ds s s' → Outcome vbuf rs' ds' s' (f () s')) :
    Outcome vbuf (rs ++ rs') (ds ++ ds') s ((x >>= f) s) := by
  cases hx : x s with
  | ok u t =>
      rw [hx] at h
      rw [bind_of_ok hx]
      exact (hNext t h).after h
  | error e t =>
      rw [hx] at h
      rw [bind_of_error hx]
      obtain ⟨rfl, pre, r, post, H, rfl, hRefused⟩ := h
      exact ⟨rfl, pre, r, post ++ rs', H, by rw [List.append_assoc, List.cons_append], hRefused⟩

/-- A pointer that is not into `vmem`. -/
def Ptr.Out (px : Ptr) : Prop := ∀ a, px ≠ .mem .vmem a

theorem Ptr.out_vbuf (A : Int) : (Ptr.mem .vbuf A).Out := fun _ h => by
  cases h

variable {px pxLocal : Ptr} {c : Canvas} {W w h : BitVec 16} {cell : Nat × Nat}

private theorem copyPixel_walked (hOut : px.Out) (s : Gpu arch) :
    Walked vbuf [] [c.sample w h cell] s (copyPixel c W w h pxLocal px s cell) := by
  cases px with
  | fb => exact ⟨rfl, rfl, rfl, rfl⟩
  | mem r a =>
      refine ⟨rfl, ?_, rfl, rfl⟩
      apply Function.update_of_ne
      rintro rfl
      exact hOut a rfl

/-- The loops copy all pixels of the canvas. -/
theorem drawLocal_walked (hOut : px.Out) (s : Gpu arch) :
    Walked vbuf [] ((cells c).map (c.sample w h)) s (drawLocal c W w h pxLocal px s) := by
  unfold drawLocal
  induction cells c generalizing s with
  | nil => exact ⟨rfl, rfl, (List.append_nil _).symm, rfl⟩
  | cons cell rest ih => exact (copyPixel_walked hOut s).trans (ih _)

/-! ## A run over a tree -/

variable {m : Bytes} {kids rest F : Forest} {ptr : Word} {fuel : Nat}
  {children : Word → BitVec 16 → Ptr → EStateM Stop (Gpu arch) Unit}

private theorem modify_outcome {g : Gpu arch → Gpu arch} (h : Walked vbuf rs ds s (g s)) :
    Outcome vbuf rs ds s ((modify g : EStateM Stop (Gpu arch) Unit) s) := h

theorem toHost_inside {n : Nat} (h : ptr.toNat + n ≤ VMEM_SIZE) :
    ptr ≠ AM_GPU_NULL ∧ toHost ptr = (.vmem, (ptr.toNat : Int)) := by
  have hNull : ptr ≠ AM_GPU_NULL := by
    rintro rfl
    exact absurd (Nat.le_of_add_right_le h) (by decide)
  exact ⟨hNull, if_neg hNull⟩

private theorem outcome_alloc {f : Ptr → EStateM Stop (Gpu arch) Unit}
    (hNext : ∀ a s', s'.mem .vmem = s.mem .vmem → Outcome vbuf rs ds s' (f (.mem .vbuf a) s')) :
    Outcome vbuf (r :: rs) ds s ((vbufAlloc vbuf r >>= f) s) := by
  cases hAlloc : s.heap.alloc vbuf r with
  | none =>
      obtain ⟨s', hRun, hBlocks, -, -⟩ := vbufAlloc_none hAlloc
      rw [bind_of_error hRun]
      exact ⟨rfl, [], r, rs, s.heap, rfl, rfl, hAlloc, hBlocks⟩
  | some H =>
      obtain ⟨s', hRun, rfl, hVmem, hDrawn, hDisplay⟩ := vbufAlloc_some hAlloc
      have hWalked : Walked vbuf [r] [] s s' :=
        ⟨allocs_one.trans hAlloc, hVmem, hDrawn.trans (List.append_nil _).symm, hDisplay⟩
      rw [bind_of_ok hRun]
      exact (hNext _ s' hVmem).after hWalked

/-- One canvas, once its children are known. -/
theorem render_outcome (hOut : px.Out) (hm : s.mem .vmem = m)
    (hNode : IsNode m c (kids.Holds m) kids ptr)
    (hKids : ∀ a s', s'.mem .vmem = m → kids.Holds m c.child →
      Outcome vbuf kids.requests kids.samples s' (children c.child c.w (.mem .vbuf a) s')) :
    Outcome vbuf (c.requests ++ kids.requests) (kids.samples ++ c.samples) s
      (render vbuf children (toHost ptr) W px s) := by
  rw [(toHost_inside hNode.inside).2]
  show Outcome _ _ _ s ((if (canvasAt (s.mem .vmem) ptr.toNat).type = AM_GPU_TEXTURE then _
    else _ : EStateM Stop (Gpu arch) Unit) s)
  rw [hm, hNode.canvas]
  unfold Canvas.requests Canvas.samples Canvas.width Canvas.height
  rcases hNode.kind with ⟨hType, rfl⟩ | ⟨hType, hHolds⟩
  · have hNot : AM_GPU_TEXTURE ≠ AM_GPU_SUBTREE := by decide
    rw [hType, if_pos rfl, if_neg hNot, if_pos rfl, if_pos rfl]
    exact modify_outcome (drawLocal_walked hOut s)
  · have hNot : AM_GPU_SUBTREE ≠ AM_GPU_TEXTURE := by decide
    rw [hType, if_neg hNot, if_pos rfl, if_pos rfl, if_neg hNot, if_neg hNot]
    apply outcome_alloc
    intro a s' hVmem
    rw [← List.append_nil kids.requests]
    apply (hKids a s' (hVmem.trans hm) hHolds).bind
    intro t _
    exact modify_outcome (drawLocal_walked hOut t)

theorem renderChildren_outcome (hFuel : F.size < fuel) (hOut : px.Out) (hm : s.mem .vmem = m)
    (hHolds : F.Holds m ptr) :
    Outcome vbuf F.requests F.samples s (renderChildren vbuf fuel ptr W px s) := by
  induction F generalizing fuel ptr px W s with
  | nil =>
      obtain ⟨f, rfl⟩ : ∃ f, fuel = f + 1 := Nat.exists_eq_add_one_of_ne_zero (by omega)
      have hNull : ptr = AM_GPU_NULL := hHolds
      rw [renderChildren, if_pos hNull]
      exact ⟨rfl, rfl, (List.append_nil _).symm, rfl⟩
  | node c kids rest ihKids ihRest =>
      obtain ⟨f, rfl⟩ : ∃ f, fuel = f + 1 := Nat.exists_eq_add_one_of_ne_zero (by omega)
      have hSize : kids.size + rest.size + 1 < f + 1 := hFuel
      have hKids : kids.size < f := by omega
      obtain ⟨hNode, hRest⟩ := hHolds
      rw [renderChildren, if_neg (toHost_inside hNode.inside).1]
      have hFirst : Outcome vbuf (c.requests ++ kids.requests) (kids.samples ++ c.samples) s
          (render vbuf (renderChildren vbuf f) (toHost ptr) W px s) :=
        render_outcome hOut hm hNode
          fun a s' hm' hHolds => ihKids hKids (Ptr.out_vbuf a) hm' hHolds
      apply hFirst.bind
      intro t hWalked
      have hVmem : t.mem .vmem = m := hWalked.vmem.trans hm
      show Outcome _ _ _ t
        (renderChildren vbuf f (canvasAt (t.mem .vmem) ptr.toNat).sibling W px t)
      rw [hVmem, hNode.canvas]
      exact ihRest (by omega) hOut hVmem hRest

theorem gpuRender_outcome (hFuel : kids.size < fuel)
    (hNode : IsNode (s.mem .vmem) c (kids.Holds (s.mem .vmem)) kids ptr) :
    Outcome vbuf (c.requests ++ kids.requests) (kids.samples ++ c.samples) (s.reset vbuf)
      (gpuRender vbuf fuel ptr s) :=
  render_outcome (s := s.reset vbuf) (fun _ => nofun) rfl hNode fun _ _ hm hHolds =>
    renderChildren_outcome hFuel (fun _ => nofun) hm hHolds

/-! ## Sizes -/

private theorem wide (arch : Arch) : 32 ≤ wordBits arch := by cases arch <;> decide

theorem Request.size_eq (r : Request) : r.size arch = BitVec.ofNat 32 r.need := by
  have hThree : (3 : BitVec (wordBits arch)).setWidth 32 = 3 := by cases arch <;> rfl
  unfold Request.size Request.need
  rw [BitVec.setWidth_mul _ _ (wide arch), SignedWord.setWidth_signExtend (wide arch), hThree,
    BitVec.mul_comm, BitVec.ofNat_mul, BitVec.ofNat_mul, BitVec.ofNat_toNat, BitVec.ofNat_toNat]
  rfl

/-- An offset in `vbuf`. -/
theorem toInt_offset {k : Nat} (hk : k ≤ VMEM_SIZE) :
    (BitVec.ofNat (wordBits arch) k).toInt = k := by
  have hSize : VMEM_SIZE = 2 ^ 19 := rfl
  exact SignedWord.toInt_ofNat (SignedWord.fits_wider (wide arch) (by omega))

/-! ## Where the blocks lie -/

/-- The blocks of requests that fit, from `start` on. -/
def blocksFrom (start : Nat) (rs : List Request) : List Alloc :=
  (Bump.layout Request.need start rs).map fun b =>
    { ret := b.1, size := b.2.need, need := b.2.need }

variable {start : Nat} {bs : List Alloc}

/-- A request behind `start` bytes, when it fits. -/
structure Placed (vbuf : BitVec (wordBits arch)) (start : Nat) (r : Request) : Prop where
  size : (r.size arch).toInt = r.need
  ret : (vbuf + BitVec.ofNat (wordBits arch) start - vbuf).toInt = (start : Int)
  head : vbuf + BitVec.ofNat _ start + (r.size arch).signExtend (wordBits arch) =
    vbuf + BitVec.ofNat _ (start + r.need)
  below : ¬ vbuf + BitVec.ofNat _ VMEM_SIZE < vbuf + BitVec.ofNat _ (start + r.need)

private theorem placed_of_fits (hVbuf : vbuf.toNat + VMEM_SIZE < 2 ^ wordBits arch)
    (hFits : start + r.need ≤ VMEM_SIZE) : Placed vbuf start r := by
  have hSize : VMEM_SIZE = 2 ^ 19 := rfl
  have hPlace : ∀ k, k ≤ VMEM_SIZE → (vbuf + BitVec.ofNat (wordBits arch) k).toNat =
      vbuf.toNat + k := by
    intro k hk
    rw [BitVec.toNat_add, BitVec.toNat_ofNat, Nat.add_mod_mod]
    exact Nat.mod_eq_of_lt (by omega)
  constructor
  · rw [r.size_eq, SignedWord.toInt_ofNat (by omega)]
  · rw [ByteMem.add_sub_self, toInt_offset (by omega)]
  · rw [r.size_eq, SignedWord.signExtend_ofNat (wide arch) (by omega), BitVec.add_assoc,
      ← BitVec.ofNat_add]
  · rw [BitVec.lt_def, hPlace _ (Nat.le_refl _), hPlace _ hFits]
    omega

private theorem alloc_fits (hVbuf : vbuf.toNat + VMEM_SIZE < 2 ^ wordBits arch)
    (hFits : start + r.need ≤ VMEM_SIZE) :
    Heap.alloc vbuf { head := vbuf + BitVec.ofNat _ start, blocks := bs } r =
      some
        { head := vbuf + BitVec.ofNat _ (start + r.need)
          blocks := bs ++ blocksFrom start [r] } := by
  have hPlaced := placed_of_fits hVbuf hFits
  unfold Heap.alloc
  dsimp only
  rw [hPlaced.head, if_neg hPlaced.below, hPlaced.size, hPlaced.ret]
  rfl

/-- `vbuf_alloc` has returned a block behind `start` bytes, which is zeroed. -/
structure Zeroed (vbuf : BitVec (wordBits arch)) (start : Nat) (r : Request) (s t : Gpu arch) :
    Prop where
  head : t.vbufHead = vbuf + BitVec.ofNat _ (start + r.need)
  vbuf : t.mem .vbuf = zeroFill (s.mem .vbuf) start r.need
  others : ∀ reg, reg ≠ .vbuf → t.mem reg = s.mem reg
  fb : t.fb = s.fb
  display : t.display = s.display

theorem vbufAlloc_fits (hVbuf : vbuf.toNat + VMEM_SIZE < 2 ^ wordBits arch)
    (hHead : s.vbufHead = vbuf + BitVec.ofNat _ start) (hFits : start + r.need ≤ VMEM_SIZE) :
    ∃ t, vbufAlloc vbuf r s = .ok (.mem .vbuf start) t ∧ Zeroed vbuf start r s t := by
  have hPlaced := placed_of_fits hVbuf hFits
  unfold vbufAlloc
  dsimp only
  rw [hHead, hPlaced.head, if_neg hPlaced.below, hPlaced.size, hPlaced.ret]
  exact ⟨_, rfl, rfl, rfl, fun reg hReg => Function.update_of_ne hReg .., rfl, rfl⟩

private theorem allocs_fits (hVbuf : vbuf.toNat + VMEM_SIZE < 2 ^ wordBits arch)
    (hFits : start + Bump.total Request.need rs ≤ VMEM_SIZE) :
    Heap.allocs vbuf { head := vbuf + BitVec.ofNat _ start, blocks := bs } rs =
      some
        { head := vbuf + BitVec.ofNat _ (start + Bump.total Request.need rs)
          blocks := bs ++ blocksFrom start rs } := by
  induction rs generalizing start bs with
  | nil => simp [Heap.allocs, blocksFrom, Bump.layout]
  | cons r rs ih =>
      rw [Bump.total_cons] at hFits ⊢
      rw [allocs_cons, alloc_fits hVbuf (by omega)]
      show Heap.allocs _ _ _ = _
      rw [ih (by omega), Nat.add_assoc, List.append_assoc]
      rfl

/-- From the start of `gpu_render` on. -/
theorem allocs_reset (s : Gpu arch) (hVbuf : vbuf.toNat + VMEM_SIZE < 2 ^ wordBits arch)
    (hFits : Bump.total Request.need rs ≤ VMEM_SIZE) :
    (s.reset vbuf).heap.allocs vbuf rs =
      some
        { head := vbuf + BitVec.ofNat _ (Bump.total Request.need rs)
          blocks := blocksFrom 0 rs } := by
  have hAll : Heap.allocs vbuf { head := vbuf + BitVec.ofNat _ 0, blocks := [] } rs = _ :=
    allocs_fits hVbuf (by rwa [Nat.zero_add])
  rwa [BitVec.add_zero, Nat.zero_add] at hAll

/-! ## Sound blocks -/

/-- A byte of `vbuf` that belongs to the block. -/
def Alloc.Has (b : Alloc) (x : Int) : Prop := b.ret ≤ x ∧ x < b.ret + b.size

/-- Every block is as large as it has to be, lies inside `vbuf`, and is apart from
the earlier ones. -/
structure Sound (blocks : List Alloc) : Prop where
  size : ∀ b ∈ blocks, b.size = b.need
  inside : ∀ b ∈ blocks, 0 ≤ b.ret ∧ b.ret + b.size ≤ VMEM_SIZE
  apart : blocks.Pairwise fun b b' => ∀ x, b.Has x → ¬ b'.Has x

private theorem blocksFrom_sound (hFits : Bump.total Request.need rs ≤ VMEM_SIZE) :
    Sound (blocksFrom 0 rs) := by
  unfold blocksFrom
  constructor
  · intro b hb
    obtain ⟨b, -, rfl⟩ := List.mem_map.mp hb
    rfl
  · intro b hb
    obtain ⟨b, hMem, rfl⟩ := List.mem_map.mp hb
    have hLies := Bump.mem_layout hMem
    dsimp only
    omega
  · rw [List.pairwise_map]
    apply (Bump.layout_pairwise 0 rs).imp
    intro b b' hBelow x hx hx'
    unfold Alloc.Has at hx hx'
    dsimp only at hx hx'
    omega

/-- `vbuf_head`, after a request behind `start` bytes, is seen above the end. -/
def Seen (vbuf : BitVec (wordBits arch)) (start : Nat) (r : Request) : Prop :=
  vbuf + BitVec.ofNat _ VMEM_SIZE <
    vbuf + BitVec.ofNat _ start + (BitVec.ofNat 32 r.need).signExtend (wordBits arch)

instance (vbuf : BitVec (wordBits arch)) (start : Nat) (r : Request) :
    Decidable (Seen vbuf start r) := inferInstanceAs (Decidable (_ < _))

/-- The first request that does not fit is seen. -/
def MisfitSeen (vbuf : BitVec (wordBits arch)) (rs : List Request) : Prop :=
  ∀ pre r post, rs = pre ++ r :: post → Bump.total Request.need pre ≤ VMEM_SIZE →
    VMEM_SIZE < Bump.total Request.need pre + r.need → Seen vbuf (Bump.total Request.need pre) r

private theorem alloc_none_iff :
    Heap.alloc vbuf { head := vbuf + BitVec.ofNat _ start, blocks := bs } r = none ↔
      Seen vbuf start r := by
  unfold Heap.alloc Seen
  dsimp only
  rw [r.size_eq]
  split <;> simp_all

variable {n : Nat}

/-- Where the requests stop fitting, `vbuf_alloc` is at the first that does not. -/
theorem allocs_misfit (hVbuf : vbuf.toNat + VMEM_SIZE < 2 ^ wordBits arch)
    (hSeen : MisfitSeen vbuf rs) (hOver : VMEM_SIZE < Bump.total Request.need rs) :
    (s.reset vbuf).heap.allocs vbuf rs = none := by
  obtain ⟨pre, r, post, rfl, hPre, hMiss⟩ := Bump.exists_misfit hOver
  rw [allocs_append, allocs_reset s hVbuf hPre]
  show Heap.allocs vbuf _ (r :: post) = none
  rw [allocs_cons, alloc_none_iff.mpr (hSeen pre r post rfl hPre hMiss)]
  rfl

theorem MisfitSeen.left (h : MisfitSeen vbuf (rs ++ rs')) : MisfitSeen vbuf rs := by
  rintro pre r post rfl hPre hMiss
  exact h pre r (post ++ rs') (by rw [List.append_assoc, List.cons_append]) hPre hMiss

/-- What has been served fits. -/
theorem served_fits (hVbuf : vbuf.toNat + VMEM_SIZE < 2 ^ wordBits arch)
    (hSeen : MisfitSeen vbuf rs) (hServed : (s.reset vbuf).heap.allocs vbuf rs = some H) :
    Bump.total Request.need rs ≤ VMEM_SIZE := by
  by_contra hOver
  rw [allocs_misfit hVbuf hSeen (Nat.lt_of_not_le hOver)] at hServed
  cases hServed

private theorem served_sound (hVbuf : vbuf.toNat + VMEM_SIZE < 2 ^ wordBits arch)
    (hSeen : MisfitSeen vbuf rs) (hServed : (s.reset vbuf).heap.allocs vbuf rs = some H) :
    Sound H.blocks := by
  have hFits := served_fits hVbuf hSeen hServed
  rw [allocs_reset s hVbuf hFits] at hServed
  cases hServed
  exact blocksFrom_sound hFits

/-- A block that does not fit. -/
theorem misfit_unsound (hVbuf : vbuf.toNat + VMEM_SIZE < 2 ^ wordBits arch)
    (hPre : Bump.total Request.need pre ≤ VMEM_SIZE)
    (hMiss : VMEM_SIZE < Bump.total Request.need pre + r.need)
    (hServed : (s.reset vbuf).heap.allocs vbuf (pre ++ [r]) = some H)
    (hKept : H.blocks <+: bs) : ¬ Sound bs := by
  intro hSound
  rw [allocs_append, allocs_reset s hVbuf hPre, Option.bind_some, allocs_one] at hServed
  obtain ⟨-, hEq⟩ := Option.ite_none_left_eq_some.mp hServed
  cases hEq
  have hMem := hKept.subset (List.mem_append_right _ (List.mem_singleton.mpr rfl))
  have hSize := hSound.size _ hMem
  have hInside := (hSound.inside _ hMem).2
  dsimp only at hSize hInside
  rw [hSize, ByteMem.add_sub_self, toInt_offset hPre] at hInside
  omega

/-- The state that a run leaves, however it ends. -/
def final : EStateM.Result Stop (Gpu arch) Unit → Gpu arch
  | .ok _ s => s
  | .error _ s => s

/-- A misfit that is not seen is served. -/
theorem unseen_served (hVbuf : vbuf.toNat + VMEM_SIZE < 2 ^ wordBits arch)
    (hPre : Bump.total Request.need pre ≤ VMEM_SIZE)
    (hUnseen : ¬ Seen vbuf (Bump.total Request.need pre) r) :
    ∃ H, (s.reset vbuf).heap.allocs vbuf (pre ++ [r]) = some H := by
  rw [allocs_append, allocs_reset s hVbuf hPre, Option.bind_some, allocs_one]
  apply Option.ne_none_iff_exists'.mp
  rwa [Ne, alloc_none_iff]

/-- A run that stops leaves the blocks that were served before. -/
theorem Refused.served_before {t : Gpu arch} {r' : Request} {post' : List Request}
    (h : Refused vbuf s t pre r H) (hSame : rs ++ r' :: post' = pre ++ r :: post)
    (hServed : s.heap.allocs vbuf (rs ++ [r']) = some H') : H'.blocks <+: t.blocks := by
  have hNot : ∀ rest H', s.heap.allocs vbuf (pre ++ [r] ++ rest) ≠ some H' := by
    intro rest H' hAll
    obtain ⟨H₁, hFirst, -⟩ := allocs_left hAll
    rw [allocs_append, h.served, Option.bind_some, allocs_one, h.refused] at hFirst
    cases hFirst
  have hLeft : rs ++ [r'] <+: pre ++ r :: post := by
    rw [← hSame]
    exact ⟨post', List.append_assoc ..⟩
  have hRight : pre ++ [r] <+: pre ++ r :: post := ⟨post, List.append_assoc ..⟩
  rcases List.prefix_or_prefix_of_prefix hLeft hRight with hShort | ⟨rest, hEq⟩
  · rcases List.prefix_concat_iff.mp hShort with hEq | ⟨rest, hEq⟩
    · rw [hEq, ← List.append_nil (pre ++ [r])] at hServed
      exact absurd hServed (hNot _ _)
    · have hPre := h.served
      rw [← hEq] at hPre
      obtain ⟨H₁, hFirst, hKept⟩ := allocs_left hPre
      cases hServed.symm.trans hFirst
      rw [h.blocks]
      exact hKept
  · rw [← hEq] at hServed
    exact absurd hServed (hNot _ _)

theorem sound_iff {result : EStateM.Result Stop (Gpu arch) Unit}
    (hVbuf : vbuf.toNat + VMEM_SIZE < 2 ^ wordBits arch)
    (h : Outcome vbuf rs ds (s.reset vbuf) result) :
    Sound (final result).blocks ↔ MisfitSeen vbuf rs := by
  constructor
  · rintro hSound pre r post rfl hPre hMiss
    by_contra hUnseen
    obtain ⟨H, hServed⟩ := unseen_served (s := s) hVbuf hPre hUnseen
    apply misfit_unsound hVbuf hPre hMiss hServed _ hSound
    cases result with
    | ok u t =>
        have hAll := h.heap
        rw [List.append_cons] at hAll
        obtain ⟨H₁, hFirst, hKept⟩ := allocs_left hAll
        cases hServed.symm.trans hFirst
        exact hKept
    | error e t =>
        obtain ⟨-, pre', r', post', H', hSame, hRefused⟩ := h
        exact hRefused.served_before hSame hServed
  · intro hSeen
    cases result with
    | ok u t => exact served_sound hVbuf hSeen h.heap
    | error e t =>
        obtain ⟨-, pre, r, post, H, rfl, hRefused⟩ := h
        show Sound t.blocks
        rw [hRefused.blocks]
        exact served_sound hVbuf hSeen.left hRefused.served

end AbstractMachine.X86.Render
