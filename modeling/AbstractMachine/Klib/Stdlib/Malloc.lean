import AbstractMachine.Lib.ByteMem
import AbstractMachine.Lib.Transition

/-!
# `malloc` of klib

On riscv32 and riscv32e `malloc` hands out the heap from one end to the other:
`heap_alloc_ptr` moves up by the size, rounded up to a word, and the only check
is that it is still in the heap afterwards.  Pointers are words of 32 bits and
wrap around, so the check says something only about sizes that do not make the
pointer wrap.
-/

namespace AbstractMachine.Klib

open AbstractMachine.Lib ByteMem

/-- A pointer of a 32-bit target. -/
abbrev Ptr := BitVec 32

/-! ## The program -/

/-- `Area`; `ed` is its `end`. -/
structure Area where
  start : Ptr
  ed : Ptr

/-- `ROUNDUP`, for a power of two. -/
def ROUNDUP (a sz : Ptr) : Ptr := (a + sz - 1) &&& ~~~(sz - 1)

def IN_RANGE (ptr : Ptr) (area : Area) : Prop := area.start ≤ ptr ∧ ptr < area.ed

instance (ptr : Ptr) (area : Area) : Decidable (IN_RANGE ptr area) := by
  unfold IN_RANGE
  infer_instance

/-- `malloc`, from one `heap_alloc_ptr` to the next; none is the panic. -/
def malloc (heap : Area) (size heap_alloc_ptr : Ptr) : Option (Ptr × Ptr) :=
  let p := heap_alloc_ptr
  let heap_alloc_ptr := ROUNDUP (heap_alloc_ptr + size) 4
  if IN_RANGE heap_alloc_ptr heap then some (p, heap_alloc_ptr) else none

/-! ## Runs -/

/-- What a call has returned, and for which size. -/
structure Block where
  p : Ptr
  size : Ptr
  deriving DecidableEq, Repr

/-- The allocator: its one static pointer, and the blocks handed out as a ghost. -/
structure Alloc where
  heap_alloc_ptr : Ptr
  /-- The blocks returned so far, the last one first. -/
  blocks : List Block

/-- Calls of `malloc`, one step for each, labelled with the size. -/
def calls (heap : Area) : System Alloc Ptr where
  init s := s = { heap_alloc_ptr := heap.start, blocks := [] }
  next s size :=
    (malloc heap size s.heap_alloc_ptr).map fun r =>
      { heap_alloc_ptr := r.2, blocks := { p := r.1, size := size } :: s.blocks }

/-- The bytes of a block are in the heap. -/
def Block.Inside (b : Block) (heap : Area) : Prop :=
  ∀ x, InBlock b.p b.size.toNat x → IN_RANGE x heap

/-- No byte is in two blocks. -/
def BlocksApart (bs : List Block) : Prop :=
  bs.Pairwise fun b b' => Apart b.p b.size.toNat b'.p b'.size.toNat

/-- The rounded pointer of a call does not wrap. -/
def NoWrap (s : Alloc) (size : Ptr) : Prop := s.heap_alloc_ptr.toNat + size.toNat + 3 < 2 ^ 32

instance (s : Alloc) (size : Ptr) : Decidable (NoWrap s size) := by
  unfold NoWrap
  infer_instance

/-! ## One call -/

variable {heap : Area} {s : Alloc} {p size q r : Ptr}

/-- The two low bits are cleared. -/
theorem clear_low (a : Ptr) : (a &&& ~~~(4#32 - 1)).toNat = a.toNat / 4 * 4 := by
  have hMask : ∀ k, k < 32 → (~~~(4#32 - 1)).getLsbD k = decide (2 ≤ k) := by decide
  have hShift : a &&& ~~~(4#32 - 1) = (a >>> 2) <<< 2 := by
    apply BitVec.eq_of_getLsbD_eq
    intro k hk
    rw [BitVec.getLsbD_and, hMask k hk, BitVec.getLsbD_shiftLeft, BitVec.getLsbD_ushiftRight]
    by_cases h2 : 2 ≤ k
    · have hBack : 2 + (k - 2) = k := by omega
      have hLow : ¬ k < 2 := by omega
      simp [h2, hk, hBack, hLow]
    · have hLow : k < 2 := by omega
      simp [h2, hLow]
  have ha := a.isLt
  rw [hShift, BitVec.toNat_shiftLeft, BitVec.toNat_ushiftRight, Nat.shiftLeft_eq,
    Nat.shiftRight_eq_div_pow]
  omega

private theorem toNat_roundup (a : Ptr) (h : a.toNat + 3 < 2 ^ 32) :
    (ROUNDUP a 4).toNat = (a.toNat + 3) / 4 * 4 := by
  have hSum : (a + 4 - 1).toNat = a.toNat + 3 := by
    have hAssoc : a + 4 - 1 = a + 3 := by grind
    rw [hAssoc, BitVec.toNat_add]
    exact Nat.mod_eq_of_lt h
  unfold ROUNDUP
  refine (clear_low _).trans ?_
  rw [hSum]

/-- The pointer after a call, if it does not wrap. -/
theorem toNat_bump (hWrap : p.toNat + size.toNat + 3 < 2 ^ 32) :
    (ROUNDUP (p + size) 4).toNat = (p.toNat + size.toNat + 3) / 4 * 4 := by
  have hSum : (p + size).toNat = p.toNat + size.toNat := by
    rw [BitVec.toNat_add]
    exact Nat.mod_eq_of_lt (by omega)
  rw [toNat_roundup _ (by rw [hSum]; exact hWrap), hSum]

private theorem malloc_some (h : malloc heap size p = some (r, q)) :
    r = p ∧ q = ROUNDUP (p + size) 4 ∧ IN_RANGE q heap := by
  unfold malloc at h
  simp only [Option.ite_none_right_eq_some, Option.some.injEq, Prod.mk.injEq] at h
  obtain ⟨hIn, rfl, rfl⟩ := h
  exact ⟨rfl, rfl, hIn⟩

/-! ## Every run -/

/-- The blocks lie one above the other, from the start of the heap up to
`heap_alloc_ptr`. -/
structure Bumped (heap : Area) (s : Alloc) : Prop where
  start : heap.start.toNat ≤ s.heap_alloc_ptr.toNat
  inHeap : ∀ b ∈ s.blocks, s.heap_alloc_ptr.toNat < heap.ed.toNat
  low : ∀ b ∈ s.blocks, heap.start.toNat ≤ b.p.toNat
  high : ∀ b ∈ s.blocks, b.p.toNat + b.size.toNat ≤ s.heap_alloc_ptr.toNat
  order : s.blocks.Pairwise fun b b' => b'.p.toNat + b'.size.toNat ≤ b.p.toNat

theorem Bumped.step {s s' : Alloc} (h : Bumped heap s) (hWrap : NoWrap s size)
    (hNext : (calls heap).next s size = some s') : Bumped heap s' := by
  obtain ⟨⟨p, q⟩, hCall, rfl⟩ := Option.map_eq_some_iff.mp hNext
  obtain ⟨rfl, rfl, hIn⟩ := malloc_some hCall
  have hGrow := toNat_bump hWrap
  have hStart := h.start
  exact
    { start := by
        show heap.start.toNat ≤ (ROUNDUP (s.heap_alloc_ptr + size) 4).toNat
        omega
      inHeap := fun _ _ => BitVec.lt_def.mp hIn.2
      low := by
        intro b hb
        rcases List.mem_cons.mp hb with rfl | hOld
        · exact hStart
        · exact h.low b hOld
      high := by
        intro b hb
        show b.p.toNat + b.size.toNat ≤ (ROUNDUP (s.heap_alloc_ptr + size) 4).toNat
        rcases List.mem_cons.mp hb with rfl | hOld
        · show s.heap_alloc_ptr.toNat + size.toNat ≤ _
          omega
        · have hHigh := h.high b hOld
          omega
      order := List.pairwise_cons.mpr ⟨fun b hb => h.high b hb, h.order⟩ }

theorem bumped_start (heap : Area) :
    Bumped heap { heap_alloc_ptr := heap.start, blocks := [] } where
  start := Nat.le_refl _
  inHeap := by simp
  low := by simp
  high := by simp
  order := List.Pairwise.nil

private theorem bumped_reachable (h : ((calls heap).restrict NoWrap).Reachable s) :
    Bumped heap s := by
  apply h.inv
  · rintro _ rfl
    exact bumped_start heap
  · intro s size s' hInv hNext
    obtain ⟨hWrap, hCall⟩ := System.restrict_next.mp hNext
    exact hInv.step hWrap hCall

theorem Bumped.inside (h : Bumped heap s) {b : Block} (hb : b ∈ s.blocks) : b.Inside heap := by
  have hEd := h.inHeap b hb
  have hHigh := h.high b hb
  have hLow := h.low b hb
  have hPtr := s.heap_alloc_ptr.isLt
  intro x hx
  rw [inBlock_iff (by omega)] at hx
  unfold IN_RANGE
  rw [BitVec.le_def, BitVec.lt_def]
  omega

theorem Bumped.apart (h : Bumped heap s) : BlocksApart s.blocks := by
  apply h.order.imp_of_mem
  intro b b' hb hb' hLe
  have hHigh := h.high b hb
  have hHigh' := h.high b' hb'
  have hPtr := s.heap_alloc_ptr.isLt
  apply apart_of_le <;> omega

/--
**Blocks of the heap.** As long as no request makes the rounded pointer wrap,
every block that `malloc` has returned is in the heap, and no two of them have a
byte in common.
-/
theorem malloc_blocks (heap : Area) (s : Alloc)
    (h : ((calls heap).restrict NoWrap).Reachable s) :
    (∀ b ∈ s.blocks, b.Inside heap) ∧ BlocksApart s.blocks :=
  ⟨fun _ hb => (bumped_reachable h).inside hb, (bumped_reachable h).apart⟩

/-- 16 bytes and then 5. -/
theorem malloc_blocks_two :
    ∃ s : Alloc, s.blocks = [{ p := 0x80001010, size := 5 }, { p := 0x80001000, size := 16 }] ∧
      (∀ b ∈ s.blocks, b.Inside { start := 0x80001000, ed := 0x88000000 }) ∧
      BlocksApart s.blocks := by
  have hSteps : ((calls { start := 0x80001000, ed := 0x88000000 }).restrict NoWrap).steps
      { heap_alloc_ptr := 0x80001000, blocks := [] } [16, 5] =
        some
          { heap_alloc_ptr := 0x80001018
            blocks := [{ p := 0x80001010, size := 5 }, { p := 0x80001000, size := 16 }] } := by
    rfl
  exact ⟨_, rfl, malloc_blocks _ _ ⟨_, rfl, System.steps_run _ _ hSteps⟩⟩

/-- A request of almost 4 GB moves the pointer back, and the next block is one
that is in use. -/
theorem malloc_twice :
    ∃ s, (calls { start := 0x80001000, ed := 0x88000000 }).Reachable s ∧
      ¬ (∀ b ∈ s.blocks, b.Inside { start := 0x80001000, ed := 0x88000000 }) ∧
      ¬ BlocksApart s.blocks := by
  have hSteps : (calls { start := 0x80001000, ed := 0x88000000 }).steps
      { heap_alloc_ptr := 0x80001000, blocks := [] } [16, 0xfffffff0, 16] =
        some
          { heap_alloc_ptr := 0x80001010
            blocks := [{ p := 0x80001000, size := 16 }, { p := 0x80001010, size := 0xfffffff0 },
              { p := 0x80001000, size := 16 }] } := by
    rfl
  refine ⟨_, ⟨_, rfl, System.steps_run _ _ hSteps⟩, ?_, ?_⟩
  · intro hInside
    have hLast := hInside { p := 0x80001010, size := 0xfffffff0 } (by simp) 0x90000000 (by decide)
    revert hLast
    decide
  · intro hApart
    have hTwice := (List.pairwise_cons.mp hApart).1 { p := 0x80001000, size := 16 } (by simp)
    exact hTwice 0x80001000 (by decide) (by decide)

end AbstractMachine.Klib
