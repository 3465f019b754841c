import Mathlib.Algebra.GroupWithZero.Nat
import AbstractMachine.Klib.Stdlib.Malloc

/-!
# `malloc` after start-up

Three platforms have the `malloc` of riscv32 and riscv32e.  `heap_alloc_ptr` is
klib's, and NULL in the image; it is for `_trm_init` of the platform to set it.
-/

namespace AbstractMachine.Klib

open AbstractMachine.Lib ByteMem

/-! ## The platforms -/

/-- The platforms that link this allocator. -/
inductive Platform where
  | nemu | npc | ysyxsoc
  deriving DecidableEq, Repr

/-- Where physical memory starts, `_pmem_start` of the linker script. -/
def pmemStart : Ptr := 0x80000000

/-- 128 MiB of physical memory. -/
def PMEM_SIZE : Ptr := 128 * 1024 * 1024

/-- The end of physical memory, the end of the heap on nemu and npc. -/
def PMEM_END : Ptr := pmemStart + PMEM_SIZE

/-- `HEAP_SIZE` of ysyxsoc, and its `_sram_start` and `_sram_limit`. -/
def HEAP_SIZE : Ptr := 0x1000

/-- `_sram_start` of ysyxsoc. -/
def sramStart : Ptr := 0x0f000000

/-- The length of the SRAM of ysyxsoc. -/
def sramLimit : Ptr := 0x2000

/-- Where the linker scripts may put `_heap_start`: on a page, after the
sections. -/
def Platform.Linked (pf : Platform) (heapStart : Ptr) : Prop :=
  heapStart.toNat % 0x1000 = 0 ∧
    match pf with
    | .nemu => pmemStart ≤ heapStart ∧ heapStart ≤ PMEM_END
    | .npc => pmemStart ≤ heapStart ∧ heapStart ≤ PMEM_END
    | .ysyxsoc => sramStart ≤ heapStart ∧ heapStart ≤ sramStart + sramLimit

instance (pf : Platform) (heapStart : Ptr) : Decidable (pf.Linked heapStart) :=
  match pf with
  | .nemu => inferInstanceAs (Decidable (_ ∧ pmemStart ≤ heapStart ∧ heapStart ≤ PMEM_END))
  | .npc => inferInstanceAs (Decidable (_ ∧ pmemStart ≤ heapStart ∧ heapStart ≤ PMEM_END))
  | .ysyxsoc =>
      inferInstanceAs
        (Decidable (_ ∧ sramStart ≤ heapStart ∧ heapStart ≤ sramStart + sramLimit))

/-- `heap`. -/
def Platform.heap (pf : Platform) (heapStart : Ptr) : Area :=
  match pf with
  | .nemu => { start := heapStart, ed := PMEM_END }
  | .npc => { start := heapStart, ed := PMEM_END }
  | .ysyxsoc => { start := heapStart, ed := heapStart + HEAP_SIZE }

/-- What `_trm_init` leaves in `heap_alloc_ptr` when it calls `main`. -/
def Platform.trmInit (pf : Platform) (heap : Area) (heap_alloc_ptr : Ptr) : Ptr :=
  match pf with
  | .nemu => heap.start
  | .npc => heap_alloc_ptr
  | .ysyxsoc => 0 -- `clear_bss`

/-- `heap_alloc_ptr` in the image. -/
def NULL : Ptr := 0

/-- The allocator as the first call of `malloc` finds it. -/
def Platform.started (pf : Platform) (heapStart : Ptr) : Alloc where
  heap_alloc_ptr := pf.trmInit (pf.heap heapStart) NULL
  blocks := []

/-- The sizes, each rounded up to a word. -/
def total (sizes : List Ptr) : Nat := (sizes.map fun size => (size.toNat + 3) / 4 * 4).sum

/-! ## Enough room -/

variable {heap : Area} {s : Alloc} {pf : Platform} {hs : Ptr}

/-- A call for which there is room. -/
theorem calls_room (size : Ptr) (h : Bumped heap s) (hAl : s.heap_alloc_ptr.toNat % 4 = 0)
    (hFit : s.heap_alloc_ptr.toNat + (size.toNat + 3) / 4 * 4 < heap.ed.toNat) :
    ∃ s', (calls heap).next s size = some s' ∧ Bumped heap s' ∧
      s'.heap_alloc_ptr.toNat = s.heap_alloc_ptr.toNat + (size.toNat + 3) / 4 * 4 := by
  have hEd := heap.ed.isLt
  have hStart := h.start
  have hWrap : NoWrap s size := by
    unfold NoWrap
    omega
  have hNew := toNat_bump hWrap
  have hIn : IN_RANGE (ROUNDUP (s.heap_alloc_ptr + size) 4) heap := by
    unfold IN_RANGE
    rw [BitVec.le_def, BitVec.lt_def]
    omega
  have hNext : (calls heap).next s size =
      some
        { heap_alloc_ptr := ROUNDUP (s.heap_alloc_ptr + size) 4
          blocks := { p := s.heap_alloc_ptr, size := size } :: s.blocks } := by
    show (malloc heap size s.heap_alloc_ptr).map _ = _
    unfold malloc
    rw [if_pos hIn]
    rfl
  refine ⟨_, hNext, h.step hWrap hNext, ?_⟩
  show (ROUNDUP (s.heap_alloc_ptr + size) 4).toNat = _
  omega

/-- Requests for which there is room. -/
theorem calls_fit (sizes : List Ptr) (h : Bumped heap s) (hAl : s.heap_alloc_ptr.toNat % 4 = 0)
    (hFit : s.heap_alloc_ptr.toNat + total sizes < heap.ed.toNat) :
    ∃ s', (calls heap).steps s sizes = some s' ∧ Bumped heap s' := by
  induction sizes generalizing s with
  | nil => exact ⟨s, rfl, h⟩
  | cons size sizes ih =>
      have hTotal : total (size :: sizes) = (size.toNat + 3) / 4 * 4 + total sizes :=
        List.sum_cons
      obtain ⟨t, hNext, hInv, hPtr⟩ := calls_room size h hAl (by omega)
      obtain ⟨s', hSteps, hInv'⟩ := ih hInv (by omega) (by omega)
      refine ⟨s', ?_, hInv'⟩
      show ((calls heap).next s size).bind _ = _
      rw [hNext]
      exact hSteps

/-! ## No room below the heap -/

/-- From NULL the first call ends below the heap. -/
theorem null_panics (heap : Area) (size : Ptr) (hPtr : s.heap_alloc_ptr = 0)
    (hBelow : (size.toNat + 3) / 4 * 4 < heap.start.toNat) : (calls heap).next s size = none := by
  have hStart := heap.start.isLt
  have hZero : s.heap_alloc_ptr.toNat = 0 := by
    rw [hPtr]
    rfl
  have hNew : (ROUNDUP (s.heap_alloc_ptr + size) 4).toNat = _ := toNat_bump (by omega)
  have hOut : ¬ IN_RANGE (ROUNDUP (s.heap_alloc_ptr + size) 4) heap := by
    unfold IN_RANGE
    rw [BitVec.le_def]
    omega
  show (malloc heap size s.heap_alloc_ptr).map _ = _
  unfold malloc
  rw [if_neg hOut]
  rfl

/-- No heap is larger than what is below it. -/
theorem Platform.Linked.room (h : pf.Linked hs) :
    hs.toNat % 4 = 0 ∧ (pf.heap hs).start = hs ∧
      (pf.heap hs).ed.toNat ≤ hs.toNat + hs.toNat := by
  obtain ⟨hPage, hRange⟩ := h
  have hAl : hs.toNat % 4 = 0 := by omega
  have hEnd : PMEM_END.toNat = 0x88000000 := rfl
  have hStart : pmemStart.toNat = 0x80000000 := rfl
  have hSram : sramStart.toNat = 0x0f000000 := rfl
  have hLimit : (sramStart + sramLimit).toNat = 0x0f002000 := rfl
  have hSize : HEAP_SIZE.toNat = 0x1000 := rfl
  cases pf with
  | nemu =>
      have hLow := BitVec.le_def.mp hRange.1
      refine ⟨hAl, rfl, ?_⟩
      show PMEM_END.toNat ≤ _
      omega
  | npc =>
      have hLow := BitVec.le_def.mp hRange.1
      refine ⟨hAl, rfl, ?_⟩
      show PMEM_END.toNat ≤ _
      omega
  | ysyxsoc =>
      have hLow := BitVec.le_def.mp hRange.1
      have hHigh := BitVec.le_def.mp hRange.2
      refine ⟨hAl, rfl, ?_⟩
      show (hs + HEAP_SIZE).toNat ≤ _
      rw [BitVec.toNat_add]
      omega

/--
**Start-up.** With requests whose rounded sizes fit into the heap, no call
panics and every block is in the heap, if and only if the platform is nemu or
there are no requests: npc and ysyxsoc leave `heap_alloc_ptr` NULL.
-/
theorem malloc_starts_iff (pf : Platform) (heapStart : Ptr) (hLinked : pf.Linked heapStart)
    (sizes : List Ptr)
    (hTotal : (pf.heap heapStart).start.toNat + total sizes < (pf.heap heapStart).ed.toNat) :
    (∃ s, (calls (pf.heap heapStart)).steps (pf.started heapStart) sizes = some s ∧
      ∀ b ∈ s.blocks, b.Inside (pf.heap heapStart)) ↔ pf = .nemu ∨ sizes = [] := by
  obtain ⟨hAl, hStart, hRoom⟩ := hLinked.room
  constructor
  · rintro ⟨s, hSteps, -⟩
    by_cases hNemu : pf = .nemu
    · exact Or.inl hNemu
    · have hNull : (pf.started heapStart).heap_alloc_ptr = 0 := by
        cases pf with
        | nemu => exact absurd rfl hNemu
        | npc => rfl
        | ysyxsoc => rfl
      cases sizes with
      | nil => exact Or.inr rfl
      | cons size sizes =>
          have hSum : total (size :: sizes) = (size.toNat + 3) / 4 * 4 + total sizes :=
            List.sum_cons
          rw [hStart] at hTotal
          have hPanic := null_panics (pf.heap heapStart) size hNull (by rw [hStart]; omega)
          have hBind : ((calls (pf.heap heapStart)).next (pf.started heapStart) size).bind _ =
            some s := hSteps
          rw [hPanic] at hBind
          cases hBind
  · rintro (rfl | rfl)
    · obtain ⟨s, hSteps, hInv⟩ := calls_fit sizes (bumped_start (Platform.nemu.heap heapStart))
        hAl hTotal
      exact ⟨s, hSteps, fun _ hb => hInv.inside hb⟩
    · exact ⟨_, rfl, fun b hb => absurd hb (List.not_mem_nil)⟩

/-- Two requests on nemu. -/
theorem malloc_starts_iff_nemu :
    (∃ s, (calls (Platform.nemu.heap 0x80010000)).steps (Platform.nemu.started 0x80010000) [16, 5] =
        some s ∧ ∀ b ∈ s.blocks, b.Inside (Platform.nemu.heap 0x80010000)) ↔
      Platform.nemu = .nemu ∨ ([16, 5] : List Ptr) = [] :=
  malloc_starts_iff .nemu 0x80010000 (by decide) [16, 5] (by decide)

/-- One word on npc and on ysyxsoc. -/
theorem malloc_panics :
    (Platform.npc.Linked 0x80010000 ∧
      (calls (Platform.npc.heap 0x80010000)).steps (Platform.npc.started 0x80010000) [4] = none) ∧
    Platform.ysyxsoc.Linked 0x0f001000 ∧
      (calls (Platform.ysyxsoc.heap 0x0f001000)).steps (Platform.ysyxsoc.started 0x0f001000) [4] =
        none :=
  ⟨⟨by decide, by rfl⟩, by decide, by rfl⟩

end AbstractMachine.Klib
