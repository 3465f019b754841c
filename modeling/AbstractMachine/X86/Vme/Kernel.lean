import AbstractMachine.X86.Vme.Space

/-!
# Kernel tables

The tables behind the kernel slots of the root table are shared by all
address spaces.  `KernelTables` says which pages they occupy, that their
level-1 entries are closed to the user, and that they map the kernel areas to
themselves.  A translation through a kernel slot reads nothing else, so it is
the same from the kernel root, from any root that copied the kernel entries,
and in any later memory that left the pages alone.
-/

namespace AbstractMachine.X86.Vme

open AbstractMachine.Lib

/-- The address lies in the area; an area may end at the wrapped address 0. -/
def VmArea.Contains (arch : Arch) (area : VmArea) (va : Nat) : Prop :=
  area.start ≤ va ∧ va < (if area.stop = 0 then 2 ^ wordBits arch else area.stop)

instance (arch : Arch) (area : VmArea) (va : Nat) :
    Decidable (area.Contains arch va) := by
  unfold VmArea.Contains
  infer_instance

/-- The address lies in one of the kernel areas. -/
def InKernel (arch : Arch) (va : Nat) : Prop :=
  ∃ area ∈ vmAreas arch, area.kernel = true ∧ area.Contains arch va

instance (arch : Arch) (va : Nat) : Decidable (InKernel arch va) := by
  unfold InKernel
  infer_instance

theorem inKernel_i386 {va : Nat} :
    InKernel .i386 va ↔ va < 0x40000000 ∨ 0xfd000000 ≤ va ∧ va < 2 ^ 32 := by
  simp [InKernel, vmAreas, VmArea.Contains, wordBits]

theorem inKernel_x86_64 {va : Nat} : InKernel .x86_64 va ↔ va < 0x8000000000 := by
  simp [InKernel, vmAreas, VmArea.Contains]

/-- A kernel address goes through a kernel slot of the root table. -/
theorem kernel_index {arch : Arch} {va : Nat} (h : InKernel arch va) :
    KernelIndex arch (indexof va (level1 arch)) := by
  rw [indexof_eq (level1_ok arch)]
  cases arch with
  | i386 =>
      rw [inKernel_i386] at h
      simp only [KernelIndex, level1, mmu, List.getD_cons_succ, List.getD_cons_zero]
      omega
  | x86_64 =>
      rw [inKernel_x86_64] at h
      simp only [KernelIndex, level1, mmu, List.getD_cons_succ, List.getD_cons_zero]
      omega

/-- The tables at the kernel root `kpt`, all of them in `pages`. -/
structure KernelTables (arch : Arch) (mem : Nat → Nat) (kpt : Nat) (pages : List Nat) :
    Prop where
  aligned : ∀ q ∈ pages, q % 4096 = 0
  below : ∀ q ∈ pages, Addressable arch q
  root : kpt ∈ pages
  supervisor : ∀ i, KernelIndex arch i → mem (kpt + i * wordBytes arch) &&& pteU = 0
  closed : ∀ i, KernelIndex arch i →
    mem (kpt + i * wordBytes arch) &&& pteP = 0 ∨
      WalkClosed arch mem (· ∈ pages) (hwLevels arch).tail
        (frameOf arch (mem (kpt + i * wordBytes arch)) 12)
  identity : ∀ va, InKernel arch va →
    translate arch mem va kpt = some { paddr := va, writable := true, user := false }

section

variable {arch : Arch}

/-- The first step of a walk. -/
theorem translate_eq (mem : Nat → Nat) {va cr3 : Nat} :
    translate arch mem va cr3 =
      let entry := mem (frameOf arch cr3 12 + indexof va (level1 arch) * wordBytes arch)
      if entry &&& pteP = 0 then none
      else hwWalk arch mem va (hwLevels arch).tail (frameOf arch entry 12)
        (decide (entry &&& pteW ≠ 0)) (decide (entry &&& pteU ≠ 0)) := by
  have hMatch := hwMatch arch
  rw [tables_eq] at hMatch
  have hFirst : ∃ l l' ls, hwLevels arch = l :: l' :: ls ∧ l.large = false := by
    cases arch <;> exact ⟨_, _, _, rfl, rfl⟩
  obtain ⟨l, l', ls, hLevels, hSmall⟩ := hFirst
  rw [hLevels] at hMatch
  have hIndex := HwLevel.index_eq (level1_ok arch) hMatch.1 hMatch.2.1 va
  rw [translate, hLevels, hwWalk, hIndex]
  simp [hSmall]

/-- A large page ends the walk. -/
theorem hwWalk_large {mem : Nat → Nat} {addr base entry : Nat} {w u : Bool}
    {l : HwLevel} {ls : List HwLevel}
    (hEntry : mem (base + l.index addr * wordBytes arch) = entry)
    (hPresent : entry &&& pteP ≠ 0) (hLarge : l.large = true ∧ entry &&& ptePS ≠ 0) :
    hwWalk arch mem addr (l :: ls) base w u =
      some
        { paddr := frameOf arch entry l.shift + addr % 2 ^ l.shift
          writable := w && decide (entry &&& pteW ≠ 0)
          user := u && decide (entry &&& pteU ≠ 0) } := by
  rw [hwWalk, hEntry, if_neg hPresent, if_pos (Or.inr hLarge)]

variable {mem mem' : Nat → Nat} {kpt : Nat} {pages : List Nat}

/--
**Shared kernel entries.**  A root whose kernel words are copies of the
kernel root's translates every address of a kernel slot the way the kernel
root does, and without user access.
-/
theorem KernelTables.translate_shared (h : KernelTables arch mem kpt pages)
    (hSame : ∀ p x, p ∈ pages → InPage 4096 p x → mem' x = mem x)
    {cr3 va : Nat} (hIndex : KernelIndex arch (indexof va (level1 arch)))
    (hCopied : ∀ i, KernelIndex arch i →
      mem' (frameOf arch cr3 12 + i * wordBytes arch) =
        mem (kpt + i * wordBytes arch)) :
    translate arch mem' va cr3 = translate arch mem va kpt := by
  have hKpt : frameOf arch kpt 12 = kpt := frameOf_page (h.aligned kpt h.root) (h.below kpt h.root)
  rw [translate_eq, translate_eq, hCopied _ hIndex, hKpt]
  dsimp only
  rcases h.closed _ hIndex with hAbsent | hClosed
  · rw [if_pos hAbsent, if_pos hAbsent]
  · rw [hwWalk_congr hSame _ _ _ _ hClosed]

/-- Kernel tables stay kernel tables while their pages are left alone. -/
theorem KernelTables.congr (h : KernelTables arch mem kpt pages)
    (hSame : ∀ p x, p ∈ pages → InPage 4096 p x → mem' x = mem x) :
    KernelTables arch mem' kpt pages := by
  have hWord : ∀ i, KernelIndex arch i →
      mem' (kpt + i * wordBytes arch) = mem (kpt + i * wordBytes arch) := by
    intro i hi
    exact hSame kpt _ h.root (inPage_slot (kernelIndex_lt hi)
      (layout arch true).stride_pos (level1_ok arch).fits)
  have hKpt : frameOf arch kpt 12 = kpt := frameOf_page (h.aligned kpt h.root) (h.below kpt h.root)
  refine ⟨h.aligned, h.below, h.root, ?_, ?_, ?_⟩
  · intro i hi
    rw [hWord i hi]
    exact h.supervisor i hi
  · intro i hi
    rw [hWord i hi]
    exact (h.closed i hi).imp id (WalkClosed.congr hSame _ _)
  · intro va hVa
    rw [h.translate_shared hSame (kernel_index hVa) fun i hi => by rw [hKpt, hWord i hi]]
    exact h.identity va hVa

/-- The tables of a represented root are closed under the hardware walk. -/
theorem walkClosed_rep (user : Bool) {pages : Nat → Prop}
    (hBelow : ∀ q, pages q → Addressable arch q) :
    ∀ (infos : List PtInfo) (ls : List HwLevel) (info : PtInfo) (l : HwLevel)
      (base : Nat) (kids : Nat → RadixTree Mapping),
      (∀ i ∈ info :: infos, LevelOk arch i) → HwMatch (l :: ls) (info :: infos) →
      pages base → (∀ i q, (kids i).Owns q → pages q) →
      (∀ i < fanout info, (layout arch user).SlotRep mem (infos.map fanout) (kids i)
        (base + i * wordBytes arch)) →
      WalkClosed arch mem pages (l :: ls) base := by
  intro infos
  induction infos with
  | nil =>
      intro ls info l base kids hOk hMatch hBase _ _
      obtain ⟨_, hBits, _, hTail⟩ := hMatch
      have hls : ls = [] := by
        cases ls with
        | nil => rfl
        | cons l' ls => exact absurd hTail id
      refine ⟨hBase, ?_, fun i _ => Or.inr (Or.inl hls)⟩
      rw [hBits]
      exact (hOk info (by simp)).fits
  | cons next infos ih =>
      intro ls info l base kids hOk hMatch hBase hOwned hKids
      obtain ⟨_, hBits, _, hTail⟩ := hMatch
      cases ls with
      | nil => exact absurd hTail id
      | cons l' ls =>
          refine ⟨hBase, ?_, fun i hi => ?_⟩
          · rw [hBits]
            exact (hOk info (by simp)).fits
          · rw [hBits] at hi
            have hKid := hKids i hi
            cases hTree : kids i with
            | empty =>
                rw [hTree, slotRep_empty] at hKid
                exact Or.inl (by rw [hKid, Nat.zero_and])
            | leaf m =>
                rw [hTree] at hKid
                exact absurd hKid id
            | table p below =>
                rw [hTree] at hKid
                obtain ⟨hLink, hAligned, _, hSlots, _⟩ := hKid
                have hPage : pages p := hOwned i p (hTree ▸ Or.inl rfl)
                refine Or.inr (Or.inr (Or.inr ?_))
                rw [hLink, link_frame hAligned (hBelow p hPage)]
                refine ih ls next l' p below
                  (fun j hj => hOk j (List.mem_cons_of_mem info hj)) hTail
                  hPage (fun j q hq => ?_) hSlots
                exact hOwned i q (hTree ▸ Or.inr ⟨j, hq⟩)

end

end AbstractMachine.X86.Vme
