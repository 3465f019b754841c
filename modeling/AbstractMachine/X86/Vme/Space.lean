import AbstractMachine.X86.Vme.HwWalk
import AbstractMachine.X86.Vme.Ptwalk

/-!
# One address space

`Space` relates the memory to the tree of user tables of one address space:
the root table holds the kernel words at the kernel indices and represents
the user subtrees everywhere else, all its pages are in use, and no two of
its tables share a page.  `map` keeps the relation and changes the tree at
one path.
-/

namespace AbstractMachine.X86.Vme

open AbstractMachine.Lib

/-- The level-1 indices of the kernel areas. -/
def KernelIndex : Arch → Nat → Prop
  | .x86_64, i => i = 0
  | .i386, i => i < 256 ∨ (1012 ≤ i ∧ i < 1024)

instance (arch : Arch) (i : Nat) : Decidable (KernelIndex arch i) := by
  cases arch <;> (unfold KernelIndex; infer_instance)

/-- The levels below the root table. -/
def lower (arch : Arch) : List PtInfo := (tables arch).tail

theorem pgtables_eq (arch : Arch) :
    (mmu arch).pgtables = ⟨0, 0, 0⟩ :: level1 arch :: lower arch := by
  cases arch <;> rfl

theorem tables_eq (arch : Arch) : tables arch = level1 arch :: lower arch := by
  cases arch <;> rfl

theorem level1_ok (arch : Arch) : LevelOk arch (level1 arch) :=
  levelOk arch _ (by rw [pgtables_eq]; simp)

theorem tables_ok (arch : Arch) : ∀ info ∈ tables arch, LevelOk arch info :=
  fun info h => levelOk arch info (by rw [pgtables_eq, ← tables_eq]; simp [h])

theorem lower_ok (arch : Arch) : ∀ info ∈ lower arch, LevelOk arch info :=
  fun info h => tables_ok arch info (by rw [tables_eq]; simp [h])

private theorem inRange_iff {ptr : Nat} {area : VmArea} :
    inRange ptr area = true ↔ area.start ≤ ptr ∧ ptr < area.stop := by
  simp [inRange]

/-- A user address does not go through a kernel slot of the root table. -/
theorem user_index {arch : Arch} {va : Nat} (h : inRange va (uvmArea arch) = true) :
    ¬ KernelIndex arch (indexof va (level1 arch)) := by
  rw [inRange_iff] at h
  rw [indexof_eq (level1_ok arch)]
  cases arch with
  | i386 =>
      simp only [uvmArea] at h
      simp only [KernelIndex, level1, mmu, List.getD_cons_succ, List.getD_cons_zero]
      omega
  | x86_64 =>
      simp only [uvmArea] at h
      simp only [KernelIndex, level1, mmu, List.getD_cons_succ, List.getD_cons_zero]
      omega

/-- Distinct pages of the user area are walked along distinct paths. -/
theorem path_inj {arch : Arch} {va va' : Nat}
    (h : inRange va (uvmArea arch) = true) (h' : inRange va' (uvmArea arch) = true)
    (hPath : path va (tables arch) = path va' (tables arch)) :
    roundDown va 4096 = roundDown va' 4096 := by
  rw [inRange_iff] at h h'
  rw [roundDown_eq, roundDown_eq]
  have hAt : ∀ info ∈ tables arch, va / 2 ^ info.shift % 2 ^ info.bits =
      va' / 2 ^ info.shift % 2 ^ info.bits := by
    intro info hInfo
    rw [← indexof_eq (tables_ok arch info hInfo),
      ← indexof_eq (tables_ok arch info hInfo)]
    exact List.map_inj_left.mp hPath info hInfo
  cases arch with
  | i386 =>
      have h1 := hAt ⟨0xffc00000, 22, 10⟩ (by simp [tables, mmu])
      have h2 := hAt ⟨0x003ff000, 12, 10⟩ (by simp [tables, mmu])
      dsimp only [uvmArea] at h h' h1 h2
      omega
  | x86_64 =>
      have h1 := hAt ⟨0xff8000000000, 39, 9⟩ (by simp [tables, mmu])
      have h2 := hAt ⟨0x007fc0000000, 30, 9⟩ (by simp [tables, mmu])
      have h3 := hAt ⟨0x00003fe00000, 21, 9⟩ (by simp [tables, mmu])
      have h4 := hAt ⟨0x0000001ff000, 12, 9⟩ (by simp [tables, mmu])
      dsimp only [uvmArea] at h h' h1 h2 h3 h4
      omega

/-- The path of an address is the path of its page. -/
theorem path_roundDown (arch : Arch) (va : Nat) :
    path (roundDown va 4096) (tables arch) = path va (tables arch) := by
  have hShifts : ∀ info ∈ tables arch, 12 ≤ info.shift := by
    cases arch <;> decide
  refine List.map_congr_left fun info hInfo => ?_
  have hOk := tables_ok arch info hInfo
  obtain ⟨k, hk⟩ := Nat.exists_eq_add_of_le (hShifts info hInfo)
  have hDiv : roundDown va 4096 / 4096 = va / 4096 := by
    rw [roundDown_eq]
    omega
  rw [indexof_eq hOk, indexof_eq hOk, hk, Nat.pow_add,
    show (2 : Nat) ^ 12 = 4096 from rfl, ← Nat.div_div_eq_div_mul, hDiv,
    Nat.div_div_eq_div_mul]

/-- The memory holds an address space: `as` is the address of its `ptr`
field, `root` its root table, `kids` the trees below the root and `kword` the
words of its kernel slots. -/
structure Space (arch : Arch) (s : VM) (kword : Nat → Nat) (as root : Nat)
    (kids : Nat → RadixTree Mapping) : Prop where
  ptr : s.mem as = root ||| pteP ||| pteU
  aligned : root % 4096 = 0
  kernel : ∀ i, KernelIndex arch i → s.mem (root + i * wordBytes arch) = kword i
  user : ∀ i < fanout (level1 arch), ¬ KernelIndex arch i →
    (layout arch true).SlotRep s.mem ((lower arch).map fanout) (kids i)
      (root + i * wordBytes arch)
  vacant : ∀ i, KernelIndex arch i ∨ fanout (level1 arch) ≤ i → kids i = .empty
  separated : (RadixTree.table root kids).Separated
  owned : ∀ q, (RadixTree.table root kids).Owns q → q ∈ s.live
  below : ∀ q, (RadixTree.table root kids).Owns q → Addressable arch q
  outside : ∀ q ∈ s.live, ¬ InPage 4096 q as
  inUse : as ∈ s.spaces

theorem kernelIndex_lt {arch : Arch} {i : Nat} (h : KernelIndex arch i) :
    i < fanout (level1 arch) := by
  cases arch with
  | i386 =>
      show i < 1024
      rcases h with h | h <;> omega
  | x86_64 =>
      have h0 : i = 0 := h
      rw [h0]
      decide

section

variable {arch : Arch} {env : Pager} {s s' : VM} {kword : Nat → Nat} {as root : Nat}
  {kids : Nat → RadixTree Mapping}

theorem Space.fits (_ : Space arch s kword as root kids) :
    fanout (level1 arch) * wordBytes arch ≤ 4096 := (level1_ok arch).fits

theorem Space.inRoot (h : Space arch s kword as root kids) {i : Nat}
    (hi : i < fanout (level1 arch)) : InPage 4096 root (root + i * wordBytes arch) :=
  inPage_slot hi (layout arch true).stride_pos h.fits

/-- Every page of the tables is aligned. -/
theorem Space.pageAligned (h : Space arch s kword as root kids) {q : Nat}
    (hq : (RadixTree.table root kids).Owns q) : q % 4096 = 0 := by
  rcases hq with rfl | ⟨i, hi⟩
  · exact h.aligned
  · by_cases hVacant : KernelIndex arch i ∨ fanout (level1 arch) ≤ i
    · rw [h.vacant i hVacant] at hi
      exact absurd hi id
    · have hNot := not_or.mp hVacant
      exact SlotRep.aligned _ _ _ (h.user i (Nat.lt_of_not_le hNot.2) hNot.1) q hi

theorem Space.anchored (h : Space arch s kword as root kids) {i : Nat}
    (hi : i < fanout (level1 arch)) : Anchored s (root + i * wordBytes arch) :=
  Or.inl ⟨root, h.owned root (Or.inl rfl), h.aligned, h.inRoot hi⟩

/-- A slot of the root table lies in no page below it. -/
theorem Space.slot_outside (h : Space arch s kword as root kids) {i : Nat}
    (hi : i < fanout (level1 arch)) :
    ¬ (layout arch true).Covers (kids i) (root + i * wordBytes arch) := by
  rintro ⟨q, hq, hx⟩
  have hqr : q = root := inPage_unique (h.pageAligned (Or.inr ⟨i, hq⟩)) h.aligned
    hx (h.inRoot hi)
  exact h.separated.1 i (hqr ▸ hq)

/-- Replacing the tree in one user slot of the root table. -/
theorem Space.focus {u : RadixTree Mapping} {i : Nat}
    (h : Space arch s kword as root kids) (new : List Nat) (hi : i < fanout (level1 arch))
    (hUser : ¬ KernelIndex arch i) (hGrow : Grows arch s s' new)
    (hu : (layout arch true).SlotRep s'.mem ((lower arch).map fanout) u
      (root + i * wordBytes arch))
    (hSep : u.Separated) (hOwns : ∀ q, u.Owns q ↔ (kids i).Owns q ∨ q ∈ new)
    (hFrame : ∀ x, x ≠ root + i * wordBytes arch →
      ¬ (layout arch true).Covers u x → s'.mem x = s.mem x) :
    Space arch s' kword as root (Function.update kids i u) := by
  have hFresh : ∀ q ∈ new, ¬ (RadixTree.table root kids).Owns q :=
    fun q hq hOwn => hGrow.fresh q hq (h.owned q hOwn)
  have hFocus : Focus (layout arch true) s.mem s'.mem (fanout (level1 arch)) root i
      kids u new :=
    { aligned := h.aligned
      fits := h.fits
      separated := h.separated
      index_lt := hi
      subAligned := SlotRep.aligned _ _ _ hu
      owns := hOwns
      fresh := hFresh
      frame := hFrame }
  have hNewAs : ∀ q ∈ new, ¬ InPage 4096 q as :=
    fun q hq => hGrow.apart q hq as h.inUse
  have hAsOut : ¬ (layout arch true).Covers (.table root kids) as := by
    rintro ⟨q, hq, hx⟩
    exact h.outside q (h.owned q hq) hx
  exact
    { ptr := (hFocus.outside hAsOut hNewAs).trans h.ptr
      aligned := h.aligned
      kernel := by
        intro j hj
        have hji : j ≠ i := by
          rintro rfl
          exact hUser hj
        exact (hFocus.word (kernelIndex_lt hj) hji).trans (h.kernel j hj)
      user := by
        intro j hj hjUser
        by_cases hji : j = i
        · rw [hji, Function.update_self]
          exact hu
        · rw [Function.update_of_ne hji]
          exact hFocus.sibling hj hji (h.user j hj hjUser)
      vacant := by
        intro j hj
        have hji : j ≠ i := by
          rintro rfl
          rcases hj with hj | hj
          · exact hUser hj
          · exact absurd hi (Nat.not_lt.mpr hj)
        rw [Function.update_of_ne hji]
        exact h.vacant j hj
      separated := h.separated.update hSep hOwns hFresh
      owned := by
        intro q hq
        rw [hGrow.mem_live]
        exact ((RadixTree.owns_update hOwns q).mp hq).symm.imp id (h.owned q)
      below := by
        intro q hq
        exact ((RadixTree.owns_update hOwns q).mp hq).elim (h.below q) (hGrow.below q)
      outside := by
        intro q hq
        rcases (hGrow.mem_live q).mp hq with hq | hq
        · exact hNewAs q hq
        · exact h.outside q hq
      inUse := hGrow.spaces ▸ h.inUse }

/-- The frame rule of an address space: it depends on its `ptr` field and on
its own pages. -/
theorem Space.frame (h : Space arch s kword as root kids) (hAs : s'.mem as = s.mem as)
    (hPages : ∀ q x, (RadixTree.table root kids).Owns q → InPage 4096 q x →
      s'.mem x = s.mem x)
    (hLive : ∀ q, (RadixTree.table root kids).Owns q → q ∈ s'.live)
    (hOutside : ∀ q ∈ s'.live, ¬ InPage 4096 q as) (hUse : as ∈ s'.spaces) :
    Space arch s' kword as root kids where
  ptr := hAs.trans h.ptr
  aligned := h.aligned
  kernel := by
    intro i hi
    exact (hPages root _ (Or.inl rfl) (h.inRoot (kernelIndex_lt hi))).trans
      (h.kernel i hi)
  user := by
    intro i hi hUser
    refine SlotRep.congr _ _ _ (h.user i hi hUser)
      (hPages root _ (Or.inl rfl) (h.inRoot hi)) ?_
    rintro x ⟨q, hq, hx⟩
    exact hPages q x (Or.inr ⟨i, hq⟩) hx
  vacant := h.vacant
  separated := h.separated
  owned := hLive
  below := h.below
  outside := hOutside
  inUse := hUse

/-- Only the words at the kernel indices matter. -/
theorem Space.rekey (h : Space arch s kword as root kids) {kword' : Nat → Nat}
    (hSame : ∀ i, KernelIndex arch i → kword i = kword' i) :
    Space arch s kword' as root kids :=
  { h with kernel := fun i hi => (h.kernel i hi).trans (hSame i hi) }

/-! ## The walk of one address space -/

/-- `ptwalk` reads `as->ptr`, which is present, and goes on in the root. -/
theorem Space.ptwalk_root (h : Space arch s kword as root kids) (va flags : Nat) :
    (ptwalk arch env as va flags).run s =
      (ptwalkLoop arch env va flags (level1 arch :: lower arch) root).run s := by
  have hIndex : indexof va ⟨0, 0, 0⟩ = 0 := by simp [indexof]
  have hPresent : s.mem as &&& pteP ≠ 0 := by
    rw [h.ptr, Nat.or_assoc, or_and_flag h.aligned (by decide)]
    decide
  have hBase : baseof arch (s.mem as) = root := by
    rw [h.ptr, Nat.or_assoc, baseof_or h.aligned (by decide)]
  rw [ptwalk, pgtables_eq, ptwalkLoop, hIndex, Nat.zero_mul, Nat.add_zero]
  show (if s.mem as &&& pteP = 0 then _ else _ : Vm Nat).run s = _
  rw [if_neg hPresent, hBase]

/-- After a successful walk of a user address its slot hangs in the tree. -/
theorem Space.walk {va a : Nat} (h : Space arch s kword as root kids)
    (hVa : inRange va (uvmArea arch) = true)
    (hRun : (ptwalk arch env as va (pteW ||| pteU)).run s = .ok (a, s')) :
    ∃ u new, Walked arch true (lower arch) va (kids (indexof va (level1 arch)))
        (root + indexof va (level1 arch) * wordBytes arch) s s' a u new ∧
      Space arch s' kword as root
        (Function.update kids (indexof va (level1 arch)) u) := by
  have hi := indexof_lt (level1_ok arch) va
  have hUser := user_index hVa
  rw [h.ptwalk_root] at hRun
  obtain ⟨u, new, hu⟩ := ptwalkLoop_spec true (lower arch) (level1 arch)
    root a (kids (indexof va (level1 arch))) s s' (lower_ok arch)
    (h.user _ hi hUser) (h.separated.2.2 _)
    (fun q hq => h.owned q (Or.inr ⟨_, hq⟩)) (h.anchored hi) (h.slot_outside hi)
    hRun
  exact ⟨u, new, hu, h.focus new hi hUser hu.grows hu.rep hu.separated hu.owns hu.frame⟩

/-- Walking an address whose slot exists changes nothing. -/
theorem Space.walk_again {va a flags : Nat} {t : VM}
    (h : Space arch s kword as root kids) (hVa : inRange va (uvmArea arch) = true)
    (hPath : (kids (indexof va (level1 arch))).HasPath (path va (lower arch)))
    (hRun : (ptwalk arch env as va flags).run s = .ok (a, t)) : t = s := by
  have hi := indexof_lt (level1_ok arch) va
  rw [h.ptwalk_root, ptwalkLoop_again true (lower arch) (level1 arch) root
    (kids (indexof va (level1 arch))) s (lower_ok arch)
    (h.user _ hi (user_index hVa)) hPath] at hRun
  cases hRun
  rfl

/-! ## `map` -/

/-- The mapping a call of `map` asks for; none when it unmaps. -/
def requested (pa : Nat) (prot : BitVec 32) : Option (Nat × Bool) :=
  if prot = mmapNone then none else some (pa, decide (prot &&& mmapWrite ≠ 0))

/-- What a tree maps a path to. -/
def lookup (kids : Nat → RadixTree Mapping) (root : Nat) (π : List Nat) :
    Option (Nat × Bool) :=
  ((RadixTree.table root kids).find π).map fun m => (m.pa, m.writable)

/-- CR3 holds `as->ptr`; the low bits do not matter to the processor. -/
theorem Space.cr3_base (h : Space arch s kword as root kids) :
    frameOf arch (s.mem as) 12 = root := by
  have hFlags : pteP ||| pteU < 4096 := by decide
  rw [h.ptr, Nat.or_assoc, or_flags h.aligned hFlags, frameOf_add h.aligned hFlags,
    physical_eq (h.below root (Or.inl rfl))]

/-- The hardware walk of an address that does not go through a kernel slot
finds what the tree maps it to. -/
theorem Space.translate_user (h : Space arch s kword as root kids) {va : Nat}
    (hUser : ¬ KernelIndex arch (indexof va (level1 arch))) :
    translate arch s.mem va (s.mem as) =
      (lookup kids root (path va (tables arch))).map fun e =>
        { paddr := physical arch e.1 + va % 4096, writable := e.2, user := true } := by
  have hi := indexof_lt (level1_ok arch) va
  have hMatch := hwMatch arch
  rw [tables_eq] at hMatch
  obtain ⟨l, ls, hLevels⟩ : ∃ l ls, hwLevels arch = l :: ls := by
    cases arch <;> exact ⟨_, _, rfl⟩
  rw [hLevels] at hMatch
  have hOk : ∀ i ∈ level1 arch :: lower arch, LevelOk arch i := by
    rw [← tables_eq]
    exact tables_ok arch
  rw [translate, h.cr3_base, hLevels,
    hwWalk_rep true (lower arch) ls (level1 arch) l root true true
      (kids (indexof va (level1 arch))) hOk hMatch (h.user _ hi hUser)
      (fun q hq => h.below q (Or.inr ⟨_, hq⟩)),
    tables_eq, lookup, Option.map_map]
  rfl

/-- Storing a bottom entry at the end of a walked path. -/
theorem Space.store {va w : Nat} {v : RadixTree Mapping}
    (h : Space arch s kword as root kids) (hVa : inRange va (uvmArea arch) = true)
    (hPath : (kids (indexof va (level1 arch))).HasPath (path va (lower arch)))
    (hv : (layout arch true).EntryRep v w) :
    Space arch (s.write ((kids (indexof va (level1 arch))).slotAddr
        (wordBytes arch) (path va (lower arch))
        (root + indexof va (level1 arch) * wordBytes arch)) w) kword as root
      (Function.update kids (indexof va (level1 arch))
        ((kids (indexof va (level1 arch))).set (path va (lower arch)) v)) := by
  have hi := indexof_lt (level1_ok arch) va
  have hRep := h.user _ hi (user_index hVa)
  have hIn := path_lt va (lower arch) (lower_ok arch)
  have hSub := SlotRep.sub _ _ _ _ hIn hRep hPath
  have hSame : ∀ q, v.Owns q ↔
      ((kids (indexof va (level1 arch))).sub (path va (lower arch))).Owns q :=
    fun q => iff_of_false (EntryRep.not_owns hv q) (EntryRep.not_owns hSub q)
  refine h.focus [] hi (user_index hVa) (Grows.write arch s _ w) ?_ ?_ ?_ ?_
  · exact SlotRep.write hv _ _ _ _ hIn hRep (h.separated.2.2 _)
      (h.slot_outside hi) hPath
  · exact RadixTree.separated_set (EntryRep.separated hv) _ _
      (h.separated.2.2 _) hSame
  · intro q
    simpa using RadixTree.owns_set _ _ hSame q
  · intro x hx hNot
    refine Function.update_of_ne ?_ w s.mem
    rintro rfl
    rcases SlotRep.slotAddr_covered _ _ _ _ hIn hRep hPath with hEq | ⟨q, hq, hqx⟩
    · exact hx hEq
    · exact hNot ⟨q, (RadixTree.owns_set _ _ hSame q).mpr hq, hqx⟩

/-- What an accepted `map` does to one address space. -/
structure Mapped (arch : Arch) (s s' : VM) (root : Nat)
    (kids kids' : Nat → RadixTree Mapping) (new : List Nat) (va pa : Nat)
    (prot : BitVec 32) : Prop where
  inArea : inRange va (uvmArea arch) = true
  vaAligned : va % 4096 = 0
  grows : Grows arch s s' new
  owns : ∀ q, (RadixTree.table root kids').Owns q ↔
    (RadixTree.table root kids).Owns q ∨ q ∈ new
  lookup_self : lookup kids' root (path va (tables arch)) = requested pa prot
  lookup_ne : ∀ π, π.length = (tables arch).length → π ≠ path va (tables arch) →
    lookup kids' root π = lookup kids root π
  frame : ∀ x, ¬ (layout arch true).Covers (.table root kids') x →
    s'.mem x = s.mem x

/-- The word `map` stores for a page, as an entry of the tree. -/
theorem entryRep_mapping (arch : Arch) {pa : Nat} (hpa : pa % 4096 = 0) (w : Bool) :
    (layout arch true).EntryRep (.leaf ⟨pa, w, hpa⟩)
      (pa ||| pteP ||| pteU ||| if w then pteW else 0) := rfl

/-- Storing at the end of the walked path completes an accepted `map`. -/
theorem Space.mapped {va pa w : Nat} {prot : BitVec 32} {s₁ : VM} {a : Nat}
    {u v : RadixTree Mapping} {new : List Nat}
    (h : Space arch s kword as root kids) (hVa : inRange va (uvmArea arch) = true)
    (hAligned : va % 4096 = 0)
    (hu : Walked arch true (lower arch) va (kids (indexof va (level1 arch)))
      (root + indexof va (level1 arch) * wordBytes arch) s s₁ a u new)
    (hv : (layout arch true).EntryRep v w)
    (hReq : (v.find []).map (fun m => (m.pa, m.writable)) = requested pa prot) :
    ∃ kids', Mapped arch s (s₁.write a w) root kids kids' new va pa prot ∧
      kids' (indexof va (level1 arch)) = u.set (path va (lower arch)) v ∧
      kids' = Function.update (Function.update kids (indexof va (level1 arch)) u)
        (indexof va (level1 arch)) (u.set (path va (lower arch)) v) := by
  have hi := indexof_lt (level1_ok arch) va
  have hIn := path_lt va (lower arch) (lower_ok arch)
  have hSub := SlotRep.sub _ _ _ _ hIn hu.rep hu.hasPath
  have hSame : ∀ q, v.Owns q ↔ (u.sub (path va (lower arch))).Owns q :=
    fun q => iff_of_false (EntryRep.not_owns hv q) (EntryRep.not_owns hSub q)
  have hSetOwns := RadixTree.owns_set (path va (lower arch)) u hSame
  have hOwns : ∀ q, (u.set (path va (lower arch)) v).Owns q ↔
      (kids (indexof va (level1 arch))).Owns q ∨ q ∈ new :=
    fun q => (hSetOwns q).trans (hu.owns q)
  refine ⟨_, ?_, Function.update_self .., rfl⟩
  rw [Function.update_idem]
  exact
    { inArea := hVa
      vaAligned := hAligned
      grows := { hu.grows with }
      owns := RadixTree.owns_update hOwns
      lookup_self := by
        rw [tables_eq, lookup, ← hReq]
        congr 1
        refine RadixTree.find_of_sub_eq ?_
        show (Function.update kids (indexof va (level1 arch))
          (u.set (path va (lower arch)) v) (indexof va (level1 arch))).sub
            (path va (lower arch)) = _
        rw [Function.update_self, RadixTree.sub_set_self v _ u hu.hasPath,
          RadixTree.sub_nil]
      lookup_ne := by
        intro π hLen hNe
        rw [tables_eq] at hLen hNe
        cases π with
        | nil => simp at hLen
        | cons j π =>
            unfold lookup
            congr 1
            by_cases hj : j = indexof va (level1 arch)
            · have hπ : π ≠ path va (lower arch) := by
                rintro rfl
                exact hNe (by rw [hj]; rfl)
              have hLen' : π.length = (path va (lower arch)).length := by
                simpa [path] using hLen
              have hBelow : (Function.update kids (indexof va (level1 arch))
                  (u.set (path va (lower arch)) v) j).find π = (kids j).find π := by
                rw [hj, Function.update_self,
                  RadixTree.find_of_sub_eq (RadixTree.sub_set_ne v _ π u hLen' hπ)]
                exact hu.find π
              exact hBelow
            · refine RadixTree.find_of_sub_eq ?_
              show (Function.update kids _ _ j).sub π = (kids j).sub π
              rw [Function.update_of_ne hj]
      frame := by
        intro x hNot
        have hxU : ¬ (layout arch true).Covers u x := by
          rintro ⟨q, hq, hqx⟩
          refine hNot ⟨q, Or.inr ⟨indexof va (level1 arch), ?_⟩, hqx⟩
          rw [Function.update_self]
          exact (hSetOwns q).mpr hq
        have hxRoot : ∀ i < fanout (level1 arch),
            x ≠ root + i * wordBytes arch := by
          rintro i hi rfl
          exact hNot ⟨root, Or.inl rfl, h.inRoot hi⟩
        have hxa : x ≠ a := by
          rintro rfl
          rcases SlotRep.slotAddr_covered _ _ _ _ hIn hu.rep hu.hasPath with
            hEq | hCov
          · exact hxRoot _ hi (hu.addr_eq.trans hEq)
          · exact hxU (by
              have hAddr := hu.addr_eq
              rw [hAddr]
              exact hCov)
        show Function.update s₁.mem a w x = s.mem x
        rw [Function.update_of_ne hxa]
        exact hu.frame x (hxRoot _ hi) hxU }

/--
**`map` specification.**  An accepted call keeps the address space, grows its
tables by the pages it obtained, and changes the mapping of its own page only.
-/
theorem map_spec {va pa : Nat} {prot : BitVec 32} {x : Unit}
    (h : Space arch s kword as root kids)
    (hRun : (map arch env as va pa prot).run s = .ok (x, s')) :
    ∃ kids' new, Space arch s' kword as root kids' ∧
      Mapped arch s s' root kids kids' new va pa prot := by
  rw [map, bind_eq_ok] at hRun
  obtain ⟨_, t, hArea, hRun⟩ := hRun
  obtain ⟨hVa, rfl⟩ := panicOn_ok hArea
  rw [bind_eq_ok] at hRun
  obtain ⟨_, t, hPanic, hRun⟩ := hRun
  obtain ⟨hBoundary, rfl⟩ := panicOn_ok hPanic
  rw [bind_eq_ok] at hRun
  obtain ⟨a, s₁, hWalk, hRun⟩ := hRun
  rw [bind_eq_ok] at hRun
  obtain ⟨entry, t, hLoad, hRun⟩ := hRun
  obtain ⟨_, rfl⟩ := load_ok hLoad
  have hVa' : inRange va (uvmArea arch) = true := by simpa using hVa
  rw [mmu_pgsize, roundDown_eq, roundDown_eq] at hBoundary
  simp only [Bool.or_eq_false_iff, bne_eq_false_iff_eq] at hBoundary
  have hVaAligned : va % 4096 = 0 := by omega
  have hPaAligned : pa % 4096 = 0 := by omega
  obtain ⟨u, new, hu, hSpace⟩ := h.walk hVa' hWalk
  have hPath : (Function.update kids (indexof va (level1 arch)) u
      (indexof va (level1 arch))).HasPath (path va (lower arch)) := by
    rw [Function.update_self]
    exact hu.hasPath
  -- both branches store one entry; the walk after it finds the tables in place
  have hStore : ∀ (w : Nat) (v : RadixTree Mapping), (layout arch true).EntryRep v w →
      (v.find []).map (fun m => (m.pa, m.writable)) = requested pa prot →
      (ptwalk arch env as va (pteW ||| pteU) >>= fun _ => pure ()).run
        (s₁.write a w) = .ok (x, s') →
      ∃ kids' new, Space arch s' kword as root kids' ∧
        Mapped arch s s' root kids kids' new va pa prot := by
    intro w v hv hReq hAgain
    obtain ⟨kids', hMapped, hAt, hKids⟩ := h.mapped hVa' hVaAligned hu hv hReq
    have hNow := hSpace.store hVa' hPath hv
    rw [Function.update_self, ← hu.addr_eq, ← hKids] at hNow
    rw [bind_eq_ok] at hAgain
    obtain ⟨a', t', hWalk', hPure⟩ := hAgain
    obtain ⟨-, rfl⟩ := pure_eq_ok.mp hPure
    have hPath' : (kids' (indexof va (level1 arch))).HasPath (path va (lower arch)) := by
      rw [hAt]
      exact RadixTree.hasPath_set v _ u hu.hasPath
    have hSame := hNow.walk_again hVa' hPath' hWalk'
    exact ⟨kids', new, hSame ▸ hNow, hSame ▸ hMapped⟩
  split at hRun
  · rename_i hNone
    rw [bind_eq_ok] at hRun
    obtain ⟨_, t', hPanic, hRun⟩ := hRun
    obtain ⟨-, rfl⟩ := panicOn_ok hPanic
    rw [bind_eq_ok] at hRun
    obtain ⟨_, t'', hWrite, hRun⟩ := hRun
    cases store_ok hWrite
    exact hStore 0 .empty rfl (by simp [requested, hNone, RadixTree.find]) hRun
  · rename_i hSome
    rw [bind_eq_ok] at hRun
    obtain ⟨_, t', hPanic, hRun⟩ := hRun
    obtain ⟨-, rfl⟩ := panicOn_ok hPanic
    rw [bind_eq_ok] at hRun
    obtain ⟨_, t'', hWrite, hRun⟩ := hRun
    cases store_ok hWrite
    refine hStore _ (.leaf ⟨pa, decide (prot &&& mmapWrite ≠ 0), hPaAligned⟩) ?_
      (by simp [requested, hSome, RadixTree.find]) hRun
    simpa using entryRep_mapping arch hPaAligned
      (decide (prot &&& mmapWrite ≠ 0))

end

end AbstractMachine.X86.Vme
