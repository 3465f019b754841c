import AbstractMachine.X86.Vme.Kernel
import AbstractMachine.X86.Vme.Protect

/-!
# `vme_init` and the boot tables

On i386 `vme_init` builds the kernel tables with `ptwalk`; on x86_64 it takes
over the two tables that `start64.S` filled before it switched to long mode.
Either way the kernel tables map the kernel areas to themselves, closed to
the user, and all of their pages are in use when `vme_init` returns.
-/

namespace AbstractMachine.X86.Vme

open AbstractMachine.Lib

/-! ## Before `vme_init` -/

/-- `movl` to the low half of a 64-bit word. -/
def storeLow (a v : Nat) : Vm Unit :=
  modify fun s => s.write a (s.mem a / 2 ^ 32 * 2 ^ 32 + v)

/-- `movl` to the high half of a 64-bit word. -/
def storeHigh (a v : Nat) : Vm Unit :=
  modify fun s => s.write a (s.mem a % 2 ^ 32 + v * 2 ^ 32)

/-- One turn of `.loop` in `start64.S`: a 1 GiB page. -/
def fillPdpt (ecx : Nat) : Vm Unit := do
  storeLow (pdptAddr + ecx * 8)
    ((ecx <<< 30) % 2 ^ 32 ||| (pteP ||| pteW ||| ptePS))
  storeHigh (pdptAddr + ecx * 8) (ecx >>> 2)

/-- `_start` of `start64.S` up to `.long_mode_init`. -/
def start64 : Vm Unit := do
  let entry ← load pml4Addr
  if entry % 2 ^ 32 ≠ pdptAddr ||| pteP ||| pteW then
    storeLow pml4Addr (pdptAddr ||| pteP ||| pteW)
    (List.range 512).forM fillPdpt

/-- The state at reset: the pages of the boot tables are not the allocator's,
and `as` is where `vme_init` keeps its local `AddrSpace`. -/
def VM.reset (arch : Arch) (mem : Nat → Nat) (as : Nat) : VM where
  mem := mem
  kpt := 0
  cr3 := 0
  cr0 := 0
  clock := 0
  live := match arch with
    | .i386 => []
    | .x86_64 => [pml4Addr, pdptAddr]
  spaces := [as]
  allocated := []
  freed := []

/-- The tables set up by the start code; `start32.S` runs without paging. -/
def startTables : Arch → Vm Unit
  | .i386 => pure ()
  | .x86_64 => start64

/-- From reset to the return of `vme_init`, whose local variable is gone. -/
def boot (arch : Arch) (env : Pager) (cpu as : Nat) : Vm Unit := do
  startTables arch
  vmeInit arch env cpu as
  modify fun s => { s with spaces := [] }

/-! ## The i386 kernel tables -/

/-- The tables `vme_init` has built so far below its local `as.ptr`. -/
structure KernelTree (arch : Arch) (s : VM) (as : Nat) (t : RadixTree Mapping) :
    Prop where
  rep : (layout arch false).SlotRep s.mem ((tables arch).map fanout) t as
  separated : t.Separated
  owned : ∀ q, t.Owns q → q ∈ s.live
  aligned : ∀ q ∈ s.live, q % 4096 = 0
  below : ∀ q ∈ s.live, Addressable arch q
  outside : ∀ q ∈ s.live, ¬ InPage 4096 q as
  inUse : as ∈ s.spaces

section

variable {arch : Arch} {env : Pager} {s s' : VM} {as : Nat} {t : RadixTree Mapping}

theorem KernelTree.not_covers (h : KernelTree arch s as t) :
    ¬ (layout arch false).Covers t as := by
  rintro ⟨q, hq, hx⟩
  exact h.outside q (h.owned q hq) hx

/-- One iteration maps one page to itself and keeps the other mappings. -/
theorem mapKernelPage_spec (h : KernelTree arch s as t) {cur : Nat} {u : Unit}
    (hCur : cur % 4096 = 0)
    (hRun : (mapKernelPage arch env as cur).run s = .ok (u, s')) :
    ∃ t', KernelTree arch s' as t' ∧ t'.HasPath (path cur (tables arch)) ∧
      t'.find (path cur (tables arch)) = some ⟨cur, true, hCur⟩ ∧
      ∀ π, π.length = (path cur (tables arch)).length → π ≠ path cur (tables arch) →
        t'.find π = t.find π := by
  rw [mapKernelPage, bind_eq_ok] at hRun
  obtain ⟨a, s₁, hWalk, hStore⟩ := hRun
  have hSlot : as + indexof cur ⟨0, 0, 0⟩ * wordBytes arch = as := by
    simp [indexof]
  rw [ptwalk, pgtables_eq, ← tables_eq] at hWalk
  obtain ⟨t₁, new, hWalked⟩ := ptwalkLoop_spec false (tables arch) ⟨0, 0, 0⟩
    as a t s s₁ (tables_ok arch) (hSlot.symm ▸ h.rep) h.separated h.owned
    (hSlot.symm ▸ Or.inr h.inUse) (hSlot.symm ▸ h.not_covers) hWalk
  rw [hSlot] at hWalked
  cases store_ok hStore
  have hGrow := hWalked.grows
  have hLive : ∀ q, q ∈ s₁.live ↔ q ∈ new ∨ q ∈ s.live := hGrow.mem_live
  have hOutside : ∀ q ∈ s₁.live, ¬ InPage 4096 q as := by
    intro q hq
    rcases (hLive q).mp hq with hq | hq
    · exact hGrow.apart q hq as h.inUse
    · exact h.outside q hq
  have hOwned : ∀ q, t₁.Owns q → q ∈ s₁.live := by
    intro q hq
    exact (hLive q).mpr (((hWalked.owns q).mp hq).symm.imp id (h.owned q))
  have hIn := path_lt cur (tables arch) (tables_ok arch)
  have hSub := SlotRep.sub _ _ _ _ hIn hWalked.rep hWalked.hasPath
  have hLeaf : (layout arch false).EntryRep (.leaf ⟨cur, true, hCur⟩)
      (cur ||| pteP ||| pteW) := by
    show cur ||| pteP ||| pteW = cur ||| pteP ||| 0 ||| pteW
    rw [Nat.or_zero]
  have hSame : ∀ q, (RadixTree.leaf (⟨cur, true, hCur⟩ : Mapping)).Owns q ↔
      (t₁.sub (path cur (tables arch))).Owns q :=
    fun q => iff_of_false id (EntryRep.not_owns hSub q)
  refine ⟨t₁.set (path cur (tables arch)) (.leaf ⟨cur, true, hCur⟩), ?_,
    RadixTree.hasPath_set _ _ _ hWalked.hasPath, ?_, ?_⟩
  · exact
      { rep := by
          rw [hWalked.addr_eq]
          refine SlotRep.write hLeaf _ _ _ _ hIn hWalked.rep hWalked.separated ?_
            hWalked.hasPath
          rintro ⟨q, hq, hx⟩
          exact hOutside q (hOwned q hq) hx
        separated := RadixTree.separated_set (EntryRep.separated hLeaf) _ _
          hWalked.separated hSame
        owned := by
          intro q hq
          exact hOwned q ((RadixTree.owns_set _ _ hSame q).mp hq)
        aligned := by
          intro q hq
          exact ((hLive q).mp hq).elim (hGrow.aligned q) (h.aligned q)
        below := by
          intro q hq
          exact ((hLive q).mp hq).elim (hGrow.below q) (h.below q)
        outside := hOutside
        inUse := hGrow.spaces ▸ h.inUse }
  · rw [RadixTree.find, RadixTree.sub_set_self _ _ _ hWalked.hasPath]
  · intro π hLen hNe
    rw [RadixTree.find_of_sub_eq (RadixTree.sub_set_ne _ _ π t₁ hLen hNe)]
    exact hWalked.find π

/-- The whole loop: every page it visits is mapped to itself. -/
theorem kernel_forM :
    ∀ (curs : List Nat) (s s' : VM) (t : RadixTree Mapping) (u : Unit),
      (∀ cur ∈ curs, cur % 4096 = 0) →
      (∀ cur ∈ curs, ∀ cur' ∈ curs,
        path cur (tables arch) = path cur' (tables arch) → cur = cur') →
      KernelTree arch s as t →
      (curs.forM (mapKernelPage arch env as)).run s = .ok (u, s') →
      ∃ t', KernelTree arch s' as t' ∧
        (∀ cur ∈ curs, t'.HasPath (path cur (tables arch)) ∧
          (t'.find (path cur (tables arch))).map (fun m => (m.pa, m.writable)) =
            some (cur, true)) ∧
        ∀ π, π.length = (tables arch).length →
          (∀ cur ∈ curs, π ≠ path cur (tables arch)) → t'.find π = t.find π := by
  intro curs
  induction curs with
  | nil =>
      intro s s' t u _ _ h hRun
      cases forM_nil_eq_ok.mp hRun
      exact ⟨t, h, by simp, fun _ _ _ => rfl⟩
  | cons cur curs ih =>
      intro s s' t u hAligned hInj h hRun
      obtain ⟨s₁, hMap, hRest⟩ := forM_cons_eq_ok.mp hRun
      have hCur := hAligned cur (List.mem_cons_self ..)
      obtain ⟨t₁, h₁, _, hHere, hOther⟩ := mapKernelPage_spec h hCur hMap
      obtain ⟨t', h', hFound, hKept⟩ := ih s₁ s' t₁ u
        (fun c hc => hAligned c (List.mem_cons_of_mem cur hc))
        (fun c hc c' hc' => hInj c (List.mem_cons_of_mem cur hc) c'
          (List.mem_cons_of_mem cur hc')) h₁ hRest
      have hLen : ∀ c, (path c (tables arch)).length = (tables arch).length :=
        fun c => List.length_map ..
      refine ⟨t', h', ?_, ?_⟩
      · intro c hc
        by_cases hLater : c ∈ curs
        · exact hFound c hLater
        · have hEq : c = cur := by
            rcases List.mem_cons.mp hc with h | h
            · exact h
            · exact absurd h hLater
          subst hEq
          have hFresh : ∀ c' ∈ curs, path c (tables arch) ≠ path c' (tables arch) := by
            intro c' hc' hPath
            exact hLater (hInj c hc c' (List.mem_cons_of_mem c hc') hPath ▸ hc')
          have hFind : t'.find (path c (tables arch)) = some ⟨c, true, hCur⟩ :=
            (hKept _ (hLen c) hFresh).trans hHere
          refine ⟨?_, by rw [hFind]; rfl⟩
          exact RadixTree.hasPath_of_find hFind
      · intro π hπ hNot
        rw [hKept π hπ fun c hc => hNot c (List.mem_cons_of_mem cur hc)]
        exact hOther π (hπ.trans (hLen cur).symm) (hNot cur (List.mem_cons_self ..))

end

/-- On i386 the two levels and the offset make up the whole address. -/
theorem path_i386_inj {cur cur' : Nat} (h : cur < 2 ^ 32) (h' : cur' < 2 ^ 32)
    (hAligned : cur % 4096 = 0) (hAligned' : cur' % 4096 = 0)
    (hPath : path cur (tables .i386) = path cur' (tables .i386)) : cur = cur' := by
  have hAt : ∀ info ∈ tables .i386, cur / 2 ^ info.shift % 2 ^ info.bits =
      cur' / 2 ^ info.shift % 2 ^ info.bits := by
    intro info hInfo
    rw [← indexof_eq (tables_ok .i386 info hInfo),
      ← indexof_eq (tables_ok .i386 info hInfo)]
    exact List.map_inj_left.mp hPath info hInfo
  have h1 := hAt ⟨0xffc00000, 22, 10⟩ (by simp [tables, mmu])
  have h2 := hAt ⟨0x003ff000, 12, 10⟩ (by simp [tables, mmu])
  dsimp only at h1 h2
  omega

theorem mem_kernelCurs_i386 {cur : Nat} :
    cur ∈ kernelCurs .i386 4096 ↔ cur % 4096 = 0 ∧ InKernel .i386 cur := by
  rw [inKernel_i386]
  show cur ∈ List.range' 0 262144 4096 ++ List.range' 0xfd000000 12288 4096 ↔ _
  simp only [List.mem_append, List.mem_range']
  constructor
  · rintro (⟨i, hi, rfl⟩ | ⟨i, hi, rfl⟩)
    · exact ⟨by omega, Or.inl (by omega)⟩
    · exact ⟨by omega, Or.inr ⟨by omega, by omega⟩⟩
  · rintro ⟨hAligned, h | ⟨h, h'⟩⟩
    · exact Or.inl ⟨cur / 4096, by omega, by omega⟩
    · exact Or.inr ⟨(cur - 0xfd000000) / 4096, by omega, by omega⟩

/-- The walk from the root finds what the tree holds. -/
theorem KernelTree.translate {s : VM} {as root va : Nat} {kids : Nat → RadixTree Mapping}
    (h : KernelTree .i386 s as (.table root kids)) :
    translate .i386 s.mem va root =
      ((RadixTree.table root kids).find (path va (tables .i386))).map fun m =>
        { paddr := m.pa + va % 4096, writable := m.writable, user := false } := by
  obtain ⟨_, hAligned, _, hKids, _⟩ := h.rep
  have hBelow : ∀ q, (RadixTree.table root kids).Owns q → Addressable .i386 q :=
    fun q hq => h.below q (h.owned q hq)
  have hBase : frameOf .i386 root 12 = root := frameOf_page hAligned (hBelow root (Or.inl rfl))
  have hIndex := indexof_lt (level1_ok .i386) va
  have hWalk : hwWalk .i386 s.mem va (hwLevels .i386) root true true = _ :=
    hwWalk_rep false (lower .i386) _ (level1 .i386) _ root true true
      (kids (indexof va (level1 .i386))) (tables_ok .i386) (hwMatch .i386) (hKids _ hIndex)
      fun q hq => hBelow q (Or.inr ⟨_, hq⟩)
  rw [Vme.translate, hBase]
  exact hWalk

/-- The tree `vme_init` has built, seen as kernel tables. -/
theorem KernelTree.tables {s : VM} {as root : Nat} {kids : Nat → RadixTree Mapping}
    (h : KernelTree .i386 s as (.table root kids))
    (hFound : ∀ cur ∈ kernelCurs .i386 4096,
      ((RadixTree.table root kids).find (path cur (tables .i386))).map
        (fun m => (m.pa, m.writable)) = some (cur, true)) :
    KernelTables .i386 s.mem root s.live := by
  obtain ⟨_, _, _, hKids, _⟩ := h.rep
  have hKid : ∀ i < fanout (level1 .i386), (layout .i386 false).SlotRep s.mem
      ((lower .i386).map fanout) (kids i) (root + i * wordBytes .i386) := hKids
  have hMatch := hwMatch .i386
  refine ⟨h.aligned, h.below, h.owned root (Or.inl rfl), ?_, ?_, ?_⟩
  · intro i hi
    have hSlot := hKid i (kernelIndex_lt hi)
    cases hTree : kids i with
    | empty =>
        rw [hTree, slotRep_empty] at hSlot
        rw [hSlot, Nat.zero_and]
    | leaf m =>
        rw [hTree] at hSlot
        exact absurd hSlot id
    | table p below =>
        rw [hTree] at hSlot
        rw [hSlot.1]
        have hUser : decide ((layout .i386 false).link p &&& pteU ≠ 0) = false :=
          link_user hSlot.2.1
        simpa using hUser
  · intro i hi
    have hSlot := hKid i (kernelIndex_lt hi)
    cases hTree : kids i with
    | empty =>
        rw [hTree, slotRep_empty] at hSlot
        exact Or.inl (by rw [hSlot, Nat.zero_and])
    | leaf m =>
        rw [hTree] at hSlot
        exact absurd hSlot id
    | table p below =>
        rw [hTree] at hSlot
        obtain ⟨hLink, hpAligned, _, hSlots, _⟩ := hSlot
        have hPage : p ∈ s.live := h.owned p (Or.inr ⟨i, hTree ▸ Or.inl rfl⟩)
        refine Or.inr ?_
        rw [hLink, link_frame hpAligned (h.below p hPage)]
        refine walkClosed_rep false h.below [] [] ⟨0x003ff000, 12, 10⟩ _ p below
          (fun j hj => lower_ok .i386 j hj) hMatch.2.2.2 hPage
          (fun j q hq => h.owned q (Or.inr ⟨i, hTree ▸ Or.inr ⟨j, hq⟩⟩)) hSlots
  · intro va hVa
    have hRound : roundDown va 4096 ∈ kernelCurs .i386 4096 := by
      rw [mem_kernelCurs_i386, inKernel_i386]
      rw [inKernel_i386] at hVa
      refine ⟨roundDown_mod va, ?_⟩
      rw [roundDown_eq]
      omega
    have hFind := hFound _ hRound
    rw [path_roundDown] at hFind
    obtain ⟨m, hm, hVal⟩ := Option.map_eq_some_iff.mp hFind
    obtain ⟨hPa, hW⟩ := Prod.mk.inj hVal
    rw [h.translate, hm, Option.map_some, hPa, hW, roundDown_eq]
    congr 2
    omega

/-- What `vme_init` maps on i386: the pages of the kernel areas to themselves,
and nothing else. -/
structure IdentityTree (t : RadixTree Mapping) : Prop where
  found : ∀ cur ∈ kernelCurs .i386 4096, (t.find (path cur (tables .i386))).map
    (fun m => (m.pa, m.writable)) = some (cur, true)
  absent : ∀ π, π.length = (tables .i386).length →
    (∀ cur ∈ kernelCurs .i386 4096, π ≠ path cur (tables .i386)) → t.find π = none

/-- `vme_init` on i386: the loop runs from the empty tree, and `kpt` is the
root it has built. -/
theorem vmeInit_i386_tree {env : Pager} {mem : Nat → Nat} {cpu as : Nat} {s' : VM}
    {u : Unit}
    (hRun : (vmeInit .i386 env cpu as).run (VM.reset .i386 mem as) = .ok (u, s')) :
    ∃ kids, KernelTree .i386 s' as (.table s'.kpt kids) ∧
      IdentityTree (.table s'.kpt kids) := by
  rw [vmeInit, bind_eq_ok] at hRun
  obtain ⟨_, s₀, hPanic, hRun⟩ := hRun
  obtain ⟨-, rfl⟩ := panicOn_ok hPanic
  rw [bind_eq_ok] at hRun
  obtain ⟨_, s₁, hStore, hRun⟩ := hRun
  rw [bind_eq_ok] at hRun
  obtain ⟨_, s₂, hLoops, hRun⟩ := hRun
  rw [bind_eq_ok] at hRun
  obtain ⟨ptr, _, hLoad, hRun⟩ := hRun
  obtain ⟨rfl, rfl⟩ := load_ok hLoad
  rw [bind_eq_ok] at hRun
  obtain ⟨_, s₃, hKpt, hFinal⟩ := hRun
  cases store_ok hStore
  rw [mmu_pgsize] at hLoops
  have hCurs := forM_vmAreas .i386 4096 (by decide) (by decide)
    hLoops
  have hEmpty : KernelTree .i386 ((VM.reset .i386 mem as).write as 0) as .empty :=
    { rep := (slotRep_empty _ _).mpr (Function.update_self ..)
      separated := trivial
      owned := fun q hq => absurd hq id
      aligned := fun q hq => absurd hq List.not_mem_nil
      below := fun q hq => absurd hq List.not_mem_nil
      outside := fun q hq => absurd hq List.not_mem_nil
      inUse := List.mem_singleton_self as }
  have hBound : ∀ cur ∈ kernelCurs .i386 4096, cur < 2 ^ 32 := by
    intro cur hCur
    rcases inKernel_i386.mp (mem_kernelCurs_i386.mp hCur).2 with h | h
    · omega
    · exact h.2
  obtain ⟨t, hTree, hFound, hAbsent⟩ := kernel_forM _ _ s₂ _ _
    (fun cur hCur => (mem_kernelCurs_i386.mp hCur).1)
    (fun cur hCur cur' hCur' => path_i386_inj (hBound cur hCur) (hBound cur' hCur')
      (mem_kernelCurs_i386.mp hCur).1 (mem_kernelCurs_i386.mp hCur').1)
    hEmpty hCurs
  have hZero : 0 ∈ kernelCurs .i386 4096 := by
    rw [mem_kernelCurs_i386, inKernel_i386]
    exact ⟨rfl, Or.inl (by decide)⟩
  have hPath := (hFound 0 hZero).1
  cases t with
  | empty => exact absurd hPath id
  | leaf m => exact absurd hPath id
  | table root kids =>
      have hRoot : baseof .i386 (s₂.mem as) = root := by
        rw [hTree.rep.1, baseof_link hTree.rep.2.1]
      have hs₃ := modify_eq_ok.mp hKpt
      have hs' := modify_eq_ok.mp hFinal
      subst hs₃ hs'
      subst hRoot
      refine ⟨kids, { hTree with }, fun cur hCur => (hFound cur hCur).2, ?_⟩
      intro π hLen hNot
      rw [hAbsent π hLen hNot]
      exact RadixTree.find_empty π

private theorem vmeInit_i386 {env : Pager} {mem : Nat → Nat} {cpu as : Nat} {s' : VM}
    {u : Unit}
    (hRun : (vmeInit .i386 env cpu as).run (VM.reset .i386 mem as) = .ok (u, s')) :
    KernelTables .i386 s'.mem s'.kpt s'.live := by
  obtain ⟨kids, hTree, hIdentity⟩ := vmeInit_i386_tree hRun
  exact hTree.tables hIdentity.found

/-! ## The x86_64 boot tables -/

/-- The entry `.loop` builds from its two halves. -/
theorem pdpt_word (ecx : Nat) :
    ((ecx <<< 30) % 2 ^ 32 ||| (pteP ||| pteW ||| ptePS)) % 2 ^ 32 +
        (ecx >>> 2) * 2 ^ 32 = ecx * 2 ^ 30 + 131 := by
  have hFlags : pteP ||| pteW ||| ptePS = 131 := rfl
  have hAligned : (ecx <<< 30) % 2 ^ 32 % 4096 = 0 := by
    rw [Nat.shiftLeft_eq]
    omega
  rw [hFlags, or_flags hAligned (by decide), Nat.shiftLeft_eq, Nat.shiftRight_eq_div_pow]
  omega

private theorem fillPdpt_runs (ecx : Nat) (s : VM) :
    (fillPdpt ecx).run s =
      .ok ((), s.write (pdptAddr + ecx * 8) (ecx * 2 ^ 30 + 131)) := by
  have hWord : ∀ w : Nat,
      (w / 2 ^ 32 * 2 ^ 32 + ((ecx <<< 30) % 2 ^ 32 |||
          (pteP ||| pteW ||| ptePS))) % 2 ^ 32 + (ecx >>> 2) * 2 ^ 32 =
        ecx * 2 ^ 30 + 131 := by
    intro w
    rw [← pdpt_word ecx]
    omega
  rw [fillPdpt, bind_eq_ok]
  refine ⟨(), _, rfl, ?_⟩
  show Except.ok ((), VM.write _ _ _) = _
  simp only [VM.write, Function.update_self, Function.update_idem, hWord]

/-- The boot tables after `start64.S`. -/
structure BootTables (mem : Nat → Nat) : Prop where
  pml4 : mem pml4Addr = pdptAddr ||| pteP ||| pteW
  pdpt : ∀ i < 512, mem (pdptAddr + i * 8) = i * 2 ^ 30 + 131

theorem start64_runs {s : VM} (hZero : s.mem pml4Addr = 0) :
    ∃ s', start64.run s = .ok ((), s') ∧ BootTables s'.mem ∧ s'.live = s.live ∧
      ∀ a, a ≠ pml4Addr → a < pdptAddr → s'.mem a = s.mem a := by
  obtain ⟨s', hRun, ⟨hPml4, hLive, hBelow⟩, hPdpt⟩ := forM_range_total (f := fillPdpt)
    (fun k t => (t.mem pml4Addr = pdptAddr ||| pteP ||| pteW ∧ t.live = s.live ∧
        ∀ a, a ≠ pml4Addr → a < pdptAddr → t.mem a = s.mem a) ∧
      ∀ i < k, t.mem (pdptAddr + i * 8) = i * 2 ^ 30 + 131)
    512 (s.write pml4Addr (pdptAddr ||| pteP ||| pteW))
    ⟨⟨by simp [VM.write], rfl, fun a ha _ => Function.update_of_ne ha ..⟩,
      fun i hi => absurd hi (Nat.not_lt_zero i)⟩ (by
      intro k hk t ⟨⟨hRoot, hLive, hBelow⟩, hDone⟩
      refine ⟨_, fillPdpt_runs k t, ⟨?_, hLive, ?_⟩, ?_⟩
      · have hNe : pml4Addr ≠ pdptAddr + k * 8 := by
          simp only [pml4Addr, pdptAddr]
          omega
        exact (Function.update_of_ne hNe ..).trans hRoot
      · intro a ha hLt
        have hNe : a ≠ pdptAddr + k * 8 := by omega
        exact (Function.update_of_ne hNe ..).trans (hBelow a ha hLt)
      · intro i hi
        by_cases hik : i = k
        · rw [hik]
          exact Function.update_self ..
        · have hNe : pdptAddr + i * 8 ≠ pdptAddr + k * 8 := by omega
          exact (Function.update_of_ne hNe ..).trans (hDone i (by omega)))
  refine ⟨s', ?_, ⟨hPml4, hPdpt⟩, hLive, hBelow⟩
  rw [start64, bind_eq_ok]
  refine ⟨0, s, by rw [← hZero]; rfl, ?_⟩
  rw [if_pos (by decide), bind_eq_ok]
  refine ⟨(), s.write pml4Addr (pdptAddr ||| pteP ||| pteW), ?_, hRun⟩
  show Except.ok ((), s.write pml4Addr (s.mem pml4Addr / 2 ^ 32 * 2 ^ 32 + _)) = _
  rw [hZero]
  rfl

theorem BootTables.kernel {mem : Nat → Nat} (h : BootTables mem) :
    KernelTables .x86_64 mem pml4Addr [pml4Addr, pdptAddr] := by
  have hWord : ∀ i, i * 2 ^ 30 + 131 = i * 2 ^ 30 ||| 131 := by
    intro i
    rw [or_flags (by omega) (by decide)]
  have hRoot : mem (pml4Addr + 0 * 8) = 0x2003 := h.pml4
  have hPresent : ∀ i < 512, mem (pdptAddr + i * 8) &&& pteP ≠ 0 ∧
      mem (pdptAddr + i * 8) &&& ptePS ≠ 0 ∧ mem (pdptAddr + i * 8) &&& pteW ≠ 0 := by
    intro i hi
    rw [h.pdpt i hi, hWord, or_and_flag (by omega) (by decide),
      or_and_flag (by omega) (by decide), or_and_flag (by omega) (by decide)]
    decide
  have hRootFrame : frameOf .x86_64 0x2003 12 = pdptAddr := rfl
  refine ⟨by simp [pml4Addr, pdptAddr], by simp [pml4Addr, pdptAddr, Addressable],
    List.mem_cons_self .., ?_, ?_, ?_⟩
  · intro i hi
    have h0 : i = 0 := hi
    rw [h0]
    show mem (pml4Addr + 0 * 8) &&& pteU = 0
    rw [hRoot]
    rfl
  · intro i hi
    have h0 : i = 0 := hi
    refine Or.inr ?_
    rw [h0]
    show WalkClosed .x86_64 mem _ _ (frameOf .x86_64 (mem (pml4Addr + 0 * 8)) 12)
    rw [hRoot, hRootFrame]
    refine ⟨by simp [pdptAddr], by decide, fun i hi => ?_⟩
    exact Or.inr (Or.inr (Or.inl ⟨rfl, (hPresent i hi).2.1⟩))
  · intro va hVa
    rw [inKernel_x86_64] at hVa
    have hIndex : indexof va (level1 .x86_64) = 0 := kernel_index
      (inKernel_x86_64.mpr hVa)
    have hLt : va / 2 ^ 30 < 512 := by omega
    obtain ⟨hP, hPS, hW⟩ := hPresent _ hLt
    have hEntry : mem (pdptAddr + va / 2 ^ 30 % 2 ^ 9 * 8) =
        va / 2 ^ 30 * 2 ^ 30 + 131 := by
      rw [show va / 2 ^ 30 % 2 ^ 9 = va / 2 ^ 30 by omega, h.pdpt _ hLt]
    rw [h.pdpt _ hLt] at hP hPS hW
    have hWalk : hwWalk .x86_64 mem va [⟨30, 9, true⟩, ⟨21, 9, true⟩, ⟨12, 9, false⟩]
        pdptAddr true false = _ := hwWalk_large hEntry hP ⟨rfl, hPS⟩
    rw [translate_eq, hIndex]
    show (if mem (pml4Addr + 0 * 8) &&& pteP = 0 then none else
      hwWalk .x86_64 mem va _ (frameOf .x86_64 (mem (pml4Addr + 0 * 8)) 12)
        (decide (mem (pml4Addr + 0 * 8) &&& pteW ≠ 0))
        (decide (mem (pml4Addr + 0 * 8) &&& pteU ≠ 0))) = _
    have hFrame : frameOf .x86_64 (va / 2 ^ 30 * 2 ^ 30 + 131) 30 + va % 2 ^ 30 = va := by
      show (va / 2 ^ 30 * 2 ^ 30 + 131) % 2 ^ 52 / 2 ^ 30 * 2 ^ 30 + va % 2 ^ 30 = va
      omega
    rw [hRoot, if_neg (by decide), hRootFrame]
    refine hWalk.trans ?_
    simp only [hW, ne_eq, not_false_eq_true, decide_true, Bool.and_true, Bool.false_and, hFrame]

/-! ## The state after boot -/

/--
**Boot specification.**  When `vme_init` has returned on the boot CPU, the
kernel tables are in place and no address space is in use.
-/
theorem boot_spec {arch : Arch} {env : Pager} {mem : Nat → Nat} {cpu as : Nat}
    {s : VM} {u : Unit} (hZero : arch = .x86_64 → mem pml4Addr = 0)
    (hRun : (boot arch env cpu as).run (VM.reset arch mem as) = .ok (u, s)) :
    KernelTables arch s.mem s.kpt s.live ∧ s.spaces = [] := by
  cases arch with
  | i386 =>
      rw [boot, bind_eq_ok] at hRun
      obtain ⟨_, s₀, hStart, hRun⟩ := hRun
      obtain ⟨-, rfl⟩ := pure_eq_ok.mp hStart
      rw [bind_eq_ok] at hRun
      obtain ⟨_, s₁, hInit, hEnd⟩ := hRun
      have hs := modify_eq_ok.mp hEnd
      subst hs
      have hTables := vmeInit_i386 hInit
      exact ⟨hTables, rfl⟩
  | x86_64 =>
      rw [boot, bind_eq_ok] at hRun
      obtain ⟨_, s₁, hStart, hRun⟩ := hRun
      obtain ⟨t, hBoot, hTables, hLive, -⟩ := start64_runs
        (s := VM.reset .x86_64 mem as) (hZero rfl)
      obtain ⟨-, rfl⟩ : () = () ∧ t = s₁ := by
        have hSame := hBoot.symm.trans hStart
        cases hSame
        exact ⟨rfl, rfl⟩
      rw [bind_eq_ok] at hRun
      obtain ⟨_, s₂, hInit, hEnd⟩ := hRun
      have hs := modify_eq_ok.mp hEnd
      subst hs
      rw [vmeInit, bind_eq_ok] at hInit
      obtain ⟨_, s₃, hPanic, hInit⟩ := hInit
      obtain ⟨-, rfl⟩ := panicOn_ok hPanic
      rw [bind_eq_ok] at hInit
      obtain ⟨_, s₄, hKpt, hFinal⟩ := hInit
      have hs₄ := modify_eq_ok.mp hKpt
      have hs₂ := modify_eq_ok.mp hFinal
      subst hs₄ hs₂
      refine ⟨?_, rfl⟩
      show KernelTables .x86_64 t.mem pml4Addr t.live
      rw [hLive]
      exact hTables.kernel

end AbstractMachine.X86.Vme
