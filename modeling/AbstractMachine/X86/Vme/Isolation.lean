import AbstractMachine.X86.Vme.MapRefines
import AbstractMachine.X86.Vme.System

/-!
# Isolation

Each of the three calls touches one address space only, so the ownership
invariant holds in every run after `vme_init`.  Isolation of address spaces,
the sharing of the kernel tables and the exactness of `unprotect` follow.
-/

namespace AbstractMachine.X86.Vme

open AbstractMachine.Lib

section

variable {arch : Arch} {env : Pager} {s₀ : VM} {m : Machine} {vm : VM}

private theorem after_account_self (m : Machine) (op : Op) (vm : VM) :
    (m.after op vm).account op.as =
      op.charge (vm.allocated.drop m.vm.allocated.length) (m.account op.as) :=
  Function.update_self ..

private theorem after_account_ne (m : Machine) (op : Op) (vm : VM) {as : Nat}
    (h : as ≠ op.as) : (m.after op vm).account as = m.account as :=
  Function.update_of_ne h ..

/-- The pages obtained in between, oldest first. -/
theorem Grows.obtained {arch : Arch} {s s' : VM} {new : List Nat} (h : Grows arch s s' new) :
    s'.allocated.drop s.allocated.length = new.reverse := by
  rw [h.allocated, List.drop_left]

/-! ## The three calls -/

private theorem protect_touches (h : Owned arch s₀ m) {as : Nat}
    (hRun : (call arch env (.protect as)).run m.vm = .ok ((), vm)) :
    Touches arch (kernelWord arch s₀) m (m.after (.protect as) vm) as := by
  rw [call, bind_eq_ok] at hRun
  obtain ⟨s, _, hGet, hRun⟩ := hRun
  obtain ⟨rfl, rfl⟩ := get_eq_ok.mp hGet
  dsimp only at hRun
  split at hRun
  · exact absurd hRun throw_ne_ok
  rename_i hFree
  rw [bind_eq_ok] at hRun
  obtain ⟨_, s₁, hSet, hProtect⟩ := hRun
  cases hSet
  have hOutside : ∀ q ∈ m.vm.live, ¬ InPage 4096 q as := by
    intro q hq hx
    exact hFree ⟨q, hq, by rw [mmu_pgsize]; exact hx⟩
  obtain ⟨root, hGrow, hSpace, hFrame, hCopied⟩ := protect_spec
    (s := { m.vm with spaces := m.vm.spaces.insert as })
    (List.mem_insert_self ..) hOutside hProtect
  have hAccount : (m.after (.protect as) vm).account as = [root] :=
    (after_account_self m (.protect as) vm).trans hGrow.obtained
  have hLive : ∀ q, q ∈ vm.live ↔ q = root ∨ q ∈ m.vm.live := by
    intro q
    rw [hGrow.mem_live, List.mem_singleton]
  have hKernel := hCopied (h.kpt ▸ h.kept _ h.kernel.root)
    (h.kpt ▸ h.kernel.aligned _ h.kernel.root)
  exact
    { mem := by
        intro x hx hNot
        exact hFrame x hx (hNot root (Or.inr (hAccount ▸ List.mem_singleton_self root)))
      keeps := fun q hq _ => (hLive q).mpr (Or.inr hq)
      obtains := by
        intro q hq
        rw [hAccount, List.mem_singleton]
        exact ((hLive q).mp hq).symm
      fresh := by
        intro q hq
        rw [hAccount] at hq
        refine Or.inr ⟨hGrow.fresh q hq, hGrow.aligned q hq, fun as' hAs' => ?_⟩
        exact hGrow.apart q hq as' (List.mem_insert_of_mem hAs')
      inUse := by
        intro q hq
        rw [hAccount, List.mem_singleton] at hq
        exact (hLive q).mpr (Or.inl hq)
      nodup := by
        rw [hAccount]
        exact List.nodup_singleton root
      outside := hOutside
      account := fun as' hNe => after_account_ne m (.protect as) vm hNe
      spaces := by
        intro as' hNe
        show as' ∈ vm.spaces ↔ _
        rw [hGrow.spaces]
        show as' ∈ m.vm.spaces.insert as ↔ _
        rw [List.mem_insert_iff]
        exact ⟨fun h => h.resolve_left hNe, Or.inr⟩
      kpt := hGrow.kpt
      self := by
        intro _
        refine ⟨root, fun _ => .empty, hSpace.rekey fun i hi => ?_, fun q => ?_⟩
        · rw [hKernel i hi, kernelWord, ← h.kpt]
          exact h.same _ _ h.kernel.root (h.kpt ▸ inPage_slot (kernelIndex_lt hi)
            (layout arch true).stride_pos (level1_ok arch).fits)
        · rw [hAccount]
          simp }

private theorem map_touches (h : Owned arch s₀ m) {as va pa : Nat} {prot : BitVec 32}
    (hRun : (call arch env (.map as va pa prot)).run m.vm = .ok ((), vm)) :
    Touches arch (kernelWord arch s₀) m (m.after (.map as va pa prot) vm) as := by
  rw [call, bind_eq_ok] at hRun
  obtain ⟨_, s, hRequire, hMap⟩ := hRun
  obtain ⟨hAs, rfl⟩ := requireSpace_ok hRequire
  obtain ⟨root, kids, hSpace, hOwns⟩ := h.space as hAs
  obtain ⟨kids', new, hSpace', hMapped⟩ := map_spec hSpace hMap
  have hGrow := hMapped.grows
  have hAccount : (m.after (.map as va pa prot) vm).account as =
      m.account as ++ new.reverse := by
    rw [← hGrow.obtained]
    exact after_account_self m (.map as va pa prot) vm
  have hMem : ∀ q, q ∈ (m.after (.map as va pa prot) vm).account as ↔
      q ∈ m.account as ∨ q ∈ new := by
    intro q
    rw [hAccount, List.mem_append, List.mem_reverse]
  have hOwns' : ∀ q, q ∈ (m.after (.map as va pa prot) vm).account as ↔
      (RadixTree.table root kids').Owns q := by
    intro q
    rw [hMem, hMapped.owns, hOwns]
  exact
    { mem := by
        intro x _ hNot
        refine hMapped.frame x ?_
        rintro ⟨q, hq, hx⟩
        exact hNot q (Or.inr ((hOwns' q).mpr hq)) hx
      keeps := fun q hq _ => (hGrow.mem_live q).mpr (Or.inr hq)
      obtains := by
        intro q hq
        rw [hMem]
        exact ((hGrow.mem_live q).mp hq).symm.imp id Or.inr
      fresh := by
        intro q hq
        exact ((hMem q).mp hq).imp id fun hNew =>
          ⟨hGrow.fresh q hNew, hGrow.aligned q hNew, hGrow.apart q hNew⟩
      inUse := fun q hq => hSpace'.owned q ((hOwns' q).mp hq)
      nodup := by
        rw [hAccount, List.nodup_append]
        refine ⟨h.nodup as, List.nodup_reverse.mpr hGrow.nodup, ?_⟩
        rintro q hq _ hNew rfl
        exact hGrow.fresh q (List.mem_reverse.mp hNew) (h.live as q hq).1
      outside := hSpace.outside
      account := fun as' hNe => after_account_ne m (.map as va pa prot) vm hNe
      spaces := fun as' _ => by
        show as' ∈ vm.spaces ↔ _
        rw [hGrow.spaces]
      kpt := hGrow.kpt
      self := fun _ => ⟨root, kids', hSpace', hOwns'⟩ }

/-- `unprotect` of a protected object succeeds. -/
theorem unprotect_runs (env : Pager) (h : Owned arch s₀ m) {as : Nat} (hAs : as ∈ m.vm.spaces) :
    ∃ vm pages, (call arch env (.unprotect as)).run m.vm = .ok ((), vm) ∧
      Released { m.vm with spaces := vm.spaces } vm pages ∧
      vm.spaces = m.vm.spaces.filter (· ≠ as) ∧ pages.Perm (m.account as) := by
  obtain ⟨root, kids, hSpace, hOwns⟩ := h.space as hAs
  obtain ⟨s', hRun, hRel⟩ := unprotect_spec env hSpace fun i hi =>
    h.kernel.supervisor i hi
  have hFits : (RadixTree.table root kids).Fits ((tables arch).map fanout) := by
    rw [tables_eq]
    refine ⟨fun i hi => ?_, fun i hi => hSpace.vacant i (Or.inr hi)⟩
    by_cases hKer : KernelIndex arch i
    · rw [hSpace.vacant i (Or.inl hKer)]
      cases (lower arch).map fanout <;> trivial
    · exact SlotRep.fits _ _ _ (hSpace.user i hi hKer)
  refine ⟨{ s' with spaces := s'.spaces.filter (· ≠ as) }, _, ?_,
    { hRel with spaces := rfl }, by rw [← hRel.spaces], ?_⟩
  · rw [call, bind_eq_ok]
    refine ⟨(), m.vm, ?_, ?_⟩
    · rw [requireSpace, bind_eq_ok]
      refine ⟨m.vm, m.vm, rfl, ?_⟩
      rw [if_neg (not_not.mpr hAs)]
      rfl
    · rw [bind_eq_ok]
      exact ⟨(), s', hRun, rfl⟩
  · rw [List.perm_ext_iff_of_nodup (RadixTree.nodup_postorder _ _ hFits hSpace.separated)
      (h.nodup as)]
    intro q
    rw [RadixTree.mem_postorder _ _ hFits, hOwns]

theorem unprotect_space {as : Nat}
    (hRun : (call arch env (.unprotect as)).run m.vm = .ok ((), vm)) : as ∈ m.vm.spaces := by
  rw [call, bind_eq_ok] at hRun
  obtain ⟨_, s, hRequire, _⟩ := hRun
  exact (requireSpace_ok hRequire).1

theorem unprotect_gone (h : Owned arch s₀ m) {as : Nat}
    (hRun : (call arch env (.unprotect as)).run m.vm = .ok ((), vm)) : as ∉ vm.spaces := by
  obtain ⟨vm', pages, hRun', _, hSpaces, _⟩ := unprotect_runs env h (unprotect_space hRun)
  have hEqVm := hRun'.symm.trans hRun
  cases hEqVm
  rw [hSpaces, List.mem_filter]
  simp

private theorem unprotect_touches (h : Owned arch s₀ m) {as : Nat}
    (hRun : (call arch env (.unprotect as)).run m.vm = .ok ((), vm)) :
    Touches arch (kernelWord arch s₀) m (m.after (.unprotect as) vm) as := by
  have hAs := unprotect_space hRun
  obtain ⟨vm', pages, hRun', hRel, hSpaces, hPerm⟩ := unprotect_runs env h hAs
  have hSame : vm' = vm := by
    have := hRun'.symm.trans hRun
    cases this
    rfl
  subst hSame
  have hAccount : (m.after (.unprotect as) vm').account as = [] :=
    after_account_self m (.unprotect as) vm'
  exact
    { mem := by
        intro x _ hNot
        exact hRel.mem x fun q hq => hNot q (Or.inl (hPerm.mem_iff.mp hq))
      keeps := by
        intro q hq hNot
        exact (hRel.live q).mpr ⟨hq, fun hIn => hNot (hPerm.mem_iff.mp hIn)⟩
      obtains := fun q hq => Or.inl ((hRel.live q).mp hq).1
      fresh := by
        intro q hq
        rw [hAccount] at hq
        exact absurd hq List.not_mem_nil
      inUse := by
        intro q hq
        rw [hAccount] at hq
        exact absurd hq List.not_mem_nil
      nodup := by
        rw [hAccount]
        exact List.nodup_nil
      outside := h.outside hAs
      account := fun as' hNe => after_account_ne m (.unprotect as) vm' hNe
      spaces := by
        intro as' hNe
        show as' ∈ vm'.spaces ↔ _
        rw [hSpaces, List.mem_filter]
        simp [hNe]
      kpt := hRel.kpt
      self := by
        intro hIn
        have hIn' : as ∈ vm'.spaces := hIn
        rw [hSpaces, List.mem_filter] at hIn'
        simp at hIn' }

/-- Every call touches only the address space it is made for. -/
theorem step_touches (h : Owned arch s₀ m) {m' : Machine} {op : Op}
    (hStep : step arch env m op = .ok m') :
    Touches arch (kernelWord arch s₀) m m' op.as := by
  obtain ⟨vm, hCall, rfl⟩ := step_eq_ok.mp hStep
  cases op with
  | protect as => exact protect_touches h hCall
  | map as va pa prot => exact map_touches h hCall
  | unprotect as => exact unprotect_touches h hCall

/-! ## Every run -/

theorem Booted.owned {m : Machine} (h : Booted arch env m) : Owned arch m.vm m := by
  obtain ⟨mem, cpu, as, u, hZero, hRun, hAccount⟩ := h
  obtain ⟨hKernel, hSpaces⟩ := boot_spec hZero hRun
  have hNone : ∀ as q, q ∉ m.account as := by
    intro as q
    rw [hAccount]
    exact List.not_mem_nil
  exact
    { kernel := hKernel
      kpt := rfl
      kept := fun _ hq => hq
      same := fun _ _ _ _ => rfl
      space := by
        intro as hAs
        rw [hSpaces] at hAs
        exact absurd hAs List.not_mem_nil
      live := fun as q hq => absurd hq (hNone as q)
      nodup := by
        intro as
        rw [hAccount]
        exact List.nodup_nil
      apart := fun as _ q hq _ => absurd hq (hNone as q) }

private theorem run_owned {m₀ m : Machine} (hBoot : Booted arch env m₀)
    (hRun : System.Run (system arch env) m₀ m) : Owned arch m₀.vm m := by
  refine hRun.inv (fun t op t' h hNext => ?_) hBoot.owned
  exact h.step (step_touches h (system_next.mp hNext))

/-! ## Page directories -/

/-- The word of `as->ptr` is a page with the low bits set. -/
theorem Owned.ptr_ne_zero (h : Owned arch s₀ m) {as : Nat} (hAs : as ∈ m.vm.spaces) :
    m.vm.mem as ≠ 0 := by
  obtain ⟨root, kids, hSpace, _⟩ := h.space as hAs
  rw [hSpace.ptr, Nat.or_assoc, or_flags hSpace.aligned (by decide)]
  have hFlags : pteP ||| pteU = 5 := rfl
  omega

/-- No two address spaces have the same directory. -/
theorem Owned.ptr_ne (h : Owned arch s₀ m) {as as' : Nat} (hAs : as ∈ m.vm.spaces)
    (hAs' : as' ∈ m.vm.spaces) (hNe : as' ≠ as) : m.vm.mem as' ≠ m.vm.mem as := by
  obtain ⟨root, kids, hSpace, hOwns⟩ := h.space as hAs
  obtain ⟨root', kids', hSpace', hOwns'⟩ := h.space as' hAs'
  intro hEq
  have hRoot : root' = root := by
    rw [← hSpace.cr3_base, ← hSpace'.cr3_base, hEq]
  have hIn : root ∈ m.account as := (hOwns root).mpr (Or.inl rfl)
  have hIn' : root ∈ m.account as' := (hOwns' root).mpr (Or.inl hRoot.symm)
  exact hNe (h.apart as' as root hIn' hIn)

/-- Only `protect` sets `as->ptr`. -/
theorem step_ptr (h : Owned arch s₀ m) {m' : Machine} {op : Op}
    (hStep : step arch env m op = .ok m') {as : Nat} (hAs : as ∈ m'.vm.spaces)
    (hNot : op ≠ .protect as) : as ∈ m.vm.spaces ∧ m'.vm.mem as = m.vm.mem as := by
  have hT := step_touches h hStep
  by_cases hEq : as = op.as
  · obtain ⟨vm, hCall, rfl⟩ := step_eq_ok.mp hStep
    cases op with
    | protect as' =>
        have hSame : as = as' := hEq
        exact absurd (hSame ▸ rfl) hNot
    | map as' va pa prot =>
        have hSame : as = as' := hEq
        subst hSame
        rw [call, bind_eq_ok] at hCall
        obtain ⟨_, s, hRequire, hMap⟩ := hCall
        obtain ⟨hIn, rfl⟩ := requireSpace_ok hRequire
        obtain ⟨root, kids, hSpace, _⟩ := h.space as hIn
        obtain ⟨kids', new, hSpace', _⟩ := map_spec hSpace hMap
        exact ⟨hIn, hSpace'.ptr.trans hSpace.ptr.symm⟩
    | unprotect as' =>
        have hSame : as = as' := hEq
        subst hSame
        exact absurd hAs (unprotect_gone h hCall)
  · have hIn := (hT.spaces as hEq).mp hAs
    obtain ⟨root, kids, hSpace, hOwns⟩ := h.space as hIn
    exact ⟨hIn, (Touches.other h hT hIn hEq hSpace hOwns).ptr.trans hSpace.ptr.symm⟩

/-- Two states with the same address space translate alike, if they agree on
the kernel tables. -/
theorem Space.translate_same {s s' : VM} {as root : Nat}
    {kids : Nat → RadixTree Mapping}
    (h : Space arch s (kernelWord arch s₀) as root kids)
    (h' : Space arch s' (kernelWord arch s₀) as root kids)
    (hKernel : KernelTables arch s₀.mem s₀.kpt s₀.live)
    (hSame : ∀ q x, q ∈ s₀.live → InPage 4096 q x → s.mem x = s₀.mem x)
    (hSame' : ∀ q x, q ∈ s₀.live → InPage 4096 q x → s'.mem x = s₀.mem x) (va : Nat) :
    translate arch s'.mem va (s'.mem as) = translate arch s.mem va (s.mem as) := by
  by_cases hIndex : KernelIndex arch (indexof va (level1 arch))
  · rw [hKernel.translate_shared hSame hIndex fun i hi => by
        rw [h.cr3_base]; exact h.kernel i hi,
      hKernel.translate_shared hSame' hIndex fun i hi => by
        rw [h'.cr3_base]; exact h'.kernel i hi]
  · rw [h.translate_user hIndex, h'.translate_user hIndex]

end

/-! ## Two processes -/

/-- Boot on zeroed memory. -/
def bootMachine : Option Machine :=
  match (boot .x86_64 steadyPager 0 8).run (VM.reset .x86_64 (fun _ => 0) 8) with
  | .ok (_, vm) => some ⟨vm, fun _ => []⟩
  | .error _ => none

/-- Boot, then two processes, of which the first has a page. -/
def twoProcesses : Option Machine :=
  bootMachine.bind fun m => (system .x86_64 steadyPager).steps m
    [.protect 16, .protect 32, .map 16 0x100000000000 0x2000000 mmapWrite]

theorem bootMachine_booted {m : Machine} (h : bootMachine = some m) :
    Booted .x86_64 steadyPager m := by
  unfold bootMachine at h
  split at h
  · rename_i u vm hRun
    cases h
    exact ⟨fun _ => 0, 0, 8, u, fun _ => rfl, hRun, rfl⟩
  · cases h

private theorem twoProcesses_run {m : Machine} (h : twoProcesses = some m) :
    ∃ m₀, Booted .x86_64 steadyPager m₀ ∧
      System.Run (system .x86_64 steadyPager) m₀ m := by
  obtain ⟨m₀, hBoot, hSteps⟩ := Option.bind_eq_some_iff.mp h
  exact ⟨m₀, bootMachine_booted hBoot, System.steps_run _ _ hSteps⟩

/-! ## Results -/

/--
**Isolation of address spaces.**  In every run after `vme_init`, whatever
pages `pgalloc` hands out among those not in use: a call made for one address
space changes no translation of another one, and every kernel address
translates in every address space as in `kpt`, to itself and without user
access.
-/
theorem spaces_isolated (arch : Arch) (env : Pager) (m₀ m : Machine)
    (hBoot : Booted arch env m₀) (hRun : System.Run (system arch env) m₀ m) :
    (∀ op m', step arch env m op = .ok m' → ∀ as ∈ m.vm.spaces, as ≠ op.as →
      as ∈ m'.vm.spaces ∧ ∀ va, translate arch m'.vm.mem va (m'.vm.mem as) =
        translate arch m.vm.mem va (m.vm.mem as)) ∧
    ∀ as ∈ m.vm.spaces, ∀ va, InKernel arch va →
      translate arch m.vm.mem va (m.vm.mem as) =
        translate arch m.vm.mem va m.vm.kpt ∧
      translate arch m.vm.mem va m.vm.kpt =
        some { paddr := va, writable := true, user := false } := by
  have h := run_owned hBoot hRun
  refine ⟨?_, ?_⟩
  · intro op m' hStep as hAs hNe
    have hT := step_touches h hStep
    obtain ⟨root, kids, hSpace, hOwns⟩ := h.space as hAs
    have hSpace' := Touches.other h hT hAs hNe hSpace hOwns
    exact ⟨(hT.spaces as hNe).mpr hAs, fun va =>
      hSpace.translate_same hSpace' h.kernel h.same (h.step hT).same va⟩
  · intro as hAs va hVa
    obtain ⟨root, kids, hSpace, _⟩ := h.space as hAs
    have hNow : KernelTables arch m.vm.mem m.vm.kpt m₀.vm.live := by
      rw [h.kpt]
      exact h.kernel.congr h.same
    refine ⟨?_, hNow.identity va hVa⟩
    rw [hNow.identity va hVa, h.kernel.translate_shared h.same (kernel_index hVa)
      fun i hi => by rw [hSpace.cr3_base]; exact hSpace.kernel i hi]
    exact h.kernel.identity va hVa

/-- The second process maps its first page. -/
theorem spaces_isolated_two :
    ∃ m₀ m m', Booted .x86_64 steadyPager m₀ ∧
      System.Run (system .x86_64 steadyPager) m₀ m ∧
      step .x86_64 steadyPager m (.map 32 0x100000000000 0x2001000 mmapRead) = .ok m' ∧
      (∀ va, translate .x86_64 m'.vm.mem va (m'.vm.mem 16) =
        translate .x86_64 m.vm.mem va (m.vm.mem 16)) ∧
      ∀ va, InKernel .x86_64 va → translate .x86_64 m.vm.mem va (m.vm.mem 16) =
        translate .x86_64 m.vm.mem va m.vm.kpt := by
  have hRuns : twoProcesses.any (fun m => decide (16 ∈ m.vm.spaces) &&
      (step .x86_64 steadyPager m
        (.map 32 0x100000000000 0x2001000 mmapRead)).isOk) = true := by
    decide +kernel
  obtain ⟨m, hm, hHere⟩ := (Option.any_eq_true _ _).mp hRuns
  obtain ⟨h16, hOk⟩ := (Bool.and_eq_true _ _).mp hHere
  obtain ⟨m₀, hBoot, hRun⟩ := twoProcesses_run hm
  cases hStep : step .x86_64 steadyPager m
      (.map 32 0x100000000000 0x2001000 mmapRead) with
  | error e =>
      rw [hStep] at hOk
      cases hOk
  | ok m' =>
      have hIsolated := spaces_isolated .x86_64 steadyPager m₀ m hBoot hRun
      have hLive := of_decide_eq_true h16
      exact ⟨m₀, m, m', hBoot, hRun, hStep,
        (hIsolated.1 _ m' hStep 16 hLive (by decide)).2,
        fun va hVa => (hIsolated.2 16 hLive va hVa).1⟩

/--
**`unprotect` is exact.**  In every run after `vme_init`, `unprotect` of a
protected address space succeeds: no page is released twice and no released
table is read.  The pages it releases are those on the account of the address
space, each once, and none of the pages the kernel tables occupy, which stay
as they are.
-/
theorem unprotect_exact (arch : Arch) (env : Pager) (m₀ m : Machine) (as : Nat)
    (hBoot : Booted arch env m₀) (hRun : System.Run (system arch env) m₀ m)
    (hAs : as ∈ m.vm.spaces) :
    ∃ m' pages, step arch env m (.unprotect as) = .ok m' ∧
      m'.vm.freed = m.vm.freed ++ pages ∧
      pages.Perm (m.account as) ∧ pages.Nodup ∧
      (∀ q, q ∈ m'.vm.live ↔ q ∈ m.vm.live ∧ q ∉ m.account as) ∧
      KernelTables arch m'.vm.mem m'.vm.kpt m₀.vm.live ∧
      ∀ q ∈ pages, q ∉ m₀.vm.live := by
  have h := run_owned hBoot hRun
  obtain ⟨vm, pages, hCall, hRel, _, hPerm⟩ := unprotect_runs env h hAs
  have hStep : step arch env m (.unprotect as) = .ok (m.after (.unprotect as) vm) :=
    step_eq_ok.mpr ⟨vm, hCall, rfl⟩
  have hNext := h.step (step_touches h hStep)
  refine ⟨_, pages, hStep, hRel.freed, hPerm, hPerm.nodup_iff.mpr (h.nodup as), ?_, ?_, ?_⟩
  · intro q
    rw [← hPerm.mem_iff]
    exact hRel.live q
  · rw [hNext.kpt]
    exact hNext.kernel.congr hNext.same
  · intro q hq
    exact (h.live as q (hPerm.mem_iff.mp hq)).2.2

/-- The first process ends; its root and three tables are released. -/
theorem unprotect_exact_first :
    ∃ m₀ m m' pages, Booted .x86_64 steadyPager m₀ ∧
      System.Run (system .x86_64 steadyPager) m₀ m ∧
      step .x86_64 steadyPager m (.unprotect 16) = .ok m' ∧
      m'.vm.freed = m.vm.freed ++ pages ∧ pages.Perm (m.account 16) ∧
      (m.account 16).length = 4 := by
  have hRuns : twoProcesses.any (fun m => decide (16 ∈ m.vm.spaces) &&
      decide ((m.account 16).length = 4)) = true := by
    decide +kernel
  obtain ⟨m, hm, hHere⟩ := (Option.any_eq_true _ _).mp hRuns
  obtain ⟨h16, hLen⟩ := (Bool.and_eq_true _ _).mp hHere
  obtain ⟨m₀, hBoot, hRun⟩ := twoProcesses_run hm
  obtain ⟨m', pages, hStep, hFreed, hPerm, _⟩ := unprotect_exact .x86_64 steadyPager m₀ m
    16 hBoot hRun (of_decide_eq_true h16)
  exact ⟨m₀, m, m', pages, hBoot, hRun, hStep, hFreed, hPerm, of_decide_eq_true hLen⟩

end AbstractMachine.X86.Vme
