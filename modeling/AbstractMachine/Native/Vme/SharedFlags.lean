import AbstractMachine.Lib.Transition
import AbstractMachine.Native.Vme.Switch

/-!
# Switching on several CPUs

The flag `is_mapped` sits in the node, which all CPUs share, although it
speaks about one CPU's host mapping.  When two CPUs are in the same address
space and one of them leaves it, the flags are cleared, and the other CPU
finds nothing to unmap when it leaves in turn: the pages stay in its process.

A switch cleans up exactly when every node of the space it leaves still has
its flag, or its page is taken over by the space it enters.
-/

namespace AbstractMachine.Native.Vme

open AbstractMachine.Lib

/-- The address spaces and the CPUs are in order: every list is well-formed,
and every CPU has the pages of its current address space and no others. -/
structure Settled (spaces : List Nat) (s : VM) : Prop where
  vmeEnable : s.vmeEnable = true
  wellFormed : ∀ h, h = 0 ∨ h ∈ spaces → WellFormed s h
  current : ∀ c, (s.cpu c).vmHead = 0 ∨ (s.cpu c).vmHead ∈ spaces
  host : ∀ c va, (s.cpu c).host va = pageAt s (nodesOf s (s.cpu c).vmHead) va

/-- The system of switches: CPU and `c->vm_head`. -/
def switches (spaces : List Nat) : System VM (Nat × Nat) where
  init := Settled spaces
  next := fun s a =>
    if a.2 = 0 ∨ a.2 ∈ spaces then
      match (amSwitch a.1 a.2).run s with
      | .ok (_, s') => some s'
      | .error _ => none
    else none

/-- No page of another address space is mapped in the process of CPU `c`. -/
def Clean (s : VM) (c : Nat) : Prop :=
  ∀ va page, (s.cpu c).host va = some page →
    ∃ p ∈ nodesOf s (s.cpu c).vmHead, (s.node p).va = va ∧
      hostPage (s.node p).pa (s.node p).prot = page

/-- The switch leaves nothing behind: every node of the address space it
leaves is flagged, or its page is one of the address space it enters. -/
def Unmaps (s : VM) (a : Nat × Nat) : Prop :=
  a.2 = (s.cpu a.1).vmHead ∨
    ∀ p ∈ nodesOf s (s.cpu a.1).vmHead, (s.node p).isMapped = true ∨
      ∃ q ∈ nodesOf s a.2, (s.node q).va = (s.node p).va

instance (s : VM) (a : Nat × Nat) : Decidable (Unmaps s a) := by
  unfold Unmaps
  infer_instance

section

variable {spaces : List Nat} {s s' : VM} {a : Nat × Nat}

private theorem switches_next (hS : Settled spaces s)
    (hNext : (switches spaces).next s a = some s') :
    (a.2 = 0 ∨ a.2 ∈ spaces) ∧ Switched s s' a.1 a.2 := by
  unfold switches at hNext
  dsimp only at hNext
  by_cases hTarget : a.2 = 0 ∨ a.2 ∈ spaces
  · obtain ⟨t, hRun, hSwitched⟩ := amSwitch_runs a.1 hS.vmeEnable
      (hS.wellFormed _ (hS.current a.1)) (hS.wellFormed _ hTarget)
    rw [if_pos hTarget, hRun] at hNext
    cases hNext
    exact ⟨hTarget, hSwitched⟩
  · rw [if_neg hTarget] at hNext
    cases hNext

theorem Settled.clean (hS : Settled spaces s) (c : Nat) : Clean s c := by
  intro va page hPage
  rw [hS.host, pageAt] at hPage
  obtain ⟨p, hFind, hEq⟩ := Option.map_eq_some_iff.mp hPage
  exact ⟨p, List.mem_of_find?_eq_some hFind, by simpa using List.find?_some hFind, hEq⟩

/-- A page that is not unmapped stays. -/
theorem Switched.leak (hS : Settled spaces s) (hW : Switched s s' a.1 a.2)
    (hClean : Clean s' a.1) : Unmaps s a := by
  by_cases hSame : a.2 = (s.cpu a.1).vmHead
  · exact Or.inl hSame
  · refine Or.inr ?_
    intro p hp
    by_contra hNot
    simp only [not_or, not_exists, not_and] at hNot
    have hVas := (hS.wellFormed _ (hS.current a.1)).vas
    have hNone : pageAt s (nodesOf s a.2) (s.node p).va = none := by
      rw [pageAt_none]
      exact hNot.2
    -- the only node with this page is `p`, and its flag is off
    have hKept : ¬ ∃ q ∈ nodesOf s (s.cpu a.1).vmHead,
        (s.node q).va = (s.node p).va ∧ (s.node q).isMapped = true := by
      rintro ⟨q, hq, hVa, hFlag⟩
      rw [List.inj_on_of_nodup_map hVas hq hp hVa] at hFlag
      exact hNot.1 hFlag
    have hHost := hW.host hSame (s.node p).va
    rw [hNone, if_neg hKept, hS.host, pageAt_eq hVas hp] at hHost
    obtain ⟨q, hq, hVa, _⟩ := hClean _ _ hHost
    rw [hW.current, hW.same.nodesOf] at hq
    rw [hW.same.va] at hVa
    exact hNot.2 q hq hVa

/-- A switch that unmaps keeps everything in order. -/
theorem Settled.step (hS : Settled spaces s) (hTarget : a.2 = 0 ∨ a.2 ∈ spaces)
    (hW : Switched s s' a.1 a.2) (hUnmaps : Unmaps s a) : Settled spaces s' where
  vmeEnable := hW.same.vmeEnable.trans hS.vmeEnable
  wellFormed := fun h hh => hW.same.wellFormed (hS.wellFormed h hh)
  current := by
    intro c
    by_cases hc : c = a.1
    · rw [hc, hW.current]
      exact hTarget
    · rw [hW.cpu_ne c hc]
      exact hS.current c
  host := by
    intro c va
    rw [hW.same.pageAt, hW.same.nodesOf]
    by_cases hc : c = a.1
    · subst hc
      rw [hW.current]
      by_cases hSame : a.2 = (s.cpu a.1).vmHead
      · rw [(hW.stay hSame).2, hS.host, hSame]
      · rw [hW.host hSame]
        cases hNew : pageAt s (nodesOf s a.2) va with
        | some page => rfl
        | none =>
            rw [pageAt_none] at hNew
            have hAll := hUnmaps.resolve_left hSame
            show (if _ then none else (s.cpu a.1).host va) = none
            split
            · rfl
            · rename_i hNot
              rw [hS.host, pageAt_none]
              intro p hp hVa
              rcases hAll p hp with hFlag | ⟨q, hq, hEq⟩
              · exact hNot ⟨p, hp, hVa, hFlag⟩
              · exact hNew q hq (hEq.trans hVa)
    · rw [hW.cpu_ne c hc]
      exact hS.host c va

end

/--
**Switches that leave nothing behind.**  In every run of switches on any CPUs
in which each switch unmaps what it leaves, no process keeps a page of an
address space that is not its current one.  In every state of such a run the
condition is exact: the next switch leaves its CPU clean if and only if it
meets it.
-/
theorem switch_clean_iff (spaces : List Nat) (s₀ s : VM) (hInit : Settled spaces s₀)
    (hRun : System.Run ((switches spaces).restrict Unmaps) s₀ s) :
    (∀ c, Clean s c) ∧
    ∀ cpu head s', (switches spaces).next s (cpu, head) = some s' →
      (Clean s' cpu ↔ Unmaps s (cpu, head)) := by
  have hS : Settled spaces s := by
    apply hRun.inv _ hInit
    intro t a t' ht hNext
    obtain ⟨hUnmaps, hNext⟩ := System.restrict_next.mp hNext
    obtain ⟨hTarget, hW⟩ := switches_next ht hNext
    exact ht.step hTarget hW hUnmaps
  refine ⟨hS.clean, ?_⟩
  intro cpu head s' hNext
  obtain ⟨hTarget, hW⟩ := switches_next hS hNext
  constructor
  · exact hW.leak hS
  · intro hUnmaps
    exact (hS.step hTarget hW hUnmaps).clean cpu

/-- An address space with one page, and no CPU in it. -/
def oneSpace : VM :=
  { freshVM with
    node := fun _ =>
      { va := 0x40000000, pa := 0x3000000, next := 0, prot := mmapRead
        isMapped := false, key := key 0x40000000 }
    vmHead := fun _ => { head := 0x2001000, hash := fun _ => none, nrPage := 1 }
    used := [0x2001000, 0x2000000] }

private theorem oneSpace_settled : Settled [0x2000000] oneSpace where
  vmeEnable := rfl
  wellFormed := by
    intro h hh
    have hCases : h = 0 ∨ h = 0x2000000 := by simpa using hh
    rcases hCases with rfl | rfl
    · exact ⟨by simp, by simp [nodesOf], by simp [nodesOf]⟩
    · exact ⟨fun _ => ⟨[0x2001000], by decide⟩, by decide, by decide⟩
  current := fun _ => Or.inl rfl
  host := by
    intro c va
    have hZero : (oneSpace.cpu c).vmHead = 0 := rfl
    rw [hZero, nodesOf_zero]
    rfl

/-- One CPU enters the address space and leaves it again. -/
theorem switch_clean_iff_one :
    ∃ s, System.Run ((switches [0x2000000]).restrict Unmaps) oneSpace s ∧
      (∀ c, Clean s c) ∧ ((s.cpu 0).host 0x40000000).isNone := by
  have hRuns : (((switches [0x2000000]).restrict Unmaps).steps oneSpace
      [(0, 0x2000000), (0, 0)]).any
        (fun s => ((s.cpu 0).host 0x40000000).isNone) = true := by
    decide
  obtain ⟨s, hSteps, hNone⟩ := (Option.any_eq_true _ _).mp hRuns
  have hRun := System.steps_run _ _ hSteps
  exact ⟨s, hRun, (switch_clean_iff [0x2000000] oneSpace s oneSpace_settled hRun).1, hNone⟩

/-- Two CPUs enter the address space, then both leave it: the page stays in
the process of the second. -/
theorem switch_leaks :
    ∃ s, Settled [0x2000000] oneSpace ∧ System.Run (switches [0x2000000]) oneSpace s ∧
      (s.cpu 1).vmHead = 0 ∧ ¬ Clean s 1 := by
  have hRuns : ((switches [0x2000000]).steps oneSpace
      [(0, 0x2000000), (1, 0x2000000), (0, 0), (1, 0)]).any
        (fun s => decide ((s.cpu 1).vmHead = 0) &&
          ((s.cpu 1).host 0x40000000).isSome) = true := by
    decide
  obtain ⟨s, hSteps, hHere⟩ := (Option.any_eq_true _ _).mp hRuns
  obtain ⟨hZero, hSome⟩ := (Bool.and_eq_true _ _).mp hHere
  have hKernel : (s.cpu 1).vmHead = 0 := of_decide_eq_true hZero
  refine ⟨s, oneSpace_settled, System.steps_run _ _ hSteps, hKernel, ?_⟩
  intro hClean
  obtain ⟨page, hPage⟩ := Option.isSome_iff_exists.mp hSome
  obtain ⟨p, hp, _⟩ := hClean 0x40000000 page hPage
  rw [hKernel, nodesOf_zero] at hp
  exact List.not_mem_nil hp

end AbstractMachine.Native.Vme
