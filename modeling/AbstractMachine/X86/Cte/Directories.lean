import AbstractMachine.X86.Cte.System

/-!
# Released page directories

A kernel thread has no page directory of its own: `kcontext` leaves `cr3` at
`NULL`, and a CPU that resumes the fresh context keeps the one it has, which
may be that of a process.  A trap then saves it into the context of the
thread.  When the process is gone and `unprotect` has released the directory,
the thread may still run on it, or load it again.

What `unprotect` would have to wait for is stated as a condition on each
step.  Runs that meet it never use a released directory, and from every step
that breaks it a use of one can be reached.
-/

namespace AbstractMachine.X86.Cte

open AbstractMachine.Lib
open AbstractMachine.X86.Vme (Pager)

section

variable (ncpu : Nat) (m : Machine)

/-- The task was made by `ucontext` for the address space `as`. -/
def Task.Of (as : Nat) : Task → Prop
  | .process as' _ => as' = as
  | _ => False

instance (as : Nat) (t : Task) : Decidable (t.Of as) := by
  cases t <;> unfold Task.Of <;> infer_instance

/-- What the kernel sees to: it calls `unprotect` when no context of user mode
made for the address space is left, saved or running. -/
def Dropped : Op → Prop
  | .call _ (.unprotect as) =>
      (∀ s ∈ m.contexts, ¬ (UserSel s.ctx.cs ∧ s.task.Of as)) ∧
        ∀ j < ncpu, ¬ ((m.core j).cpu.User ∧ (m.core j).task.Of as)
  | _ => True

instance (op : Op) : Decidable (Dropped ncpu m op) := by
  unfold Dropped
  split <;> infer_instance

/-- What it would have to see to: when `unprotect` is called, no context at
all has the directory in `cr3`, and no CPU runs on it outside a handler; a CPU
inside a handler whose directory has been released resumes a context with a
`cr3` of its own, and takes no trap before. -/
def Safe : Op → Prop
  | .call _ (.unprotect as) =>
      (∀ s ∈ m.contexts, s.ctx.cr3 ≠ m.vme.vm.mem as) ∧
        ∀ j < ncpu, (m.core j).inHandler = false → (m.core j).cpu.cr3 ≠ m.vme.vm.mem as
  | .trap i _ _ => (m.core i).inHandler = true → (m.core i).cpu.cr3 ∉ m.released
  | .resume i k =>
      (m.contexts[k]?).all (fun s => s.ctx.cr3 ≠ 0) = true ∨ (m.core i).cpu.cr3 ∉ m.released
  | _ => True

instance (op : Op) : Decidable (Safe ncpu m op) := by
  unfold Safe
  split <;> infer_instance

/-- A CPU runs a thread on a page directory that has been released. -/
def Stale : Prop :=
  ∃ i < ncpu, (m.core i).inHandler = false ∧ (m.core i).cpu.cr3 ∈ m.released

end

/-- The system with `ncpu` CPUs, and a kernel that keeps its side. -/
def kernels (arch : Arch) (env : Pager) (start ncpu : Nat) : System Machine Op :=
  (system arch env start ncpu).restrict (Dropped ncpu)

/-- The invariant: the directories in use have not been released. -/
structure Fresh (arch : Arch) (ncpu : Nat) (m : Machine) : Prop where
  owned : ∃ s₀, Vme.Owned arch s₀ m.vme
  ptr : ∀ as ∈ m.vme.vm.spaces, m.vme.vm.mem as ∉ m.released
  nonzero : 0 ∉ m.released
  contexts : ∀ s ∈ m.contexts, s.ctx.cr3 ∉ m.released
  cores : ∀ i < ncpu, (m.core i).inHandler = false → (m.core i).cpu.cr3 ∉ m.released

section

variable {arch : Arch} {env : Pager} {start ncpu : Nat} {m m' : Machine}

theorem Fresh.not_stale (h : Fresh arch ncpu m) : ¬ Stale ncpu m := by
  rintro ⟨i, hi, hOut, hIn⟩
  exact h.cores i hi hOut hIn

/-! ## Steps -/

theorem Fresh.save {s : Saved} (h : Fresh arch ncpu m) (hs : s.ctx.cr3 ∉ m.released) :
    Fresh arch ncpu (m.save s) where
  owned := h.owned
  ptr := h.ptr
  nonzero := h.nonzero
  contexts := by
    intro t ht
    rw [save_contexts, List.mem_cons] at ht
    rcases ht with rfl | ht
    · exact hs
    · exact h.contexts t ht
  cores := h.cores

theorem Fresh.setCore {i : Nat} {c : Core} (h : Fresh arch ncpu m)
    (hc : i < ncpu → c.inHandler = false → c.cpu.cr3 ∉ m.released) :
    Fresh arch ncpu (m.setCore i c) where
  owned := h.owned
  ptr := h.ptr
  nonzero := h.nonzero
  contexts := h.contexts
  cores := by
    intro j hj
    rw [setCore_core]
    by_cases hEq : j = i
    · rw [hEq, Function.update_self]
      exact hc (hEq ▸ hj)
    · rw [Function.update_of_ne hEq]
      exact h.cores j hj

/-- Nothing that is released later is in use at a safe call. -/
theorem Fresh.not_released {cr3 : Nat} {op : Vme.Op} {vme : Vme.Machine}
    (hOld : cr3 ∉ m.released) (hNew : ∀ as, op = .unprotect as → cr3 ≠ m.vme.vm.mem as) :
    cr3 ∉ (m.called op vme).released := by
  show cr3 ∉ m.releasedAfter vme op
  unfold Machine.releasedAfter
  cases op with
  | protect as =>
      intro hIn
      exact hOld (List.mem_of_mem_filter hIn)
  | map as va pa prot => exact hOld
  | unprotect as =>
      rw [List.mem_cons, not_or]
      exact ⟨hNew as rfl, hOld⟩

theorem Fresh.call {i : Nat} {op : Vme.Op} {vme : Vme.Machine} (h : Fresh arch ncpu m)
    (hSafe : Safe ncpu m (.call i op)) (hStep : Vme.step arch env m.vme op = .ok vme) :
    Fresh arch ncpu (m.called op vme) := by
  obtain ⟨s₀, hOwned⟩ := h.owned
  have hNext := hOwned.step (Vme.step_touches hOwned hStep)
  exact
    { owned := ⟨s₀, hNext⟩
      ptr := by
        intro as hAs
        by_cases hProtect : op = .protect as
        · subst hProtect
          show vme.vm.mem as ∉ m.released.filter (· ≠ vme.vm.mem as)
          simp
        · obtain ⟨hIn, hSame⟩ := Vme.step_ptr hOwned hStep hAs hProtect
          show vme.vm.mem as ∉ _
          rw [hSame]
          apply Fresh.not_released (h.ptr as hIn)
          intro as' hOp hEq
          subst hOp
          -- the released address space is not protected any more
          obtain ⟨vm, hCall, rfl⟩ := Vme.step_eq_ok.mp hStep
          have hNe : as ≠ as' := by
            rintro rfl
            exact Vme.unprotect_gone hOwned hCall hAs
          exact hOwned.ptr_ne (Vme.unprotect_space hCall) hIn hNe hEq
      nonzero := by
        apply Fresh.not_released h.nonzero
        intro as hOp hEq
        subst hOp
        obtain ⟨vm, hCall, _⟩ := Vme.step_eq_ok.mp hStep
        exact hOwned.ptr_ne_zero (Vme.unprotect_space hCall) hEq.symm
      contexts := by
        intro s hs
        apply Fresh.not_released (h.contexts s hs)
        rintro as rfl
        exact hSafe.1 s hs
      cores := by
        intro j hj hOut
        apply Fresh.not_released (h.cores j hj hOut)
        rintro as rfl
        exact hSafe.2 j hj hOut }

theorem Fresh.trap {i irq errcode : Nat} (h : Fresh arch ncpu m) (hi : i < ncpu)
    (hSafe : Safe ncpu m (.trap i irq errcode)) :
    Fresh arch ncpu (m.enterTrap arch i irq errcode) := by
  apply Fresh.setCore
  · apply h.save
    show (m.core i).cpu.cr3 ∉ m.released
    cases hIn : (m.core i).inHandler with
    | false => exact h.cores i hi hIn
    | true => exact hSafe hIn
  · intro _ hOut
    cases hOut

theorem Fresh.resume {i k : Nat} {s : Saved} (h : Fresh arch ncpu m)
    (hs : m.contexts[k]? = some s) (hSafe : Safe ncpu m (.resume i k)) :
    Fresh arch ncpu (m.resume arch i s) := by
  apply h.setCore
  intro _ _
  rw [iret_cr3]
  by_cases hNull : s.ctx.cr3 = 0
  · rw [irqRestore_null hNull]
    apply hSafe.resolve_left
    simp [hs, hNull]
  · rw [irqRestore_cr3 hNull]
    exact h.contexts s (List.mem_of_getElem? hs)

/-- A safe step keeps the invariant. -/
theorem Fresh.step {op : Op} (h : Fresh arch ncpu m) (hCpu : op.cpu < ncpu)
    (hSafe : Safe ncpu m op) (hNext : next arch env start m op = some m') :
    Fresh arch ncpu m' := by
  cases op with
  | call i op =>
      obtain ⟨_, vme, hStep, rfl⟩ := next_call.mp hNext
      exact h.call hSafe hStep
  | kcontext i kstack entry arg =>
      obtain ⟨_, rfl⟩ := next_kcontext.mp hNext
      apply h.save
      rw [kcontext_cr3]
      exact h.nonzero
  | ucontext i as kstack entry =>
      obtain ⟨_, hAs, rfl⟩ := next_ucontext.mp hNext
      apply h.save
      rw [ucontext_cr3]
      exact h.ptr as hAs
  | drop i k =>
      obtain ⟨_, rfl⟩ := next_drop.mp hNext
      exact
        { owned := h.owned
          ptr := h.ptr
          nonzero := h.nonzero
          contexts := fun s hs => h.contexts s (List.mem_of_mem_eraseIdx hs)
          cores := h.cores }
  | exec i regs =>
      cases hNext
      apply h.setCore
      exact h.cores i
  | trap i irq errcode =>
      cases hNext
      exact h.trap hCpu hSafe
  | resume i k =>
      obtain ⟨_, s, hs, rfl⟩ := next_resume.mp hNext
      exact h.resume hs hSafe

theorem Started.fresh (h : Started arch env m) : Fresh arch ncpu m := by
  obtain ⟨hBoot, hNone, hReleased, _⟩ := h
  have hNot : ∀ x, x ∉ m.released := by
    intro x
    rw [hReleased]
    exact List.not_mem_nil
  exact
    { owned := ⟨_, hBoot.owned⟩
      ptr := fun as _ => hNot _
      nonzero := hNot 0
      contexts := fun s _ => hNot _
      cores := fun i _ _ => hNot _ }

/-! ## What an unsafe step leads to -/

/-- Resuming a context whose directory has been released. -/
theorem resume_stale (arch : Arch) (env : Vme.Pager) (start : Nat) {i k : Nat} {s : Saved}
    (hi : i < ncpu)
    (hIn : (m.core i).inHandler = true) (hs : m.contexts[k]? = some s)
    (hNull : s.ctx.cr3 ≠ 0) (hReleased : s.ctx.cr3 ∈ m.released) :
    ∃ m', System.Run (kernels arch env start ncpu) m m' ∧ Stale ncpu m' := by
  have hNext : (kernels arch env start ncpu).next m (.resume i k) =
      some (m.resume arch i s) := by
    apply System.restrict_next.mpr
    refine ⟨trivial, system_next.mpr ⟨hi, next_resume.mpr ⟨hIn, s, hs, rfl⟩⟩⟩
  refine ⟨_, System.Run.step _ (System.Run.refl m) hNext, i, hi, ?_, ?_⟩
  · simp [Machine.resume]
  · simp [Machine.resume, irqRestore_cr3 hNull, hReleased]

/-- The kernel on CPU `i` takes a trap, unless it is in one, and resumes it. -/
theorem context_stale {i : Nat} {s : Saved} (hi : i < ncpu) (hs : s ∈ m.contexts)
    (hNull : s.ctx.cr3 ≠ 0) (hReleased : s.ctx.cr3 ∈ m.released) :
    ∃ m', System.Run (kernels arch env start ncpu) m m' ∧ Stale ncpu m' := by
  have hTrap : (kernels arch env start ncpu).next m (.trap i 0 0) =
      some (m.enterTrap arch i 0 0) := by
    apply System.restrict_next.mpr
    exact ⟨trivial, system_next.mpr ⟨hi, rfl⟩⟩
  have hs' : s ∈ (m.enterTrap arch i 0 0).contexts := List.mem_cons_of_mem _ hs
  obtain ⟨k, hk⟩ := List.getElem?_of_mem hs'
  have hIn : ((m.enterTrap arch i 0 0).core i).inHandler = true := by
    simp [Machine.enterTrap]
  obtain ⟨m', hRun, hStale⟩ := resume_stale arch env start hi hIn hk hNull hReleased
  exact ⟨m', (System.Run.step _ (System.Run.refl m) hTrap).trans hRun, hStale⟩

/-- After every step that is not safe, a released directory can come to be
used, at once or when a context is resumed. -/
theorem Fresh.leads_to_stale {op : Op} (h : Fresh arch ncpu m) (hCpu : op.cpu < ncpu)
    (hSafe : ¬ Safe ncpu m op) (hNext : next arch env start m op = some m') :
    ∃ m'', System.Run (kernels arch env start ncpu) m' m'' ∧ Stale ncpu m'' := by
  cases op with
  | call i op =>
      obtain ⟨_, vme, hStep, rfl⟩ := next_call.mp hNext
      cases op with
      | protect as => exact absurd trivial hSafe
      | map as va pa prot => exact absurd trivial hSafe
      | unprotect as =>
          obtain ⟨s₀, hOwned⟩ := h.owned
          have hNull : m.vme.vm.mem as ≠ 0 := by
            obtain ⟨vm, hCall, _⟩ := Vme.step_eq_ok.mp hStep
            exact hOwned.ptr_ne_zero (Vme.unprotect_space hCall)
          have hHead : m.vme.vm.mem as ∈ (m.called (.unprotect as) vme).released :=
            List.mem_cons_self
          by_cases hCtx : ∃ s ∈ m.contexts, s.ctx.cr3 = m.vme.vm.mem as
          · obtain ⟨s, hs, hEq⟩ := hCtx
            have hIn : s ∈ (m.called (.unprotect as) vme).contexts := hs
            apply context_stale hCpu hIn
            · rw [hEq]
              exact hNull
            · rw [hEq]
              exact hHead
          · have hCore : ∃ j < ncpu, (m.core j).inHandler = false ∧
                (m.core j).cpu.cr3 = m.vme.vm.mem as := by
              by_contra hNone
              push Not at hCtx hNone
              exact hSafe ⟨hCtx, hNone⟩
            obtain ⟨j, hj, hOut, hEq⟩ := hCore
            refine ⟨_, System.Run.refl _, j, hj, hOut, ?_⟩
            show (m.core j).cpu.cr3 ∈ _
            rw [hEq]
            exact hHead
  | kcontext i kstack entry arg => exact absurd trivial hSafe
  | ucontext i as kstack entry => exact absurd trivial hSafe
  | drop i k => exact absurd trivial hSafe
  | exec i regs => exact absurd trivial hSafe
  | trap i irq errcode =>
      cases hNext
      have hSafe' : (m.core i).inHandler = true ∧ (m.core i).cpu.cr3 ∈ m.released := by
        simpa [Safe] using hSafe
      apply context_stale hCpu (s := _) List.mem_cons_self
      · intro hNull
        have hZero : (m.core i).cpu.cr3 = 0 := hNull
        exact h.nonzero (hZero ▸ hSafe'.2)
      · exact hSafe'.2
  | resume i k =>
      obtain ⟨_, s, hs, rfl⟩ := next_resume.mp hNext
      have hSafe' : s.ctx.cr3 = 0 ∧ (m.core i).cpu.cr3 ∈ m.released := by
        simpa [Safe, hs] using hSafe
      refine ⟨_, System.Run.refl _, i, hCpu, ?_, ?_⟩
      · simp [Machine.resume]
      · simp [Machine.resume, irqRestore_null hSafe'.1, hSafe'.2]

end

/--
**Runs without a released directory.**  In every run of a kernel that keeps
its side and whose steps are all safe, no CPU runs a thread on a page
directory that has been released.  The condition asks for no more than that:
from every step that is not safe, the kernel can go on to a state in which
one does.
-/
theorem directories_fresh (arch : Arch) (env : Pager) (start ncpu : Nat) (m₀ m : Machine)
    (hStarted : Started arch env m₀)
    (hRun : System.Run ((kernels arch env start ncpu).restrict (Safe ncpu)) m₀ m) :
    ¬ Stale ncpu m ∧
    ∀ op m', (kernels arch env start ncpu).next m op = some m' → ¬ Safe ncpu m op →
      ∃ m'', System.Run (kernels arch env start ncpu) m' m'' ∧ Stale ncpu m'' := by
  have h : Fresh arch ncpu m := by
    apply hRun.inv _ hStarted.fresh
    intro t op t' ht hNext
    obtain ⟨hSafe, hNext⟩ := System.restrict_next.mp hNext
    obtain ⟨_, hNext⟩ := System.restrict_next.mp hNext
    obtain ⟨hCpu, hNext⟩ := system_next.mp hNext
    exact ht.step hCpu hSafe hNext
  refine ⟨h.not_stale, ?_⟩
  intro op m' hNext hSafe
  obtain ⟨_, hNext⟩ := System.restrict_next.mp hNext
  obtain ⟨hCpu, hNext⟩ := system_next.mp hNext
  exact h.leads_to_stale hCpu hSafe hNext


/-- Two CPUs, and a kernel that keeps its side. -/
def twoKernels : System Machine Op := kernels .x86_64 Vme.steadyPager 0x200000 2

/-- A process is interrupted, and a new kernel thread runs in its place. -/
def threadRuns : List Op :=
  [ .call 0 (.protect 16)
  , .ucontext 0 16 ⟨0x300000, 0x308000⟩ 0x100000000000
  , .kcontext 0 ⟨0x308000, 0x310000⟩ 0x201000 0
  , .trap 0 0x81 0, .resume 0 2, .trap 0 32 0, .resume 0 2 ]

theorem directories_fresh_thread :
    ∃ m₀ m kstack, Started .x86_64 Vme.steadyPager m₀ ∧
      System.Run (twoKernels.restrict (Safe 2)) m₀ m ∧
      (m.core 0).task = .kthread kstack ∧ (m.core 0).cpu.cr3 = m.vme.vm.mem 16 ∧
      ¬ Stale 2 m := by
  have hRuns : (booted (twoKernels.restrict (Safe 2)) threadRuns).any
      (fun m => decide ((m.core 0).task = .kthread ⟨0x308000, 0x310000⟩) &&
        decide ((m.core 0).cpu.cr3 = m.vme.vm.mem 16)) = true := by
    decide +kernel
  obtain ⟨m, hm, hHere⟩ := (Option.any_eq_true _ _).mp hRuns
  obtain ⟨hTask, hCr3⟩ := (Bool.and_eq_true _ _).mp hHere
  obtain ⟨m₀, hStarted, hRun⟩ := booted_run hm
  exact ⟨m₀, m, _, hStarted, hRun, of_decide_eq_true hTask, of_decide_eq_true hCr3,
    (directories_fresh .x86_64 Vme.steadyPager 0x200000 2 m₀ m hStarted hRun).1⟩

/-- The thread is interrupted, and the kernel drops what the process left. -/
def processEnds : List Op :=
  threadRuns ++ [.trap 0 32 0, .drop 0 4, .drop 0 1]

/-- When the process has been released, the thread resumes and loads its page
directory, whose page is not in use any more. -/
theorem thread_on_released :
    ∃ m₀ m kstack, Started .x86_64 Vme.steadyPager m₀ ∧ System.Run twoKernels m₀ m ∧
      (m.core 0).task = .kthread kstack ∧ Stale 2 m ∧
      Vme.baseof .x86_64 (m.core 0).cpu.cr3 ∉ m.vme.vm.live := by
  have hRuns : (booted twoKernels processEnds).any (fun m =>
      decide (Dropped 2 m (.call 0 (.unprotect 16))) &&
      decide (16 ∈ m.vme.vm.spaces) &&
      decide (Vme.baseof .x86_64 (m.vme.vm.mem 16) ∈ m.vme.account 16) &&
      decide (¬ (m.core 0).cpu.User) && (m.core 0).inHandler &&
      (m.contexts[0]?).any fun s =>
        decide (s.task = .kthread ⟨0x308000, 0x310000⟩) &&
        decide (s.ctx.cr3 = m.vme.vm.mem 16)) = true := by
    decide +kernel
  obtain ⟨m, hm, hHere⟩ := (Option.any_eq_true _ _).mp hRuns
  simp only [Bool.and_eq_true, decide_eq_true_eq] at hHere
  obtain ⟨⟨⟨⟨⟨hDropped, hAs⟩, hRoot⟩, hKernel⟩, hIn⟩, hSaved⟩ := hHere
  obtain ⟨s, hs, hHere⟩ := (Option.any_eq_true _ _).mp hSaved
  simp only [Bool.and_eq_true, decide_eq_true_eq] at hHere
  obtain ⟨hTask, hCr3⟩ := hHere
  obtain ⟨m₀, hStarted, hRun⟩ := booted_run hm
  -- `unprotect` succeeds, and releases the directory
  obtain ⟨s₀, hOwned⟩ : ∃ s₀, Vme.Owned .x86_64 s₀ m.vme := by
    apply hRun.inv (P := fun m => ∃ s₀, Vme.Owned .x86_64 s₀ m.vme)
    · rintro t op t' ⟨s₀, ht⟩ hNext
      obtain ⟨_, hNext⟩ := System.restrict_next.mp hNext
      exact ⟨s₀, next_owned ht (system_next.mp hNext).2⟩
    · exact ⟨_, hStarted.1.owned⟩
  obtain ⟨vm, pages, hCall, hRel, _, hPerm⟩ := Vme.unprotect_runs Vme.steadyPager hOwned hAs
  have hStep := Vme.step_eq_ok.mpr ⟨vm, hCall, rfl⟩
  let m₁ := m.called (.unprotect 16) (m.vme.after (.unprotect 16) vm)
  have hUnprotect : twoKernels.next m (.call 0 (.unprotect 16)) = some m₁ :=
    System.restrict_next.mpr
      ⟨hDropped, system_next.mpr ⟨by decide, next_call.mpr ⟨hKernel, _, hStep, rfl⟩⟩⟩
  have hNull : s.ctx.cr3 ≠ 0 := by
    rw [hCr3]
    exact hOwned.ptr_ne_zero hAs
  have hResume : twoKernels.next m₁ (.resume 0 0) = some (m₁.resume .x86_64 0 s) :=
    System.restrict_next.mpr
      ⟨trivial, system_next.mpr ⟨by decide, next_resume.mpr ⟨hIn, s, hs, rfl⟩⟩⟩
  have hLoaded : ((m₁.resume .x86_64 0 s).core 0).cpu.cr3 = m.vme.vm.mem 16 := by
    simp [Machine.resume, irqRestore_cr3 hNull, hCr3]
  refine ⟨m₀, _, ⟨0x308000, 0x310000⟩, hStarted, (hRun.step _ hUnprotect).step _ hResume,
    ?_, ⟨0, by decide, ?_, ?_⟩, ?_⟩
  · simp [Machine.resume, hTask]
  · simp [Machine.resume]
  · rw [hLoaded]
    exact List.mem_cons_self
  · rw [hLoaded]
    intro hLive
    exact ((hRel.live _).mp hLive).2 (hPerm.mem_iff.mpr hRoot)

end AbstractMachine.X86.Cte
