import AbstractMachine.X86.Cte.System

/-!
# The kernel stack of a user task

A trap from user mode is taken on the stack that the task-state segment of
the CPU names.  `__am_irq_handle` saves the stack pointer there into every
context and loads it from every context that has a page directory.  For the
contexts of user mode it is always the one of their own task, so the CPU that
runs a user task, whichever it is, has the kernel stack of that task.
-/

namespace AbstractMachine.X86.Cte

open AbstractMachine.Lib
open AbstractMachine.X86.Vme (Pager)

/-- `cr3` and `sp0` are those of a process: a page directory, and the end of
its kernel stack. -/
def Serves (task : Task) (cr3 sp0 : Nat) : Prop :=
  ∃ as kstack, task = .process as kstack ∧ cr3 ≠ 0 ∧ sp0 = kstack.stop

/-- A context of user mode belongs to a process. -/
def Saved.Ok (s : Saved) : Prop :=
  UserSel s.ctx.cs → Serves s.task s.ctx.cr3 s.ctx.sp0

/-- A CPU in user mode runs a process, on whose kernel stack it will trap. -/
def Core.Ok (arch : Arch) (c : Core) : Prop :=
  c.cpu.User → Serves c.task c.cpu.cr3 c.cpu.sp0 ∧ (arch = .i386 → c.cpu.ss0 = ksel segKdata)

/-- The invariant: every saved user context has the kernel stack of its task. -/
structure StacksOk (arch : Arch) (m : Machine) : Prop where
  owned : ∃ s₀, Vme.Owned arch s₀ m.vme
  contexts : ∀ s ∈ m.contexts, s.Ok
  cores : ∀ i, (m.core i).Ok arch

section

variable {arch : Arch} {env : Pager} {start : Nat} {m m' : Machine}

/-! ## Contexts and CPUs -/

private theorem kcontext_ok (addr entry arg : Nat) (kstack : Area) :
    Saved.Ok ⟨addr, .kthread kstack, kcontext arch start kstack entry arg⟩ := by
  intro hUser
  rw [kcontext_cs] at hUser
  exact absurd hUser not_userSel_kcode

private theorem ucontext_ok {ptr : Nat} (hPtr : ptr ≠ 0) (addr as entry : Nat) (kstack : Area) :
    Saved.Ok ⟨addr, .process as kstack, ucontext arch ptr kstack entry⟩ := by
  intro _
  exact ⟨as, kstack, rfl, hPtr, ucontext_sp0 ptr kstack entry⟩

/-- A trap saves what the CPU has. -/
theorem Core.Ok.saved {c : Core} (h : c.Ok arch) (addr irq errcode : Nat) :
    Saved.Ok ⟨addr, c.task, irqSave arch c.cpu addr (c.cpu.trapFrame arch irq errcode)⟩ := by
  intro hUser
  rw [irqSave_cs] at hUser
  rw [irqSave_cr3, irqSave_sp0]
  exact (h hUser).1

/-- Kernel code is always right. -/
theorem Core.ok_kernel {c : Core} (h : c.cpu.cs = ksel segKcode) : c.Ok arch := by
  intro hUser
  have hSel : UserSel (ksel segKcode) := h ▸ hUser
  exact absurd hSel not_userSel_kcode

/-- A context that is resumed brings its stack along. -/
theorem Saved.Ok.resumed {s : Saved} (h : s.Ok) (cpu : Cpu) (inHandler : Bool) :
    Core.Ok arch ⟨iret arch s.ctx (irqRestore arch s.ctx cpu), s.task, inHandler⟩ := by
  intro hUser
  obtain ⟨as, kstack, hTask, hCr3, hSp0⟩ := h hUser
  constructor
  · refine ⟨as, kstack, hTask, ?_, ?_⟩
    · rw [iret_cr3, irqRestore_cr3 hCr3]
      exact hCr3
    · rw [iret_sp0, irqRestore_sp0 hCr3]
      exact hSp0
  · intro hArch
    rw [iret_ss0, irqRestore_ss0 hCr3 hArch]

theorem StacksOk.save {s : Saved} (h : StacksOk arch m) (hs : s.Ok) :
    StacksOk arch (m.save s) where
  owned := h.owned
  contexts := by
    intro t ht
    rw [save_contexts, List.mem_cons] at ht
    rcases ht with rfl | ht
    · exact hs
    · exact h.contexts t ht
  cores := h.cores

theorem StacksOk.setCore {i : Nat} {c : Core} (h : StacksOk arch m) (hc : c.Ok arch) :
    StacksOk arch (m.setCore i c) where
  owned := h.owned
  contexts := h.contexts
  cores := by
    intro j
    rw [setCore_core]
    by_cases hj : j = i
    · rw [hj, Function.update_self]
      exact hc
    · rw [Function.update_of_ne hj]
      exact h.cores j

/-! ## Every run -/

/-- One step keeps the invariant. -/
theorem StacksOk.step {op : Op} (h : StacksOk arch m)
    (hNext : next arch env start m op = some m') : StacksOk arch m' := by
  obtain ⟨s₀, hOwned⟩ := h.owned
  cases op with
  | call i op =>
      obtain ⟨_, vme, hStep, rfl⟩ := next_call.mp hNext
      exact
        { owned := ⟨s₀, hOwned.step (Vme.step_touches hOwned hStep)⟩
          contexts := h.contexts
          cores := h.cores }
  | kcontext i kstack entry arg =>
      obtain ⟨_, rfl⟩ := next_kcontext.mp hNext
      apply h.save
      apply kcontext_ok
  | ucontext i as kstack entry =>
      obtain ⟨_, hAs, rfl⟩ := next_ucontext.mp hNext
      apply h.save
      apply ucontext_ok (hOwned.ptr_ne_zero hAs)
  | drop i k =>
      obtain ⟨_, rfl⟩ := next_drop.mp hNext
      exact
        { owned := h.owned
          contexts := fun s hs => h.contexts s (List.mem_of_mem_eraseIdx hs)
          cores := h.cores }
  | exec i regs =>
      cases hNext
      -- user code cannot change `cs`, `cr3` or the task-state segment
      apply h.setCore
      exact h.cores i
  | trap i irq errcode =>
      cases hNext
      apply StacksOk.setCore
      · apply h.save
        exact (h.cores i).saved _ irq errcode
      · exact Core.ok_kernel rfl
  | resume i k =>
      obtain ⟨_, s, hs, rfl⟩ := next_resume.mp hNext
      apply h.setCore
      exact (h.contexts s (List.mem_of_getElem? hs)).resumed _ false

theorem Started.stacksOk (h : Started arch env m) : StacksOk arch m := by
  obtain ⟨hBoot, hNone, _, hCores⟩ := h
  exact
    { owned := ⟨_, hBoot.owned⟩
      contexts := by
        rw [hNone]
        intro s hs
        exact absurd hs List.not_mem_nil
      cores := fun i => Core.ok_kernel (hCores i).1 }

end

/--
**Every user task traps on its own kernel stack.**  In every state the system
reaches, a CPU in user mode runs a task made by `ucontext`, its `tss` holds
the end of the kernel stack given there, and on i386 the kernel's data
segment; this is the stack the next trap uses.
-/
theorem user_kernel_stack (arch : Arch) (env : Pager) (start ncpu : Nat) (m : Machine)
    (hReach : (system arch env start ncpu).Reachable m) (i : Nat) (hUser : (m.core i).cpu.User) :
    ∃ as kstack, (m.core i).task = .process as kstack ∧
      (m.core i).cpu.sp0 = kstack.stop ∧
      (arch = .i386 → (m.core i).cpu.trapStack = (ksel segKdata, kstack.stop)) ∧
      (m.core i).cpu.trapStack.2 = kstack.stop := by
  have h : StacksOk arch m := by
    apply hReach.inv (fun m hInit => Started.stacksOk hInit)
    intro m op m' hm hNext
    exact hm.step (system_next.mp hNext).2
  obtain ⟨⟨as, kstack, hTask, _, hSp0⟩, hSs0⟩ := h.cores i hUser
  have hStack : (m.core i).cpu.trapStack = ((m.core i).cpu.ss0, (m.core i).cpu.sp0) := by
    unfold Cpu.trapStack
    rw [if_pos hUser]
  refine ⟨as, kstack, hTask, hSp0, ?_, ?_⟩
  · intro hArch
    rw [hStack, hSs0 hArch, hSp0]
  · rw [hStack]
    exact hSp0

/-- The boot code enters a user program, which traps; another CPU resumes it. -/
theorem user_kernel_stack_migrates :
    ∃ m as kstack, (system .x86_64 Vme.steadyPager 0x200000 2).Reachable m ∧
      (m.core 1).task = .process as kstack ∧ (m.core 1).cpu.trapStack.2 = kstack.stop := by
  have hRuns : (booted (system .x86_64 Vme.steadyPager 0x200000 2)
      [ .call 0 (.protect 16), .ucontext 0 16 ⟨0x300000, 0x308000⟩ 0x100000000000
      , .trap 0 0x81 0, .resume 0 1, .trap 0 32 0, .trap 1 32 0, .resume 1 1 ]).any
        (fun m => decide (m.core 1).cpu.User) = true := by
    decide +kernel
  obtain ⟨m, hm, hUser⟩ := (Option.any_eq_true _ _).mp hRuns
  have hReach : (system .x86_64 Vme.steadyPager 0x200000 2).Reachable m := booted_run hm
  obtain ⟨as, kstack, hTask, _, _, hStack⟩ := user_kernel_stack .x86_64 Vme.steadyPager
    0x200000 2 m hReach 1 (of_decide_eq_true hUser)
  exact ⟨m, as, kstack, hReach, hTask, hStack⟩

end AbstractMachine.X86.Cte
