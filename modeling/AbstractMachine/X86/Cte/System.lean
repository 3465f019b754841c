import AbstractMachine.X86.Cte.Model
import AbstractMachine.X86.Vme.Isolation

/-!
# CPUs, tasks and contexts

The system after `cte_init` and `vme_init`: any number of CPUs run kernel
code and user programs, take traps, and resume whatever context the user
handler returns.  A handler is not modelled as a function: inside a trap the
kernel may make any calls and return any context that it has not dropped,
its own or one of another task, fresh or saved, on any CPU.

Next to each context the model records the task it was made for or saved
from, and with each CPU the task it runs.  The list `released` holds the
`as->ptr` that `unprotect` was called with, until `protect` returns the same
page directory again.
-/

namespace AbstractMachine.X86.Cte

open AbstractMachine.Lib
open AbstractMachine.X86.Vme (Pager)

/-- What a CPU executes on behalf of. -/
inductive Task where
  /-- The code that runs on each CPU from the start. -/
  | boot
  /-- Made by `kcontext`. -/
  | kthread (kstack : Area)
  /-- Made by `ucontext`; `as` is the address of the `ptr` field. -/
  | process (as : Nat) (kstack : Area)
  deriving DecidableEq

/-- A context in memory. -/
structure Saved where
  addr : Nat
  task : Task
  ctx : Context

/-- A CPU with the task it runs; `inHandler` between the trap and the return
of the user handler. -/
structure Core where
  cpu : Cpu
  task : Task
  inHandler : Bool

/-- The tables, the CPUs, the contexts in memory, and the directories released so far. -/
structure Machine where
  vme : Vme.Machine
  core : Nat → Core
  contexts : List Saved
  released : List Nat

/-- A step of the CPU `i`.  `kcontext`, `ucontext` and the calls of `vme.c`
are made by kernel code; `exec` stands for any code that leaves the
privileged state alone; contexts are named by their place in the list. -/
inductive Op where
  | call (i : Nat) (op : Vme.Op)
  | kcontext (i : Nat) (kstack : Area) (entry arg : Nat)
  | ucontext (i as : Nat) (kstack : Area) (entry : Nat)
  | drop (i k : Nat)
  | exec (i : Nat) (regs : Registers)
  | trap (i irq errcode : Nat)
  | resume (i k : Nat)

/-- The CPU that takes the step. -/
def Op.cpu : Op → Nat
  | .call i _ => i
  | .kcontext i _ _ _ => i
  | .ucontext i _ _ _ => i
  | .drop i _ => i
  | .exec i _ => i
  | .trap i _ _ => i
  | .resume i _ => i

/-! ## Steps -/

/-- The released directories after a call. -/
def Machine.releasedAfter (m : Machine) (vme : Vme.Machine) : Vme.Op → List Nat
  | .protect as => m.released.filter (· ≠ vme.vm.mem as)
  | .map _ _ _ _ => m.released
  | .unprotect as => m.vme.vm.mem as :: m.released

/-- After a call of `vme.c`. -/
def Machine.called (m : Machine) (op : Vme.Op) (vme : Vme.Machine) : Machine :=
  { m with vme := vme, released := m.releasedAfter vme op }

/-- A context is added; it becomes number 0. -/
def Machine.save (m : Machine) (s : Saved) : Machine :=
  { m with contexts := s :: m.contexts }

/-- CPU `i` replaced. -/
def Machine.setCore (m : Machine) (i : Nat) (c : Core) : Machine :=
  { m with core := Function.update m.core i c }

/-- `trap` and the first half of `__am_irq_handle`: the context is saved and
the user handler starts. -/
def Machine.enterTrap (m : Machine) (arch : Arch) (i irq errcode : Nat) : Machine :=
  let c := m.core i
  let addr := c.cpu.trapFrameAddr arch
  let ctx := irqSave arch c.cpu addr (c.cpu.trapFrame arch irq errcode)
  (m.save ⟨addr, c.task, ctx⟩).setCore i
    { c with cpu := c.cpu.enter arch, inHandler := true }

/-- The second half of `__am_irq_handle`, after the user handler has
returned `s`, and `__am_iret`. -/
def Machine.resume (m : Machine) (arch : Arch) (i : Nat) (s : Saved) : Machine :=
  m.setCore i
    { cpu := iret arch s.ctx (irqRestore arch s.ctx (m.core i).cpu)
      task := s.task
      inHandler := false }

/-- One step; `start` is the address of `__am_kcontext_start`. -/
def next (arch : Arch) (env : Pager) (start : Nat) (m : Machine) : Op → Option Machine
  | .call i op =>
      if (m.core i).cpu.User then none
      else
        match Vme.step arch env m.vme op with
        | .ok vme => some (m.called op vme)
        | .error _ => none
  | .kcontext i kstack entry arg =>
      if (m.core i).cpu.User then none
      else some (m.save
        ⟨contextAddr arch kstack, .kthread kstack, kcontext arch start kstack entry arg⟩)
  | .ucontext i as kstack entry =>
      if (m.core i).cpu.User ∨ as ∉ m.vme.vm.spaces then none
      else some (m.save
        ⟨contextAddr arch kstack, .process as kstack,
          ucontext arch (m.vme.vm.mem as) kstack entry⟩)
  | .drop i k =>
      if (m.core i).cpu.User then none
      else some { m with contexts := m.contexts.eraseIdx k }
  | .exec i regs =>
      some (m.setCore i { m.core i with cpu := { (m.core i).cpu with regs := regs } })
  | .trap i irq errcode => some (m.enterTrap arch i irq errcode)
  | .resume i k =>
      if (m.core i).inHandler then (m.contexts[k]?).map (m.resume arch i) else none

/-- Every CPU runs kernel code, and there are no address spaces and no
contexts yet. -/
def Started (arch : Arch) (env : Pager) (m : Machine) : Prop :=
  Vme.Booted arch env m.vme ∧ m.contexts = [] ∧ m.released = [] ∧
    ∀ i, (m.core i).cpu.cs = ksel segKcode ∧ (m.core i).task = .boot ∧
      (m.core i).inHandler = false

/-- The system with `ncpu` CPUs. -/
def system (arch : Arch) (env : Pager) (start ncpu : Nat) : System Machine Op where
  init := Started arch env
  next m op := if op.cpu < ncpu then next arch env start m op else none

/-! ## What a step can do -/

section

variable {arch : Arch} {env : Pager} {start ncpu : Nat} {m m' : Machine}

theorem system_next {op : Op} :
    (system arch env start ncpu).next m op = some m' ↔
      op.cpu < ncpu ∧ next arch env start m op = some m' := by
  show (if op.cpu < ncpu then next arch env start m op else none) = some m' ↔ _
  by_cases h : op.cpu < ncpu <;> simp [h]

@[simp] theorem save_contexts (s : Saved) : (m.save s).contexts = s :: m.contexts := rfl
@[simp] theorem save_core (s : Saved) : (m.save s).core = m.core := rfl
@[simp] theorem save_vme (s : Saved) : (m.save s).vme = m.vme := rfl
@[simp] theorem save_released (s : Saved) : (m.save s).released = m.released := rfl

@[simp] theorem setCore_contexts (i : Nat) (c : Core) :
    (m.setCore i c).contexts = m.contexts := rfl
@[simp] theorem setCore_vme (i : Nat) (c : Core) : (m.setCore i c).vme = m.vme := rfl
@[simp] theorem setCore_released (i : Nat) (c : Core) :
    (m.setCore i c).released = m.released := rfl
@[simp] theorem setCore_core (i : Nat) (c : Core) :
    (m.setCore i c).core = Function.update m.core i c := rfl

@[simp] theorem called_contexts (op : Vme.Op) (vme : Vme.Machine) :
    (m.called op vme).contexts = m.contexts := rfl
@[simp] theorem called_core (op : Vme.Op) (vme : Vme.Machine) :
    (m.called op vme).core = m.core := rfl
@[simp] theorem called_vme (op : Vme.Op) (vme : Vme.Machine) :
    (m.called op vme).vme = vme := rfl

theorem next_call {i : Nat} {op : Vme.Op} :
    next arch env start m (.call i op) = some m' ↔
      ¬ (m.core i).cpu.User ∧ ∃ vme, Vme.step arch env m.vme op = .ok vme ∧
        m' = m.called op vme := by
  rw [next]
  by_cases hUser : (m.core i).cpu.User
  · simp [hUser]
  · rw [if_neg hUser]
    cases Vme.step arch env m.vme op with
    | error e => simp
    | ok vme => simp [hUser, eq_comm]

theorem next_ucontext {i as entry : Nat} {kstack : Area} :
    next arch env start m (.ucontext i as kstack entry) = some m' ↔
      ¬ (m.core i).cpu.User ∧ as ∈ m.vme.vm.spaces ∧
        m' = m.save ⟨contextAddr arch kstack, .process as kstack,
          ucontext arch (m.vme.vm.mem as) kstack entry⟩ := by
  rw [next]
  by_cases h : (m.core i).cpu.User ∨ as ∉ m.vme.vm.spaces
  · rw [if_pos h]
    constructor
    · intro hNone
      cases hNone
    · intro hSome
      exact absurd h (by simp [hSome.1, hSome.2.1])
  · rw [if_neg h]
    simp only [not_or, not_not] at h
    simp [h, eq_comm]

theorem next_kcontext {i entry arg : Nat} {kstack : Area} :
    next arch env start m (.kcontext i kstack entry arg) = some m' ↔
      ¬ (m.core i).cpu.User ∧ m' = m.save ⟨contextAddr arch kstack, .kthread kstack,
        kcontext arch start kstack entry arg⟩ := by
  rw [next]
  by_cases h : (m.core i).cpu.User
  · simp [h]
  · simp [h, eq_comm]

theorem next_drop {i k : Nat} :
    next arch env start m (.drop i k) = some m' ↔
      ¬ (m.core i).cpu.User ∧ m' = { m with contexts := m.contexts.eraseIdx k } := by
  rw [next]
  by_cases h : (m.core i).cpu.User
  · simp [h]
  · simp [h, eq_comm]

theorem next_resume {i k : Nat} :
    next arch env start m (.resume i k) = some m' ↔
      (m.core i).inHandler = true ∧ ∃ s, m.contexts[k]? = some s ∧
        m' = m.resume arch i s := by
  rw [next]
  by_cases h : (m.core i).inHandler = true
  · rw [if_pos h, Option.map_eq_some_iff]
    simp only [h, true_and, eq_comm]
  · simp [h]

/-- The address spaces stay apart, whatever the CPUs do. -/
theorem next_owned {s₀ : Vme.VM} {op : Op} (h : Vme.Owned arch s₀ m.vme)
    (hNext : next arch env start m op = some m') : Vme.Owned arch s₀ m'.vme := by
  cases op with
  | call i op =>
      obtain ⟨_, vme, hStep, rfl⟩ := next_call.mp hNext
      exact h.step (Vme.step_touches h hStep)
  | kcontext i kstack entry arg =>
      obtain ⟨_, rfl⟩ := next_kcontext.mp hNext
      exact h
  | ucontext i as kstack entry =>
      obtain ⟨_, _, rfl⟩ := next_ucontext.mp hNext
      exact h
  | drop i k =>
      obtain ⟨_, rfl⟩ := next_drop.mp hNext
      exact h
  | exec i regs =>
      cases hNext
      exact h
  | trap i irq errcode =>
      cases hNext
      exact h
  | resume i k =>
      obtain ⟨_, s, _, rfl⟩ := next_resume.mp hNext
      exact h

end

/-! ## A booted machine -/

/-- All registers zero. -/
def Registers.zero : Registers where
  gpr := fun _ => 0
  ip := 0
  flags := 0
  sp := 0
  ss := 0
  ds := 0

/-- Every CPU in its boot code, with the page directory of the kernel. -/
def bootCore (kpt : Nat) : Core where
  cpu := { regs := Registers.zero, cs := ksel segKcode, cr3 := kpt, sp0 := 0, ss0 := 0 }
  task := .boot
  inHandler := false

/-- An x86_64 machine with zeroed memory, after some steps of `S`. -/
def booted (S : System Machine Op) (ops : List Op) : Option Machine :=
  Vme.bootMachine.bind fun vme =>
    S.steps
      { vme := vme, core := fun _ => bootCore vme.vm.kpt, contexts := [], released := [] } ops

theorem booted_run {S : System Machine Op} {m : Machine} {ops : List Op}
    (h : booted S ops = some m) :
    ∃ m₀, Started .x86_64 Vme.steadyPager m₀ ∧ System.Run S m₀ m := by
  obtain ⟨vme, hBoot, hSteps⟩ := Option.bind_eq_some_iff.mp h
  exact ⟨_, ⟨Vme.bootMachine_booted hBoot, rfl, rfl, fun _ => ⟨rfl, rfl, rfl⟩⟩,
    System.steps_run _ _ hSteps⟩

end AbstractMachine.X86.Cte
