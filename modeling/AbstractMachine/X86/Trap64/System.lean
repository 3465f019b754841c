import AbstractMachine.Lib.Simulation
import AbstractMachine.X86.Cte.System
import AbstractMachine.X86.Trap64.Context

/-!
# CPUs and tasks on x86_64

The system of CPUs, tasks and contexts again, with every context where it is: in the
memory that the trap code, `__am_irq_handle`, `kcontext` and `ucontext` write and
`__am_iret` reads, and that all CPUs share.  Code may do what it likes to that memory
except for the contexts in use, and a trap needs the room for its frame.  The page
tables stay in the memory of the model of `vme.c`.

## Main results

* `machine_refines` -- the contexts are the values that the model of `cte.c` says,
  whatever the CPUs do.
-/

namespace AbstractMachine.X86.Trap64

open AbstractMachine.Lib
open AbstractMachine.Lib.ByteMem
open AbstractMachine.X86.Vme (Pager)
open AbstractMachine.X86.Trap32 (pushesErrorCode kselKcode)

/-! ## The machine -/

/-- A context in use, and the task it belongs to. -/
structure Saved where
  addr : Word
  task : Cte.Task

/-- A CPU with the task it runs; `inHandler` between the trap and the return of the user
handler. -/
structure Cpu where
  core : Core
  task : Cte.Task
  inHandler : Bool

/-- The tables, the bytes of memory, the CPUs, and the contexts that are in use. -/
structure Machine where
  vme : Vme.Machine
  mem : Mem
  cpu : Nat → Cpu
  contexts : List Saved
  released : List Nat

/-- A step of the CPU `i`; `base` and `kend` are the ends of a kernel stack. -/
inductive Op where
  | call (i : Nat) (op : Vme.Op)
  | kcontext (i : Nat) (base kend entry arg : Word)
  | ucontext (i as : Nat) (base kend entry : Word)
  /-- The context is not in use any more. -/
  | drop (i k : Nat)
  /-- Any code. -/
  | exec (i : Nat) (core : Core) (mem : Mem)
  | trap (i : Nat) (vector : Fin 256) (errcode : Option Word)
  | resume (i k : Nat)

/-- The CPU that takes the step. -/
def Op.cpu : Op → Nat
  | .call i _ => i
  | .kcontext i _ _ _ _ => i
  | .ucontext i _ _ _ _ => i
  | .drop i _ => i
  | .exec i _ _ => i
  | .trap i _ _ => i
  | .resume i _ => i

/-! ## The model of `cte.c` -/

/-- The context in memory as `X86.Cte` has it. -/
def Saved.abs (m : Mem) (s : Saved) : Cte.Saved where
  addr := s.addr.toNat
  task := s.task
  ctx := contextAt m s.addr

/-- The CPU as `X86.Cte` has it. -/
def Cpu.abs (c : Cpu) : Cte.Core where
  cpu := c.core.cpu
  task := c.task
  inHandler := c.inHandler

/-- The machine with its contexts as values. -/
def Machine.abs (m : Machine) : Cte.Machine where
  vme := m.vme
  core := fun i => (m.cpu i).abs
  contexts := m.contexts.map (Saved.abs m.mem)
  released := m.released

/-! ## Steps -/

/-- No context in use reaches into the block. -/
def Machine.Clear (m : Machine) (a : Word) (n : Nat) : Prop :=
  ∀ s ∈ m.contexts, n ≤ (s.addr - a).toNat ∧ sizeofContext ≤ (a - s.addr).toNat

/-- No context in use is written. -/
def Machine.Spares (m : Machine) (mem : Mem) : Prop :=
  ∀ s ∈ m.contexts, ∀ o < sizeofContext,
    mem (s.addr + BitVec.ofNat 64 o) = m.mem (s.addr + BitVec.ofNat 64 o)

instance (m : Machine) (a : Word) (n : Nat) : Decidable (m.Clear a n) := by
  unfold Machine.Clear
  infer_instance

instance (m : Machine) (mem : Mem) : Decidable (m.Spares mem) := by
  unfold Machine.Spares
  infer_instance

/-- CPU `i` replaced. -/
def Machine.setCpu (m : Machine) (i : Nat) (c : Cpu) : Machine :=
  { m with cpu := Function.update m.cpu i c }

/-- What the CPU `i` sees. -/
def Machine.state (m : Machine) (i : Nat) : State := { core := (m.cpu i).core, mem := m.mem }

/-- The CPU `i` is in user mode. -/
def Machine.User (m : Machine) (i : Nat) : Prop := (m.cpu i).core.cpu.User

instance (m : Machine) (i : Nat) : Decidable (m.User i) := by
  unfold Machine.User
  infer_instance

/-- A context has been written to memory. -/
def Machine.save (m : Machine) (s : Saved) (mem : Mem) : Machine :=
  { m with mem := mem, contexts := s :: m.contexts }

/-- Where a fresh context is put. -/
def contextAddr (kend : Word) : Word := kend - BitVec.ofNat 64 sizeofContext

/-- There is room for a context on the stack. -/
def Machine.Room (m : Machine) (base kend : Word) : Prop :=
  base.toNat + sizeofContext ≤ kend.toNat ∧ m.Clear (contextAddr kend) sizeofContext

instance (m : Machine) (base kend : Word) : Decidable (m.Room base kend) := by
  unfold Machine.Room
  infer_instance

/-- The trap, and `__am_irq_handle` up to the call of the user handler; `ret` is the
address behind its call. -/
def Machine.enterTrap (m : Machine) (ret : Word) (i : Nat) (vector : Fin 256)
    (errcode : Option Word) : Machine :=
  let t := enterHandle vector errcode ret (m.state i)
  let tf := t.reg (.gpr .rdi)
  (m.save ⟨tf, (m.cpu i).task⟩ (irqSave t.core tf t.mem)).setCpu i
    { m.cpu i with core := t.core, inHandler := true }

/-- The way back, with the context that the user handler has returned. -/
def Machine.resume (m : Machine) (i : Nat) (s : Saved) : Machine :=
  let t := runIret ((irqRestore s.addr (m.state i)).set (.gpr .rdi) s.addr)
  { m with mem := t.mem }.setCpu i { core := t.core, task := s.task, inHandler := false }

/-- One step; `start` is the address of `__am_kcontext_start`. -/
def next (env : Pager) (start ret : Word) (m : Machine) : Op → Option Machine
  | .call i op =>
      if m.User i then none
      else
        match Vme.step .x86_64 env m.vme op with
        | .ok vme => some { m with vme := vme, released := m.abs.releasedAfter vme op }
        | .error _ => none
  | .kcontext i base kend entry arg =>
      if ¬ m.User i ∧ m.Room base kend then
        some (m.save ⟨contextAddr kend, .kthread ⟨base.toNat, kend.toNat⟩⟩
          (kcontext start kend entry arg m.mem))
      else none
  | .ucontext i as base kend entry =>
      -- `as->ptr` is a word
      if ¬ m.User i ∧ as ∈ m.vme.vm.spaces ∧ m.vme.vm.mem as < 2 ^ 64 ∧
          m.Room base kend then
        some (m.save ⟨contextAddr kend, .process as ⟨base.toNat, kend.toNat⟩⟩
          (ucontext (BitVec.ofNat 64 (m.vme.vm.mem as)) kend entry m.mem))
      else none
  | .drop _ k => some { m with contexts := m.contexts.eraseIdx k }
  | .exec i core mem =>
      -- the registers that only the code above changes
      if core.seg .cs = (m.cpu i).core.seg .cs ∧ core.cr3 = (m.cpu i).core.cr3 ∧
          core.rsp0 = (m.cpu i).core.rsp0 ∧ m.Spares mem then
        some ({ m with mem := mem }.setCpu i { m.cpu i with core := core })
      else none
  | .trap i vector errcode =>
      -- the frame, and the return address below it
      if errcode.isSome = pushesErrorCode vector ∧
          m.Clear ((m.cpu i).core.frame - 8) (8 + sizeofTrapFrame) then
        some (m.enterTrap ret i vector errcode)
      else none
  | .resume i k =>
      if (m.cpu i).inHandler then
        match m.contexts[k]? with
        | some s => if s.addr = 0 then none else some (m.resume i s)
        | none => none
      else none

/-- As in the model of `cte.c`. -/
def Started (env : Pager) (m : Machine) : Prop := Cte.Started .x86_64 env m.abs

/-- The system with `ncpu` CPUs. -/
def system (env : Pager) (start ret : Word) (ncpu : Nat) : System Machine Op where
  init := Started env
  next m op := if op.cpu < ncpu then next env start ret m op else none

/-! ## What a step can do -/

section

variable {env : Pager} {start ret : Word} {ncpu i k : Nat} {m m' : Machine} {op : Op}

theorem system_next :
    (system env start ret ncpu).next m op = some m' ↔
      op.cpu < ncpu ∧ next env start ret m op = some m' := by
  show (if op.cpu < ncpu then next env start ret m op else none) = some m' ↔ _
  by_cases h : op.cpu < ncpu <;> simp [h]

theorem next_call {op : Vme.Op} :
    next env start ret m (.call i op) = some m' ↔
      ¬ m.User i ∧ ∃ vme, Vme.step .x86_64 env m.vme op = .ok vme ∧
        m' = { m with vme := vme, released := m.abs.releasedAfter vme op } := by
  rw [next]
  by_cases hUser : m.User i
  · simp [hUser]
  · rw [if_neg hUser]
    cases Vme.step .x86_64 env m.vme op with
    | error e => simp
    | ok vme => simp [hUser, eq_comm]

theorem next_kcontext {base kend entry arg : Word} :
    next env start ret m (.kcontext i base kend entry arg) = some m' ↔
      (¬ m.User i ∧ m.Room base kend) ∧
        m' = m.save ⟨contextAddr kend, .kthread ⟨base.toNat, kend.toNat⟩⟩
          (kcontext start kend entry arg m.mem) := by
  rw [next, Option.ite_none_right_eq_some, Option.some.injEq, eq_comm (a := m')]

theorem next_ucontext {as : Nat} {base kend entry : Word} :
    next env start ret m (.ucontext i as base kend entry) = some m' ↔
      (¬ m.User i ∧ as ∈ m.vme.vm.spaces ∧ m.vme.vm.mem as < 2 ^ 64 ∧
        m.Room base kend) ∧
        m' = m.save ⟨contextAddr kend, .process as ⟨base.toNat, kend.toNat⟩⟩
          (ucontext (BitVec.ofNat 64 (m.vme.vm.mem as)) kend entry m.mem) := by
  rw [next, Option.ite_none_right_eq_some, Option.some.injEq, eq_comm (a := m')]

theorem next_exec {core : Core} {mem : Mem} :
    next env start ret m (.exec i core mem) = some m' ↔
      (core.seg .cs = (m.cpu i).core.seg .cs ∧ core.cr3 = (m.cpu i).core.cr3 ∧
        core.rsp0 = (m.cpu i).core.rsp0 ∧ m.Spares mem) ∧
        m' = { m with mem := mem }.setCpu i { m.cpu i with core := core } := by
  rw [next, Option.ite_none_right_eq_some, Option.some.injEq, eq_comm (a := m')]

theorem next_trap {vector : Fin 256} {errcode : Option Word} :
    next env start ret m (.trap i vector errcode) = some m' ↔
      (errcode.isSome = pushesErrorCode vector ∧
        m.Clear ((m.cpu i).core.frame - 8) (8 + sizeofTrapFrame)) ∧
        m' = m.enterTrap ret i vector errcode := by
  rw [next, Option.ite_none_right_eq_some, Option.some.injEq, eq_comm (a := m')]

theorem next_resume :
    next env start ret m (.resume i k) = some m' ↔
      (m.cpu i).inHandler = true ∧
        ∃ s, m.contexts[k]? = some s ∧ s.addr ≠ 0 ∧ m' = m.resume i s := by
  rw [next]
  by_cases h : (m.cpu i).inHandler = true
  · rw [if_pos h]
    cases m.contexts[k]? with
    | none =>
        constructor
        · intro hNone
          cases hNone
        · rintro ⟨-, s, hs, -⟩
          cases hs
    | some s =>
        dsimp only
        rw [Option.ite_none_left_eq_some, Option.some.injEq]
        constructor
        · rintro ⟨hNull, rfl⟩
          exact ⟨h, s, rfl, hNull, rfl⟩
        · rintro ⟨-, s', hs', hNull, rfl⟩
          cases hs'
          exact ⟨hNull, rfl⟩
  · rw [if_neg h]
    constructor
    · intro hNone
      cases hNone
    · intro hSome
      exact absurd hSome.1 h

/-! ## Contexts that stay -/

variable {mem : Mem} {s : Saved} {a : Word} {n : Nat}

/-- All contexts in use have the bytes that they had. -/
def Machine.Same (m : Machine) (mem : Mem) : Prop :=
  ∀ s ∈ m.contexts, ∀ x, InBlock s.addr sizeofContext x → mem x = m.mem x

theorem Machine.Clear.same (h : m.Clear a n)
    (hOut : ∀ x, ¬ InBlock a n x → mem x = m.mem x) : m.Same mem := by
  intro s hs x hx
  obtain ⟨hAbove, hBelow⟩ := h s hs
  exact hOut x ((apart_of_sub hAbove hBelow).symm x hx)

theorem Machine.Spares.same (h : m.Spares mem) : m.Same mem := by
  intro s hs x hx
  have hByte := h s hs (x - s.addr).toNat hx
  rw [offset_toNat] at hByte
  exact hByte

theorem Machine.Same.contextAt (h : m.Same mem) (hs : s ∈ m.contexts) :
    contextAt mem s.addr = contextAt m.mem s.addr := contextAt_congr (h s hs)

/-- The segments of all contexts in use fit into their registers. -/
def Machine.Fits (m : Machine) : Prop := ∀ s ∈ m.contexts, Selectors (Trap64.contextAt m.mem s.addr)

theorem Machine.Fits.save (h : m.Fits) (hSame : m.Same mem)
    (hs : Selectors (Trap64.contextAt mem s.addr)) : (m.save s mem).Fits := by
  intro t ht
  rcases List.mem_cons.mp ht with rfl | ht
  · exact hs
  · show Selectors (Trap64.contextAt mem t.addr)
    rw [hSame.contextAt ht]
    exact h t ht

/-! ## Fresh contexts -/

theorem kcontext_same {base kend : Word} (hRoom : m.Room base kend) (start entry arg : Word) :
    m.Same (kcontext start kend entry arg m.mem) :=
  hRoom.2.same fun _ hx => kcontext_outside _ _ _ _ _ hx

theorem ucontext_same {base kend : Word} (hRoom : m.Room base kend) (ptr entry : Word) :
    m.Same (ucontext ptr kend entry m.mem) :=
  hRoom.2.same fun _ hx => ucontext_outside _ _ _ _ hx

theorem Machine.Room.toNat_addr {base kend : Word} (h : m.Room base kend) :
    (contextAddr kend).toNat = kend.toNat - sizeofContext := by
  have hFit : sizeofContext ≤ kend.toNat := Nat.le_trans (Nat.le_add_left ..) h.1
  unfold contextAddr
  rw [BitVec.toNat_sub_of_le]
  · rfl
  · exact hFit

theorem kcontext_selectors (entry arg : Nat) (start : Nat) (kstack : Cte.Area) :
    Selectors (Cte.kcontext .x86_64 start kstack entry arg) := by
  have hLt : ksel segKcode < 2 ^ 16 := by decide
  exact ⟨hLt, Nat.two_pow_pos 16⟩

theorem ucontext_selectors (ptr entry : Nat) (kstack : Cte.Area) :
    Selectors (Cte.ucontext .x86_64 ptr kstack entry) := by
  have hCode : usel segUcode < 2 ^ 16 := by decide
  have hData : usel segUdata < 2 ^ 16 := by decide
  exact ⟨hCode, hData⟩

/-! ## Traps -/

/-- The memory at the call of the user handler. -/
def Machine.trapMem (m : Machine) (ret : Word) (i : Nat) (vector : Fin 256)
    (errcode : Option Word) : Mem :=
  let t := enterHandle vector errcode ret (m.state i)
  irqSave t.core (m.cpu i).core.frame t.mem

section

variable {vector : Fin 256} {errcode : Option Word}

theorem enterTrap_eq (hErr : errcode.isSome = pushesErrorCode vector) :
    m.enterTrap ret i vector errcode =
      (m.save ⟨(m.cpu i).core.frame, (m.cpu i).task⟩ (m.trapMem ret i vector errcode)).setCpu i
        { m.cpu i with
          core := (enterHandle vector errcode ret (m.state i)).core
          inHandler := true } := by
  have hTf : (enterHandle vector errcode ret (m.state i)).reg (.gpr .rdi) =
      (m.cpu i).core.frame := (enter_frame hErr ret (m.state i)).rdi
  unfold Machine.enterTrap Machine.trapMem
  dsimp only
  rw [hTf]

theorem trapMem_same (ret : Word) (hErr : errcode.isSome = pushesErrorCode vector)
    (hClear : m.Clear ((m.cpu i).core.frame - 8) (8 + sizeofTrapFrame)) :
    m.Same (m.trapMem ret i vector errcode) := by
  apply hClear.same
  intro x hx
  have hCtx : ¬ InBlock (m.cpu i).core.frame sizeofContext x := by
    intro hIn
    have hGrown := inBlock_grown (k := 8) hIn (by decide)
    exact hx (Nat.lt_of_lt_of_le hGrown (by decide))
  unfold Machine.trapMem
  rw [irqSave_outside _ _ hCtx]
  exact (enter_frame hErr ret (m.state i)).outside x hx

theorem trapMem_context (m : Machine) (ret : Word) (i : Nat)
    (hErr : errcode.isSome = pushesErrorCode vector) (addr : Nat) :
    contextAt (m.trapMem ret i vector errcode) (m.cpu i).core.frame =
      Cte.irqSave .x86_64 (m.cpu i).core.cpu addr
        ((m.cpu i).core.cpu.trapFrame .x86_64 (irqNumber vector).toNat (errcode.getD 0).toNat) :=
  irqSave_context (enter_frame hErr ret (m.state i)) addr

theorem trapMem_selectors (m : Machine) (ret : Word) (i : Nat)
    (hErr : errcode.isSome = pushesErrorCode vector) :
    Selectors (contextAt (m.trapMem ret i vector errcode) (m.cpu i).core.frame) := by
  rw [trapMem_context m ret i hErr 0]
  exact ⟨((m.cpu i).core.seg .cs).isLt, ((m.cpu i).core.seg .ss).isLt⟩

/-- A CPU of the model after code that leaves the privileged state alone. -/
def withRegs (c : Cte.Core) (regs : Cte.Registers) : Cte.Core :=
  { c with cpu := { c.cpu with regs := regs } }

/-- The CPU in the handler is in the state that the model has, but for the registers that
any code may change. -/
theorem enter_abs (hErr : errcode.isSome = pushesErrorCode vector) (c : Cpu) (mem : Mem) :
    let t := enterHandle vector errcode ret { core := c.core, mem := mem }
    Cpu.abs { c with core := t.core, inHandler := true } =
      withRegs { c.abs with cpu := c.core.cpu.enter .x86_64, inHandler := true }
        t.core.cpu.regs := by
  have h := enter_frame hErr ret { core := c.core, mem := mem }
  have hCs := h.cs
  have hCr3 := h.cr3
  have hRsp0 := h.rsp0
  unfold Cpu.abs withRegs Core.cpu Cte.Cpu.enter
  dsimp only
  rw [hCs, hCr3, hRsp0]
  rfl

end

/-! ## Each step is one of the model -/

/-- The state of the model.  It may still have contexts that are not in use any more. -/
structure Models (m : Machine) (c : Cte.Machine) : Prop where
  vme : c.vme = m.vme
  core : c.core = fun i => (m.cpu i).abs
  released : c.released = m.released
  contexts : ∀ s ∈ m.contexts, s.abs m.mem ∈ c.contexts

variable {c : Cte.Machine}

private theorem models_abs (m : Machine) : Models m m.abs :=
  ⟨rfl, rfl, rfl, fun _ hs => List.mem_map_of_mem hs⟩

theorem Models.write (h : Models m c) (hSame : m.Same mem) : Models { m with mem := mem } c where
  vme := h.vme
  core := h.core
  released := h.released
  contexts := by
    intro s hs
    have hAbs : s.abs mem = s.abs m.mem := by
      unfold Saved.abs
      rw [hSame.contextAt hs]
    rw [hAbs]
    exact h.contexts s hs

theorem Models.save (h : Models m c) (hSame : m.Same mem) (s : Saved) :
    Models (m.save s mem) (c.save (s.abs mem)) where
  vme := h.vme
  core := h.core
  released := h.released
  contexts := by
    intro t ht
    rcases List.mem_cons.mp ht with rfl | ht
    · exact List.mem_cons_self
    · exact List.mem_cons_of_mem _ ((h.write hSame).contexts t ht)

theorem Models.setCpu (h : Models m c) (i : Nat) (d : Cpu) :
    Models (m.setCpu i d) (c.setCore i d.abs) where
  vme := h.vme
  core := by
    show Function.update c.core i d.abs = fun j => (Function.update m.cpu i d j).abs
    rw [h.core]
    exact (Function.comp_update Cpu.abs m.cpu i d).symm
  released := h.released
  contexts := h.contexts

private theorem next_exec_model (c : Cte.Machine) (i : Nat) (regs : Cte.Registers) :
    Cte.next .x86_64 env start.toNat c (.exec i regs) =
      some (c.setCore i (withRegs (c.core i) regs)) := rfl

private theorem setCore_withRegs (c : Cte.Machine) (i : Nat) (d : Cte.Core) (regs : Cte.Registers) :
    (c.setCore i d).setCore i (withRegs ((c.setCore i d).core i) regs) =
      c.setCore i (withRegs d regs) := by
  unfold Cte.Machine.setCore
  dsimp only
  rw [Function.update_self, Function.update_idem]

/-- A trap is one of the model, and then code that leaves the registers as they are now. -/
theorem Models.trap {vector : Fin 256} {errcode : Option Word} (h : Models m c) (hi : i < ncpu)
    (hErr : errcode.isSome = pushesErrorCode vector)
    (hClear : m.Clear ((m.cpu i).core.frame - 8) (8 + sizeofTrapFrame)) :
    ∃ c', Models (m.enterTrap ret i vector errcode) c' ∧
      System.Run (Cte.system .x86_64 env start.toNat ncpu) c c' := by
  let irq := (irqNumber vector).toNat
  let err := (errcode.getD 0).toNat
  let addr := (m.cpu i).core.cpu.trapFrameAddr .x86_64
  let saved : Cte.Saved :=
    ⟨addr, (m.cpu i).task, Cte.irqSave .x86_64 (m.cpu i).core.cpu addr
      ((m.cpu i).core.cpu.trapFrame .x86_64 irq err)⟩
  let entered : Cte.Core :=
    { (m.cpu i).abs with cpu := (m.cpu i).core.cpu.enter .x86_64, inHandler := true }
  let regs := (enterHandle vector errcode ret (m.state i)).core.cpu.regs
  have hTrap : Cte.next .x86_64 env start.toNat c (.trap i irq err) =
      some ((c.save saved).setCore i entered) := by
    have hCore : c.core i = (m.cpu i).abs := congrFun h.core i
    show some (c.enterTrap .x86_64 i irq err) = _
    unfold Cte.Machine.enterTrap
    dsimp only
    rw [hCore]
    rfl
  have hExec : Cte.next .x86_64 env start.toNat ((c.save saved).setCore i entered)
      (.exec i regs) = some ((c.save saved).setCore i (withRegs entered regs)) := by
    rw [next_exec_model, setCore_withRegs]
  have hSaved : Saved.abs (m.trapMem ret i vector errcode) ⟨(m.cpu i).core.frame, (m.cpu i).task⟩ =
      saved := by
    unfold Saved.abs
    dsimp only
    rw [trapMem_context m ret i hErr addr, frame_toNat]
  have hModels := (h.save (trapMem_same ret hErr hClear)
    ⟨(m.cpu i).core.frame, (m.cpu i).task⟩).setCpu i
      { m.cpu i with
        core := (enterHandle vector errcode ret (m.state i)).core
        inHandler := true }
  have hAbs : Cpu.abs
      { m.cpu i with
        core := (enterHandle vector errcode ret (m.state i)).core
        inHandler := true } = withRegs entered regs := enter_abs hErr (m.cpu i) m.mem
  rw [hSaved, ← enterTrap_eq hErr] at hModels
  refine ⟨_, hModels, ?_⟩
  have hRun := ((System.Run.refl c).step (.trap i irq err)
    (Cte.system_next.mpr ⟨hi, hTrap⟩)).step (.exec i regs) (Cte.system_next.mpr ⟨hi, hExec⟩)
  rw [← hAbs] at hRun
  exact hRun

/-- The way back is the one of the model. -/
theorem Models.resume (hFits : m.Fits) (h : Models m c) (hs : s ∈ m.contexts) :
    Models (m.resume i s) (c.resume .x86_64 i (s.abs m.mem)) := by
  have hCore : c.core i = (m.cpu i).abs := congrFun h.core i
  have hModels := h.setCpu i
    { core := loaded m.mem s.addr (irqRestore s.addr (m.state i)).core
      task := s.task
      inHandler := false }
  have hCpu : (loaded m.mem s.addr (irqRestore s.addr (m.state i)).core).cpu =
      Cte.iret .x86_64 (Trap64.contextAt m.mem s.addr)
        (Cte.irqRestore .x86_64 (Trap64.contextAt m.mem s.addr) (m.cpu i).core.cpu) :=
    leave_cpu (m.state i) (hFits s hs)
  unfold Cpu.abs at hModels
  dsimp only at hModels
  rw [hCpu] at hModels
  unfold Machine.resume Cte.Machine.resume
  rw [leave_eq s.addr (m.state i), hCore]
  exact hModels

/-- Any code is code that leaves the privileged state alone. -/
theorem Models.exec {core : Core} (h : Models m c) (hCs : core.seg .cs = (m.cpu i).core.seg .cs)
    (hCr3 : core.cr3 = (m.cpu i).core.cr3) (hRsp0 : core.rsp0 = (m.cpu i).core.rsp0)
    (hSame : m.Same mem) :
    Models ({ m with mem := mem }.setCpu i { m.cpu i with core := core })
      (c.setCore i (withRegs (c.core i) core.cpu.regs)) := by
  have hCore : c.core i = (m.cpu i).abs := congrFun h.core i
  have hCpu : core.cpu = { (m.cpu i).core.cpu with regs := core.cpu.regs } := by
    unfold Core.cpu
    dsimp only
    rw [hCs, hCr3, hRsp0]
  have hModels := (h.write hSame).setCpu i { m.cpu i with core := core }
  unfold Cpu.abs at hModels
  dsimp only at hModels
  rw [hCpu] at hModels
  rw [hCore]
  exact hModels

theorem Models.kcontext {base kend : Word} (h : Models m c) (hRoom : m.Room base kend)
    (entry arg : Word) :
    Models
      (m.save ⟨contextAddr kend, .kthread ⟨base.toNat, kend.toNat⟩⟩
        (kcontext start kend entry arg m.mem))
      (c.save
        { addr := Cte.contextAddr .x86_64 ⟨base.toNat, kend.toNat⟩
          task := .kthread ⟨base.toNat, kend.toNat⟩
          ctx := Cte.kcontext .x86_64 start.toNat ⟨base.toNat, kend.toNat⟩ entry.toNat
            arg.toNat }) := by
  have hCtx := kcontext_context start kend entry arg base.toNat m.mem
  have hModels := h.save (kcontext_same hRoom start entry arg)
    ⟨contextAddr kend, .kthread ⟨base.toNat, kend.toNat⟩⟩
  unfold Saved.abs at hModels
  dsimp only at hModels
  rw [hRoom.toNat_addr] at hModels
  unfold contextAddr at hModels ⊢
  rw [hCtx] at hModels
  exact hModels

theorem Models.ucontext {base kend : Word} (h : Models m c) (hRoom : m.Room base kend) (as : Nat)
    (hPtr : m.vme.vm.mem as < 2 ^ 64) (entry : Word) :
    Models
      (m.save ⟨contextAddr kend, .process as ⟨base.toNat, kend.toNat⟩⟩
        (ucontext (BitVec.ofNat 64 (m.vme.vm.mem as)) kend entry m.mem))
      (c.save
        { addr := Cte.contextAddr .x86_64 ⟨base.toNat, kend.toNat⟩
          task := .process as ⟨base.toNat, kend.toNat⟩
          ctx := Cte.ucontext .x86_64 (m.vme.vm.mem as) ⟨base.toNat, kend.toNat⟩
            entry.toNat }) := by
  have hCtx := ucontext_context (BitVec.ofNat 64 (m.vme.vm.mem as)) kend entry base.toNat m.mem
  rw [BitVec.toNat_ofNat, Nat.mod_eq_of_lt hPtr] at hCtx
  have hModels := h.save (ucontext_same hRoom (BitVec.ofNat 64 (m.vme.vm.mem as)) entry)
    ⟨contextAddr kend, .process as ⟨base.toNat, kend.toNat⟩⟩
  unfold Saved.abs at hModels
  dsimp only at hModels
  rw [hRoom.toNat_addr] at hModels
  unfold contextAddr at hModels ⊢
  rw [hCtx] at hModels
  exact hModels

theorem Models.call (h : Models m c) (op : Vme.Op) (vme : Vme.Machine) :
    Models { m with vme := vme, released := m.abs.releasedAfter vme op } (c.called op vme) where
  vme := rfl
  core := h.core
  released := by
    show c.releasedAfter vme op = m.abs.releasedAfter vme op
    have hVme := h.vme
    have hReleased := h.released
    unfold Cte.Machine.releasedAfter
    rw [hVme, hReleased]
    rfl
  contexts := h.contexts

/-! ## Every run -/

/-- The segments still fit after any step. -/
theorem Machine.Fits.step (h : m.Fits) (hNext : next env start ret m op = some m') : m'.Fits := by
  cases op with
  | call i op =>
      obtain ⟨-, vme, -, rfl⟩ := next_call.mp hNext
      exact h
  | kcontext i base kend entry arg =>
      obtain ⟨⟨-, hRoom⟩, rfl⟩ := next_kcontext.mp hNext
      apply h.save (kcontext_same hRoom start entry arg)
      unfold contextAddr
      rw [kcontext_context start kend entry arg base.toNat m.mem]
      exact kcontext_selectors ..
  | ucontext i as base kend entry =>
      obtain ⟨⟨-, -, -, hRoom⟩, rfl⟩ := next_ucontext.mp hNext
      apply h.save (ucontext_same hRoom _ entry)
      unfold contextAddr
      rw [ucontext_context _ kend entry base.toNat m.mem]
      exact ucontext_selectors ..
  | drop i k =>
      cases hNext
      intro s hs
      exact h s (List.mem_of_mem_eraseIdx hs)
  | exec i core mem =>
      obtain ⟨⟨-, -, -, hSpares⟩, rfl⟩ := next_exec.mp hNext
      intro s hs
      show Selectors (Trap64.contextAt mem s.addr)
      rw [hSpares.same.contextAt hs]
      exact h s hs
  | trap i vector errcode =>
      obtain ⟨⟨hErr, hClear⟩, rfl⟩ := next_trap.mp hNext
      rw [enterTrap_eq hErr]
      exact h.save (trapMem_same ret hErr hClear) (trapMem_selectors m ret i hErr)
  | resume i k =>
      obtain ⟨-, s, -, -, rfl⟩ := next_resume.mp hNext
      unfold Machine.resume
      rw [leave_eq s.addr (m.state i)]
      exact h

/-- Each step is matched by a run of the model. -/
theorem Models.step (hFits : m.Fits) (h : Models m c) (hCpu : op.cpu < ncpu)
    (hNext : next env start ret m op = some m') :
    ∃ c', Models m' c' ∧ System.Run (Cte.system .x86_64 env start.toNat ncpu) c c' := by
  have hOne : ∀ (op' : Cte.Op) (c' : Cte.Machine), op'.cpu < ncpu →
      Cte.next .x86_64 env start.toNat c op' = some c' →
        System.Run (Cte.system .x86_64 env start.toNat ncpu) c c' := fun op' c' hCpu' hStep =>
    (System.Run.refl c).step op' (Cte.system_next.mpr ⟨hCpu', hStep⟩)
  have hCore : ∀ i, c.core i = (m.cpu i).abs := congrFun h.core
  have hUser : ∀ i, (c.core i).cpu.User ↔ m.User i := fun i => by
    rw [hCore i]
    rfl
  cases op with
  | call i op =>
      obtain ⟨hKernel, vme, hStep, rfl⟩ := next_call.mp hNext
      rw [← h.vme] at hStep
      exact ⟨_, h.call op vme, hOne (.call i op) _ hCpu
        (Cte.next_call.mpr ⟨mt (hUser i).mp hKernel, vme, hStep, rfl⟩)⟩
  | kcontext i base kend entry arg =>
      obtain ⟨⟨hKernel, hRoom⟩, rfl⟩ := next_kcontext.mp hNext
      exact ⟨_, h.kcontext hRoom entry arg,
        hOne (.kcontext i ⟨base.toNat, kend.toNat⟩ entry.toNat arg.toNat) _ hCpu
          (Cte.next_kcontext.mpr ⟨mt (hUser i).mp hKernel, rfl⟩)⟩
  | ucontext i as base kend entry =>
      obtain ⟨⟨hKernel, hAs, hPtr, hRoom⟩, rfl⟩ := next_ucontext.mp hNext
      have hVme : c.vme = m.vme := h.vme
      refine ⟨_, h.ucontext hRoom as hPtr entry,
        hOne (.ucontext i as ⟨base.toNat, kend.toNat⟩ entry.toNat) _ hCpu
          (Cte.next_ucontext.mpr ⟨mt (hUser i).mp hKernel, hVme ▸ hAs, ?_⟩)⟩
      rw [hVme]
  | drop i k =>
      cases hNext
      refine ⟨c, ⟨h.vme, h.core, h.released, ?_⟩, .refl c⟩
      intro s hs
      exact h.contexts s (List.mem_of_mem_eraseIdx hs)
  | exec i core mem =>
      obtain ⟨⟨hCs, hCr3, hRsp0, hSpares⟩, rfl⟩ := next_exec.mp hNext
      exact ⟨_, h.exec hCs hCr3 hRsp0 hSpares.same, hOne (.exec i core.cpu.regs) _ hCpu rfl⟩
  | trap i vector errcode =>
      obtain ⟨⟨hErr, hClear⟩, rfl⟩ := next_trap.mp hNext
      exact h.trap hCpu hErr hClear
  | resume i k =>
      obtain ⟨hHandler, s, hs, -, rfl⟩ := next_resume.mp hNext
      have hMem : s ∈ m.contexts := List.mem_of_getElem? hs
      have hHandler' : (c.core i).inHandler = true := by
        rw [hCore i]
        exact hHandler
      obtain ⟨k', hk'⟩ := List.mem_iff_getElem?.mp (h.contexts s hMem)
      exact ⟨_, h.resume hFits hMem, hOne (.resume i k') _ hCpu
        (Cte.next_resume.mpr ⟨hHandler', _, hk', rfl⟩)⟩

theorem Started.fits (h : Started env m) : m.Fits := by
  have hNone : m.contexts.map (Saved.abs m.mem) = [] := h.2.1
  intro s hs
  rw [List.map_eq_nil_iff.mp hNone] at hs
  exact absurd hs List.not_mem_nil

theorem run_models (h : m.Fits) (hRun : System.Run (system env start ret ncpu) m m') :
    ∃ c, Models m' c ∧ System.Run (Cte.system .x86_64 env start.toNat ncpu) m.abs c := by
  have hStep : ∀ m op m' c, m.Fits ∧ Models m c →
      (system env start ret ncpu).next m op = some m' →
        ∃ c', (m'.Fits ∧ Models m' c') ∧
          System.Run (Cte.system .x86_64 env start.toNat ncpu) c c' := by
    rintro m op m' c ⟨hm, hc⟩ hNext
    obtain ⟨hCpu, hNext⟩ := system_next.mp hNext
    obtain ⟨c', hModels, hMore⟩ := hc.step hm hCpu hNext
    exact ⟨c', ⟨hm.step hNext, hModels⟩, hMore⟩
  obtain ⟨c, ⟨-, hModels⟩, hRun'⟩ := hRun.simulate hStep ⟨h, models_abs m⟩
  exact ⟨c, hModels, hRun'⟩

end

/--
**Contexts in memory.**  Every run of the system, on all its CPUs, is a run of the model
of `cte.c`: what the trap code and `__am_irq_handle`, `kcontext` and `ucontext` leave in
memory are the contexts of that model, and `__am_iret` makes a CPU what the model says.
-/
theorem machine_refines (env : Pager) (start ret : Word) (ncpu : Nat) (m₀ m : Machine)
    (hInit : (system env start ret ncpu).init m₀)
    (hRun : System.Run (system env start ret ncpu) m₀ m) :
    (Cte.system .x86_64 env start.toNat ncpu).init m₀.abs ∧
      ∃ c, Models m c ∧ System.Run (Cte.system .x86_64 env start.toNat ncpu) m₀.abs c := by
  refine ⟨hInit, ?_⟩
  exact run_models (Started.fits hInit) hRun

/-! ## A booted machine -/

/-- A CPU in its boot code. -/
def bootCpu (kpt i : Nat) : Cpu where
  core :=
    { reg := fun
        | .gpr _ => 0
        | .rsp => BitVec.ofNat 64 (0x400000 + 0x1000 * i)
      seg := fun
        | .cs => kselKcode
        | _ => 0
      rip := 0
      rflags := 0
      cr3 := BitVec.ofNat 64 kpt
      rsp0 := 0 }
  task := .boot
  inHandler := false

/-- A machine with zeroed memory, after some steps of `S`. -/
def booted (S : System Machine Op) (ops : List Op) : Option Machine :=
  Vme.bootMachine.bind fun vme =>
    S.steps
      { vme := vme, mem := fun _ => 0, cpu := bootCpu vme.vm.kpt, contexts := []
        released := [] } ops

theorem booted_run {S : System Machine Op} {m : Machine} {ops : List Op}
    (h : booted S ops = some m) : ∃ m₀, Started Vme.steadyPager m₀ ∧ System.Run S m₀ m := by
  obtain ⟨vme, hBoot, hSteps⟩ := Option.bind_eq_some_iff.mp h
  refine ⟨_, ?_, System.steps_run _ _ hSteps⟩
  exact ⟨Vme.bootMachine_booted hBoot, rfl, rfl, fun _ => ⟨rfl, rfl, rfl⟩⟩

/-- The boot code enters a user program, which traps; another CPU resumes it. -/
theorem machine_refines_migrates :
    ∃ m₀ m c, Models m c ∧ (m.cpu 1).core.cpu.User ∧
      System.Run (Cte.system .x86_64 Vme.steadyPager 0x200000 2) m₀ c := by
  have hRuns : (booted (system Vme.steadyPager 0x200000 0x200100 2)
      [ .call 0 (.protect 16), .ucontext 0 16 0x300000 0x308000 0x100000000000
      , .trap 0 0x81 none, .resume 0 1, .drop 0 1, .trap 0 32 none, .trap 1 32 none
      , .resume 1 1 ]).any (fun m => decide (m.User 1)) = true := by
    decide +kernel
  obtain ⟨m, hm, hUser⟩ := (Option.any_eq_true _ _).mp hRuns
  obtain ⟨m₀, hInit, hRun⟩ := booted_run hm
  obtain ⟨-, c, hModels, hRun'⟩ :=
    machine_refines Vme.steadyPager 0x200000 0x200100 2 m₀ m hInit hRun
  exact ⟨m₀.abs, m, c, hModels, of_decide_eq_true hUser, hRun'⟩

end AbstractMachine.X86.Trap64
