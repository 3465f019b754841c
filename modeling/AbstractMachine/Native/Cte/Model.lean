import AbstractMachine.Lib.WordBytes
import AbstractMachine.Native.Vme.Model
import Mathlib.Algebra.Group.Nat.Defs

/-!
# The context extension of native

`cte.c` of the native platform: events are signals of the host.  The kernel of
the host hands the handler the interrupted `ucontext_t`, which the handler
replaces by one that enters `irq_handle`; a call of 0x100008 raises the signal
whose handler puts a saved `ucontext_t` back.

A `ucontext_t` is an array of words, whose layout is glibc's.  `Context`
objects lie in byte-addressed memory.  The handlers run on a stack of their
own with both interrupt signals blocked, so a handler is one step.
`__am_pmem_protect` and `__am_pmem_unprotect` are empty.
-/

namespace AbstractMachine.Native.Cte

open AbstractMachine.Lib
open AbstractMachine.Lib.ByteMem
open AbstractMachine.Native.Vme (VM inUserSpace amSwitch)

/-- A register, a pointer or a word of a signal set. -/
abbrev Word := BitVec 64

/-- The memory of the process. -/
abbrev Mem := ByteMem 64

/-! ## The platform -/

/-- The hosts that `native` is built for. -/
inductive Arch where
  | x86_64
  | aarch64
  | riscv64
  deriving DecidableEq, Repr

/-- The host, its `ucontext_t` and the addresses of the program. -/
structure Platform where
  arch : Arch
  /-- The number of words of a `ucontext_t`. -/
  words : Nat
  /-- `AM_REG_PC`, `AM_REG_SP` and `AM_REG_GPR1`. -/
  pc : Fin words
  sp : Fin words
  gpr1 : Fin words
  /-- The first word of `uc_sigmask`. -/
  sigmask : Fin words
  /-- `_start`, `_etext`, `sigprocmask` and `irq_handle`. -/
  start : Word
  etext : Word
  sigprocmask : Word
  irqHandle : Word
  words_le : words ≤ 0x10000
  regs : [pc, sp, gpr1].Nodup
  regs_sigmask : ∀ r ∈ [pc, sp, gpr1], r.val < sigmask.val ∨ sigmask.val + 16 ≤ r.val

/-- The signals that `install_signal_handler` installs a handler for. -/
inductive Signal where
  | sigusr1
  | sigusr2
  | sigvtalrm
  | sigsegv
  deriving DecidableEq, Repr

/-- The numbers of `signal.h`. -/
def Signal.number : Signal → Nat
  | .sigusr1 => 10
  | .sigsegv => 11
  | .sigusr2 => 12
  | .sigvtalrm => 26

/-- The events of `am.h`. -/
inductive EventKind where
  | null
  | yield
  | syscall
  | pagefault
  | error
  | irqTimer
  | irqIodev
  deriving DecidableEq, Repr

/-- `Event`; `msg` is the signal whose text it is. -/
structure Event where
  event : EventKind
  cause : Word
  ref : Word
  msg : Option Signal
  deriving DecidableEq, Repr

/-- What `sig_handler` reads of `siginfo_t`. -/
structure Siginfo where
  si_code : BitVec 32
  si_addr : Word
  deriving DecidableEq, Repr

/-- `si_code` of an access to an address that is not mapped. -/
def SEGV_MAPERR : BitVec 32 := 1

/-- `si_code` of an access that the mapping does not allow. -/
def SEGV_ACCERR : BitVec 32 := 2

/-- `MMAP_READ` of `am.h`, the `cause` of a page fault. -/
def MMAP_READ : Word := 1

/-- `MMAP_WRITE` of `am.h`. -/
def MMAP_WRITE : Word := 2

/-- The bytes of the instruction that a system call is. -/
def SYSCALL_INSTR_LEN : Word := 7

/-! ## Signal sets -/

/-- `sigaddset`: signal `n` is bit `n - 1` of the first word. -/
def sigaddset (set : Nat → Word) (sig : Signal) : Nat → Word :=
  Function.update set 0 (set 0 ||| 1 <<< (sig.number - 1))

/-- `__am_intr_sigmask`, as `init_platform` fills it in. -/
def intrSigmask : Nat → Word := sigaddset (sigaddset (fun _ => 0) .sigvtalrm) .sigusr1

section

variable (P : Platform)

/-- `ucontext_t`. -/
abbrev Ucontext := Fin P.words → Word

variable {P}

/-- `__am_get_intr_sigmask(&uc->uc_sigmask)`. -/
def getIntrSigmask (uc : Ucontext P) : Ucontext P := fun k =>
  if P.sigmask.val ≤ k.val ∧ k.val < P.sigmask.val + 16 then
    intrSigmask (k.val - P.sigmask.val)
  else uc k

/-- The signal is blocked. -/
def blocked (uc : Ucontext P) (sig : Signal) : Bool := (uc P.sigmask).getLsbD (sig.number - 1)

/-! ## `Context` objects

`ksp`, `vm_head`, `uc` and on x86_64 the red zone of 128 bytes. -/

variable (P)

/-- The bytes of `ksp`, `vm_head` and `uc`. -/
def fieldsSize : Nat := 16 + 8 * P.words

/-- `sizeof(Context)`. -/
def contextSize : Nat := fieldsSize P + if P.arch = .x86_64 then 128 else 0

variable {P}

/-- Store a `ucontext_t` at `a`. -/
def storeUc (m : Mem) (a : Word) (uc : Ucontext P) : Mem := fun x =>
  if h : (x - a).toNat / 8 < P.words then byte (uc ⟨(x - a).toNat / 8, h⟩) ((x - a).toNat % 8)
  else m x

/-- The `ucontext_t` at `a`. -/
def loadUc (m : Mem) (a : Word) : Ucontext P := fun k => load m (slot 8 a k.val) 8

/-! ## The program -/

variable (P)

/-- Memory, the shared state of `vme.c`, and for each CPU `thiscpu->ksp`,
`thiscpu->ev` and what it runs. -/
structure Host where
  mem : Mem
  vm : VM
  ksp : Nat → Word
  ev : Nat → Event
  uc : Nat → Ucontext P

variable {P}

/-- `thiscpu->vm_head`. -/
def Host.vmHead (h : Host P) (i : Nat) : Nat := (h.vm.cpu i).vmHead

/-- `__am_in_userspace`. -/
def amInUserspace (h : Host P) (i : Nat) (addr : Word) : Bool :=
  h.vm.vmeEnable && h.vmHead i != 0 && inUserSpace addr.toNat

/-- `signal_safe` in `setup_stack`. -/
def signalSafe (h : Host P) (i : Nat) : Bool :=
  let pc := h.uc i P.pc
  decide (P.start ≤ pc ∧ pc < P.etext) || amInUserspace h i pc || pc == P.sigprocmask + 13

/-- The test in `setup_stack` for interrupts that are missed. -/
def missed (h : Host P) (i : Nat) (event : EventKind) : Bool :=
  (event == .irqIodev || event == .irqTimer) && !signalSafe h i

/-- The stack pointer from which `setup_stack` allocates the `Context`. -/
def stackTop (h : Host P) (i : Nat) : Word :=
  if amInUserspace h i (h.uc i P.pc) then h.ksp i else h.uc i P.sp

variable (P)

/-- The `Context *` below the stack pointer `sp`. -/
def contextBelow (sp : Word) : Word :=
  let sp := sp - BitVec.ofNat 64 (contextSize P)
  if P.arch = .x86_64 ∧ (sp + 8) % 16 ≠ 0 then sp - 8 else sp

variable {P}

/-- The interrupted context as it is saved. -/
def skipSyscall (event : EventKind) (uc : Ucontext P) : Ucontext P :=
  Function.update uc P.pc (if event = .syscall then uc P.pc + SYSCALL_INSTR_LEN else uc P.pc)

/-- The context that calls `irq_handle(c)`. -/
def callIrqHandle (c : Word) (uc : Ucontext P) : Ucontext P :=
  let uc := getIntrSigmask uc
  let uc := Function.update uc P.gpr1 c
  let uc := Function.update uc P.pc P.irqHandle
  Function.update uc P.sp c

/-- `setup_stack`. -/
def setupStack (i : Nat) (event : EventKind) (h : Host P) : Host P :=
  if missed h i event then h
  else
    let uc := skipSyscall event (h.uc i)
    let c := contextBelow P (stackTop h i)
    { h with
      mem := storeUc h.mem (c + 16) uc
      uc := Function.update h.uc i (callIrqHandle c uc) }

def iret (i : Nat) (h : Host P) : Host P :=
  let c := h.uc i P.gpr1
  { h with
    uc := Function.update h.uc i (loadUc h.mem (c + 16))
    ksp := Function.update h.ksp i (load h.mem c 8) }

/-- The event of CPU `i` replaced. -/
def Host.setEv (i : Nat) (ev : Event) (h : Host P) : Host P :=
  { h with ev := Function.update h.ev i ev }

/-- What `sig_handler` makes of a signal; `user` says that `si_addr` is in user
space, and `none` is a failed `assert`. -/
def decodeSignal (user : Bool) (info : Siginfo) : Signal → Option Event
  | .sigusr1 => some ⟨.irqIodev, 0, 0, none⟩
  | .sigusr2 => some ⟨.yield, 0, 0, none⟩
  | .sigvtalrm => some ⟨.irqTimer, 0, 0, none⟩
  | .sigsegv =>
      let event : EventKind :=
        if info.si_code = SEGV_ACCERR ∧ info.si_addr = 0x100000 then .syscall else .error
      if user then
        if event ≠ .error then none
        else if info.si_code = SEGV_MAPERR then some ⟨.pagefault, MMAP_READ, info.si_addr, none⟩
        else if info.si_code = SEGV_ACCERR then some ⟨.pagefault, MMAP_WRITE, info.si_addr, none⟩
        else none
      else some ⟨event, 0, 0, none⟩

/-- The fields that are filled in for `EVENT_ERROR`. -/
def describeError (sig : Signal) (info : Siginfo) (ev : Event) : Event :=
  if ev.event = .error then ⟨.error, info.si_code.signExtend 64, info.si_addr, some sig⟩ else ev

/-- The signal of the magic call. -/
def magic (sig : Signal) (info : Siginfo) : Bool :=
  sig == .sigsegv && info.si_code == SEGV_ACCERR && info.si_addr == 0x100008

/-- `sig_handler`. -/
def sigHandler (i : Nat) (sig : Signal) (info : Siginfo) (h : Host P) : Option (Host P) :=
  if magic sig info then some (iret i (h.setEv i ⟨.error, 0, 0, none⟩))
  else do
    let ev ← decodeSignal (amInUserspace h i info.si_addr) info sig
    let ev := describeError sig info ev
    return setupStack i ev.event (h.setEv i ev)

/-- `irq_handle` up to the call of the user handler. -/
def irqHandleEnter (i : Nat) (h : Host P) : Option (Host P) :=
  let c := h.uc i P.gpr1
  let mem := store h.mem (c + 8) (n := 8) (BitVec.ofNat 64 (h.vmHead i))
  let mem := store mem c (n := 8) (h.ksp i)
  if (h.ev i).event = .error then none else some { h with mem := mem }

/-- `irq_handle` between the user handler, which returned `c`, and the magic
call. -/
def irqHandleReturn (i : Nat) (c : Word) (h : Host P) : Option (Host P) :=
  if c = 0 then none
  else match (amSwitch i (load h.mem (c + 8) 8).toNat).run h.vm with
    | .ok (_, vm) => some { h with vm := vm }
    | .error _ => none

end

end AbstractMachine.Native.Cte
