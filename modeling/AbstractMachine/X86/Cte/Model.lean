import AbstractMachine.X86.Vme.Config
import Mathlib.Logic.Function.Basic

/-!
# The context extension of x86-qemu

`cte.c` with `ucontext` of `vme.c`, for both word sizes: the `Context` that a
trap saves and `__am_iret` installs, and what `__am_irq_handle` does around
the user handler.  The two `struct Context` differ in the names and the order
of their members; a member that only one of them has is marked.  What the
trap stub leaves on the stack is taken as the value of a `struct trap_frame`
here, next to its address.
-/

namespace AbstractMachine.X86.Cte

open AbstractMachine.X86.Vme

/-! ## Contexts -/

/-- The general registers, under their x86_64 names.  i386 has the first
seven, as `eax` to `edi`. -/
inductive Gpr where
  | rax | rbx | rcx | rdx | rbp | rsi | rdi
  | r8 | r9 | r10 | r11 | r12 | r13 | r14 | r15
  deriving DecidableEq, Repr

/-- `struct Context`. -/
structure Context where
  cr3 : Nat
  gpr : Gpr → Nat
  /-- `rip` or `eip`; likewise `rflags`, `rsp` and `rsp0`. -/
  ip : Nat
  cs : Nat
  flags : Nat
  sp : Nat
  sp0 : Nat
  /-- `ss3` on i386. -/
  ss : Nat
  /-- i386 only. -/
  ds : Nat

/-- `(Context) { 0 }`. -/
def Context.zero : Context where
  cr3 := 0
  gpr := fun _ => 0
  ip := 0
  cs := 0
  flags := 0
  sp := 0
  sp0 := 0
  ss := 0
  ds := 0

/-- `sizeof(Context)`: 15 or 22 words. -/
def sizeofContext : Arch → Nat
  | .i386 => 60
  | .x86_64 => 176

/-- `struct trap_frame`. -/
structure TrapFrame where
  savedContext : Context
  irq : Nat
  errcode : Nat
  ip : Nat
  cs : Nat
  flags : Nat
  sp : Nat
  ss : Nat

/-- `sizeof(struct trap_frame)`. -/
def sizeofTrapFrame (arch : Arch) : Nat := sizeofContext arch + 7 * wordBytes arch

/-- `Area`. -/
structure Area where
  start : Nat
  stop : Nat
  deriving DecidableEq, Repr

/-- `GPR1` and `GPR2`, the registers of the first two arguments. -/
def gpr1 : Arch → Gpr
  | .i386 => .rax
  | .x86_64 => .rdi

/-- `GPR2` of the architecture's header. -/
def gpr2 : Arch → Gpr
  | .i386 => .rbx
  | .x86_64 => .rsi

/-- Where `kcontext` and `ucontext` put the context. -/
def contextAddr (arch : Arch) (kstack : Area) : Nat := kstack.stop - sizeofContext arch

/-- `kcontext`; `start` is the address of `__am_kcontext_start`. -/
def kcontext (arch : Arch) (start : Nat) (kstack : Area) (entry arg : Nat) : Context :=
  let ctx : Context :=
    match arch with
    | .x86_64 =>
        { Context.zero with
          cs := ksel segKcode
          ip := start
          flags := flIF
          sp := kstack.stop }
    | .i386 =>
        { Context.zero with
          ds := ksel segKdata
          cs := ksel segKcode
          ip := start
          flags := flIF
          sp := kstack.stop }
  { ctx with
    gpr := Function.update (Function.update ctx.gpr (gpr1 arch) arg) (gpr2 arch) entry }

/-- `ucontext`, with `ptr` the `as->ptr`. -/
def ucontext (arch : Arch) (ptr : Nat) (kstack : Area) (entry : Nat) : Context :=
  let ctx : Context :=
    match arch with
    | .x86_64 =>
        { Context.zero with
          cs := usel segUcode
          ss := usel segUdata
          ip := entry
          flags := flIF
          sp := (uvmArea arch).stop
          sp0 := kstack.stop }
    | .i386 =>
        { Context.zero with
          cs := usel segUcode
          ds := usel segUdata
          ss := usel segUdata
          ip := entry
          flags := flIF
          sp := (uvmArea arch).stop
          sp0 := kstack.stop }
  { ctx with cr3 := ptr }

/-! ## A CPU -/

/-- The registers that any code may change. -/
structure Registers where
  gpr : Gpr → Nat
  ip : Nat
  flags : Nat
  sp : Nat
  ss : Nat
  ds : Nat

/-- A CPU, with the two fields of its `tss` that are used. -/
structure Cpu where
  regs : Registers
  cs : Nat
  cr3 : Nat
  /-- `tss.rsp0` or `tss.esp0`. -/
  sp0 : Nat
  /-- `tss.ss0`, i386 only. -/
  ss0 : Nat

/-- The selector is one of user mode: the test `cs & DPL_USER`. -/
def UserSel (cs : Nat) : Prop := cs &&& dplUser ≠ 0

instance (cs : Nat) : Decidable (UserSel cs) := by
  unfold UserSel
  infer_instance

/-- The CPU executes in user mode. -/
def Cpu.User (cpu : Cpu) : Prop := UserSel cpu.cs

instance (cpu : Cpu) : Decidable cpu.User := by
  unfold Cpu.User
  infer_instance

/-- The stack, as `ss` and stack pointer, on which a trap is taken. -/
def Cpu.trapStack (cpu : Cpu) : Nat × Nat :=
  if cpu.User then (cpu.ss0, cpu.sp0) else (cpu.regs.ss, cpu.regs.sp)

/-- `a - b` in words. -/
def wordSub (arch : Arch) (a b : Nat) : Nat :=
  (a + (2 ^ wordBits arch - b)) % 2 ^ wordBits arch

/-- The address of the trap frame.  On x86_64 the stack pointer is aligned
first; on i386 `ss` and `esp` are only pushed in user mode. -/
def Cpu.trapFrameAddr (arch : Arch) (cpu : Cpu) : Nat :=
  match arch with
  | .x86_64 => wordSub arch (cpu.trapStack.2 - cpu.trapStack.2 % 16) (sizeofTrapFrame arch)
  | .i386 =>
      wordSub arch cpu.trapStack.2
        (if cpu.User then sizeofTrapFrame arch else sizeofTrapFrame arch - 8)

/-- What the hardware and the trap stub leave on the stack.  The words the
stub only makes room for are zero here; `__am_irq_handle` sets each of them.
So are the two words that i386 does not push in kernel mode. -/
def Cpu.trapFrame (arch : Arch) (cpu : Cpu) (irq errcode : Nat) : TrapFrame where
  savedContext :=
    { Context.zero with
      gpr := cpu.regs.gpr
      ds :=
        -- `movw %ds, %ax; pushl %eax`
        match arch with
        | .x86_64 => 0
        | .i386 => cpu.regs.gpr .rax &&& 0xffff0000 ||| cpu.regs.ds }
  irq := irq
  errcode := errcode
  ip := cpu.regs.ip
  cs := cpu.cs
  flags := cpu.regs.flags
  sp := if arch = .i386 ∧ ¬ cpu.User then 0 else cpu.regs.sp
  ss := if arch = .i386 ∧ ¬ cpu.User then 0 else cpu.regs.ss

/-! ## `__am_irq_handle` -/

/-- The context `__am_irq_handle` hands to the user handler: `tf` is at the
address `addr`. -/
def irqSave (arch : Arch) (cpu : Cpu) (addr : Nat) (tf : TrapFrame) : Context :=
  let saved : Context :=
    match arch with
    | .x86_64 =>
        { tf.savedContext with
          ip := tf.ip
          cs := tf.cs
          flags := tf.flags
          sp := tf.sp
          sp0 := cpu.sp0
          ss := tf.ss }
    | .i386 =>
        { tf.savedContext with
          ip := tf.ip
          cs := tf.cs
          flags := tf.flags
          sp0 := cpu.sp0
          ss := usel segUdata
          -- no ss/esp saved for DPL_KERNEL
          sp :=
            if UserSel tf.cs then tf.sp
            else wordSub arch ((addr + sizeofTrapFrame arch) % 2 ^ wordBits arch) 8 }
  { saved with cr3 := cpu.cr3 }

/-- What it does with the context the user handler returns. -/
def irqRestore (arch : Arch) (ret : Context) (cpu : Cpu) : Cpu :=
  if ret.cr3 ≠ 0 then
    match arch with
    | .x86_64 => { cpu with cr3 := ret.cr3, sp0 := ret.sp0 }
    | .i386 => { cpu with cr3 := ret.cr3, ss0 := ksel segKdata, sp0 := ret.sp0 }
  else cpu

/-- `__am_iret`.  On x86_64 `ds` is loaded with the saved `ss`; on i386 `ss`
is not popped on the way back to kernel code. -/
def iret (arch : Arch) (ctx : Context) (cpu : Cpu) : Cpu where
  regs :=
    { gpr := ctx.gpr
      ip := ctx.ip
      flags := ctx.flags
      sp := ctx.sp
      ss := if arch = .i386 ∧ ctx.cs = ksel segKcode then cpu.regs.ss else ctx.ss
      ds :=
        match arch with
        | .x86_64 => ctx.ss % 2 ^ 16
        | .i386 => ctx.ds % 2 ^ 16 }
  cs := ctx.cs
  cr3 := cpu.cr3
  sp0 := cpu.sp0
  ss0 := cpu.ss0

/-- The CPU when the stub calls `__am_irq_handle`.  On x86_64 a null `ss` is
loaded when the privilege level changes; the i386 stub loads the kernel's
data segment. -/
def Cpu.enter (arch : Arch) (cpu : Cpu) : Cpu :=
  { cpu with
    regs :=
      { cpu.regs with
        sp := cpu.trapFrameAddr arch
        ss :=
          match arch with
          | .x86_64 => if cpu.User then 0 else cpu.regs.ss
          | .i386 => ksel segKdata
        ds :=
          match arch with
          | .x86_64 => cpu.regs.ds
          | .i386 => ksel segKdata }
    cs := ksel segKcode }

/-! ## What is kept and what is set -/

section

variable {arch : Arch} {cpu : Cpu} {ctx : Context}

theorem not_userSel_kcode : ¬ UserSel (ksel segKcode) := by decide

@[simp] theorem kcontext_cs (start : Nat) (kstack : Area) (entry arg : Nat) :
    (kcontext arch start kstack entry arg).cs = ksel segKcode := by
  cases arch <;> rfl

@[simp] theorem kcontext_cr3 (start : Nat) (kstack : Area) (entry arg : Nat) :
    (kcontext arch start kstack entry arg).cr3 = 0 := by
  cases arch <;> rfl

@[simp] theorem ucontext_cr3 (ptr : Nat) (kstack : Area) (entry : Nat) :
    (ucontext arch ptr kstack entry).cr3 = ptr := rfl

@[simp] theorem ucontext_sp0 (ptr : Nat) (kstack : Area) (entry : Nat) :
    (ucontext arch ptr kstack entry).sp0 = kstack.stop := by
  cases arch <;> rfl

@[simp] theorem irqSave_cs (addr irq errcode : Nat) :
    (irqSave arch cpu addr (cpu.trapFrame arch irq errcode)).cs = cpu.cs := by
  cases arch <;> rfl

@[simp] theorem irqSave_cr3 (addr : Nat) (tf : TrapFrame) :
    (irqSave arch cpu addr tf).cr3 = cpu.cr3 := rfl

@[simp] theorem irqSave_sp0 (addr : Nat) (tf : TrapFrame) :
    (irqSave arch cpu addr tf).sp0 = cpu.sp0 := by
  cases arch <;> rfl

@[simp] theorem iret_cr3 : (iret arch ctx cpu).cr3 = cpu.cr3 := rfl

@[simp] theorem iret_sp0 : (iret arch ctx cpu).sp0 = cpu.sp0 := rfl

@[simp] theorem iret_ss0 : (iret arch ctx cpu).ss0 = cpu.ss0 := rfl

/-- A context without a page directory leaves the CPU as it is. -/
theorem irqRestore_null (h : ctx.cr3 = 0) : irqRestore arch ctx cpu = cpu := by
  unfold irqRestore
  rw [if_neg (not_not.mpr h)]

theorem irqRestore_cr3 (h : ctx.cr3 ≠ 0) : (irqRestore arch ctx cpu).cr3 = ctx.cr3 := by
  unfold irqRestore
  rw [if_pos h]
  cases arch <;> rfl

theorem irqRestore_sp0 (h : ctx.cr3 ≠ 0) : (irqRestore arch ctx cpu).sp0 = ctx.sp0 := by
  unfold irqRestore
  rw [if_pos h]
  cases arch <;> rfl

theorem irqRestore_ss0 (h : ctx.cr3 ≠ 0) (hArch : arch = .i386) :
    (irqRestore arch ctx cpu).ss0 = ksel segKdata := by
  unfold irqRestore
  rw [if_pos h, hArch]

end

end AbstractMachine.X86.Cte
