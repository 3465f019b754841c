import AbstractMachine.Lib.ByteMem
import AbstractMachine.X86.Header
import Mathlib.Logic.Function.Basic

/-!
# Trap entry and exit on i386

`trap32.S` as lists of instructions over a CPU with byte-addressed memory,
between the stack operations of the hardware and the stores of
`__am_irq_handle` into the saved `Context`.  Kernel memory is mapped to itself
in every address space, so addresses are not translated.
-/

namespace AbstractMachine.X86.Trap32

open AbstractMachine.Lib
open AbstractMachine.Lib.ByteMem

/-- A register, or a word of the stack. -/
abbrev Word := BitVec 32

/-! ## State -/

/-- The general registers. -/
inductive Reg where
  | eax | ebx | ecx | edx | esi | edi | ebp | esp
  deriving DecidableEq, Repr

/-- The segment registers that `trap32.S` and the CPU move. -/
inductive SegReg where
  | cs | ds | es | ss
  deriving DecidableEq, Repr

/-- Registers, memory and the instruction pointer. -/
structure State where
  reg : Reg → Word
  seg : SegReg → BitVec 16
  eip : Word
  eflags : Word
  mem : ByteMem 32

/-- The word at `a`. -/
def ld (m : ByteMem 32) (a : Word) : Word := ByteMem.load m a 4

/-- The memory after the word `v` has been stored at `a`. -/
def st (m : ByteMem 32) (a v : Word) : ByteMem 32 := ByteMem.store m a (n := 4) v

/-- A register written. -/
def State.set (s : State) (r : Reg) (v : Word) : State :=
  { s with reg := Function.update s.reg r v }

/-- A segment register written. -/
def State.setSeg (s : State) (r : SegReg) (v : BitVec 16) : State :=
  { s with seg := Function.update s.seg r v }

/-- A word pushed. -/
def State.push (s : State) (v : Word) : State :=
  { s with
    reg := Function.update s.reg .esp (s.reg .esp - 4)
    mem := st s.mem (s.reg .esp - 4) v }

/-- The word on top of the stack. -/
def State.top (s : State) : Word := ld s.mem (s.reg .esp)

/-- `n` bytes of the stack dropped. -/
def State.drop (s : State) (n : Word) : State := s.set .esp (s.reg .esp + n)

/-- The argument of the function that is entered: above the return address. -/
def State.arg (s : State) : Word := ld s.mem (s.reg .esp + 4)

/-! ## Flags -/

/-- Flag `n`. -/
def flag (n : Nat) (b : Bool) : Word := if b then 1#32 <<< n else 0

/-- The status flags CF, PF, AF, ZF, SF and OF after an operation with the
result `r`. -/
def status {w : Nat} (eflags : Word) (r : BitVec w) (cf af of : Bool) : Word :=
  let parity := ((List.range 8).filter fun i => r.getLsbD i).length % 2 == 0
  (eflags &&& ~~~0x8d5#32) ||| flag 0 cf ||| flag 2 parity ||| flag 4 af |||
    flag 6 (r == 0) ||| flag 7 r.msb ||| flag 11 of

/-- The flags after an addition. -/
def addFlags (eflags a b : Word) : Word :=
  status eflags (a + b) (BitVec.uaddOverflow a b)
    (BitVec.uaddOverflow (a.setWidth 4) (b.setWidth 4)) (BitVec.saddOverflow a b)

/-- The flags after a subtraction or a comparison. -/
def subFlags {w : Nat} (eflags : Word) (a b : BitVec w) : Word :=
  status eflags (a - b) (BitVec.usubOverflow a b)
    (BitVec.usubOverflow (a.setWidth 4) (b.setWidth 4)) (BitVec.ssubOverflow a b)

/-- Interrupt enable. -/
def eflagsIF : Word := BitVec.ofNat 32 flIF

/-! ## Instructions -/

/-- The instructions of `trap32.S`, in the order of operands used there. -/
inductive Instr where
  | cli
  | subl (imm : Word) (dst : Reg)
  | addl (imm : Word) (dst : Reg)
  | pushl (src : Reg)
  | pushi (imm : Word)
  | popl (dst : Reg)
  /-- `movw %seg, %ax` and `movw %ax, %seg`. -/
  | movwFromSeg (src : SegReg)
  | movwToSeg (dst : SegReg)
  /-- `movw $imm, %ax` -/
  | movw (imm : BitVec 16)
  | movl (src dst : Reg)
  | load (off : Word) (base dst : Reg)
  | store (src : Reg) (off : Word) (base : Reg)
  | leal (off : Word) (base dst : Reg)
  /-- `cmpw $imm, off(base)` -/
  | cmpw (imm : BitVec 16) (off : Word) (base : Reg)

/-- A 16-bit move into the low half of `eax`. -/
def setAx (eax : Word) (v : BitVec 16) : Word := (eax &&& 0xffff0000) ||| v.setWidth 32

/-- What an instruction does. -/
def exec (s : State) : Instr → State
  | .cli => { s with eflags := s.eflags &&& ~~~eflagsIF }
  | .subl imm dst =>
      { s.set dst (s.reg dst - imm) with eflags := subFlags s.eflags (s.reg dst) imm }
  | .addl imm dst =>
      { s.set dst (s.reg dst + imm) with eflags := addFlags s.eflags (s.reg dst) imm }
  | .pushl src => s.push (s.reg src)
  | .pushi imm => s.push imm
  | .popl dst => (s.drop 4).set dst s.top
  | .movwFromSeg src => s.set .eax (setAx (s.reg .eax) (s.seg src))
  | .movwToSeg dst => s.setSeg dst ((s.reg .eax).setWidth 16)
  | .movw imm => s.set .eax (setAx (s.reg .eax) imm)
  | .movl src dst => s.set dst (s.reg src)
  | .load off base dst => s.set dst (ld s.mem (s.reg base + off))
  | .store src off base => { s with mem := st s.mem (s.reg base + off) (s.reg src) }
  | .leal off base dst => s.set dst (s.reg base + off)
  | .cmpw imm off base =>
      { s with
        eflags := subFlags s.eflags (ByteMem.load s.mem (s.reg base + off) 2) imm }

/-- Straight-line code. -/
def run (is : List Instr) (s : State) : State := is.foldl exec s

/-- The condition of `je`. -/
def State.zf (s : State) : Bool := s.eflags.getLsbD 6

/-! ## The hardware -/

/-- The requested privilege level of a selector. -/
def rpl (sel : BitVec 16) : BitVec 2 := sel.setWidth 2

/-- The selector of kernel code. -/
def kselKcode : BitVec 16 := BitVec.ofNat 16 (ksel segKcode)

/-- The selector of kernel data. -/
def kselKdata : BitVec 16 := BitVec.ofNat 16 (ksel segKdata)

/-- `ss0` and `esp0` of the task-state segment. -/
structure Tss where
  ss0 : BitVec 16
  esp0 : Word

/-- The vectors for which the hardware pushes an error code.  The other
exceptions that have one need features that are never enabled: `#AC` the flag
AM of CR0, `#CP` control-flow enforcement. -/
def pushesErrorCode (vector : Fin 256) : Bool :=
  [8, 10, 11, 12, 13, 14].contains vector.val

/-- Taking a trap: from user mode on the stack the task-state segment names.
The flags TF, NT, RF and VM are cleared.  The pushed RF, which only delays
instruction breakpoints, is taken to be that of the interrupted program. -/
def interrupt (tss : Tss) (errcode : Option Word) (s : State) : State :=
  let s₀ :=
    if rpl (s.seg .cs) = 0 then s
    else
      (((s.set .esp tss.esp0).setSeg .ss tss.ss0).push ((s.seg .ss).setWidth 32)).push
        (s.reg .esp)
  let s₁ := ((s₀.push s.eflags).push ((s.seg .cs).setWidth 32)).push s.eip
  let s₂ :=
    match errcode with
    | some err => s₁.push err
    | none => s₁
  { s₂.setSeg .cs kselKcode with eflags := s.eflags &&& ~~~0x34100#32 }

/-- `iret` from kernel mode: `esp` and `ss` are popped on the way to user
mode only.  Data segments that user mode may not use would be cleared there;
a user program has none of them. -/
def iret (s : State) : State :=
  let cs : BitVec 16 := (ld s.mem (s.reg .esp + 4)).setWidth 16
  let s₁ :=
    { (s.drop 12).setSeg .cs cs with
      eip := ld s.mem (s.reg .esp)
      eflags := ld s.mem (s.reg .esp + 8) }
  if rpl cs = 0 then s₁
  else
    (s₁.set .esp (ld s.mem (s.reg .esp + 12))).setSeg .ss
      ((ld s.mem (s.reg .esp + 16)).setWidth 16)

/-! ## `trap32.S` -/

/-- A line of `IRQS`: the vector, whether the gate is open to user mode, and
whether the hardware pushes an error code. -/
structure Irq where
  id : Nat
  user : Bool
  err : Bool

/-- `IRQS` of `x86.h`. -/
def IRQS : List Irq :=
  [ ⟨0, false, false⟩, ⟨1, false, false⟩, ⟨2, false, false⟩, ⟨3, false, false⟩
  , ⟨4, false, false⟩, ⟨5, false, false⟩, ⟨6, false, false⟩, ⟨7, false, false⟩
  , ⟨8, false, true⟩, ⟨9, false, false⟩, ⟨10, false, true⟩, ⟨11, false, true⟩
  , ⟨12, false, true⟩, ⟨13, false, true⟩, ⟨14, false, true⟩, ⟨15, false, false⟩
  , ⟨16, false, false⟩, ⟨19, false, false⟩, ⟨31, false, false⟩
  , ⟨32, false, false⟩, ⟨33, false, false⟩, ⟨34, false, false⟩, ⟨35, false, false⟩
  , ⟨36, false, false⟩, ⟨37, false, false⟩, ⟨38, false, false⟩, ⟨39, false, false⟩
  , ⟨40, false, false⟩, ⟨41, false, false⟩, ⟨42, false, false⟩, ⟨43, false, false⟩
  , ⟨44, false, false⟩, ⟨45, false, false⟩, ⟨46, false, false⟩, ⟨47, false, false⟩
  , ⟨128, true, false⟩, ⟨129, true, false⟩ ]

/-- The entry of a vector; the others have `__am_irqall`. -/
def irqOf (vector : Fin 256) : Option Irq :=
  IRQS.find? fun irq => irq.id == vector.val

/-- `__am_irq##id`, or `__am_irqall` for the other vectors, up to `jmp trap`. -/
def irqStub (vector : Fin 256) : List Instr :=
  match irqOf vector with
  | some irq =>
      [.cli] ++ (if irq.err then [] else [.pushi 0]) ++ [.pushi (BitVec.ofNat 32 irq.id)]
  | none => [.cli, .pushi 0, .pushi (-1)]

/-- `trap`, up to the argument of `__am_irq_handle`. -/
def trap : List Instr :=
  [ .cli
  , .subl 20 .esp
  , .pushl .ebp
  , .pushl .edi
  , .pushl .esi
  , .pushi 0
  , .pushl .edx
  , .pushl .ecx
  , .pushl .ebx
  , .pushl .eax
  , .movwFromSeg .ds
  , .pushl .eax
  , .pushi 0
  , .movw kselKdata
  , .movwToSeg .ds
  , .movwToSeg .es
  , .movwToSeg .ss
  , .pushl .esp ]

/-- From the interrupted instruction to the entry of `__am_irq_handle`; `ret` is
the address of `__am_iret`. -/
def enterHandle (tss : Tss) (vector : Fin 256) (errcode : Option Word) (ret : Word)
    (s : State) : State :=
  (run trap (run (irqStub vector) (interrupt tss errcode s))).push ret

/-- `__am_iret`, up to the branch. -/
def amIret : List Instr :=
  [ .addl 4 .esp
  , .popl .eax
  , .movl .eax .esp
  , .addl 4 .esp
  , .popl .eax
  , .movwToSeg .ds
  , .movwToSeg .es
  , .cmpw kselKcode 36 .esp ]

/-- `__am_iret` for a user context, up to `iret`. -/
def userIret : List Instr :=
  [ .popl .eax
  , .popl .ebx
  , .popl .ecx
  , .popl .edx
  , .addl 4 .esp
  , .popl .esi
  , .popl .edi
  , .popl .ebp ]

/-- `.kernel_iret`, up to the move of the frame. -/
def kernelPops : List Instr :=
  [ .popl .eax
  , .popl .ebx
  , .popl .ecx
  , .popl .edx
  , .addl 4 .esp ]

/-- The move of the frame to the new stack, from its end down. -/
def kernelMove : List Instr :=
  [ .movl .esp .ebp
  , .load 24 .ebp .edi
  , .load 20 .ebp .esi, .store .esi (-4) .edi
  , .load 16 .ebp .esi, .store .esi (-8) .edi
  , .load 12 .ebp .esi, .store .esi (-12) .edi
  , .load 8 .ebp .esi, .store .esi (-16) .edi
  , .load 4 .ebp .esi, .store .esi (-20) .edi
  , .load 0 .ebp .esi, .store .esi (-24) .edi
  , .leal (-24) .edi .esp
  , .popl .esi
  , .popl .edi
  , .popl .ebp ]

/-- `__am_iret`, with the argument above the return address. -/
def runIret (s : State) : State :=
  let s₁ := run amIret s
  if s₁.zf then iret (run (kernelPops ++ kernelMove) s₁) else iret (run userIret s₁)

/-! ## `struct Context` and `__am_irq_handle` -/

/-- Offsets in `struct Context` and, from `irq` on, in `struct trap_frame`. -/
inductive Field where
  | cr3 | ds | eax | ebx | ecx | edx | esp0 | esi | edi | ebp
  | eip | cs | eflags | esp | ss3
  | irq | errcode | tfEip | tfCs | tfEflags | tfEsp | tfSs
  deriving DecidableEq, Repr

/-- The place of a member of `struct Context`. -/
def Field.offset (f : Field) : Word := BitVec.ofNat 32 (4 * f.ctorIdx)

/-- `sizeof(Context)`. -/
def sizeofContext : Nat := 60

/-- `sizeof(struct trap_frame)`. -/
def sizeofTrapFrame : Nat := 88

/-- A member of the structure at `a`. -/
def field (m : ByteMem 32) (a : Word) (f : Field) : Word := ld m (a + f.offset)

/-- A member of the context at `a`, stored. -/
def setField (a : Word) (f : Field) (v : Word) (m : ByteMem 32) : ByteMem 32 :=
  st m (a + f.offset) v

/-- `__am_irq_handle` up to the call of the user handler: `tf` is its
argument. -/
def irqSave (tss : Tss) (cr3 tf : Word) (m : ByteMem 32) : ByteMem 32 :=
  let m := setField tf .eip (field m tf .tfEip) m
  let m := setField tf .cs (field m tf .tfCs) m
  let m := setField tf .eflags (field m tf .tfEflags) m
  let m := setField tf .esp0 tss.esp0 m
  let m := setField tf .ss3 (BitVec.ofNat 32 (usel segUdata)) m
  -- no ss/esp saved for DPL_KERNEL
  let m := setField tf .esp
    (if field m tf .tfCs &&& BitVec.ofNat 32 dplUser ≠ 0 then field m tf .tfEsp
     else tf + BitVec.ofNat 32 sizeofTrapFrame - 8) m
  setField tf .cr3 cr3 m

/-- `kcontext`: `kend` is the end of the kernel stack, `start` the address of
`__am_kcontext_start`. -/
def kcontext (start kend entry arg : Word) (m : ByteMem 32) : ByteMem 32 :=
  let ctx := kend - BitVec.ofNat 32 sizeofContext
  let m : ByteMem 32 := fun x => if InBlock ctx sizeofContext x then 0 else m x
  let m := setField ctx .ds (kselKdata.setWidth 32) m
  let m := setField ctx .cs (kselKcode.setWidth 32) m
  let m := setField ctx .eip start m
  let m := setField ctx .eflags eflagsIF m
  let m := setField ctx .esp kend m
  let m := setField ctx .eax arg m
  setField ctx .ebx entry m

end AbstractMachine.X86.Trap32
