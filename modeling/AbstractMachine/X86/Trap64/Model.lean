import AbstractMachine.Lib.Stack
import AbstractMachine.X86.Cte.Model
import AbstractMachine.X86.Trap32.Model

/-!
# Trap entry and exit on x86_64

`trap64.S` as lists of instructions over a CPU with byte-addressed memory, between
the stack operations of the hardware and the stores of `__am_irq_handle` into the
saved `Context`.  Kernel memory is mapped to itself in every address space, so
addresses are not translated.  The list `IRQS` and the vectors with an error code
are those of i386.
-/

namespace AbstractMachine.X86.Trap64

open AbstractMachine.Lib
open AbstractMachine.Lib.ByteMem
open AbstractMachine.X86.Cte (Gpr)
open AbstractMachine.X86.Trap32 (IRQS irqOf pushesErrorCode rpl kselKcode)

/-- A register, or a word of the stack. -/
abbrev Word := BitVec 64

/-- The memory of the machine. -/
abbrev Mem := ByteMem 64

/-! ## State -/

/-- The general registers and the stack pointer. -/
inductive Reg where
  | gpr (r : Gpr)
  | rsp
  deriving DecidableEq, Repr

/-- The segment registers that `trap64.S` and the CPU move. -/
inductive SegReg where
  | cs | ds | es | ss
  deriving DecidableEq, Repr

/-- The registers of a CPU; the task register stands for the stack that it names. -/
@[ext] structure Core where
  reg : Reg → Word
  seg : SegReg → BitVec 16
  rip : Word
  rflags : Word
  cr3 : Word
  /-- `rsp0` of the task-state segment. -/
  rsp0 : Word

/-- A CPU with the memory. -/
@[ext] structure State where
  core : Core
  mem : Mem

/-- The word at `a`. -/
def ld (m : Mem) (a : Word) : Word := ByteMem.load m a 8

/-- The memory after the word `v` has been stored at `a`. -/
def st (m : Mem) (a v : Word) : Mem := ByteMem.store m a (n := 8) v

/-- A register written. -/
def Core.set (c : Core) (r : Reg) (v : Word) : Core :=
  { c with reg := Function.update c.reg r v }

/-- A segment register written. -/
def Core.setSeg (c : Core) (r : SegReg) (v : BitVec 16) : Core :=
  { c with seg := Function.update c.seg r v }

/-- A register written. -/
def State.set (s : State) (r : Reg) (v : Word) : State := { s with core := s.core.set r v }

/-- A segment register written. -/
def State.setSeg (s : State) (r : SegReg) (v : BitVec 16) : State :=
  { s with core := s.core.setSeg r v }

/-- A register read. -/
def State.reg (s : State) (r : Reg) : Word := s.core.reg r

/-- The words are pushed, one after the other. -/
def State.push (s : State) (vs : List Word) : State :=
  let pushed := ByteMem.pushAll 8 vs (s.reg .rsp, s.mem)
  { core := s.core.set .rsp pushed.1, mem := pushed.2 }

/-! ## Flags -/

/-- The status flags after an operation with the result `r`. -/
def status (rflags r : Word) (cf af of : Bool) : Word :=
  (rflags &&& ~~~0x8d5#64) ||| (Trap32.status 0 r cf af of).setWidth 64

/-- The flags after an addition. -/
def addFlags (rflags a b : Word) : Word :=
  status rflags (a + b) (BitVec.uaddOverflow a b)
    (BitVec.uaddOverflow (a.setWidth 4) (b.setWidth 4)) (BitVec.saddOverflow a b)

/-- The flags after a subtraction. -/
def subFlags (rflags a b : Word) : Word :=
  status rflags (a - b) (BitVec.usubOverflow a b)
    (BitVec.usubOverflow (a.setWidth 4) (b.setWidth 4)) (BitVec.ssubOverflow a b)

/-- Interrupt enable. -/
def rflagsIF : Word := BitVec.ofNat 64 flIF

/-! ## Instructions -/

/-- The instructions of `trap64.S`, in the order of operands used there. -/
inductive Instr where
  | cli
  | subq (imm : Word) (dst : Reg)
  | addq (imm : Word) (dst : Reg)
  | pushq (src : Reg)
  | pushi (imm : Word)
  | popq (dst : Reg)
  | movq (src dst : Reg)
  | load (off : Word) (base dst : Reg)
  /-- `movw %ax, %seg` -/
  | movwToSeg (dst : SegReg)
  /-- `jmpq *reg` -/
  | jmpq (src : Reg)

/-- What an instruction does. -/
def exec (s : State) : Instr → State
  | .cli => { s with core := { s.core with rflags := s.core.rflags &&& ~~~rflagsIF } }
  | .subq imm dst =>
      { s with
        core := { s.core.set dst (s.reg dst - imm) with
          rflags := subFlags s.core.rflags (s.reg dst) imm } }
  | .addq imm dst =>
      { s with
        core := { s.core.set dst (s.reg dst + imm) with
          rflags := addFlags s.core.rflags (s.reg dst) imm } }
  | .pushq src => s.push [s.reg src]
  | .pushi imm => s.push [imm]
  | .popq dst => (s.set .rsp (s.reg .rsp + 8)).set dst (ld s.mem (s.reg .rsp))
  | .movq src dst => s.set dst (s.reg src)
  | .load off base dst => s.set dst (ld s.mem (s.reg base + off))
  | .movwToSeg dst => s.setSeg dst ((s.reg (.gpr .rax)).setWidth 16)
  | .jmpq src => { s with core := { s.core with rip := s.reg src } }

/-- Straight-line code. -/
def run (is : List Instr) (s : State) : State := is.foldl exec s

/-! ## The hardware -/

/-- Taking a trap: from user mode on the stack the task-state segment names, with a
null `ss`.  The stack is aligned first.  The flags TF, NT, RF and VM are cleared.  The
pushed RF is taken to be that of the interrupted program. -/
def interrupt (errcode : Option Word) (s : State) : State :=
  let c := s.core
  let s₀ :=
    if rpl (c.seg .cs) = 0 then s else (s.set .rsp c.rsp0).setSeg .ss 0
  let s₁ := (s₀.set .rsp (s₀.reg .rsp &&& ~~~0xf#64)).setSeg .cs kselKcode
  let s₂ := { s₁ with core := { s₁.core with rflags := c.rflags &&& ~~~0x34100#64 } }
  s₂.push ([(c.seg .ss).setWidth 64, c.reg .rsp, c.rflags, (c.seg .cs).setWidth 64, c.rip] ++
    errcode.toList)

/-- `iretq` pops all five words.  Data segments that user mode may not use would be
cleared on the way there; a user program has none of them. -/
def iretq (s : State) : State :=
  let sp := s.reg .rsp
  let s₁ := (s.setSeg .cs ((ld s.mem (sp + 8)).setWidth 16)).setSeg .ss
    ((ld s.mem (sp + 32)).setWidth 16)
  let s₂ := s₁.set .rsp (ld s.mem (sp + 24))
  { s₂ with core := { s₂.core with rip := ld s.mem sp, rflags := ld s.mem (sp + 16) } }

/-! ## `trap64.S` -/

/-- `__am_irq##id`, or `__am_irqall` for the other vectors, up to `jmp trap`. -/
def irqStub (vector : Fin 256) : List Instr :=
  match irqOf vector with
  | some irq =>
      [.cli] ++ (if irq.err then [] else [.pushi 0]) ++ [.pushi (BitVec.ofNat 64 irq.id)]
  | none => [.cli, .pushi 0, .pushi (-1)]

/-- The registers in the order in which they are popped. -/
def gprs : List Gpr :=
  [.rax, .rbx, .rcx, .rdx, .rbp, .rsi, .rdi, .r8, .r9, .r10, .r11, .r12, .r13, .r14, .r15]

/-- `trap`, up to the call of `__am_irq_handle`. -/
def trap : List Instr :=
  [.cli, .subq 48 .rsp] ++ gprs.reverse.map (fun r => .pushq (.gpr r)) ++
    [.pushi 0, .movq .rsp (.gpr .rdi)]

/-- From the interrupted instruction to the entry of `__am_irq_handle`; `ret` is
the address of `__am_iret`. -/
def enterHandle (vector : Fin 256) (errcode : Option Word) (ret : Word) (s : State) : State :=
  (run trap (run (irqStub vector) (interrupt errcode s))).push [ret]

/-- `__am_iret` -/
def amIret : List Instr :=
  [.movq (.gpr .rdi) .rsp, .load 160 .rsp (.gpr .rax), .movwToSeg .ds, .movwToSeg .es,
    .addq 8 .rsp] ++ gprs.map (fun r => .popq (.gpr r))

/-- `__am_iret` to its end. -/
def runIret (s : State) : State := iretq (run amIret s)

/-- `__am_kcontext_start`; `panic` is the address of `__am_panic_on_return`. -/
def kcontextStart (panic : Word) : List Instr := [.pushi panic, .jmpq (.gpr .rsi)]

/-! ## `struct Context` and `__am_irq_handle` -/

/-- The members of `struct Context`. -/
inductive Field where
  | cr3
  | gpr (r : Gpr)
  | rip | cs | rflags | rsp | ss | rsp0
  deriving DecidableEq, Repr

/-- The word of `struct Context` that a member is. -/
def Field.index : Field → Nat
  | .cr3 => 0
  | .gpr r => r.ctorIdx + 1
  | .rip => 16
  | .cs => 17
  | .rflags => 18
  | .rsp => 19
  | .ss => 20
  | .rsp0 => 21

/-- The members of `struct trap_frame` behind `saved_context`. -/
inductive Tail where
  | irq | errcode | rip | cs | rflags | rsp | ss
  deriving DecidableEq, Repr

/-- The word of the frame that the member is. -/
def Tail.index (f : Tail) : Nat := 22 + f.ctorIdx

/-- `sizeof(Context)`. -/
def sizeofContext : Nat := 176

/-- `sizeof(struct trap_frame)`. -/
def sizeofTrapFrame : Nat := 232

/-- Word `k` from `a` on. -/
def word (m : Mem) (a : Word) (k : Nat) : Word := ld m (slot 8 a k)

/-- A member of the context at `a`, stored. -/
def setField (a : Word) (f : Field) (v : Word) (m : Mem) : Mem := st m (slot 8 a f.index) v

/-- `__am_irq_handle` up to the call of the user handler: `tf` is its argument. -/
def irqSave (c : Core) (tf : Word) (m : Mem) : Mem :=
  let m := setField tf .rip (word m tf Tail.rip.index) m
  let m := setField tf .cs (word m tf Tail.cs.index) m
  let m := setField tf .rflags (word m tf Tail.rflags.index) m
  let m := setField tf .rsp (word m tf Tail.rsp.index) m
  let m := setField tf .rsp0 c.rsp0 m
  let m := setField tf .ss (word m tf Tail.ss.index) m
  setField tf .cr3 c.cr3 m

/-- What `__am_irq_handle` does with the context `ctx` that the user handler has
returned, before it calls `__am_iret`. -/
def irqRestore (ctx : Word) (s : State) : State :=
  let cr3 := word s.mem ctx Field.cr3.index
  if cr3 ≠ 0 then
    { s with core := { s.core with cr3 := cr3, rsp0 := word s.mem ctx Field.rsp0.index } }
  else s

/-- `(Context) { 0 }` at `ctx`. -/
def clearContext (ctx : Word) (m : Mem) : Mem := fun x =>
  if InBlock ctx sizeofContext x then 0 else m x

/-- `kcontext`: `kend` is the end of the kernel stack, `start` the address of
`__am_kcontext_start`. -/
def kcontext (start kend entry arg : Word) (m : Mem) : Mem :=
  let ctx := kend - BitVec.ofNat 64 sizeofContext
  let m := clearContext ctx m
  let m := setField ctx .cs (kselKcode.setWidth 64) m
  let m := setField ctx .rip start m
  let m := setField ctx .rflags rflagsIF m
  let m := setField ctx .rsp kend m
  let m := setField ctx (.gpr .rdi) arg m
  setField ctx (.gpr .rsi) entry m

/-- `ucontext`: `ptr` is `as->ptr`. -/
def ucontext (ptr kend entry : Word) (m : Mem) : Mem :=
  let ctx := kend - BitVec.ofNat 64 sizeofContext
  let m := clearContext ctx m
  let m := setField ctx .cs (BitVec.ofNat 64 (usel segUcode)) m
  let m := setField ctx .ss (BitVec.ofNat 64 (usel segUdata)) m
  let m := setField ctx .rip entry m
  let m := setField ctx .rflags rflagsIF m
  let m := setField ctx .rsp (BitVec.ofNat 64 (Vme.uvmArea .x86_64).stop) m
  let m := setField ctx .rsp0 kend m
  setField ctx .cr3 ptr m

end AbstractMachine.X86.Trap64
