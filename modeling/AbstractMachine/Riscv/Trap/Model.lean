import AbstractMachine.Lib.ByteMem
import Mathlib.Logic.Function.Basic

/-!
# Trap entry and exit on RISC-V

The two `trap.S`, of `riscv/nemu` and `riscv/npc`, as lists of instructions
over a hart with byte-addressed memory.  Both are generated from the same
macros; they differ in the size of the frame, and in that nemu sets a bit of
`mstatus` while the handler runs.  The word size and the size of the register
file are those of the target.
-/

namespace AbstractMachine.Riscv

open AbstractMachine.Lib

/-! ## Targets -/

/-- The platforms whose `trap.S` and `cte.c` are modelled. -/
inductive Platform where
  | nemu
  | npc
  deriving DecidableEq, Repr

/-- `__riscv_xlen`. -/
inductive Xlen where
  | rv32
  | rv64
  deriving DecidableEq, Repr

/-- A platform with an instruction set; `e` is `__riscv_e`. -/
structure Target where
  platform : Platform
  xlen : Xlen
  e : Bool
  deriving DecidableEq, Repr

/-- nemu with 32-bit words. -/
def rv32 : Target := ⟨.nemu, .rv32, false⟩

/-- nemu with 16 registers. -/
def rv32e : Target := ⟨.nemu, .rv32, true⟩

/-- nemu with 64-bit words. -/
def rv64 : Target := ⟨.nemu, .rv64, false⟩

section

variable (t : Target)

/-- `XLEN`, the bytes of a word. -/
def XLEN : Nat :=
  match t.xlen with
  | .rv32 => 4
  | .rv64 => 8

/-- A machine word, of `XLEN` bytes. -/
abbrev Word := BitVec (8 * XLEN t)

/-- `NR_REGS`. -/
def nrRegs : Nat := if t.e then 16 else 32

/-! ## Machine -/

/-- A register number; `rv32e` uses the lower half. -/
abbrev Reg := Fin 32

/-- Register numbers are written as literals. -/
instance neZeroRegs : @NeZero Nat Zero.ofOfNat0 32 := ⟨by decide⟩

/-- The stack pointer. -/
def sp : Reg := 2

/-- A temporary, of `trap.S` for `mcause`. -/
def t0 : Reg := 5

/-- A temporary, for `mstatus`. -/
def t1 : Reg := 6

/-- A temporary, for `mepc`. -/
def t2 : Reg := 7

/-- The argument and the result of `__am_irq_handle`. -/
def a0 : Reg := 10

/-- The control registers that `trap.S` moves. -/
inductive Csr where
  | mcause
  | mstatus
  | mepc
  deriving DecidableEq, Repr

/-- A hart; `x` at 0 is never looked at. -/
structure Hart where
  x : Reg → Word t
  csr : Csr → Word t
  mem : ByteMem (8 * XLEN t)

/-- The instructions of `trap.S`; `LOAD` and `STORE` move a word. -/
inductive Instr where
  | addi (rd rs : Reg) (imm : Int)
  | STORE (rs2 : Reg) (off : Nat) (rs1 : Reg)
  | LOAD (rd : Reg) (off : Nat) (rs1 : Reg)
  | csrr (rd : Reg) (csr : Csr)
  | csrw (csr : Csr) (rs : Reg)
  | li (rd : Reg) (imm : Nat)
  | or (rd rs1 rs2 : Reg)
  | mv (rd rs : Reg)

variable {t}

/-- The value of a register. -/
def Hart.get (h : Hart t) (r : Reg) : Word t := if r = 0 then 0 else h.x r

/-- A register written; `get` reads register 0 as zero. -/
def Hart.set (h : Hart t) (r : Reg) (v : Word t) : Hart t :=
  { h with x := Function.update h.x r v }

/-- What one instruction of `trap.S` does. -/
def exec (h : Hart t) : Instr → Hart t
  | .addi rd rs imm => h.set rd (h.get rs + BitVec.ofInt _ imm)
  | .STORE rs2 off rs1 =>
      { h with mem := ByteMem.store h.mem (h.get rs1 + BitVec.ofNat _ off) (h.get rs2) }
  | .LOAD rd off rs1 =>
      h.set rd (ByteMem.load h.mem (h.get rs1 + BitVec.ofNat _ off) (XLEN t))
  | .csrr rd csr => h.set rd (h.csr csr)
  | .csrw csr rs => { h with csr := Function.update h.csr csr (h.get rs) }
  | .li rd imm => h.set rd (BitVec.ofNat _ imm)
  | .or rd rs1 rs2 => h.set rd (h.get rs1 ||| h.get rs2)
  | .mv rd rs => h.set rd (h.get rs)

/-- A straight line of instructions.  Proofs go by the theorems about it. -/
@[irreducible] def run (is : List Instr) (h : Hart t) : Hart t := is.foldl exec h

variable (t)

/-! ## `trap.S` -/

/-- `REGS_LO16`, with neither 0 nor `sp`. -/
def REGS_LO16 : List Reg := [1, 3, 4, 5, 6, 7, 8, 9, 10, 11, 12, 13, 14, 15]

/-- `REGS_HI16`, empty for `rv32e`. -/
def REGS_HI16 : List Reg :=
  if t.e then []
  else [16, 17, 18, 19, 20, 21, 22, 23, 24, 25, 26, 27, 28, 29, 30, 31]

/-- `REGS`, in the order of the pushes. -/
def REGS : List Reg := REGS_LO16 ++ REGS_HI16 t

/-- `PUSH(n)`: register `n` to its slot. -/
def PUSH (n : Reg) : Instr := .STORE n (n * XLEN t) sp

/-- `POP(n)`: register `n` from its slot. -/
def POP (n : Reg) : Instr := .LOAD n (n * XLEN t) sp

/-- The words of the frame.  `struct Context` has one more than nemu makes
room for, `pdir`. -/
def contextWords : Nat :=
  match t.platform with
  | .nemu => nrRegs t + 3
  | .npc => nrRegs t + 3 + 1

/-- `CONTEXT_SIZE`, which differs between the platforms. -/
def CONTEXT_SIZE : Nat := contextWords t * XLEN t

/-- The slot of `mcause`, after the registers. -/
def OFFSET_CAUSE : Nat := (nrRegs t + 0) * XLEN t

/-- The slot of `mstatus`. -/
def OFFSET_STATUS : Nat := (nrRegs t + 1) * XLEN t

/-- The slot of `mepc`. -/
def OFFSET_EPC : Nat := (nrRegs t + 2) * XLEN t

/-- The stores of the three control registers. -/
def saveCsrs : List Instr :=
  [ .csrr t0 .mcause
  , .csrr t1 .mstatus
  , .csrr t2 .mepc
  , .STORE t0 (OFFSET_CAUSE t) sp
  , .STORE t1 (OFFSET_STATUS t) sp
  , .STORE t2 (OFFSET_EPC t) sp ]

/-- The loads after the stack pointer has been switched. -/
def loadCsrs : List Instr :=
  [ .LOAD t1 (OFFSET_STATUS t) sp
  , .LOAD t2 (OFFSET_EPC t) sp
  , .csrw .mstatus t1
  , .csrw .mepc t2 ]

/-- nemu sets `mstatus.MPRV` to pass difftest. -/
def setMprv : List Instr :=
  match t.platform with
  | .nemu => [.li a0 (1 <<< 17), .or t1 t1 a0, .csrw .mstatus t1]
  | .npc => []

/-- `__am_asm_trap` up to `jal __am_irq_handle`. -/
def trapEntry : List Instr :=
  [.addi sp sp (-CONTEXT_SIZE t)]
  ++ (REGS t).map (PUSH t)
  ++ saveCsrs t
  ++ setMprv t
  ++ [.mv a0 sp]

/-- The rest, up to `mret`. -/
def trapExit : List Instr :=
  [.mv sp a0]
  ++ loadCsrs t
  ++ (REGS t).map (POP t)
  ++ [.addi sp sp (CONTEXT_SIZE t)]

variable {t}

/-! ## `__am_irq_handle` -/

/-- The word `k` of the context at `c`. -/
def word (m : ByteMem (8 * XLEN t)) (c : Word t) (k : Nat) : Word t :=
  ByteMem.load m (ByteMem.slot (XLEN t) c k) (XLEN t)

/-- The kinds of an `Event`. -/
inductive Event where
  | null
  | yield
  | syscall
  | pagefault
  | error
  | irqTimer
  | irqIodev
  deriving DecidableEq, Repr

/-- The register that holds the number of a call, `a5` or `a7`. -/
def callRegister (t : Target) : Nat := if t.e then 15 else 17

/-- The event of the context at `c`. -/
def event (m : ByteMem (8 * XLEN t)) (c : Word t) : Event :=
  match t.platform with
  | .nemu =>
      if word m c (nrRegs t) = 11 then
        let callNumber : BitVec 32 := (word m c (callRegister t)).setWidth 32
        if callNumber = -1 then .yield else .syscall
      else .error
  | .npc => if word m c (nrRegs t) = 11 then .yield else .error

/-- `__am_irq_handle`, with the value the user handler returns, if there is
one. -/
def irqHandle (userHandler : Option (Event → Word t → Word t)) (m : ByteMem (8 * XLEN t))
    (c : Word t) : Word t :=
  match userHandler with
  | some handler => handler (event m c) c
  | none => c

/-! ## `kcontext` -/

/-- `Area`; the second member is `end`. -/
structure Area (t : Target) where
  start : Word t
  fin : Word t

/-- A store through a `uint32_t *`. -/
def st32 (m : ByteMem (8 * XLEN t)) (p : Word t) (i : Nat) (v : BitVec 32) :
    ByteMem (8 * XLEN t) :=
  ByteMem.store m (ByteMem.slot 4 p i) (n := 4) v

/-- The two `kcontext`, which lay out a context of `n` registers by hand. -/
def kcontextWith (n : Nat) (kstack : Area t) (entry arg : Word t) (m : ByteMem (8 * XLEN t)) :
    Word t × ByteMem (8 * XLEN t) :=
  let stack := kstack.fin - BitVec.ofNat _ (4 * (n + 4))
  let m := (List.range n).foldl (fun m i => st32 m stack i 0) m
  let m := st32 m stack 10 (arg.setWidth 32)
  -- mcause, mstatus, mepc and the address space
  let m := st32 m stack n 11
  let m := st32 m stack (n + 1) 0x1800
  let m := st32 m stack (n + 2) (entry.setWidth 32)
  let m := st32 m stack (n + 3) 0
  let m := st32 m kstack.start 0 (stack.setWidth 32)
  (stack, m)

/-- The registers that `kcontext` makes room for: 32 on nemu, whatever the
instruction set, and 16 on npc. -/
def kcontextRegs (t : Target) : Nat :=
  match t.platform with
  | .nemu => 32
  | .npc => 16

/-- `kcontext`: a context at the top of the stack. -/
def kcontext (kstack : Area t) (entry arg : Word t) (m : ByteMem (8 * XLEN t)) :
    Word t × ByteMem (8 * XLEN t) :=
  kcontextWith (kcontextRegs t) kstack entry arg m

end

end AbstractMachine.Riscv
