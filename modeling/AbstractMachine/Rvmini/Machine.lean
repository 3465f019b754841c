import AbstractMachine.Lib.ByteMem
import Mathlib.Logic.Function.Basic

/-!
# The base instructions

rvmini replaces the instructions of RV32I by sequences of `add`, `addi`,
`lui`, `lw`, `lbu`, `sw`, `sb` and `jalr`.  A word that is not aligned cannot
be loaded or stored.
-/

namespace AbstractMachine.Rvmini

open AbstractMachine.Lib

/-- A register, or a word of memory. -/
abbrev Word := BitVec 32

/-! ## Registers -/

/-- The registers by the names of the calling convention. -/
inductive Reg where
  | zero | ra | sp | gp | tp | t0 | t1 | t2 | s0 | s1
  | a0 | a1 | a2 | a3 | a4 | a5 | a6 | a7
  | s2 | s3 | s4 | s5 | s6 | s7 | s8 | s9 | s10 | s11
  | t3 | t4 | t5 | t6
  deriving DecidableEq, Repr

/-- A register operand as it is written.  The conditions of the macros compare
operands as texts. -/
inductive Name where
  /-- The name in the calling convention, such as `a0`. -/
  | abi (r : Reg)
  /-- The number, such as `x10`. -/
  | x (r : Reg)
  /-- The other name of `s0`. -/
  | fp
  deriving DecidableEq, Repr

/-- The register that the text stands for. -/
def Name.reg : Name → Reg
  | .abi r => r
  | .x r => r
  | .fp => .s0

/-! ## The register file -/

/-- Register 0 reads as zero. -/
def read (x : Reg → Word) (r : Reg) : Word := if r = .zero then 0 else x r

/-- A write to register 0 is dropped. -/
def write (x : Reg → Word) (r : Reg) (v : Word) : Reg → Word :=
  if r = .zero then x else Function.update x r v

section

variable {x : Reg → Word} {r s : Reg} {v v' : Word}

@[simp] theorem read_zero : read x .zero = 0 := if_pos rfl

@[simp] theorem write_zero : write x .zero v = x := if_pos rfl

@[simp] theorem read_write_self (hr : r ≠ .zero) : read (write x r v) r = v := by
  rw [read, if_neg hr, write, if_neg hr, Function.update_self]

@[simp] theorem read_write_ne (hr : s ≠ r) : read (write x r v) s = read x s := by
  unfold read write
  by_cases h0 : r = .zero
  · rw [if_pos h0]
  · rw [if_neg h0, Function.update_of_ne hr]

@[simp] theorem write_write : write (write x r v) r v' = write x r v' := by
  unfold write
  by_cases h0 : r = .zero
  · rw [if_pos h0, if_pos h0, if_pos h0]
  · rw [if_neg h0, if_neg h0, if_neg h0, Function.update_idem]

theorem write_comm (hr : r ≠ s) : write (write x r v) s v' = write (write x s v') r v := by
  unfold write
  by_cases hr0 : r = .zero
  · rw [if_pos hr0, if_pos hr0]
  · by_cases hs0 : s = .zero
    · rw [if_pos hs0, if_pos hs0]
    · rw [if_neg hr0, if_neg hs0, if_neg hs0, if_neg hr0, Function.update_comm hr.symm]

@[simp] theorem write_read : write x r (read x r) = x := by
  unfold write read
  by_cases h0 : r = .zero
  · rw [if_pos h0]
  · rw [if_neg h0, if_neg h0, Function.update_eq_self]

end

/-! ## Straight-line code -/

/-- The registers and the memory. -/
structure Core where
  x : Reg → Word
  mem : ByteMem 32

/-- A register read. -/
def Core.get (c : Core) (r : Reg) : Word := read c.x r

/-- A register written. -/
def Core.set (c : Core) (r : Reg) (v : Word) : Core := { c with x := write c.x r v }

/-- The straight-line instructions of minirv. -/
inductive Op where
  | add (rd rs1 rs2 : Reg)
  | addi (rd rs1 : Reg) (imm : Int)
  | lui (rd : Reg) (imm : BitVec 20)
  | lw (rd : Reg) (off : Int) (rs1 : Reg)
  | lbu (rd : Reg) (off : Int) (rs1 : Reg)
  | sw (rs2 : Reg) (off : Int) (rs1 : Reg)
  | sb (rs2 : Reg) (off : Int) (rs1 : Reg)
  deriving DecidableEq, Repr

/-- The address of a word. -/
def Aligned (a : Word) : Prop := a.toNat % 4 = 0

instance (a : Word) : Decidable (Aligned a) := by
  unfold Aligned
  infer_instance

/-- What an instruction does; `none` for a word that is not aligned. -/
def exec (c : Core) : Op → Option Core
  | .add rd rs1 rs2 => some (c.set rd (c.get rs1 + c.get rs2))
  | .addi rd rs1 imm => some (c.set rd (c.get rs1 + BitVec.ofInt 32 imm))
  | .lui rd imm => some (c.set rd (imm ++ 0#12))
  | .lw rd off rs1 =>
      let a := c.get rs1 + BitVec.ofInt 32 off
      if Aligned a then some (c.set rd (ByteMem.load c.mem a 4)) else none
  | .lbu rd off rs1 =>
      let a := c.get rs1 + BitVec.ofInt 32 off
      some (c.set rd ((c.mem a).setWidth 32))
  | .sw rs2 off rs1 =>
      let a := c.get rs1 + BitVec.ofInt 32 off
      if Aligned a then some { c with mem := ByteMem.store c.mem a (n := 4) (c.get rs2) }
      else none
  | .sb rs2 off rs1 =>
      let a := c.get rs1 + BitVec.ofInt 32 off
      some { c with mem := Function.update c.mem a ((c.get rs2).setWidth 8) }

/-- Straight-line code. -/
def runOps : List Op → Core → Option Core
  | [], c => some c
  | op :: ops, c => (exec c op).bind (runOps ops)

/-! ## Jumps -/

/-- The instructions of minirv: `jalr` is the only jump. -/
inductive Instr where
  | op (op : Op)
  | jalr (rd : Reg) (off : Int) (rs1 : Reg)
  deriving DecidableEq, Repr

/-- The processor, with the address of the next instruction. -/
structure State where
  core : Core
  pc : Word

/-- One instruction at `pc`. -/
def step (s : State) : Instr → Option State
  | .op op => (exec s.core op).map fun c => { core := c, pc := s.pc + 4 }
  | .jalr rd off rs1 =>
      some
        { core := s.core.set rd (s.pc + 4)
          pc := (s.core.get rs1 + BitVec.ofInt 32 off) &&& ~~~1 }

/-- A list of instructions one after another, wherever `pc` goes. -/
def run : List Instr → State → Option State
  | [], s => some s
  | i :: is, s => (step s i).bind (run is)

end AbstractMachine.Rvmini
