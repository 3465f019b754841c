import AbstractMachine.Rvmini.Layout

/-!
# Programs before the replacement

What a program means: it takes one step for each of its instructions, as RV32I
says.  The macros assume that the stack below `sp` is not in use and that nothing
else touches their tables; `Source.Step` takes only steps that keep to this.  What
has once been below `sp` may have been overwritten, and is not read before it is
written again.
-/

namespace AbstractMachine.Rvmini

open AbstractMachine.Lib ByteMem Rv32i

/-! ## Results of instructions -/

/-- What RV32I has for the instruction. -/
def RType.op : RType → Word → Word → Word
  | .sub => fun a b => a - b
  | .and => fun a b => a &&& b
  | .or => fun a b => a ||| b
  | .xor => fun a b => a ^^^ b
  | .slt => Rv32i.slt
  | .sltu => Rv32i.sltu
  | .sll => Rv32i.sll
  | .srl => Rv32i.srl
  | .sra => Rv32i.sra
  | .sgt => fun a b => flag (b.slt a)
  | .sgtu => fun a b => flag (b.ult a)

/-- What RV32I has for the instruction. -/
def IType.op : IType → Word → Word → Word
  | .andi => fun a b => a &&& b
  | .ori => fun a b => a ||| b
  | .xori => fun a b => a ^^^ b
  | .slti => Rv32i.slt
  | .sltiu => Rv32i.sltu

/-- What RV32I has for the instruction. -/
def ShiftI.op : ShiftI → Word → Word → Word
  | .slli => Rv32i.sll
  | .srli => Rv32i.srl
  | .srai => Rv32i.sra

/-- What the pseudo-instruction is for. -/
def Unary.op : Unary → Word → Word
  | .not => fun v => ~~~v
  | .neg => fun v => 0 - v
  | .snez => fun v => flag (BitVec.ult 0 v)
  | .seqz => fun v => flag (v == 0)
  | .sltz => fun v => flag (BitVec.slt v 0)
  | .sgtz => fun v => flag (BitVec.slt 0 v)

/-- What RV32I has for the load. -/
def Load.exec (rd : Reg) (off : Int) (base : Reg) : Load → Core → Core
  | .lb => Rv32i.lb rd off base
  | .lh => Rv32i.lh rd off base
  | .lhu => Rv32i.lhu rd off base

/-- How many bytes the load reads. -/
def Load.bytes : Load → Nat
  | .lb => 1
  | .lh => 2
  | .lhu => 2

/-- When the branch is taken. -/
def Branch.cond : Branch → Word → Word → Bool
  | .beq => fun a b => a == b
  | .bne => fun a b => a != b
  | .blt => fun a b => a.slt b
  | .bge => fun a b => b.sle a
  | .bltu => fun a b => a.ult b
  | .bgeu => fun a b => b.ule a
  | .bgt => fun a b => b.slt a
  | .ble => fun a b => a.sle b
  | .bgtu => fun a b => b.ult a
  | .bleu => fun a b => a.ule b

/-- When the branch is taken. -/
def BranchZ.cond : BranchZ → Word → Bool
  | .beqz => fun v => v == 0
  | .bnez => fun v => v != 0
  | .blez => fun v => v.sle 0
  | .bgez => fun v => BitVec.sle 0 v
  | .bltz => fun v => v.slt 0
  | .bgtz => fun v => BitVec.slt 0 v

/-- What RV32I has for a straight-line instruction; `none` for a word that is not aligned. -/
def Data.exec (addr : Nat → Word) : Data → Core → Option Core
  | .op o, c => Rvmini.exec c o
  | .la rd sym, c => some (c.set rd (sym.value addr))
  | .rtype f rd rs1 rs2, c => some (Rv32i.rtype f.op rd.reg rs1.reg rs2.reg c)
  | .itype f rd rs1 imm, c => some (Rv32i.itype f.op rd.reg rs1.reg imm c)
  | .shift f rd rs1 shamt, c => some (Rv32i.ishift f.op rd.reg rs1.reg shamt c)
  | .unary f rd rs, c => some (Rv32i.unary f.op rd.reg rs.reg c)
  | .load f rd off base, c => some (f.exec rd off base c)
  | .sh rs off base, c => some (Rv32i.sh rs off base c)

/-- The instruction at an address. -/
def Program.index (p : Program) (a : Word) : Option Nat :=
  (List.range p.code.length).find? fun i => p.addr i = a

/-- The core and the instruction after a jump, `i` of the program. -/
def Jump.exec (p : Program) (i : Nat) (c : Core) : Jump → Option (Core × Nat)
  | .jalr rd off rs1 =>
      (p.index ((c.get rs1 + BitVec.ofInt 32 off) &&& ~~~1)).map fun k =>
        (c.set rd (p.addr (i + 1)), k)
  | .jal rd label => some (c.set rd.reg (p.addr (i + 1)), label)
  | .call label => some (c.set .ra (p.addr (i + 1)), label)
  | .tail label => some (c, label)
  | .j label => some (c, label)
  | .branch f rs1 rs2 label =>
      some (c, if f.cond (c.get rs1.reg) (c.get rs2.reg) then label else i + 1)
  | .branchz f rs label => some (c, if f.cond (c.get rs.reg) then label else i + 1)

/-- Instruction `i`, with the index of the next one. -/
def Inst.exec (p : Program) (i : Nat) (c : Core) : Inst → Option (Core × Nat)
  | .data d => (d.exec p.addr c).map fun c' => (c', i + 1)
  | .jump j => j.exec p i c

/-! ## Memory accesses -/

/-- The first address and the number of bytes. -/
def Inst.reads (c : Core) : Inst → Option (Word × Nat)
  | .data (.op (.lw _ off rs1)) => some (c.get rs1 + BitVec.ofInt 32 off, 4)
  | .data (.op (.lbu _ off rs1)) => some (c.get rs1 + BitVec.ofInt 32 off, 1)
  | .data (.load f _ off base) => some (c.get base + BitVec.ofInt 32 off, f.bytes)
  | _ => none

/-- The bytes that a store writes. -/
def Inst.writes (c : Core) : Inst → Option (Word × Nat)
  | .data (.op (.sw _ off rs1)) => some (c.get rs1 + BitVec.ofInt 32 off, 4)
  | .data (.op (.sb _ off rs1)) => some (c.get rs1 + BitVec.ofInt 32 off, 1)
  | .data (.sh _ off base) => some (c.get base + BitVec.ofInt 32 off, 2)
  | _ => none

/-- The address is among the bytes of the access. -/
def Touches (access : Option (Word × Nat)) (x : Word) : Prop :=
  ∃ a n, access = some (a, n) ∧ InBlock a n x

/-- The tables, and the scratch area below `sp`. -/
def Reserved (rodata sp x : Word) : Prop := InScratch sp x ∨ InBlock rodata rodataSize x

/-! ## Runs -/

/-- A program that is running.  The bytes in `junk` hold nothing it may read. -/
structure Source (p : Program) where
  core : Core
  pc : Nat
  junk : Word → Prop
  reserved : ∀ x, Reserved p.rodata (core.get .sp) x → junk x

namespace Source

variable {p : Program}

/-- What the macros assume of an instruction. -/
structure Disciplined (s : Source p) (inst : Inst) : Prop where
  aligned : Aligned (s.core.get .sp)
  apart : Apart p.rodata rodataSize (s.core.get .sp - 28) scratchSize
  reads : ∀ x, Touches (inst.reads s.core) x → ¬ s.junk x
  writes : ∀ x, Touches (inst.writes s.core) x → ¬ Reserved p.rodata (s.core.get .sp) x

/-- A step of the program: what is written is no junk any more, and what is below
the new `sp` is. -/
structure Step (s s' : Source p) : Prop where
  step : ∃ inst, p.code[s.pc]? = some inst ∧ s.Disciplined inst ∧
    inst.exec p s.pc s.core = some (s'.core, s'.pc) ∧
    ∀ x, s'.junk x ↔
      (s.junk x ∧ ¬ Touches (inst.writes s.core) x) ∨ InScratch (s'.core.get .sp) x

end Source

end AbstractMachine.Rvmini
