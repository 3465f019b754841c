import AbstractMachine.Rvmini.Rv32i
import Mathlib

/-!
# Assembled programs

The compiler writes a list of instructions; the assembler replaces each by the
base instructions of its macro and puts the results one after another.  A label
is the index of the instruction it stands before.

## Main definitions

* `Inst` -- an instruction as the compiler writes it, and `Inst.expand`, its macro.
* `Inst.Accepted` -- the operands that a macro is meant for.
* `Program` -- instructions that are accepted and fit into the address space.
* `Program.step` -- the machine that runs the base instructions.
-/

namespace AbstractMachine.Rvmini

open AbstractMachine.Lib

/-! ## Instructions -/

/-- Two registers in. -/
inductive RType where
  | sub | and | or | xor | slt | sltu | sll | srl | sra | sgt | sgtu
  deriving DecidableEq, Repr

/-- A register and an immediate in. -/
inductive IType where
  | andi | ori | xori | slti | sltiu
  deriving DecidableEq, Repr

/-- A shift by an immediate. -/
inductive ShiftI where
  | slli | srli | srai
  deriving DecidableEq, Repr

/-- One register in. -/
inductive Unary where
  | not | neg | snez | seqz | sltz | sgtz
  deriving DecidableEq, Repr

/-- The loads that are replaced. -/
inductive Load where
  | lb | lh | lhu
  deriving DecidableEq, Repr

/-- Branches on two registers. -/
inductive Branch where
  | beq | bne | blt | bge | bltu | bgeu | bgt | ble | bgtu | bleu
  deriving DecidableEq, Repr

/-- Branches on one register and zero. -/
inductive BranchZ where
  | beqz | bnez | blez | bgez | bltz | bgtz
  deriving DecidableEq, Repr

/-- What `la` loads. -/
inductive Symbol where
  | code (label : Nat)
  | data (addr : Word)
  deriving DecidableEq, Repr

/-- The address of a symbol; `addr` gives those of the labels. -/
def Symbol.value (addr : Nat → Word) : Symbol → Word
  | .code label => addr label
  | .data a => a

/-- The instructions that go on to the next one. -/
inductive Data where
  | op (op : Op)
  | la (rd : Reg) (sym : Symbol)
  | rtype (f : RType) (rd rs1 rs2 : Name)
  | itype (f : IType) (rd rs1 : Name) (imm : BitVec 12)
  | shift (f : ShiftI) (rd rs1 : Name) (shamt : Nat)
  | unary (f : Unary) (rd rs : Name)
  | load (f : Load) (rd : Reg) (off : Int) (base : Reg)
  | sh (rs : Reg) (off : Int) (base : Reg)
  deriving DecidableEq, Repr

/-- The instructions that leave the straight line. -/
inductive Jump where
  | jalr (rd : Reg) (off : Int) (rs1 : Reg)
  | jal (rd : Name) (label : Nat)
  | call (label : Nat)
  | tail (label : Nat)
  | j (label : Nat)
  | branch (f : Branch) (rs1 rs2 : Name) (label : Nat)
  | branchz (f : BranchZ) (rs : Name) (label : Nat)
  deriving DecidableEq, Repr

/-- An instruction as it is written. -/
inductive Inst where
  | data (d : Data)
  | jump (j : Jump)
  deriving DecidableEq, Repr

/-! ## Their macros -/

section

variable (rodata : Word)

/-- The macro of the instruction; it may refuse its operands. -/
def RType.ops (rd rs1 rs2 : Name) : RType → Option (List Op)
  | .sub => some (Macro.sub rodata rd.reg rs1.reg rs2.reg)
  | .and => Macro.and rodata rd rs1 rs2
  | .or => Macro.or rodata rd rs1 rs2
  | .xor => Macro.xor rodata rd rs1 rs2
  | .slt => some (Macro.slt rodata rd.reg rs1.reg rs2.reg)
  | .sltu => some (Macro.sltu rodata rd.reg rs1.reg rs2.reg)
  | .sll => some (Macro.sll rodata rd.reg rs1.reg rs2.reg)
  | .srl => some (Macro.srl rodata rd.reg rs1.reg rs2.reg)
  | .sra => some (Macro.sra rodata rd.reg rs1.reg rs2.reg)
  | .sgt => some (Macro.sgt rodata rd.reg rs1.reg rs2.reg)
  | .sgtu => some (Macro.sgtu rodata rd.reg rs1.reg rs2.reg)

/-- The macro of the instruction; it may refuse its operands. -/
def IType.ops (rd rs1 : Name) (imm : BitVec 12) : IType → Option (List Op)
  | .andi => Macro.andi rodata rd rs1 imm
  | .ori => Macro.ori rodata rd rs1 imm
  | .xori => Macro.xori rodata rd rs1 imm
  | .slti => some (Macro.slti rodata rd.reg rs1.reg imm)
  | .sltiu => some (Macro.sltiu rodata rd.reg rs1.reg imm)

/-- The macro of the instruction. -/
def ShiftI.ops (rd rs1 : Name) (shamt : Nat) : ShiftI → List Op
  | .slli => Macro.slli rd rs1 shamt
  | .srli => Macro.srli rodata rd.reg rs1.reg shamt
  | .srai => Macro.srai rodata rd.reg rs1.reg shamt

/-- The macro of the instruction. -/
def Unary.ops (rd rs : Reg) : Unary → List Op
  | .not => Macro.not rodata rd rs
  | .neg => Macro.neg rodata rd rs
  | .snez => Macro.snez rodata rd rs
  | .seqz => Macro.seqz rodata rd rs
  | .sltz => Macro.sltz rd rs
  | .sgtz => Macro.sgtz rodata rd rs

/-- The macro of the instruction. -/
def Load.ops (rd : Reg) (off : Int) (base : Reg) : Load → List Op
  | .lb => Macro.lb rodata rd off base
  | .lh => Macro.lh rodata rd off base
  | .lhu => Macro.lhu rd off base

/-- The macro of the instruction, with the addresses of its target and of its successor. -/
def Branch.code (rs1 rs2 : Name) (target next : Word) : Branch → List Instr
  | .beq => Macro.beq rodata rs1 rs2 target next
  | .bne => Macro.bne rodata rs1 rs2 target next
  | .blt => Macro.blt rodata rs1 rs2 target next
  | .bge => Macro.bge rodata rs1 rs2 target next
  | .bltu => Macro.bltu rodata rs1 rs2 target next
  | .bgeu => Macro.bgeu rodata rs1 rs2 target next
  | .bgt => Macro.bgt rodata rs1 rs2 target next
  | .ble => Macro.ble rodata rs1 rs2 target next
  | .bgtu => Macro.bgtu rodata rs1 rs2 target next
  | .bleu => Macro.bleu rodata rs1 rs2 target next

/-- The macro of the instruction, with the addresses of its target and of its successor. -/
def BranchZ.code (rs : Name) (target next : Word) : BranchZ → List Instr
  | .beqz => Macro.beqz rodata rs target next
  | .bnez => Macro.bnez rodata rs target next
  | .blez => Macro.blez rodata rs target next
  | .bgez => Macro.bgez rodata rs target next
  | .bltz => Macro.bltz rodata rs target next
  | .bgtz => Macro.bgtz rodata rs target next

/-- `addr` says where the labels are. -/
def Data.ops (addr : Nat → Word) : Data → Option (List Op)
  | .op o => some [o]
  | .la rd sym => some (Macro.la rd (sym.value addr))
  | .rtype f rd rs1 rs2 => f.ops rodata rd rs1 rs2
  | .itype f rd rs1 imm => f.ops rodata rd rs1 imm
  | .shift f rd rs1 shamt => some (f.ops rodata rd rs1 shamt)
  | .unary f rd rs => some (f.ops rodata rd.reg rs.reg)
  | .load f rd off base => some (f.ops rodata rd off base)
  | .sh rs off base => some (Macro.sh rs off base)

/-- `next` is the address of the next instruction. -/
def Jump.code (addr : Nat → Word) (next : Word) : Jump → List Instr
  | .jalr rd off rs1 => [.jalr rd off rs1]
  | .jal rd label => Macro.jal rd (addr label)
  | .call label => Macro.call (addr label)
  | .tail label => Macro.tail (addr label)
  | .j label => Macro.j (addr label)
  | .branch f rs1 rs2 label => f.code rodata rs1 rs2 (addr label) next
  | .branchz f rs label => f.code rodata rs (addr label) next

/-- `none` if the macro stops the assembler. -/
def Inst.expand (addr : Nat → Word) (next : Word) : Inst → Option (List Instr)
  | .data d => (d.ops rodata addr).map (·.map .op)
  | .jump j => some (j.code rodata addr next)

/-! ## Operands -/

/-- The logic macros refuse `sp` by its name only. -/
def RType.Takes (rd rs1 rs2 : Name) (f : RType) : Prop :=
  (f.ops rodata rd rs1 rs2).isSome ∧ (f = .and ∨ f = .or ∨ f = .xor → rd ≠ .x .sp)

/-- The macro expands, and the logical ones do not have `x2` as their target. -/
def IType.Takes (rd rs1 : Name) (imm : BitVec 12) (f : IType) : Prop :=
  (f.ops rodata rd rs1 imm).isSome ∧ (f = .andi ∨ f = .ori ∨ f = .xori → rd ≠ .x .sp)

/-- The zero test puts back `s0` after its result, and `seqz`, `sltz` and `lb` use
their destination together with `sp`. -/
def Data.Takes : Data → Prop
  | .rtype f rd rs1 rs2 => f.Takes rodata rd rs1 rs2
  | .itype f rd rs1 imm => f.Takes rodata rd rs1 imm
  | .shift _ _ _ shamt => shamt < 32
  | .unary f rd _ => (f = .seqz → rd.reg ≠ .s0 ∧ rd.reg ≠ .sp) ∧ (f = .sltz → rd.reg ≠ .sp)
  | .load f rd _ _ => f = .lb → rd ≠ .sp
  | _ => True

end

/-- The operands of the instruction. -/
def Op.regs : Op → List Reg
  | .add rd rs1 rs2 => [rd, rs1, rs2]
  | .addi rd rs1 _ => [rd, rs1]
  | .lui rd _ => [rd]
  | .lw rd _ rs1 => [rd, rs1]
  | .lbu rd _ rs1 => [rd, rs1]
  | .sw rs2 _ rs1 => [rs2, rs1]
  | .sb rs2 _ rs1 => [rs2, rs1]

/-- The operands of the instruction. -/
def Data.regs : Data → List Reg
  | .op o => o.regs
  | .la rd _ => [rd]
  | .rtype _ rd rs1 rs2 => [rd.reg, rs1.reg, rs2.reg]
  | .itype _ rd rs1 _ => [rd.reg, rs1.reg]
  | .shift _ rd rs1 _ => [rd.reg, rs1.reg]
  | .unary _ rd rs => [rd.reg, rs.reg]
  | .load _ rd _ base => [rd, base]
  | .sh rs _ base => [rs, base]

/-- The operands of the instruction. -/
def Jump.regs : Jump → List Reg
  | .jalr rd _ rs1 => [rd, rs1]
  | .jal rd _ => [rd.reg]
  | .call _ => []
  | .tail _ => []
  | .j _ => []
  | .branch _ rs1 rs2 _ => [rs1.reg, rs2.reg]
  | .branchz _ rs _ => [rs.reg]

/-- The compiler does not use `tp` and `gp`. -/
def Ordinary (rs : List Reg) : Prop := ∀ r ∈ rs, r ≠ .tp ∧ r ≠ .gp

instance (rs : List Reg) : Decidable (Ordinary rs) := by
  unfold Ordinary
  infer_instance

/-- The operands are ordinary registers, and the macros take them. -/
def Inst.Accepted (rodata : Word) : Inst → Prop
  | .data d => Ordinary d.regs ∧ d.Takes rodata
  | .jump j => Ordinary j.regs

/-! ## Layout -/

/-- How many base instructions it takes: as many wherever the labels are. -/
def Inst.size (rodata : Word) (inst : Inst) : Nat :=
  ((inst.expand rodata (fun _ => 0) 0).getD []).length

/-- How many base instructions stand before instruction `i`. -/
def offsetOf (rodata : Word) (code : List Inst) (i : Nat) : Nat :=
  ((code.take i).map (Inst.size rodata)).sum

/-- A program with the address of its code and of its tables. -/
structure Program where
  rodata : Word
  base : Word
  code : List Inst
  accepted : ∀ inst ∈ code, inst.Accepted rodata
  aligned : Aligned base
  fits : base.toNat + 4 * offsetOf rodata code code.length ≤ 2 ^ 32

namespace Program

variable (p : Program)

/-- The address of instruction `i` once all before it are expanded. -/
def addr (i : Nat) : Word := p.base + BitVec.ofNat 32 (4 * offsetOf p.rodata p.code i)

/-- What instruction `i` expands to, at its address. -/
def block (i : Nat) (inst : Inst) : List Instr :=
  (inst.expand p.rodata p.addr (p.addr (i + 1))).getD []

/-- The base instructions in the order of their addresses. -/
def image : List Instr := (p.code.mapIdx p.block).flatten

/-- The instruction in memory at an address. -/
def fetch (a : Word) : Option Instr :=
  if (a - p.base).toNat % 4 = 0 then p.image[(a - p.base).toNat / 4]? else none

/-- The machine. -/
def step (t : State) : Option State := (p.fetch t.pc).bind (Rvmini.step t)

end Program

/-! ## Sizes -/

theorem length_la (r : Reg) (a : Word) : (Macro.la r a).length = 2 := rfl

private theorem length_call_template (r : Reg) (a : Word) :
    (Macro.call_template r a).length = 3 := rfl

theorem length_jal (rd : Name) (a : Word) : (Macro.jal rd a).length = 3 := by
  unfold Macro.jal
  split
  · exact length_call_template _ _
  · exact length_call_template _ _

private theorem length_tail (a : Word) : (Macro.tail a).length = 6 := rfl

/-- A branch is a test, and then a jump of one size. -/
theorem length_branch (is : List Instr) (target label : Word) (hi : Bool) :
    (is ++ Macro.branch_resolve target label hi).length =
      (is ++ Macro.branch_resolve 0 0 hi).length := by
  unfold Macro.branch_resolve
  cases hi <;> simp [length_la]

private theorem length_blt (rodata : Word) (rs1 rs2 : Name) (target label : Word) :
    (Macro.blt rodata rs1 rs2 target label).length =
      (Macro.blt rodata rs1 rs2 0 0).length := by
  unfold Macro.blt
  split
  · exact length_branch _ _ _ _
  · split
    · exact length_branch _ _ _ _
    · exact length_branch _ _ _ _

private theorem length_bge (rodata : Word) (rs1 rs2 : Name) (target label : Word) :
    (Macro.bge rodata rs1 rs2 target label).length =
      (Macro.bge rodata rs1 rs2 0 0).length := by
  unfold Macro.bge
  split
  · exact length_branch _ _ _ _
  · exact length_branch _ _ _ _

/-- The labels do not change the size of a jump. -/
theorem Jump.length_code (rodata : Word) (addr : Nat → Word) (next : Word) (j : Jump) :
    (j.code rodata addr next).length = (j.code rodata (fun _ => 0) 0).length := by
  cases j with
  | jalr => rfl
  | jal => exact (length_jal _ _).trans (length_jal _ _).symm
  | call => exact (length_call_template _ _).trans (length_call_template _ _).symm
  | tail => exact (length_tail _).trans (length_tail _).symm
  | j => exact (length_call_template _ _).trans (length_call_template _ _).symm
  | branch f rs1 rs2 label =>
      cases f with
      | beq => exact length_branch _ _ _ _
      | bne => exact length_branch _ _ _ _
      | blt => exact length_blt _ _ _ _ _
      | bge => exact length_bge _ _ _ _ _
      | bltu => exact length_branch _ _ _ _
      | bgeu => exact length_branch _ _ _ _
      | bgt => exact length_blt _ _ _ _ _
      | ble => exact length_bge _ _ _ _ _
      | bgtu => exact length_branch _ _ _ _
      | bleu => exact length_branch _ _ _ _
  | branchz f rs label =>
      cases f with
      | beqz => exact length_branch _ _ _ _
      | bnez => exact length_branch _ _ _ _
      | blez => exact length_bge rodata (.x .zero) rs _ _
      | bgez => exact length_bge rodata rs (.x .zero) _ _
      | bltz => exact length_blt rodata rs (.x .zero) _ _
      | bgtz => exact length_blt rodata (.x .zero) rs _ _

theorem Inst.length_expand (rodata : Word) (addr : Nat → Word) (next : Word) (inst : Inst) :
    ((inst.expand rodata addr next).getD []).length = inst.size rodata := by
  cases inst with
  | jump j => exact j.length_code rodata addr next
  | data d =>
      cases d with
      | la rd sym => exact (List.length_map _).trans (length_la _ _)
      | op => rfl
      | rtype => rfl
      | itype => rfl
      | shift => rfl
      | unary => rfl
      | load => rfl
      | sh => rfl

end AbstractMachine.Rvmini
