import AbstractMachine.Rvmini.Lut

/-!
# The replaced instructions

What RV32I says about the instructions that rvmini replaces, and what it means
that base instructions do the same: they may use some registers and the scratch
area below the stack pointer as they like, and leave the rest as the replaced
instruction leaves it.
-/

namespace AbstractMachine.Rvmini

open AbstractMachine.Lib ByteMem

namespace Rv32i

/-! ## Results -/

/-- The result of a comparison. -/
def flag (b : Bool) : Word := if b then 1 else 0

/-- Signed comparison. -/
def slt (a b : Word) : Word := flag (a.slt b)

/-- Unsigned comparison. -/
def sltu (a b : Word) : Word := flag (a.ult b)

/-- Only the five low bits of an amount count. -/
def sll (a b : Word) : Word := a <<< (b.toNat % 32)

/-- Right shift, by the lower five bits of the amount. -/
def srl (a b : Word) : Word := a >>> (b.toNat % 32)

/-- Arithmetic right shift, by the lower five bits of the amount. -/
def sra (a b : Word) : Word := a.sshiftRight (b.toNat % 32)

/-! ## Instructions -/

/-- An instruction on two registers. -/
def rtype (op : Word → Word → Word) (rd rs1 rs2 : Reg) (c : Core) : Core :=
  c.set rd (op (c.get rs1) (c.get rs2))

/-- An instruction on a register and a sign-extended immediate. -/
def itype (op : Word → Word → Word) (rd rs1 : Reg) (imm : BitVec 12) (c : Core) : Core :=
  c.set rd (op (c.get rs1) (imm.signExtend 32))

/-- A shift by an immediate. -/
def ishift (op : Word → Word → Word) (rd rs1 : Reg) (shamt : Nat) (c : Core) : Core :=
  c.set rd (op (c.get rs1) (BitVec.ofNat 32 shamt))

/-- A pseudo-instruction with one operand. -/
def unary (op : Word → Word) (rd rs : Reg) (c : Core) : Core := c.set rd (op (c.get rs))

/-- A byte with its sign. -/
def lb (rd : Reg) (off : Int) (base : Reg) (c : Core) : Core :=
  c.set rd ((c.mem (c.get base + BitVec.ofInt 32 off)).signExtend 32)

/-- Two bytes with their sign. -/
def lh (rd : Reg) (off : Int) (base : Reg) (c : Core) : Core :=
  c.set rd ((load c.mem (c.get base + BitVec.ofInt 32 off) 2).signExtend 32)

/-- Two bytes. -/
def lhu (rd : Reg) (off : Int) (base : Reg) (c : Core) : Core :=
  c.set rd ((load c.mem (c.get base + BitVec.ofInt 32 off) 2).setWidth 32)

/-- The lower half of a register stored. -/
def sh (rs : Reg) (off : Int) (base : Reg) (c : Core) : Core :=
  { c with
    mem := store c.mem (c.get base + BitVec.ofInt 32 off) (n := 2) ((c.get rs).setWidth 16) }

end Rv32i

/-! ## Refinement -/

/-- The bytes below `sp` that the macros use. -/
def scratchSize : Nat := 28

/-- The scratch area. -/
def InScratch (sp a : Word) : Prop := InBlock (sp - 28) scratchSize a

instance (sp a : Word) : Decidable (InScratch sp a) := by
  unfold InScratch
  infer_instance

/-- The stack pointer and the memory that the macros are meant for. -/
structure Ready (rodata sp : Word) (m : ByteMem 32) : Prop where
  aligned : Aligned sp
  loaded : Loaded rodata m
  apart : Apart rodata rodataSize (sp - 28) scratchSize

theorem ready_image {rodata sp : Word} (hAlign : rodata.toNat % 256 = 0) (hSp : Aligned sp)
    (hBelow : rodata.toNat + rodataSize + scratchSize ≤ sp.toNat) :
    Ready rodata sp (image rodata) where
  aligned := hSp
  loaded := loaded_image hAlign
  apart := by
    have hLt := sp.isLt
    unfold scratchSize at hBelow ⊢
    have hSub : (sp - 28).toNat = sp.toNat - 28 :=
      BitVec.toNat_sub_of_le (BitVec.le_def.mpr (Nat.le_trans (Nat.le_add_left 28 _) hBelow))
    apply apart_of_le <;> omega

/-- The start of a program: every register but `sp` is 0. -/
def start (rodata sp : Word) : Core where
  x := fun r => if r = .sp then sp else 0
  mem := image rodata

/-- Equal but for the registers in `scratch` and the memory in `area`. -/
structure Alike (scratch : List Reg) (area : Word → Prop) (c c' : Core) : Prop where
  reg : ∀ r, r ∉ scratch → c'.get r = c.get r
  mem : ∀ a, ¬ area a → c'.mem a = c.mem a

/-- From `c`, the code `ops` does what `inst` does. -/
def Implements (c : Core) (scratch : List Reg) (ops : List Op) (inst : Core → Core) : Prop :=
  ∃ c', runOps ops c = some c' ∧ Alike scratch (InScratch (c.get .sp)) (inst c) c'

end AbstractMachine.Rvmini
