import AbstractMachine.Rvmini.Machine

/-!
# The macros of `inst-replace.h`

Each macro is the list of the instructions it expands to.  Operands whose text
is compared in a condition are `Name`s, the others registers.  Macros that
refuse some operands give none.

The symbols are at fixed offsets from the start of the section `.rodata` they
are defined in.
-/

namespace AbstractMachine.Rvmini

/-! ## Symbols -/

section

variable (rodata : Word)

/-- 256 bytes in which `seq` marks one operand's byte and clears the other's. -/
def _check_same_array : Word := rodata

/-- One for no difference, zero for one or more. -/
def _same_result_table : Word := rodata + 256

/-- Zero for the byte 0 and one for all others. -/
def _check_8bit_0_table : Word := rodata + 264

/-- `slt` from the sign bits of the operands and of their difference. -/
def _slt1_table : Word := rodata + 520

/-- `sltu` from the highest bits of the operands and of their difference. -/
def _sltu1_table : Word := rodata + 528

/-- The `or` of two bits. -/
def _or1_table : Word := rodata + 536

/-- Aligned to 256 bytes. -/
def _logic_shift_table : Word := rodata + 768

/-- `and` of two bytes. -/
def _and8_table : Word := _logic_shift_table rodata

/-- `or` of two bytes. -/
def _or8_table : Word := _and8_table rodata + 256 * 256

/-- `xor` of two bytes. -/
def _xor8_table : Word := _or8_table rodata + 256 * 256

/-- The words that left shifts of a byte give. -/
def _sll8_table : Word := _xor8_table rodata + 256 * 256

/-- The words that right shifts of a byte give. -/
def _srl8_table : Word := _sll8_table rodata + 32 * 256 * 4

/-- The words that arithmetic right shifts of a byte give. -/
def _sra8_table : Word := _srl8_table rodata + 32 * 256 * 4

end

/-! ## The scratch area -/

/-- `SP_VAR_BYTE`, an offset from `sp`. -/
def SP_VAR_BYTE (n boffset : Nat) : Int := -n * 4 + boffset

/-- `SP_VAR`: variable `n` of the scratch area. -/
def SP_VAR (n : Nat) : Int := SP_VAR_BYTE n 0

/-- The first operand. -/
def VAR_A : Nat := 4

/-- The second operand. -/
def VAR_B : Nat := 5

/-- The word that `getbyte` takes apart. -/
def VAR_C : Nat := 6

/-- The index of a table. -/
def VAR_D : Nat := 7

namespace Macro

open Op

/-- A register saved in variable `n`. -/
def PUSH (r : Reg) (n : Nat) : Op := sw r (SP_VAR n) .sp

/-- A register restored from variable `n`. -/
def POP (r : Reg) (n : Nat) : Op := lw r (SP_VAR n) .sp

/-! ## Pseudo-instructions -/

/-- `%hi`, one more where `lo` is negative. -/
def hi (addr : Word) : BitVec 20 := (addr + 0x800).extractLsb' 12 20

/-- `%lo`, with the sign that `addi` adds. -/
def lo (addr : Word) : Int := (addr.setWidth 12).toInt

/-- `la`: `lui` and `addi`. -/
def la (r : Reg) (addr : Word) : List Op := [lui r (hi addr), addi r r (lo addr)]

def mv (rd rs : Reg) : Op := addi rd rs 0

/-- `li` of an immediate that fits in `addi`. -/
def li (rd : Reg) (imm : Int) : Op := addi rd .zero imm

section

variable (rodata : Word)

/-- Four lookups in the row 0xff of the table. -/
def notByte (boffset : Nat) : List Op :=
  [ lbu .gp (SP_VAR_BYTE VAR_C boffset) .sp
  , add .gp .gp .tp
  , lbu .gp 0 .gp
  , sb .gp (SP_VAR_BYTE VAR_D boffset) .sp ]

/-- `not`: each byte by the table of `xor`. -/
def not (rd rs1 : Reg) : List Op :=
  [PUSH .gp 3, sw rs1 (SP_VAR VAR_C) .sp]
  ++ la .tp (_xor8_table rodata + (0xff#32 <<< 8))
  ++ notByte 3 ++ notByte 2 ++ notByte 1 ++ notByte 0
  ++ [POP .gp 3, lw rd (SP_VAR VAR_D) .sp]

/-- `sub`: the complement added, and one. -/
def sub (rd rs1 rs2 : Reg) : List Op :=
  not rodata .tp rs2 ++ [add rd rs1 .tp, addi rd rd 1]

def neg (rd rs : Reg) : List Op := sub rodata rd .zero rs

/-! ## Bytes and left shifts by a constant -/

/-- `getbyte`: a byte by way of the scratch area. -/
def getbyte (rd rs1 : Reg) (byte : Nat) : List Op :=
  [sw rs1 (SP_VAR VAR_C) .sp, lbu rd (SP_VAR_BYTE VAR_C byte) .sp]

/-- `sh`: two `sb`. -/
def sh (rs : Reg) (off : Int) (base : Reg) : List Op :=
  [sb rs (0 + off) base] ++ getbyte .tp rs 1 ++ [sb .tp (1 + off) base]

/-- `slli`: whole bytes by moves through the scratch area, and doublings. -/
def slli (rd rs1 : Name) (imm : Nat) : List Op :=
  if imm = 0 then
    if rd ≠ rs1 then [mv rd.reg rs1.reg] else []
  else if imm ≥ 24 then
    [ sw .zero (SP_VAR VAR_A) .sp
    , sb rs1.reg (SP_VAR_BYTE VAR_A 3) .sp
    , lw rd.reg (SP_VAR VAR_A) .sp ]
    ++ slli rd rd (imm - 24)
  else if imm ≥ 16 then
    [sw .zero (SP_VAR VAR_A) .sp]
    ++ sh rs1.reg (SP_VAR_BYTE VAR_A 2) .sp
    ++ [lw rd.reg (SP_VAR VAR_A) .sp]
    ++ slli rd rd (imm - 16)
  else
    add rd.reg rs1.reg rs1.reg :: List.replicate (imm - 1) (add rd.reg rd.reg rd.reg)
termination_by imm

/-- A shift in place, as the macros write it. -/
def slliSelf (r : Reg) (imm : Nat) : List Op := slli (.abi r) (.abi r) imm

/-! ## Comparisons -/

/-- `msb`: the highest bit as a number. -/
def msb (rd rs1 : Reg) : List Op :=
  getbyte rd rs1 3 ++ slliSelf rd 1 ++ getbyte rd rd 1

/-- `slt_template`: the highest bits of the operands and of their difference index a table. -/
def slt_template (lut : Word) (rd rs1 rs2 : Reg) : List Op :=
  [ PUSH .s0 1
  , PUSH .s1 2
  , sw rs2 (SP_VAR VAR_A) .sp
  , mv .s0 rs1
  , lw .s1 (SP_VAR VAR_A) .sp ]
  ++ msb .gp .s0
  ++ slliSelf .gp 1
  ++ msb .tp .s1
  ++ [add .gp .gp .tp]
  ++ slliSelf .gp 1
  ++ sub rodata .tp .s0 .s1
  ++ msb .tp .tp
  ++ [add .gp .gp .tp]
  ++ la .tp lut
  ++ [ add .tp .tp .gp
     , POP .s1 2
     , POP .s0 1
     , lbu rd 0 .tp ]

def slt (rd rs1 rs2 : Reg) : List Op := slt_template rodata (_slt1_table rodata) rd rs1 rs2

def sltu (rd rs1 rs2 : Reg) : List Op := slt_template rodata (_sltu1_table rodata) rd rs1 rs2

/-- `slti`: the immediate is in `tp`. -/
def slti (rd rs1 : Reg) (imm : BitVec 12) : List Op :=
  li .tp imm.toInt :: slt rodata rd rs1 .tp

/-- `sltiu`: the immediate is in `tp`. -/
def sltiu (rd rs1 : Reg) (imm : BitVec 12) : List Op :=
  li .tp imm.toInt :: sltu rodata rd rs1 .tp

def snez (rd rs : Reg) : List Op := sltu rodata rd .zero rs

def sltz (rd rs : Reg) : List Op := msb rd rs

/-- `sgt`: the operands change places. -/
def sgt (rd rs1 rs2 : Reg) : List Op := slt rodata rd rs2 rs1

/-- `sgtu`: the operands change places. -/
def sgtu (rd rs1 rs2 : Reg) : List Op := sltu rodata rd rs2 rs1

def sgtz (rd rs : Reg) : List Op := slt rodata rd .zero rs

/-! ## Logic -/

/-- `logic8_byte_internal`: one byte by the table. -/
def logic8_byte_internal (lut_reg : Reg) (boffset : Nat) : List Op :=
  [ lbu .tp (SP_VAR_BYTE VAR_A boffset) .sp
  , sb .tp (SP_VAR_BYTE VAR_D 1) .sp
  , lbu .tp (SP_VAR_BYTE VAR_B boffset) .sp
  , sb .tp (SP_VAR_BYTE VAR_D 0) .sp
  , lw .tp (SP_VAR VAR_D) .sp
  , add .tp lut_reg .tp
  , lbu .tp 0 .tp
  , sb .tp (SP_VAR_BYTE VAR_C boffset) .sp ]

/-- `logic`: nothing for `x0`; the registers that it needs itself are refused where they
are named so. -/
def logic (lut : Word) (rd rs1 rs2 : Name) : Option (List Op) :=
  if rd = .x .zero then some []
  else if rd = .abi .sp ∨ rs1 = .abi .sp ∨ rs2 = .abi .sp then none
  else if rd = .abi .gp ∨ rs1 = .abi .gp ∨ rs2 = .abi .gp then none
  else if rd = .abi .tp ∨ rs1 = .abi .tp then none
  else
    some
      ([sw rs1.reg (SP_VAR VAR_A) .sp, sw rs2.reg (SP_VAR VAR_B) .sp]
        ++ la rd.reg lut
        ++ [sw .zero (SP_VAR VAR_D) .sp]
        ++ logic8_byte_internal rd.reg 3
        ++ logic8_byte_internal rd.reg 2
        ++ logic8_byte_internal rd.reg 1
        ++ logic8_byte_internal rd.reg 0
        ++ [lw rd.reg (SP_VAR VAR_C) .sp])

def and (rd rs1 rs2 : Name) : Option (List Op) := logic (_and8_table rodata) rd rs1 rs2

def or (rd rs1 rs2 : Name) : Option (List Op) := logic (_or8_table rodata) rd rs1 rs2

def xor (rd rs1 rs2 : Name) : Option (List Op) := logic (_xor8_table rodata) rd rs1 rs2

/-- `def_itype`, for the macros that may refuse their operands. -/
def itype (rtype : Name → Name → Name → Option (List Op)) (rd rs1 : Name) (imm : BitVec 12) :
    Option (List Op) :=
  (rtype rd rs1 (.abi .tp)).map fun ops => li .tp imm.toInt :: ops

def andi (rd rs1 : Name) (imm : BitVec 12) : Option (List Op) := itype (and rodata) rd rs1 imm

def ori (rd rs1 : Name) (imm : BitVec 12) : Option (List Op) := itype (or rodata) rd rs1 imm

def xori (rd rs1 : Name) (imm : BitVec 12) : Option (List Op) := itype (xor rodata) rd rs1 imm

/-! ## Tests for equality -/

/-- `check_8bit_same`: zero if one byte of the operands is the same. -/
def check_8bit_same (table rd : Reg) (boffset : Nat) : List Op :=
  [ lbu rd (SP_VAR_BYTE VAR_A boffset) .sp
  , add .tp table rd
  , addi rd .zero 1
  , sb rd 0 .tp
  , lbu rd (SP_VAR_BYTE VAR_B boffset) .sp
  , add rd table rd
  , sb .zero 0 rd
  , lbu rd 0 .tp ]

/-- `seq`: the four comparisons are added up. -/
def seq (rd rs1 rs2 : Reg) : List Op :=
  [ sw rs1 (SP_VAR VAR_A) .sp
  , sw rs2 (SP_VAR VAR_B) .sp
  , PUSH .s0 1
  , PUSH .s1 2 ]
  ++ la .s0 (_check_same_array rodata)
  ++ check_8bit_same .s0 .gp 0
  ++ check_8bit_same .s0 .s1 1
  ++ [add .gp .gp .s1]
  ++ check_8bit_same .s0 .s1 2
  ++ [add .gp .gp .s1]
  ++ check_8bit_same .s0 .s1 3
  ++ [add .gp .gp .s1]
  ++ la .tp (_same_result_table rodata)
  ++ [ add .tp .tp .gp
     , lbu rd 0 .tp
     , POP .s1 2
     , POP .s0 1 ]

/-- `check_8bit_0`: zero if one byte is zero. -/
def check_8bit_0 (table rd : Reg) (boffset : Nat) : List Op :=
  [ lbu rd (SP_VAR_BYTE VAR_A boffset) .sp
  , add rd table rd
  , lbu rd 0 rd ]

/-- `seqz`; `s0` is restored while `rd` holds the result. -/
def seqz (rd rs1 : Reg) : List Op :=
  [sw rs1 (SP_VAR VAR_A) .sp, PUSH .s0 1]
  ++ la .s0 (_check_8bit_0_table rodata)
  ++ check_8bit_0 .s0 .gp 0
  ++ check_8bit_0 .s0 .tp 1
  ++ [add .gp .gp .tp]
  ++ check_8bit_0 .s0 .tp 2
  ++ [add .gp .gp .tp]
  ++ check_8bit_0 .s0 .tp 3
  ++ [add .gp .gp .tp]
  ++ la .tp (_same_result_table rodata)
  ++ [ add .tp .tp .gp
     , lbu rd 0 .tp
     , POP .s0 1 ]

/-! ## Shifts -/

/-- `getshamt`: the lower five bits of the amount. -/
def getshamt (rd rs1 : Reg) : List Op :=
  [sb rs1 (SP_VAR_BYTE VAR_B 0) .sp, lbu rd (SP_VAR_BYTE VAR_B 0) .sp]
  ++ la .tp (_and8_table rodata + (0x1f#32 <<< 8))
  ++ [add rd rd .tp, lbu rd 0 rd]

/-- `get_shift_byte_in_tp`: the word of one byte in a row. -/
def get_shift_byte_in_tp (base : Reg) (boffset : Nat) : List Op :=
  [lbu .tp (SP_VAR_BYTE VAR_A boffset) .sp]
  ++ slliSelf .tp 2
  ++ [add .tp base .tp, lw .tp 0 .tp]

/-- The row of a shift table for the amount in `rs2`. -/
def shiftRow (table : Word) (rs2 : Reg) : List Op :=
  getshamt rodata .s0 rs2
  ++ [ sw .zero (SP_VAR VAR_B) .sp
     , sb .s0 (SP_VAR_BYTE VAR_B 1) .sp
     , lw .s0 (SP_VAR VAR_B) .sp ]
  ++ slliSelf .s0 2
  ++ la .tp table
  ++ [add .s0 .s0 .tp]

/-- `sll`: four words of the table, each a byte further left. -/
def sll (rd rs1 rs2 : Reg) : List Op :=
  [PUSH .s0 1, sw rs1 (SP_VAR VAR_A) .sp]
  ++ shiftRow rodata (_sll8_table rodata) rs2
  ++ [sw .zero (SP_VAR VAR_B) .sp]
  ++ get_shift_byte_in_tp .s0 3
  ++ [sb .tp (SP_VAR_BYTE VAR_B 3) .sp, lw .gp (SP_VAR VAR_B) .sp]
  ++ get_shift_byte_in_tp .s0 2
  ++ sh .tp (SP_VAR_BYTE VAR_B 2) .sp
  ++ [lw .tp (SP_VAR VAR_B) .sp, add .gp .gp .tp]
  ++ get_shift_byte_in_tp .s0 1
  ++ slliSelf .tp 8
  ++ [add .gp .gp .tp]
  ++ get_shift_byte_in_tp .s0 0
  ++ [POP .s0 1, add rd .gp .tp]

/-- The second operand of a right shift, `is_rs2_imm` of the source. -/
inductive Amount where
  | reg (rs2 : Reg)
  | imm (n : Nat)

/-- The fast path, for an immediate of 24. -/
def shift_right_24 (rd rs1 : Reg) (is_arith : Bool) : List Op :=
  if is_arith then
    [sw rs1 (SP_VAR VAR_A) .sp]
    ++ la .tp (_sra8_table rodata + (24#32 <<< 10))
    ++ [lbu rd (SP_VAR_BYTE VAR_A 3) .sp]
    ++ slliSelf rd 2
    ++ [add .tp .tp rd, lw rd 0 .tp]
  else getbyte rd rs1 3

/-- The words of the three lower bytes, and their sum. -/
def shiftRightLow : List Op :=
  get_shift_byte_in_tp .s0 2
  ++ [sw .tp (SP_VAR VAR_B) .sp]
  ++ get_shift_byte_in_tp .s0 1
  ++ [sw .tp (SP_VAR VAR_C) .sp]
  ++ get_shift_byte_in_tp .s0 0
  ++ [ sw .tp (SP_VAR VAR_D) .sp
     -- compute byte 0
     , lbu .gp (SP_VAR_BYTE VAR_B 1) .sp
     , lbu .tp (SP_VAR_BYTE VAR_C 2) .sp
     , add .gp .gp .tp
     , lbu .tp (SP_VAR_BYTE VAR_D 3) .sp
     , add .gp .gp .tp
     , sw .gp (SP_VAR VAR_D) .sp
     -- compute byte 1
     , lbu .gp (SP_VAR_BYTE VAR_B 2) .sp
     , lbu .tp (SP_VAR_BYTE VAR_C 3) .sp
     , add .gp .gp .tp
     , sb .gp (SP_VAR_BYTE VAR_D 1) .sp
     -- compute byte 2
     , lbu .gp (SP_VAR_BYTE VAR_B 3) .sp
     , sb .gp (SP_VAR_BYTE VAR_D 2) .sp
     -- combine byte 2~0
     , lw .gp (SP_VAR VAR_D) .sp ]

/-- `shift_right_template`: four words of the table, each a byte further right. -/
def shift_right_template (rd rs1 : Reg) (rs2 : Amount) (is_arith : Bool) : List Op :=
  let row : List Op :=
    match rs2 with
    | .reg rs2 => shiftRow rodata (_srl8_table rodata) rs2
    | .imm n => la .s0 (_srl8_table rodata + (BitVec.ofNat 32 n <<< 10))
  let general :=
    [PUSH .s0 1, sw rs1 (SP_VAR VAR_A) .sp]
    ++ row
    ++ shiftRightLow
    ++ (if is_arith then
          la .tp (_sra8_table rodata - _srl8_table rodata) ++ [add .s0 .s0 .tp]
        else [])
    ++ get_shift_byte_in_tp .s0 3
    ++ [POP .s0 1, add rd .gp .tp]
  match rs2 with
  | .reg _ => general
  | .imm n => if n = 24 then shift_right_24 rodata rd rs1 is_arith else general

def srl (rd rs1 rs2 : Reg) : List Op := shift_right_template rodata rd rs1 (.reg rs2) false

def sra (rd rs1 rs2 : Reg) : List Op := shift_right_template rodata rd rs1 (.reg rs2) true

def srli (rd rs1 : Reg) (imm : Nat) : List Op :=
  shift_right_template rodata rd rs1 (.imm imm) false

def srai (rd rs1 : Reg) (imm : Nat) : List Op :=
  shift_right_template rodata rd rs1 (.imm imm) true

/-! ## Loads -/

/-- `lb`: the byte to the top of a word, and an arithmetic shift back. -/
def lb (rd : Reg) (off : Int) (base : Reg) : List Op :=
  [ sw .zero (SP_VAR VAR_A) .sp
  , lbu rd off base
  , sb rd (SP_VAR_BYTE VAR_A 3) .sp
  , lw rd (SP_VAR VAR_A) .sp ]
  ++ srai rodata rd rd 24

/-- `lhu`: two bytes put together in the scratch area. -/
def lhu (rd : Reg) (off : Int) (base : Reg) : List Op :=
  [ sw .zero (SP_VAR VAR_A) .sp
  , lbu .tp (1 + off) base
  , sb .tp (SP_VAR_BYTE VAR_A 1) .sp
  , lw .tp (SP_VAR VAR_A) .sp
  , lbu rd (0 + off) base
  , add rd rd .tp ]

/-- `lh`: the two bytes to the top of a word, and an arithmetic shift back. -/
def lh (rd : Reg) (off : Int) (base : Reg) : List Op :=
  [ sw .zero (SP_VAR VAR_A) .sp
  , lbu .gp (1 + off) base
  , sb .gp (SP_VAR_BYTE VAR_A 3) .sp
  , lw .gp (SP_VAR VAR_A) .sp ]
  ++ srai rodata .gp .gp 16
  ++ [lbu rd (0 + off) base, add rd rd .gp]

/-! ## Branches -/

/-- `label` is the address of the next instruction. -/
def branch_resolve (target label : Word) (is_tp_high_sel_target : Bool) : List Instr :=
  (slliSelf .tp 2
    ++ [add .tp .sp .tp]
    ++ (if is_tp_high_sel_target then
          la .gp target ++ [sw .gp (SP_VAR VAR_A) .sp]
          ++ la .gp label ++ [sw .gp (SP_VAR VAR_B) .sp]
        else
          la .gp label ++ [sw .gp (SP_VAR VAR_A) .sp]
          ++ la .gp target ++ [sw .gp (SP_VAR VAR_B) .sp])
    ++ [lw .tp (-VAR_B * 4) .tp]).map .op
  ++ [.jalr .zero 0 .tp]

/-- The texts that the branches recognise as register 0. -/
def IsZero (r : Name) : Bool := r = .abi .zero ∨ r = .x .zero

/-- The operands of `beq` and `bne` into `tp`; with the first of them zero, the
macro expands itself with the operands swapped. -/
def same (rs1 rs2 : Name) : List Op :=
  if IsZero rs2 then seqz rodata .tp rs1.reg
  else if IsZero rs1 then seqz rodata .tp rs2.reg
  else seq rodata .tp rs1.reg rs2.reg

def beq (rs1 rs2 : Name) (target label : Word) : List Instr :=
  (same rodata rs1 rs2).map .op ++ branch_resolve target label true

def bne (rs1 rs2 : Name) (target label : Word) : List Instr :=
  (same rodata rs1 rs2).map .op ++ branch_resolve target label false

/-- `tp` is 1 if `rs2` is at most 0. -/
def notPositive (rs2 : Reg) : List Op :=
  msb .gp rs2
  ++ [addi .tp rs2 (-1)]
  ++ msb .tp .tp
  ++ [add .gp .gp .tp]
  ++ la .tp (_or1_table rodata)
  ++ [add .tp .gp .tp, lbu .tp 0 .tp]

/-- `blt`; a zero operand is found by its text. -/
def blt (rs1 rs2 : Name) (target label : Word) : List Instr :=
  if IsZero rs2 then (msb .tp rs1.reg).map .op ++ branch_resolve target label true
  else if IsZero rs1 then
    (notPositive rodata rs2.reg).map .op ++ branch_resolve target label false
  else (slt rodata .tp rs1.reg rs2.reg).map .op ++ branch_resolve target label true

def bltu (rs1 rs2 : Name) (target label : Word) : List Instr :=
  (sltu rodata .tp rs1.reg rs2.reg).map .op ++ branch_resolve target label true

/-- `bge`; only a zero first operand is found by its text. -/
def bge (rs1 rs2 : Name) (target label : Word) : List Instr :=
  if IsZero rs1 then (notPositive rodata rs2.reg).map .op ++ branch_resolve target label true
  else (slt rodata .tp rs1.reg rs2.reg).map .op ++ branch_resolve target label false

def bgeu (rs1 rs2 : Name) (target label : Word) : List Instr :=
  (sltu rodata .tp rs1.reg rs2.reg).map .op ++ branch_resolve target label false

/-- `beqz` is `beq` with `x0`. -/
def beqz (rs : Name) (offset label : Word) : List Instr := beq rodata rs (.x .zero) offset label

/-- `bnez` is `bne` with `x0`. -/
def bnez (rs : Name) (offset label : Word) : List Instr := bne rodata rs (.x .zero) offset label

/-- `blez` is `bge` with `x0` first. -/
def blez (rs : Name) (offset label : Word) : List Instr := bge rodata (.x .zero) rs offset label

/-- `bgez` is `bge` with `x0`. -/
def bgez (rs : Name) (offset label : Word) : List Instr := bge rodata rs (.x .zero) offset label

/-- `bltz` is `blt` with `x0`. -/
def bltz (rs : Name) (offset label : Word) : List Instr := blt rodata rs (.x .zero) offset label

/-- `bgtz` is `blt` with `x0` first. -/
def bgtz (rs : Name) (offset label : Word) : List Instr := blt rodata (.x .zero) rs offset label

/-- `bgt`: the operands change places. -/
def bgt (rs rt : Name) (offset label : Word) : List Instr := blt rodata rt rs offset label

/-- `ble`: the operands change places. -/
def ble (rs rt : Name) (offset label : Word) : List Instr := bge rodata rt rs offset label

/-- `bgtu`: the operands change places. -/
def bgtu (rs rt : Name) (offset label : Word) : List Instr := bltu rodata rt rs offset label

/-- `bleu`: the operands change places. -/
def bleu (rs rt : Name) (offset label : Word) : List Instr := bgeu rodata rt rs offset label

end

/-! ## Calls -/

/-- `call_template`: the target in `r`, which takes the link too. -/
def call_template (r : Reg) (addr : Word) : List Instr := (la r addr).map .op ++ [.jalr r 0 r]

/-- `call` links in `ra`. -/
def call (addr : Word) : List Instr := call_template .ra addr

/-- The call that follows the jump is never reached. -/
def tail (addr : Word) : List Instr :=
  (la .tp addr).map .op ++ [.jalr .zero 0 .tp] ++ call_template .ra addr

/-- `j`, whose link in `tp` nothing reads. -/
def j (addr : Word) : List Instr := call_template .tp addr

/-- `jal`; without a link it is `j`. -/
def jal (rd : Name) (addr : Word) : List Instr :=
  if IsZero rd then j addr else call_template rd.reg addr

end Macro

end AbstractMachine.Rvmini
