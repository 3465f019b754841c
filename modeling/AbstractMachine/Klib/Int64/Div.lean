import AbstractMachine.Klib.Int64.Udivmod
import AbstractMachine.Riscv.Libgcc.Div

/-!
# The division routines of `int64.c`

Signed operands are negated by the mask of their signs and divided as unsigned
ones.

## Main results

* `int64_div_correct` -- quotients and remainders of all dividends, for a divisor
  other than 0, if words are divided and their zeros counted right.
* `rv32eBuiltins_right` -- the routines of `div.S` and the counts of `int64.c` do so.
-/

namespace AbstractMachine.Klib.Int64

open AbstractMachine.Lib DoubleWord

/-! ## The functions -/

/-- `__udivdi3`: the quotient of `__udivmoddi4`. -/
def udivdi3 (B : Builtins) (a b : DWord) : DWord := (udivmoddi4 B a b).1

/-- `__umoddi3`: the remainder that `__udivmoddi4` stores through `rem`. -/
def umoddi3 (B : Builtins) (a b : DWord) : DWord := (udivmoddi4 B a b).2

/-- `__divdi3`: the magnitudes divided, the sign of the quotient from both operands. -/
def divdi3 (B : Builtins) (a b : DWord) : DWord :=
  let s_a := a.sshiftRight 63
  let s_b := b.sshiftRight 63
  let a := (a ^^^ s_a) - s_a
  let b := (b ^^^ s_b) - s_b
  let s_a := s_a ^^^ s_b
  ((udivmoddi4 B a b).1 ^^^ s_a) - s_a

/-- `__moddi3`: the sign of the remainder is the dividend's. -/
def moddi3 (B : Builtins) (a b : DWord) : DWord :=
  let s := b.sshiftRight 63
  let b := (b ^^^ s) - s
  let s := a.sshiftRight 63
  let a := (a ^^^ s) - s
  ((udivmoddi4 B a b).2 ^^^ s) - s

/-- The quotient, and what is stored in `*rem`. -/
def divmoddi4 (B : Builtins) (a b : DWord) : DWord × DWord :=
  let d := divdi3 B a b
  (d, a - d * b)

/-! ## Correctness -/

variable {B : Builtins} {a b : DWord}

private theorem sign_mask (a : DWord) :
    a.sshiftRight 63 = if a.msb then BitVec.allOnes (32 + 32) else 0#(32 + 32) :=
  sshiftRight_pred a

private theorem divdi3_eq (hB : B.Right) (a : DWord) (hb : b ≠ 0) : divdi3 B a b = a.sdiv b := by
  have hNe : negIf b.msb b ≠ 0 := mt negIf_eq_zero_iff.mp hb
  unfold divdi3
  dsimp only
  rw [sign_mask a, sign_mask b, xor_sub_mask, xor_sub_mask, xor_mask, xor_sub_mask,
    udivmoddi4_eq hB _ hNe]
  exact (sdiv_eq_negIf a b).symm

private theorem moddi3_eq (hB : B.Right) (a : DWord) (hb : b ≠ 0) : moddi3 B a b = a.srem b := by
  have hNe : negIf b.msb b ≠ 0 := mt negIf_eq_zero_iff.mp hb
  unfold moddi3
  dsimp only
  rw [sign_mask a, sign_mask b, xor_sub_mask, xor_sub_mask, xor_sub_mask, udivmoddi4_eq hB _ hNe]
  exact (srem_eq_negIf a b).symm

private theorem divmoddi4_eq (hB : B.Right) (a : DWord) (hb : b ≠ 0) :
    divmoddi4 B a b = (a.sdiv b, a.srem b) := by
  unfold divmoddi4
  dsimp only
  rw [divdi3_eq hB a hb, sub_sdiv_mul]

/--
**Division of 64 bits.** With right builtins for words, the routines of `int64.c`
compute quotient and remainder of every dividend by every divisor other than 0,
unsigned and signed; the least dividend by -1 gives itself.
-/
theorem int64_div_correct (hB : B.Right) (a : DWord) (hb : b ≠ 0) :
    udivdi3 B a b = a / b ∧ umoddi3 B a b = a % b ∧ divdi3 B a b = a.sdiv b ∧
      moddi3 B a b = a.srem b ∧ divmoddi4 B a b = (a.sdiv b, a.srem b) := by
  have hUnsigned := udivmoddi4_eq hB a hb
  refine ⟨?_, ?_, divdi3_eq hB a hb, moddi3_eq hB a hb, divmoddi4_eq hB a hb⟩
  · exact congrArg Prod.fst hUnsigned
  · exact congrArg Prod.snd hUnsigned

/-! ## On riscv32e -/

/-- Words are divided by `div.S`, whatever is in the other registers. -/
def rv32eBuiltins (a2 a3 : Word) : Builtins where
  udiv a b := (Riscv.Libgcc.udivdi3 { a0 := a, a1 := b, a2 := a2, a3 := a3 }).a0
  umod a b := (Riscv.Libgcc.umoddi3 { a0 := a, a1 := b, a2 := a2, a3 := a3 }).a0
  clz := clzsi2
  ctz := ctzsi2

private theorem rv32eBuiltins_right (a2 a3 : Word) : (rv32eBuiltins a2 a3).Right where
  udiv_eq a b hb := by
    have hDiv := (Riscv.Libgcc.udivdi3_correct (by decide) { a0 := a, a1 := b, a2, a3 }).1
    rw [Riscv.M.divu, if_neg hb] at hDiv
    exact hDiv
  umod_eq a b hb := by
    have hMod := (Riscv.Libgcc.udivdi3_correct (by decide) { a0 := a, a1 := b, a2, a3 }).2
    rw [Riscv.M.remu, if_neg hb] at hMod
    exact hMod
  clz_eq _ h := clzsi2_eq h
  ctz_eq _ h := ctzsi2_eq h

/-- The least dividend by -1, and one whose quotient needs rounds, on riscv32e. -/
theorem int64_div_correct_rv32e :
    divdi3 (rv32eBuiltins 5 7) 0x8000000000000000 (-1) = 0x8000000000000000 ∧
      umoddi3 (rv32eBuiltins 5 7) 0xfedcba9876543210 0x123456789 = 0x96543210 := by
  have hLeast := int64_div_correct (rv32eBuiltins_right 5 7) 0x8000000000000000 (b := -1)
    (by decide)
  have hRounds := int64_div_correct (rv32eBuiltins_right 5 7) 0xfedcba9876543210
    (b := 0x123456789) (by decide)
  rw [hLeast.2.2.1, hRounds.2.1]
  decide

end AbstractMachine.Klib.Int64
