import Mathlib.Algebra.Group.Nat.Defs

/-!
# Signed words

What the operations of signed words compute, in natural numbers, as long as
neither operand is negative and nothing overflows.
-/

namespace AbstractMachine.Lib.SignedWord

variable {w n k a b : Nat} {u v : BitVec w}

theorem toInt_of_nonneg (h : 0 ≤ v.toInt) : v.toInt = v.toNat :=
  BitVec.toInt_eq_toNat_of_lt (BitVec.toInt_pos_iff.mp h)

theorem toNat_ofNat (h : 2 * k < 2 ^ w) : (BitVec.ofNat w k).toNat = k :=
  Nat.mod_eq_of_lt (by omega)

theorem toInt_ofNat (h : 2 * k < 2 ^ w) : (BitVec.ofNat w k).toInt = k := by
  rw [BitVec.toInt_eq_toNat_of_lt (by rwa [toNat_ofNat h]), toNat_ofNat h]

/-- A number that fits into a word fits into a wider one. -/
theorem fits_wider (hn : w ≤ n) (h : 2 * k < 2 ^ w) : 2 * k < 2 ^ n :=
  Nat.lt_of_lt_of_le h (Nat.pow_le_pow_right (by decide) hn)

theorem signExtend_ofNat (hn : w ≤ n) (h : 2 * k < 2 ^ w) :
    (BitVec.ofNat w k).signExtend n = BitVec.ofNat n k := by
  apply BitVec.eq_of_toInt_eq
  rw [BitVec.toInt_signExtend_of_le hn, toInt_ofNat h, toInt_ofNat (fits_wider hn h)]

/-- Extended, and cut off again. -/
theorem setWidth_signExtend (hn : w ≤ n) (v : BitVec w) : (v.signExtend n).setWidth w = v := by
  apply BitVec.eq_of_getLsbD_eq
  intro i hi
  have hLow : i < n := by omega
  rw [BitVec.getLsbD_setWidth, BitVec.getLsbD_signExtend]
  simp [hi, hLow]

theorem smulOverflow_iff (hu : 0 ≤ u.toInt) (hv : 0 ≤ v.toInt) :
    u.smulOverflow v = false ↔ u.toNat * v.toNat < 2 ^ (w - 1) := by
  have hPos : (0 : Int) ≤ (u.toNat * v.toNat : Nat) := Int.natCast_nonneg _
  have hPow : ((2 ^ (w - 1) : Nat) : Int) = 2 ^ (w - 1) := by push_cast; rfl
  unfold BitVec.smulOverflow
  rw [toInt_of_nonneg hu, toInt_of_nonneg hv, Bool.or_eq_false_iff, decide_eq_false_iff_not,
    decide_eq_false_iff_not, ← Int.natCast_mul, ← hPow]
  omega

theorem sdiv_ofNat (ha : 2 * a < 2 ^ w) (hb : 2 * b < 2 ^ w) :
    (BitVec.ofNat w a).sdiv (BitVec.ofNat w b) = BitVec.ofNat w (a / b) := by
  have hMsb : ∀ {k : Nat}, 2 * k < 2 ^ w → (BitVec.ofNat w k).msb = false := by
    intro k hk
    rw [BitVec.msb_eq_false_iff_two_mul_lt, toNat_ofNat hk]
    exact hk
  have hLe : a / b ≤ a := Nat.div_le_self a b
  apply BitVec.eq_of_toNat_eq
  rw [BitVec.sdiv_eq, hMsb ha, hMsb hb]
  show (BitVec.ofNat w a / BitVec.ofNat w b).toNat = _
  rw [BitVec.toNat_udiv, toNat_ofNat ha, toNat_ofNat hb, toNat_ofNat (by omega)]

end AbstractMachine.Lib.SignedWord
