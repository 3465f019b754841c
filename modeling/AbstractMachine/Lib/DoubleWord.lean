import Mathlib.Tactic.Ring
import Mathlib.Data.BitVec

/-!
# Double words

A double word is kept in two words, the high one before the low one.  Addition
carries from the low word into the high one; a shift moves bits from one into the
other.
-/

namespace AbstractMachine.Lib.DoubleWord

variable {w : Nat}

/-- The low half of a double word. -/
def low (x : BitVec (w + w)) : BitVec w := x.setWidth w

/-- The high half of a double word. -/
def high (x : BitVec (w + w)) : BitVec w := (x >>> w).setWidth w

variable {x : BitVec (w + w)} {h l h' l' : BitVec w} {k i : Nat}

/-! ## Halves -/

theorem toNat_append : (h ++ l).toNat = h.toNat * 2 ^ w + l.toNat := by
  rw [BitVec.toNat_append, Nat.mul_comm, Nat.two_pow_add_eq_or_of_lt l.isLt, Nat.shiftLeft_eq,
    Nat.mul_comm]

theorem toNat_low : (low x).toNat = x.toNat % 2 ^ w := BitVec.toNat_setWidth w x

theorem toNat_high : (high x).toNat = x.toNat / 2 ^ w := by
  have hLt : x.toNat / 2 ^ w < 2 ^ w := by
    rw [Nat.div_lt_iff_lt_mul (Nat.two_pow_pos w), ← Nat.pow_add]
    exact x.isLt
  unfold high
  rw [BitVec.toNat_setWidth, BitVec.toNat_ushiftRight, Nat.shiftRight_eq_div_pow,
    Nat.mod_eq_of_lt hLt]

theorem high_append_low : high x ++ low x = x := by
  apply BitVec.eq_of_toNat_eq
  rw [toNat_append, toNat_high, toNat_low, Nat.div_add_mod']

@[simp] theorem low_append : low (h ++ l) = l := by
  apply BitVec.eq_of_toNat_eq
  rw [toNat_low, toNat_append, Nat.mul_add_mod_self_right, Nat.mod_eq_of_lt l.isLt]

@[simp] theorem high_append : high (h ++ l) = h := by
  apply BitVec.eq_of_toNat_eq
  rw [toNat_high, toNat_append, Nat.mul_comm, Nat.mul_add_div (Nat.two_pow_pos w),
    Nat.div_eq_of_lt l.isLt, Nat.add_zero]

theorem append_inj : h ++ l = h' ++ l' ↔ h = h' ∧ l = l' := by
  constructor
  · intro hEq
    have hHigh := congrArg high hEq
    have hLow := congrArg low hEq
    rw [high_append, high_append] at hHigh
    rw [low_append, low_append] at hLow
    exact ⟨hHigh, hLow⟩
  · rintro ⟨rfl, rfl⟩
    rfl

theorem getLsbD_append_low (hi : i < w) : (h ++ l).getLsbD i = l.getLsbD i := by
  rw [BitVec.getLsbD_append, if_pos hi]

theorem getLsbD_append_high (hi : w ≤ i) : (h ++ l).getLsbD i = h.getLsbD (i - w) := by
  rw [BitVec.getLsbD_append, if_neg (Nat.not_lt.mpr hi)]

/-! ## Addition -/

/-- The sum of the low words carries if it comes out lower. -/
def carry (l l' : BitVec w) : BitVec w := if l + l' < l then 1 else 0

theorem append_add_append : (h ++ l) + (h' ++ l') = (h + h' + carry l l') ++ (l + l') := by
  have hl := l.isLt
  have hl' := l'.isLt
  apply BitVec.eq_of_toNat_eq
  rw [BitVec.toNat_add, toNat_append, toNat_append, toNat_append, BitVec.toNat_add,
    BitVec.toNat_add, BitVec.toNat_add]
  have hPow : 2 ^ (w + w) = 2 ^ w * 2 ^ w := Nat.pow_add 2 w w
  have hHigh : ∀ a b, b < 2 ^ w → (a * 2 ^ w + b) % 2 ^ (w + w) = a % 2 ^ w * 2 ^ w + b := by
    intro a b hb
    rw [hPow, Nat.mod_mul, Nat.mul_add_mod_self_right, Nat.mod_eq_of_lt hb, Nat.add_comm,
      Nat.mul_comm a, Nat.mul_add_div (Nat.two_pow_pos w), Nat.div_eq_of_lt hb, Nat.add_zero,
      Nat.mul_comm]
  by_cases hCarry : l.toNat + l'.toNat < 2 ^ w
  · have hSum : (l.toNat + l'.toNat) % 2 ^ w = l.toNat + l'.toNat := Nat.mod_eq_of_lt hCarry
    have hNone : carry l l' = 0 := by
      unfold carry
      rw [if_neg]
      rw [BitVec.lt_def, BitVec.toNat_add, hSum]
      omega
    have hZero : (0 : BitVec w).toNat = 0 := BitVec.toNat_zero
    rw [hNone, hSum, hZero, Nat.add_zero, Nat.mod_mod, ← hHigh _ _ hCarry]
    congr 1
    ring
  · have hSum : (l.toNat + l'.toNat) % 2 ^ w = l.toNat + l'.toNat - 2 ^ w := by
      rw [Nat.mod_eq_sub_mod (by omega), Nat.mod_eq_of_lt (by omega)]
    have hOne : carry l l' = 1#w := by
      unfold carry
      rw [if_pos]
      · rfl
      · rw [BitVec.lt_def, BitVec.toNat_add, hSum]
        omega
    have hw : 0 < w := by
      rcases Nat.eq_zero_or_pos w with rfl | hw
      · rw [Nat.pow_zero] at hl hl' hCarry
        omega
      · exact hw
    rw [hOne, hSum, BitVec.toNat_one hw, Nat.mod_add_mod, ← hHigh _ _ (by omega)]
    congr 1
    have hSplit : l.toNat + l'.toNat = 2 ^ w + (l.toNat + l'.toNat - 2 ^ w) := by omega
    calc h.toNat * 2 ^ w + l.toNat + (h'.toNat * 2 ^ w + l'.toNat)
        = (h.toNat + h'.toNat) * 2 ^ w + (l.toNat + l'.toNat) := by ring
      _ = (h.toNat + h'.toNat) * 2 ^ w + (2 ^ w + (l.toNat + l'.toNat - 2 ^ w)) := by rw [← hSplit]
      _ = (h.toNat + h'.toNat + 1) * 2 ^ w + (l.toNat + l'.toNat - 2 ^ w) := by ring

/-- Nothing is carried from a low word that is 0. -/
theorem append_add_high : (h ++ l) + (h' ++ 0#w) = (h + h') ++ l := by
  have hNone : carry l 0#w = 0#w := by
    unfold carry
    rw [BitVec.add_zero, if_neg (BitVec.lt_irrefl l)]
    rfl
  rw [append_add_append, hNone, BitVec.add_zero, BitVec.add_zero]

theorem append_eq_add : h ++ l = (0#w ++ l) + (h ++ 0#w) := by
  rw [append_add_high, BitVec.zero_add]

/-! ## Multiplication -/

/-- The high word of a product takes the low word of a factor only. -/
theorem high_mul : (h ++ 0#w) * x = (h * low x) ++ 0#w := by
  have hZero : (0#w).toNat = 0 := BitVec.toNat_zero
  apply BitVec.eq_of_toNat_eq
  rw [BitVec.toNat_mul, toNat_append, toNat_append, BitVec.toNat_mul, toNat_low, hZero,
    Nat.add_zero, Nat.add_zero, Nat.pow_add, Nat.mul_right_comm, Nat.mul_mod_mul_right,
    Nat.mul_mod_mod]

/-! ## Shifts -/

/-- By less than a word. -/
theorem shiftLeft_lt (hk : k < w) :
    (h ++ l) <<< k = ((h <<< k) ||| (l >>> (w - k))) ++ (l <<< k) := by
  apply BitVec.eq_of_getLsbD_eq
  intro i hi
  rw [BitVec.getLsbD_shiftLeft]
  by_cases hLow : i < w
  · rw [getLsbD_append_low hLow, BitVec.getLsbD_shiftLeft, decide_eq_true hi, decide_eq_true hLow,
      getLsbD_append_low (by omega)]
  · rw [getLsbD_append_high (Nat.not_lt.mp hLow), BitVec.getLsbD_or, BitVec.getLsbD_shiftLeft,
      BitVec.getLsbD_ushiftRight, decide_eq_true hi, decide_eq_true (by omega : i - w < w),
      decide_eq_false (by omega : ¬ i < k)]
    by_cases hIn : i - w < k
    · rw [getLsbD_append_low (by omega), decide_eq_true hIn]
      simp only [Bool.not_true, Bool.not_false, Bool.and_false, Bool.and_true, Bool.true_and,
        Bool.false_and, Bool.false_or]
      congr 1
      omega
    · rw [getLsbD_append_high (by omega), decide_eq_false hIn,
        BitVec.getLsbD_of_ge l (w - k + (i - w)) (by omega)]
      simp only [Bool.not_false, Bool.and_true, Bool.true_and, Bool.or_false]
      congr 1
      omega

/-- By at least a word. -/
theorem shiftLeft_ge (hk : w ≤ k) : (h ++ l) <<< k = (l <<< (k - w)) ++ 0#w := by
  apply BitVec.eq_of_getLsbD_eq
  intro i hi
  rw [BitVec.getLsbD_shiftLeft]
  by_cases hLow : i < w
  · rw [getLsbD_append_low hLow, decide_eq_true (by omega : i < k), BitVec.getLsbD_zero]
    simp
  · rw [getLsbD_append_high (Nat.not_lt.mp hLow), BitVec.getLsbD_shiftLeft, decide_eq_true hi,
      decide_eq_true (by omega : i - w < w)]
    by_cases hIn : i < k
    · rw [decide_eq_true hIn, decide_eq_true (by omega : i - w < k - w)]
      simp
    · rw [decide_eq_false hIn, decide_eq_false (by omega : ¬ i - w < k - w),
        getLsbD_append_low (by omega)]
      simp only [Bool.not_false, Bool.true_and]
      congr 1
      omega

theorem shiftRight_lt (hk : k < w) :
    (h ++ l) >>> k = (h >>> k) ++ ((h <<< (w - k)) ||| (l >>> k)) := by
  apply BitVec.eq_of_getLsbD_eq
  intro i hi
  rw [BitVec.getLsbD_ushiftRight]
  by_cases hLow : i < w
  · rw [getLsbD_append_low hLow, BitVec.getLsbD_or, BitVec.getLsbD_shiftLeft,
      BitVec.getLsbD_ushiftRight, decide_eq_true hLow]
    by_cases hIn : k + i < w
    · rw [getLsbD_append_low hIn, decide_eq_true (by omega : i < w - k)]
      simp
    · rw [getLsbD_append_high (Nat.not_lt.mp hIn), decide_eq_false (by omega : ¬ i < w - k),
        BitVec.getLsbD_of_ge l (k + i) (by omega)]
      simp only [Bool.not_false, Bool.true_and, Bool.or_false]
      congr 1
      omega
  · rw [getLsbD_append_high (by omega), getLsbD_append_high (by omega),
      BitVec.getLsbD_ushiftRight]
    congr 1
    omega

theorem shiftRight_ge (hk : w ≤ k) : (h ++ l) >>> k = 0#w ++ (h >>> (k - w)) := by
  apply BitVec.eq_of_getLsbD_eq
  intro i hi
  rw [BitVec.getLsbD_ushiftRight, getLsbD_append_high (by omega)]
  by_cases hLow : i < w
  · rw [getLsbD_append_low hLow, BitVec.getLsbD_ushiftRight]
    congr 1
    omega
  · rw [getLsbD_append_high (by omega), BitVec.getLsbD_zero]
    exact BitVec.getLsbD_of_ge h _ (by omega)

/-- One bit enters a word at its low end. -/
theorem toNat_shl_one_or {y : BitVec w} (hw : 0 < w) (hy : y.toNat < 2) :
    ((l <<< 1) ||| y).toNat = (2 * l.toNat + y.toNat) % 2 ^ w := by
  have hPow : 2 ^ w = 2 * 2 ^ (w - 1) := by
    rw [← Nat.pow_add_one', Nat.sub_add_cancel hw]
  have hShift : (l <<< 1).toNat = (l.toNat % 2 ^ (w - 1)) <<< 1 := by
    rw [BitVec.toNat_shiftLeft, Nat.shiftLeft_eq, Nat.shiftLeft_eq, Nat.pow_one, hPow,
      Nat.mul_comm l.toNat, Nat.mul_mod_mul_left, Nat.mul_comm]
  have hLt := Nat.mod_lt l.toNat (Nat.two_pow_pos (w - 1))
  rw [BitVec.toNat_or, hShift, ← Nat.shiftLeft_add_eq_or_of_lt hy, Nat.shiftLeft_eq, Nat.pow_one]
  have hDiv := Nat.div_add_mod l.toNat (2 ^ (w - 1))
  have hSplit : 2 * l.toNat + y.toNat = 2 ^ w * (l.toNat / 2 ^ (w - 1)) +
      (l.toNat % 2 ^ (w - 1) * 2 + y.toNat) := by
    calc 2 * l.toNat + y.toNat
        = 2 * (2 ^ (w - 1) * (l.toNat / 2 ^ (w - 1)) + l.toNat % 2 ^ (w - 1)) + y.toNat := by
          rw [hDiv]
      _ = 2 * 2 ^ (w - 1) * (l.toNat / 2 ^ (w - 1)) +
          (l.toNat % 2 ^ (w - 1) * 2 + y.toNat) := by ring
      _ = 2 ^ w * (l.toNat / 2 ^ (w - 1)) + (l.toNat % 2 ^ (w - 1) * 2 + y.toNat) := by
          rw [← hPow]
  have hSmall : l.toNat % 2 ^ (w - 1) * 2 + y.toNat < 2 ^ w := by omega
  rw [hSplit, Nat.mul_add_mod, Nat.mod_eq_of_lt hSmall]

/-- The low word's highest bit enters the high word. -/
theorem toNat_append_shl_one {y : BitVec w} (hw : 0 < w) (hy : y.toNat < 2) :
    (((h <<< 1) ||| (l >>> (w - 1))) ++ ((l <<< 1) ||| y)).toNat =
      (2 * (h ++ l).toNat + y.toNat) % 2 ^ (w + w) := by
  have hPow : 2 ^ w = 2 * 2 ^ (w - 1) := by
    rw [← Nat.pow_add_one', Nat.sub_add_cancel hw]
  have hTop : (l >>> (w - 1)).toNat = l.toNat / 2 ^ (w - 1) := by
    rw [BitVec.toNat_ushiftRight, Nat.shiftRight_eq_div_pow]
  have hBit : (l >>> (w - 1)).toNat < 2 := by
    rw [hTop, Nat.div_lt_iff_lt_mul (Nat.two_pow_pos _), ← hPow]
    exact l.isLt
  have hCarry : (2 * l.toNat + y.toNat) / 2 ^ w = l.toNat / 2 ^ (w - 1) := by
    rw [hPow, ← Nat.div_div_eq_div_mul, Nat.mul_add_div (by decide), Nat.div_eq_of_lt hy,
      Nat.add_zero]
  have hSplit : 2 * (h.toNat * 2 ^ w + l.toNat) + y.toNat =
      2 ^ w * (2 * h.toNat) + (2 * l.toNat + y.toNat) := by ring
  rw [toNat_append, toNat_append, toNat_shl_one_or hw hy, toNat_shl_one_or hw hBit, hTop, hSplit,
    Nat.pow_add, Nat.mod_mul, Nat.mul_add_mod, Nat.mul_add_div (Nat.two_pow_pos w), hCarry,
    Nat.mul_comm, Nat.add_comm]

end AbstractMachine.Lib.DoubleWord
