import AbstractMachine.Lib.DoubleWord

/-!
# Counting zeros

The number of zeros above the highest bit of a word is known from its logarithm;
that of the zeros below the lowest bit from the power of two it is a multiple of.
A count by halves moves through these.
-/

namespace AbstractMachine.Lib

variable {w : Nat} {x : BitVec w} {n k c : Nat}

/-! ## Logarithms -/

theorem log2_div_two_pow (h : 2 ^ k ≤ n) : (n / 2 ^ k).log2 = n.log2 - k := by
  have hn : n ≠ 0 := Nat.ne_of_gt (Nat.lt_of_lt_of_le (Nat.two_pow_pos k) h)
  have hk : k ≤ n.log2 := (Nat.le_log2 hn).mpr h
  have hLow : 2 ^ (n.log2 - k) ≤ n / 2 ^ k := by
    rw [Nat.le_div_iff_mul_le (Nat.two_pow_pos k), ← Nat.pow_add, Nat.sub_add_cancel hk]
    exact Nat.log2_self_le hn
  have hHigh : n / 2 ^ k < 2 ^ (n.log2 - k + 1) := by
    rw [Nat.div_lt_iff_lt_mul (Nat.two_pow_pos k), ← Nat.pow_add]
    have hExp : n.log2 - k + 1 + k = n.log2 + 1 := by omega
    rw [hExp]
    exact Nat.lt_log2_self
  have hPos : n / 2 ^ k ≠ 0 := Nat.ne_of_gt (Nat.lt_of_lt_of_le (Nat.two_pow_pos _) hLow)
  exact (Nat.log2_eq_iff hPos).mpr ⟨hLow, hHigh⟩

theorem log2_lt_width (hx : x ≠ 0#w) : x.toNat.log2 < w :=
  (Nat.log2_lt fun h0 => hx (BitVec.eq_of_toNat_eq h0)).mpr x.isLt

/-! ## Leading zeros -/

theorem toNat_clz (hx : x ≠ 0#w) : x.clz.toNat = w - 1 - x.toNat.log2 := by
  have hLog := log2_lt_width hx
  have hn : x.toNat ≠ 0 := fun h0 => hx (BitVec.eq_of_toNat_eq h0)
  have hLow := BitVec.two_pow_sub_clz_le_toNat_of_ne_zero (Nat.zero_lt_of_lt hLog) hx
  have hHigh := BitVec.toNat_lt_two_pow_sub_clz (x := x)
  rw [← Nat.le_log2 hn] at hLow
  rw [← Nat.log2_lt hn] at hHigh
  omega

theorem lt_of_clz_lt {y : BitVec w} (hy : y ≠ 0#w) (h : y.clz.toNat < x.clz.toNat) : x < y := by
  have hLt := log2_lt_width hy
  have hClz := toNat_clz hy
  have hHigh := BitVec.toNat_lt_two_pow_sub_clz (x := x)
  have hLow := BitVec.two_pow_sub_clz_le_toNat_of_ne_zero (Nat.zero_lt_of_lt hLt) hy
  have hPow : 2 ^ (w - x.clz.toNat) ≤ 2 ^ (w - 1 - y.clz.toNat) :=
    Nat.pow_le_pow_right (by decide) (by omega)
  rw [BitVec.lt_def]
  omega

/-- The difference of the leading zeros aligns `x` with `y`. -/
theorem div_two_pow_lt {y : BitVec w} (hy : y ≠ 0#w) (h : x.clz.toNat ≤ y.clz.toNat) :
    x.toNat / 2 ^ (1 + y.clz.toNat - x.clz.toNat) < y.toNat := by
  have hLt := log2_lt_width hy
  have hClz := toNat_clz hy
  have hHigh := BitVec.toNat_lt_two_pow_sub_clz (x := x)
  have hLow := BitVec.two_pow_sub_clz_le_toNat_of_ne_zero (Nat.zero_lt_of_lt hLt) hy
  have hExp : w - x.clz.toNat =
      (w - 1 - y.clz.toNat) + (1 + y.clz.toNat - x.clz.toNat) := by omega
  rw [Nat.div_lt_iff_lt_mul (Nat.two_pow_pos _)]
  calc x.toNat < 2 ^ (w - x.clz.toNat) := hHigh
    _ = 2 ^ (w - 1 - y.clz.toNat) * 2 ^ (1 + y.clz.toNat - x.clz.toNat) := by
      rw [hExp, Nat.pow_add]
    _ ≤ y.toNat * 2 ^ (1 + y.clz.toNat - x.clz.toNat) := Nat.mul_le_mul_right _ hLow

/-! ## Trailing zeros -/

theorem toNat_ctz_of_bits (hBit : x.getLsbD c = true) (hBelow : ∀ i < c, x.getLsbD i = false) :
    x.ctz.toNat = c := by
  have hx : x ≠ 0#w := by
    rintro rfl
    rw [BitVec.getLsbD_zero] at hBit
    cases hBit
  rcases Nat.lt_trichotomy x.ctz.toNat c with hLt | hEq | hGt
  · have hTrue := BitVec.getLsbD_true_ctz_of_ne_zero hx
    rw [hBelow _ hLt] at hTrue
    cases hTrue
  · exact hEq
  · rw [BitVec.getLsbD_false_of_lt_ctz hGt] at hBit
    cases hBit

/-- What is left after the trailing zeros is odd. -/
theorem toNat_ctz_eq (hZero : x.toNat % 2 ^ c = 0) (hOdd : x.toNat / 2 ^ c % 2 = 1) :
    x.ctz.toNat = c := by
  refine toNat_ctz_of_bits ?_ fun i hi => ?_
  · rw [← BitVec.testBit_toNat, Nat.testBit_eq_decide_div_mod_eq, hOdd]
    rfl
  · have hBit : (x.toNat % 2 ^ c).testBit i = x.toNat.testBit i := by
      rw [Nat.testBit_mod_two_pow, decide_eq_true hi, Bool.true_and]
    rw [← BitVec.testBit_toNat, ← hBit, hZero, Nat.zero_testBit]

/-! ## Double words -/

section Double

open DoubleWord

variable {x : BitVec (w + w)}

/-- Only the high word is looked at if it is not 0. -/
theorem toNat_clz_high (h : high x ≠ 0#w) : x.clz.toNat = (high x).clz.toNat := by
  have hHigh := toNat_high (x := x)
  have hNe : (high x).toNat ≠ 0 := fun h0 => h (BitVec.eq_of_toNat_eq h0)
  have hx : x ≠ 0#(w + w) := by
    rintro rfl
    rw [hHigh, BitVec.toNat_zero, Nat.zero_div] at hNe
    exact hNe rfl
  have hGe : 2 ^ w ≤ x.toNat := by
    rw [hHigh] at hNe
    have hPos := Nat.pos_of_ne_zero hNe
    exact Nat.le_of_not_lt fun hLt => hNe (Nat.div_eq_of_lt hLt)
  have hLog := log2_div_two_pow hGe
  have hLogGe := (Nat.le_log2 fun h0 => hx (BitVec.eq_of_toNat_eq h0)).mpr hGe
  have hLt := log2_lt_width h
  rw [toNat_clz h, toNat_clz hx, hHigh, hLog]
  omega

theorem toNat_clz_low (h : high x = 0#w) (hl : low x ≠ 0#w) :
    x.clz.toNat = w + (low x).clz.toNat := by
  have hLow : x.toNat = (low x).toNat := by
    have hSplit := toNat_append (h := high x) (l := low x)
    rw [high_append_low, h] at hSplit
    rw [hSplit, BitVec.toNat_zero, Nat.zero_mul, Nat.zero_add]
  have hx : x ≠ 0#(w + w) := by
    rintro rfl
    exact hl (BitVec.eq_of_toNat_eq hLow.symm)
  have hLt := log2_lt_width hl
  rw [toNat_clz hl, toNat_clz hx, hLow]
  omega

theorem toNat_ctz_low (h : low x ≠ 0#w) : x.ctz.toNat = (low x).ctz.toNat := by
  have hLow : ∀ i < w, x.getLsbD i = (low x).getLsbD i := by
    intro i hi
    rw [← high_append_low (x := x), getLsbD_append_low hi, low_append]
  have hTrue := BitVec.getLsbD_true_ctz_of_ne_zero h
  have hLt : (low x).ctz.toNat < w := BitVec.lt_of_getLsbD hTrue
  refine toNat_ctz_of_bits ?_ fun i hi => ?_
  · rw [hLow _ hLt]
    exact hTrue
  · rw [hLow i (Nat.lt_trans hi hLt)]
    exact BitVec.getLsbD_false_of_lt_ctz hi

theorem toNat_ctz_high (h : low x = 0#w) (hh : high x ≠ 0#w) :
    x.ctz.toNat = w + (high x).ctz.toNat := by
  have hTrue := BitVec.getLsbD_true_ctz_of_ne_zero hh
  have hSplit : x = high x ++ 0#w := by
    rw [← h, high_append_low]
  generalize high x = y at hSplit hTrue
  subst hSplit
  refine toNat_ctz_of_bits ?_ fun i hi => ?_
  · rw [getLsbD_append_high (Nat.le_add_right w _), Nat.add_sub_cancel_left]
    exact hTrue
  · rcases Nat.lt_or_ge i w with hLow | hHigh
    · rw [getLsbD_append_low hLow, BitVec.getLsbD_zero]
    · rw [getLsbD_append_high hHigh]
      exact BitVec.getLsbD_false_of_lt_ctz (by omega)

end Double

/-! ## Powers of two -/

/-- Clearing the lowest bit leaves nothing. -/
theorem toNat_eq_two_pow_ctz (hx : x ≠ 0#w) (h : x &&& (x - 1#w) = 0#w) :
    x.toNat = 2 ^ x.ctz.toNat := by
  have hn : x.toNat ≠ 0 := fun h0 => hx (BitVec.eq_of_toNat_eq h0)
  have hw : 0 < w := Nat.zero_lt_of_lt (log2_lt_width hx)
  have hPred : (x - 1#w).toNat = x.toNat - 1 := by
    have hOne := BitVec.toNat_one hw
    rw [BitVec.toNat_sub_of_le (BitVec.le_def.mpr (by omega)), hOne]
  have hAnd : x.toNat &&& (x.toNat - 1) = 0 := by
    rw [← hPred, ← BitVec.toNat_and, h]
    exact BitVec.toNat_zero
  obtain ⟨c, hc⟩ := (Nat.and_sub_one_eq_zero_iff_isPowerOfTwo hn).mp hAnd
  have hZero : x.toNat % 2 ^ c = 0 := by rw [hc, Nat.mod_self]
  have hOdd : x.toNat / 2 ^ c % 2 = 1 := by rw [hc, Nat.div_self (Nat.two_pow_pos c)]
  rw [toNat_ctz_eq hZero hOdd, hc]

/-- The low bits of a multiple of a power of two. -/
theorem toNat_and_pred {y : BitVec w} (hx : x ≠ 0#w) (h : x.toNat = 2 ^ c) :
    (y &&& (x - 1#w)).toNat = y.toNat % x.toNat := by
  have hw : 0 < w := Nat.zero_lt_of_lt (log2_lt_width hx)
  have hPos : 0 < x.toNat := h ▸ Nat.two_pow_pos c
  have hPred : (x - 1#w).toNat = 2 ^ c - 1 := by
    have hOne := BitVec.toNat_one hw
    rw [BitVec.toNat_sub_of_le (BitVec.le_def.mpr (by omega)), hOne, h]
  rw [BitVec.toNat_and, hPred, Nat.and_two_pow_sub_one_eq_mod, h]

end AbstractMachine.Lib
