import AbstractMachine.Lib.BitCount
import AbstractMachine.Lib.DoubleWord

/-!
# Counting zeros in `int64.c`

The counts look at half of the bits that are left in each of four steps, without
a branch.  They are for operands other than 0.
-/

namespace AbstractMachine.Klib.Int64

open AbstractMachine.Lib DoubleWord

/-- An `su_int` of `int64.c`. -/
abbrev Word := BitVec 32

/-! ## The functions -/

/-- A comparison, as a number. -/
def cmp (b : Bool) : Word := if b then 1 else 0

/-- The bits in question go to the low end: `x` and the count so far. -/
def clzStep (mask : Word) (lg : Nat) (n : Word) (s : Word × Word) : Word × Word :=
  let t := cmp (s.1 &&& mask == 0) <<< lg
  (s.1 >>> (n - t), s.2 + t)

/-- Two bits are left. -/
def clzSteps (a : Word) : Word × Word :=
  let s := clzStep 0xffff0000 4 16 (a, 0)
  let s := clzStep 0xff00 3 8 s
  let s := clzStep 0xf0 2 4 s
  clzStep 0xc 1 2 s

/-- `__clzsi2`: the two bits that are left add 0, 1 or 2. -/
def clzsi2 (a : Word) : Word :=
  let s := clzSteps a
  s.2 + ((2 - s.1) &&& -cmp (s.1 &&& 2 == 0))

/-- One halving of `__ctzsi2`: where the bits under `mask` are all zero, `2 ^ lg` of them
are counted and dropped. -/
def ctzStep (mask : Word) (lg : Nat) (s : Word × Word) : Word × Word :=
  let t := cmp (s.1 &&& mask == 0) <<< lg
  (s.1 >>> t, s.2 + t)

/-- The four halvings of `__ctzsi2`; the word keeps its low two bits undecided. -/
def ctzSteps (a : Word) : Word × Word :=
  let s := ctzStep 0x0000ffff 4 (a, 0)
  let s := ctzStep 0x00ff 3 s
  let s := ctzStep 0x0f 2 s
  ctzStep 0x3 1 s

/-- Bits above the two that are left are masked. -/
def ctzsi2 (a : Word) : Word :=
  let s := ctzSteps a
  let x := s.1 &&& 3
  s.2 + ((2 - (x >>> 1)) &&& -cmp (x &&& 1 == 0))

/-- `__ctzdi2`: the mask `f` picks the high word where the low word is zero. -/
def ctzdi2 (a : BitVec 64) : Word :=
  let f := -cmp (low (w := 32) a == 0)
  ctzsi2 ((high (w := 32) a &&& f) ||| (low (w := 32) a &&& ~~~f)) + (f &&& 32)

/-- `__clzdi2`: the mask `f` picks the low word where the high word is zero. -/
def clzdi2 (a : BitVec 64) : Word :=
  let f := -cmp (high (w := 32) a == 0)
  clzsi2 ((high (w := 32) a &&& ~~~f) ||| (low (w := 32) a &&& f)) + (f &&& 32)

/-! ## Leading zeros -/

variable {a x r mask : Word} {lg n : Nat}

/-- `x` has the leading zeros of `a` but for `r`, in its low `k` bits. -/
structure Leading (a x r : Word) (k : Nat) : Prop where
  lt : x.toNat < 2 ^ k
  ne : x ≠ 0
  le : r.toNat + k ≤ 32
  log : a.toNat.log2 + r.toNat + k = x.toNat.log2 + 32

/-- The upper half of the bits. -/
theorem and_upper_eq_zero (hMask : mask.toNat = (2 ^ n - 1) <<< n) (hx : x.toNat < 2 ^ (n + n)) :
    x &&& mask = 0 ↔ x.toNat < 2 ^ n := by
  have hAnd : x.toNat &&& ((2 ^ n - 1) <<< n) = (x.toNat / 2 ^ n) * 2 ^ n := by
    have hSmall : x.toNat / 2 ^ n < 2 ^ n := by
      rw [Nat.div_lt_iff_lt_mul (Nat.two_pow_pos n), ← Nat.pow_add]
      exact hx
    have hShift : x.toNat &&& ((2 ^ n - 1) <<< n) =
        ((x.toNat >>> n) &&& (2 ^ n - 1)) <<< n := by
      apply Nat.eq_of_testBit_eq
      intro i
      simp only [Nat.testBit_and, Nat.testBit_shiftLeft, Nat.testBit_shiftRight]
      by_cases hi : n ≤ i
      · rw [Nat.add_sub_cancel' hi, decide_eq_true hi]
        simp
      · rw [decide_eq_false hi]
        simp
    rw [hShift, Nat.and_two_pow_sub_one_eq_mod, Nat.shiftRight_eq_div_pow, Nat.shiftLeft_eq,
      Nat.mod_eq_of_lt hSmall]
  rw [← BitVec.toNat_inj, BitVec.toNat_and, hMask, hAnd]
  have hPos := Nat.two_pow_pos n
  have hZero : (0 : Word).toNat = 0 := rfl
  rw [hZero, Nat.mul_eq_zero, Nat.div_eq_zero_iff]
  omega

private theorem toNat_cmp_shl (b : Bool) (hlg : lg < 5) :
    (cmp b <<< lg).toNat = if b then 2 ^ lg else 0 := by
  have hAll : ∀ lg, lg < 5 → ∀ b, (cmp b <<< lg).toNat = if b then 2 ^ lg else 0 := by decide
  exact hAll lg hlg b

theorem Leading.step (mask : Word) (lg : Nat) (h : Leading a x r (n + n)) (hn : n = 2 ^ lg)
    (hlg : lg < 5) (hMask : mask.toNat = (2 ^ n - 1) <<< n) :
    Leading a (clzStep mask lg (BitVec.ofNat 32 n) (x, r)).1
      (clzStep mask lg (BitVec.ofNat 32 n) (x, r)).2 n := by
  have hLe : n ≤ 16 := by
    rw [hn]
    exact Nat.pow_le_pow_right (by decide) (Nat.le_of_lt_succ hlg)
  have hUpper := and_upper_eq_zero hMask h.lt
  have hr := h.le
  have hLog := h.log
  have hNat : (BitVec.ofNat 32 n).toNat = n := by
    rw [BitVec.toNat_ofNat]
    omega
  unfold clzStep
  dsimp only
  by_cases hSmall : x.toNat < 2 ^ n
  · have hT : (cmp (x &&& mask == 0) <<< lg) = BitVec.ofNat 32 n := by
      apply BitVec.eq_of_toNat_eq
      rw [toNat_cmp_shl _ hlg, if_pos (beq_iff_eq.mpr (hUpper.mpr hSmall)), hNat, hn]
    have hSum : (r + BitVec.ofNat 32 n).toNat = r.toNat + n := by
      rw [BitVec.toNat_add, hNat]
      omega
    have hSame : x >>> (0#32) = x := rfl
    rw [hT, BitVec.sub_self, hSame]
    exact ⟨hSmall, h.ne, by omega, by omega⟩
  · have hT : (cmp (x &&& mask == 0) <<< lg) = 0#32 := by
      have hFalse : (x &&& mask == 0) = false := beq_eq_false_iff_ne.mpr (mt hUpper.mp hSmall)
      apply BitVec.eq_of_toNat_eq
      rw [toNat_cmp_shl _ hlg, hFalse]
      rfl
    have hShift : (x >>> (BitVec.ofNat 32 n)).toNat = x.toNat / 2 ^ n := by
      rw [BitVec.ushiftRight_eq', hNat, BitVec.toNat_ushiftRight, Nat.shiftRight_eq_div_pow]
    have hHigh : x.toNat / 2 ^ n < 2 ^ n := by
      rw [Nat.div_lt_iff_lt_mul (Nat.two_pow_pos n), ← Nat.pow_add]
      exact h.lt
    have hGe : 2 ^ n ≤ x.toNat := Nat.le_of_not_lt hSmall
    have hLogDiv := log2_div_two_pow hGe
    have hLogGe : n ≤ x.toNat.log2 :=
      (Nat.le_log2 (Nat.ne_of_gt (Nat.lt_of_lt_of_le (Nat.two_pow_pos n) hGe))).mpr hGe
    rw [hT, BitVec.sub_zero, BitVec.add_zero]
    refine ⟨hShift ▸ hHigh, ?_, by omega, ?_⟩
    · intro h0
      have hPos : 0 < x.toNat / 2 ^ n := Nat.div_pos hGe (Nat.two_pow_pos n)
      rw [← hShift, h0] at hPos
      exact Nat.lt_irrefl 0 hPos
    · rw [hShift, hLogDiv]
      omega

/-- The last two bits. -/
theorem leading_rest (hx : x.toNat < 4) (h0 : x ≠ 0) :
    ((2 - x) &&& -cmp (x &&& 2 == 0)).toNat = 1 - x.toNat.log2 := by
  have hCases : x = 1 ∨ x = 2 ∨ x = 3 := by
    have hNe : x.toNat ≠ 0 := fun h => h0 (BitVec.eq_of_toNat_eq h)
    rw [← BitVec.toNat_inj, ← BitVec.toNat_inj, ← BitVec.toNat_inj]
    have h1 : (1 : Word).toNat = 1 := rfl
    have h2 : (2 : Word).toNat = 2 := rfl
    have h3 : (3 : Word).toNat = 3 := rfl
    omega
  rcases hCases with rfl | rfl | rfl <;> decide

private theorem clzSteps_leading (h : a ≠ 0) : Leading a (clzSteps a).1 (clzSteps a).2 2 := by
  have h32 : Leading a a 0 (16 + 16) := ⟨a.isLt, h, Nat.le_refl 32, rfl⟩
  have h16 := h32.step 0xffff0000 4 rfl (by decide) (by decide)
  have h8 := h16.step (n := 8) 0xff00 3 rfl (by decide) (by decide)
  have h4 := h8.step (n := 4) 0xf0 2 rfl (by decide) (by decide)
  exact h4.step (n := 2) 0xc 1 rfl (by decide) (by decide)

theorem clzsi2_eq (h : a ≠ 0) : clzsi2 a = a.clz := by
  have hSteps := clzSteps_leading h
  have hRest := leading_rest hSteps.lt hSteps.ne
  have hLog := hSteps.log
  have hLe := hSteps.le
  have hTop : (clzSteps a).1.toNat.log2 < 2 :=
    (Nat.log2_lt fun h0 => hSteps.ne (BitVec.eq_of_toNat_eq h0)).mpr hSteps.lt
  apply BitVec.eq_of_toNat_eq
  unfold clzsi2
  dsimp only
  rw [toNat_clz h, BitVec.toNat_add, hRest]
  omega

/-! ## Trailing zeros -/

/-- `x` is `a` without `r` trailing zeros, and more than its low `k` bits are not 0. -/
structure Trailing (a x r : Word) (k : Nat) : Prop where
  eq : a.toNat = x.toNat * 2 ^ r.toNat
  ne : x.toNat % 2 ^ k ≠ 0
  le : r.toNat + k ≤ 32

theorem Trailing.step (mask : Word) (lg : Nat) (h : Trailing a x r (n + n)) (hn : n = 2 ^ lg)
    (hlg : lg < 5) (hMask : mask.toNat = 2 ^ n - 1) :
    Trailing a (ctzStep mask lg (x, r)).1 (ctzStep mask lg (x, r)).2 n := by
  have hLe : n ≤ 16 := by
    rw [hn]
    exact Nat.pow_le_pow_right (by decide) (Nat.le_of_lt_succ hlg)
  have hr := h.le
  have hEq := h.eq
  have hNe := h.ne
  have hLower : x &&& mask = 0 ↔ x.toNat % 2 ^ n = 0 := by
    rw [← BitVec.toNat_inj, BitVec.toNat_and, hMask, Nat.and_two_pow_sub_one_eq_mod]
    rfl
  have hNat : (BitVec.ofNat 32 n).toNat = n := by
    rw [BitVec.toNat_ofNat]
    omega
  unfold ctzStep
  dsimp only
  by_cases hZero : x.toNat % 2 ^ n = 0
  · have hT : (cmp (x &&& mask == 0) <<< lg) = BitVec.ofNat 32 n := by
      apply BitVec.eq_of_toNat_eq
      rw [toNat_cmp_shl _ hlg, if_pos (beq_iff_eq.mpr (hLower.mpr hZero)), hNat, hn]
    have hSum : (r + BitVec.ofNat 32 n).toNat = r.toNat + n := by
      rw [BitVec.toNat_add, hNat]
      omega
    have hShift : (x >>> (BitVec.ofNat 32 n)).toNat = x.toNat / 2 ^ n := by
      rw [BitVec.ushiftRight_eq', hNat, BitVec.toNat_ushiftRight, Nat.shiftRight_eq_div_pow]
    have hSplit : x.toNat = x.toNat / 2 ^ n * 2 ^ n := by
      rw [Nat.div_mul_cancel (Nat.dvd_of_mod_eq_zero hZero)]
    rw [hT]
    refine ⟨?_, ?_, by omega⟩
    · rw [hShift, hSum, hEq, Nat.pow_add, Nat.mul_comm (2 ^ r.toNat), ← Nat.mul_assoc, ← hSplit]
    · rw [hShift]
      intro h0
      apply hNe
      rw [Nat.pow_add, Nat.mod_mul, hZero, h0, Nat.mul_zero]
  · have hT : (cmp (x &&& mask == 0) <<< lg) = 0#32 := by
      have hFalse : (x &&& mask == 0) = false := beq_eq_false_iff_ne.mpr (mt hLower.mp hZero)
      apply BitVec.eq_of_toNat_eq
      rw [toNat_cmp_shl _ hlg, hFalse]
      rfl
    have hSame : x >>> (0#32) = x := rfl
    rw [hT, BitVec.add_zero, hSame]
    exact ⟨hEq, hZero, by omega⟩

/-- The last two bits. -/
theorem trailing_rest (x : Word) (h : x.toNat % 2 ^ 2 ≠ 0) :
    ((2 - ((x &&& 3) >>> 1)) &&& -cmp ((x &&& 3) &&& 1 == 0)).toNat =
      if x.toNat % 2 = 0 then 1 else 0 := by
  have hMask : (x &&& 3).toNat = x.toNat % 4 := Nat.and_two_pow_sub_one_eq_mod x.toNat 2
  have hCases : (x &&& 3 = 1 ∧ x.toNat % 2 ≠ 0) ∨ (x &&& 3 = 2 ∧ x.toNat % 2 = 0) ∨
      (x &&& 3 = 3 ∧ x.toNat % 2 ≠ 0) := by
    rw [← BitVec.toNat_inj, ← BitVec.toNat_inj, ← BitVec.toNat_inj, hMask]
    have h1 : (1 : Word).toNat = 1 := rfl
    have h2 : (2 : Word).toNat = 2 := rfl
    have h3 : (3 : Word).toNat = 3 := rfl
    omega
  rcases hCases with ⟨hEq, hOdd⟩ | ⟨hEq, hEven⟩ | ⟨hEq, hOdd⟩
  · rw [hEq, if_neg hOdd]
    decide
  · rw [hEq, if_pos hEven]
    decide
  · rw [hEq, if_neg hOdd]
    decide

private theorem ctzSteps_trailing (h : a ≠ 0) : Trailing a (ctzSteps a).1 (ctzSteps a).2 2 := by
  have hNe : a.toNat % 2 ^ 32 ≠ 0 := by
    rw [Nat.mod_eq_of_lt a.isLt]
    exact fun h0 => h (BitVec.eq_of_toNat_eq h0)
  have h32 : Trailing a a 0 (16 + 16) := ⟨(Nat.mul_one _).symm, hNe, Nat.le_refl 32⟩
  have h16 := h32.step 0x0000ffff 4 rfl (by decide) (by decide)
  have h8 := h16.step (n := 8) 0x00ff 3 rfl (by decide) (by decide)
  have h4 := h8.step (n := 4) 0x0f 2 rfl (by decide) (by decide)
  exact h4.step (n := 2) 0x3 1 rfl (by decide) (by decide)

theorem ctzsi2_eq (h : a ≠ 0) : ctzsi2 a = a.ctz := by
  have hSteps := ctzSteps_trailing h
  have hRest := trailing_rest _ hSteps.ne
  have hEq := hSteps.eq
  have hLe := hSteps.le
  have hNe := hSteps.ne
  apply BitVec.eq_of_toNat_eq
  unfold ctzsi2
  dsimp only
  rw [BitVec.toNat_add, hRest]
  generalize (ctzSteps a).1 = x at hEq hNe
  generalize (ctzSteps a).2 = r at hEq hLe
  have hPos : 0 < 2 ^ r.toNat := Nat.two_pow_pos r.toNat
  split
  · -- the count goes one further, and what is left is odd
    rename_i hEven
    have hSplit : a.toNat = x.toNat / 2 * 2 ^ (r.toNat + 1) := by
      rw [hEq, Nat.pow_succ, Nat.mul_comm (2 ^ r.toNat), ← Nat.mul_assoc,
        Nat.div_mul_cancel (Nat.dvd_of_mod_eq_zero hEven)]
    have hZero : a.toNat % 2 ^ (r.toNat + 1) = 0 := by rw [hSplit, Nat.mul_mod_left]
    have hOdd : a.toNat / 2 ^ (r.toNat + 1) % 2 = 1 := by
      rw [hSplit, Nat.mul_div_cancel _ (Nat.two_pow_pos _)]
      omega
    rw [toNat_ctz_eq hZero hOdd]
    omega
  · rename_i hOdd
    have hZero : a.toNat % 2 ^ r.toNat = 0 := by rw [hEq, Nat.mul_mod_left]
    have hRest : a.toNat / 2 ^ r.toNat % 2 = 1 := by
      rw [hEq, Nat.mul_div_cancel _ hPos]
      omega
    rw [toNat_ctz_eq hZero hRest]
    omega

/-! ## Double words -/

private theorem mask_zero : -cmp ((0 : Word) == 0) = BitVec.allOnes 32 := by decide

private theorem mask_ne (h : a ≠ 0) : -cmp (a == 0) = 0#32 := by
  rw [beq_eq_false_iff_ne.mpr h]
  decide

private theorem clzdi2_eq {a : BitVec 64} (h : a ≠ 0) : (clzdi2 a).toNat = a.clz.toNat := by
  unfold clzdi2
  dsimp only
  by_cases hHigh : high (w := 32) a = 0
  · have hLow : low (w := 32) a ≠ 0 := by
      intro hLow
      apply h
      rw [← high_append_low (w := 32) (x := a), hHigh, hLow]
      rfl
    have hClz := toNat_clz_low (w := 32) (x := a) hHigh hLow
    have hLt := log2_lt_width hLow
    have hLowClz := toNat_clz hLow
    rw [hHigh, mask_zero, BitVec.not_allOnes, BitVec.and_zero, BitVec.and_allOnes,
      BitVec.zero_or, BitVec.allOnes_and, clzsi2_eq hLow, BitVec.toNat_add]
    have h32 : (32 : Word).toNat = 32 := rfl
    omega
  · have hClz := toNat_clz_high (w := 32) (x := a) hHigh
    rw [mask_ne hHigh, BitVec.not_zero, BitVec.and_zero, BitVec.and_allOnes, BitVec.or_zero,
      BitVec.zero_and, clzsi2_eq hHigh, BitVec.add_zero]
    exact hClz.symm

private theorem ctzdi2_eq {a : BitVec 64} (h : a ≠ 0) : (ctzdi2 a).toNat = a.ctz.toNat := by
  unfold ctzdi2
  dsimp only
  by_cases hLow : low (w := 32) a = 0
  · have hHigh : high (w := 32) a ≠ 0 := by
      intro hHigh
      apply h
      rw [← high_append_low (w := 32) (x := a), hHigh, hLow]
      rfl
    have hCtz := toNat_ctz_high (w := 32) (x := a) hLow hHigh
    have hLt : (high (w := 32) a).ctz.toNat < 32 :=
      BitVec.lt_of_getLsbD (BitVec.getLsbD_true_ctz_of_ne_zero hHigh)
    rw [hLow, mask_zero, BitVec.not_allOnes, BitVec.and_zero, BitVec.and_allOnes,
      BitVec.or_zero, BitVec.allOnes_and, ctzsi2_eq hHigh, BitVec.toNat_add]
    have h32 : (32 : Word).toNat = 32 := rfl
    omega
  · have hCtz := toNat_ctz_low (w := 32) (x := a) hLow
    rw [mask_ne hLow, BitVec.not_zero, BitVec.and_zero, BitVec.and_allOnes, BitVec.zero_or,
      BitVec.zero_and, ctzsi2_eq hLow, BitVec.add_zero]
    exact hCtz.symm

/--
**Counting zeros.** Four halvings without a branch give the number of leading and
of trailing zeros of every word other than 0, and so of every double word.
-/
theorem int64_count_correct {a : BitVec 64} (h : a ≠ 0) :
    (clzdi2 a).toNat = a.clz.toNat ∧ (ctzdi2 a).toNat = a.ctz.toNat :=
  ⟨clzdi2_eq h, ctzdi2_eq h⟩

theorem int64_count_correct_high :
    (clzdi2 0x0000100000000000).toNat = (0x0000100000000000 : BitVec 64).clz.toNat ∧
      (ctzdi2 0x0000100000000000).toNat = (0x0000100000000000 : BitVec 64).ctz.toNat :=
  int64_count_correct (by decide)

end AbstractMachine.Klib.Int64
