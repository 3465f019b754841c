import Mathlib.Algebra.Order.Ring.Nat
import Mathlib.Tactic.Ring

/-!
# Division by subtraction

What the loops of a division keep.  One kind takes the dividend bit by bit and
subtracts the divisor from the remainder so far; the other aligns the divisor with
the dividend first and moves it back, one bit for each subtraction.  Signed
operands are divided by their magnitudes.

## Main definitions

* `DivMod` -- a quotient with its remainder.
* `ShiftDiv` -- the dividend leaves a register while the quotient enters it.
* `PartialDiv` -- the quotient down to one bit, and what is left of the dividend.
* `negIf` -- a word or its negation.
-/

namespace AbstractMachine.Lib

/-! ## Bit by bit -/

/-- `q` and `r` are quotient and remainder of `n` by `d`. -/
structure DivMod (n d q r : Nat) : Prop where
  eq : n = q * d + r
  lt : r < d

namespace DivMod

variable {n d q r b : Nat}

theorem intro (h : 0 < d) : DivMod n d (n / d) (n % d) where
  eq := (Nat.div_add_mod' n d).symm
  lt := Nat.mod_lt n h

theorem div_eq (h : DivMod n d q r) : n / d = q := by
  have hPos : 0 < d := Nat.lt_of_le_of_lt (Nat.zero_le r) h.lt
  rw [h.eq, Nat.mul_comm, Nat.mul_add_div hPos, Nat.div_eq_of_lt h.lt, Nat.add_zero]

theorem mod_eq (h : DivMod n d q r) : n % d = r := by
  rw [h.eq, Nat.mul_comm, Nat.mul_add_mod, Nat.mod_eq_of_lt h.lt]

/-- One more bit, and the divisor is not in the remainder. -/
theorem shift (h : DivMod n d q r) (hLt : 2 * r + b < d) :
    DivMod (2 * n + b) d (2 * q) (2 * r + b) where
  eq := by
    rw [h.eq]
    ring
  lt := hLt

/-- One more bit, and the divisor is subtracted. -/
theorem shift_sub (h : DivMod n d q r) (hb : b < 2) (hLe : d ≤ 2 * r + b) :
    DivMod (2 * n + b) d (2 * q + 1) (2 * r + b - d) where
  eq := by
    have hSplit : 2 * r + b = d + (2 * r + b - d) := (Nat.add_sub_cancel' hLe).symm
    calc 2 * n + b = 2 * (q * d) + (2 * r + b) := by rw [h.eq]; ring
      _ = 2 * (q * d) + (d + (2 * r + b - d)) := by rw [← hSplit]
      _ = (2 * q + 1) * d + (2 * r + b - d) := by ring
  lt := by
    have hLt := h.lt
    omega

end DivMod

/-! ## Dividend and quotient in one register -/

/-- `k` bits of `n` are left in a register of `w` bits, above the quotient so far; the last
bit `c` of the quotient waits to be shifted in. -/
structure ShiftDiv (w n d k r q c : Nat) : Prop where
  divMod : DivMod (n / 2 ^ k) d (2 * (q % 2 ^ (w - k)) + c) r
  left : q / 2 ^ (w - k) = n % 2 ^ k
  carry : c < 2

namespace ShiftDiv

variable {w n d k r q c : Nat}

theorem start (hk : k ≤ w) (h : n / 2 ^ k < d) :
    ShiftDiv w n d k (n / 2 ^ k) (n * 2 ^ (w - k) % 2 ^ w) 0 := by
  have hReg : n * 2 ^ (w - k) % 2 ^ w = n % 2 ^ k * 2 ^ (w - k) := by
    have hSplit : 2 ^ w = 2 ^ k * 2 ^ (w - k) := by rw [← Nat.pow_add, Nat.add_sub_cancel' hk]
    rw [hSplit, Nat.mul_mod_mul_right]
  rw [hReg]
  refine ⟨?_, Nat.mul_div_cancel _ (Nat.two_pow_pos _), by decide⟩
  rw [Nat.mul_mod_left]
  exact ⟨by ring, h⟩

/-- The bit that leaves the register is the next of `n`. -/
theorem top (h : ShiftDiv w n d (k + 1) r q c) (hk : k < w) : q / 2 ^ (w - 1) = n / 2 ^ k % 2 := by
  have hExp : w - 1 = w - (k + 1) + k := by omega
  rw [hExp, Nat.pow_add, ← Nat.div_div_eq_div_mul, h.left, Nat.pow_succ, Nat.mod_mul_right_div_self]

theorem next_lt (h : ShiftDiv w n d (k + 1) r q c) (hk : k < w) (hn : n < 2 ^ w) :
    2 * r + q / 2 ^ (w - 1) < 2 ^ w := by
  have hTop := h.top hk
  have hLe : r ≤ n / 2 ^ (k + 1) := by
    rw [h.divMod.eq]
    exact Nat.le_add_left _ _
  have hHalf : n / 2 ^ (k + 1) = n / 2 ^ k / 2 := by rw [Nat.pow_succ, Nat.div_div_eq_div_mul]
  have hDiv : n / 2 ^ k ≤ n := Nat.div_le_self n _
  omega

theorem shifted (h : ShiftDiv w n d (k + 1) r q c) (hk : k < w) :
    (2 * q + c) % 2 ^ w % 2 ^ (w - k) = 2 * (q % 2 ^ (w - (k + 1))) + c ∧
      (2 * q + c) % 2 ^ w / 2 ^ (w - k) = n % 2 ^ k := by
  have hExp : w - k = w - (k + 1) + 1 := by omega
  have hPow : 2 ^ w = 2 ^ (w - k) * 2 ^ k := by rw [← Nat.pow_add, Nat.sub_add_cancel (by omega)]
  have hLow : 2 * (q % 2 ^ (w - (k + 1))) + c < 2 ^ (w - k) := by
    have hLt := Nat.mod_lt q (Nat.two_pow_pos (w - (k + 1)))
    have hCarry := h.carry
    rw [hExp, Nat.pow_succ]
    omega
  have hSplit : 2 * q + c =
      2 ^ (w - k) * (q / 2 ^ (w - (k + 1))) + (2 * (q % 2 ^ (w - (k + 1))) + c) := by
    have hDiv := Nat.div_add_mod q (2 ^ (w - (k + 1)))
    calc 2 * q + c
        = 2 * (2 ^ (w - (k + 1)) * (q / 2 ^ (w - (k + 1))) + q % 2 ^ (w - (k + 1))) + c := by
          rw [hDiv]
      _ = 2 ^ (w - (k + 1)) * 2 * (q / 2 ^ (w - (k + 1))) +
          (2 * (q % 2 ^ (w - (k + 1))) + c) := by ring
      _ = 2 ^ (w - k) * (q / 2 ^ (w - (k + 1))) + (2 * (q % 2 ^ (w - (k + 1))) + c) := by
          rw [← Nat.pow_add_one, ← hExp]
  constructor
  · rw [hPow, Nat.mod_mul_right_mod, hSplit, Nat.mul_add_mod, Nat.mod_eq_of_lt hLow]
  · rw [hPow, Nat.mod_mul_right_div_self, hSplit, Nat.mul_add_div (Nat.two_pow_pos _),
      Nat.div_eq_of_lt hLow, Nat.add_zero, h.left, Nat.pow_succ, Nat.mod_mul_right_mod]

/-- One round, and the divisor is not in the remainder. -/
theorem shift (h : ShiftDiv w n d (k + 1) r q c) (hk : k < w) (hLt : 2 * r + q / 2 ^ (w - 1) < d) :
    ShiftDiv w n d k (2 * r + q / 2 ^ (w - 1)) ((2 * q + c) % 2 ^ w) 0 := by
  obtain ⟨hQuot, hLeft⟩ := h.shifted hk
  have hStep := h.divMod.shift hLt
  have hNext : 2 * (n / 2 ^ (k + 1)) + q / 2 ^ (w - 1) = n / 2 ^ k := by
    rw [h.top hk, Nat.pow_succ, ← Nat.div_div_eq_div_mul, Nat.div_add_mod]
  rw [hNext] at hStep
  exact ⟨hQuot ▸ hStep, hLeft, by decide⟩

/-- One round, and the divisor is subtracted. -/
theorem shift_sub (h : ShiftDiv w n d (k + 1) r q c) (hk : k < w)
    (hLe : d ≤ 2 * r + q / 2 ^ (w - 1)) :
    ShiftDiv w n d k (2 * r + q / 2 ^ (w - 1) - d) ((2 * q + c) % 2 ^ w) 1 := by
  obtain ⟨hQuot, hLeft⟩ := h.shifted hk
  have hBit : q / 2 ^ (w - 1) < 2 := by
    rw [h.top hk]
    exact Nat.mod_lt _ (by decide)
  have hStep := h.divMod.shift_sub hBit hLe
  have hNext : 2 * (n / 2 ^ (k + 1)) + q / 2 ^ (w - 1) = n / 2 ^ k := by
    rw [h.top hk, Nat.pow_succ, ← Nat.div_div_eq_div_mul, Nat.div_add_mod]
  rw [hNext] at hStep
  exact ⟨hQuot ▸ hStep, hLeft, by decide⟩

/-- The last bit is shifted in. -/
theorem finish (h : ShiftDiv w n d 0 r q c) (hq : q < 2 ^ w) : DivMod n d (2 * q + c) r := by
  have hDivMod := h.divMod
  rwa [Nat.pow_zero, Nat.div_one, Nat.sub_zero, Nat.mod_eq_of_lt hq] at hDivMod

end ShiftDiv

/-! ## With an aligned divisor -/

/-- The quotient without its `k` low bits is `q`, and `r` is left. -/
structure PartialDiv (n d k q r : Nat) : Prop where
  eq : n = q * d + r
  dvd : 2 ^ k ∣ q
  lt : r < 2 ^ k * d

namespace PartialDiv

variable {n d k q r : Nat}

theorem start (h : n < 2 ^ k * d) : PartialDiv n d k 0 n where
  eq := by rw [Nat.zero_mul, Nat.zero_add]
  dvd := Nat.dvd_zero _
  lt := h

theorem divMod (h : PartialDiv n d 0 q r) : DivMod n d q r where
  eq := h.eq
  lt := by
    have hLt := h.lt
    rwa [Nat.pow_zero, Nat.one_mul] at hLt

/-- The next bit is 0. -/
theorem skip (h : PartialDiv n d (k + 1) q r) (hLt : r < 2 ^ k * d) : PartialDiv n d k q r where
  eq := h.eq
  dvd := Nat.dvd_trans (Nat.pow_dvd_pow 2 (Nat.le_succ k)) h.dvd
  lt := hLt

/-- The next bit is 1. -/
theorem sub (h : PartialDiv n d (k + 1) q r) (hLe : 2 ^ k * d ≤ r) :
    PartialDiv n d k (q + 2 ^ k) (r - 2 ^ k * d) where
  eq := by
    have hSplit : r = 2 ^ k * d + (r - 2 ^ k * d) := (Nat.add_sub_cancel' hLe).symm
    calc n = q * d + r := h.eq
      _ = q * d + (2 ^ k * d + (r - 2 ^ k * d)) := by rw [← hSplit]
      _ = (q + 2 ^ k) * d + (r - 2 ^ k * d) := by ring
  dvd := Nat.dvd_add (Nat.dvd_trans (Nat.pow_dvd_pow 2 (Nat.le_succ k)) h.dvd) (Nat.dvd_refl _)
  lt := by
    have hLt := h.lt
    rw [Nat.pow_succ, Nat.mul_right_comm] at hLt
    omega

/-- The next bit of the quotient is free. -/
theorem or_bit (h : PartialDiv n d (k + 1) q r) : q ||| 2 ^ k = q + 2 ^ k := by
  obtain ⟨j, rfl⟩ := h.dvd
  have hLt : 2 ^ k < 2 ^ (k + 1) := Nat.pow_lt_pow_right (by decide) (Nat.lt_succ_self k)
  exact (Nat.two_pow_add_eq_or_of_lt hLt j).symm

end PartialDiv

/-! ## Signs -/

/-- `x`, or what cancels it. -/
def negIf {w : Nat} (s : Bool) (x : BitVec w) : BitVec w := if s then -x else x

section

variable {w : Nat} {a b x : BitVec w} {s : Bool}

@[simp] theorem negIf_false : negIf false x = x := rfl

@[simp] theorem negIf_true : negIf true x = -x := rfl

theorem negIf_eq_zero_iff : negIf s x = 0#w ↔ x = 0#w := by
  cases s with
  | false => rfl
  | true => exact BitVec.neg_eq_zero_iff

/-- The sign in all bits. -/
theorem sshiftRight_pred (x : BitVec w) :
    x.sshiftRight (w - 1) = if x.msb then BitVec.allOnes w else 0#w := by
  apply BitVec.eq_of_getLsbD_eq
  intro i hi
  have hSign : x.getLsbD (w - 1) = x.msb := (BitVec.msb_eq_getLsbD_last x).symm
  have hBit : (if w - 1 + i < w then x.getLsbD (w - 1 + i) else x.msb) = x.msb := by
    split
    · rename_i hLt
      have hZero : w - 1 + i = w - 1 := by omega
      rw [hZero, hSign]
    · rfl
  rw [BitVec.getLsbD_sshiftRight, decide_eq_false (Nat.not_le.mpr hi), Bool.not_false,
    Bool.true_and, hBit]
  cases x.msb with
  | false => rw [if_neg Bool.false_ne_true, BitVec.getLsbD_zero]
  | true => rw [if_pos rfl, BitVec.getLsbD_allOnes, decide_eq_true hi]

/-- A word is negated by the mask of a sign. -/
theorem xor_sub_mask (s : Bool) (x : BitVec w) :
    (x ^^^ (if s then BitVec.allOnes w else 0#w)) - (if s then BitVec.allOnes w else 0#w) =
      negIf s x := by
  cases s with
  | false => rw [if_neg Bool.false_ne_true, BitVec.xor_zero, BitVec.sub_zero, negIf_false]
  | true =>
    rw [if_pos rfl, BitVec.xor_allOnes, ← BitVec.neg_one_eq_allOnes, BitVec.sub_eq_add_neg,
      BitVec.neg_neg, negIf_true, BitVec.neg_eq_not_add]

theorem xor_mask (s t : Bool) :
    (if s then BitVec.allOnes w else 0#w) ^^^ (if t then BitVec.allOnes w else 0#w) =
      if s != t then BitVec.allOnes w else 0#w := by
  cases s <;> cases t <;> simp

/-- Quotients are rounded to zero. -/
theorem sdiv_eq_negIf (a b : BitVec w) :
    a.sdiv b = negIf (a.msb != b.msb) (negIf a.msb a / negIf b.msb b) := by
  rw [BitVec.sdiv_eq]
  cases a.msb <;> cases b.msb <;> rfl

/-- A remainder has the sign of the dividend. -/
theorem srem_eq_negIf (a b : BitVec w) :
    a.srem b = negIf a.msb (negIf a.msb a % negIf b.msb b) := by
  rw [BitVec.srem_eq]
  cases a.msb <;> cases b.msb <;> rfl

theorem negIf_negIf : negIf s (negIf s x) = x := by
  cases s with
  | false => rfl
  | true => exact BitVec.neg_neg

theorem negIf_mul (s t : Bool) (x y : BitVec w) :
    negIf s x * negIf t y = negIf (s != t) (x * y) := by
  cases s <;> cases t
  · rfl
  · exact BitVec.mul_neg x y
  · exact BitVec.neg_mul x y
  · exact BitVec.neg_mul_neg x y

theorem negIf_add (s : Bool) (x y : BitVec w) : negIf s (x + y) = negIf s x + negIf s y := by
  cases s with
  | false => rfl
  | true =>
    rw [negIf_true, negIf_true, negIf_true, BitVec.neg_add, BitVec.sub_eq_add_neg]

theorem udiv_mul_add_umod (x y : BitVec w) : x / y * y + x % y = x := by
  apply BitVec.eq_of_toNat_eq
  rw [BitVec.toNat_add, BitVec.toNat_mul, BitVec.toNat_udiv, BitVec.toNat_umod, Nat.mod_add_mod,
    Nat.div_add_mod', Nat.mod_eq_of_lt x.isLt]

/-- The remainder is what the quotient leaves, for all signs. -/
theorem sub_sdiv_mul (a b : BitVec w) : a - a.sdiv b * b = a.srem b := by
  have hProduct : a.sdiv b * b = negIf a.msb (negIf a.msb a / negIf b.msb b * negIf b.msb b) := by
    calc a.sdiv b * b
        = negIf (a.msb != b.msb) (negIf a.msb a / negIf b.msb b) *
          negIf b.msb (negIf b.msb b) := by rw [sdiv_eq_negIf, negIf_negIf]
      _ = negIf ((a.msb != b.msb) != b.msb) (negIf a.msb a / negIf b.msb b * negIf b.msb b) :=
          negIf_mul _ _ _ _
      _ = negIf a.msb (negIf a.msb a / negIf b.msb b * negIf b.msb b) := by
          rw [Bool.bne_assoc, bne_self_eq_false, Bool.bne_false]
  have hSum : a = a.sdiv b * b + a.srem b := by
    calc a = negIf a.msb (negIf a.msb a) := negIf_negIf.symm
      _ = negIf a.msb (negIf a.msb a / negIf b.msb b * negIf b.msb b +
          negIf a.msb a % negIf b.msb b) := by rw [udiv_mul_add_umod]
      _ = a.sdiv b * b + a.srem b := by rw [negIf_add, ← hProduct, ← srem_eq_negIf]
  calc a - a.sdiv b * b = a.sdiv b * b + a.srem b - a.sdiv b * b := by rw [← hSum]
    _ = a.srem b := by rw [BitVec.add_comm, BitVec.add_sub_cancel]

end

end AbstractMachine.Lib
