import Mathlib.Data.Nat.Digits.Lemmas
import AbstractMachine.Klib.Stdio.Model

/-!
# Decimal numerals

`int2str` puts as much of the numeral as there is room for, and no terminator;
for `INT_MIN`, which has no absolute value, it copies a literal, whose zero byte
comes along when there is room.
-/

namespace AbstractMachine.Klib

open AbstractMachine.Lib

variable {w : Nat} {p n : BitVec w} {s : Store w} {v : BitVec 32}

/-- A copy of a literal ends with its zero byte or with the last place. -/
theorem stpncpy_put (l : List (BitVec 8)) (hl : ∀ c ∈ l, c ≠ 0) (p : BitVec w) (n : Nat)
    (s : Store w) :
    stpncpy p (l ++ [0]) n s =
      (p + BitVec.ofNat w (l.take n).length,
        s.put p (l.take n ++ if l.length < n then [0] else [])) := by
  induction l generalizing p n s with
  | nil =>
      cases n with
      | zero =>
          rw [List.take_nil, List.length_nil, BitVec.add_zero]
          rfl
      | succ n =>
          rw [List.take_nil, List.length_nil, BitVec.add_zero, if_pos (Nat.succ_pos n)]
          rfl
  | cons c l ih =>
      cases n with
      | zero =>
          rw [List.take_zero, List.length_nil, BitVec.add_zero]
          rfl
      | succ n =>
          have hc : c ≠ 0 := hl c List.mem_cons_self
          have hRest := ih (fun c hMem => hl c (List.mem_cons_of_mem _ hMem)) (p + 1) n (s.set p c)
          rw [List.cons_append, stpncpy, if_neg hc, hRest, List.take_succ_cons, List.length_cons,
            Store.add_one_ofNat, List.cons_append, Store.put_cons]
          simp only [List.length_cons, Nat.add_lt_add_iff_right]

/-- The digits are copied from the last one down. -/
theorem copyDigits_put (buf : List (BitVec 8)) (idx : Nat) (hIdx : idx ≤ buf.length) (n : Nat)
    (p : BitVec w) (s : Store w) :
    copyDigits buf idx n p s =
      (p + BitVec.ofNat w ((buf.take idx).reverse.take n).length,
        s.put p ((buf.take idx).reverse.take n)) := by
  induction idx generalizing n p s with
  | zero =>
      rw [List.take_zero, List.reverse_nil, List.take_nil, List.length_nil, BitVec.add_zero]
      rfl
  | succ idx ih =>
      cases n with
      | zero =>
          rw [List.take_zero, List.length_nil, BitVec.add_zero]
          rfl
      | succ n =>
          have hDigit : buf.take (idx + 1) = buf.take idx ++ [buf.getD idx 0] := by
            rw [List.take_add_one, List.getD_eq_getElem _ _ hIdx, List.getElem?_eq_getElem hIdx]
            rfl
          rw [copyDigits, ih (by omega), hDigit, List.reverse_append, List.reverse_singleton,
            List.singleton_append, List.take_succ_cons, List.length_cons, Store.add_one_ofNat,
            Store.put_cons]

/-- The digits of a number that `buf` has room for. -/
theorem digitLoop_digits (room tmp : Nat) (h : tmp < 10 ^ room) :
    digitLoop room tmp = (Nat.digits 10 tmp).map fun k => BitVec.ofNat 8 k + chr '0' := by
  induction room generalizing tmp with
  | zero =>
      have hZero : tmp = 0 := by omega
      rw [hZero, Nat.digits_zero]
      rfl
  | succ room ih =>
      by_cases hZero : tmp = 0
      · rw [hZero, Nat.digits_zero]
        rfl
      · have hDigits := Nat.digits_def' (by decide : 1 < 10) (Nat.pos_of_ne_zero hZero)
        have hLess : tmp / 10 < 10 ^ room := by
          rw [Nat.pow_succ] at h
          exact Nat.div_lt_of_lt_mul (Nat.mul_comm _ _ ▸ h)
        rw [digitLoop, if_pos hZero, ih _ hLess, hDigits]
        rfl

private theorem decimal_INT_MIN : decimal INT_MIN.toInt = INT_MIN_TEXT := by
  have hInt : INT_MIN.toInt = -2147483648 := by decide
  have hDigits : Nat.digits 10 2147483648 = [8, 4, 6, 3, 8, 4, 7, 4, 1, 2] := by norm_num
  unfold decimal
  rw [hInt, if_pos (by decide), if_neg (by decide)]
  show _ ++ List.reverse (List.map _ (Nat.digits 10 2147483648)) = _
  rw [hDigits]
  decide

/-- What `abs` leaves to print. -/
theorem toNat_abs (v : BitVec 32) : (abs v).toNat = v.toInt.natAbs := by
  have hLt := v.isLt
  have hInt := BitVec.toInt_eq_toNat_cond v
  have hSign : v.slt 0 = true ↔ v.toInt < 0 := BitVec.slt_iff_toInt_lt
  unfold abs
  by_cases hNeg : v.slt 0 = true
  · rw [if_pos hNeg, BitVec.toNat_neg]
    have hBelow := hSign.mp hNeg
    split at hInt <;> omega
  · rw [if_neg hNeg]
    have hAbove := mt hSign.mpr hNeg
    split at hInt <;> omega

/-- The digits without the sign. -/
def magnitude (v : Int) : List (BitVec 8) :=
  ((Nat.digits 10 v.natAbs).map fun k => BitVec.ofNat 8 k + chr '0').reverse

/-- `buf`, read backwards. -/
theorem digitLoop_magnitude (v : BitVec 32) :
    (digitLoop 16 (abs v).toNat).reverse = magnitude v.toInt := by
  have hLess : (abs v).toNat < 10 ^ 16 :=
    Nat.lt_trans (abs v).isLt (by decide)
  rw [digitLoop_digits _ _ hLess, toNat_abs]
  rfl

private theorem copyDigits_magnitude (v : BitVec 32) (n : Nat) (p : BitVec w) (s : Store w) :
    copyDigits (digitLoop 16 (abs v).toNat) (digitLoop 16 (abs v).toNat).length n p s =
      (p + BitVec.ofNat w ((magnitude v.toInt).take n).length,
        s.put p ((magnitude v.toInt).take n)) := by
  rw [copyDigits_put _ _ (Nat.le_refl _), List.take_length, digitLoop_magnitude]

theorem decimal_neg {v : Int} (h : v < 0) : decimal v = chr '-' :: magnitude v := by
  unfold decimal
  rw [if_pos h, if_neg (by omega)]
  rfl

theorem decimal_pos {v : Int} (h : 0 < v) : decimal v = magnitude v := by
  unfold decimal
  rw [if_neg (by omega), if_neg (by omega)]
  rfl

private theorem INT_MIN_TEXT_chars : ∀ c ∈ INT_MIN_TEXT, c ≠ 0 := by decide

/--
`int2str` puts the first `n` characters of the numeral, and perhaps a zero byte
after them.
-/
theorem int2str_put (s : Store w) (v : BitVec 32) (hn : n ≠ 0) (hp : p ≠ 0) :
    ∃ tail, (tail = [] ∨ tail = [0]) ∧
      ((decimal v.toInt).take n.toNat ++ tail).length ≤ n.toNat ∧
      int2str p v n s =
        (BitVec.ofNat w ((decimal v.toInt).take n.toNat).length,
          s.put p ((decimal v.toInt).take n.toNat ++ tail)) := by
  have hPos := toNat_pos hn
  obtain ⟨k, hk⟩ := Nat.exists_eq_add_of_lt hPos
  rw [Nat.zero_add] at hk
  unfold int2str
  rw [if_neg (not_or.mpr ⟨hn, hp⟩)]
  by_cases hZero : v = 0
  · refine ⟨[], Or.inl rfl, ?_, ?_⟩
    · rw [List.append_nil]
      exact List.length_take_le _ _
    · have hNumeral : decimal (0 : BitVec 32).toInt = [chr '0'] := by decide
      rw [if_pos hZero, hZero, List.append_nil, hk, hNumeral, List.take_succ_cons, List.take_nil]
      rfl
  · rw [if_neg hZero]
    by_cases hMin : v = INT_MIN
    · refine ⟨if INT_MIN_TEXT.length < n.toNat then [0] else [], ?_, ?_, ?_⟩
      · split
        · exact Or.inr rfl
        · exact Or.inl rfl
      · rw [hMin, decimal_INT_MIN, List.length_append, List.length_take]
        split <;> simp only [List.length_cons, List.length_nil] <;> omega
      · rw [if_pos hMin, stpncpy_put _ INT_MIN_TEXT_chars, hMin, decimal_INT_MIN]
        dsimp only
        rw [ByteMem.add_sub_self]
    · refine ⟨[], Or.inl rfl, ?_, ?_⟩
      · rw [List.append_nil]
        exact List.length_take_le _ _
      · rw [if_neg hMin, List.append_nil]
        have hSign : v.slt 0 = true ↔ v.toInt < 0 := BitVec.slt_iff_toInt_lt
        dsimp only
        by_cases hNeg : v.slt 0 = true
        · have hOne : (n - 1).toNat = k := by
            rw [toNat_pred hn, hk, Nat.add_sub_cancel]
          rw [if_pos ⟨hNeg, BitVec.lt_def.mpr hPos⟩]
          dsimp only
          rw [copyDigits_magnitude, hOne, decimal_neg (hSign.mp hNeg), hk, List.take_succ_cons,
            List.length_cons, Store.put_cons, Store.add_one_ofNat, ByteMem.add_sub_self]
        · have hAbove : 0 < v.toInt := by
            have hNotNeg := mt hSign.mpr hNeg
            have hNotZero : v.toInt ≠ 0 := fun hInt => hZero (BitVec.eq_of_toInt_eq hInt)
            omega
          rw [if_neg (fun h => hNeg h.1)]
          dsimp only
          rw [copyDigits_magnitude, decimal_pos hAbove, ByteMem.add_sub_self]

end AbstractMachine.Klib
