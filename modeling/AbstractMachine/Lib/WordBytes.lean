import AbstractMachine.Lib.ByteMem
import Mathlib.Logic.Function.Basic

/-!
# The bytes of a word

Reading and replacing single bytes of a word, lowest byte first.  A word of
whole bytes is determined by them, and a word that has been loaded has the
bytes that lie in memory.
-/

namespace AbstractMachine.Lib

/-- Byte `b` of a word, the lowest first. -/
def byte {w : Nat} (v : BitVec w) (b : Nat) : BitVec 8 := v.extractLsb' (8 * b) 8

/-- The word `v` with byte `b` replaced. -/
def setByte {w : Nat} (v : BitVec w) (b : Nat) (x : BitVec 8) : BitVec w :=
  (v &&& ~~~((255#8).setWidth w <<< (8 * b))) ||| (x.setWidth w <<< (8 * b))

/-- The word of four bytes, the highest first. -/
def ofBytes (b3 b2 b1 b0 : BitVec 8) : BitVec 32 := b3 ++ b2 ++ b1 ++ b0

variable {w n : Nat}

theorem getLsbD_byte (v : BitVec w) (b i : Nat) :
    (byte v b).getLsbD i = (decide (i < 8) && v.getLsbD (8 * b + i)) := by
  unfold byte
  rw [BitVec.getLsbD_extractLsb']

theorem getLsbD_setByte (v : BitVec w) (b : Nat) (x : BitVec 8) (i : Nat) :
    (setByte v b x).getLsbD i =
      if 8 * b ≤ i ∧ i < 8 * b + 8 then decide (i < w) && x.getLsbD (i - 8 * b)
      else v.getLsbD i := by
  have hOnes : ∀ k, (255#8).getLsbD k = decide (k < 8) := by
    intro k
    by_cases hk : k < 8
    · have hAll : ∀ k, k < 8 → (255#8).getLsbD k = true := by decide
      simp [hAll k hk, hk]
    · simp [BitVec.getLsbD_of_ge _ _ (Nat.le_of_not_lt hk), hk]
  unfold setByte
  by_cases hw : i < w
  · simp only [BitVec.getLsbD_or, BitVec.getLsbD_and, BitVec.getLsbD_not, BitVec.getLsbD_shiftLeft,
      BitVec.getLsbD_setWidth, hOnes, hw, decide_true, Bool.true_and]
    have hSub : i - 8 * b < w := by omega
    by_cases hLow : i < 8 * b
    · have hNot : ¬ (8 * b ≤ i ∧ i < 8 * b + 8) := by omega
      simp [hLow, hNot]
    · by_cases hHigh : i < 8 * b + 8
      · have hIn : 8 * b ≤ i ∧ i < 8 * b + 8 := by omega
        have hByte : i - 8 * b < 8 := by omega
        simp [hLow, hIn, hByte, hSub]
      · have hNot : ¬ (8 * b ≤ i ∧ i < 8 * b + 8) := by omega
        have hByte : ¬ i - 8 * b < 8 := by omega
        simp [hLow, hNot, hByte, BitVec.getLsbD_of_ge x _ (Nat.le_of_not_lt hByte)]
  · rw [BitVec.getLsbD_of_ge _ _ (Nat.le_of_not_lt hw),
      BitVec.getLsbD_of_ge v _ (Nat.le_of_not_lt hw)]
    simp [hw]

/-- Replacing a byte replaces that byte and no other. -/
theorem byte_setByte (v : BitVec (8 * n)) {b : Nat} (hb : b < n) (x : BitVec 8) (c : Nat) :
    byte (setByte v b x) c = if c = b then x else byte v c := by
  apply BitVec.eq_of_getLsbD_eq
  intro i hi
  rw [getLsbD_byte, getLsbD_setByte]
  by_cases hc : c = b
  · have hIn : 8 * b ≤ 8 * c + i ∧ 8 * c + i < 8 * b + 8 := by omega
    have hw : 8 * c + i < 8 * n := by omega
    have hSub : 8 * c + i - 8 * b = i := by omega
    rw [if_pos hIn, if_pos hc, hSub, decide_eq_true hw, decide_eq_true hi]
    rfl
  · have hNot : ¬ (8 * b ≤ 8 * c + i ∧ 8 * c + i < 8 * b + 8) := by omega
    rw [if_neg hNot, if_neg hc, getLsbD_byte]

/-- A word is its bytes. -/
theorem byte_ext {v v' : BitVec (8 * n)} (h : ∀ b, b < n → byte v b = byte v' b) : v = v' := by
  apply BitVec.eq_of_getLsbD_eq
  intro i hi
  have hBit := congrArg (BitVec.getLsbD · (i % 8)) (h (i / 8) (by omega))
  have hMod : i % 8 < 8 := Nat.mod_lt i (by decide)
  have hSplit : 8 * (i / 8) + i % 8 = i := Nat.div_add_mod i 8
  simpa only [getLsbD_byte, hMod, hSplit, decide_true, Bool.true_and] using hBit

/-- The bytes of a loaded word. -/
theorem byte_load (m : ByteMem w) (a : BitVec w) {b : Nat} (hb : b < n) :
    byte (ByteMem.load m a n) b = m (a + BitVec.ofNat w b) := by
  apply BitVec.eq_of_getLsbD_eq
  intro i hi
  have hIn : 8 * b + i < 8 * n := by omega
  have hDiv : (8 * b + i) / 8 = b := by omega
  have hMod : (8 * b + i) % 8 = i := by omega
  rw [getLsbD_byte, ByteMem.getLsbD_load]
  simp [hi, hIn, hDiv, hMod]

theorem load_eq {m : ByteMem w} {a : BitVec w} {v : BitVec (8 * n)}
    (h : ∀ b, b < n → m (a + BitVec.ofNat w b) = byte v b) : ByteMem.load m a n = v := by
  apply byte_ext
  intro b hb
  rw [byte_load m a hb, h b hb]

/-! ## Bytes of results -/

@[simp] theorem byte_and (u v : BitVec w) (b : Nat) : byte (u &&& v) b = byte u b &&& byte v b :=
  BitVec.extractLsb'_and

@[simp] theorem byte_or (u v : BitVec w) (b : Nat) : byte (u ||| v) b = byte u b ||| byte v b :=
  BitVec.extractLsb'_or

@[simp] theorem byte_xor (u v : BitVec w) (b : Nat) : byte (u ^^^ v) b = byte u b ^^^ byte v b :=
  BitVec.extractLsb'_xor

theorem byte_setWidth_zero (x : BitVec 8) (hw : 8 ≤ w) : byte (x.setWidth w) 0 = x := by
  apply BitVec.eq_of_getLsbD_eq
  intro i hi
  have hLt : i < w := by omega
  rw [getLsbD_byte, BitVec.getLsbD_setWidth, Nat.mul_zero, Nat.zero_add, decide_eq_true hi,
    decide_eq_true hLt, Bool.true_and, Bool.true_and]

theorem byte_shiftLeft (v : BitVec (8 * n)) (k : Nat) {b : Nat} (hb : b < n) :
    byte (v <<< (8 * k)) b = if b < k then 0 else byte v (b - k) := by
  apply BitVec.eq_of_getLsbD_eq
  intro i hi
  have hw : 8 * b + i < 8 * n := by omega
  rw [getLsbD_byte, BitVec.getLsbD_shiftLeft, decide_eq_true hi, decide_eq_true hw]
  by_cases hk : b < k
  · have hLow : 8 * b + i < 8 * k := by omega
    simp [hk, hLow]
  · have hLow : ¬ 8 * b + i < 8 * k := by omega
    have hSub : 8 * b + i - 8 * k = 8 * (b - k) + i := by omega
    rw [if_neg hk, getLsbD_byte, hSub, decide_eq_true hi, decide_eq_false hLow]
    rfl

theorem byte_setWidth (v : BitVec w) {b : Nat} (hb : b < n) :
    byte (v.setWidth (8 * n)) b = byte v b := by
  apply BitVec.eq_of_getLsbD_eq
  intro i hi
  have hLt : 8 * b + i < 8 * n := by omega
  rw [getLsbD_byte, getLsbD_byte, BitVec.getLsbD_setWidth, decide_eq_true hLt, Bool.true_and]

open ByteMem Function in
/-- Storing two bytes, one after the other. -/
theorem store_two (m : ByteMem w) (a : BitVec w) (v : BitVec (8 * 2)) (hw : 2 ≤ 2 ^ w) :
    update (update m a (byte v 0)) (a + BitVec.ofNat w 1) (byte v 1) = store m a v := by
  funext x
  by_cases h1 : x = a + BitVec.ofNat w 1
  · have hDist : (a + BitVec.ofNat w 1 - a).toNat = 1 := toNat_offset (by omega)
    rw [h1, update_self, store, if_pos (inBlock_offset (by decide) hw), hDist]
    rfl
  · rw [update_of_ne h1]
    by_cases h0 : x = a
    · have hDist : (a - a).toNat = 0 := by rw [BitVec.sub_self]; rfl
      have hIn : InBlock a 2 a := by
        unfold InBlock
        rw [hDist]
        decide
      rw [h0, update_self, store, if_pos hIn, hDist]
      rfl
    · rw [update_of_ne h0, store_outside]
      intro hIn
      have hAt := offset_toNat (a := a) (x := x)
      have hCases : (x - a).toNat = 0 ∨ (x - a).toNat = 1 := by
        unfold InBlock at hIn
        omega
      rcases hCases with h | h
      · rw [h] at hAt
        exact h0 (hAt.symm.trans (BitVec.add_zero a))
      · rw [h] at hAt
        exact h1 hAt.symm
/-! ## Words of four bytes -/

theorem setWidth_eq_byte (v : BitVec 32) : v.setWidth 8 = byte v 0 := by
  unfold byte
  exact BitVec.setWidth_eq_extractLsb' (by decide)

theorem byte_append_zero (u : BitVec w) (x : BitVec 8) : byte (u ++ x) 0 = x :=
  BitVec.extractLsb'_append_eq_right

theorem byte_append_succ (u : BitVec w) (x : BitVec 8) (b : Nat) :
    byte (u ++ x) (b + 1) = byte u b := by
  apply BitVec.eq_of_getLsbD_eq
  intro i hi
  have hHigh : ¬ 8 * (b + 1) + i < 8 := by omega
  have hSub : 8 * (b + 1) + i - 8 = 8 * b + i := by omega
  rw [getLsbD_byte, getLsbD_byte, BitVec.getLsbD_append, if_neg hHigh, hSub]

theorem byte_self (x : BitVec 8) : byte x 0 = x := BitVec.extractLsb'_eq_self

variable (b0 b1 b2 b3 : BitVec 8)

@[simp] theorem byte_ofBytes_0 : byte (ofBytes b3 b2 b1 b0) 0 = b0 :=
  byte_append_zero _ _

@[simp] theorem byte_ofBytes_1 : byte (ofBytes b3 b2 b1 b0) 1 = b1 :=
  (byte_append_succ _ _ 0).trans (byte_append_zero _ _)

@[simp] theorem byte_ofBytes_2 : byte (ofBytes b3 b2 b1 b0) 2 = b2 :=
  (byte_append_succ _ _ 1).trans ((byte_append_succ _ _ 0).trans (byte_append_zero _ _))

@[simp] theorem byte_ofBytes_3 : byte (ofBytes b3 b2 b1 b0) 3 = b3 :=
  (byte_append_succ _ _ 2).trans
    ((byte_append_succ _ _ 1).trans ((byte_append_succ _ _ 0).trans (byte_self _)))

theorem byte_setByte_word (v : BitVec 32) {b : Nat} (hb : b < 4) (x : BitVec 8) (c : Nat) :
    byte (setByte v b x) c = if c = b then x else byte v c := byte_setByte (n := 4) v hb x c

/-- A byte that has been in a register. -/
theorem setWidth_byte (x : BitVec 8) : (x.setWidth 32).setWidth 8 = x := by
  rw [BitVec.setWidth_setWidth_of_le _ (by decide), BitVec.setWidth_eq]

/-- To compare words of four bytes, compare the bytes. -/
theorem word_ext {v v' : BitVec 32} (h0 : byte v 0 = byte v' 0) (h1 : byte v 1 = byte v' 1)
    (h2 : byte v 2 = byte v' 2) (h3 : byte v 3 = byte v' 3) : v = v' := by
  apply byte_ext (n := 4)
  intro b hb
  match b, hb with
  | 0, _ => exact h0
  | 1, _ => exact h1
  | 2, _ => exact h2
  | 3, _ => exact h3

/-! ## Bytes in their places -/

/-- One byte of a word, in its place. -/
def lane (v : BitVec w) (b : Nat) : BitVec w := (byte v b).setWidth w <<< (8 * b)

theorem getLsbD_lane (v : BitVec w) (b i : Nat) :
    (lane v b).getLsbD i = (decide (8 * b ≤ i ∧ i < 8 * b + 8) && v.getLsbD i) := by
  unfold lane
  by_cases hw : i < w
  · rw [BitVec.getLsbD_shiftLeft, BitVec.getLsbD_setWidth, getLsbD_byte, decide_eq_true hw]
    by_cases hLow : i < 8 * b
    · have hNot : ¬ (8 * b ≤ i ∧ i < 8 * b + 8) := by omega
      simp [hLow, hNot]
    · have hSub : i - 8 * b < w := by omega
      have hSplit : 8 * b + (i - 8 * b) = i := by omega
      have hIff : i - 8 * b < 8 ↔ 8 * b ≤ i ∧ i < 8 * b + 8 := by omega
      simp [hLow, hSub, hSplit, hIff]
  · have hGe := Nat.le_of_not_lt hw
    rw [BitVec.getLsbD_of_ge _ _ hGe, BitVec.getLsbD_of_ge v _ hGe, Bool.and_false]

/-- Bytes in different places do not overlap. -/
theorem lane_and (v : BitVec w) {b c : Nat} (hNe : b ≠ c) : lane v b &&& lane v c = 0 := by
  apply BitVec.eq_of_getLsbD_eq
  intro i hi
  rw [BitVec.getLsbD_and, getLsbD_lane, getLsbD_lane]
  by_cases hb : 8 * b ≤ i ∧ i < 8 * b + 8
  · have hc : ¬ (8 * c ≤ i ∧ i < 8 * c + 8) := by omega
    simp [hc]
  · simp [hb]

theorem or_lanes (v : BitVec 32) : lane v 3 ||| (lane v 2 ||| lane v 1 ||| lane v 0) = v := by
  apply BitVec.eq_of_getLsbD_eq
  intro i hi
  simp only [BitVec.getLsbD_or, getLsbD_lane]
  have hPlace : i / 8 = 0 ∨ i / 8 = 1 ∨ i / 8 = 2 ∨ i / 8 = 3 := by omega
  have hIff : ∀ b, (8 * b ≤ i ∧ i < 8 * b + 8) ↔ i / 8 = b := by
    intro b
    omega
  simp only [hIff]
  rcases hPlace with h | h | h | h <;> simp [h]

/-- Neither overlaps with `t`. -/
theorem and_or_zero {u v t : BitVec w} (hu : u &&& t = 0) (hv : v &&& t = 0) :
    (u ||| v) &&& t = 0 := by
  rw [BitVec.and_comm, BitVec.and_or_distrib_left, BitVec.and_comm t, hu, BitVec.and_comm t, hv]
  exact BitVec.or_self

theorem sum_lanes (v : BitVec 32) : lane v 3 + (lane v 2 + lane v 1 + lane v 0) = v := by
  have h21 : lane v 2 + lane v 1 = lane v 2 ||| lane v 1 :=
    BitVec.add_eq_or_of_and_eq_zero _ _ (lane_and v (by decide))
  have h210 : (lane v 2 ||| lane v 1) + lane v 0 = lane v 2 ||| lane v 1 ||| lane v 0 :=
    BitVec.add_eq_or_of_and_eq_zero _ _
      (and_or_zero (lane_and v (by decide)) (lane_and v (by decide)))
  have hTop : lane v 3 &&& (lane v 2 ||| lane v 1 ||| lane v 0) = 0 := by
    rw [BitVec.and_comm]
    exact and_or_zero (and_or_zero (lane_and v (by decide)) (lane_and v (by decide)))
      (lane_and v (by decide))
  rw [h21, h210, BitVec.add_eq_or_of_and_eq_zero _ _ hTop, or_lanes]

/-- A byte that has been shifted right, by the byte at the top of a word. -/
theorem byte_lane_ushiftRight (v : BitVec 32) {b k : Nat} (hb : b < 4) (j : Nat) :
    byte (lane v b >>> j) k =
      if k ≤ b then byte (((byte v b).setWidth 32 <<< 24) >>> j) (k + 3 - b) else 0 := by
  apply BitVec.eq_of_getLsbD_eq
  intro i hi
  rw [getLsbD_byte, BitVec.getLsbD_ushiftRight, getLsbD_lane]
  by_cases hk : k ≤ b
  · rw [if_pos hk, getLsbD_byte, BitVec.getLsbD_ushiftRight, BitVec.getLsbD_shiftLeft,
      BitVec.getLsbD_setWidth, getLsbD_byte]
    by_cases hIn : 8 * b ≤ j + (8 * k + i) ∧ j + (8 * k + i) < 8 * b + 8
    · have hTop : j + (8 * (k + 3 - b) + i) < 32 := by omega
      have hLow : ¬ j + (8 * (k + 3 - b) + i) < 24 := by omega
      have hWord : j + (8 * (k + 3 - b) + i) - 24 < 32 := by omega
      have hByte : j + (8 * (k + 3 - b) + i) - 24 < 8 := by omega
      have hEq : 8 * b + (j + (8 * (k + 3 - b) + i) - 24) = j + (8 * k + i) := by omega
      simp [hIn, hTop, hLow, hWord, hByte, hEq]
    · have hOut : ¬ j + (8 * (k + 3 - b) + i) < 32 ∨ j + (8 * (k + 3 - b) + i) < 24 := by omega
      rcases hOut with hTop | hLow
      · simp [hIn, hTop]
      · simp [hIn, hLow]
  · have hIn : ¬ (8 * b ≤ j + (8 * k + i) ∧ j + (8 * k + i) < 8 * b + 8) := by omega
    simp [hk, hIn]

end AbstractMachine.Lib
