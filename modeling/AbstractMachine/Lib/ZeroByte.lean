import AbstractMachine.Lib.WordBytes

/-!
# Looking for a zero byte

A word minus ones in all of its bytes borrows from the first zero byte on.  With
that difference, the complement and the highest bit of every byte one sees whether
a word has a zero byte at all.  Words are taken apart from the lowest byte up.
-/

namespace AbstractMachine.Lib

/-- `c` in each of the `n` bytes. -/
def lanes (c : BitVec 8) : (n : Nat) → BitVec (8 * n)
  | 0 => 0#0
  | n + 1 => lanes c n ++ c

/-- No bit of it is set exactly when no byte of `x` is zero. -/
def zeroMask {n : Nat} (x : BitVec (8 * n)) : BitVec (8 * n) :=
  (x - lanes 1 n) &&& ~~~x &&& lanes 0x80 n

variable {k n i : Nat} {z u : BitVec k} {c d : BitVec 8}

theorem byte_lanes (hi : i < n) : byte (lanes c n) i = c := by
  induction n generalizing i with
  | zero => exact absurd hi (Nat.not_lt_zero i)
  | succ n ih =>
      cases i with
      | zero => exact byte_append_zero (lanes c n) c
      | succ i => exact (byte_append_succ (lanes c n) c i).trans (ih (Nat.lt_of_succ_lt_succ hi))

theorem toNat_append_byte : (z ++ c).toNat = 256 * z.toNat + c.toNat := by
  rw [BitVec.toNat_append, ← Nat.shiftLeft_add_eq_or_of_lt c.isLt, Nat.shiftLeft_eq, Nat.mul_comm]

/-- Without a borrow the lowest byte does not disturb the rest. -/
theorem append_sub_append (hLe : d.toNat ≤ c.toNat) :
    (z ++ c) - (u ++ d) = (z - u) ++ (c - d) := by
  have hc := c.isLt
  have hz := z.isLt
  have hu := u.isLt
  have hPow : 2 ^ (k + 8) = 256 * 2 ^ k := by rw [Nat.pow_add, Nat.mul_comm]
  have hByte : (c - d).toNat = c.toNat - d.toNat := BitVec.toNat_sub_of_le hLe
  apply BitVec.eq_of_toNat_eq
  rw [toNat_append_byte, hByte, BitVec.toNat_sub, BitVec.toNat_sub, toNat_append_byte,
    toNat_append_byte, hPow]
  by_cases hBorrow : z.toNat < u.toNat
  · rw [Nat.mod_eq_of_lt (by omega), Nat.mod_eq_of_lt (by omega)]
    omega
  · rw [Nat.mod_eq_sub_mod (by omega), Nat.mod_eq_of_lt (by omega),
      Nat.mod_eq_sub_mod (a := 2 ^ k - u.toNat + z.toNat) (by omega), Nat.mod_eq_of_lt (by omega)]
    omega

theorem byte_append_sub : byte ((z ++ c) - (u ++ d)) 0 = c - d := by
  have hPow : 2 ^ (k + 8) = 256 * 2 ^ k := by rw [Nat.pow_add, Nat.mul_comm]
  have hd := d.isLt
  have hu : (u ++ d).toNat < 256 * 2 ^ k := hPow ▸ (u ++ d).isLt
  rw [toNat_append_byte] at hu
  apply BitVec.eq_of_toNat_eq
  unfold byte
  rw [BitVec.extractLsb'_toNat, BitVec.toNat_sub, BitVec.toNat_sub, toNat_append_byte,
    toNat_append_byte, hPow, Nat.mul_zero, Nat.shiftRight_zero]
  show _ % (256 * 2 ^ k) % 256 = (256 - d.toNat + c.toNat) % 256
  rw [Nat.mod_mul_right_mod]
  omega

theorem byte_zero (w i : Nat) : byte (0#w) i = 0 := by
  apply BitVec.eq_of_toNat_eq
  unfold byte
  rw [BitVec.extractLsb'_toNat, BitVec.toNat_ofNat, Nat.zero_mod, Nat.zero_shiftRight]
  rfl

/-- A zero byte at the bottom is seen. -/
theorem zeroMask_append_zero (z : BitVec (8 * n)) :
    zeroMask (n := n + 1) (z ++ 0#8) ≠ 0 := by
  intro hMask
  have hLow : byte (((z ++ 0#8) - (lanes 1 n ++ 1#8)) &&& ~~~(z ++ 0#8) &&&
      (lanes 0x80 n ++ 0x80#8)) 0 = 0 :=
    (congrArg (byte · 0) hMask).trans (byte_zero _ 0)
  rw [byte_and, byte_and, byte_append_sub, BitVec.not_append, byte_append_zero,
    byte_append_zero] at hLow
  exact absurd hLow (by decide)

/-- Another byte at the bottom changes nothing above. -/
theorem zeroMask_append (hc : c ≠ 0) (z : BitVec (8 * n)) :
    zeroMask (n := n + 1) (z ++ c) = zeroMask z ++ 0#8 := by
  have hLe : (1#8).toNat ≤ c.toNat := by
    apply toNat_pos
    exact hc
  have hByte : ∀ c : BitVec 8, c ≠ 0 → (c - 1#8) &&& ~~~c &&& 0x80#8 = 0 := by decide
  show ((z ++ c) - (lanes 1 n ++ 1#8)) &&& ~~~(z ++ c) &&& (lanes 0x80 n ++ 0x80#8) =
    zeroMask z ++ 0#8
  rw [append_sub_append hLe, BitVec.not_append, BitVec.and_append, BitVec.and_append, hByte c hc]
  rfl

theorem zeroMask_eq_zero_iff (x : BitVec (8 * n)) :
    zeroMask x = 0 ↔ ∀ i, i < n → byte x i ≠ 0 := by
  induction n with
  | zero => exact iff_of_true (BitVec.eq_nil _) fun i hi => absurd hi (Nat.not_lt_zero i)
  | succ n ih =>
      obtain ⟨z, c, rfl⟩ : ∃ (z : BitVec (8 * n)) (c : BitVec 8), x = z ++ c :=
        ⟨_, _, (BitVec.extractLsb'_append_extractLsb' (x := x)).symm⟩
      by_cases hc : c = 0
      · subst hc
        apply iff_of_false (zeroMask_append_zero z)
        exact fun hBytes => hBytes 0 (Nat.succ_pos n) (byte_append_zero z 0)
      · have hZero : zeroMask z ++ 0#8 = 0#(8 * n + 8) ↔ zeroMask z = 0 := by
          rw [← BitVec.zero_append_zero]
          exact BitVec.append_left_inj 0#8
        rw [zeroMask_append hc]
        refine (hZero.trans (ih z)).trans ⟨?_, ?_⟩
        · intro hBytes i hi
          cases i with
          | zero =>
              rw [byte_append_zero z c]
              exact hc
          | succ i =>
              rw [byte_append_succ z c i]
              exact hBytes i (Nat.lt_of_succ_lt_succ hi)
        · intro hBytes i hi hByte
          apply hBytes (i + 1) (Nat.succ_lt_succ hi)
          rw [byte_append_succ z c i, hByte]

/-! ## The same byte everywhere -/

theorem toNat_lanes : (lanes c n).toNat = c.toNat * (lanes 1 n).toNat := by
  induction n with
  | zero => rfl
  | succ n ih =>
      show (lanes c n ++ c).toNat = c.toNat * (lanes 1 n ++ 1#8).toNat
      have hOne : (1#8).toNat = 1 := rfl
      rw [toNat_append_byte, toNat_append_byte, ih, hOne, Nat.mul_add, Nat.mul_one,
        Nat.mul_left_comm]

theorem toNat_lanes_one : 255 * (lanes 1 n).toNat = 2 ^ (8 * n) - 1 := by
  induction n with
  | zero => rfl
  | succ n ih =>
      show 255 * (lanes 1 n ++ 1#8).toNat = 2 ^ (8 * n + 8) - 1
      have hOne : (1#8).toNat = 1 := rfl
      have hPos : 0 < 2 ^ (8 * n) := Nat.two_pow_pos _
      rw [toNat_append_byte, hOne, Nat.pow_add]
      omega

/-- `255` goes into the largest word this often. -/
theorem neg_one_div (hn : n ≠ 0) : (-1 : BitVec (8 * n)) / 255 = lanes 1 n := by
  have hSize : 2 ^ 8 ≤ 2 ^ (8 * n) := Nat.pow_le_pow_right (by decide) (by omega)
  have hByte : (255 : BitVec (8 * n)).toNat = 255 := by
    show (BitVec.ofNat (8 * n) 255).toNat = 255
    rw [BitVec.toNat_ofNat]
    exact Nat.mod_eq_of_lt (by omega)
  apply BitVec.eq_of_toNat_eq
  rw [BitVec.toNat_udiv, hByte, toNat_neg_one, ← toNat_lanes_one]
  exact Nat.mul_div_cancel_left _ (by decide)

theorem lanes_one_mul : lanes 1 n * c.setWidth (8 * n) = lanes c n := by
  apply BitVec.eq_of_toNat_eq
  rw [BitVec.toNat_mul, BitVec.toNat_setWidth, Nat.mul_mod_mod, Nat.mul_comm, ← toNat_lanes]
  exact Nat.mod_eq_of_lt (lanes c n).isLt

/-- A word in memory, compared with `c` byte by byte. -/
theorem zeroMask_load {w : Nat} (m : ByteMem w) (a : BitVec w) :
    zeroMask (ByteMem.load m a n ^^^ lanes c n) = 0 ↔
      ∀ i, i < n → m (a + BitVec.ofNat w i) ≠ c := by
  rw [zeroMask_eq_zero_iff]
  apply forall_congr'
  intro i
  apply imp_congr_right
  intro hi
  rw [byte_xor, byte_load m a hi, byte_lanes hi]
  exact not_congr BitVec.xor_eq_zero_iff

end AbstractMachine.Lib
