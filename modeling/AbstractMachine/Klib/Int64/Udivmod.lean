import AbstractMachine.Klib.Int64.Count
import AbstractMachine.Lib.Division

/-!
# Division of double words in `int64.c`

`udivmoddi4` answers some operands with one division of words or with a shift.
For the others it shifts the dividend from `q` into `r` bit by bit and subtracts
the divisor where it fits, without a branch.

Words are divided and their zeros counted by what the compiler provides.

## Main results

* `udivmodRounds_eq` -- the rounds divide if they start with the dividend's bits
  that are lower than the divisor in `r`.
* `udivmoddi4_eq` -- quotient and remainder, for a divisor other than 0.
-/

namespace AbstractMachine.Klib.Int64

open AbstractMachine.Lib DoubleWord

/-- A `du_int`: two words. -/
abbrev DWord := BitVec (32 + 32)

/-- What the compiler provides for a word. -/
structure Builtins where
  udiv : Word → Word → Word
  umod : Word → Word → Word
  clz : Word → Word
  ctz : Word → Word

/-- Nothing is said of a divisor of 0 or of the zeros of 0. -/
structure Builtins.Right (B : Builtins) : Prop where
  udiv_eq : ∀ a b, b ≠ 0 → B.udiv a b = a / b
  umod_eq : ∀ a b, b ≠ 0 → B.umod a b = a % b
  clz_eq : ∀ a, a ≠ 0 → B.clz a = a.clz
  ctz_eq : ∀ a, a ≠ 0 → B.ctz a = a.ctz

/-! ## The functions -/

/-- The locals of the loop of `__udivmoddi4`: remainder so far, quotient so far and the
carry to be shifted in. -/
structure Rounds where
  r : DWord
  q : DWord
  carry : Word

/-- One turn of the loop: `r:q` shifted left by the carry, then `d` subtracted where it fits. -/
def udivmodBody (d : DWord) (s : Rounds) : Rounds :=
  let r_high := (high s.r <<< 1) ||| (low s.r >>> 31)
  let r_low := (low s.r <<< 1) ||| (high s.q >>> 31)
  let q_high := (high s.q <<< 1) ||| (low s.q >>> 31)
  let q_low := (low s.q <<< 1) ||| s.carry
  let r := r_high ++ r_low
  -- all ones if the divisor fits, and 0 otherwise
  let m := (d - r - 1).sshiftRight 63
  { r := r - (d &&& m), q := q_high ++ q_low, carry := low (m &&& 1) }

/-- The `for (; sr > 0; --sr)` loop. -/
def udivmodLoop (d : DWord) : Nat → Rounds → Rounds
  | 0, s => s
  | sr + 1, s => udivmodLoop d sr (udivmodBody d s)

/-- From `carry = 0` on, for an operand that is no special case. -/
def udivmodRounds (d q r : DWord) (sr : Word) : DWord × DWord :=
  let s := udivmodLoop d sr.toNat { r := r, q := q, carry := 0 }
  ((s.q <<< 1) ||| (0#32 ++ s.carry), s.r)

/-- The quotient, and what is stored in `*rem`. -/
def udivmoddi4 (B : Builtins) (n d : DWord) : DWord × DWord :=
  if high n = 0 then
    if high d = 0 then
      (0#32 ++ B.udiv (low n) (low d), 0#32 ++ B.umod (low n) (low d))
    else
      (0, 0#32 ++ low n)
  else if low d = 0 then
    if high d = 0 then
      (0#32 ++ B.udiv (high n) (low d), 0#32 ++ B.umod (high n) (low d))
    else if low n = 0 then
      (0#32 ++ B.udiv (high n) (high d), B.umod (high n) (high d) ++ 0#32)
    else if high d &&& (high d - 1) = 0 then
      (0#32 ++ (high n >>> B.ctz (high d)), (high n &&& (high d - 1)) ++ low n)
    else
      let sr := B.clz (high d) - B.clz (high n)
      if 30 < sr then
        (0, n)
      else
        let sr := sr + 1
        let q := (low n <<< (32 - sr)) ++ 0#32
        let r := (high n >>> sr) ++ ((high n <<< (32 - sr)) ||| (low n >>> sr))
        udivmodRounds d q r sr
  else if high d = 0 then
    if low d &&& (low d - 1) = 0 then
      let rem := 0#32 ++ (low n &&& (low d - 1))
      if low d = 1 then
        (n, rem)
      else
        let sr := B.ctz (low d)
        ((high n >>> sr) ++ ((high n <<< (32 - sr)) ||| (low n >>> sr)), rem)
    else
      let sr := 1 + 32 + B.clz (low d) - B.clz (high n)
      if sr = 32 then
        udivmodRounds d (low n ++ 0#32) (0#32 ++ high n) sr
      else if sr < 32 then
        let q := (low n <<< (32 - sr)) ++ 0#32
        let r := (high n >>> sr) ++ ((high n <<< (32 - sr)) ||| (low n >>> sr))
        udivmodRounds d q r sr
      else
        let q := ((high n <<< (64 - sr)) ||| (low n >>> (sr - 32))) ++ (low n <<< (64 - sr))
        let r := 0#32 ++ (high n >>> (sr - 32))
        udivmodRounds d q r sr
  else
    let sr := B.clz (high d) - B.clz (high n)
    if 31 < sr then
      (0, n)
    else
      let sr := sr + 1
      if sr = 32 then
        udivmodRounds d (low n ++ 0#32) (0#32 ++ high n) sr
      else
        let q := (low n <<< (32 - sr)) ++ 0#32
        let r := (high n >>> sr) ++ ((high n <<< (32 - sr)) ||| (low n >>> sr))
        udivmodRounds d q r sr

/-! ## A round -/

variable {n d q r : DWord} {sr : Word}

/-- The difference is negative where the divisor fits. -/
theorem msb_borrow (hLt : r.toNat < 2 * d.toNat) (hSign : d.toNat ≤ 2 ^ 63 ∨ 2 ^ 63 ≤ r.toNat) :
    (d - r - 1).msb = decide (d ≤ r) := by
  have hd : d.toNat < 2 ^ 64 := d.isLt
  have hr : r.toNat < 2 ^ 64 := r.isLt
  have hOne : (1 : DWord).toNat = 1 := rfl
  rw [BitVec.msb_eq_decide]
  apply decide_eq_decide.mpr
  rw [BitVec.le_def, BitVec.toNat_sub, BitVec.toNat_sub, hOne]
  omega

/-- What is in the registers after the shift. -/
theorem toNat_shifted (q r : DWord) :
    (((high r <<< 1) ||| (low r >>> 31)) ++ ((low r <<< 1) ||| (high q >>> 31))).toNat =
      (2 * r.toNat + q.toNat / 2 ^ 63) % 2 ^ 64 := by
  have hBit : (high q >>> 31).toNat = q.toNat / 2 ^ 63 := by
    rw [BitVec.toNat_ushiftRight, toNat_high, Nat.shiftRight_eq_div_pow, Nat.div_div_eq_div_mul]
    rfl
  have hLt : (high q >>> 31).toNat < 2 := by
    have hq : q.toNat < 2 ^ 64 := q.isLt
    omega
  have hShift := toNat_append_shl_one (h := high r) (l := low r) (y := high q >>> 31)
    (by decide) hLt
  rw [high_append_low, hBit] at hShift
  exact hShift

private theorem toNat_shifted_carry {carry : Word} (h : carry.toNat < 2) :
    (((high q <<< 1) ||| (low q >>> 31)) ++ ((low q <<< 1) ||| carry)).toNat =
      (2 * q.toNat + carry.toNat) % 2 ^ 64 := by
  have hShift := toNat_append_shl_one (h := high q) (l := low q) (y := carry) (by decide) h
  rw [high_append_low] at hShift
  exact hShift

variable {s : Rounds} {k : Nat}

private theorem udivmodBody_fits (hLt : 2 * s.r.toNat + s.q.toNat / 2 ^ 63 < 2 * d.toNat)
    (hWord : 2 * s.r.toNat + s.q.toNat / 2 ^ 63 < 2 ^ 64)
    (hSign : d.toNat ≤ 2 ^ 63 ∨ 2 ^ 63 ≤ 2 * s.r.toNat + s.q.toNat / 2 ^ 63) :
    ((udivmodBody d s).r.toNat, (udivmodBody d s).carry) =
      if d.toNat ≤ 2 * s.r.toNat + s.q.toNat / 2 ^ 63 then
        (2 * s.r.toNat + s.q.toNat / 2 ^ 63 - d.toNat, 1)
      else (2 * s.r.toNat + s.q.toNat / 2 ^ 63, 0) := by
  have hr := toNat_shifted s.q s.r
  rw [Nat.mod_eq_of_lt hWord] at hr
  unfold udivmodBody
  dsimp only
  generalize (((high s.r <<< 1) ||| (low s.r >>> 31)) ++
    ((low s.r <<< 1) ||| (high s.q >>> 31)) : DWord) = r at hr ⊢
  rw [← hr] at hLt hSign ⊢
  have hMask : (d - r - 1).sshiftRight 63 =
      if d ≤ r then BitVec.allOnes (32 + 32) else 0#(32 + 32) := by
    have hPred := sshiftRight_pred (d - r - 1)
    rw [msb_borrow hLt hSign] at hPred
    simpa using hPred
  rw [hMask]
  by_cases hLe : d ≤ r
  · rw [if_pos hLe, if_pos (BitVec.le_def.mp hLe), BitVec.and_allOnes, BitVec.allOnes_and,
      BitVec.toNat_sub_of_le hLe]
    rfl
  · rw [if_neg hLe, if_neg (mt BitVec.le_def.mpr hLe), BitVec.and_zero, BitVec.zero_and,
      BitVec.sub_zero]
    rfl

private theorem udivmodBody_shiftDiv {m : Nat} (hk : k < 64) (hm : m < 2 ^ 64)
    (hSign : d.toNat ≤ 2 ^ 63 ∨ k = 0 ∧ 2 ^ 63 ≤ m)
    (h : ShiftDiv 64 m d.toNat (k + 1) s.r.toNat s.q.toNat s.carry.toNat) :
    ShiftDiv 64 m d.toNat k (udivmodBody d s).r.toNat (udivmodBody d s).q.toNat
      (udivmodBody d s).carry.toNat := by
  have hq : (udivmodBody d s).q.toNat = (2 * s.q.toNat + s.carry.toNat) % 2 ^ 64 :=
    toNat_shifted_carry h.carry
  have hTop := h.top hk
  have hLt := h.divMod.lt
  have hFits := udivmodBody_fits (d := d) (s := s) (by omega) (h.next_lt hk hm) (by
    rcases hSign with hSmall | ⟨rfl, hLarge⟩
    · exact Or.inl hSmall
    · rcases Nat.lt_or_ge (2 ^ 63) d.toNat with hd | hd
      · -- such a divisor does not fit into half of the dividend
        have hRem := h.divMod.mod_eq
        rw [Nat.mod_eq_of_lt (by omega)] at hRem
        right
        omega
      · exact Or.inl hd)
  rw [hq]
  by_cases hLe : d.toNat ≤ 2 * s.r.toNat + s.q.toNat / 2 ^ 63
  · rw [if_pos hLe, Prod.mk.injEq] at hFits
    rw [hFits.1, hFits.2]
    exact h.shift_sub hk hLe
  · rw [if_neg hLe, Prod.mk.injEq] at hFits
    rw [hFits.1, hFits.2]
    exact h.shift hk (Nat.lt_of_not_le hLe)

private theorem udivmodLoop_shiftDiv {m : Nat} (hk : k ≤ 64) (hm : m < 2 ^ 64)
    (hSign : d.toNat ≤ 2 ^ 63 ∨ k ≤ 1 ∧ 2 ^ 63 ≤ m)
    (h : ShiftDiv 64 m d.toNat k s.r.toNat s.q.toNat s.carry.toNat) :
    ShiftDiv 64 m d.toNat 0 (udivmodLoop d k s).r.toNat (udivmodLoop d k s).q.toNat
      (udivmodLoop d k s).carry.toNat := by
  induction k generalizing s with
  | zero => exact h
  | succ k ih =>
    refine ih (by omega) ?_ (udivmodBody_shiftDiv hk hm ?_ h)
    · rcases hSign with hSmall | ⟨hLast, hLarge⟩
      · exact Or.inl hSmall
      · exact Or.inr ⟨by omega, hLarge⟩
    · rcases hSign with hSmall | ⟨hLast, hLarge⟩
      · exact Or.inl hSmall
      · exact Or.inr ⟨by omega, hLarge⟩

/-- The rounds start with the bits of the dividend that are lower than the divisor in `r`. -/
theorem udivmodRounds_eq (h64 : sr.toNat < 64) (hLt : n.toNat / 2 ^ sr.toNat < d.toNat)
    (hSign : d.toNat ≤ 2 ^ 63 ∨ sr.toNat ≤ 1 ∧ 2 ^ 63 ≤ n.toNat) :
    udivmodRounds d (n <<< (64 - sr.toNat)) (n >>> sr.toNat) sr = (n / d, n % d) := by
  have hr : (n >>> sr.toNat).toNat = n.toNat / 2 ^ sr.toNat := by
    rw [BitVec.toNat_ushiftRight, Nat.shiftRight_eq_div_pow]
  have hq : (n <<< (64 - sr.toNat)).toNat = n.toNat * 2 ^ (64 - sr.toNat) % 2 ^ 64 := by
    rw [BitVec.toNat_shiftLeft, Nat.shiftLeft_eq]
  have hStart := ShiftDiv.start (Nat.le_of_lt h64) hLt
  rw [← hr, ← hq] at hStart
  have hLoop := udivmodLoop_shiftDiv
    (s := { r := n >>> sr.toNat, q := n <<< (64 - sr.toNat), carry := 0 })
    (Nat.le_of_lt h64) n.isLt hSign hStart
  have hQuot := hLoop.finish (BitVec.isLt _)
  have hCarry := hLoop.carry
  unfold udivmodRounds
  dsimp only
  generalize udivmodLoop d sr.toNat
    { r := n >>> sr.toNat, q := n <<< (64 - sr.toNat), carry := 0 } = t at hQuot hCarry ⊢
  have hExt : (0#32 ++ t.carry).toNat = t.carry.toNat := by
    rw [toNat_append, BitVec.toNat_zero, Nat.zero_mul, Nat.zero_add]
  have hFits : 2 * t.q.toNat + t.carry.toNat < 2 ^ 64 := by
    rw [← hQuot.div_eq]
    exact Nat.lt_of_le_of_lt (Nat.div_le_self _ _) n.isLt
  rw [Prod.mk.injEq]
  constructor
  · apply BitVec.eq_of_toNat_eq
    rw [toNat_shl_one_or (by decide) (hExt ▸ hCarry), hExt, BitVec.toNat_udiv, hQuot.div_eq]
    exact Nat.mod_eq_of_lt hFits
  · apply BitVec.eq_of_toNat_eq
    rw [BitVec.toNat_umod, hQuot.mod_eq]

/-! ## The registers at the start -/

private theorem toNat_bits_sub (h : sr.toNat ≤ 32) : (32 - sr).toNat = 32 - sr.toNat := by
  have h32 : (32 : Word).toNat = 32 := rfl
  have hLe : sr ≤ 32 := by
    rw [BitVec.le_def, h32]
    exact h
  rw [BitVec.toNat_sub_of_le hLe, h32]

/-- Less than a word is shifted into `r`. -/
theorem start_lt (n : DWord) (h : sr.toNat < 32) :
    (low n <<< (32 - sr)) ++ 0#32 = n <<< (64 - sr.toNat) ∧
      (high n >>> sr) ++ ((high n <<< (32 - sr)) ||| (low n >>> sr)) = n >>> sr.toNat := by
  have hSub := toNat_bits_sub (Nat.le_of_lt h)
  have hLeft := shiftLeft_ge (h := high n) (l := low n) (k := 64 - sr.toNat) (by omega)
  have hRight := shiftRight_lt (h := high n) (l := low n) h
  have hExp : 64 - sr.toNat - 32 = 32 - sr.toNat := by omega
  rw [high_append_low] at hLeft hRight
  rw [hLeft, hRight, BitVec.shiftLeft_eq', BitVec.shiftLeft_eq', BitVec.ushiftRight_eq',
    BitVec.ushiftRight_eq', hSub, hExp]
  exact ⟨rfl, rfl⟩

private theorem start_eq (n : DWord) (h : sr.toNat = 32) :
    low n ++ 0#32 = n <<< (64 - sr.toNat) ∧ 0#32 ++ high n = n >>> sr.toNat := by
  have hLeft := shiftLeft_ge (h := high n) (l := low n) (Nat.le_refl 32)
  have hRight := shiftRight_ge (h := high n) (l := low n) (Nat.le_refl 32)
  rw [high_append_low, Nat.sub_self] at hLeft hRight
  rw [BitVec.shiftLeft_zero] at hLeft
  rw [BitVec.ushiftRight_zero] at hRight
  have hExp : 64 - sr.toNat = 32 := by omega
  rw [hExp, h, hLeft, hRight]
  exact ⟨rfl, rfl⟩

/-- More than a word. -/
theorem start_gt (n : DWord) (h : 32 < sr.toNat) (h64 : sr.toNat < 64) :
    ((high n <<< (64 - sr)) ||| (low n >>> (sr - 32))) ++ (low n <<< (64 - sr)) =
        n <<< (64 - sr.toNat) ∧
      0#32 ++ (high n >>> (sr - 32)) = n >>> sr.toNat := by
  have h32 : (32 : Word).toNat = 32 := rfl
  have hSub : (64 - sr).toNat = 64 - sr.toNat := by
    have hLe : sr ≤ 64 := BitVec.le_def.mpr (Nat.le_of_lt h64)
    rw [BitVec.toNat_sub_of_le hLe]
    rfl
  have hSub32 : (sr - 32).toNat = sr.toNat - 32 := by
    have hLe : (32 : Word) ≤ sr := by
      rw [BitVec.le_def, h32]
      exact Nat.le_of_lt h
    rw [BitVec.toNat_sub_of_le hLe, h32]
  have hLeft := shiftLeft_lt (h := high n) (l := low n) (k := 64 - sr.toNat) (by omega)
  have hRight := shiftRight_ge (h := high n) (l := low n) (Nat.le_of_lt h)
  have hExp : 32 - (64 - sr.toNat) = sr.toNat - 32 := by omega
  rw [high_append_low] at hLeft hRight
  rw [hLeft, hRight, BitVec.shiftLeft_eq', BitVec.shiftLeft_eq', BitVec.ushiftRight_eq',
    BitVec.ushiftRight_eq', hSub, hSub32, hExp]
  exact ⟨rfl, rfl⟩

/-! ## Special cases -/

/-- The quotient and the remainder, as `udivmoddi4` returns them. -/
def divMod (n d : DWord) : DWord × DWord := (n / d, n % d)

private theorem divMod_of_lt (h : n < d) : (0, n) = divMod n d := by
  have hLt := BitVec.lt_def.mp h
  unfold divMod
  rw [Prod.mk.injEq]
  constructor
  · apply BitVec.eq_of_toNat_eq
    rw [BitVec.toNat_udiv, Nat.div_eq_of_lt hLt]
    rfl
  · apply BitVec.eq_of_toNat_eq
    rw [BitVec.toNat_umod, Nat.mod_eq_of_lt hLt]

private theorem toNat_halves (n : DWord) : n.toNat = (high n).toNat * 2 ^ 32 + (low n).toNat := by
  rw [← toNat_append, high_append_low]

/-- Both fit in a word. -/
theorem divMod_low (hn : high n = 0) (hd : high d = 0) :
    (0#32 ++ low n / low d, 0#32 ++ low n % low d) = divMod n d := by
  have hN := toNat_halves n
  have hD := toNat_halves d
  have hZero : (0 : Word).toNat = 0 := rfl
  rw [hn, hZero, Nat.zero_mul, Nat.zero_add] at hN
  rw [hd, hZero, Nat.zero_mul, Nat.zero_add] at hD
  unfold divMod
  rw [Prod.mk.injEq]
  constructor
  · apply BitVec.eq_of_toNat_eq
    rw [toNat_append, BitVec.toNat_udiv, BitVec.toNat_udiv, hN, hD, BitVec.toNat_zero,
      Nat.zero_mul, Nat.zero_add]
  · apply BitVec.eq_of_toNat_eq
    rw [toNat_append, BitVec.toNat_umod, BitVec.toNat_umod, hN, hD, BitVec.toNat_zero,
      Nat.zero_mul, Nat.zero_add]

/-- The low word of the dividend stays in the remainder. -/
theorem divMod_high (hd : low d = 0) :
    (0#32 ++ high n / high d, (high n % high d) ++ low n) = divMod n d := by
  have hD : d.toNat = 2 ^ 32 * (high d).toNat := by
    rw [toNat_halves d, hd, Nat.mul_comm]
    rfl
  unfold divMod
  rw [Prod.mk.injEq]
  constructor
  · apply BitVec.eq_of_toNat_eq
    rw [toNat_append, BitVec.toNat_udiv, BitVec.toNat_udiv, hD, ← Nat.div_div_eq_div_mul,
      ← toNat_high, BitVec.toNat_zero, Nat.zero_mul, Nat.zero_add]
  · apply BitVec.eq_of_toNat_eq
    rw [toNat_append, BitVec.toNat_umod, BitVec.toNat_umod, hD, Nat.mod_mul, ← toNat_high,
      ← toNat_low, Nat.add_comm, Nat.mul_comm]

private theorem div_two_pow {w c : Nat} {x y : BitVec w} (h : x.toNat = 2 ^ c) :
    y >>> c = y / x := by
  apply BitVec.eq_of_toNat_eq
  rw [BitVec.toNat_ushiftRight, BitVec.toNat_udiv, h, Nat.shiftRight_eq_div_pow]

/-- A power of two in the high word. -/
theorem divMod_high_pow {c : Word} (hd : low d = 0) (h0 : high d ≠ 0)
    (h : (high d).toNat = 2 ^ c.toNat) :
    (0#32 ++ (high n >>> c), (high n &&& (high d - 1)) ++ low n) = divMod n d := by
  have hMod : high n &&& (high d - 1) = high n % high d := by
    apply BitVec.eq_of_toNat_eq
    rw [BitVec.toNat_umod]
    exact toNat_and_pred h0 h
  rw [← divMod_high hd, hMod, BitVec.ushiftRight_eq', div_two_pow h]

/-- A power of two in the low word. -/
theorem divMod_low_pow {c : Nat} (hd : high d = 0) (h0 : low d ≠ 0)
    (h : (low d).toNat = 2 ^ c) :
    (n >>> c, 0#32 ++ (low n &&& (low d - 1))) = divMod n d := by
  have hD := toNat_halves d
  have hZero : (0 : Word).toNat = 0 := rfl
  rw [hd, hZero, Nat.zero_mul, Nat.zero_add] at hD
  have hc : c ≤ 32 := by
    have hLt := (low d).isLt
    rw [h] at hLt
    exact Nat.le_of_lt ((Nat.pow_lt_pow_iff_right (by decide)).mp hLt)
  unfold divMod
  rw [Prod.mk.injEq]
  constructor
  · exact div_two_pow (hD.trans h)
  · apply BitVec.eq_of_toNat_eq
    have hAnd : (low n &&& (low d - 1)).toNat = (low n).toNat % (low d).toNat :=
      toNat_and_pred h0 h
    rw [toNat_append, hAnd, toNat_low (x := n), BitVec.toNat_umod, hD, h,
      Nat.mod_mod_of_dvd _ (Nat.pow_dvd_pow 2 hc), BitVec.toNat_zero, Nat.zero_mul, Nat.zero_add]

/-! ## The division -/

variable {B : Builtins}

private theorem ne_zero_of_high (h : high n ≠ 0) : n ≠ 0 := by
  rintro rfl
  exact h rfl

private theorem clz_high (hB : B.Right) (h : high n ≠ 0) :
    (B.clz (high n)).toNat = n.clz.toNat := by
  rw [hB.clz_eq _ h]
  exact (toNat_clz_high h).symm

private theorem clz_low (hB : B.Right) (hh : high n = 0) (h : low n ≠ 0) :
    32 + (B.clz (low n)).toNat = n.clz.toNat := by
  rw [hB.clz_eq _ h]
  exact (toNat_clz_low hh h).symm

private theorem clz_lt (h : n ≠ 0) : n.clz.toNat < 64 := by
  have hClz := toNat_clz h
  omega

/-- A divisor above half of the range is subtracted in the first round or not at all. -/
theorem sign_ok (hn : n ≠ 0) (hLe : n.clz.toNat ≤ d.clz.toNat) :
    d.toNat ≤ 2 ^ 63 ∨ 1 + d.clz.toNat - n.clz.toNat ≤ 1 ∧ 2 ^ 63 ≤ n.toNat := by
  rcases Nat.eq_zero_or_pos d.clz.toNat with hZero | hPos
  · right
    have hLow := BitVec.two_pow_sub_clz_le_toNat_of_ne_zero (by decide) hn
    have hNone : n.clz.toNat = 0 := by omega
    rw [hNone] at hLow
    exact ⟨by omega, hLow⟩
  · left
    have hHigh := BitVec.toNat_lt_two_pow_sub_clz (x := d)
    have hPow : 2 ^ (32 + 32 - d.clz.toNat) ≤ 2 ^ 63 := Nat.pow_le_pow_right (by decide) (by omega)
    exact Nat.le_of_lt (Nat.lt_of_lt_of_le hHigh hPow)

/-- The rounds with as many bits in `r` as the divisor has, or one more. -/
theorem udivmodRounds_clz (hn : n ≠ 0) (hd : d ≠ 0) (hLe : n.clz.toNat ≤ d.clz.toNat)
    (hSr : sr.toNat = 1 + d.clz.toNat - n.clz.toNat) (h64 : sr.toNat < 64) :
    udivmodRounds d (n <<< (64 - sr.toNat)) (n >>> sr.toNat) sr = divMod n d := by
  have hLt := div_two_pow_lt hd hLe
  have hSign := sign_ok hn hLe
  rw [← hSr] at hLt hSign
  exact udivmodRounds_eq h64 hLt hSign

/-- The counts of two high words. -/
theorem clz_sub (hB : B.Right) (hn : high n ≠ 0) (hd : high d ≠ 0) :
    (n.clz.toNat ≤ d.clz.toNat ∧
        (B.clz (high d) - B.clz (high n)).toNat = d.clz.toNat - n.clz.toNat) ∨
      (d.clz.toNat < n.clz.toNat ∧ 32 < (B.clz (high d) - B.clz (high n)).toNat) := by
  have hN := clz_high hB hn
  have hD := clz_high hB hd
  have hNLt := log2_lt_width hn
  have hDLt := log2_lt_width hd
  have hNClz := toNat_clz hn
  have hDClz := toNat_clz hd
  have hNHigh := toNat_clz_high hn
  have hDHigh := toNat_clz_high hd
  rw [BitVec.toNat_sub]
  omega

/-- Both high words are in use: at most a word is shifted into `r`. -/
theorem rounds_high (hB : B.Right) (hn : high n ≠ 0) (hd : high d ≠ 0) (hSr : sr.toNat < 32)
    (hEq : sr = B.clz (high d) - B.clz (high n)) :
    (sr + 1).toNat = 1 + d.clz.toNat - n.clz.toNat ∧
      udivmodRounds d (n <<< (64 - (sr + 1).toNat)) (n >>> (sr + 1).toNat) (sr + 1) =
        divMod n d := by
  rcases clz_sub hB hn hd with ⟨hLe, hSub⟩ | ⟨-, hLarge⟩
  · rw [← hEq] at hSub
    have hOne : (1 : Word).toNat = 1 := rfl
    have hSucc : (sr + 1).toNat = 1 + d.clz.toNat - n.clz.toNat := by
      rw [BitVec.toNat_add, hOne]
      omega
    exact ⟨hSucc,
      udivmodRounds_clz (ne_zero_of_high hn) (ne_zero_of_high hd) hLe hSucc (by omega)⟩
  · rw [← hEq] at hLarge
    omega

/-- The divisor is in the low word. -/
theorem rounds_low (hB : B.Right) (hn : high n ≠ 0) (hh : high d = 0) (hd : low d ≠ 0)
    (hEq : sr = 1 + 32 + B.clz (low d) - B.clz (high n)) (hOne : low d ≠ 1) :
    sr.toNat < 64 ∧
      udivmodRounds d (n <<< (64 - sr.toNat)) (n >>> sr.toNat) sr = divMod n d := by
  have hN := clz_high hB hn
  have hD := clz_low hB hh hd
  have hNLt := log2_lt_width hn
  have hNClz := toNat_clz hn
  have hNHigh := toNat_clz_high hn
  have hDLt := clz_lt (n := d) fun h => hd (h ▸ rfl)
  have h33 : (1 + 32 : Word).toNat = 33 := rfl
  have hSr : sr.toNat = 1 + d.clz.toNat - n.clz.toNat := by
    rw [hEq, BitVec.toNat_sub, BitVec.toNat_add, h33]
    omega
  have hHigh := BitVec.toNat_lt_two_pow_sub_clz (x := d)
  have h64 : d.clz.toNat ≠ 63 := by
    intro h63
    rw [h63] at hHigh
    have hWord := toNat_halves d
    rw [hh] at hWord
    have hZero : (0 : Word).toNat = 0 := rfl
    have hNe : (low d).toNat ≠ 0 := fun h => hd (BitVec.eq_of_toNat_eq h)
    have hNeOne : (low d).toNat ≠ 1 := fun h => hOne (BitVec.eq_of_toNat_eq h)
    omega
  have hLt : sr.toNat < 64 := by omega
  have hNe : d ≠ 0 := fun h => hd (h ▸ rfl)
  exact ⟨hLt, udivmodRounds_clz (ne_zero_of_high hn) hNe (by omega) hSr hLt⟩

private theorem lt_of_high (hn : high n = 0) (hd : high d ≠ 0) : n < d := by
  have hN := toNat_halves n
  have hD := toNat_halves d
  have hLow := (low n).isLt
  have hZero : (0 : Word).toNat = 0 := rfl
  have hNe : (high d).toNat ≠ 0 := fun h => hd (BitVec.eq_of_toNat_eq h)
  rw [hn] at hN
  rw [BitVec.lt_def]
  omega

/-- The dividend has fewer bits. -/
theorem lt_of_large (hB : B.Right) (hn : high n ≠ 0) (hd : high d ≠ 0)
    (h : 31 < (B.clz (high d) - B.clz (high n)).toNat) : n < d := by
  rcases clz_sub hB hn hd with ⟨hLe, hSub⟩ | ⟨hLt, -⟩
  · have hDHigh := toNat_clz_high hd
    have hDClz := toNat_clz hd
    omega
  · exact lt_of_clz_lt (ne_zero_of_high hd) hLt

/-- The last difference of the counts is that of the divisor's high word 1. -/
theorem eq_one_of_sub (hB : B.Right) (hn : high n ≠ 0) (hd : high d ≠ 0)
    (h : (B.clz (high d) - B.clz (high n)).toNat = 31) : high d = 1 := by
  have hHigh := BitVec.toNat_lt_two_pow_sub_clz (x := high d)
  rcases clz_sub hB hn hd with ⟨hLe, hSub⟩ | ⟨-, hLarge⟩
  · have hDHigh := toNat_clz_high hd
    have hDClz := toNat_clz hd
    have hClz : (high d).clz.toNat = 31 := by omega
    have hNe : (high d).toNat ≠ 0 := fun h => hd (BitVec.eq_of_toNat_eq h)
    rw [hClz] at hHigh
    apply BitVec.eq_of_toNat_eq
    have hOne : (1 : Word).toNat = 1 := rfl
    omega
  · omega

private theorem low_ne_zero (hd : d ≠ 0) (h : high d = 0) : low d ≠ 0 := by
  intro hLow
  apply hd
  rw [← high_append_low (x := d), h, hLow]
  rfl

/-- The dividend fits in a word. -/
theorem udivmoddi4_word (hB : B.Right) (hn : high n = 0) (hd : d ≠ 0) :
    udivmoddi4 B n d = divMod n d := by
  unfold udivmoddi4
  rw [if_pos hn]
  by_cases hHigh : high d = 0
  · have hLow := low_ne_zero hd hHigh
    rw [if_pos hHigh, hB.udiv_eq _ _ hLow, hB.umod_eq _ _ hLow]
    exact divMod_low hn hHigh
  · have hEq : 0#32 ++ low n = n := by
      rw [← high_append_low (x := n), hn, low_append]
      rfl
    rw [if_neg hHigh, hEq]
    exact divMod_of_lt (lt_of_high hn hHigh)

/-- The low word of the divisor is 0. -/
theorem udivmoddi4_high (hB : B.Right) (hn : high n ≠ 0) (hLow : low d = 0) (hd : high d ≠ 0) :
    udivmoddi4 B n d = divMod n d := by
  unfold udivmoddi4
  rw [if_neg hn, if_pos hLow, if_neg hd]
  by_cases hnLow : low n = 0
  · rw [if_pos hnLow, hB.udiv_eq _ _ hd, hB.umod_eq _ _ hd, ← divMod_high hLow, hnLow]
    rfl
  rw [if_neg hnLow]
  by_cases hPow : high d &&& (high d - 1) = 0
  · rw [if_pos hPow, hB.ctz_eq _ hd]
    exact divMod_high_pow hLow hd (toNat_eq_two_pow_ctz hd hPow)
  rw [if_neg hPow]
  dsimp only
  generalize hSr : B.clz (high d) - B.clz (high n) = sr
  have h30 : (30 : Word).toNat = 30 := rfl
  by_cases hLarge : 30 < sr
  · rw [if_pos hLarge]
    have hNe : sr.toNat ≠ 31 := by
      rintro h31
      rw [← hSr] at h31
      apply hPow
      rw [eq_one_of_sub hB hn hd h31]
      rfl
    rw [BitVec.lt_def] at hLarge
    exact divMod_of_lt (lt_of_large hB hn hd (by rw [hSr]; omega))
  · rw [if_neg hLarge]
    rw [BitVec.lt_def] at hLarge
    obtain ⟨-, hRounds⟩ := rounds_high hB hn hd (by omega) hSr.symm
    have hOne : (1 : Word).toNat = 1 := rfl
    have hSucc : (sr + 1).toNat < 32 := by
      rw [BitVec.toNat_add]
      omega
    obtain ⟨hq, hr⟩ := start_lt n hSucc
    rw [hq, hr]
    exact hRounds

/-- The high word of the divisor is 0. -/
theorem udivmoddi4_low (hB : B.Right) (hn : high n ≠ 0) (hd : low d ≠ 0) (hHigh : high d = 0) :
    udivmoddi4 B n d = divMod n d := by
  unfold udivmoddi4
  rw [if_neg hn, if_neg hd, if_pos hHigh]
  by_cases hPow : low d &&& (low d - 1) = 0
  · have hEq := toNat_eq_two_pow_ctz hd hPow
    rw [if_pos hPow]
    dsimp only
    by_cases hOne : low d = 1
    · have hCtz : (low d).toNat = 2 ^ 0 := by
        rw [hOne]
        rfl
      rw [if_pos hOne, ← divMod_low_pow hHigh hd hCtz]
      rfl
    · rw [if_neg hOne, hB.ctz_eq _ hd]
      have hLt : (low d).ctz.toNat < 32 :=
        BitVec.lt_of_getLsbD (BitVec.getLsbD_true_ctz_of_ne_zero hd)
      obtain ⟨-, hr⟩ := start_lt n hLt
      rw [hr]
      exact divMod_low_pow hHigh hd hEq
  · have hOne : low d ≠ 1 := by
      intro hOne
      apply hPow
      rw [hOne]
      rfl
    rw [if_neg hPow]
    dsimp only
    generalize hSr : 1 + 32 + B.clz (low d) - B.clz (high n) = sr
    obtain ⟨h64, hRounds⟩ := rounds_low hB hn hHigh hd hSr.symm hOne
    have h32 : (32 : Word).toNat = 32 := rfl
    by_cases hWord : sr = 32
    · have hEq : sr.toNat = 32 := by
        rw [hWord]
        rfl
      obtain ⟨hq, hr⟩ := start_eq n hEq
      rw [if_pos hWord, hq, hr]
      exact hRounds
    · have hNe : sr.toNat ≠ 32 := fun h => hWord (BitVec.eq_of_toNat_eq h)
      rw [if_neg hWord]
      by_cases hLt : sr < 32
      · obtain ⟨hq, hr⟩ := start_lt n (BitVec.lt_def.mp hLt)
        rw [if_pos hLt, hq, hr]
        exact hRounds
      · rw [if_neg hLt]
        rw [BitVec.lt_def] at hLt
        obtain ⟨hq, hr⟩ := start_gt n (by omega) h64
        rw [hq, hr]
        exact hRounds

/-- No word is 0. -/
theorem udivmoddi4_both (hB : B.Right) (hn : high n ≠ 0) (hLow : low d ≠ 0) (hd : high d ≠ 0) :
    udivmoddi4 B n d = divMod n d := by
  unfold udivmoddi4
  rw [if_neg hn, if_neg hLow, if_neg hd]
  dsimp only
  generalize hSr : B.clz (high d) - B.clz (high n) = sr
  have h31 : (31 : Word).toNat = 31 := rfl
  by_cases hLarge : 31 < sr
  · rw [if_pos hLarge]
    rw [BitVec.lt_def] at hLarge
    exact divMod_of_lt (lt_of_large hB hn hd (by rw [hSr]; omega))
  · rw [if_neg hLarge]
    rw [BitVec.lt_def] at hLarge
    obtain ⟨-, hRounds⟩ := rounds_high hB hn hd (by omega) hSr.symm
    have hOne : (1 : Word).toNat = 1 := rfl
    have hSucc : (sr + 1).toNat ≤ 32 := by
      rw [BitVec.toNat_add]
      omega
    by_cases hWord : sr + 1 = 32
    · have hEq : (sr + 1).toNat = 32 := by
        rw [hWord]
        rfl
      obtain ⟨hq, hr⟩ := start_eq n hEq
      rw [if_pos hWord, hq, hr]
      exact hRounds
    · have hNe : (sr + 1).toNat ≠ 32 := fun h => hWord (BitVec.eq_of_toNat_eq h)
      obtain ⟨hq, hr⟩ := start_lt n (Nat.lt_of_le_of_ne hSucc hNe)
      rw [if_neg hWord, hq, hr]
      exact hRounds

theorem udivmoddi4_eq (hB : B.Right) (n : DWord) (hd : d ≠ 0) : udivmoddi4 B n d = divMod n d := by
  by_cases hn : high n = 0
  · exact udivmoddi4_word hB hn hd
  by_cases hLow : low d = 0
  · exact udivmoddi4_high hB hn hLow fun hHigh => low_ne_zero hd hHigh hLow
  by_cases hHigh : high d = 0
  · exact udivmoddi4_low hB hn hLow hHigh
  · exact udivmoddi4_both hB hn hLow hHigh

end AbstractMachine.Klib.Int64
