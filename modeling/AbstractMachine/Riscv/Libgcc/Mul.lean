import AbstractMachine.Lib.DoubleWord
import Mathlib.Data.BitVec

/-!
# `muldi3.S`, `multi3.c` and `ashldi3.c`

Multiplication of words and of double words, and the left shift of a double word,
on machines that add and shift words only.

## Main results

* `muldi3_correct` -- the loop of `muldi3.S` computes the product.
* `multi3_correct` -- so does `multi3.c` for double words, with that loop for the
  products of words that it needs.
* `ashldi3_correct` -- the shift of a double word.
-/

namespace AbstractMachine.Riscv.Libgcc

open AbstractMachine.Lib

variable {w : Nat}

/-! ## `muldi3.S` -/

/-- The product so far in `a0`, and the factors that are left. -/
structure MulRegs (w : Nat) where
  a0 : BitVec w
  a1 : BitVec w
  a2 : BitVec w

/-- One turn of `__muldi3`: add where the low bit of `a1` is set, then both shifts. -/
def mulBody (r : MulRegs w) : MulRegs w :=
  let s := if r.a1 &&& 1#w = 0 then r else { r with a0 := r.a0 + r.a2 }
  { s with a1 := s.a1 >>> 1, a2 := s.a2 <<< 1 }

private theorem mulBody_a1 (r : MulRegs w) : (mulBody r).a1 = r.a1 >>> 1 := by
  unfold mulBody
  dsimp only
  split <;> rfl

private theorem mulBody_a2 (r : MulRegs w) : (mulBody r).a2 = r.a2 <<< 1 := by
  unfold mulBody
  dsimp only
  split <;> rfl

/-- The loop of `__muldi3`, entered at least once. -/
def mulL1 (r : MulRegs w) : MulRegs w :=
  let s := mulBody r
  if s.a1 ≠ 0 then mulL1 s else s
termination_by r.a1.toNat
decreasing_by
  rename_i h
  have hHalf : (mulBody r).a1.toNat = r.a1.toNat / 2 := by
    rw [mulBody_a1, BitVec.toNat_ushiftRight, Nat.shiftRight_eq_div_pow, Nat.pow_one]
  have hPos : 0 < (mulBody r).a1.toNat :=
    Nat.pos_of_ne_zero fun h0 => h (BitVec.eq_of_toNat_eq h0)
  omega

/-- `__muldi3`, from its operands to `a0`. -/
def muldi3 (a0 a1 : BitVec w) : BitVec w := (mulL1 { a0 := 0, a1 := a1, a2 := a0 }).a0

/-! ## `multi3.c` -/

/-- The variables of the loop of `__multi3`. -/
structure MulState (w : Nat) where
  u_low : BitVec w
  v_low : BitVec w
  w_low : BitVec w
  w_high : BitVec w
  w_high_tmp : BitVec w

/-- The body of the loop. -/
def multi3Body (s : MulState w) : MulState w :=
  let new_w_low := s.w_low + s.u_low
  let w_high_tmp2x := s.w_high_tmp <<< 1
  let w_high_tmp := s.w_high_tmp + s.w_high
  let carry : BitVec w := if new_w_low < s.w_low then 1 else 0
  let u_low_msb := s.u_low >>> (w - 1)
  { u_low := s.u_low <<< 1
    v_low := s.v_low >>> 1
    w_low := if s.v_low &&& 1#w ≠ 0 then new_w_low else s.w_low
    w_high := if s.v_low &&& 1#w ≠ 0 then carry + w_high_tmp else s.w_high
    w_high_tmp := u_low_msb ||| w_high_tmp2x }

/-- The loop of `__multi3`, a `do` loop. -/
def multi3Loop (s : MulState w) : MulState w :=
  let t := multi3Body s
  if t.v_low ≠ 0 then multi3Loop t else t
termination_by s.v_low.toNat
decreasing_by
  rename_i h
  have hHalf : (multi3Body s).v_low.toNat = s.v_low.toNat / 2 := by
    unfold multi3Body
    rw [BitVec.toNat_ushiftRight, Nat.shiftRight_eq_div_pow, Nat.pow_one]
  have hPos : 0 < (multi3Body s).v_low.toNat :=
    Nat.pos_of_ne_zero fun h0 => h (BitVec.eq_of_toNat_eq h0)
  omega

/-- `__muluw3` is a call of `muldi3.S`. -/
def muluw3 (a b : BitVec w) : BitVec w := muldi3 a b

open DoubleWord in
/-- `__multi3`: the low words by its loop, the cross products by `__muluw3`. -/
def multi3 (u v : BitVec (w + w)) : BitVec (w + w) :=
  let t := multi3Loop
    { u_low := low u, v_low := low v, w_low := 0, w_high := 0, w_high_tmp := 0 }
  let high₀ := t.w_high
  let high₁ := if high u ≠ 0 then high₀ + muluw3 (low v) (high u) else high₀
  let high₂ := if high v ≠ 0 then high₁ + muluw3 (low u) (high v) else high₁
  high₂ ++ t.w_low

/-! ## `ashldi3.c` -/

open DoubleWord in
/-- `b` counts the bits of a double word, from 0. -/
def ashldi3 (u : BitVec (w + w)) (b : Nat) : BitVec (w + w) :=
  if b = 0 then u
  else
    let bm : Int := w - b
    if bm ≤ 0 then (low u <<< (-bm).toNat) ++ 0#w
    else
      let carries := low u >>> bm.toNat
      ((high u <<< b) ||| carries) ++ (low u <<< b)

/-! ## Words -/

private theorem and_one_eq_zero (hw : 0 < w) (x : BitVec w) : x &&& 1#w = 0 ↔ x.toNat % 2 = 0 := by
  rw [← BitVec.toNat_inj, BitVec.toNat_and, BitVec.toNat_one hw, Nat.and_one_is_mod]
  rfl

private theorem toNat_halved (x : BitVec w) : (x >>> 1).toNat = x.toNat / 2 := by
  rw [BitVec.toNat_ushiftRight, Nat.shiftRight_eq_div_pow, Nat.pow_one]

private theorem shl_one (x : BitVec w) : x <<< 1 = x + x := by
  apply BitVec.eq_of_toNat_eq
  rw [BitVec.toNat_shiftLeft, Nat.shiftLeft_eq, Nat.pow_one, Nat.mul_two, BitVec.toNat_add]

private theorem halves (hw : 0 < w) (x : BitVec w) :
    x = (x >>> 1) + (x >>> 1) + (if x &&& 1#w = 0 then 0#w else 1#w) := by
  have hLt := x.isLt
  have hOne := BitVec.toNat_one hw
  have hZero : (0#w).toNat = 0 := BitVec.toNat_zero
  apply BitVec.eq_of_toNat_eq
  split
  · rename_i hEven
    rw [and_one_eq_zero hw] at hEven
    rw [BitVec.toNat_add, BitVec.toNat_add, toNat_halved, hZero, Nat.add_zero, Nat.mod_mod,
      Nat.mod_eq_of_lt (by omega)]
    omega
  · rename_i hOdd
    rw [and_one_eq_zero hw] at hOdd
    rw [BitVec.toNat_add, BitVec.toNat_add, toNat_halved, hOne, Nat.mod_add_mod,
      Nat.mod_eq_of_lt (by omega)]
    omega

/-- A factor is doubled while the other is halved. -/
theorem mul_halves (x y : BitVec w) :
    y * x = (if x &&& 1#w = 0 then 0 else y) + (y <<< 1) * (x >>> 1) := by
  rcases Nat.eq_zero_or_pos w with rfl | hw
  · exact Subsingleton.elim _ _
  have hOne : y * 1#w = y := BitVec.mul_one y
  have hZero : y * 0#w = 0 := BitVec.mul_zero
  calc y * x = y * ((x >>> 1) + (x >>> 1) + (if x &&& 1#w = 0 then 0#w else 1#w)) := by
        rw [← halves hw]
    _ = y * (if x &&& 1#w = 0 then 0#w else 1#w) + (y + y) * (x >>> 1) := by ring
    _ = (if x &&& 1#w = 0 then 0 else y) + (y <<< 1) * (x >>> 1) := by
        rw [shl_one]
        split
        · rw [hZero]
        · rw [hOne]

/-! ## The product of two words -/

/-- The product so far and the product of what is left do not change together. -/
theorem mulBody_eq (r : MulRegs w) :
    (mulBody r).a0 + (mulBody r).a2 * (mulBody r).a1 = r.a0 + r.a2 * r.a1 := by
  rw [mul_halves r.a1 r.a2, mulBody_a1, mulBody_a2]
  unfold mulBody
  dsimp only
  split
  · rw [zero_add]
  · rw [add_assoc]

private theorem mulL1_eq (r : MulRegs w) : (mulL1 r).a0 = r.a0 + r.a2 * r.a1 := by
  induction r using mulL1.induct with
  | case1 r s hMore ih =>
      rw [mulL1, if_pos hMore, ih]
      exact mulBody_eq r
  | case2 r s hDone =>
      have h0 : (mulBody r).a1 = 0 := Classical.not_not.mp hDone
      rw [mulL1, if_neg hDone, ← mulBody_eq r, h0, mul_zero, add_zero]

private theorem muldi3_correct (a0 a1 : BitVec w) : muldi3 a0 a1 = a0 * a1 := by
  unfold muldi3
  rw [mulL1_eq]
  exact zero_add _

/-! ## The product of two double words -/

section

open DoubleWord

/-- The product so far. -/
def MulState.product (s : MulState w) : BitVec (w + w) := s.w_high ++ s.w_low

/-- The factors that are left. -/
def MulState.u (s : MulState w) : BitVec (w + w) := s.w_high_tmp ++ s.u_low

/-- What is left of the second factor, as a double word. -/
def MulState.v (s : MulState w) : BitVec (w + w) := 0#w ++ s.v_low

variable {s : MulState w}

private theorem multi3Body_u (hw : 1 < w) : (multi3Body s).u = s.u <<< 1 := by
  unfold multi3Body MulState.u
  dsimp only
  rw [shiftLeft_lt hw, BitVec.or_comm]

private theorem multi3Body_v : (multi3Body s).v = s.v >>> 1 := by
  unfold multi3Body MulState.v
  dsimp only
  apply BitVec.eq_of_toNat_eq
  have hZero : (0#w).toNat = 0 := BitVec.toNat_zero
  rw [toNat_halved, toNat_append, toNat_append, toNat_halved, hZero, Nat.zero_mul, Nat.zero_add,
    Nat.zero_add]

private theorem v_and_one (hw : 0 < w) : s.v &&& 1#(w + w) = 0 ↔ s.v_low &&& 1#w = 0 := by
  have hZero : (0#w).toNat = 0 := BitVec.toNat_zero
  unfold MulState.v
  rw [and_one_eq_zero (Nat.add_pos_left hw w), and_one_eq_zero hw, toNat_append, hZero,
    Nat.zero_mul, Nat.zero_add]

private theorem multi3Body_product (hw : 0 < w) :
    (multi3Body s).product = s.product + (if s.v &&& 1#(w + w) = 0 then 0 else s.u) := by
  unfold multi3Body MulState.product
  dsimp only
  by_cases hBit : s.v_low &&& 1#w = 0
  · rw [if_neg (not_not.mpr hBit), if_neg (not_not.mpr hBit), if_pos ((v_and_one hw).mpr hBit),
      add_zero]
  · rw [if_pos hBit, if_pos hBit, if_neg (mt (v_and_one hw).mp hBit)]
    unfold MulState.u
    rw [append_add_append, append_inj]
    refine ⟨?_, rfl⟩
    unfold carry
    ring

private theorem multi3Loop_product (hw : 1 < w) (s : MulState w) :
    (multi3Loop s).product = s.product + s.u * s.v := by
  have hBody : ∀ s : MulState w,
      (multi3Body s).product + (multi3Body s).u * (multi3Body s).v = s.product + s.u * s.v := by
    intro s
    rw [multi3Body_product (Nat.zero_lt_of_lt hw), multi3Body_u hw, multi3Body_v,
      mul_halves s.v s.u, add_assoc]
  induction s using multi3Loop.induct with
  | case1 s t hMore ih =>
      rw [multi3Loop, if_pos hMore, ih]
      exact hBody s
  | case2 s t hDone =>
      have h0 : (multi3Body s).v = 0 := by
        unfold MulState.v
        rw [Classical.not_not.mp hDone]
        exact BitVec.zero_append_zero
      rw [multi3Loop, if_neg hDone, ← hBody s, h0, mul_zero, add_zero]

private theorem muluw3_if (high a b : BitVec w) :
    (if b ≠ 0 then high + muluw3 a b else high) = high + a * b := by
  unfold muluw3
  split
  · rw [muldi3_correct]
  · rename_i h
    rw [Classical.not_not.mp h, mul_zero, add_zero]

/--
**Multiplication.** `multi3.c` multiplies double words, modulo a double word: by
the loop for the product of the low words, and by that of `muldi3.S` for the others.
-/
theorem multi3_correct (hw : 1 < w) (u v : BitVec (w + w)) : multi3 u v = u * v := by
  have hLoop := multi3Loop_product hw
    { u_low := low u, v_low := low v, w_low := 0, w_high := 0, w_high_tmp := 0 }
  generalize hT : multi3Loop
    { u_low := low u, v_low := low v, w_low := 0, w_high := 0, w_high_tmp := 0 } = t at hLoop
  have hLow : t.w_high ++ t.w_low = (0#w ++ low u) * (0#w ++ low v) := by
    refine hLoop.trans ?_
    have hStart : (0#w ++ 0#w : BitVec (w + w)) = 0 := BitVec.zero_append_zero
    unfold MulState.product MulState.u MulState.v
    exact (congrArg (· + _) hStart).trans (zero_add _)
  have hSplit : u * v = (0#w ++ low u) * (0#w ++ low v) + ((high v * low u) ++ 0#w) +
      ((high u * low v) ++ 0#w) := by
    calc u * v = ((0#w ++ low u) + (high u ++ 0#w)) * v := by
          rw [← append_eq_add, high_append_low]
      _ = (0#w ++ low u) * v + (high u ++ 0#w) * v := by ring
      _ = (0#w ++ low u) * ((0#w ++ low v) + (high v ++ 0#w)) + (high u ++ 0#w) * v := by
          rw [← append_eq_add, high_append_low]
      _ = (0#w ++ low u) * (0#w ++ low v) + (high v ++ 0#w) * (0#w ++ low u) +
            (high u ++ 0#w) * v := by ring
      _ = _ := by rw [high_mul, high_mul, low_append]
  unfold multi3
  dsimp only
  rw [hT, muluw3_if, muluw3_if, hSplit, ← hLow, append_add_high, append_add_high, append_inj]
  exact ⟨by ring, rfl⟩

/-- On RV32, the square of all 64 bits set. -/
theorem multi3_correct_rv32 :
    multi3 (w := 32) (-1) (-1) = 1 := by
  rw [multi3_correct (by decide)]
  decide

/-- **The shift of a double word.** By any number of its bits; C says nothing of more. -/
theorem ashldi3_correct (u : BitVec (w + w)) (b : Nat) : ashldi3 u b = u <<< b := by
  have hU : (high u ++ low u) <<< b = u <<< b := by rw [high_append_low]
  unfold ashldi3
  split
  · rename_i h0
    rw [h0, BitVec.shiftLeft_zero]
  · rename_i h0
    dsimp only
    rw [← hU]
    split
    · rename_i hGe
      have hAmount : (-((w : Int) - b)).toNat = b - w := by omega
      rw [shiftLeft_ge (by omega), hAmount]
    · rename_i hLt
      have hAmount : ((w : Int) - b).toNat = w - b := by omega
      rw [shiftLeft_lt (by omega), hAmount]

end

end AbstractMachine.Riscv.Libgcc
