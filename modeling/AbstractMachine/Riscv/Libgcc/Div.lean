import AbstractMachine.Lib.Division

/-!
# `div.S`

Division on machines without the instructions for it.  The routines leave the
quotient in `a0` and the remainder of unsigned operands in `a1`.  They are written
for registers of any width; on RV64 there are routines for 32 bits besides.

## Main results

* `div_correct` -- the routines agree with the instructions of the M extension, for
  all operands.
* `div_word_correct` -- so do those for words on RV64.
-/

namespace AbstractMachine.Riscv

open AbstractMachine.Lib

/-! ## The instructions of the M extension -/

namespace M

variable {w : Nat}

/-- `divu`; a division by zero gives all ones. -/
def divu (a b : BitVec w) : BitVec w := if b = 0 then -1 else a / b

/-- `remu`; the remainder of a division by zero is the dividend. -/
def remu (a b : BitVec w) : BitVec w := if b = 0 then a else a % b

/-- The quotient of the least number by -1 is that number. -/
def div (a b : BitVec w) : BitVec w := if b = 0 then -1 else a.sdiv b

/-- `rem`; the remainder of a division by zero is the dividend. -/
def rem (a b : BitVec w) : BitVec w := if b = 0 then a else a.srem b

end M

namespace Libgcc

/-! ## The routines -/

/-- The registers that the routines use, but for return addresses. -/
structure Regs (w : Nat) where
  a0 : BitVec w
  a1 : BitVec w
  a2 : BitVec w
  a3 : BitVec w
  deriving DecidableEq

variable {w : Nat}

/-- `blez` does not take it: it can be shifted. -/
theorem sle_zero_eq_false {x : BitVec w} :
    x.sle 0 = false ↔ 0 < x.toNat ∧ 2 * x.toNat < 2 ^ w := by
  have hLt := x.isLt
  have hSle : x.sle 0 = true ↔ x.toInt ≤ 0 := by
    rw [BitVec.sle_iff_toInt_le]
    exact iff_of_eq (congrArg _ (BitVec.toInt_zero))
  rw [← Bool.not_eq_true, hSle, BitVec.toInt_eq_toNat_cond]
  split <;> omega

private theorem toNat_shl_one {x : BitVec w} (h : 2 * x.toNat < 2 ^ w) :
    (x <<< 1).toNat = 2 * x.toNat := by
  rw [BitVec.toNat_shiftLeft, Nat.shiftLeft_eq, Nat.pow_one, Nat.mul_comm, Nat.mod_eq_of_lt h]

private theorem toNat_shr_one (x : BitVec w) : (x >>> 1).toNat = x.toNat / 2 := by
  rw [BitVec.toNat_ushiftRight, Nat.shiftRight_eq_div_pow, Nat.pow_one]

/-- The divisor and the mask go left, as long as the divisor stays below the dividend. -/
def L1 (r : Regs w) : Regs w :=
  if h : r.a2.sle 0 = false then
    let s := { r with a2 := r.a2 <<< 1, a3 := r.a3 <<< 1 }
    if s.a2 < s.a1 then L1 s else s
  else r
termination_by 2 ^ w - r.a2.toNat
decreasing_by
  obtain ⟨hPos, hFit⟩ := sle_zero_eq_false.mp h
  have hShift := toNat_shl_one hFit
  have hGrow : 2 ^ w - (r.a2 <<< 1).toNat < 2 ^ w - r.a2.toNat := by omega
  exact hGrow

/-- The subtraction, and one bit to the right. -/
def L3body (r : Regs w) : Regs w :=
  let s := if r.a1 < r.a2 then r else { r with a1 := r.a1 - r.a2, a0 := r.a0 ||| r.a3 }
  { s with a3 := s.a3 >>> 1, a2 := s.a2 >>> 1 }

private theorem L3body_a3 (r : Regs w) : (L3body r).a3 = r.a3 >>> 1 := by
  unfold L3body
  dsimp only
  split <;> rfl

private theorem L3body_a2 (r : Regs w) : (L3body r).a2 = r.a2 >>> 1 := by
  unfold L3body
  dsimp only
  split <;> rfl

/-- Subtractions from the top down, until the mask is gone. -/
def L3 (r : Regs w) : Regs w :=
  let s := L3body r
  if s.a3 ≠ 0 then L3 s else s
termination_by r.a3.toNat
decreasing_by
  rename_i h
  have hHalf : (L3body r).a3.toNat = r.a3.toNat / 2 := by rw [L3body_a3, toNat_shr_one]
  have hPos : 0 < (L3body r).a3.toNat := Nat.pos_of_ne_zero fun h0 => h (BitVec.eq_of_toNat_eq h0)
  omega

/-- The quotient starts at zero. -/
def L2 (r : Regs w) : Regs w := L3 { r with a0 := 0 }

/-- `__udivdi3`: quotient in `a0` and remainder in `a1`. -/
def udivdi3 (r : Regs w) : Regs w :=
  let s := { r with a2 := r.a1, a1 := r.a0, a0 := -1 }
  if s.a2 = 0 then s
  else
    let s := { s with a3 := 1 }
    L2 (if s.a1 ≤ s.a2 then s else L1 s)

/-- `__umoddi3` moves the remainder to `a0`. -/
def umoddi3 (r : Regs w) : Regs w :=
  let s := udivdi3 r
  { s with a0 := s.a1 }

/-- The quotient is negated. -/
def L12 (r : Regs w) : Regs w :=
  let s := udivdi3 r
  { s with a0 := -s.a0 }

/-- A divisor below zero. -/
def L11 (r : Regs w) : Regs w := L12 { r with a1 := -r.a1 }

/-- Zero is handled as a negative. -/
def L10 (r : Regs w) : Regs w :=
  let s := { r with a0 := -r.a0 }
  if s.a1.sle 0 then udivdi3 { s with a1 := -s.a1 } else L12 s

/-- `__divdi3` goes by the signs of its operands. -/
def divdi3 (r : Regs w) : Regs w :=
  if r.a0.slt 0 then L10 r
  else if r.a1.slt 0 then L11 r
  else udivdi3 r

/-- The remainder stays as it is. -/
def L30 (r : Regs w) : Regs w :=
  let s := udivdi3 r
  { s with a0 := s.a1 }

/-- A dividend below zero: the remainder is negated. -/
def L32 (r : Regs w) : Regs w :=
  let s := udivdi3 { r with a0 := -r.a0 }
  { s with a0 := -s.a1 }

/-- A divisor below zero does not change the remainder. -/
def L31 (r : Regs w) : Regs w :=
  let s := { r with a1 := -r.a1 }
  if s.a0.slt 0 then L32 s else L30 s

/-- `__moddi3` goes by the signs of its operands. -/
def moddi3 (r : Regs w) : Regs w :=
  if r.a1.slt 0 then L31 r
  else if r.a0.slt 0 then L32 r
  else L30 r

/-! ## The routines for words on RV64 -/

/-- `sext.w`. -/
def sextw (x : BitVec 64) : BitVec 64 := (x.setWidth 32).signExtend 64

/-- `__udivsi3`: both operands shifted into the upper word. -/
def udivsi3 (r : Regs 64) : Regs 64 :=
  let s := udivdi3 { r with a0 := r.a0 <<< 32, a1 := r.a1 <<< 32 }
  { s with a0 := sextw s.a0 }

/-- `__umodsi3`: both operands extended with zeros. -/
def umodsi3 (r : Regs 64) : Regs 64 :=
  let s := udivdi3 { r with a0 := r.a0 <<< 32 >>> 32, a1 := r.a1 <<< 32 >>> 32 }
  { s with a0 := sextw s.a1 }

/-- `__modsi3` is `__moddi3` on sign-extended words. -/
def modsi3 : Regs 64 → Regs 64 := moddi3

/-- The least word is not divided by -1. -/
def divsi3 (r : Regs 64) : Regs 64 :=
  let t0 : BitVec 64 := -1
  if r.a1 = t0 then
    if r.a0 = t0 <<< 31 then r else divdi3 r
  else divdi3 r

/-! ## Aligning the divisor -/

/-- The divisor is `k` bits to the left, and so is the bit in `a3`. -/
structure Aligned (n d : BitVec w) (k : Nat) (r : Regs w) : Prop where
  a1 : r.a1 = n
  a2 : r.a2.toNat = 2 ^ k * d.toNat
  a3 : r.a3.toNat = 2 ^ k

private theorem L1_aligned {n d : BitVec w} (hd : 0 < d.toNat) (r : Regs w) :
    ∀ k, Aligned n d k r → ∃ k', Aligned n d k' (L1 r) ∧ n.toNat < 2 ^ (k' + 1) * d.toNat := by
  induction r using L1.induct with
  | case1 r hPos s hMore ih =>
      intro k h
      obtain ⟨-, hFit⟩ := sle_zero_eq_false.mp hPos
      have hBit : 2 * r.a3.toNat < 2 ^ w := by
        have hLe : r.a3.toNat ≤ r.a2.toNat := by
          rw [h.a3, h.a2]
          exact Nat.le_mul_of_pos_right _ hd
        omega
      rw [L1, dif_pos hPos]
      dsimp only
      rw [if_pos hMore]
      refine ih (k + 1) ⟨h.a1, ?_, ?_⟩
      · rw [toNat_shl_one hFit, h.a2]
        ring
      · rw [toNat_shl_one hBit, h.a3]
        ring
  | case2 r hPos s hDone =>
      intro k h
      obtain ⟨-, hFit⟩ := sle_zero_eq_false.mp hPos
      have hBit : 2 * r.a3.toNat < 2 ^ w := by
        have hLe : r.a3.toNat ≤ r.a2.toNat := by
          rw [h.a3, h.a2]
          exact Nat.le_mul_of_pos_right _ hd
        omega
      have hA2 : (r.a2 <<< 1).toNat = 2 ^ (k + 1) * d.toNat := by
        rw [toNat_shl_one hFit, h.a2]
        ring
      rw [L1, dif_pos hPos]
      dsimp only
      rw [if_neg hDone]
      refine ⟨k + 1, ⟨h.a1, hA2, ?_⟩, ?_⟩
      · rw [toNat_shl_one hBit, h.a3]
        ring
      · have hLe : n.toNat ≤ 2 ^ (k + 1) * d.toNat := by
          rw [← hA2, ← h.a1]
          exact Nat.le_of_not_lt hDone
        have hPow : 0 < 2 ^ (k + 1) * d.toNat := Nat.mul_pos (Nat.two_pow_pos _) hd
        rw [Nat.pow_succ 2 (k + 1), Nat.mul_right_comm]
        omega
  | case3 r hStop =>
      intro k h
      rw [L1, dif_neg hStop]
      refine ⟨k, h, ?_⟩
      have hLt := n.isLt
      have hA2 := h.a2
      have hPos : 0 < 2 ^ k * d.toNat := Nat.mul_pos (Nat.two_pow_pos _) hd
      rw [sle_zero_eq_false] at hStop
      rw [Nat.pow_succ, Nat.mul_right_comm]
      omega

/-! ## Subtracting it -/

/-- The dividend is what the quotient so far makes up for, and `a1`. -/
structure Dividing (n d : BitVec w) (k : Nat) (r : Regs w) : Prop where
  part : PartialDiv n.toNat d.toNat (k + 1) r.a0.toNat r.a1.toNat
  a2 : r.a2.toNat = 2 ^ k * d.toNat
  a3 : r.a3.toNat = 2 ^ k

private theorem L3body_part {n d : BitVec w} {k : Nat} {r : Regs w} (h : Dividing n d k r) :
    PartialDiv n.toNat d.toNat k (L3body r).a0.toNat (L3body r).a1.toNat := by
  have hA2 := h.a2
  unfold L3body
  dsimp only
  split
  · rename_i hLt
    exact h.part.skip (hA2 ▸ BitVec.lt_def.mp hLt)
  · rename_i hGe
    have hLe : 2 ^ k * d.toNat ≤ r.a1.toNat := by
      rw [← hA2]
      exact Nat.le_of_not_lt (mt BitVec.lt_def.mpr hGe)
    have hSub : (r.a1 - r.a2).toNat = r.a1.toNat - 2 ^ k * d.toNat := by
      rw [BitVec.toNat_sub_of_le (BitVec.le_def.mpr (hA2 ▸ hLe)), hA2]
    have hOr : (r.a0 ||| r.a3).toNat = r.a0.toNat + 2 ^ k := by
      rw [BitVec.toNat_or, h.a3, h.part.or_bit]
    rw [hSub, hOr]
    exact h.part.sub hLe

private theorem L3_divMod {n d : BitVec w} (r : Regs w) :
    ∀ k, Dividing n d k r → DivMod n.toNat d.toNat (L3 r).a0.toNat (L3 r).a1.toNat := by
  induction r using L3.induct with
  | case1 r s hMore ih =>
      intro k h
      rw [L3, if_pos hMore]
      have hBit : (L3body r).a3.toNat = 2 ^ k / 2 := by rw [L3body_a3, toNat_shr_one, h.a3]
      cases k with
      | zero =>
          have h0 : (L3body r).a3 = 0 := BitVec.eq_of_toNat_eq hBit
          exact absurd h0 hMore
      | succ k =>
          refine ih k ⟨L3body_part h, ?_, ?_⟩
          · rw [L3body_a2, toNat_shr_one, h.a2, Nat.pow_succ, Nat.mul_right_comm,
              Nat.mul_div_cancel _ (by decide)]
          · rw [hBit, Nat.pow_succ, Nat.mul_div_cancel _ (by decide)]
  | case2 r s hDone =>
      intro k h
      rw [L3, if_neg hDone]
      have hBit : (L3body r).a3.toNat = 2 ^ k / 2 := by rw [L3body_a3, toNat_shr_one, h.a3]
      have h0 : (L3body r).a3 = 0 := Classical.not_not.mp hDone
      cases k with
      | zero => exact (L3body_part h).divMod
      | succ k =>
          have hPos := Nat.two_pow_pos k
          rw [h0, Nat.pow_succ, Nat.mul_div_cancel _ (by decide)] at hBit
          have hZero : (0 : BitVec w).toNat = 0 := BitVec.toNat_zero
          omega

/-! ## Unsigned operands -/

private theorem udivdi3_zero {r : Regs w} (h : r.a1 = 0) :
    (udivdi3 r).a0 = -1 ∧ (udivdi3 r).a1 = r.a0 := by
  unfold udivdi3
  dsimp only
  rw [if_pos h]
  exact ⟨rfl, rfl⟩

private theorem udivdi3_divMod (hw : 0 < w) {r : Regs w} (h : r.a1 ≠ 0) :
    DivMod r.a0.toNat r.a1.toNat (udivdi3 r).a0.toNat (udivdi3 r).a1.toNat := by
  have hPos : 0 < r.a1.toNat := Nat.pos_of_ne_zero fun h0 => h (BitVec.eq_of_toNat_eq h0)
  have hOne : (1#w).toNat = 2 ^ 0 := by
    rw [BitVec.toNat_one hw, Nat.pow_zero]
  unfold udivdi3
  dsimp only
  rw [if_neg h]
  have hStart : Aligned r.a0 r.a1 0
      { r with a2 := r.a1, a1 := r.a0, a0 := -1, a3 := 1 } :=
    ⟨rfl, by rw [Nat.pow_zero, Nat.one_mul], hOne⟩
  have hAligned : ∃ k, Aligned r.a0 r.a1 k
      (if r.a0 ≤ r.a1 then ({ r with a2 := r.a1, a1 := r.a0, a0 := -1, a3 := 1 } : Regs w)
        else L1 { r with a2 := r.a1, a1 := r.a0, a0 := -1, a3 := 1 }) ∧
      r.a0.toNat < 2 ^ (k + 1) * r.a1.toNat := by
    split
    · rename_i hLe
      refine ⟨0, hStart, ?_⟩
      have hLe' := BitVec.le_def.mp hLe
      omega
    · exact L1_aligned hPos _ 0 hStart
  obtain ⟨k, hk, hLt⟩ := hAligned
  unfold L2
  refine L3_divMod _ k ⟨?_, hk.a2, hk.a3⟩
  have hZero : (0 : BitVec w).toNat = 0 := BitVec.toNat_zero
  dsimp only
  rw [hZero, hk.a1]
  exact PartialDiv.start hLt

private theorem udivdi3_eq (hw : 0 < w) {r : Regs w} (h : r.a1 ≠ 0) :
    (udivdi3 r).a0 = r.a0 / r.a1 ∧ (udivdi3 r).a1 = r.a0 % r.a1 := by
  have hDiv := udivdi3_divMod hw h
  constructor
  · apply BitVec.eq_of_toNat_eq
    rw [BitVec.toNat_udiv, hDiv.div_eq]
  · apply BitVec.eq_of_toNat_eq
    rw [BitVec.toNat_umod, hDiv.mod_eq]

theorem udivdi3_correct (hw : 0 < w) (r : Regs w) :
    (udivdi3 r).a0 = M.divu r.a0 r.a1 ∧ (udivdi3 r).a1 = M.remu r.a0 r.a1 := by
  unfold M.divu M.remu
  by_cases h : r.a1 = 0
  · rw [if_pos h, if_pos h]
    exact udivdi3_zero h
  · rw [if_neg h, if_neg h]
    exact udivdi3_eq hw h

/-! ## Signed operands -/

theorem slt_zero (x : BitVec w) : x.slt 0 = x.msb := BitVec.slt_zero_eq_msb

theorem sle_zero (x : BitVec w) : x.sle 0 = (x.msb || x == 0) := by
  rw [BitVec.sle_eq_slt_or_eq]
  exact congrArg (· || x == 0) BitVec.slt_zero_eq_msb

/-- The quotient of the magnitudes. -/
theorem magnitudes_div (hw : 0 < w) {r : Regs w} {s : Bool} {a b : BitVec w} (hb : b ≠ 0)
    (h0 : r.a0 = negIf a.msb a) (h1 : r.a1 = negIf b.msb b) (hs : s = (a.msb != b.msb)) :
    negIf s (udivdi3 r).a0 = M.div a b := by
  have hNe : r.a1 ≠ 0 := by
    rw [h1]
    exact mt negIf_eq_zero_iff.mp hb
  unfold M.div
  rw [if_neg hb, sdiv_eq_negIf, (udivdi3_eq hw hNe).1, h0, h1, hs]

private theorem magnitudes_rem (hw : 0 < w) {r : Regs w} {s : Bool} {a b : BitVec w} (hb : b ≠ 0)
    (h0 : r.a0 = negIf a.msb a) (h1 : r.a1 = negIf b.msb b) (hs : s = a.msb) :
    negIf s (udivdi3 r).a1 = M.rem a b := by
  have hNe : r.a1 ≠ 0 := by
    rw [h1]
    exact mt negIf_eq_zero_iff.mp hb
  unfold M.rem
  rw [if_neg hb, srem_eq_negIf, (udivdi3_eq hw hNe).2, h0, h1, hs]

/-- Every quotient by 0 is -1: the result for a negative dividend is not negated. -/
theorem divdi3_zero {r : Regs w} (h : r.a1 = 0) : (divdi3 r).a0 = -1 := by
  have hNeg : -r.a1 = 0 := by rw [h]; exact BitVec.neg_zero w
  have hSle : r.a1.sle 0 = true := by rw [sle_zero, h]; simp
  have hSlt : r.a1.slt 0 = false := by rw [slt_zero, h]; simp
  unfold divdi3 L10
  dsimp only
  rw [hSlt, if_pos hSle]
  split
  · exact (udivdi3_zero hNeg).1
  · exact (udivdi3_zero h).1

private theorem moddi3_zero {r : Regs w} (h : r.a1 = 0) : (moddi3 r).a0 = r.a0 := by
  have hSlt : r.a1.slt 0 = false := by rw [slt_zero, h]; simp
  unfold moddi3 L32 L30
  dsimp only
  rw [hSlt]
  split
  · rename_i hFalse
    cases hFalse
  · split
    · rw [(udivdi3_zero (r := { r with a0 := -r.a0 }) h).2]
      exact BitVec.neg_neg
    · exact (udivdi3_zero h).2

private theorem divdi3_correct (hw : 0 < w) (r : Regs w) : (divdi3 r).a0 = M.div r.a0 r.a1 := by
  by_cases hb : r.a1 = 0
  · rw [divdi3_zero hb, M.div, if_pos hb]
  have hBeq : (r.a1 == 0) = false := beq_eq_false_iff_ne.mpr hb
  unfold divdi3 L10 L11 L12
  dsimp only
  rw [slt_zero, slt_zero, sle_zero, hBeq, Bool.or_false]
  cases ha : r.a0.msb <;> cases hb' : r.a1.msb
  · exact magnitudes_div (s := false) hw hb (by rw [ha]; rfl) (by rw [hb']; rfl)
      (by rw [ha, hb']; rfl)
  · exact magnitudes_div (s := true) hw hb (by rw [ha]; rfl) (by rw [hb']; rfl)
      (by rw [ha, hb']; rfl)
  · exact magnitudes_div (s := true) hw hb (by rw [ha]; rfl) (by rw [hb']; rfl)
      (by rw [ha, hb']; rfl)
  · exact magnitudes_div (s := false) hw hb (by rw [ha]; rfl) (by rw [hb']; rfl)
      (by rw [ha, hb']; rfl)

private theorem moddi3_correct (hw : 0 < w) (r : Regs w) : (moddi3 r).a0 = M.rem r.a0 r.a1 := by
  by_cases hb : r.a1 = 0
  · rw [moddi3_zero hb, M.rem, if_pos hb]
  unfold moddi3 L31 L32 L30
  dsimp only
  rw [slt_zero, slt_zero]
  cases ha : r.a0.msb <;> cases hb' : r.a1.msb
  · exact magnitudes_rem (s := false) hw hb (by rw [ha]; rfl) (by rw [hb']; rfl) ha.symm
  · exact magnitudes_rem (s := false) hw hb (by rw [ha]; rfl) (by rw [hb']; rfl) ha.symm
  · exact magnitudes_rem (s := true) hw hb (by rw [ha]; rfl) (by rw [hb']; rfl) ha.symm
  · exact magnitudes_rem (s := true) hw hb (by rw [ha]; rfl) (by rw [hb']; rfl) ha.symm

/--
**Division.** For all operands, those that are 0 and the least dividend by -1
included, the routines of `div.S` compute what the instructions of the M extension
would.
-/
theorem div_correct (hw : 0 < w) (r : Regs w) :
    (udivdi3 r).a0 = M.divu r.a0 r.a1 ∧ (umoddi3 r).a0 = M.remu r.a0 r.a1 ∧
      (divdi3 r).a0 = M.div r.a0 r.a1 ∧ (moddi3 r).a0 = M.rem r.a0 r.a1 :=
  ⟨(udivdi3_correct hw r).1, (udivdi3_correct hw r).2, divdi3_correct hw r, moddi3_correct hw r⟩

/-- The least word by -1 on RV32, and a division by 0 of all 32 bits. -/
theorem div_correct_rv32 :
    (divdi3 { a0 := 0x80000000#32, a1 := -1, a2 := 5, a3 := 7 }).a0 = 0x80000000#32 ∧
      (umoddi3 { a0 := 0xffffffff#32, a1 := 0, a2 := 5, a3 := 7 }).a0 = 0xffffffff#32 := by
  have hLeast := div_correct (by decide) { a0 := 0x80000000#32, a1 := -1, a2 := 5, a3 := 7 }
  have hZero := div_correct (by decide) { a0 := 0xffffffff#32, a1 := 0, a2 := 5, a3 := 7 }
  rw [hLeast.2.2.1, hZero.2.1]
  decide

/-! ## Words on RV64 -/

section

variable (x y : BitVec 32)

private theorem sextw_setWidth : sextw (x.setWidth 64) = x.signExtend 64 := by
  unfold sextw
  rw [BitVec.setWidth_setWidth_of_le _ (by decide), BitVec.setWidth_eq]

/-- The upper halves of the registers do not count. -/
theorem toNat_shl_32 : (x.signExtend 64 <<< 32).toNat = x.toNat * 2 ^ 32 := by
  have hLt := x.isLt
  rw [BitVec.toNat_shiftLeft, BitVec.toNat_signExtend, Nat.shiftLeft_eq, BitVec.toNat_setWidth]
  split <;> omega

private theorem shl_32_eq_zero : x.signExtend 64 <<< 32 = 0 ↔ x = 0 := by
  rw [← BitVec.toNat_inj, ← BitVec.toNat_inj, toNat_shl_32]
  have hZero : (0 : BitVec 64).toNat = 0 := rfl
  have hZero' : (0 : BitVec 32).toNat = 0 := rfl
  omega

private theorem shl_shr_32 : x.signExtend 64 <<< 32 >>> 32 = x.setWidth 64 := by
  have hLt := x.isLt
  apply BitVec.eq_of_toNat_eq
  rw [BitVec.toNat_ushiftRight, toNat_shl_32, Nat.shiftRight_eq_div_pow, BitVec.toNat_setWidth]
  omega

private theorem udivsi3_correct (a2 a3 : BitVec 64) :
    (udivsi3 { a0 := x.signExtend 64, a1 := y.signExtend 64, a2 := a2, a3 := a3 }).a0 =
      (M.divu x y).signExtend 64 := by
  unfold udivsi3
  dsimp only
  rw [(udivdi3_correct (by decide) _).1]
  unfold M.divu
  dsimp only
  by_cases hy : y = 0
  · rw [if_pos ((shl_32_eq_zero y).mpr hy), if_pos hy]
    decide
  · have hQuotient : x.signExtend 64 <<< 32 / y.signExtend 64 <<< 32 = (x / y).setWidth 64 := by
      have hLt := (x / y).isLt
      apply BitVec.eq_of_toNat_eq
      rw [BitVec.toNat_udiv, toNat_shl_32, toNat_shl_32, Nat.mul_div_mul_right _ _ (by decide),
        BitVec.toNat_setWidth, Nat.mod_eq_of_lt (by omega), BitVec.toNat_udiv]
    rw [if_neg (mt (shl_32_eq_zero y).mp hy), if_neg hy, hQuotient, sextw_setWidth]

private theorem umodsi3_correct (a2 a3 : BitVec 64) :
    (umodsi3 { a0 := x.signExtend 64, a1 := y.signExtend 64, a2 := a2, a3 := a3 }).a0 =
      (M.remu x y).signExtend 64 := by
  unfold umodsi3
  dsimp only
  rw [(udivdi3_correct (by decide) _).2]
  unfold M.remu
  dsimp only
  rw [shl_shr_32, shl_shr_32]
  have hZero : y.setWidth 64 = 0 ↔ y = 0 := by
    have hLt := y.isLt
    rw [← BitVec.toNat_inj, ← BitVec.toNat_inj, BitVec.toNat_setWidth,
      Nat.mod_eq_of_lt (by omega)]
    rfl
  by_cases hy : y = 0
  · rw [if_pos (hZero.mpr hy), if_pos hy, sextw_setWidth]
  · have hRem : x.setWidth 64 % y.setWidth 64 = (x % y).setWidth 64 := by
      have hx := x.isLt
      have hy' := y.isLt
      have hLt := (x % y).isLt
      apply BitVec.eq_of_toNat_eq
      rw [BitVec.toNat_umod, BitVec.toNat_setWidth, BitVec.toNat_setWidth, BitVec.toNat_setWidth,
        Nat.mod_eq_of_lt (by omega : x.toNat < 2 ^ 64),
        Nat.mod_eq_of_lt (by omega : y.toNat < 2 ^ 64),
        Nat.mod_eq_of_lt (by omega : (x % y).toNat < 2 ^ 64), BitVec.toNat_umod]
    rw [if_neg (mt hZero.mp hy), if_neg hy, hRem, sextw_setWidth]

private theorem toInt_sext :
    (x.signExtend 64).toInt = x.toInt := BitVec.toInt_signExtend_of_le (by decide)

private theorem sext_eq_zero : x.signExtend 64 = 0 ↔ x = 0 := by
  rw [← BitVec.toInt_inj, ← BitVec.toInt_inj, toInt_sext]
  rfl

private theorem rem_sext :
    M.rem (x.signExtend 64) (y.signExtend 64) = (M.rem x y).signExtend 64 := by
  unfold M.rem
  by_cases hy : y = 0
  · rw [if_pos ((sext_eq_zero y).mpr hy), if_pos hy]
  · rw [if_neg (mt (sext_eq_zero y).mp hy), if_neg hy]
    apply BitVec.eq_of_toInt_eq
    rw [toInt_sext, BitVec.toInt_srem, BitVec.toInt_srem, toInt_sext, toInt_sext]

/-- But for the one quotient that is no word. -/
theorem div_sext (h : x ≠ BitVec.intMin 32 ∨ y ≠ -1) :
    M.div (x.signExtend 64) (y.signExtend 64) = (M.div x y).signExtend 64 := by
  unfold M.div
  by_cases hy : y = 0
  · rw [if_pos ((sext_eq_zero y).mpr hy), if_pos hy]
    decide
  · have hLow : x.signExtend 64 ≠ BitVec.intMin 64 := by
      intro hEq
      have hInt := congrArg BitVec.toInt hEq
      rw [toInt_sext] at hInt
      have hLt := BitVec.le_toInt x
      have hMin : (BitVec.intMin 64).toInt = -2 ^ 63 := rfl
      omega
    rw [if_neg (mt (sext_eq_zero y).mp hy), if_neg hy]
    apply BitVec.eq_of_toInt_eq
    rw [toInt_sext, BitVec.toInt_sdiv_of_ne_or_ne _ _ (Or.inl hLow),
      BitVec.toInt_sdiv_of_ne_or_ne _ _ h, toInt_sext, toInt_sext]

private theorem divsi3_correct (a2 a3 : BitVec 64) :
    (divsi3 { a0 := x.signExtend 64, a1 := y.signExtend 64, a2 := a2, a3 := a3 }).a0 =
      (M.div x y).signExtend 64 := by
  have hOnes : y.signExtend 64 = -1 ↔ y = -1 := by
    rw [← BitVec.toInt_inj, ← BitVec.toInt_inj, toInt_sext]
    rfl
  have hLeast : x.signExtend 64 = (-1 : BitVec 64) <<< 31 ↔ x = BitVec.intMin 32 := by
    rw [← BitVec.toInt_inj, ← BitVec.toInt_inj, toInt_sext]
    rfl
  unfold divsi3
  dsimp only
  by_cases hy : y = -1
  · rw [if_pos (hOnes.mpr hy)]
    by_cases hx : x = BitVec.intMin 32
    · have hSame : (BitVec.intMin 32).signExtend 64 =
          (M.div (BitVec.intMin 32) (-1)).signExtend 64 := by decide
      rw [if_pos (hLeast.mpr hx), hx, hy]
      exact hSame
    · rw [if_neg (mt hLeast.mp hx), divdi3_correct (by decide), div_sext x y (Or.inl hx)]
  · rw [if_neg (mt hOnes.mp hy), divdi3_correct (by decide), div_sext x y (Or.inr hy)]

/--
**Division of words.** On RV64 the routines for 32 bits compute what the word
instructions of the M extension would, on the sign-extended words that the calling
convention passes.
-/
theorem div_word_correct (a2 a3 : BitVec 64) :
    let r : Regs 64 := { a0 := x.signExtend 64, a1 := y.signExtend 64, a2 := a2, a3 := a3 }
    (udivsi3 r).a0 = (M.divu x y).signExtend 64 ∧
      (umodsi3 r).a0 = (M.remu x y).signExtend 64 ∧
      (divsi3 r).a0 = (M.div x y).signExtend 64 ∧
      (modsi3 r).a0 = (M.rem x y).signExtend 64 :=
  ⟨udivsi3_correct x y a2 a3, umodsi3_correct x y a2 a3, divsi3_correct x y a2 a3,
    (moddi3_correct (by decide) _).trans (rem_sext x y)⟩

end

end Libgcc

end AbstractMachine.Riscv
