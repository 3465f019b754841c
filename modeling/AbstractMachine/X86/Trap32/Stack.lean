import AbstractMachine.X86.Trap32.Model

/-!
# Words on a stack

Addresses on a stack or in a structure, as an offset from a base.  Words whose
offsets from one base are multiples of four are the same or apart; of two
bases only the distance is known.
-/

namespace AbstractMachine.X86.Trap32

open AbstractMachine.Lib
open AbstractMachine.Lib.ByteMem

variable {m : ByteMem 32} {a v x y : Word}

private theorem word_fits : 4 ≤ 2 ^ 32 := by decide

/-- A word only depends on its bytes. -/
theorem ld_congr {m' : ByteMem 32} (h : ∀ z, InBlock a 4 z → m' z = m z) :
    ld m' a = ld m a := by
  unfold ld
  exact load_congr (n := 4) word_fits h

private theorem ld_st_same : ld (st m a v) a = v := by
  unfold ld st
  exact load_store_same (n := 4) m a v word_fits

private theorem ld_st_apart {b : Word} (h : Apart a 4 b 4) : ld (st m b v) a = ld m a := by
  unfold ld st
  exact load_store_apart (n := 4) (k := 4) m v word_fits h

/-- Two words at multiples of four from a base, which may be negative. -/
theorem apart_add (hx : x.toNat % 4 = 0) (hy : y.toNat % 4 = 0) (hxy : x ≠ y) :
    Apart (a + y) 4 (a + x) 4 := by
  intro z hz hz'
  unfold InBlock at hz hz'
  bv_omega

theorem ld_st_add (hx : x.toNat % 4 = 0) (hy : y.toNat % 4 = 0) :
    ld (st m (a + x) v) (a + y) = if x = y then v else ld m (a + y) := by
  by_cases hxy : x = y
  · rw [if_pos hxy, hxy]
    exact ld_st_same
  · rw [if_neg hxy]
    exact ld_st_apart (apart_add hx hy hxy)

/-- The word at the base itself. -/
theorem ld_st_base (hy : y.toNat % 4 = 0) (hNe : 0#32 ≠ y) :
    ld (st m a v) (a + y) = ld m (a + y) := by
  have hZero := ld_st_add (m := m) (a := a) (v := v) (x := 0#32) (by decide) hy
  rw [BitVec.add_zero, if_neg hNe] at hZero
  exact hZero

/-- A word that ends below the one stored, measured from two bases; `c` is
negative. -/
theorem ld_st_far {e c o : Word} (hFar : 60 ≤ (e - a).toNat) (hc : 4 ≤ (-c).toNat)
    (ho : o.toNat + 4 + (-c).toNat ≤ 60) :
    ld (st m (e + c) v) (a + o) = ld m (a + o) := by
  apply ld_st_apart
  intro z hz hz'
  unfold InBlock at hz hz'
  bv_omega

theorem add_add_lit : a + x + y = a + (x + y) := BitVec.add_assoc ..

end AbstractMachine.X86.Trap32
