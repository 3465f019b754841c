import Mathlib.Algebra.Group.Nat.Defs

/-!
# `rand` of klib

`next` is an `unsigned long`, with 32 bits on some targets and 64 on others.  A
value is taken from bits 16 to 30 of it, which are the same on both: they come
from the low half, and the high half never goes down into it.
-/

namespace AbstractMachine.Klib

/-- What `unsigned long` is. -/
inductive DataModel where
  | ilp32
  | lp64
  deriving DecidableEq

/-- The width of `long`. -/
def DataModel.long : DataModel → Nat
  | ilp32 => 32
  | lp64 => 64

variable {d d' : DataModel}

/-- The value, and `next` afterwards. -/
def rand (next : BitVec d.long) : BitVec 32 × BitVec d.long :=
  let next := next * 1103515245 + 12345
  ((next / 65536).setWidth 32 % 32768, next)

/-- `next` afterwards. -/
def srand (seed : BitVec 32) (_next : BitVec d.long) : BitVec d.long := seed.setWidth d.long

/-- What `rand` returns when it has been called `k` times before. -/
def kthRand : Nat → BitVec d.long → BitVec 32
  | 0, next => (rand next).1
  | k + 1, next => kthRand k (rand next).2

/-! ## The low half -/

variable {next : BitVec d.long} {next' : BitVec d'.long}

/-- The low halves are the same. -/
def Alike (next : BitVec d.long) (next' : BitVec d'.long) : Prop :=
  next.toNat % 2 ^ 32 = next'.toNat % 2 ^ 32

private theorem low_mod (d : DataModel) (a : Nat) : a % 2 ^ d.long % 2 ^ 32 = a % 2 ^ 32 := by
  cases d with
  | ilp32 => exact Nat.mod_mod a (2 ^ 32)
  | lp64 => exact Nat.mod_mod_of_dvd a (Nat.pow_dvd_pow 2 (by decide))

/-- A constant that fits into 32 bits. -/
theorem toNat_const (d : DataModel) {a : Nat} (ha : a < 2 ^ 32) :
    (BitVec.ofNat d.long a).toNat = a := by
  rw [BitVec.toNat_ofNat]
  cases d with
  | ilp32 => exact Nat.mod_eq_of_lt ha
  | lp64 => exact Nat.mod_eq_of_lt (Nat.lt_trans ha (by decide))

private theorem srand_alike (seed : BitVec 32) (next : BitVec d.long) (next' : BitVec d'.long) :
    Alike (srand seed next) (srand seed next') := by
  unfold Alike srand
  rw [BitVec.toNat_setWidth, BitVec.toNat_setWidth, low_mod, low_mod]

/-- The low half after a call comes from the low half before. -/
theorem next_low (next : BitVec d.long) :
    (rand next).2.toNat % 2 ^ 32 = (next.toNat % 2 ^ 32 * 1103515245 + 12345) % 2 ^ 32 := by
  show (next * BitVec.ofNat _ 1103515245 + BitVec.ofNat _ 12345).toNat % 2 ^ 32 = _
  rw [BitVec.toNat_add, BitVec.toNat_mul, toNat_const d (by decide), toNat_const d (by decide),
    low_mod, Nat.add_mod, low_mod, ← Nat.add_mod, Nat.add_mod, ← Nat.mod_mul_mod, ← Nat.add_mod]

/-- The value is made of bits of the low half. -/
theorem rand_low (next : BitVec d.long) :
    (rand next).1.toNat = (rand next).2.toNat % 2 ^ 32 / 65536 % 32768 := by
  generalize hNext : (rand next).2 = after
  have hValue : (rand next).1 = (after / BitVec.ofNat _ 65536).setWidth 32 % 32768 := by
    rw [← hNext]
    rfl
  have hSize : (32768 : BitVec 32).toNat = 32768 := by decide
  rw [hValue, BitVec.toNat_umod, BitVec.toNat_setWidth, BitVec.toNat_udiv,
    toNat_const d (by decide), hSize]
  omega

/-- One call. -/
theorem Alike.rand (h : Alike next next') :
    (rand next).1 = (Klib.rand next').1 ∧ Alike (Klib.rand next).2 (Klib.rand next').2 := by
  have hNext : Alike (Klib.rand next).2 (Klib.rand next').2 := by
    unfold Alike
    rw [next_low, next_low, h]
  refine ⟨?_, hNext⟩
  apply BitVec.eq_of_toNat_eq
  rw [rand_low, rand_low, hNext]

/-- Any number of calls. -/
theorem Alike.kthRand (h : Alike next next') (k : Nat) : kthRand k next = Klib.kthRand k next' := by
  induction k generalizing next next' with
  | zero => exact h.rand.1
  | succ k ih => exact ih h.rand.2

private theorem kthRand_lt (k : Nat) (next : BitVec d.long) : (kthRand k next).toNat < 32768 := by
  induction k generalizing next with
  | zero =>
      show (rand next).1.toNat < 32768
      rw [rand_low]
      omega
  | succ k ih => exact ih (rand next).2

/--
**`rand`.** For every seed, and whatever has been called before, the values that
`rand` returns after `srand` are the same for both widths of `unsigned long`, and
lie between 0 and 32767.
-/
theorem rand_platform_independent (seed : BitVec 32) (k : Nat) (next : BitVec d.long)
    (next' : BitVec d'.long) :
    kthRand k (srand seed next) = kthRand k (srand seed next') ∧
      0 ≤ (kthRand k (srand seed next)).toInt ∧ (kthRand k (srand seed next)).toInt ≤ 32767 := by
  have hLt := kthRand_lt k (srand seed next)
  have hInt := BitVec.toInt_eq_toNat_of_lt (x := kthRand k (srand seed next)) (by omega)
  refine ⟨(srand_alike seed next next').kthRand k, ?_⟩
  omega

end AbstractMachine.Klib
