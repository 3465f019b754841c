import AbstractMachine.Klib.Stdio.Vsnprintf

/-!
# What `snprintf` returns

The loop counts the characters that it stores, and stops at the end of the
buffer: the result is what `printf` goes by when it puts them out.  The length of
the whole text is only returned when there is room for it, as there is for
`sprintf`.
-/

namespace AbstractMachine.Klib

open AbstractMachine.Lib

variable {w : Nat}

/-- `sprintf` passes its arguments on. -/
def sprintf (fuel : Nat) (out fmt : BitVec w) (args : List (Arg w)) (m : ByteMem w) :
    Option (BitVec 32 × Store w) :=
  vsprintf fuel out fmt args m

/-- A buffer at `out` with room for `len` characters and the terminator, with the
format and the arguments apart from it. -/
structure Call (out fmt : BitVec w) (ap : List (Arg w)) (m : ByteMem w) (ps : List Piece)
    (vs : List Value) (len : Nat) : Prop where
  nonnull : out ≠ 0
  object : out.toNat + len < 2 ^ w
  format : Stored (ByteMem.InBlock out (len + 1)) m fmt (bytes ps)
  args : List.Forall₂ (Holds (ByteMem.InBlock out (len + 1)) m) ap vs

variable {out fmt : BitVec w} {ap : List (Arg w)} {m : ByteMem w} {ps : List Piece}
  {vs : List Value} {text : List (BitVec 8)} {len fuel : Nat}

/-- The size that `vsprintf` passes is no bound. -/
theorem neg_one_unbounded (hOut : out ≠ 0) (hObject : out.toNat + len < 2 ^ w) :
    (-1 : BitVec w) ≠ 0 ∧ len ≤ (-1 : BitVec w).toNat - 1 := by
  have hPos := toNat_pos hOut
  have hMax := toNat_neg_one w
  constructor
  · intro hZero
    rw [hZero, toNat_zero] at hMax
    omega
  · omega

/-- The results of two calls, as long as the text has a length that is an `int`. -/
theorem result_eq_iff {k : Nat} (hLen : len < 2 ^ 31) :
    BitVec.ofNat 32 (min k len) = BitVec.ofNat 32 len ↔ len ≤ k := by
  constructor
  · intro hEq
    have hNat := congrArg BitVec.toNat hEq
    rw [BitVec.toNat_ofNat, BitVec.toNat_ofNat, Nat.mod_eq_of_lt (by omega),
      Nat.mod_eq_of_lt (by omega)] at hNat
    omega
  · intro hLe
    rw [Nat.min_eq_right hLe]

end AbstractMachine.Klib
