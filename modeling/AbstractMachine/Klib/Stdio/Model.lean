import Mathlib.Data.Nat.Digits.Defs
import AbstractMachine.Lib.CString

/-!
# Formatted output of klib

`klib/src/stdio.c` over byte-addressed memory.  `size_t` and pointers are words
of `w` bits, and wrap around; `int` has 32.  A `va_list` is what is left of the
arguments, and an argument of another type than the one that `va_arg` names
stops the run.
-/

namespace AbstractMachine.Klib

open AbstractMachine.Lib

/-- A character constant. -/
def chr (c : Char) : BitVec 8 := BitVec.ofNat 8 c.toNat

/-- The one `int` without a magnitude. -/
def INT_MIN : BitVec 32 := 0x80000000

/-- The literal of `int2str`, without its zero byte. -/
def INT_MIN_TEXT : List (BitVec 8) :=
  ['-', '2', '1', '4', '7', '4', '8', '3', '6', '4', '8'].map chr

section

variable {w : Nat}

/-- `stpncpy` from a literal, with its zero byte: `n` counts down. -/
def stpncpy (dst : BitVec w) : List (BitVec 8) → Nat → Store w → BitVec w × Store w
  | c :: src, n + 1, s =>
      if c = 0 then (dst, s.set dst c) else stpncpy (dst + 1) src n (s.set dst c)
  | _, _, s => (dst, s)

/-- `abs`; `INT_MIN` is its own negation. -/
def abs (x : BitVec 32) : BitVec 32 := if x.slt 0 then -x else x

/-- The first loop of `int2str`, as long as `room` places of `buf` are left. -/
def digitLoop : Nat → Nat → List (BitVec 8)
  | 0, _ => []
  | room + 1, tmp =>
      if tmp ≠ 0 then (BitVec.ofNat 8 (tmp % 10) + chr '0') :: digitLoop room (tmp / 10) else []

/-- The second loop of `int2str`, with `idx + 1` digits to go. -/
def copyDigits (buf : List (BitVec 8)) : Nat → Nat → BitVec w → Store w → BitVec w × Store w
  | idx + 1, n + 1, p, s => copyDigits buf idx n (p + 1) (s.set p (buf.getD idx 0))
  | _, _, p, s => (p, s)

/-- The result is at most 11, which `int` and `size_t` both hold. -/
def int2str (p : BitVec w) (v : BitVec 32) (n : BitVec w) (s : Store w) : BitVec w × Store w :=
  if n = 0 ∨ p = 0 then (0, s)
  else if v = 0 then (1, s.set p (chr '0'))
  else if v = INT_MIN then
    let (q, s) := stpncpy p (INT_MIN_TEXT ++ [0]) n.toNat s
    (q - p, s)
  else
    let start := p
    let buf := digitLoop 16 (abs v).toNat
    let (p, n, s) := if v.slt 0 ∧ 0 < n then (p + 1, n - 1, s.set p (chr '-')) else (p, n, s)
    let (p, s) := copyDigits buf buf.length n.toNat p s
    (p - start, s)

/-! ## `vsnprintf` -/

/-- A variadic argument: an `int` (`%d`, `%c`) or a pointer (`%s`). -/
inductive Arg (w : Nat) where
  | int (v : BitVec 32)
  | ptr (p : BitVec w)

/-- The variables of `vsnprintf`, and memory. -/
structure State (w : Nat) where
  store : Store w
  out : BitVec w
  fmt : BitVec w
  count : BitVec w
  ap : List (Arg w)

/-- `*out = c; out++; count++`. -/
def State.putc (s : State w) (c : BitVec 8) : State w :=
  { s with store := s.store.set s.out c, out := s.out + 1, count := s.count + 1 }

/-- The loop of `%s`; `room` is `n - 1 - count`, and counts down. -/
def copyString : Nat → BitVec w → State w → State w
  | 0, _, s => s
  | room + 1, p, s =>
      if s.store.mem p = 0 then s else copyString room (p + 1) (s.putc (s.store.mem p))

/-- One turn of the loop. -/
def body (n : BitVec w) (s : State w) : Option (State w) :=
  let c := s.store.mem s.fmt
  if c = chr '%' then
    let fmt := s.fmt + 1
    let d := s.store.mem fmt
    if d = chr '%' then some { s.putc d with fmt := fmt + 1 }
    else if d = chr 's' then
      match s.ap with
      | .ptr p :: ap =>
          some { copyString (n - 1 - s.count).toNat p s with fmt := fmt + 1, ap := ap }
      | _ => none
    else if d = chr 'd' then
      match s.ap with
      | .int v :: ap =>
          let (int_num, store) := int2str s.out v (n - 1 - s.count) s.store
          some
            { store := store
              out := s.out + int_num
              fmt := fmt + 1
              count := s.count + int_num
              ap := ap }
      | _ => none
    else if d = chr 'c' then
      match s.ap with
      | .int v :: ap => some { s.putc (v.setWidth 8) with fmt := fmt + 1, ap := ap }
      | _ => none
    else some { s with fmt := fmt + 1 }
  else some { s.putc c with fmt := s.fmt + 1 }

/-- The test of the loop. -/
def running (n : BitVec w) (s : State w) : Bool :=
  decide (s.count < n - 1) && decide (s.store.mem s.fmt ≠ 0)

/-- The state after `fuel` turns, or after the last one. -/
def turns (n : BitVec w) : Nat → State w → State w
  | 0, s => s
  | fuel + 1, s =>
      if running n s then
        match body n s with
        | none => s
        | some s' => turns n fuel s'
      else s

/-- The locals of `vsnprintf` at its entry. -/
def enter (out fmt : BitVec w) (ap : List (Arg w)) (m : ByteMem w) : State w where
  store := { mem := m, written := [] }
  out := out
  fmt := fmt
  count := 0
  ap := ap

/-- `size_t` becomes `int` when it is returned. -/
def vsnprintf (fuel : Nat) (out n fmt : BitVec w) (ap : List (Arg w)) (m : ByteMem w) :
    Option (BitVec 32 × Store w) :=
  let s := turns n fuel (enter out fmt ap m)
  if running n s then none else some (s.count.setWidth 32, s.store.set s.out 0)

/-- `snprintf` passes its arguments on. -/
def snprintf (fuel : Nat) (out n fmt : BitVec w) (args : List (Arg w)) (m : ByteMem w) :
    Option (BitVec 32 × Store w) :=
  vsnprintf fuel out n fmt args m

/-- `vsprintf`: no bound, that is `n = -1`. -/
def vsprintf (fuel : Nat) (out fmt : BitVec w) (ap : List (Arg w)) (m : ByteMem w) :
    Option (BitVec 32 × Store w) :=
  vsnprintf fuel out (-1) fmt ap m

end

/-! ## Formats -/

/-- What a format is made of: ordinary characters and complete directives. -/
inductive Piece where
  | ordinary (c : BitVec 8) (h : c ≠ 0 ∧ c ≠ chr '%')
  | directive (d : BitVec 8) (h : d ≠ 0)

/-- The format text of a piece. -/
def Piece.bytes : Piece → List (BitVec 8)
  | .ordinary c _ => [c]
  | .directive d _ => [chr '%', d]

/-- The format text of a list of pieces. -/
def bytes (ps : List Piece) : List (BitVec 8) := ps.flatMap Piece.bytes

/-- What an argument stands for. -/
inductive Value where
  | int (v : BitVec 32)
  | str (l : List (BitVec 8))

/-- The decimal numeral. -/
def decimal (v : Int) : List (BitVec 8) :=
  (if v < 0 then [chr '-'] else []) ++
    if v = 0 then [chr '0']
    else ((Nat.digits 10 v.natAbs).map fun k => BitVec.ofNat 8 k + chr '0').reverse

/-- What one piece becomes, and the values left; `none` for values that do not
match. -/
def Piece.expand : Piece → List Value → Option (List (BitVec 8) × List Value)
  | .ordinary c _, vs => some ([c], vs)
  | .directive d _, vs =>
      if d = chr '%' then some ([chr '%'], vs)
      else if d = chr 's' then
        match vs with
        | .str l :: vs => some (l, vs)
        | _ => none
      else if d = chr 'd' then
        match vs with
        | .int v :: vs => some (decimal v.toInt, vs)
        | _ => none
      else if d = chr 'c' then
        match vs with
        | .int v :: vs => some ([v.setWidth 8], vs)
        | _ => none
      else some ([], vs)

/-- The text that a format stands for. -/
def expand : List Piece → List Value → Option (List (BitVec 8))
  | [], _ => some []
  | p :: ps, vs =>
      match p.expand vs with
      | none => none
      | some (l, vs) => (expand ps vs).map (l ++ ·)

end AbstractMachine.Klib
