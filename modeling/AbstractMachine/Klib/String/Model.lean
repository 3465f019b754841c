import AbstractMachine.Lib.ByteMem
import Mathlib.Logic.Function.Basic

/-!
# `memcpy` and `memmove` of klib

`klib/src/string.c` over byte-addressed memory.  `size_t` and pointers are
words of `w` bits, and wrap around.  Both functions return a pointer and leave
a memory.
-/

namespace AbstractMachine.Klib

open AbstractMachine.Lib

section

variable {w : Nat}

/-- The loop of `memcpy`: `n` counts down. -/
def memcpyLoop (dest src : BitVec w) : Nat → ByteMem w → ByteMem w
  | 0, m => m
  | n + 1, m =>
      memcpyLoop dest src n
        (Function.update m (dest + BitVec.ofNat w (n + 1) - 1#w)
          (m (src + BitVec.ofNat w (n + 1) - 1#w)))

/-- `memcpy`; ranges that overlap are not copied. -/
def memcpy (out src n : BitVec w) (m : ByteMem w) : BitVec w × ByteMem w :=
  if out = src then (out, m)
  else if out > src ∧ src + n - 1#w < out ∨ src > out ∧ out + n - 1#w < src then
    (out, memcpyLoop out src n.toNat m)
  else (out, m)

/-- `memmove`: two calls of `memcpy` where the ranges overlap, one where they do not. -/
def memmove (dst src n : BitVec w) (m : ByteMem w) : BitVec w × ByteMem w :=
  if dst = src then (dst, m)
  else
    let s := src
    let d := dst
    if s > d ∧ d + n - 1#w ≥ s then
      let overlap_n := d + n - s
      let m := (memcpy dst src overlap_n m).2
      let m := (memcpy (s + overlap_n) (d + overlap_n) (n - overlap_n) m).2
      (dst, m)
    else if d > s ∧ s + n - 1#w ≥ d then
      let overlap_n := s + n - d
      let m := (memcpy (d + n - overlap_n) dst overlap_n m).2
      let m := (memcpy dst src (n - overlap_n) m).2
      (dst, m)
    else
      (dst, (memcpy dst src n m).2)

end

end AbstractMachine.Klib
