import AbstractMachine.Klib.String.Model

/-!
# What `memcpy` does

`memcpy` copies from the end down.  Ranges that do not wrap and do not overlap
are copied whole; of ranges that overlap nothing is copied at all, unless they
are equal, when there is nothing to copy.
-/

namespace AbstractMachine.Klib

open AbstractMachine.Lib
open AbstractMachine.Lib.ByteMem

section

variable {w : Nat} {m : ByteMem w}

/-- The memory after the `n` bytes at `src` have been copied to `dest`. -/
def copied (dest src : BitVec w) (n : Nat) (m : ByteMem w) : ByteMem w := fun x =>
  if InBlock dest n x then m (src + (x - dest)) else m x

private theorem copied_zero (dest src : BitVec w) : copied dest src 0 m = m := by
  funext x
  exact if_neg (Nat.not_lt_zero _)

theorem copied_in {dest src x : BitVec w} {n : Nat} (hx : InBlock dest n x) :
    copied dest src n m x = m (src + (x - dest)) := if_pos hx

theorem copied_out {dest src x : BitVec w} {n : Nat} (hx : ¬ InBlock dest n x) :
    copied dest src n m x = m x := if_neg hx

/-- What a move has to do: the bytes of the source, as they were, are at the
destination, and nothing else changes. -/
structure Moved (dst src : BitVec w) (n : Nat) (m m' : ByteMem w) : Prop where
  bytes : ∀ i, i < n → m' (dst + BitVec.ofNat w i) = m (src + BitVec.ofNat w i)
  outside : ∀ x, ¬ InBlock dst n x → m' x = m x

theorem moved_copied {dst src : BitVec w} {k : Nat} (hFit : k ≤ 2 ^ w) :
    Moved dst src k m (copied dst src k m) where
  bytes := by
    intro i hi
    rw [copied_in (inBlock_offset hi hFit), add_sub_self]
  outside := fun _ hx => copied_out hx

/-! ## Ends of ranges -/

/-- The address of byte `n` of a range, as the code computes it. -/
theorem add_succ_sub_one (a : BitVec w) (n : Nat) :
    a + BitVec.ofNat w (n + 1) - 1#w = a + BitVec.ofNat w n := by
  rw [BitVec.ofNat_add, ← BitVec.add_assoc, BitVec.add_sub_cancel]

/-- The last byte of a range, or the byte before an empty one. -/
theorem toNat_last {a n : BitVec w} (hFit : a.toNat + n.toNat ≤ 2 ^ w)
    (hPos : 0 < a.toNat + n.toNat) : (a + n - 1#w).toNat = a.toNat + n.toNat - 1 := by
  have hEq : a + n - 1#w = BitVec.ofNat w (a.toNat + n.toNat - 1) := by
    obtain ⟨k, hk⟩ : ∃ k, a.toNat + n.toNat = k + 1 := ⟨a.toNat + n.toNat - 1, by omega⟩
    have hSum : a + n = BitVec.ofNat w k + 1#w := by
      apply BitVec.eq_of_toNat_eq
      rw [BitVec.toNat_add, hk, ← BitVec.ofNat_add, BitVec.toNat_ofNat]
    rw [hSum, BitVec.add_sub_cancel, hk, Nat.add_sub_cancel]
  rw [hEq, BitVec.toNat_ofNat]
  exact Nat.mod_eq_of_lt (by omega)

/-! ## The loop -/

/-- One more byte at the end. -/
theorem inBlock_succ {a x : BitVec w} {n : Nat} (hFit : n < 2 ^ w) :
    InBlock a (n + 1) x ↔ InBlock a n x ∨ x = a + BitVec.ofNat w n := by
  have hLast : (x - a).toNat = n ↔ x = a + BitVec.ofNat w n := by
    constructor
    · intro h
      rw [← h, BitVec.ofNat_toNat, BitVec.setWidth_eq, BitVec.add_comm, BitVec.sub_add_cancel]
    · rintro rfl
      rw [add_sub_self, BitVec.toNat_ofNat, Nat.mod_eq_of_lt hFit]
  unfold InBlock
  rw [← hLast]
  omega

private theorem memcpyLoop_eq {dest src : BitVec w} {n : Nat} (hFit : n ≤ 2 ^ w)
    (hApart : Apart src n dest n) : memcpyLoop dest src n m = copied dest src n m := by
  induction n generalizing m with
  | zero => rw [memcpyLoop, copied_zero]
  | succ n ih =>
      have hSub : Apart src n dest n := by
        intro x hx hx'
        exact hApart x ((inBlock_succ (by omega)).mpr (.inl hx))
          ((inBlock_succ (by omega)).mpr (.inl hx'))
      rw [memcpyLoop, ih (by omega) hSub, add_succ_sub_one, add_succ_sub_one]
      funext x
      by_cases hx : InBlock dest n x
      · -- the byte read is not the one just written
        have hRead : src + (x - dest) ≠ dest + BitVec.ofNat w n := by
          intro hEq
          apply hApart (src + (x - dest))
          · unfold InBlock at hx ⊢
            rw [add_sub_self]
            omega
          · rw [hEq]
            exact (inBlock_succ (by omega)).mpr (.inr rfl)
        rw [copied_in hx, copied_in ((inBlock_succ (by omega)).mpr (.inl hx)),
          Function.update_of_ne hRead]
      · rw [copied_out hx]
        by_cases hLast : x = dest + BitVec.ofNat w n
        · rw [copied_in ((inBlock_succ (by omega)).mpr (.inr hLast)), hLast,
            Function.update_self, add_sub_self]
        · rw [Function.update_of_ne hLast, copied_out]
          intro hIn
          cases (inBlock_succ (by omega)).mp hIn with
          | inl h => exact hx h
          | inr h => exact hLast h

/-! ## The call -/

/-- **`memcpy`** copies a range that neither wraps nor overlaps. -/
theorem memcpy_copies {out src n : BitVec w} (hOut : out.toNat + n.toNat ≤ 2 ^ w)
    (hSrc : src.toNat + n.toNat ≤ 2 ^ w)
    (hLe : out.toNat + n.toNat ≤ src.toNat ∨ src.toNat + n.toNat ≤ out.toNat) :
    (memcpy out src n m).2 = copied out src n.toNat m := by
  have hLoop : memcpyLoop out src n.toNat m = copied out src n.toNat m := by
    apply memcpyLoop_eq (by omega)
    exact (apart_of_le hOut hSrc hLe).symm
  by_cases hn : n.toNat = 0
  · -- whatever the guard says
    rw [hn] at hLoop ⊢
    rw [copied_zero] at hLoop ⊢
    unfold memcpy
    rw [hn, hLoop]
    split
    · rfl
    · split <;> rfl
  · have hNe : out ≠ src := by
      rintro rfl
      omega
    unfold memcpy
    rw [if_neg hNe, if_pos, hLoop]
    simp only [GT.gt, BitVec.lt_def, toNat_last hOut (by omega), toNat_last hSrc (by omega)]
    omega

/-- `memcpy` leaves ranges that overlap as they are. -/
theorem memcpy_refuses {out src n : BitVec w} (hOut : out.toNat + n.toNat ≤ 2 ^ w)
    (hSrc : src.toNat + n.toNat ≤ 2 ^ w)
    (hOver : out.toNat < src.toNat + n.toNat ∧ src.toNat < out.toNat + n.toNat) :
    (memcpy out src n m).2 = m := by
  unfold memcpy
  split
  · rfl
  · rw [if_neg]
    simp only [GT.gt, BitVec.lt_def, toNat_last hOut (by omega), toNat_last hSrc (by omega)]
    omega

private theorem memcpy_returns (out src n : BitVec w) (m : ByteMem w) :
    (memcpy out src n m).1 = out := by
  unfold memcpy
  split
  · rfl
  · split <;> rfl

/--
**`memcpy`.** For ranges that do not wrap, adjacent and empty ones among them:
`memcpy` copies all bytes and changes nothing else if no byte is in both, and
changes nothing at all otherwise.  It returns `out` either way.
-/
theorem memcpy_copies_or_refuses (out src n : BitVec w) (m : ByteMem w)
    (hOut : out.toNat + n.toNat ≤ 2 ^ w) (hSrc : src.toNat + n.toNat ≤ 2 ^ w) :
    (memcpy out src n m).1 = out ∧
      (Apart out n.toNat src n.toNat → Moved out src n.toNat m (memcpy out src n m).2) ∧
      (¬ Apart out n.toNat src n.toNat → (memcpy out src n m).2 = m) := by
  refine ⟨memcpy_returns out src n m, ?_, ?_⟩
  · intro hApart
    have hLe := (apart_iff hOut hSrc).mp hApart
    rw [memcpy_copies hOut hSrc (by omega)]
    exact moved_copied (Nat.le_of_lt n.isLt)
  · intro hOver
    rw [apart_iff hOut hSrc] at hOver
    exact memcpy_refuses hOut hSrc (by omega)

/-- Four bytes are copied right behind themselves. -/
theorem memcpy_copies_or_refuses_adjacent :
    (memcpy 0x1004#32 0x1000 4 fun x => x.setWidth 8).1 = 0x1004 ∧
      Moved 0x1004#32 0x1000 4 (fun x => x.setWidth 8)
        (memcpy 0x1004#32 0x1000 4 fun x => x.setWidth 8).2 := by
  obtain ⟨hRet, hCopies, -⟩ := memcpy_copies_or_refuses 0x1004#32 0x1000 4 (fun x => x.setWidth 8)
    (by decide) (by decide)
  exact ⟨hRet, hCopies ((apart_iff (by decide) (by decide)).mpr (by decide))⟩

end

end AbstractMachine.Klib
