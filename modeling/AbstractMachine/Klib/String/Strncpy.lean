import AbstractMachine.Klib.Stdio.Int2str

/-!
# `strncpy` and `stpncpy` of klib

Both copy at most `n` characters.  `strncpy` puts NULs behind a shorter string up
to the `n`-th byte, and `stpncpy` one NUL only, so that the rest stays as it was.
-/

namespace AbstractMachine.Klib.Strings

open AbstractMachine.Lib
open AbstractMachine.Lib.ByteMem (InBlock)

variable {w : Nat}

/-! ## The functions -/

/-- The loop of `stpncpy`: `n` counts down. -/
def stpncpyLoop : BitVec w → BitVec w → Nat → Store w → BitVec w × Store w
  | dst, _, 0, s => (dst, s)
  | dst, src, n + 1, s =>
      let c := s.mem src
      let s := s.set dst c
      if c ≠ 0 then stpncpyLoop (dst + 1) (src + 1) n s else (dst, s)

/-- `stpncpy`, which returns where the copy stopped. -/
def stpncpy (dst src n : BitVec w) (s : Store w) : BitVec w × Store w :=
  stpncpyLoop dst src n.toNat s

/-- The inner loop of `strncpy`, with `k` more bytes up to `n`. -/
def padLoop (dst : BitVec w) : Nat → BitVec w → Store w → Store w
  | 0, _, s => s
  | k + 1, i, s => padLoop dst k (i + 1) (s.set (dst + i) 0)

/-- The outer loop of `strncpy`. -/
def strncpyLoop (dst src : BitVec w) : Nat → BitVec w → Store w → Store w
  | 0, _, s => s
  | k + 1, i, s =>
      if s.mem (src + i) ≠ 0 then
        strncpyLoop dst src k (i + 1) (s.set (dst + i) (s.mem (src + i)))
      else padLoop dst (k + 1) i s

/-- `strncpy`, which returns `dst` and pads. -/
def strncpy (dst src n : BitVec w) (s : Store w) : BitVec w × Store w :=
  (dst, strncpyLoop dst src n.toNat 0#w s)

/-! ## What is put -/

variable {dst src i n x : BitVec w} {s s' : Store w} {l : List (BitVec 8)} {k : Nat}
  {R : BitVec w → Prop}

/-- The same as from a literal. -/
theorem stpncpyLoop_literal (h : Stored R s.mem src l)
    (hR : ∀ j, j < k → R (dst + BitVec.ofNat w j)) :
    stpncpyLoop dst src k s = Klib.stpncpy dst (l ++ [0]) k s := by
  induction l generalizing dst src k s with
  | nil =>
      cases k with
      | zero => rfl
      | succ k =>
          have hNul : s.mem src = 0 := h.2
          show (if s.mem src ≠ 0 then _ else _) = _
          rw [if_neg (not_not_intro hNul), hNul]
          rfl
  | cons c l ih =>
      cases k with
      | zero => rfl
      | succ k =>
          obtain ⟨-, hChar, hc, hRest⟩ := h
          obtain ⟨hFirst, hLater⟩ := Store.forall_offset_succ.mp hR
          show (if s.mem src ≠ 0 then _ else _) = (if c = 0 then _ else _)
          rw [hChar, if_pos hc, if_neg hc]
          exact ih (hRest.set hFirst) hLater

theorem stpncpy_put (h : Stored (InBlock dst n.toNat) s.mem src l) :
    stpncpy dst src n s =
      (dst + BitVec.ofNat w (l.take n.toNat).length,
        s.put dst (l.take n.toNat ++ if l.length < n.toNat then [0] else [])) := by
  have hLiteral : stpncpy dst src n s = Klib.stpncpy dst (l ++ [0]) n.toNat s :=
    stpncpyLoop_literal h fun j hj => ByteMem.inBlock_offset hj (Nat.le_of_lt n.isLt)
  rw [hLiteral, Klib.stpncpy_put l h.chars]

private theorem padLoop_put : padLoop dst k i s = s.put (dst + i) (List.replicate k 0) := by
  induction k generalizing i s with
  | zero => rfl
  | succ k ih =>
      rw [padLoop, ih, List.replicate_succ, Store.put_cons, BitVec.add_assoc]

/-- The first `k` characters of `l`, and NULs up to `k`. -/
def padded (l : List (BitVec 8)) (k : Nat) : List (BitVec 8) :=
  l.take k ++ List.replicate (k - l.length) 0

private theorem padded_zero (l : List (BitVec 8)) : padded l 0 = [] := by
  unfold padded
  rw [List.take_zero, Nat.zero_sub]
  rfl

private theorem strncpyLoop_put (h : Stored R s.mem (src + i) l)
    (hR : ∀ j, j < k → R (dst + i + BitVec.ofNat w j)) :
    strncpyLoop dst src k i s = s.put (dst + i) (padded l k) := by
  induction l generalizing i k s with
  | nil =>
      cases k with
      | zero => rfl
      | succ k =>
          have hNul : s.mem (src + i) = 0 := h.2
          rw [strncpyLoop, if_neg (not_not_intro hNul), padLoop_put]
          rfl
  | cons c l ih =>
      cases k with
      | zero =>
          rw [padded_zero]
          rfl
      | succ k =>
          obtain ⟨-, hChar, hc, hRest⟩ := h
          obtain ⟨hFirst, hLater⟩ := Store.forall_offset_succ.mp hR
          have hPadded : padded (c :: l) (k + 1) = c :: padded l k := by
            unfold padded
            rw [List.take_succ_cons, List.length_cons, Nat.succ_sub_succ, List.cons_append]
          rw [BitVec.add_assoc] at hRest hLater
          rw [strncpyLoop, hChar, if_pos hc, hPadded, Store.put_cons, BitVec.add_assoc]
          exact ih (hRest.set hFirst) hLater

private theorem strncpy_put (h : Stored (InBlock dst n.toNat) s.mem src l) :
    strncpy dst src n s = (dst, s.put dst (padded l n.toNat)) := by
  have hLoop : strncpyLoop dst src n.toNat 0#w s = s.put (dst + 0#w) (padded l n.toNat) := by
    apply strncpyLoop_put (R := InBlock dst n.toNat)
    · rwa [BitVec.add_zero]
    · intro j hj
      rw [BitVec.add_zero]
      exact ByteMem.inBlock_offset hj (Nat.le_of_lt n.isLt)
  unfold strncpy
  rw [hLoop, BitVec.add_zero]

/-! ## The two copies -/

/-- From `s` on, only the first `n` bytes at `dst` have been written, and they hold
`l`, cut or padded with NULs. -/
structure Filled (dst : BitVec w) (n : Nat) (l : List (BitVec 8)) (s s' : Store w) : Prop where
  bytes : ∀ i, i < n → s'.mem (dst + BitVec.ofNat w i) = l.getD i 0
  outside : ∀ x, ¬ InBlock dst n x → s'.mem x = s.mem x
  written : ∀ x ∈ s'.written, x ∈ s.written ∨ InBlock dst n x

/-- What a text of at most `n` bytes leaves alone. -/
theorem put_within (s : Store w) (dst : BitVec w) {t : List (BitVec 8)} (ht : t.length ≤ k)
    (hk : k ≤ 2 ^ w) :
    (∀ x, ¬ InBlock dst k x → (s.put dst t).mem x = s.mem x) ∧
      ∀ x ∈ (s.put dst t).written, x ∈ s.written ∨ InBlock dst k x := by
  constructor
  · intro x hx
    apply Store.put_outside
    rintro i hi rfl
    exact hx (ByteMem.inBlock_offset (Nat.lt_of_lt_of_le hi ht) hk)
  · intro x hx
    rcases Store.mem_put_written.mp hx with hOld | ⟨i, hi, rfl⟩
    · exact Or.inl hOld
    · exact Or.inr (ByteMem.inBlock_offset (Nat.lt_of_lt_of_le hi ht) hk)

private theorem length_padded (l : List (BitVec 8)) (k : Nat) : (padded l k).length = k := by
  unfold padded
  rw [List.length_append, List.length_take, List.length_replicate]
  omega

/-- A cut string with NULs behind it. -/
theorem getD_take_zeros {j : Nat} (r : Nat) (hj : j < k) :
    (l.take k ++ List.replicate r 0).getD j 0 = l.getD j 0 := by
  by_cases hLen : j < l.length
  · have hTake : j < (l.take k).length := by
      rw [List.length_take]
      omega
    rw [List.getD_append _ _ _ _ hTake, List.getD_eq_getElem _ _ hTake, List.getElem_take,
      List.getD_eq_getElem _ _ hLen]
  · have hTake : (l.take k).length ≤ j := by
      rw [List.length_take]
      omega
    rw [List.getD_append_right _ _ _ _ hTake, List.getD_eq_default _ _ (Nat.le_of_not_lt hLen)]
    by_cases hZero : j - (l.take k).length < r
    · exact List.getD_replicate 0 hZero
    · exact List.getD_eq_default _ _ (by rw [List.length_replicate]; omega)

/-- A byte of a text, when something else may follow. -/
theorem put_byte {t : List (BitVec 8)} {j : Nat} (ht : t.length ≤ k) (hk : k ≤ 2 ^ w)
    (hj : j < t.length) : (s.put dst t).mem (dst + BitVec.ofNat w j) = t.getD j 0 := by
  rw [Store.put_inside (Nat.le_trans ht hk) hj, List.getD_eq_getElem _ _ hj]

private theorem strncpy_filled (h : Stored (InBlock dst n.toNat) s.mem src l) :
    Filled dst n.toNat l s (strncpy dst src n s).2 := by
  have hn : n.toNat ≤ 2 ^ w := Nat.le_of_lt n.isLt
  have hLen : (padded l n.toNat).length = n.toNat := length_padded l n.toNat
  have hWithin := put_within s dst (Nat.le_of_eq hLen) hn
  rw [strncpy_put h]
  refine ⟨?_, hWithin.1, hWithin.2⟩
  intro i hi
  rw [put_byte (Nat.le_of_eq hLen) hn (by omega)]
  exact getD_take_zeros _ hi

/-- The first `k` characters of `l`, and one NUL if there is room. -/
def ended (l : List (BitVec 8)) (k : Nat) : List (BitVec 8) :=
  l.take k ++ if l.length < k then [0] else []

private theorem length_ended (l : List (BitVec 8)) (k : Nat) :
    (ended l k).length = min k (l.length + 1) := by
  unfold ended
  rw [List.length_append, List.length_take]
  split
  · rw [List.length_singleton]
    omega
  · rw [List.length_nil]
    omega

private theorem getD_ended {j : Nat} (hj : j < k) : (ended l k).getD j 0 = l.getD j 0 := by
  unfold ended
  split
  · exact getD_take_zeros 1 hj
  · exact getD_take_zeros 0 hj

private theorem stpncpy_ended (h : Stored (InBlock dst n.toNat) s.mem src l) :
    stpncpy dst src n s =
      (dst + BitVec.ofNat w (min n.toNat l.length), s.put dst (ended l n.toNat)) := by
  rw [stpncpy_put h, List.length_take]
  rfl

/-- Behind the NUL `stpncpy` leaves what was there. -/
theorem stpncpy_bytes (h : Stored (InBlock dst n.toNat) s.mem src l) {i : Nat}
    (hi : i < n.toNat) :
    (stpncpy dst src n s).2.mem (dst + BitVec.ofNat w i) =
      if l.length < i then s.mem (dst + BitVec.ofNat w i) else l.getD i 0 := by
  have hn : n.toNat ≤ 2 ^ w := Nat.le_of_lt n.isLt
  have hLen := length_ended l n.toNat
  rw [stpncpy_ended h]
  show (s.put dst (ended l n.toNat)).mem (dst + BitVec.ofNat w i) = _
  split
  · rename_i hBehind
    apply Store.put_outside
    intro j hj hEq
    have hSame : i = j := ByteMem.eq_of_offset (by omega) (by omega) hEq
    omega
  · rw [put_byte (k := n.toNat) (by omega) hn (by omega), getD_ended hi]

/-! ## Agreement -/

/-- `strncpy` and `stpncpy` both fill the `n` bytes at `dst` with `l`, and
`stpncpy` returns the end of it. -/
structure Agree (dst src n : BitVec w) (l : List (BitVec 8)) (s : Store w) : Prop where
  strncpy : Filled dst n.toNat l s (strncpy dst src n s).2
  stpncpy : Filled dst n.toNat l s (stpncpy dst src n s).2
  returns : (Strings.stpncpy dst src n s).1 = dst + BitVec.ofNat w (min n.toNat l.length)

/--
**`strncpy` and `stpncpy`.** The two leave the same `n` bytes only where those
behind the string's NUL were NULs before: `stpncpy` does not pad.
-/
theorem agree_iff (h : Stored (InBlock dst n.toNat) s.mem src l) :
    Agree dst src n l s ↔
      ∀ i, l.length < i → i < n.toNat → s.mem (dst + BitVec.ofNat w i) = 0 := by
  have hEnded := stpncpy_ended h
  constructor
  · intro hAgree i hLow hHigh
    have hByte := hAgree.stpncpy.bytes i hHigh
    rwa [stpncpy_bytes h hHigh, if_pos hLow, List.getD_eq_default _ _ (Nat.le_of_lt hLow)]
      at hByte
  · intro hZero
    have hLen : (ended l n.toNat).length ≤ n.toNat := by
      rw [length_ended]
      exact Nat.min_le_left _ _
    have hWithin := put_within s dst hLen (Nat.le_of_lt n.isLt)
    refine ⟨strncpy_filled h, ⟨?_, ?_, ?_⟩, by rw [hEnded]⟩
    · intro i hi
      rw [stpncpy_bytes h hi]
      split
      · rename_i hBehind
        rw [hZero i hBehind hi, List.getD_eq_default _ _ (Nat.le_of_lt hBehind)]
      · rfl
    · rw [hEnded]
      exact hWithin.1
    · rw [hEnded]
      exact hWithin.2

/-- Memory with `c` at every address but that of an empty string. -/
def emptyAt (src : BitVec w) (c : BitVec 8) : Store w where
  mem x := if x = src then 0 else c
  written := []

private theorem stored_emptyAt {c : BitVec 8} (hR : ¬ R src) :
    Stored R (emptyAt src c).mem src [] :=
  ⟨hR, if_pos rfl⟩

/-- Into four bytes that are zero already. -/
theorem agree_iff_zero : Agree 0x2000#32 0x1000 4 [] (emptyAt 0x1000 0) := by
  apply (agree_iff (stored_emptyAt (by decide))).mpr
  intro i _ _
  exact ite_self 0

/-- `stpncpy` leaves the second of two bytes. -/
theorem stpncpy_not_padded :
    ¬ ∀ (dst src n : BitVec 32) (l : List (BitVec 8)) (s : Store 32),
      Stored (InBlock dst n.toNat) s.mem src l → Agree dst src n l s := by
  intro hAll
  have hAgree := hAll 0x2000 0x1000 2 [] (emptyAt 0x1000 1) (stored_emptyAt (by decide))
  exact absurd (hAgree.stpncpy.bytes 1 (by decide)) (by decide)

end AbstractMachine.Klib.Strings
