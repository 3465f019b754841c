import Mathlib.Data.List.GetD
import Mathlib.Logic.Function.Basic
import AbstractMachine.Lib.ByteMem

/-!
# Strings in memory

A memory that remembers which bytes have been written, texts that are put into
it one byte after another, and strings that end with a zero byte.  A string
that lies outside of what is written stays what it is.
-/

namespace AbstractMachine.Lib

variable {w : Nat}

/-- A memory, and the addresses written so far. -/
structure Store (w : Nat) where
  mem : ByteMem w
  written : List (BitVec w)

namespace Store

/-- A store of one byte, recorded. -/
def set (s : Store w) (p : BitVec w) (c : BitVec 8) : Store w :=
  { mem := Function.update s.mem p c, written := p :: s.written }

/-- The text `l` from `p` on. -/
def put (s : Store w) (p : BitVec w) : List (BitVec 8) → Store w
  | [] => s
  | c :: l => (s.set p c).put (p + 1) l

@[simp] theorem put_nil (s : Store w) (p : BitVec w) : s.put p [] = s := rfl

theorem put_cons (s : Store w) (p : BitVec w) (c : BitVec 8) (l : List (BitVec 8)) :
    s.put p (c :: l) = (s.set p c).put (p + 1) l := rfl

/-- One step further. -/
theorem add_one_ofNat (p : BitVec w) (k : Nat) :
    p + 1 + BitVec.ofNat w k = p + BitVec.ofNat w (k + 1) := by
  rw [BitVec.add_assoc, BitVec.add_comm 1, ← BitVec.ofNat_add_ofNat]
  rfl

/-- What holds at each of `k + 1` places, from the first one on. -/
theorem forall_offset_succ {p : BitVec w} {k : Nat} {P : BitVec w → Prop} :
    (∀ j, j < k + 1 → P (p + BitVec.ofNat w j)) ↔
      P p ∧ ∀ j, j < k → P (p + 1 + BitVec.ofNat w j) := by
  constructor
  · intro hAll
    have hFirst := hAll 0 (Nat.succ_pos k)
    rw [BitVec.add_zero] at hFirst
    refine ⟨hFirst, fun j hj => ?_⟩
    rw [add_one_ofNat]
    exact hAll (j + 1) (Nat.succ_lt_succ hj)
  · rintro ⟨hFirst, hRest⟩ j hj
    cases j with
    | zero => rwa [BitVec.add_zero]
    | succ j =>
        rw [← add_one_ofNat]
        exact hRest j (Nat.lt_of_succ_lt_succ hj)

theorem put_append (s : Store w) (p : BitVec w) (l l' : List (BitVec 8)) :
    s.put p (l ++ l') = (s.put p l).put (p + BitVec.ofNat w l.length) l' := by
  induction l generalizing s p with
  | nil => rw [List.length_nil, BitVec.add_zero]; rfl
  | cons c l ih =>
      rw [List.cons_append, put_cons, put_cons, ih, add_one_ofNat]
      rfl

variable {s s' : Store w} {p x : BitVec w} {c : BitVec 8} {l : List (BitVec 8)} {i : Nat}

/-- Every byte of a text is written, and nothing else. -/
theorem mem_put_written :
    x ∈ (s.put p l).written ↔ x ∈ s.written ∨ ∃ i, i < l.length ∧ x = p + BitVec.ofNat w i := by
  induction l generalizing s p with
  | nil => simp
  | cons c l ih =>
      rw [put_cons, ih]
      show x ∈ p :: s.written ∨ _ ↔ _
      rw [List.mem_cons, or_comm (a := x = p), or_assoc]
      apply or_congr_right
      constructor
      · rintro (rfl | ⟨i, hi, rfl⟩)
        · exact ⟨0, Nat.succ_pos _, (BitVec.add_zero _).symm⟩
        · exact ⟨i + 1, Nat.succ_lt_succ hi, add_one_ofNat p i⟩
      · rintro ⟨i, hi, rfl⟩
        cases i with
        | zero => exact Or.inl (BitVec.add_zero _)
        | succ i => exact Or.inr ⟨i, Nat.lt_of_succ_lt_succ hi, (add_one_ofNat p i).symm⟩

/-- A byte that is not written stays. -/
theorem put_outside (h : ∀ i, i < l.length → x ≠ p + BitVec.ofNat w i) :
    (s.put p l).mem x = s.mem x := by
  induction l generalizing s p with
  | nil => rfl
  | cons c l ih =>
      obtain ⟨hFirst, hRest⟩ := forall_offset_succ.mp h
      rw [put_cons, ih hRest]
      exact Function.update_of_ne hFirst ..

/-- The bytes of a text that is not longer than the memory. -/
theorem put_inside (hFit : l.length ≤ 2 ^ w) (hi : i < l.length) :
    (s.put p l).mem (p + BitVec.ofNat w i) = l[i] := by
  induction l generalizing s p i with
  | nil => cases hi
  | cons c l ih =>
      have hLen : (c :: l).length = l.length + 1 := List.length_cons
      rw [hLen] at hi hFit
      cases i with
      | zero =>
          rw [put_cons, put_outside]
          · rw [BitVec.add_zero]
            exact Function.update_self ..
          · intro j hj hEq
            rw [add_one_ofNat] at hEq
            have hZero : 0 = j + 1 := ByteMem.eq_of_offset (by omega) (by omega) hEq
            omega
      | succ i =>
          rw [put_cons, ← add_one_ofNat]
          exact ih (by omega) (by omega)

theorem put_congr (h : s.mem = s'.mem) : (s.put p l).mem = (s'.put p l).mem := by
  induction l generalizing s s' p with
  | nil => exact h
  | cons c l ih =>
      rw [put_cons, put_cons]
      apply ih
      show Function.update s.mem p c = Function.update s'.mem p c
      rw [h]

/-- What stood at the first place of a text does not matter. -/
theorem put_first (hSome : l ≠ []) (h : ∀ x, x ≠ p → s.mem x = s'.mem x) :
    (s.put p l).mem = (s'.put p l).mem := by
  cases l with
  | nil => exact absurd rfl hSome
  | cons c l =>
      rw [put_cons, put_cons]
      apply put_congr
      funext x
      show Function.update s.mem p c x = Function.update s'.mem p c x
      by_cases hx : x = p
      · rw [hx, Function.update_self, Function.update_self]
      · rw [Function.update_of_ne hx, Function.update_of_ne hx]
        exact h x hx

end Store

/-! ## Strings -/

/-- `l`, without a zero byte, stands at `p` and is followed by one, outside of
`R`. -/
def Stored (R : BitVec w → Prop) (m : ByteMem w) (p : BitVec w) : List (BitVec 8) → Prop
  | [] => ¬ R p ∧ m p = 0
  | c :: l => ¬ R p ∧ m p = c ∧ c ≠ 0 ∧ Stored R m (p + 1) l

variable {R R' : BitVec w → Prop} {m m' : ByteMem w} {p : BitVec w} {l l' : List (BitVec 8)}

theorem Stored.frame (h : ∀ x, ¬ R x → m' x = m x) (hl : Stored R m p l) : Stored R m' p l := by
  induction l generalizing p with
  | nil => exact ⟨hl.1, (h p hl.1).trans hl.2⟩
  | cons c l ih => exact ⟨hl.1, (h p hl.1).trans hl.2.1, hl.2.2.1, ih hl.2.2.2⟩

/-- A string stays while bytes of `R` are written. -/
theorem Stored.set {s : Store w} {q : BitVec w} {c : BitVec 8} (hl : Stored R s.mem p l)
    (hq : R q) : Stored R (s.set q c).mem p l := by
  apply hl.frame
  intro x hx
  apply Function.update_of_ne
  rintro rfl
  exact hx hq

theorem Stored.mono (h : ∀ x, R' x → R x) (hl : Stored R m p l) : Stored R' m p l := by
  induction l generalizing p with
  | nil => exact ⟨fun hp => hl.1 (h p hp), hl.2⟩
  | cons c l ih => exact ⟨fun hp => hl.1 (h p hp), hl.2.1, hl.2.2.1, ih hl.2.2.2⟩

theorem Stored.chars (hl : Stored R m p l) : ∀ c ∈ l, c ≠ 0 := by
  induction l generalizing p with
  | nil => nofun
  | cons c l ih =>
      rintro c' hMem
      rcases List.mem_cons.mp hMem with rfl | hRest
      · exact hl.2.2.1
      · exact ih hl.2.2.2 c' hRest

/-- The bytes of a string and its terminator. -/
theorem Stored.byte (hl : Stored R m p l) {i : Nat} (hi : i ≤ l.length) :
    m (p + BitVec.ofNat w i) = l.getD i 0 := by
  induction l generalizing p i with
  | nil =>
      cases Nat.le_zero.mp hi
      rw [BitVec.add_zero]
      exact hl.2
  | cons c l ih =>
      cases i with
      | zero =>
          rw [BitVec.add_zero]
          exact hl.2.1
      | succ i =>
          rw [← Store.add_one_ofNat]
          exact ih hl.2.2.2 (Nat.le_of_succ_le_succ hi)

/-- A string cannot go around memory: it would meet its own terminator. -/
theorem Stored.length_lt (hl : Stored R m p l) : l.length < 2 ^ w := by
  by_contra hLong
  have hPos : 0 < 2 ^ w := Nat.two_pow_pos w
  have hLt : l.length - 2 ^ w < l.length := by omega
  have hSame : BitVec.ofNat w l.length = BitVec.ofNat w (l.length - 2 ^ w) := by
    apply BitVec.eq_of_toNat_eq
    rw [BitVec.toNat_ofNat, BitVec.toNat_ofNat]
    exact Nat.mod_eq_sub_mod (Nat.le_of_not_lt hLong)
  have hNul := hl.byte (Nat.le_refl l.length)
  rw [hSame, hl.byte (Nat.le_of_lt hLt), List.getD_eq_default _ _ (Nat.le_refl _),
    List.getD_eq_getElem _ _ hLt] at hNul
  exact hl.chars _ (List.getElem_mem hLt) hNul

theorem Stored.append (hl : Stored R m p (l ++ l')) :
    Stored R m (p + BitVec.ofNat w l.length) l' := by
  induction l generalizing p with
  | nil =>
      rw [List.length_nil, BitVec.add_zero]
      exact hl
  | cons c l ih =>
      rw [List.length_cons, ← Store.add_one_ofNat]
      exact ih hl.2.2.2

/-- The string and its terminator lie outside of `R`. -/
theorem Stored.apart (hl : Stored R m p l) {i : Nat} (hi : i ≤ l.length) :
    ¬ R (p + BitVec.ofNat w i) := by
  induction l generalizing p i with
  | nil =>
      cases Nat.le_zero.mp hi
      rw [BitVec.add_zero]
      exact hl.1
  | cons c l ih =>
      cases i with
      | zero =>
          rw [BitVec.add_zero]
          exact hl.1
      | succ i =>
          rw [← Store.add_one_ofNat]
          exact ih hl.2.2.2 (Nat.le_of_succ_le_succ hi)

/-- A string does not fill memory when something lies outside of it. -/
theorem Stored.short {q : BitVec w} (hl : Stored R m p l) (hq : R q) : l.length + 1 < 2 ^ w := by
  have hLt := (q - p).isLt
  by_contra hLong
  apply hl.apart (i := (q - p).toNat) (by omega)
  rwa [ByteMem.offset_toNat]

/-- A string, by its bytes. -/
theorem stored_of_bytes (hChars : ∀ c ∈ l, c ≠ 0)
    (hText : ∀ i (hi : i < l.length), m (p + BitVec.ofNat w i) = l[i])
    (hNul : m (p + BitVec.ofNat w l.length) = 0)
    (hOut : ∀ i, i ≤ l.length → ¬ R (p + BitVec.ofNat w i)) : Stored R m p l := by
  induction l generalizing p with
  | nil =>
      have hHere := hOut 0 (Nat.le_refl 0)
      rw [List.length_nil, BitVec.add_zero] at hNul
      rw [BitVec.add_zero] at hHere
      exact ⟨hHere, hNul⟩
  | cons c l ih =>
      have hHere := hOut 0 (Nat.zero_le _)
      have hFirst := hText 0 (Nat.succ_pos _)
      rw [BitVec.add_zero] at hHere hFirst
      refine ⟨hHere, hFirst, hChars c List.mem_cons_self, ih ?_ ?_ ?_ ?_⟩
      · exact fun c' hMem => hChars c' (List.mem_cons_of_mem c hMem)
      · intro i hi
        rw [Store.add_one_ofNat]
        exact hText (i + 1) (Nat.succ_lt_succ hi)
      · rw [Store.add_one_ofNat]
        exact hNul
      · intro i hi
        rw [Store.add_one_ofNat]
        exact hOut (i + 1) (Nat.succ_le_succ hi)

/-- A memory with one string. -/
theorem stored_getD (hChars : ∀ c ∈ l, c ≠ 0) (hFit : l.length < 2 ^ w)
    (hOut : ∀ i, i ≤ l.length → ¬ R (p + BitVec.ofNat w i)) :
    Stored R (fun x => l.getD (x - p).toNat 0) p l := by
  have hAt : ∀ k, k ≤ l.length → (p + BitVec.ofNat w k - p).toNat = k :=
    fun k hk => ByteMem.toNat_offset (Nat.lt_of_le_of_lt hk hFit)
  apply stored_of_bytes hChars _ _ hOut
  · intro i hi
    rw [hAt i (Nat.le_of_lt hi), List.getD_eq_getElem _ _ hi]
  · rw [hAt _ (Nat.le_refl _), List.getD_eq_default _ _ (Nat.le_refl _)]

end AbstractMachine.Lib
