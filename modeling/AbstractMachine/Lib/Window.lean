import AbstractMachine.Lib.WordBytes

/-!
# A window of memory

A block of memory whose bytes are kept apart from the rest: `window f size v m`
is the memory `m` with the bytes `v` in the block from `f` on.  Code whose
scratch area lies in the block changes `v` only, and reads through to `m`
everywhere else.
-/

namespace AbstractMachine.Lib.ByteMem

variable {w : Nat}

/-- The memory `m` with the `size` bytes from `f` on given by `v`. -/
def window (f : BitVec w) (size : Nat) (v : Nat → BitVec 8) (m : ByteMem w) : ByteMem w :=
  fun x => if InBlock f size x then v (x - f).toNat else m x

variable {f x : BitVec w} {size o : Nat} {v : Nat → BitVec 8} {m : ByteMem w}

theorem window_at (ho : o < size) (hFit : size ≤ 2 ^ w) :
    window f size v m (f + BitVec.ofNat w o) = v o := by
  unfold window
  rw [if_pos (inBlock_offset ho hFit), toNat_offset (by omega)]

theorem window_outside (hx : ¬ InBlock f size x) : window f size v m x = m x := if_neg hx

/-- The bytes that are there already. -/
theorem window_self : window f size (fun o => m (f + BitVec.ofNat w o)) m = m := by
  funext x
  unfold window
  split
  · exact congrArg m offset_toNat
  · rfl

/-- Only the bytes of the block count. -/
theorem window_congr {v' : Nat → BitVec 8} (h : ∀ o, o < size → v o = v' o) :
    window f size v m = window f size v' m := by
  funext x
  unfold window
  split
  · rename_i hx
    exact h _ hx
  · rfl

theorem update_window (ho : o < size) (hFit : size ≤ 2 ^ w) (b : BitVec 8) :
    Function.update (window f size v m) (f + BitVec.ofNat w o) b =
      window f size (Function.update v o b) m := by
  funext x
  by_cases hx : x = f + BitVec.ofNat w o
  · rw [hx, Function.update_self, window_at ho hFit, Function.update_self]
  · rw [Function.update_of_ne hx]
    unfold window
    split
    · rw [Function.update_of_ne]
      intro hEq
      apply hx
      rw [← hEq, offset_toNat]
    · rfl

theorem update_window_outside (hx : ¬ InBlock f size x) (b : BitVec 8) :
    Function.update (window f size v m) x b = window f size v (Function.update m x b) := by
  funext y
  by_cases hy : y = x
  · rw [hy, Function.update_self, window_outside hx, Function.update_self]
  · rw [Function.update_of_ne hy]
    unfold window
    rw [Function.update_of_ne hy]

/-- A word that lies in the window. -/
theorem load_window {n : Nat} {u : BitVec (8 * n)} (ho : o + n ≤ size) (hFit : size ≤ 2 ^ w)
    (h : ∀ b, b < n → v (o + b) = byte u b) :
    load (window f size v m) (f + BitVec.ofNat w o) n = u := by
  apply load_eq
  intro b hb
  rw [BitVec.add_assoc, ← BitVec.ofNat_add, window_at (by omega) hFit, h b hb]

/-- Storing a word in the window replaces its bytes there. -/
theorem store_window {n : Nat} {u : BitVec (8 * n)} {v' : Nat → BitVec 8} (ho : o + n ≤ size)
    (hFit : size ≤ 2 ^ w) (hIn : ∀ b, b < n → v' (o + b) = byte u b)
    (hOut : ∀ i, i < size → i < o ∨ o + n ≤ i → v' i = v i) :
    store (window f size v m) (f + BitVec.ofNat w o) u = window f size v' m := by
  funext x
  by_cases hx : InBlock (f + BitVec.ofNat w o) n x
  · have hDist := toNat_sub_offset hx (Nat.le_trans ho hFit)
    have hBlock : InBlock f size x := inBlock_sub hx ho hFit
    rw [store, if_pos hx, window, if_pos hBlock, hDist, hIn _ hx]
    rfl
  · rw [store_outside _ _ hx]
    unfold window
    split
    · rename_i hBlock
      apply Eq.symm
      apply hOut _ hBlock
      apply Classical.byContradiction
      intro hMid
      apply hx
      have hOff : InBlock (f + BitVec.ofNat w o) n
          (f + BitVec.ofNat w o + BitVec.ofNat w ((x - f).toNat - o)) :=
        inBlock_offset (by omega) (by omega)
      rw [BitVec.add_assoc, ← BitVec.ofNat_add, Nat.add_sub_cancel' (by omega),
        offset_toNat] at hOff
      exact hOff
    · rfl

/-- What is stored is a window. -/
theorem store_eq_window (m : ByteMem w) (a : BitVec w) {n : Nat} (u : BitVec (8 * n)) :
    store m a u = window a n (byte u) m := rfl

theorem window_zero : window f 0 v m = m := by
  funext x
  exact window_outside (Nat.not_lt_zero _)

/-- A block is its beginning and what comes behind it. -/
theorem inBlock_append {n : Nat} (hFit : size + n ≤ 2 ^ w) :
    InBlock f (size + n) x ↔ InBlock f size x ∨ InBlock (f + BitVec.ofNat w size) n x := by
  constructor
  · intro hBlock
    by_cases hFirst : InBlock f size x
    · exact .inl hFirst
    · unfold InBlock at hBlock hFirst
      have hOff : InBlock (f + BitVec.ofNat w size) n
          (f + BitVec.ofNat w size + BitVec.ofNat w ((x - f).toNat - size)) :=
        inBlock_offset (by omega) (by omega)
      rw [BitVec.add_assoc, ← BitVec.ofNat_add, Nat.add_sub_cancel' (by omega),
        offset_toNat] at hOff
      exact .inr hOff
  · rintro (hFirst | hBehind)
    · exact Nat.lt_of_lt_of_le hFirst (Nat.le_add_right _ _)
    · exact inBlock_sub hBehind (Nat.le_refl _) hFit

/-- A window behind a window. -/
theorem window_append {n : Nat} (hFit : size + n ≤ 2 ^ w) :
    window (f + BitVec.ofNat w size) n (fun o => v (size + o)) (window f size v m) =
      window f (size + n) v m := by
  funext x
  by_cases hx : InBlock (f + BitVec.ofNat w size) n x
  · have hDist := toNat_sub_offset hx hFit
    have hBlock : InBlock f (size + n) x := (inBlock_append hFit).mpr (.inr hx)
    rw [window, if_pos hx, window, if_pos hBlock, hDist]
  · have hIff : InBlock f (size + n) x ↔ InBlock f size x :=
      (inBlock_append hFit).trans (or_iff_left hx)
    rw [window_outside hx]
    unfold window
    simp only [hIff]

theorem load_window_apart {a : BitVec w} {n : Nat} (hn : n ≤ 2 ^ w) (h : Apart a n f size) :
    load (window f size v m) a n = load m a n :=
  load_congr hn fun x hx => window_outside (h x hx)

end AbstractMachine.Lib.ByteMem
