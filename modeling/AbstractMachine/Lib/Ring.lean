import Mathlib.Data.List.Basic
import Mathlib.Logic.Function.Basic

/-!
# Rings

A buffer of `size` places that is used round and round.  `ring size v pos n` is
what `n` places hold from `pos` on; positions count up for ever and are taken
modulo the size.  Up to `size` places are different ones, so that writing after
the `n` places in use leaves these alone.

A queue in a ring has a position for each end and no count.
-/

namespace AbstractMachine.Lib

variable {α : Type}

/-- The `n` items of the ring buffer `v` from index `pos` on. -/
def ring (size : Nat) (v : Nat → α) (pos n : Nat) : List α :=
  (List.range n).map fun t => v ((pos + t) % size)

variable {size pos pos' n k t t' : Nat} {v v' : Nat → α}

/-- Places in use, and the places after them. -/
theorem ring_add : ring size v pos (n + k) = ring size v pos n ++ ring size v (pos + n) k := by
  unfold ring
  rw [List.range_add, List.map_append, List.map_map]
  congr 1
  apply List.map_congr_left
  intro t _
  show v ((pos + (n + t)) % size) = v ((pos + n + t) % size)
  rw [Nat.add_assoc]

theorem ring_congr (h : ∀ t, t < n → v ((pos + t) % size) = v' ((pos + t) % size)) :
    ring size v pos n = ring size v' pos n :=
  List.map_congr_left fun t ht => h t (List.mem_range.mp ht)

/-- Only the position modulo the size counts. -/
theorem ring_mod (h : pos % size = pos' % size) : ring size v pos n = ring size v pos' n := by
  apply List.map_congr_left
  intro t _
  rw [Nat.add_mod, h, ← Nat.add_mod]

/-- One round has no place twice. -/
theorem place_ne (hLt : t < t') (hRound : t' < t + size) :
    (pos + t) % size ≠ (pos + t') % size := by
  intro hEq
  have hDvd : size ∣ pos + t' - (pos + t) :=
    Nat.dvd_of_mod_eq_zero (Nat.sub_mod_eq_zero_of_mod_eq hEq.symm)
  have hLe := Nat.le_of_dvd (by omega) hDvd
  omega

/-- `k` places written after `n` places in use. -/
theorem ring_write (hFit : n + k ≤ size)
    (hOut : ∀ o, (∀ t, t < k → o ≠ (pos + n + t) % size) → v' o = v o) :
    ring size v' pos n = ring size v pos n := by
  apply ring_congr
  intro t ht
  apply hOut
  intro t' ht'
  rw [Nat.add_assoc]
  exact place_ne (by omega) (by omega)

/-! ## Queues -/

/-- Entries `xs` from place `f` up to place `r`. -/
structure RingQueue (size : Nat) (v : Nat → α) (f r : Nat) (xs : List α) : Prop where
  front : f < size
  rear : r = (f + xs.length) % size
  cells : ring size v f xs.length = xs

namespace RingQueue

variable {f r : Nat} {x : α} {xs : List α}

theorem new (hSize : 0 < size) (v : Nat → α) : RingQueue size v 0 0 [] :=
  ⟨hSize, (Nat.zero_mod size).symm, rfl⟩

/-- Equal positions mean an empty queue, as long as one place is free. -/
theorem empty_iff (h : RingQueue size v f r xs) (hRoom : xs.length < size) :
    f = r ↔ xs = [] := by
  have hFront := h.front
  rw [h.rear]
  constructor
  · intro hEq
    by_contra hNe
    have hPos := List.length_pos_iff.mpr hNe
    apply place_ne hPos (Nat.lt_add_left 0 hRoom)
    rw [← hEq, Nat.add_zero, Nat.mod_eq_of_lt hFront]
  · intro hNil
    rw [hNil, List.length_nil, Nat.add_zero, Nat.mod_eq_of_lt hFront]

/-- The place at the rear is not in use. -/
theorem store (h : RingQueue size v f r xs) (hRoom : xs.length < size) (x : α) :
    RingQueue size (Function.update v r x) f r xs := by
  refine ⟨h.front, h.rear, ?_⟩
  rw [ring_write (k := 1) hRoom, h.cells]
  intro o hOut
  apply Function.update_of_ne
  rw [h.rear]
  exact hOut 0 Nat.zero_lt_one

theorem push (h : RingQueue size v f r xs) (hCell : v r = x) :
    RingQueue size v f ((r + 1) % size) (xs ++ [x]) := by
  refine ⟨h.front, ?_, ?_⟩
  · rw [List.length_append, List.length_singleton, h.rear, Nat.mod_add_mod, Nat.add_assoc]
  · rw [List.length_append, List.length_singleton, ring_add, h.cells]
    show xs ++ [v ((f + xs.length) % size)] = xs ++ [x]
    rw [← h.rear, hCell]

theorem head (h : RingQueue size v f r (x :: xs)) : v f = x := by
  have hCells := h.cells
  rw [List.length_cons, Nat.add_comm, ring_add] at hCells
  have hHead : v (f % size) = x := List.head_eq_of_cons_eq hCells
  rwa [Nat.mod_eq_of_lt h.front] at hHead

theorem pop (h : RingQueue size v f r (x :: xs)) :
    RingQueue size v ((f + 1) % size) r xs := by
  have hCells := h.cells
  rw [List.length_cons, Nat.add_comm, ring_add] at hCells
  refine ⟨Nat.mod_lt _ (Nat.zero_lt_of_lt h.front), ?_, ?_⟩
  · rw [h.rear, List.length_cons, Nat.mod_add_mod, Nat.add_assoc, Nat.add_comm 1]
  · rw [ring_mod (Nat.mod_mod (f + 1) size)]
    exact List.tail_eq_of_cons_eq hCells

end RingQueue

end AbstractMachine.Lib
