import Mathlib.Algebra.Ring.Nat

/-!
# Bump allocation

Requests are served one behind another from the front of an area.  The blocks
are apart, and lie inside the area up to the first request that the rest of the
area is too small for.
-/

namespace AbstractMachine.Lib.Bump

variable {α : Type} (size : α → Nat)

/-- What the requests need together. -/
def total (rs : List α) : Nat := (rs.map size).sum

/-- Where each block begins, from `start` on. -/
def layout : Nat → List α → List (Nat × α)
  | _, [] => []
  | start, r :: rs => (start, r) :: layout (start + size r) rs

variable {size} {rs : List α} {r : α} {b : Nat × α} {start n : Nat}

@[simp] theorem total_nil : total size ([] : List α) = 0 := rfl

@[simp] theorem total_cons (r : α) (rs : List α) :
    total size (r :: rs) = size r + total size rs := List.sum_cons

@[simp] theorem total_append (rs rs' : List α) :
    total size (rs ++ rs') = total size rs + total size rs' := by
  unfold total
  rw [List.map_append, List.sum_append]

/-- Every block lies between the start and the end. -/
theorem mem_layout (h : b ∈ layout size start rs) :
    start ≤ b.1 ∧ b.1 + size b.2 ≤ start + total size rs := by
  induction rs generalizing start with
  | nil => cases h
  | cons r rs ih =>
      rw [layout, List.mem_cons] at h
      rw [total_cons]
      rcases h with rfl | h
      · exact ⟨Nat.le_refl _, by show start + size r ≤ _; omega⟩
      · have hLater := ih h
        omega

/-- Each block ends before the later ones begin. -/
theorem layout_pairwise (start : Nat) (rs : List α) :
    (layout size start rs).Pairwise fun b b' => b.1 + size b.2 ≤ b'.1 := by
  induction rs generalizing start with
  | nil => exact List.Pairwise.nil
  | cons r rs ih =>
      apply List.Pairwise.cons _ (ih _)
      intro b hb
      exact (mem_layout hb).1

/-- The first request that does not fit. -/
theorem exists_misfit (h : n < total size rs) :
    ∃ pre r post, rs = pre ++ r :: post ∧ total size pre ≤ n ∧ n < total size pre + size r := by
  induction rs generalizing n with
  | nil => exact absurd h (Nat.not_lt_zero n)
  | cons r rs ih =>
      by_cases hFirst : n < size r
      · exact ⟨[], r, rs, rfl, Nat.zero_le n, by rwa [total_nil, Nat.zero_add]⟩
      · rw [total_cons] at h
        obtain ⟨pre, r', post, rfl, hPre, hMiss⟩ := ih (n := n - size r) (by omega)
        refine ⟨r :: pre, r', post, rfl, ?_, ?_⟩
        · rw [total_cons]
          omega
        · rw [total_cons]
          omega

end AbstractMachine.Lib.Bump
