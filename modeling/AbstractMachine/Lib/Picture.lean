import Mathlib.Algebra.Group.Nat.Defs

/-!
# Pictures

A picture tells the colour in each column and row.  It is stored row by row, and
composed by scaling one picture and pasting it into another.
-/

namespace AbstractMachine.Lib

/-- By column and row. -/
abbrev Picture (α : Type) := Nat → Nat → α

namespace Picture

variable {α : Type}

/-- Where a picture of width `W` has column `X` of row `Y`. -/
def index (W X Y : Nat) : Nat := Y * W + X

/-- A picture of `w` columns and `h` rows, drawn with `w'` and `h'` of them. -/
def scale (w h w' h' : Nat) (src : Picture α) : Picture α := fun X Y =>
  src (X * w / w') (Y * h / h')

/-- The rectangle at `x`, `y` of `w` columns and `h` rows has been drawn over. -/
def paste (x y w h : Nat) (src dest : Picture α) : Picture α := fun X Y =>
  if (x ≤ X ∧ X < x + w) ∧ y ≤ Y ∧ Y < y + h then src (X - x) (Y - y) else dest X Y

variable {W H X Y X' Y' : Nat}

theorem index_lt (hX : X < W) (hY : Y < H) : index W X Y < W * H := by
  have hRows : (Y + 1) * W ≤ H * W := Nat.mul_le_mul_right W hY
  rw [Nat.succ_mul] at hRows
  rw [Nat.mul_comm W]
  unfold index
  omega

theorem index_inj (hX : X < W) (hX' : X' < W) (h : index W X Y = index W X' Y') :
    X = X' ∧ Y = Y' := by
  have hCol : ∀ X Y, X < W → index W X Y % W = X := by
    intro X Y hX
    unfold index
    rw [Nat.mul_comm, Nat.mul_add_mod, Nat.mod_eq_of_lt hX]
  have hSame : X = X' := by
    rw [← hCol X Y hX, h, hCol X' Y' hX']
  refine ⟨hSame, ?_⟩
  unfold index at h
  exact Nat.eq_of_mul_eq_mul_right (Nat.zero_lt_of_lt hX) (by omega)

/-- Scaling stays inside the picture. -/
theorem scaled_lt {i w w' : Nat} (hi : i < w') (hw : 0 < w) : i * w / w' < w := by
  rw [Nat.div_lt_iff_lt_mul (Nat.zero_lt_of_lt hi), Nat.mul_comm w]
  exact Nat.mul_lt_mul_of_pos_right hi hw

end Picture

end AbstractMachine.Lib
