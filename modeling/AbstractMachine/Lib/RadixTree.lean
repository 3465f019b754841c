import Mathlib.Data.List.Nodup
import Mathlib.Logic.Function.Basic

/-!
# Radix trees of tables

The abstract object behind every multi-level table walk: a `table` sits on
one page and has one subtree per index, a `leaf` carries a value, and an
index leading nowhere is `empty`.  A path is the list of indices a walk uses,
outermost first.

The module knows nothing about memory.  What it provides is the algebra that
memory-level proofs need: subtrees and replacement along a path, the pages a
tree owns, the separation invariant (no page is owned twice) and the
postorder listing of the pages, which a recursive release follows.
-/

namespace AbstractMachine.Lib

/-- A radix tree whose tables sit on pages and whose leaves carry `α`. -/
inductive RadixTree (α : Type) where
  | empty
  | leaf (value : α)
  | table (page : Nat) (slot : Nat → RadixTree α)

namespace RadixTree

variable {α : Type}

/-! ## Paths -/

/-- The subtree a path leads to; leaving the tree gives `empty`. -/
def sub : RadixTree α → List Nat → RadixTree α
  | t, [] => t
  | .table _ slot, i :: path => (slot i).sub path
  | .empty, _ :: _ => .empty
  | .leaf _, _ :: _ => .empty

/-- The value at the end of a path. -/
def find (t : RadixTree α) (path : List Nat) : Option α :=
  match t.sub path with
  | .leaf value => some value
  | _ => none

/-- Replace the subtree at the end of a path.  A path that leaves the tree
changes nothing. -/
def set : RadixTree α → List Nat → RadixTree α → RadixTree α
  | _, [], u => u
  | .table p slot, i :: path, u =>
      .table p (Function.update slot i ((slot i).set path u))
  | .empty, _ :: _, _ => .empty
  | .leaf v, _ :: _, _ => .leaf v

/-- Every table on the path exists, so the path ends in a slot. -/
def HasPath : RadixTree α → List Nat → Prop
  | _, [] => True
  | .table _ slot, i :: path => (slot i).HasPath path
  | .empty, _ :: _ => False
  | .leaf _, _ :: _ => False

/-- The address of the slot a path ends in, with `stride` bytes per slot and
the tree itself hanging in the slot at `a`. -/
def slotAddr (stride : Nat) : RadixTree α → List Nat → Nat → Nat
  | _, [], a => a
  | .table p slot, i :: path, _ => (slot i).slotAddr stride path (p + i * stride)
  | .empty, _ :: _, a => a
  | .leaf _, _ :: _, a => a

@[simp] theorem sub_nil (t : RadixTree α) : t.sub [] = t := by
  cases t <;> rfl

@[simp] theorem set_nil (t u : RadixTree α) : t.set [] u = u := by
  cases t <;> rfl

@[simp] theorem hasPath_nil (t : RadixTree α) : t.HasPath [] := by
  cases t <;> trivial

@[simp] theorem slotAddr_nil (stride : Nat) (t : RadixTree α) (a : Nat) :
    t.slotAddr stride [] a = a := by
  cases t <;> rfl

@[simp] theorem sub_table (p : Nat) (slot : Nat → RadixTree α) (i : Nat)
    (path : List Nat) :
    (table p slot).sub (i :: path) = (slot i).sub path := rfl

@[simp] theorem sub_empty (path : List Nat) :
    (empty : RadixTree α).sub path = empty := by
  cases path <;> rfl

theorem find_of_sub_eq {t t' : RadixTree α} {path path' : List Nat}
    (h : t.sub path = t'.sub path') : t.find path = t'.find path' := by
  unfold find
  rw [h]

@[simp] theorem find_empty (path : List Nat) :
    (empty : RadixTree α).find path = none := by
  simp [find]

/-- A path that ends in a value exists. -/
theorem hasPath_of_find {v : α} :
    ∀ {path : List Nat} {t : RadixTree α}, t.find path = some v → t.HasPath path := by
  intro path
  induction path with
  | nil => intro t _; simp
  | cons i path ih =>
      intro t h
      cases t with
      | empty => simp at h
      | leaf w => cases h
      | table p slot => exact ih (t := slot i) h

/-- Reading back at the path just written. -/
theorem sub_set_self (u : RadixTree α) :
    ∀ (path : List Nat) (t : RadixTree α), t.HasPath path →
      (t.set path u).sub path = u := by
  intro path
  induction path with
  | nil => intro t _; simp
  | cons i path ih =>
      intro t hPath
      cases t with
      | empty => exact absurd hPath id
      | leaf v => exact absurd hPath id
      | table p slot =>
          show (Function.update slot i ((slot i).set path u) i).sub path = u
          rw [Function.update_self]
          exact ih (slot i) hPath

/-- A different path of the same length does not see the write. -/
theorem sub_set_ne (u : RadixTree α) :
    ∀ (path path' : List Nat) (t : RadixTree α),
      path'.length = path.length → path' ≠ path →
      (t.set path u).sub path' = t.sub path' := by
  intro path
  induction path with
  | nil =>
      intro path' t hLen hNe
      exact absurd (List.length_eq_zero_iff.mp hLen) hNe
  | cons i path ih =>
      intro path' t hLen hNe
      cases path' with
      | nil => simp at hLen
      | cons j path' =>
          cases t with
          | empty => rfl
          | leaf v => rfl
          | table p slot =>
              show (Function.update slot i ((slot i).set path u) j).sub path' =
                (slot j).sub path'
              by_cases hij : j = i
              · subst hij
                rw [Function.update_self]
                refine ih path' (slot j) (by simpa using hLen) ?_
                intro hEq
                exact hNe (by rw [hEq])
              · rw [Function.update_of_ne hij]

/-- The tables on the path stay in place. -/
theorem hasPath_set (u : RadixTree α) :
    ∀ (path : List Nat) (t : RadixTree α), t.HasPath path →
      (t.set path u).HasPath path := by
  intro path
  induction path with
  | nil => intro t _; simp
  | cons i path ih =>
      intro t hPath
      cases t with
      | empty => exact absurd hPath id
      | leaf v => exact absurd hPath id
      | table p slot =>
          show (Function.update slot i ((slot i).set path u) i).HasPath path
          rw [Function.update_self]
          exact ih (slot i) hPath

/-! ## Pages -/

/-- The page `q` holds one of the tables of the tree. -/
def Owns : RadixTree α → Nat → Prop
  | .table p slot, q => q = p ∨ ∃ i, (slot i).Owns q
  | .empty, _ => False
  | .leaf _, _ => False

@[simp] theorem owns_table (p : Nat) (slot : Nat → RadixTree α) (q : Nat) :
    (table p slot).Owns q ↔ q = p ∨ ∃ i, (slot i).Owns q := Iff.rfl

@[simp] theorem not_owns_empty (q : Nat) : ¬ (empty : RadixTree α).Owns q := id

@[simp] theorem not_owns_leaf (v : α) (q : Nat) : ¬ (leaf v).Owns q := id

/-- No page holds two tables: the table's own page is not used below it, and
two different slots share no page. -/
def Separated : RadixTree α → Prop
  | .table p slot =>
      (∀ i, ¬ (slot i).Owns p) ∧
      (∀ i j q, (slot i).Owns q → (slot j).Owns q → i = j) ∧
      ∀ i, (slot i).Separated
  | .empty => True
  | .leaf _ => True

/-- Growing one slot of a table by pages that were nowhere in the tree keeps
the pages separated. -/
theorem Separated.update {p : Nat} {slot : Nat → RadixTree α} {i : Nat}
    {u : RadixTree α} {new : List Nat}
    (h : (table p slot).Separated) (hu : u.Separated)
    (hOwns : ∀ q, u.Owns q ↔ (slot i).Owns q ∨ q ∈ new)
    (hNew : ∀ q ∈ new, ¬ (table p slot).Owns q) :
    (table p (Function.update slot i u)).Separated := by
  obtain ⟨hRoot, hApart, hBelow⟩ := h
  refine ⟨?_, ?_, ?_⟩
  · intro j hj
    by_cases hji : j = i
    · subst hji
      rw [Function.update_self, hOwns] at hj
      rcases hj with hOld | hIn
      · exact hRoot j hOld
      · exact hNew p hIn (Or.inl rfl)
    · rw [Function.update_of_ne hji] at hj
      exact hRoot j hj
  · -- two slots that share a page: at most one of them is the grown one
    have hMixed : ∀ j q, j ≠ i → u.Owns q → (slot j).Owns q → False := by
      intro j q hji hq hj
      rcases (hOwns q).mp hq with hOld | hIn
      · exact hji (hApart j i q hj hOld)
      · exact hNew q hIn (Or.inr ⟨j, hj⟩)
    intro j k q hj hk
    by_cases hji : j = i
    · by_cases hki : k = i
      · rw [hji, hki]
      · rw [hji, Function.update_self] at hj
        rw [Function.update_of_ne hki] at hk
        exact (hMixed k q hki hj hk).elim
    · rw [Function.update_of_ne hji] at hj
      by_cases hki : k = i
      · rw [hki, Function.update_self] at hk
        exact (hMixed j q hji hk hj).elim
      · rw [Function.update_of_ne hki] at hk
        exact hApart j k q hj hk
  · intro j
    by_cases hji : j = i
    · subst hji
      rw [Function.update_self]
      exact hu
    · rw [Function.update_of_ne hji]
      exact hBelow j

/-- The pages of a table one of whose slots has grown. -/
theorem owns_update {p : Nat} {slot : Nat → RadixTree α} {i : Nat}
    {u : RadixTree α} {new : List Nat}
    (hOwns : ∀ q, u.Owns q ↔ (slot i).Owns q ∨ q ∈ new) (q : Nat) :
    (table p (Function.update slot i u)).Owns q ↔
      (table p slot).Owns q ∨ q ∈ new := by
  have hGrown : u.Owns q → ∃ j, (Function.update slot i u j).Owns q :=
    fun hq => ⟨i, by rw [Function.update_self]; exact hq⟩
  constructor
  · rintro (hq | ⟨j, hj⟩)
    · exact Or.inl (Or.inl hq)
    · by_cases hji : j = i
      · rw [hji, Function.update_self] at hj
        exact ((hOwns q).mp hj).imp (fun h => Or.inr ⟨i, h⟩) id
      · rw [Function.update_of_ne hji] at hj
        exact Or.inl (Or.inr ⟨j, hj⟩)
  · rintro ((hq | ⟨j, hj⟩) | hq)
    · exact Or.inl hq
    · refine Or.inr ?_
      by_cases hji : j = i
      · exact hGrown ((hOwns q).mpr (Or.inl (hji ▸ hj)))
      · exact ⟨j, by rw [Function.update_of_ne hji]; exact hj⟩
    · exact Or.inr (hGrown ((hOwns q).mpr (Or.inr hq)))

/-- A slot that grew without changing what it maps changes no lookup. -/
theorem find_update {p : Nat} {slot : Nat → RadixTree α} {i : Nat}
    {u : RadixTree α} (h : ∀ path, u.find path = (slot i).find path)
    (path : List Nat) :
    (table p (Function.update slot i u)).find path = (table p slot).find path := by
  cases path with
  | nil => rfl
  | cons j path =>
      show (Function.update slot i u j).find path = (slot j).find path
      by_cases hji : j = i
      · rw [hji, Function.update_self, h]
      · rw [Function.update_of_ne hji]

/-- A replacement that owns exactly the pages of what it replaces changes no
ownership. -/
theorem owns_set {u : RadixTree α} :
    ∀ (path : List Nat) (t : RadixTree α),
      (∀ q, u.Owns q ↔ (t.sub path).Owns q) →
      ∀ q, (t.set path u).Owns q ↔ t.Owns q := by
  intro path
  induction path with
  | nil => intro t h q; simpa using h q
  | cons i path ih =>
      intro t h q
      cases t with
      | empty => exact Iff.rfl
      | leaf v => exact Iff.rfl
      | table p slot =>
          have hSlot := ih (slot i) h
          show (q = p ∨ ∃ j, (Function.update slot i
            ((slot i).set path u) j).Owns q) ↔ _
          refine or_congr Iff.rfl (exists_congr fun j => ?_)
          by_cases hji : j = i
          · subst hji
            rw [Function.update_self]
            exact hSlot q
          · rw [Function.update_of_ne hji]

theorem separated_set {u : RadixTree α} (hu : u.Separated) :
    ∀ (path : List Nat) (t : RadixTree α), t.Separated →
      (∀ q, u.Owns q ↔ (t.sub path).Owns q) → (t.set path u).Separated := by
  intro path
  induction path with
  | nil => intro t _ _; simpa using hu
  | cons i path ih =>
      intro t hSep h
      cases t with
      | empty => trivial
      | leaf v => trivial
      | table p slot =>
          have hSlot : ((slot i).set path u).Separated :=
            ih (slot i) (hSep.2.2 i) h
          have hOwns : ∀ q, ((slot i).set path u).Owns q ↔
              (slot i).Owns q ∨ q ∈ ([] : List Nat) := by
            intro q
            simpa using owns_set path (slot i) h q
          exact hSep.update hSlot hOwns (by simp)

/-! ## Shape and postorder -/

/-- The tree has the shape given by the fan-out of each level: tables have no
slot beyond their fan-out, and leaves sit exactly at the bottom. -/
def Fits : List Nat → RadixTree α → Prop
  | f :: fs, .table _ slot =>
      (∀ i < f, (slot i).Fits fs) ∧ ∀ i, f ≤ i → slot i = .empty
  | [], .table _ _ => False
  | [], .leaf _ => True
  | _ :: _, .leaf _ => False
  | _, .empty => True

/-- The pages of the tree, every table after the tables below it. -/
def postorder : List Nat → RadixTree α → List Nat
  | f :: fs, .table p slot =>
      (List.range f).flatMap (fun i => (slot i).postorder fs) ++ [p]
  | _, _ => []

@[simp] theorem postorder_empty (fs : List Nat) :
    (empty : RadixTree α).postorder fs = [] := by
  cases fs <;> rfl

theorem mem_postorder :
    ∀ (fs : List Nat) (t : RadixTree α), t.Fits fs →
      ∀ q, q ∈ t.postorder fs ↔ t.Owns q := by
  intro fs
  induction fs with
  | nil =>
      intro t hFits q
      cases t with
      | empty => simp [postorder]
      | leaf v => simp [postorder]
      | table p slot => exact absurd hFits id
  | cons f fs ih =>
      intro t hFits q
      cases t with
      | empty => simp [postorder]
      | leaf v => simp [postorder]
      | table p slot =>
          obtain ⟨hBelow, hOut⟩ := hFits
          simp only [postorder, List.mem_append, List.mem_flatMap,
            List.mem_range, List.mem_singleton, owns_table]
          constructor
          · rintro (⟨i, hi, hq⟩ | hq)
            · exact Or.inr ⟨i, (ih (slot i) (hBelow i hi) q).mp hq⟩
            · exact Or.inl hq
          · rintro (hq | ⟨i, hq⟩)
            · exact Or.inr hq
            · by_cases hi : i < f
              · exact Or.inl ⟨i, hi, (ih (slot i) (hBelow i hi) q).mpr hq⟩
              · rw [hOut i (Nat.le_of_not_lt hi)] at hq
                exact absurd hq id

/-- In a separated tree the postorder names every page once. -/
theorem nodup_postorder :
    ∀ (fs : List Nat) (t : RadixTree α), t.Fits fs → t.Separated →
      (t.postorder fs).Nodup := by
  intro fs
  induction fs with
  | nil => intro t _ _; cases t <;> exact List.nodup_nil
  | cons f fs ih =>
      intro t hFits hSep
      cases t with
      | empty => exact List.nodup_nil
      | leaf v => exact List.nodup_nil
      | table p slot =>
          obtain ⟨hBelow, _⟩ := hFits
          obtain ⟨hRoot, hApart, hSlots⟩ := hSep
          have hMem : ∀ i, i < f → ∀ q, q ∈ (slot i).postorder fs ↔
              (slot i).Owns q :=
            fun i hi q => mem_postorder fs (slot i) (hBelow i hi) q
          have hKids : ((List.range f).flatMap
              fun i => (slot i).postorder fs).Nodup := by
            rw [List.nodup_flatMap]
            refine ⟨fun i hi => ih (slot i) (hBelow i (by simpa using hi))
              (hSlots i), ?_⟩
            refine List.Pairwise.imp_of_mem ?_ List.nodup_range
            intro i j hi hj hij q hqi hqj
            exact hij (hApart i j q
              ((hMem i (by simpa using hi) q).mp hqi)
              ((hMem j (by simpa using hj) q).mp hqj))
          rw [postorder, List.nodup_append]
          refine ⟨hKids, by simp, ?_⟩
          intro q hq r hr hqr
          have hp : q = p := by simpa [hqr] using hr
          obtain ⟨i, hi, hqi⟩ := List.mem_flatMap.mp hq
          have hOwn := (hMem i (by simpa using hi) q).mp hqi
          rw [hp] at hOwn
          exact hRoot i hOwn

end RadixTree

end AbstractMachine.Lib
