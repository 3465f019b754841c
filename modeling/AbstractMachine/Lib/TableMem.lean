import AbstractMachine.Lib.RadixTree
import Mathlib.Data.List.Forall2

/-!
# Radix trees stored in word memory

`SlotRep` says that the memory word at `a` is the root slot of a given radix
tree: an empty slot holds zero, a leaf slot the encoding of its value, and a
table slot the link word of a page whose words are again slots.  The layout
(slot size, page size, link and leaf encodings) is a parameter.

Three rules carry every memory proof.  `SlotRep.congr` is the frame rule: the
representation reads the root slot and the owned pages and nothing else.
`Focus` replaces one subtree when memory changed only inside it.
`SlotRep.write` is the update rule for one slot at the end of a path.
-/

namespace AbstractMachine.Lib

/-- The address `x` lies in the page based at `p`. -/
def InPage (pageBytes p x : Nat) : Prop := p ≤ x ∧ x < p + pageBytes

instance (pageBytes p x : Nat) : Decidable (InPage pageBytes p x) := by
  unfold InPage
  infer_instance

/-- Two aligned pages that share an address are the same page. -/
theorem inPage_unique {b p q x : Nat} (hp : p % b = 0) (hq : q % b = 0)
    (hxp : InPage b p x) (hxq : InPage b q x) : p = q := by
  obtain ⟨k, rfl⟩ := Nat.dvd_of_mod_eq_zero hp
  obtain ⟨l, rfl⟩ := Nat.dvd_of_mod_eq_zero hq
  obtain ⟨hkx, hxk⟩ := hxp
  obtain ⟨hlx, hxl⟩ := hxq
  have hkl : b * k < b * (l + 1) := by rw [Nat.mul_succ]; omega
  have hlk : b * l < b * (k + 1) := by rw [Nat.mul_succ]; omega
  have h1 := Nat.lt_of_mul_lt_mul_left hkl
  have h2 := Nat.lt_of_mul_lt_mul_left hlk
  rw [show k = l by omega]

/-- A slot of a table lies in the table's page. -/
theorem inPage_slot {b p i f stride : Nat} (hi : i < f) (hs : 0 < stride)
    (hf : f * stride ≤ b) : InPage b p (p + i * stride) := by
  have h : (i + 1) * stride ≤ f * stride := Nat.mul_le_mul_right stride hi
  rw [Nat.succ_mul] at h
  exact ⟨Nat.le_add_right _ _, by omega⟩

/-- How a radix tree is laid out in memory. -/
structure Layout (α : Type) where
  /-- Bytes per slot. -/
  stride : Nat
  /-- Bytes per page. -/
  pageBytes : Nat
  /-- The word of a slot that leads to a table. -/
  link : Nat → Nat
  /-- The word of a slot that holds a leaf. -/
  entry : α → Nat
  stride_pos : 0 < stride

variable {α : Type}

namespace Layout

variable (L : Layout α)

/-- The word of a slot at the bottom level. -/
def EntryRep : RadixTree α → Nat → Prop
  | .empty, w => w = 0
  | .leaf v, w => w = L.entry v
  | .table _ _, _ => False

/-- The word at `a` is the root slot of the tree; `fs` are the fan-outs of the
levels below the slot. -/
def SlotRep (mem : Nat → Nat) : List Nat → RadixTree α → Nat → Prop
  | [], t, a => L.EntryRep t (mem a)
  | f :: fs, .table p slot, a =>
      mem a = L.link p ∧ p % L.pageBytes = 0 ∧ f * L.stride ≤ L.pageBytes ∧
      (∀ i < f, SlotRep mem fs (slot i) (p + i * L.stride)) ∧
      ∀ i, f ≤ i → slot i = .empty
  | _ :: _, .empty, a => mem a = 0
  | _ :: _, .leaf _, _ => False

/-- The address lies in a page of the tree. -/
def Covers (t : RadixTree α) (x : Nat) : Prop :=
  ∃ q, t.Owns q ∧ InPage L.pageBytes q x

end Layout

open Layout RadixTree

section Representation

variable {L : Layout α} {mem mem' : Nat → Nat}

theorem EntryRep.not_owns {t : RadixTree α} {w : Nat} (h : L.EntryRep t w)
    (q : Nat) : ¬ t.Owns q := by
  cases t with
  | empty => exact not_owns_empty q
  | leaf v => exact not_owns_leaf v q
  | table p slot => exact absurd h id

theorem EntryRep.separated {t : RadixTree α} {w : Nat} (h : L.EntryRep t w) :
    t.Separated := by
  cases t with
  | empty => trivial
  | leaf v => trivial
  | table p slot => exact absurd h id

/-- An empty slot is a zero word, on every level. -/
@[simp] theorem slotRep_empty (fs : List Nat) (a : Nat) :
    L.SlotRep mem fs .empty a ↔ mem a = 0 := by
  cases fs <;> exact Iff.rfl

theorem SlotRep.fits :
    ∀ (fs : List Nat) (t : RadixTree α) (a : Nat), L.SlotRep mem fs t a →
      t.Fits fs := by
  intro fs
  induction fs with
  | nil => intro t a h; cases t <;> trivial
  | cons f fs ih =>
      intro t a h
      cases t with
      | empty => trivial
      | leaf v => exact h
      | table p slot =>
          obtain ⟨_, _, _, hBelow, hOut⟩ := h
          exact ⟨fun i hi => ih (slot i) _ (hBelow i hi), hOut⟩

/-- Every owned page is aligned. -/
theorem SlotRep.aligned :
    ∀ (fs : List Nat) (t : RadixTree α) (a : Nat), L.SlotRep mem fs t a →
      ∀ q, t.Owns q → q % L.pageBytes = 0 := by
  intro fs
  induction fs with
  | nil => intro t a h q hq; exact absurd hq (EntryRep.not_owns h q)
  | cons f fs ih =>
      intro t a h q hq
      cases t with
      | empty => exact absurd hq id
      | leaf v => exact absurd hq id
      | table p slot =>
          obtain ⟨_, hAligned, _, hBelow, hOut⟩ := h
          rcases hq with rfl | ⟨i, hq⟩
          · exact hAligned
          · by_cases hi : i < f
            · exact ih (slot i) _ (hBelow i hi) q hq
            · rw [hOut i (Nat.le_of_not_lt hi)] at hq
              exact absurd hq id

/-- The frame rule: the representation depends on the root slot and on the
owned pages only. -/
theorem SlotRep.congr :
    ∀ (fs : List Nat) (t : RadixTree α) (a : Nat), L.SlotRep mem fs t a →
      mem' a = mem a → (∀ x, L.Covers t x → mem' x = mem x) →
      L.SlotRep mem' fs t a := by
  intro fs
  induction fs with
  | nil =>
      intro t a h hRoot _
      show L.EntryRep t (mem' a)
      rw [hRoot]
      exact h
  | cons f fs ih =>
      intro t a h hRoot hPages
      cases t with
      | empty => exact hRoot.trans h
      | leaf v => exact h
      | table p slot =>
          obtain ⟨hLink, hAligned, hSize, hBelow, hOut⟩ := h
          refine ⟨hRoot.trans hLink, hAligned, hSize, ?_, hOut⟩
          intro i hi
          refine ih (slot i) _ (hBelow i hi) ?_ ?_
          · exact hPages _ ⟨p, Or.inl rfl, inPage_slot hi L.stride_pos hSize⟩
          · rintro x ⟨q, hq, hx⟩
            exact hPages x ⟨q, Or.inr ⟨i, hq⟩, hx⟩

/--
One slot of a table is replaced.  Memory may have changed in the slot itself
and in the pages of the new subtree, which are those of the old one and
pages that were nowhere in the tree.
-/
structure Focus (L : Layout α) (mem mem' : Nat → Nat) (f p i : Nat)
    (slot : Nat → RadixTree α) (u : RadixTree α) (new : List Nat) : Prop where
  aligned : p % L.pageBytes = 0
  fits : f * L.stride ≤ L.pageBytes
  separated : (RadixTree.table p slot).Separated
  index_lt : i < f
  subAligned : ∀ q, u.Owns q → q % L.pageBytes = 0
  owns : ∀ q, u.Owns q ↔ (slot i).Owns q ∨ q ∈ new
  fresh : ∀ q ∈ new, ¬ (RadixTree.table p slot).Owns q
  frame : ∀ x, x ≠ p + i * L.stride → ¬ L.Covers u x → mem' x = mem x

section Focus

variable {f p i : Nat} {slot : Nat → RadixTree α} {u : RadixTree α} {new : List Nat}

/-- The table's own page does not meet the new subtree. -/
theorem Focus.page_apart (h : Focus L mem mem' f p i slot u new) {x : Nat}
    (hx : InPage L.pageBytes p x) : ¬ L.Covers u x := by
  rintro ⟨q, hq, hxq⟩
  have hqp : q = p := inPage_unique (h.subAligned q hq) h.aligned hxq hx
  rcases (h.owns q).mp hq with hOld | hIn
  · exact h.separated.1 i (hqp ▸ hOld)
  · exact h.fresh q hIn (Or.inl hqp)

/-- The other slots of the table keep their words. -/
theorem Focus.word (h : Focus L mem mem' f p i slot u new) {j : Nat} (hj : j < f)
    (hji : j ≠ i) : mem' (p + j * L.stride) = mem (p + j * L.stride) := by
  refine h.frame _ ?_ (h.page_apart (inPage_slot hj L.stride_pos h.fits))
  intro hEq
  exact hji (Nat.eq_of_mul_eq_mul_right L.stride_pos (Nat.add_left_cancel hEq))

/-- The other slots of the table keep their subtrees. -/
theorem Focus.sibling (h : Focus L mem mem' f p i slot u new) {fs : List Nat}
    {j : Nat} (hj : j < f) (hji : j ≠ i)
    (hRep : L.SlotRep mem fs (slot j) (p + j * L.stride)) :
    L.SlotRep mem' fs (slot j) (p + j * L.stride) := by
  obtain ⟨hRoot, hApart, _⟩ := h.separated
  refine SlotRep.congr fs (slot j) _ hRep (h.word hj hji) ?_
  rintro x ⟨q', hq', hxq'⟩
  have hq'Aligned := SlotRep.aligned fs (slot j) _ hRep q' hq'
  refine h.frame x ?_ ?_
  · rintro rfl
    have hEq : q' = p := inPage_unique hq'Aligned h.aligned hxq'
      (inPage_slot h.index_lt L.stride_pos h.fits)
    exact hRoot j (hEq ▸ hq')
  · rintro ⟨q, hq, hxq⟩
    have hEq : q = q' := inPage_unique (h.subAligned q hq) hq'Aligned hxq hxq'
    subst hEq
    rcases (h.owns q).mp hq with hOld | hIn
    · exact hji (hApart j i q hq' hOld)
    · exact h.fresh q hIn (Or.inr ⟨j, hq'⟩)

/-- An address outside the tree and the new pages keeps its word. -/
theorem Focus.outside (h : Focus L mem mem' f p i slot u new) {a : Nat}
    (hOutside : ¬ L.Covers (.table p slot) a)
    (hNew : ∀ q ∈ new, ¬ InPage L.pageBytes q a) : mem' a = mem a := by
  refine h.frame a ?_ ?_
  · rintro rfl
    exact hOutside ⟨p, Or.inl rfl, inPage_slot h.index_lt L.stride_pos h.fits⟩
  · rintro ⟨q, hq, hxq⟩
    rcases (h.owns q).mp hq with hOld | hIn
    · exact hOutside ⟨q, Or.inr ⟨i, hOld⟩, hxq⟩
    · exact hNew q hIn hxq

/-- Replacing the subtree of one slot keeps the table represented. -/
theorem Focus.table (h : Focus L mem mem' f p i slot u new) {fs : List Nat}
    {a : Nat} (hRep : L.SlotRep mem (f :: fs) (.table p slot) a)
    (hu : L.SlotRep mem' fs u (p + i * L.stride))
    (hOutside : ¬ L.Covers (.table p slot) a)
    (hNew : ∀ q ∈ new, ¬ InPage L.pageBytes q a) :
    L.SlotRep mem' (f :: fs) (.table p (Function.update slot i u)) a := by
  obtain ⟨hLink, hAligned, hSize, hBelow, hOut⟩ := hRep
  refine ⟨(h.outside hOutside hNew).trans hLink, hAligned, hSize, ?_, ?_⟩
  · intro j hj
    by_cases hji : j = i
    · rw [hji, Function.update_self]
      exact hu
    · rw [Function.update_of_ne hji]
      exact h.sibling hj hji (hBelow j hj)
  · intro j hj
    have hi := h.index_lt
    rw [Function.update_of_ne (by omega)]
    exact hOut j hj

end Focus

/-- Following a path that exists: its last slot represents the subtree. -/
theorem SlotRep.sub :
    ∀ (path fs : List Nat) (t : RadixTree α) (a : Nat),
      List.Forall₂ (· < ·) path fs → L.SlotRep mem fs t a → t.HasPath path →
      L.EntryRep (t.sub path) (mem (t.slotAddr L.stride path a)) := by
  intro path
  induction path with
  | nil =>
      intro fs t a hIn h _
      cases hIn
      rw [sub_nil, slotAddr_nil]
      exact h
  | cons i path ih =>
      intro fs t a hIn h hPath
      obtain ⟨f, fs, hi, hTail, rfl⟩ := List.forall₂_cons_left_iff.mp hIn
      cases t with
      | empty => exact absurd hPath id
      | leaf v => exact absurd hPath id
      | table p slot =>
          obtain ⟨_, _, _, hBelow, _⟩ := h
          exact ih fs (slot i) _ hTail (hBelow i hi) hPath

/-- Past the root slot, the slot a path ends in lies in a page of the tree. -/
theorem SlotRep.slotAddr_covered :
    ∀ (path fs : List Nat) (t : RadixTree α) (a : Nat),
      List.Forall₂ (· < ·) path fs → L.SlotRep mem fs t a → t.HasPath path →
      t.slotAddr L.stride path a = a ∨ L.Covers t (t.slotAddr L.stride path a) := by
  intro path
  induction path with
  | nil => intro fs t a _ _ _; exact Or.inl (slotAddr_nil _ t a)
  | cons i path ih =>
      intro fs t a hIn h hPath
      obtain ⟨f, fs, hi, hTail, rfl⟩ := List.forall₂_cons_left_iff.mp hIn
      cases t with
      | empty => exact absurd hPath id
      | leaf v => exact absurd hPath id
      | table p slot =>
          obtain ⟨_, _, hSize, hBelow, _⟩ := h
          refine Or.inr ?_
          show L.Covers _ ((slot i).slotAddr L.stride path (p + i * L.stride))
          rcases ih fs (slot i) _ hTail (hBelow i hi) hPath with hEq | ⟨q, hq, hx⟩
          · rw [hEq]
            exact ⟨p, Or.inl rfl, inPage_slot hi L.stride_pos hSize⟩
          · exact ⟨q, Or.inr ⟨i, hq⟩, hx⟩

/-- The update rule: writing the slot at the end of a path sets the bottom
entry there and keeps the representation. -/
theorem SlotRep.write {u : RadixTree α} {w : Nat} (hu : L.EntryRep u w) :
    ∀ (path fs : List Nat) (t : RadixTree α) (a : Nat),
      List.Forall₂ (· < ·) path fs → L.SlotRep mem fs t a → t.Separated →
      ¬ L.Covers t a → t.HasPath path →
      L.SlotRep (Function.update mem (t.slotAddr L.stride path a) w) fs
        (t.set path u) a := by
  intro path
  induction path with
  | nil =>
      intro fs t a hIn _ _ _ _
      cases hIn
      show L.EntryRep (t.set [] u) (Function.update mem _ w a)
      simpa using hu
  | cons i path ih =>
      intro fs t a hIn h hSep hOutside hPath
      obtain ⟨f, fs, hi, hTail, rfl⟩ := List.forall₂_cons_left_iff.mp hIn
      cases t with
      | empty => exact absurd hPath id
      | leaf v => exact absurd hPath id
      | table p slot =>
          have hAll := h
          obtain ⟨_, hAligned, hSize, hBelow, _⟩ := h
          have hSlot := hBelow i hi
          have hSlotOut : ¬ L.Covers (slot i) (p + i * L.stride) := by
            rintro ⟨q, hq, hx⟩
            have hqp : q = p := inPage_unique
              (SlotRep.aligned fs (slot i) _ hSlot q hq) hAligned hx
              (inPage_slot hi L.stride_pos hSize)
            exact hSep.1 i (hqp ▸ hq)
          have hOwns : ∀ q, ((slot i).set path u).Owns q ↔ (slot i).Owns q := by
            refine owns_set path (slot i) fun q => ?_
            have hOld := SlotRep.sub path fs (slot i) _ hTail hSlot hPath
            exact iff_of_false (EntryRep.not_owns hu q)
              (EntryRep.not_owns hOld q)
          have hFocus : Focus L mem (Function.update mem
              ((slot i).slotAddr L.stride path (p + i * L.stride)) w) f p i slot
              ((slot i).set path u) [] :=
            { aligned := hAligned
              fits := hSize
              separated := hSep
              index_lt := hi
              subAligned := fun q hq =>
                SlotRep.aligned fs (slot i) _ hSlot q ((hOwns q).mp hq)
              owns := fun q => by simpa using hOwns q
              fresh := by simp
              frame := by
                intro x hx hNot
                refine Function.update_of_ne ?_ w mem
                rintro rfl
                rcases SlotRep.slotAddr_covered path fs (slot i) _ hTail hSlot
                  hPath with hEq | ⟨q, hq, hIn⟩
                · exact hx hEq
                · exact hNot ⟨q, (hOwns q).mpr hq, hIn⟩ }
          exact hFocus.table hAll
            (ih fs (slot i) _ hTail hSlot (hSep.2.2 i) hSlotOut hPath) hOutside
            (by simp)

end Representation

end AbstractMachine.Lib
