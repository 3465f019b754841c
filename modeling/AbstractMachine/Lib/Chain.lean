import Mathlib.Data.List.Nodup
import Mathlib.Logic.Function.Basic

/-!
# Singly linked lists in memory

`next` gives the successor of every node and 0 is the null pointer.
`Chain next p l` says that a traversal from `p` visits exactly the nodes `l`
and stops at null.  `Endless next p` is the opposite: the traversal stays
inside a set of nodes that never leads to null.

Pushing a node in front of a list that does not contain it gives a longer
list; pushing a node that the list already contains makes it endless, and
no further push repairs it.
-/

namespace AbstractMachine.Lib

/-- A traversal from `p` visits `l` and then reaches null. -/
def Chain (next : Nat → Nat) : Nat → List Nat → Prop
  | p, [] => p = 0
  | p, q :: l => p = q ∧ q ≠ 0 ∧ Chain next (next q) l

/-- The nodes a traversal from `p` visits, if it ends within `fuel` nodes. -/
def visits (next : Nat → Nat) : Nat → Nat → Option (List Nat)
  | 0, p => if p = 0 then some [] else none
  | fuel + 1, p => if p = 0 then some [] else (visits next fuel (next p)).map (p :: ·)

/-- The traversal from `p` never reaches null. -/
def Endless (next : Nat → Nat) (p : Nat) : Prop :=
  ∃ inside : Nat → Prop, inside p ∧ ∀ q, inside q → q ≠ 0 ∧ inside (next q)

section

variable {next next' : Nat → Nat}

/-! ## Chains -/

theorem chain_ne_zero : ∀ {l : List Nat} {p : Nat}, Chain next p l → 0 ∉ l := by
  intro l
  induction l with
  | nil => intro p _; simp
  | cons q l ih =>
      intro p h
      simp only [List.mem_cons, not_or]
      exact ⟨fun h0 => h.2.1 h0.symm, ih h.2.2⟩

/-- The frame rule: a chain reads the successors of its own nodes only. -/
theorem Chain.congr : ∀ {l : List Nat} {p : Nat}, Chain next p l →
    (∀ q ∈ l, next' q = next q) → Chain next' p l := by
  intro l
  induction l with
  | nil => intro p h _; exact h
  | cons q l ih =>
      intro p h hSame
      refine ⟨h.1, h.2.1, ?_⟩
      rw [hSame q (by simp)]
      apply ih h.2.2
      intro r hr
      exact hSame r (by simp [hr])

/-- A traversal is determined by where it starts. -/
theorem Chain.unique : ∀ {l l' : List Nat} {p : Nat}, Chain next p l →
    Chain next p l' → l = l' := by
  intro l
  induction l with
  | nil =>
      intro l' p h h'
      cases l' with
      | nil => rfl
      | cons q l' => exact absurd (h'.1.symm.trans h) h'.2.1
  | cons q l ih =>
      intro l' p h h'
      cases l' with
      | nil => exact absurd (h.1.symm.trans h') h.2.1
      | cons r l' =>
          have hqr : q = r := h.1.symm.trans h'.1
          subst hqr
          rw [ih h.2.2 h'.2.2]

/-- From any of its nodes on, a chain is a chain. -/
theorem Chain.suffix : ∀ {l : List Nat} {p q : Nat}, Chain next p l → q ∈ l →
    ∃ l', Chain next q l' ∧ l'.length ≤ l.length := by
  intro l
  induction l with
  | nil => intro p q _ hq; simp at hq
  | cons r l ih =>
      intro p q h hq
      by_cases hqr : q = r
      · subst hqr
        exact ⟨q :: l, ⟨rfl, h.2.1, h.2.2⟩, Nat.le_refl _⟩
      · have hTail : q ∈ l := by simpa [hqr] using hq
        have hSuffix := ih h.2.2 hTail
        obtain ⟨l', hChain, hLen⟩ := hSuffix
        refine ⟨l', hChain, ?_⟩
        simp only [List.length_cons]
        omega

/-- A chain visits no node twice. -/
theorem Chain.nodup : ∀ {l : List Nat} {p : Nat}, Chain next p l → l.Nodup := by
  intro l
  induction l with
  | nil => intro p _; exact List.nodup_nil
  | cons q l ih =>
      intro p h
      rw [List.nodup_cons]
      refine ⟨?_, ih h.2.2⟩
      intro hq
      -- otherwise a shorter traversal from `q` would have to be this one
      have hSuffix := h.2.2.suffix hq
      obtain ⟨l', hChain, hLen⟩ := hSuffix
      have hEq : q :: l = l' := Chain.unique ⟨rfl, h.2.1, h.2.2⟩ hChain
      rw [← hEq, List.length_cons] at hLen
      omega

/-- Pushing a node that is not in the list. -/
theorem Chain.push {p n : Nat} {l : List Nat} (h : Chain next p l) (hn : n ≠ 0)
    (hNew : n ∉ l) (hLink : next' n = p) (hSame : ∀ q, q ≠ n → next' q = next q) :
    Chain next' n (n :: l) := by
  refine ⟨rfl, hn, ?_⟩
  rw [hLink]
  apply h.congr
  intro q hq
  apply hSame
  intro hEq
  exact hNew (hEq ▸ hq)

/-- A bounded traversal succeeds exactly on chains. -/
theorem visits_of_chain : ∀ {l : List Nat} {p fuel : Nat}, Chain next p l →
    l.length ≤ fuel → visits next fuel p = some l := by
  intro l
  induction l with
  | nil =>
      intro p fuel h _
      have h0 : p = 0 := h
      cases fuel <;> simp [visits, h0]
  | cons q l ih =>
      intro p fuel h hLen
      have hpq : p = q := h.1
      subst hpq
      cases fuel with
      | zero => simp at hLen
      | succ fuel =>
          have hTail := @ih _ fuel h.2.2 (by simpa using hLen)
          simp [visits, h.2.1, hTail]

theorem chain_of_visits : ∀ {fuel p : Nat} {l : List Nat},
    visits next fuel p = some l → Chain next p l := by
  intro fuel
  induction fuel with
  | zero =>
      intro p l h
      unfold visits at h
      split at h
      · cases h
        assumption
      · cases h
  | succ fuel ih =>
      intro p l h
      unfold visits at h
      split at h
      · cases h
        assumption
      · rename_i hp
        cases hTail : visits next fuel (next p) with
        | none =>
            rw [hTail] at h
            cases h
        | some l' =>
            rw [hTail] at h
            cases h
            exact ⟨rfl, hp, ih hTail⟩

theorem visits_length : ∀ {fuel p : Nat} {l : List Nat},
    visits next fuel p = some l → l.length ≤ fuel := by
  intro fuel
  induction fuel with
  | zero =>
      intro p l h
      unfold visits at h
      split at h
      · cases h
        simp
      · cases h
  | succ fuel ih =>
      intro p l h
      unfold visits at h
      split at h
      · cases h
        simp
      · cases hTail : visits next fuel (next p) with
        | none =>
            rw [hTail] at h
            cases h
        | some l' =>
            rw [hTail] at h
            cases h
            have hLen := ih hTail
            simp only [List.length_cons]
            omega

/-! ## Endless traversals -/

theorem Endless.not_chain {p : Nat} (h : Endless next p) :
    ∀ l, ¬ Chain next p l := by
  obtain ⟨inside, hp, hClosed⟩ := h
  have hAll : ∀ (l : List Nat) (q : Nat), inside q → ¬ Chain next q l := by
    intro l
    induction l with
    | nil =>
        intro q hq hChain
        exact (hClosed q hq).1 hChain
    | cons r l ih =>
        intro q hq hChain
        apply ih (next r) _ hChain.2.2
        rw [← hChain.1]
        exact (hClosed q hq).2
  intro l
  exact hAll l p hp

/-- Pushing any node on an endless list leaves it endless. -/
theorem Endless.push {p n : Nat} (h : Endless next p) (hn : n ≠ 0)
    (hLink : next' n = p) (hSame : ∀ q, q ≠ n → next' q = next q) :
    Endless next' n := by
  obtain ⟨inside, hp, hClosed⟩ := h
  refine ⟨fun q => q = n ∨ inside q, Or.inl rfl, ?_⟩
  intro q hq
  by_cases hqn : q = n
  · subst hqn
    rw [hLink]
    exact ⟨hn, Or.inr hp⟩
  · have hIn : inside q := hq.resolve_left hqn
    rw [hSame q hqn]
    exact ⟨(hClosed q hIn).1, Or.inr (hClosed q hIn).2⟩

/-- The nodes of a list from its head up to one of its nodes. -/
theorem Chain.prefix : ∀ {l : List Nat} {p n : Nat}, Chain next p l → n ∈ l →
    ∃ inside : Nat → Prop, inside p ∧ inside n ∧
      ∀ q, inside q → q ≠ 0 ∧ (q ≠ n → inside (next q)) := by
  intro l
  induction l with
  | nil => intro p n _ hn; simp at hn
  | cons r l ih =>
      intro p n h hn
      have hpr : p = r := h.1
      subst hpr
      by_cases hEq : n = p
      · subst hEq
        refine ⟨fun q => q = n, rfl, rfl, ?_⟩
        intro q hq
        subst hq
        exact ⟨h.2.1, fun hNe => absurd rfl hNe⟩
      · have hTail : n ∈ l := by simpa [hEq] using hn
        have hRest := ih h.2.2 hTail
        obtain ⟨inside, hHead, hn', hClosed⟩ := hRest
        refine ⟨fun q => q = p ∨ inside q, Or.inl rfl, Or.inr hn', ?_⟩
        intro q hq
        by_cases hqp : q = p
        · subst hqp
          exact ⟨h.2.1, fun _ => Or.inr hHead⟩
        · have hIn : inside q := hq.resolve_left hqp
          exact ⟨(hClosed q hIn).1, fun hNe => Or.inr ((hClosed q hIn).2 hNe)⟩

/-- Pushing a node that the list contains closes a cycle. -/
theorem Chain.endless {p n : Nat} {l : List Nat} (h : Chain next p l) (hn : n ∈ l)
    (hLink : next' n = p) (hSame : ∀ q, q ≠ n → next' q = next q) :
    Endless next' n := by
  obtain ⟨inside, hp, hn', hClosed⟩ := h.prefix hn
  refine ⟨inside, hn', ?_⟩
  intro q hq
  refine ⟨(hClosed q hq).1, ?_⟩
  by_cases hqn : q = n
  · rw [hqn, hLink]
    exact hp
  · rw [hSame q hqn]
    exact (hClosed q hq).2 hqn

end

end AbstractMachine.Lib
