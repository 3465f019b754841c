/-!
# Transition systems

A system that takes one labelled step after another.  `next s a` is the
outcome of step `a`: the state after it, or `none` when the step cannot be
taken.  A property of every reachable state is proved by an invariant; a
property of the runs whose steps all meet a condition is a property of the
restricted system.
-/

namespace AbstractMachine.Lib

/-- States `σ`, steps `ι`. -/
structure System (σ ι : Type) where
  init : σ → Prop
  next : σ → ι → Option σ

namespace System

variable {σ ι : Type} {S : System σ ι}

/-- A run from one state to another. -/
inductive Run (S : System σ ι) : σ → σ → Prop where
  | refl (s : σ) : Run S s s
  | step {s t u : σ} (a : ι) (hRun : Run S s t) (hNext : S.next t a = some u) :
      Run S s u

/-- Reached from an initial state. -/
def Reachable (S : System σ ι) (s : σ) : Prop := ∃ s₀, S.init s₀ ∧ Run S s₀ s

theorem Run.trans {s t u : σ} (h : Run S s t) (h' : Run S t u) : Run S s u := by
  induction h' with
  | refl => exact h
  | step a _ hNext ih => exact ih.step a hNext

/-- What every step keeps, every run keeps. -/
theorem Run.inv {P : σ → Prop} {s t : σ} (h : Run S s t)
    (hStep : ∀ s a t, P s → S.next s a = some t → P t) (hs : P s) : P t := by
  induction h with
  | refl => exact hs
  | step a _ hNext ih => exact hStep _ a _ ih hNext

/-- The invariant rule. -/
theorem Reachable.inv {inv : σ → Prop} {s : σ} (h : S.Reachable s)
    (hInit : ∀ s, S.init s → inv s)
    (hStep : ∀ s a t, inv s → S.next s a = some t → inv t) : inv s := by
  obtain ⟨s₀, hs₀, hRun⟩ := h
  exact hRun.inv hStep (hInit s₀ hs₀)

/-- Only the steps that meet the condition. -/
def restrict (S : System σ ι) (cond : σ → ι → Prop) [∀ s a, Decidable (cond s a)] :
    System σ ι where
  init := S.init
  next s a := if cond s a then S.next s a else none

theorem restrict_next {cond : σ → ι → Prop} [∀ s a, Decidable (cond s a)] {s t : σ}
    {a : ι} : (S.restrict cond).next s a = some t ↔ cond s a ∧ S.next s a = some t := by
  show (if cond s a then S.next s a else none) = some t ↔ _
  by_cases h : cond s a <;> simp [h]

/-- A list of steps, taken in order. -/
def steps (S : System σ ι) (s : σ) (as : List ι) : Option σ := as.foldlM S.next s

theorem steps_run {t : σ} :
    ∀ (as : List ι) (s : σ), S.steps s as = some t → Run S s t := by
  intro as
  induction as with
  | nil =>
      intro s h
      cases h
      exact Run.refl _
  | cons a as ih =>
      intro s h
      obtain ⟨u, hNext, hRest⟩ := Option.bind_eq_some_iff.mp h
      exact (Run.step a (Run.refl s) hNext).trans (ih u hRest)

end System

end AbstractMachine.Lib
