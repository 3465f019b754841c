import AbstractMachine.Lib.Transition
import Mathlib.Logic.Relation

/-!
# Forward simulation

A machine that takes one step after another matches the steps of a system, each
with as many of its own as it needs.  It may need none, as long as a rank of the
system's state goes down: a system that runs forever is then matched by a machine
that does.

## Main results

* `Simulates.run` -- every run of the system is matched.
* `Simulates.forever` -- if the system runs forever, the machine never stops.
* `System.Run.simulate` -- the same for one transition system and another.
-/

namespace AbstractMachine.Lib

variable {σ τ : Type}

/-! ## Machines -/

/-- `n` steps of a machine. -/
def iterate (step : τ → Option τ) : Nat → τ → Option τ
  | 0, t => some t
  | n + 1, t => (step t).bind (iterate step n)

section

variable {step : τ → Option τ} {t u v : τ} {m n : Nat}

theorem iterate_succ (h : step t = some u) : iterate step (n + 1) t = iterate step n u := by
  rw [iterate, h]
  rfl

theorem iterate_add (h : iterate step m t = some u) :
    iterate step (m + n) t = iterate step n u := by
  induction m generalizing t with
  | zero =>
      cases h
      rw [Nat.zero_add]
  | succ m ih =>
      obtain ⟨w, hStep, hRest⟩ := Option.bind_eq_some_iff.mp h
      rw [Nat.succ_add, iterate_succ hStep]
      exact ih hRest

/-- A machine that takes `n` steps takes fewer. -/
theorem iterate_le (h : iterate step n t = some u) (hm : m ≤ n) :
    ∃ v, iterate step m t = some v := by
  induction m generalizing n t with
  | zero => exact ⟨t, rfl⟩
  | succ m ih =>
      cases n with
      | zero => exact absurd hm (Nat.not_succ_le_zero m)
      | succ n =>
          obtain ⟨w, hStep, hRest⟩ := Option.bind_eq_some_iff.mp h
          obtain ⟨v, hv⟩ := ih hRest (Nat.le_of_succ_le_succ hm)
          exact ⟨v, (iterate_succ hStep).trans hv⟩

end

/-! ## Simulation -/

/-- Each step of the system is matched by some steps of the machine. -/
structure Simulates (next : σ → σ → Prop) (step : τ → Option τ) (R : σ → τ → Prop)
    (rank : σ → Nat) : Prop where
  simulate : ∀ s s' t, R s t → next s s' →
    ∃ n t', iterate step n t = some t' ∧ R s' t' ∧ (n = 0 → rank s' < rank s)

namespace Simulates

variable {next : σ → σ → Prop} {step : τ → Option τ} {R : σ → τ → Prop} {rank : σ → Nat}
  {s s' : σ} {t : τ} {f : Nat → σ}

theorem run (h : Simulates next step R rank) (hRun : Relation.ReflTransGen next s s')
    (hR : R s t) : ∃ n t', iterate step n t = some t' ∧ R s' t' := by
  induction hRun with
  | refl => exact ⟨0, t, rfl, hR⟩
  | tail _ hNext ih =>
      obtain ⟨m, u, hIter, hU⟩ := ih
      obtain ⟨n, t', hStep, hT', -⟩ := h.simulate _ _ u hU hNext
      exact ⟨m + n, t', (iterate_add hIter).trans hStep, hT'⟩

/-- Sooner or later the machine takes a step. -/
theorem advances (h : Simulates next step R rank) (hf : ∀ k, next (f k) (f (k + 1)))
    {k : Nat} (hR : R (f k) t) :
    ∃ k' n t', iterate step (n + 1) t = some t' ∧ R (f k') t' := by
  induction hRank : rank (f k) using Nat.strongRecOn generalizing k t with
  | ind r ih =>
      obtain ⟨n, t', hIter, hT', hZero⟩ := h.simulate _ _ t hR (hf k)
      cases n with
      | succ n => exact ⟨k + 1, n, t', hIter, hT'⟩
      | zero =>
          cases hIter
          exact ih _ (hRank ▸ hZero rfl) hT' rfl

theorem forever (h : Simulates next step R rank) (hf : ∀ k, next (f k) (f (k + 1)))
    (hR : R (f 0) t) (n : Nat) : ∃ u, iterate step n t = some u := by
  have hFar : ∃ k m u, n ≤ m ∧ iterate step m t = some u ∧ R (f k) u := by
    induction n with
    | zero => exact ⟨0, 0, t, Nat.le_refl 0, rfl, hR⟩
    | succ n ih =>
        obtain ⟨k, m, u, hm, hIter, hU⟩ := ih
        obtain ⟨k', n', u', hStep, hU'⟩ := h.advances hf hU
        exact ⟨k', m + (n' + 1), u', by omega, (iterate_add hIter).trans hStep, hU'⟩
  obtain ⟨k, m, u, hm, hIter, -⟩ := hFar
  exact iterate_le hIter hm

end Simulates

/-! ## Transition systems -/

/-- Each step of `S` is matched by a run of `T`. -/
theorem System.Run.simulate {ι κ : Type} {S : System σ ι} {T : System τ κ} {R : σ → τ → Prop}
    {s s' : σ} {t : τ} (h : System.Run S s s')
    (hStep : ∀ s a s' t, R s t → S.next s a = some s' → ∃ t', R s' t' ∧ System.Run T t t')
    (hR : R s t) : ∃ t', R s' t' ∧ System.Run T t t' := by
  induction h with
  | refl => exact ⟨t, hR, .refl t⟩
  | step a _ hNext ih =>
      obtain ⟨u, hU, hRun⟩ := ih
      obtain ⟨v, hV, hMore⟩ := hStep _ a _ u hU hNext
      exact ⟨v, hV, hRun.trans hMore⟩

end AbstractMachine.Lib
