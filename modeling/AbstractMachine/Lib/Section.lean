import AbstractMachine.Lib.Transition

/-!
# Critical sections

A critical section works on a memory that others change too, step after step.  The
serial system runs one section at a time: what holds in all its states holds
wherever a lock lets in only one.

## Main definitions

* `Section` -- what is run, and what others may do to the memory.
* `serial` -- one section after another.
* `Exclusive` -- a lock that is held by one at most.
-/

namespace AbstractMachine.Lib

/-- A call starts at a point and goes from point to point until it returns. -/
structure Section (σ Call Point Ret ε : Type) where
  enter : Call → Point
  next : Point → σ → (Point ⊕ Ret) × σ
  env : σ → ε → Option σ

namespace Section

variable {σ Call Point Ret ε : Type}

/-! ## One at a time -/

/-- The serial object: at most one call is inside, and it alone moves the memory. -/
structure Serial (σ Call Point Ret : Type) where
  inside : Option (Call × Point)
  mem : σ
  /-- The calls that have returned, with their results. -/
  log : List (Call × Ret)

/-- The steps of the serial object. -/
inductive SerialStep (Call ε : Type) where
  | enter (c : Call)
  | run
  | env (e : ε)

/-- The call `c` goes on from a step of its section. -/
def Serial.continue (t : Serial σ Call Point Ret) (c : Call) :
    (Point ⊕ Ret) × σ → Serial σ Call Point Ret
  | (.inl p, m) => { t with inside := some (c, p), mem := m }
  | (.inr r, m) => { inside := none, mem := m, log := t.log ++ [(c, r)] }

/-- The section `B` as a serial system: calls run one after another. -/
def serial (B : Section σ Call Point Ret ε) (init : σ → Prop) :
    System (Serial σ Call Point Ret) (SerialStep Call ε) where
  init t := t.inside = none ∧ init t.mem ∧ t.log = []
  next t
    | .enter c =>
        match t.inside with
        | none => some { t with inside := some (c, B.enter c) }
        | some _ => none
    | .run => t.inside.map fun (c, p) => t.continue c (B.next p t.mem)
    | .env e => (B.env t.mem e).map fun m => { t with mem := m }

variable {B : Section σ Call Point Ret ε} {init : σ → Prop} {t t' : Serial σ Call Point Ret}
  {c : Call} {p : Point} {e : ε}

theorem serial_enter (h : t.inside = none) :
    (B.serial init).next t (.enter c) = some { t with inside := some (c, B.enter c) } := by
  show (match t.inside with
    | none => some { t with inside := some (c, B.enter c) }
    | some _ => none) = _
  rw [h]

theorem serial_run (h : t.inside = some (c, p)) :
    (B.serial init).next t .run = some (t.continue c (B.next p t.mem)) := by
  show t.inside.map _ = _
  rw [h]
  rfl

/-- What a step can do. -/
theorem serial_cases {a : SerialStep Call ε} (h : (B.serial init).next t a = some t') :
    (∃ c, t.inside = none ∧ t' = { t with inside := some (c, B.enter c) }) ∨
      (∃ c p, t.inside = some (c, p) ∧ t' = t.continue c (B.next p t.mem)) ∨
      (∃ e m, B.env t.mem e = some m ∧ t' = { t with mem := m }) := by
  cases a with
  | enter c =>
      cases hInside : t.inside with
      | none =>
          rw [serial_enter hInside] at h
          exact Or.inl ⟨c, rfl, (Option.some.inj h).symm⟩
      | some cp =>
          have hNone : (B.serial init).next t (.enter c) = none := by
            show (match t.inside with
              | none => some { t with inside := some (c, B.enter c) }
              | some _ => none) = _
            rw [hInside]
          rw [hNone] at h
          cases h
  | run =>
      obtain ⟨⟨c, p⟩, hInside, hNext⟩ := Option.map_eq_some_iff.mp h
      exact Or.inr (Or.inl ⟨c, p, hInside, hNext.symm⟩)
  | env e =>
      obtain ⟨m, hEnv, hNext⟩ := Option.map_eq_some_iff.mp h
      exact Or.inr (Or.inr ⟨e, m, hEnv, hNext.symm⟩)

/-- The section that is run can come to its end, with what others do. -/
inductive Ends (B : Section σ Call Point Ret ε) : Serial σ Call Point Ret → Prop where
  | done (t : Serial σ Call Point Ret) (h : t.inside = none) : Ends B t
  | run (t : Serial σ Call Point Ret) (c : Call) (p : Point) (h : t.inside = some (c, p))
      (hEnds : Ends B (t.continue c (B.next p t.mem))) : Ends B t
  | env (t : Serial σ Call Point Ret) (e : ε) (m : σ) (h : B.env t.mem e = some m)
      (hEnds : Ends B { t with mem := m }) : Ends B t

end Section

/-! ## Locks -/

/-- A lock is held by at most one, and by nobody when it is free. -/
structure Exclusive {ι : Type} (locked : Prop) (owns : ι → Prop) : Prop where
  held : locked ↔ ∃ i, owns i
  one : ∀ i j, owns i → owns j → i = j

namespace Exclusive

variable {ι : Type} {locked : Prop} {owns owns' : ι → Prop} {i : ι}

theorem free (h : Exclusive locked owns) (hFree : ¬ locked) (j : ι) : ¬ owns j :=
  fun hj => hFree (h.held.mpr ⟨j, hj⟩)

theorem congr (h : Exclusive locked owns) (hOwns : ∀ j, owns' j ↔ owns j) :
    Exclusive locked owns' where
  held := h.held.trans (exists_congr fun j => (hOwns j).symm)
  one j k hj hk := h.one j k ((hOwns j).mp hj) ((hOwns k).mp hk)

/-- The lock is free, and one takes it. -/
theorem acquire (h : Exclusive locked owns) (hFree : ¬ locked) (hi : owns' i)
    (hOthers : ∀ j, j ≠ i → (owns' j ↔ owns j)) : Exclusive True owns' where
  held := ⟨fun _ => ⟨i, hi⟩, fun _ => trivial⟩
  one := by
    have hOnly : ∀ j, owns' j → j = i := by
      intro j hj
      by_cases hji : j = i
      · exact hji
      · exact absurd ((hOthers j hji).mp hj) (h.free hFree j)
    intro j k hj hk
    rw [hOnly j hj, hOnly k hk]

/-- The one that holds the lock gives it back. -/
theorem release (h : Exclusive locked owns) (hi : owns i) (hi' : ¬ owns' i)
    (hOthers : ∀ j, j ≠ i → (owns' j ↔ owns j)) : Exclusive False owns' := by
  have hNone : ∀ j, ¬ owns' j := by
    intro j hj
    by_cases hji : j = i
    · exact hi' (hji ▸ hj)
    · exact hji (h.one j i ((hOthers j hji).mp hj) hi)
  exact ⟨⟨False.elim, fun ⟨j, hj⟩ => hNone j hj⟩, fun j _ hj => absurd hj (hNone j)⟩

end Exclusive

end AbstractMachine.Lib
