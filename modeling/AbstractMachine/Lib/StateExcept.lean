/-!
# Stateful computations that may fail

The models are written in `StateT σ (Except ε)`.  A proof never runs such a
program by unfolding the monad: it inverts a successful run with the lemmas
below, one program step at a time.  What a program can end with at all is
said by `Ends`, which has one rule for each way to build a program.
-/

namespace AbstractMachine.Lib

variable {ε σ α β : Type}

/-- A successful sequence splits into two successful halves. -/
theorem bind_eq_ok {x : StateT σ (Except ε) α}
    {f : α → StateT σ (Except ε) β} {s s' : σ} {b : β} :
    (x >>= f).run s = .ok (b, s') ↔
      ∃ a t, x.run s = .ok (a, t) ∧ (f a).run t = .ok (b, s') := by
  show (Except.bind (x.run s) fun p => (f p.1).run p.2) = _ ↔ _
  constructor
  · intro h
    cases hx : x.run s with
    | error e =>
        rw [hx] at h
        cases h
    | ok p =>
        rw [hx] at h
        exact ⟨p.1, p.2, rfl, h⟩
  · rintro ⟨a, t, hx, hf⟩
    rw [hx]
    exact hf

theorem pure_eq_ok {a b : α} {s s' : σ} :
    (pure a : StateT σ (Except ε) α).run s = .ok (b, s') ↔ a = b ∧ s = s' := by
  show Except.ok (a, s) = .ok (b, s') ↔ _
  constructor
  · intro h
    cases h
    exact ⟨rfl, rfl⟩
  · rintro ⟨rfl, rfl⟩
    rfl

theorem throw_ne_ok {e : ε} {s s' : σ} {b : α} :
    (throw e : StateT σ (Except ε) α).run s ≠ .ok (b, s') := by
  intro h
  cases h

theorem get_eq_ok {s s' t : σ} :
    (get : StateT σ (Except ε) σ).run s = .ok (t, s') ↔ s = t ∧ s = s' := by
  constructor
  · intro h
    cases h
    exact ⟨rfl, rfl⟩
  · rintro ⟨rfl, rfl⟩
    rfl

theorem modify_eq_ok {f : σ → σ} {s s' : σ} {u : Unit} :
    (modify f : StateT σ (Except ε) Unit).run s = .ok (u, s') ↔ s' = f s := by
  constructor
  · intro h
    cases h
    rfl
  · rintro rfl
    rfl

/-- A sequence that fails does so in its first or in its second half. -/
theorem bind_eq_error {x : StateT σ (Except ε) α}
    {f : α → StateT σ (Except ε) β} {s : σ} {e : ε} :
    (x >>= f).run s = .error e →
      x.run s = .error e ∨ ∃ a t, x.run s = .ok (a, t) ∧ (f a).run t = .error e := by
  show (Except.bind (x.run s) fun p => (f p.1).run p.2) = _ → _
  intro h
  cases hx : x.run s with
  | error e' =>
      rw [hx] at h
      cases h
      exact Or.inl rfl
  | ok p =>
      rw [hx] at h
      exact Or.inr ⟨p.1, p.2, rfl, h⟩

/-- A failing loop fails in one of its iterations. -/
theorem forM_eq_error {f : α → StateT σ (Except ε) Unit} {e : ε} :
    ∀ (xs : List α) (s : σ), (xs.forM f).run s = .error e →
      ∃ x ∈ xs, ∃ t, (f x).run t = .error e := by
  intro xs
  induction xs with
  | nil => intro s h; cases h
  | cons x xs ih =>
      intro s h
      have h' : (f x >>= fun _ => xs.forM f).run s = .error e := h
      rcases bind_eq_error h' with hx | ⟨_, t, _, hRest⟩
      · exact ⟨x, List.mem_cons_self .., s, hx⟩
      · obtain ⟨y, hy, hFail⟩ := ih t hRest
        exact ⟨y, List.mem_cons_of_mem x hy, hFail⟩

/-- Whether a computation succeeds from a given state. -/
def succeeds (x : StateT σ (Except ε) α) (s : σ) : Bool :=
  match x.run s with
  | .ok _ => true
  | .error _ => false

theorem exists_of_succeeds {x : StateT σ (Except ε) α} {s : σ}
    (h : succeeds x s = true) : ∃ a s', x.run s = .ok (a, s') := by
  unfold succeeds at h
  cases hx : x.run s with
  | error e =>
      rw [hx] at h
      cases h
  | ok p => exact ⟨p.1, p.2, rfl⟩

/-- A loop over a list, one iteration at a time. -/
theorem forM_cons_eq_ok {x : α} {xs : List α}
    {f : α → StateT σ (Except ε) Unit} {s s' : σ} {u : Unit} :
    ((x :: xs).forM f).run s = .ok (u, s') ↔
      ∃ t, (f x).run s = .ok ((), t) ∧ (xs.forM f).run t = .ok (u, s') := by
  show (f x >>= fun _ => xs.forM f).run s = _ ↔ _
  rw [bind_eq_ok]
  constructor
  · rintro ⟨v, t, h⟩
    exact ⟨t, h⟩
  · rintro ⟨t, h⟩
    exact ⟨(), t, h⟩

theorem forM_nil_eq_ok {f : α → StateT σ (Except ε) Unit} {s s' : σ} {u : Unit} :
    (([] : List α).forM f).run s = .ok (u, s') ↔ s = s' := by
  show (pure () : StateT σ (Except ε) Unit).run s = _ ↔ _
  rw [pure_eq_ok]
  exact ⟨fun h => h.2, fun h => ⟨rfl, h⟩⟩

theorem forM_append_eq_ok {xs ys : List α} {f : α → StateT σ (Except ε) Unit}
    {s s' : σ} {u : Unit} :
    ((xs ++ ys).forM f).run s = .ok (u, s') ↔
      ∃ t, (xs.forM f).run s = .ok ((), t) ∧ (ys.forM f).run t = .ok (u, s') := by
  induction xs generalizing s with
  | nil =>
      constructor
      · intro h
        exact ⟨s, rfl, h⟩
      · rintro ⟨t, ht, h⟩
        rw [← forM_nil_eq_ok.mp ht] at h
        exact h
  | cons x xs ih =>
      rw [List.cons_append, forM_cons_eq_ok]
      constructor
      · rintro ⟨t, hx, h⟩
        obtain ⟨t', hxs, hys⟩ := ih.mp h
        exact ⟨t', forM_cons_eq_ok.mpr ⟨t, hx, hxs⟩, hys⟩
      · rintro ⟨t', h, hys⟩
        obtain ⟨t, hx, hxs⟩ := forM_cons_eq_ok.mp h
        exact ⟨t, hx, ih.mpr ⟨t', hxs, hys⟩⟩

/-- A counting loop whose every iteration succeeds and keeps an indexed
invariant succeeds. -/
theorem forM_range_total {f : Nat → StateT σ (Except ε) Unit} (inv : Nat → σ → Prop) :
    ∀ (n : Nat) (s : σ), inv 0 s →
      (∀ k < n, ∀ t, inv k t → ∃ t', (f k).run t = .ok ((), t') ∧ inv (k + 1) t') →
      ∃ s', ((List.range n).forM f).run s = .ok ((), s') ∧ inv n s' := by
  intro n
  induction n with
  | zero => intro s hInv _; exact ⟨s, rfl, hInv⟩
  | succ n ih =>
      intro s hInv hStep
      obtain ⟨t, hRun, ht⟩ := ih s hInv fun k hk => hStep k (Nat.lt_succ_of_lt hk)
      obtain ⟨t', hLast, ht'⟩ := hStep n (Nat.lt_succ_self n) t ht
      refine ⟨t', ?_, ht'⟩
      rw [List.range_succ, forM_append_eq_ok]
      exact ⟨t, hRun, forM_cons_eq_ok.mpr ⟨t', hLast, rfl⟩⟩

/-! ## All ends of a computation -/

/-- The computation succeeds with `Q` or fails with `E`. -/
def Ends (x : StateT σ (Except ε) α) (s : σ) (Q : α → σ → Prop) (E : ε → Prop) : Prop :=
  match x.run s with
  | .ok (a, t) => Q a t
  | .error e => E e

section

variable {x : StateT σ (Except ε) α} {f : α → StateT σ (Except ε) β} {s : σ}
  {Q : α → σ → Prop} {R : β → σ → Prop} {E : ε → Prop}

theorem Ends.of_ok {a : α} {t : σ} (h : x.run s = .ok (a, t)) (hQ : Q a t) : Ends x s Q E := by
  unfold Ends
  rw [h]
  exact hQ

theorem Ends.of_error {e : ε} (h : x.run s = .error e) (hE : E e) : Ends x s Q E := by
  unfold Ends
  rw [h]
  exact hE

theorem Ends.bind (h : Ends x s Q E) (hNext : ∀ a t, Q a t → Ends (f a) t R E) :
    Ends (x >>= f) s R E := by
  unfold Ends at h
  show match Except.bind (x.run s) fun p => (f p.1).run p.2 with
    | .ok (b, t) => R b t
    | .error e => E e
  cases hx : x.run s with
  | error e =>
      rw [hx] at h
      exact h
  | ok p =>
      rw [hx] at h
      exact hNext p.1 p.2 h

theorem Ends.modify {g : σ → σ} {Q : Unit → σ → Prop} (h : Q () (g s)) :
    Ends (modify g : StateT σ (Except ε) Unit) s Q E := h

theorem Ends.pure {a : α} (h : Q a s) : Ends (pure a) s Q E := h

theorem Ends.forM {g : α → StateT σ (Except ε) Unit} {inv : σ → Prop} {xs : List α}
    (hStep : ∀ x ∈ xs, ∀ t, inv t → Ends (g x) t (fun _ => inv) E) :
    ∀ s, inv s → Ends (xs.forM g) s (fun _ => inv) E := by
  induction xs with
  | nil =>
      intro s hs
      exact Ends.of_ok rfl hs
  | cons x xs ih =>
      intro s hs
      show Ends (g x >>= fun _ => xs.forM g) s _ E
      apply (hStep x List.mem_cons_self s hs).bind
      intro _ t ht
      exact ih (fun y hy => hStep y (List.mem_cons_of_mem x hy)) t ht

/-- What is known of every success may be added. -/
theorem Ends.of_run {P : α → σ → Prop} (h : Ends x s P E)
    (hOk : ∀ a t, x.run s = .ok (a, t) → Q a t) : Ends x s Q E := by
  unfold Ends at h ⊢
  cases hx : x.run s with
  | error e =>
      rw [hx] at h
      exact h
  | ok p => exact hOk p.1 p.2 hx

/-- A computation that cannot fail succeeds. -/
theorem Ends.exists_ok (h : Ends x s Q fun _ => False) : ∃ a t, x.run s = .ok (a, t) ∧ Q a t := by
  unfold Ends at h
  cases hx : x.run s with
  | error e =>
      rw [hx] at h
      exact h.elim
  | ok p =>
      rw [hx] at h
      exact ⟨p.1, p.2, rfl, h⟩

end

/-! ## Failures that keep the state -/

section

variable {x : EStateM ε σ α} {f : α → EStateM ε σ β} {s t : σ}

theorem bind_of_ok {a : α} (h : x s = .ok a t) : (x >>= f) s = f a t := by
  show EStateM.bind x f s = _
  unfold EStateM.bind
  rw [h]

theorem bind_of_error {e : ε} (h : x s = .error e t) : (x >>= f) s = .error e t := by
  show EStateM.bind x f s = _
  unfold EStateM.bind
  rw [h]

end

end AbstractMachine.Lib
