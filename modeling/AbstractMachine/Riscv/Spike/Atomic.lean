import AbstractMachine.Lib.Section
import Mathlib.Logic.Function.Basic

/-!
# The spinlock of `atomic.h`

Any number of harts call a critical section under one lock.  A hart waits until
it reads 0, and swaps -1 for what is in the lock; another one may have been
faster.

## Main results

* `spinlock_refines` -- what the harts do, one section after another does as well.
* `spinlock_ends` -- where a section can end, the lock can become free.
-/

namespace AbstractMachine.Riscv.Spike

open AbstractMachine.Lib Section

/-! ## The lock -/

/-- Where a hart is. -/
inductive Hart (Call Point Ret : Type) where
  | outside
  /-- `while (atomic_read(&lock->lock))` -/
  | reading (c : Call)
  /-- `spinlock_trylock` -/
  | trying (c : Call)
  | inside (c : Call) (p : Point)
  /-- `spinlock_unlock`, before the return -/
  | leaving (r : Ret)

/-- Inside, or about to give the lock back. -/
def Hart.owns {Call Point Ret : Type} : Hart Call Point Ret → Prop
  | .inside _ _ => True
  | .leaving _ => True
  | _ => False

/-- The lock, the harts and the memory under the lock. -/
structure Locked (ι σ Call Point Ret : Type) where
  lock : Int
  hart : ι → Hart Call Point Ret
  mem : σ
  /-- The calls whose section has ended, with what they return. -/
  log : List (Call × Ret)

/-- A call, a step of a hart, or a step of the environment. -/
inductive LockedStep (ι Call ε : Type) where
  | call (i : ι) (c : Call)
  | run (i : ι)
  | env (e : ε)

variable {ι σ Call Point Ret ε : Type} [DecidableEq ι]

/-- Hart `i` moves. -/
def Locked.goto (s : Locked ι σ Call Point Ret) (i : ι) (h : Hart Call Point Ret) :
    Locked ι σ Call Point Ret :=
  { s with hart := Function.update s.hart i h }

/-- What a step of the section makes of the machine. -/
def Locked.continue (s : Locked ι σ Call Point Ret) (i : ι) (c : Call) :
    (Point ⊕ Ret) × σ → Locked ι σ Call Point Ret
  | (.inl p, m) => { s with mem := m }.goto i (.inside c p)
  | (.inr r, m) => { s with mem := m, log := s.log ++ [(c, r)] }.goto i (.leaving r)

/-- `spinlock_lock`, the section, `spinlock_unlock`. -/
def spinlockRun (B : Section σ Call Point Ret ε) (s : Locked ι σ Call Point Ret) (i : ι) :
    Option (Locked ι σ Call Point Ret) :=
  match s.hart i with
  | .outside => none
  | .reading c => if s.lock ≠ 0 then some s else some (s.goto i (.trying c))
  | .trying c =>
      let res := s.lock
      let s := { s with lock := -1 }
      if res ≠ 0 then some (s.goto i (.reading c)) else some (s.goto i (.inside c (B.enter c)))
  | .inside c p => some (s.continue i c (B.next p s.mem))
  | .leaving _ => some ({ s with lock := 0 }.goto i .outside)

/-- The section `B` between the two halves of a spin lock, on every hart. -/
def spinlock (ι : Type) [DecidableEq ι] (B : Section σ Call Point Ret ε) (init : σ → Prop) :
    System (Locked ι σ Call Point Ret) (LockedStep ι Call ε) where
  init s := s.lock = 0 ∧ (∀ i, s.hart i = .outside) ∧ init s.mem ∧ s.log = []
  next s
    | .call i c =>
        match s.hart i with
        | .outside => some (s.goto i (.reading c))
        | _ => none
    | .run i => spinlockRun B s i
    | .env e => (B.env s.mem e).map fun m => { s with mem := m }

/-! ## What a step can do -/

variable {B : Section σ Call Point Ret ε} {init : σ → Prop} {s s' : Locked ι σ Call Point Ret}
  {t t' : Serial σ Call Point Ret} {h : Hart Call Point Ret} {i j : ι} {c : Call} {p : Point}
  {r : Ret} {e : ε}

@[simp] theorem goto_hart_self : (s.goto i h).hart i = h := by
  show Function.update s.hart i h i = h
  rw [Function.update_self]

private theorem goto_hart_ne (hj : j ≠ i) : (s.goto i h).hart j = s.hart j := by
  show Function.update s.hart i h j = s.hart j
  rw [Function.update_of_ne hj]

@[simp] theorem goto_lock : (s.goto i h).lock = s.lock := rfl

@[simp] theorem goto_mem : (s.goto i h).mem = s.mem := rfl

@[simp] theorem goto_log : (s.goto i h).log = s.log := rfl

private theorem spinlockRun_cases (hRun : spinlockRun B s i = some s') :
    (∃ c, s.hart i = .reading c ∧ (s' = s ∨ s' = s.goto i (.trying c))) ∨
      (∃ c, s.hart i = .trying c ∧ s.lock ≠ 0 ∧
        s' = { s with lock := -1 }.goto i (.reading c)) ∨
      (∃ c, s.hart i = .trying c ∧ s.lock = 0 ∧
        s' = { s with lock := -1 }.goto i (.inside c (B.enter c))) ∨
      (∃ c p, s.hart i = .inside c p ∧ s' = s.continue i c (B.next p s.mem)) ∨
      (∃ r, s.hart i = .leaving r ∧ s' = { s with lock := 0 }.goto i .outside) := by
  unfold spinlockRun at hRun
  cases hHart : s.hart i with
  | outside =>
      rw [hHart] at hRun
      cases hRun
  | reading c =>
      rw [hHart] at hRun
      dsimp only at hRun
      refine Or.inl ⟨c, rfl, ?_⟩
      split at hRun
      · exact Or.inl (Option.some.inj hRun).symm
      · exact Or.inr (Option.some.inj hRun).symm
  | trying c =>
      rw [hHart] at hRun
      dsimp only at hRun
      split at hRun
      · rename_i hTaken
        exact Or.inr (Or.inl ⟨c, rfl, hTaken, (Option.some.inj hRun).symm⟩)
      · rename_i hFree
        exact Or.inr (Or.inr (Or.inl ⟨c, rfl, not_not.mp hFree, (Option.some.inj hRun).symm⟩))
  | inside c p =>
      rw [hHart] at hRun
      exact Or.inr (Or.inr (Or.inr (Or.inl ⟨c, p, rfl, (Option.some.inj hRun).symm⟩)))
  | leaving r =>
      rw [hHart] at hRun
      exact Or.inr (Or.inr (Or.inr (Or.inr ⟨r, rfl, (Option.some.inj hRun).symm⟩)))

private theorem spinlock_call_cases (hCall : (spinlock ι B init).next s (.call i c) = some s') :
    s.hart i = .outside ∧ s' = s.goto i (.reading c) := by
  change (match s.hart i with
    | .outside => some (s.goto i (.reading c))
    | _ => none) = some s' at hCall
  cases hHart : s.hart i <;> rw [hHart] at hCall
  case outside => exact ⟨rfl, (Option.some.inj hCall).symm⟩
  all_goals cases hCall

/-! ## One section after another -/

/-- The one that is inside is the one whose turn it is. -/
structure Refines (s : Locked ι σ Call Point Ret) (t : Serial σ Call Point Ret) : Prop where
  lock : Exclusive (s.lock ≠ 0) fun i => (s.hart i).owns
  inside : ∀ c p, t.inside = some (c, p) ↔ ∃ i, s.hart i = .inside c p
  mem : t.mem = s.mem
  log : t.log = s.log

private theorem refines_init (hInit : (spinlock ι B init).init s) :
    ∃ t, (B.serial init).init t ∧ Refines s t := by
  obtain ⟨hLock, hHart, hMem, hLog⟩ := hInit
  refine ⟨{ inside := none, mem := s.mem, log := s.log }, ⟨rfl, hMem, hLog⟩, ?_, ?_, rfl, rfl⟩
  · refine ⟨⟨fun hNe => absurd hLock hNe, fun ⟨i, hi⟩ => ?_⟩, fun i _ hi => ?_⟩
    · rw [hHart i] at hi
      exact hi.elim
    · rw [hHart i] at hi
      exact hi.elim
  · intro c p
    refine ⟨nofun, fun ⟨i, hi⟩ => ?_⟩
    rw [hHart i] at hi
    cases hi

/-- A hart that is outside moves, and nothing else. -/
theorem Refines.move (hR : Refines s t) (hFrom : ¬ (s.hart i).owns) (hTo : ¬ h.owns) :
    Refines (s.goto i h) t where
  lock := by
    refine hR.lock.congr fun j => ?_
    by_cases hj : j = i
    · subst hj
      rw [goto_hart_self]
      exact ⟨fun hOwns => absurd hOwns hTo, fun hOwns => absurd hOwns hFrom⟩
    · rw [goto_hart_ne hj]
  inside c p := by
    rw [hR.inside c p]
    refine exists_congr fun j => ?_
    by_cases hj : j = i
    · subst hj
      rw [goto_hart_self]
      constructor
      · intro hInside
        rw [hInside] at hFrom
        exact absurd trivial hFrom
      · rintro rfl
        exact absurd trivial hTo
    · rw [goto_hart_ne hj]
  mem := hR.mem
  log := hR.log

omit [DecidableEq ι] in
/-- A swap leaves a lock that is taken as it was. -/
theorem Refines.swap (hR : Refines s t) (hTaken : s.lock ≠ 0) :
    Refines { s with lock := -1 } t where
  lock := ⟨⟨fun _ => hR.lock.held.mp hTaken, fun _ => Int.negSucc_ne_zero 0⟩, hR.lock.one⟩
  inside := hR.inside
  mem := hR.mem
  log := hR.log

/-- The lock is free, and a hart gets it. -/
theorem Refines.acquire (hR : Refines s t) (hTrying : s.hart i = .trying c) (hFree : s.lock = 0) :
    t.inside = none ∧
      Refines ({ s with lock := -1 }.goto i (.inside c (B.enter c)))
        { t with inside := some (c, B.enter c) } := by
  have hNobody := hR.lock.free fun hNe => hNe hFree
  have hNone : t.inside = none := by
    cases hInside : t.inside with
    | none => rfl
    | some cp =>
        obtain ⟨j, hj⟩ := (hR.inside cp.1 cp.2).mp hInside
        have hOwns : (s.hart j).owns := by
          rw [hj]
          trivial
        exact absurd hOwns (hNobody j)
  refine ⟨hNone, ?_, ?_, hR.mem, hR.log⟩
  · have hTaken : Exclusive True fun j =>
        (({ s with lock := -1 }.goto i (.inside c (B.enter c))).hart j).owns :=
      hR.lock.acquire (i := i) (fun hNe => hNe hFree) ?_ ?_
    · exact ⟨⟨fun _ => hTaken.held.mp trivial, fun _ => Int.negSucc_ne_zero 0⟩, hTaken.one⟩
    · rw [goto_hart_self]
      trivial
    · intro j hj
      rw [goto_hart_ne hj]
  · intro c' p'
    constructor
    · intro hSome
      cases hSome
      exact ⟨i, goto_hart_self⟩
    · rintro ⟨j, hj⟩
      by_cases hji : j = i
      · subst hji
        rw [goto_hart_self] at hj
        cases hj
        rfl
      · rw [goto_hart_ne hji] at hj
        have hOwns : (s.hart j).owns := by
          have hEq : s.hart j = .inside c' p' := hj
          rw [hEq]
          trivial
        exact absurd hOwns (hNobody j)

/-- The hart that is inside takes a step. -/
theorem Refines.continue (hR : Refines s t) (hInside : s.hart i = .inside c p) :
    t.inside = some (c, p) ∧
      Refines (s.continue i c (B.next p s.mem)) (t.continue c (B.next p t.mem)) := by
  have hOwns : (s.hart i).owns := by
    rw [hInside]
    trivial
  have hOnly : ∀ {j : ι} {c' : Call} {p' : Point}, s.hart j = .inside c' p' → j = i := by
    intro j c' p' hj
    refine hR.lock.one j i ?_ hOwns
    rw [hj]
    trivial
  have hLock : ∀ {h : Hart Call Point Ret} {s' : Locked ι σ Call Point Ret}, h.owns →
      s'.lock = s.lock → s'.hart = s.hart →
      Exclusive ((s'.goto i h).lock ≠ 0) fun j => ((s'.goto i h).hart j).owns := by
    intro h s' hOwns' hSame hHart
    rw [goto_lock, hSame]
    refine hR.lock.congr fun j => ?_
    by_cases hj : j = i
    · subst hj
      rw [goto_hart_self]
      exact ⟨fun _ => hOwns, fun _ => hOwns'⟩
    · rw [goto_hart_ne hj, hHart]
  refine ⟨(hR.inside c p).mpr ⟨i, hInside⟩, ?_⟩
  rw [hR.mem]
  rcases B.next p s.mem with ⟨p' | r, m⟩
  · refine ⟨hLock trivial rfl rfl, ?_, rfl, hR.log⟩
    intro c' p''
    constructor
    · intro hSome
      cases hSome
      exact ⟨i, goto_hart_self⟩
    · rintro ⟨j, hj⟩
      by_cases hji : j = i
      · subst hji
        rw [Locked.continue, goto_hart_self] at hj
        cases hj
        rfl
      · rw [Locked.continue, goto_hart_ne hji] at hj
        exact absurd (hOnly hj) hji
  · refine ⟨hLock trivial rfl rfl, ?_, rfl, congrArg (· ++ [(c, r)]) hR.log⟩
    intro c' p''
    constructor
    · intro hSome
      cases hSome
    · rintro ⟨j, hj⟩
      by_cases hji : j = i
      · subst hji
        rw [Locked.continue, goto_hart_self] at hj
        cases hj
      · rw [Locked.continue, goto_hart_ne hji] at hj
        exact absurd (hOnly hj) hji

/-- The hart that has returned unlocks. -/
theorem Refines.leave (hR : Refines s t) (hLeaving : s.hart i = .leaving r) :
    Refines ({ s with lock := 0 }.goto i .outside) t := by
  have hOwns : (s.hart i).owns := by
    rw [hLeaving]
    trivial
  refine ⟨?_, ?_, hR.mem, hR.log⟩
  · have hFree : Exclusive False fun j =>
        (({ s with lock := 0 }.goto i .outside).hart j).owns :=
      hR.lock.release hOwns ?_ ?_
    · exact ⟨⟨fun hNe => absurd rfl hNe, fun hSome => (hFree.held.mpr hSome).elim⟩, hFree.one⟩
    · rw [goto_hart_self]
      exact id
    · intro j hj
      rw [goto_hart_ne hj]
  · intro c' p'
    rw [hR.inside c' p']
    refine exists_congr fun j => ?_
    by_cases hj : j = i
    · subst hj
      rw [goto_hart_self, hLeaving]
      exact ⟨nofun, nofun⟩
    · rw [goto_hart_ne hj]

omit [DecidableEq ι] in
theorem Refines.env (init : σ → Prop) {m : σ} (hR : Refines s t) (hEnv : B.env s.mem e = some m) :
    (B.serial init).next t (.env e) = some { t with mem := m } ∧
      Refines { s with mem := m } { t with mem := m } := by
  refine ⟨?_, hR.lock, hR.inside, rfl, hR.log⟩
  show (B.env t.mem e).map _ = _
  rw [hR.mem, hEnv]
  rfl

/-- Each step of the harts is one of the serial system, or none. -/
theorem spinlock_step {a : LockedStep ι Call ε} (hR : Refines s t)
    (hStep : (spinlock ι B init).next s a = some s') :
    ∃ t', (t' = t ∨ ∃ b, (B.serial init).next t b = some t') ∧ Refines s' t' := by
  cases a with
  | call i c =>
      obtain ⟨hOutside, rfl⟩ := spinlock_call_cases hStep
      exact ⟨t, Or.inl rfl, hR.move (by rw [hOutside]; exact id) id⟩
  | run i =>
      obtain ⟨c, hReading, rfl | rfl⟩ | ⟨c, hTrying, hTaken, rfl⟩ | ⟨c, hTrying, hFree, rfl⟩ |
        ⟨c, p, hInside, rfl⟩ | ⟨r, hLeaving, rfl⟩ := spinlockRun_cases (B := B) hStep
      · exact ⟨t, Or.inl rfl, hR⟩
      · exact ⟨t, Or.inl rfl, hR.move (by rw [hReading]; exact id) id⟩
      · exact ⟨t, Or.inl rfl, (hR.swap hTaken).move (by dsimp only; rw [hTrying]; exact id) id⟩
      · obtain ⟨hNone, hNext⟩ := hR.acquire (B := B) hTrying hFree
        exact ⟨_, Or.inr ⟨.enter c, serial_enter hNone⟩, hNext⟩
      · obtain ⟨hSome, hNext⟩ := hR.continue (B := B) hInside
        exact ⟨_, Or.inr ⟨.run, serial_run hSome⟩, hNext⟩
      · exact ⟨t, Or.inl rfl, hR.leave hLeaving⟩
  | env e =>
      obtain ⟨m, hEnv, rfl⟩ := Option.map_eq_some_iff.mp hStep
      obtain ⟨hNext, hR'⟩ := hR.env init hEnv
      exact ⟨_, Or.inr ⟨.env e, hNext⟩, hR'⟩

/--
**The spinlock.** In every interleaving of any number of harts and of what else
changes the memory, at most one hart is in the section: memory and results are those
of a run of one section after another.
-/
theorem spinlock_refines (hReach : (spinlock ι B init).Reachable s) :
    ∃ t, (B.serial init).Reachable t ∧ Refines s t := by
  apply hReach.inv
  · intro s hInit
    obtain ⟨t, ht, hR⟩ := refines_init (B := B) hInit
    exact ⟨t, ⟨t, ht, .refl t⟩, hR⟩
  · intro s a s' ⟨t, ⟨t₀, hInit, hRun⟩, hR⟩ hStep
    obtain ⟨t', rfl | ⟨b, hNext⟩, hR'⟩ := spinlock_step hR hStep
    · exact ⟨t', ⟨t₀, hInit, hRun⟩, hR'⟩
    · exact ⟨t', ⟨t₀, hInit, hRun.step b hNext⟩, hR'⟩

/-! ## No deadlock -/

/-- The hart that is in the section goes on to its end, and unlocks. -/
theorem spinlock_ends (hR : Refines s t) (hEnds : Ends B t) :
    ∃ s', System.Run (spinlock ι B init) s s' ∧ s'.lock = 0 := by
  induction hEnds generalizing s with
  | done t hNone =>
      by_cases hFree : s.lock = 0
      · exact ⟨s, .refl s, hFree⟩
      · obtain ⟨i, hOwns⟩ := hR.lock.held.mp hFree
        cases hHart : s.hart i with
        | inside c p =>
            have hSome := (hR.inside c p).mpr ⟨i, hHart⟩
            rw [hNone] at hSome
            cases hSome
        | leaving r =>
            have hRun : (spinlock ι B init).next s (.run i) =
                some ({ s with lock := 0 }.goto i .outside) := by
              show spinlockRun B s i = _
              unfold spinlockRun
              rw [hHart]
            exact ⟨_, .step (.run i) (.refl s) hRun, rfl⟩
        | outside | reading c | trying c =>
            rw [hHart] at hOwns
            exact hOwns.elim
  | run t c p hInside _ ih =>
      obtain ⟨i, hHart⟩ := (hR.inside c p).mp hInside
      obtain ⟨-, hNext⟩ := hR.continue (B := B) hHart
      have hRun : (spinlock ι B init).next s (.run i) =
          some (s.continue i c (B.next p s.mem)) := by
        show spinlockRun B s i = _
        unfold spinlockRun
        rw [hHart]
      obtain ⟨s', hRest, hFree⟩ := ih hNext
      exact ⟨s', (System.Run.step _ (.refl s) hRun).trans hRest, hFree⟩
  | env t e m hEnv _ ih =>
      rw [hR.mem] at hEnv
      have hStep : (spinlock ι B init).next s (.env e) = some { s with mem := m } := by
        show (B.env s.mem e).map _ = _
        rw [hEnv]
        rfl
      obtain ⟨-, hNext⟩ := hR.env init hEnv
      obtain ⟨s', hRest, hFree⟩ := ih hNext
      exact ⟨s', (System.Run.step _ (.refl s) hStep).trans hRest, hFree⟩

end AbstractMachine.Riscv.Spike
