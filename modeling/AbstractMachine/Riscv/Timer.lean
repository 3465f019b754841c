import Mathlib.Algebra.Group.Nat.Defs
import Mathlib.Data.List.Basic
import AbstractMachine.Lib.Transition

/-!
# The timers of spike, npc and ysyxsoc

A counter of 64 bits is read in two loads of 32, while it goes on.  spike reads
the low half first, npc and ysyxsoc the high one; either way the value is one
that the counter has passed between the loads as long as its low half does not
come out lower at the second load.
-/

namespace AbstractMachine.Riscv.Timer

open AbstractMachine.Lib

/-- The result of a load. -/
abbrev Word := BitVec 32

/-! ## The drivers -/

/-- The three drivers of a 64-bit counter that is read by halves. -/
inductive Platform where
  | spike
  | npc
  | ysyxsoc
  deriving DecidableEq

/-- A half of the counter. -/
inductive Half where
  | low
  | high
  deriving DecidableEq

/-- What a load of that half gives. -/
def Half.load (c : BitVec 64) : Half → Word
  | .low => c.setWidth 32
  | .high => (c >>> 32).setWidth 32

/-- The half that the first load is for. -/
def first : Platform → Half
  | .spike => .low
  | .npc => .high
  | .ysyxsoc => .high

/-- The half that the second load is for. -/
def second : Platform → Half
  | .spike => .high
  | .npc => .low
  | .ysyxsoc => .low

/-- `((uint64_t)h << 32) | l`. -/
def compose (h l : Word) : BitVec 64 := h.setWidth 64 <<< 32 ||| l.setWidth 64

/-- `time`, from the results of the two loads. -/
def time : Platform → Word → Word → BitVec 64
  | .spike, lo, hi => compose hi lo
  | .npc, h, l => compose h l
  | .ysyxsoc, h, l => compose h l

/-- What spike divides by 10. -/
def scale : Platform → BitVec 64 → BitVec 64
  | .spike, t => t / 10
  | .npc, t => t
  | .ysyxsoc, t => t

/-! ## The system -/

/-- A call of the driver. -/
inductive Call where
  /-- `__am_timer_init`. -/
  | init
  /-- `__am_timer_uptime`. -/
  | uptime
  deriving DecidableEq

/-- Where the driver is between its two loads. -/
inductive Pc where
  /-- Before `__am_timer_init`. -/
  | start
  | idle
  /-- The first load has given `word`; the counter was at `counter`. -/
  | loaded (call : Call) (word : Word) (counter : BitVec 64)
  deriving DecidableEq

/-- A read of `AM_TIMER_UPTIME`: the counter at its two loads, the value made of
them, and what is reported. -/
structure Reading where
  first : BitVec 64
  second : BitVec 64
  time : BitVec 64
  us : BitVec 64
  deriving DecidableEq

/-- The counter, the static of the driver, and the readings so far. -/
structure Driver where
  counter : BitVec 64
  /-- `boot_time`, or `up`. -/
  up : BitVec 64
  pc : Pc
  /-- The reads that have ended, in order. -/
  readings : List Reading
  deriving DecidableEq

/-- The counter advances, or the driver goes on. -/
inductive Step where
  /-- The counter goes on to `c`. -/
  | advance (c : BitVec 64)
  | load
  deriving DecidableEq

/-- A step; the counter does not go back. -/
def Driver.next (p : Platform) (s : Driver) : Step → Option Driver
  | .advance c => if s.counter ≤ c then some { s with counter := c } else none
  | .load =>
      match s.pc with
      | .start =>
          some { s with pc := .loaded .init ((first p).load s.counter) s.counter }
      | .idle =>
          some { s with pc := .loaded .uptime ((first p).load s.counter) s.counter }
      | .loaded call word c =>
          let t := time p word ((second p).load s.counter)
          match call with
          | .init => some { s with pc := .idle, up := scale p t }
          | .uptime =>
              let r : Reading :=
                { first := c, second := s.counter, time := t, us := scale p t - s.up }
              some { s with pc := .idle, readings := s.readings ++ [r] }

/-- The counter and the driver, interleaved. -/
def clock (p : Platform) : System Driver Step where
  init s := s.pc = .start ∧ s.up = 0 ∧ s.readings = []
  next := Driver.next p

/-- The value lies between the counter at the two loads. -/
def Reading.Between (r : Reading) : Prop := r.first ≤ r.time ∧ r.time ≤ r.second

/-- What the reads of a run should be. -/
structure Faithful (s : Driver) : Prop where
  between : ∀ r ∈ s.readings, r.Between
  sorted : s.readings.Pairwise fun r r' => r.us ≤ r'.us

/-- The low half is not lower at the second load. -/
def LowRises (c c' : BitVec 64) : Prop := c.toNat % 2 ^ 32 ≤ c'.toNat % 2 ^ 32

instance (c c' : BitVec 64) : Decidable (LowRises c c') := by
  unfold LowRises
  infer_instance

/-- Where `loaded` reads the second half, the low half has not wrapped since the first. -/
def Pc.Uncarried (counter : BitVec 64) : Pc → Step → Prop
  | .loaded _ _ c, .load => LowRises c counter
  | _, _ => True

/-- A second load comes before the low half is lower. -/
def Uncarried (s : Driver) (a : Step) : Prop := s.pc.Uncarried s.counter a

instance (s : Driver) (a : Step) : Decidable (Uncarried s a) := by
  unfold Uncarried
  cases s.pc <;> cases a <;> unfold Pc.Uncarried <;> infer_instance

/-! ## Halves -/

variable {p : Platform} {s t : Driver} {a : Step} {c c' v : BitVec 64} {call : Call} {word : Word}

theorem toNat_low (c : BitVec 64) : (Half.low.load c).toNat = c.toNat % 2 ^ 32 :=
  BitVec.toNat_setWidth _ _

theorem toNat_high (c : BitVec 64) : (Half.high.load c).toNat = c.toNat / 2 ^ 32 := by
  have hLt := c.isLt
  show ((c >>> 32).setWidth 32).toNat = _
  rw [BitVec.toNat_setWidth, BitVec.toNat_ushiftRight, Nat.shiftRight_eq_div_pow]
  exact Nat.mod_eq_of_lt (by omega)

private theorem toNat_compose (h l : Word) : (compose h l).toNat = h.toNat * 2 ^ 32 + l.toNat := by
  have hh := h.isLt
  have hl := l.isLt
  have hHigh : (h.setWidth 64 <<< 32).toNat = h.toNat <<< 32 := by
    rw [BitVec.toNat_shiftLeft, BitVec.toNat_setWidth, Nat.mod_eq_of_lt (by omega : h.toNat < _),
      Nat.shiftLeft_eq, Nat.mod_eq_of_lt (by omega)]
  unfold compose
  rw [BitVec.toNat_or, hHigh, BitVec.toNat_setWidth, Nat.mod_eq_of_lt (by omega : l.toNat < _),
    ← Nat.shiftLeft_add_eq_or_of_lt hl, Nat.shiftLeft_eq]

/-- The value takes its high half from one load and its low half from the other. -/
theorem toNat_time (p : Platform) (c c' : BitVec 64) :
    (time p ((first p).load c) ((second p).load c')).toNat =
      if first p = .low then c'.toNat / 2 ^ 32 * 2 ^ 32 + c.toNat % 2 ^ 32
      else c.toNat / 2 ^ 32 * 2 ^ 32 + c'.toNat % 2 ^ 32 := by
  cases p with
  | spike =>
      rw [if_pos (by decide)]
      show (compose (Half.high.load c') (Half.low.load c)).toNat = _
      rw [toNat_compose, toNat_high, toNat_low]
  | npc =>
      rw [if_neg (by decide)]
      show (compose (Half.high.load c) (Half.low.load c')).toNat = _
      rw [toNat_compose, toNat_high, toNat_low]
  | ysyxsoc =>
      rw [if_neg (by decide)]
      show (compose (Half.high.load c) (Half.low.load c')).toNat = _
      rw [toNat_compose, toNat_high, toNat_low]

/-- The value that is read at two moments lies between them, if and only if the low
half does not come out lower. -/
theorem time_between_iff (p : Platform) (h : c ≤ c') :
    c ≤ time p ((first p).load c) ((second p).load c') ∧
        time p ((first p).load c) ((second p).load c') ≤ c' ↔ LowRises c c' := by
  have hTime := toNat_time p c c'
  rw [BitVec.le_def] at h
  rw [BitVec.le_def, BitVec.le_def, hTime]
  unfold LowRises
  by_cases hFirst : first p = .low
  · rw [if_pos hFirst]
    omega
  · rw [if_neg hFirst]
    omega

private theorem scale_mono (p : Platform) (h : c ≤ c') : scale p c ≤ scale p c' := by
  cases p with
  | spike =>
      rw [BitVec.le_def] at h ⊢
      show (c / 10).toNat ≤ (c' / 10).toNat
      rw [BitVec.toNat_udiv, BitVec.toNat_udiv]
      exact Nat.div_le_div_right h
  | npc => exact h
  | ysyxsoc => exact h

/-! ## Runs -/

/-- What is known of a call that has made its first load. -/
def Pc.Loaded (p : Platform) (counter : BitVec 64) : Pc → Prop
  | .loaded _ word c => word = (first p).load c ∧ c ≤ counter
  | _ => True

/-- What every run keeps. -/
structure Inv (p : Platform) (s : Driver) : Prop where
  loaded : s.pc.Loaded p s.counter
  exact : ∀ r ∈ s.readings, (r.Between ↔ LowRises r.first r.second)

theorem Inv.start (h : (clock p).init s) : Inv p s := by
  obtain ⟨hPc, -, hNone⟩ := h
  constructor
  · rw [hPc]
    trivial
  · rw [hNone]
    intro r hr
    cases hr

theorem Pc.Loaded.advance {pc : Pc} (h : pc.Loaded p c) (hLe : c ≤ c') : pc.Loaded p c' := by
  cases pc with
  | start => trivial
  | idle => trivial
  | loaded call word c₁ => exact ⟨h.1, BitVec.le_trans h.2 hLe⟩

/-- A step of the counter. -/
theorem next_advance (h : s.next p (.advance c) = some t) :
    s.counter ≤ c ∧ t = { s with counter := c } := by
  obtain ⟨hLe, hEq⟩ := Option.ite_none_right_eq_some.mp h
  exact ⟨hLe, (Option.some.inj hEq).symm⟩

/-- What ends a call. -/
def Driver.finish (p : Platform) (s : Driver) (c : BitVec 64) : Call → Driver
  | .init =>
      { s with
        pc := .idle
        up := scale p (time p ((first p).load c) ((second p).load s.counter)) }
  | .uptime =>
      { s with
        pc := .idle
        readings :=
          s.readings ++
            [{ first := c
               second := s.counter
               time := time p ((first p).load c) ((second p).load s.counter)
               us := scale p (time p ((first p).load c) ((second p).load s.counter)) - s.up }] }

/-- A load begins a call or ends it. -/
theorem next_load (hInv : Inv p s) (h : s.next p .load = some t) :
    (∃ call, (call = .init ↔ s.pc = .start) ∧ (call = .uptime ↔ s.pc = .idle) ∧
      t = { s with pc := .loaded call ((first p).load s.counter) s.counter }) ∨
    ∃ call c, s.pc = .loaded call ((first p).load c) c ∧ c ≤ s.counter ∧
      t = s.finish p c call := by
  have hLoaded := hInv.loaded
  unfold Driver.next at h
  cases hPc : s.pc with
  | start =>
      rw [hPc] at h
      cases h
      exact Or.inl ⟨.init, by simp, by simp, rfl⟩
  | idle =>
      rw [hPc] at h
      cases h
      exact Or.inl ⟨.uptime, by simp, by simp, rfl⟩
  | loaded call word c =>
      rw [hPc] at h hLoaded
      obtain ⟨rfl, hLe⟩ := hLoaded
      refine Or.inr ⟨call, c, rfl, hLe, ?_⟩
      cases call with
      | init =>
          cases h
          rfl
      | uptime =>
          cases h
          rfl

theorem Inv.next (hInv : Inv p s) (h : s.next p a = some t) : Inv p t := by
  cases a with
  | advance c =>
      obtain ⟨hLe, rfl⟩ := next_advance h
      exact ⟨hInv.loaded.advance hLe, hInv.exact⟩
  | load =>
      rcases next_load hInv h with ⟨call, -, -, rfl⟩ | ⟨call, c, -, hLe, rfl⟩
      · exact ⟨⟨rfl, BitVec.le_refl _⟩, hInv.exact⟩
      · cases call with
        | init => exact ⟨trivial, hInv.exact⟩
        | uptime =>
            refine ⟨trivial, ?_⟩
            intro r hr
            rcases List.mem_append.mp hr with hr | hr
            · exact hInv.exact r hr
            · rw [List.mem_singleton.mp hr]
              exact time_between_iff p hLe

theorem Inv.reachable (h : (clock p).Reachable s) : Inv p s :=
  h.inv (fun _ => Inv.start) fun _ _ _ hInv hNext => hInv.next hNext

/-- No later load is made of an earlier counter. -/
def Pc.since (counter : BitVec 64) : Pc → BitVec 64
  | .loaded _ _ c => c
  | _ => counter

/-- `__am_timer_init` has returned. -/
def Pc.booted : Pc → Bool
  | .start => false
  | .idle => true
  | .loaded call _ _ => call = .uptime

/-- What the runs keep whose second loads come in time. -/
structure Steady (p : Platform) (s : Driver) : Prop where
  inv : Inv p s
  faithful : Faithful s
  booted : s.pc.booted = true → s.up ≤ scale p (s.pc.since s.counter)
  fresh : s.pc.booted = false → s.readings = []
  readings : ∀ r ∈ s.readings, r.time ≤ s.pc.since s.counter ∧ s.up ≤ scale p r.time ∧
    r.us = scale p r.time - s.up

theorem Steady.start (h : (clock p).init s) : Steady p s := by
  have hInv := Inv.start h
  obtain ⟨hPc, -, hNone⟩ := h
  refine ⟨hInv, ⟨?_, ?_⟩, ?_, fun _ => hNone, ?_⟩
  · rw [hNone]
    intro r hr
    cases hr
  · rw [hNone]
    exact List.Pairwise.nil
  · rw [hPc]
    intro hBooted
    cases hBooted
  · rw [hNone]
    intro r hr
    cases hr

/-- Reads that are made of later counters report more. -/
theorem us_le (hUp : s.up ≤ scale p c) (hLe : c ≤ c') : scale p c - s.up ≤ scale p c' - s.up := by
  have hScale := scale_mono p hLe
  rw [BitVec.le_def, BitVec.toNat_sub_of_le hUp,
    BitVec.toNat_sub_of_le (BitVec.le_trans hUp hScale)]
  rw [BitVec.le_def] at hScale
  omega

theorem Pc.since_advance (pc : Pc) (h : c ≤ c') : pc.since c ≤ pc.since c' := by
  cases pc with
  | start => exact h
  | idle => exact h
  | loaded call word c₁ => exact BitVec.le_refl _

theorem Steady.advance (h : Steady p s) (hLe : s.counter ≤ c) :
    Steady p { s with counter := c } := by
  have hSince := s.pc.since_advance hLe
  refine ⟨⟨h.inv.loaded.advance hLe, h.inv.exact⟩, ⟨h.faithful.between, h.faithful.sorted⟩, ?_,
    h.fresh, ?_⟩
  · intro hBooted
    exact BitVec.le_trans (h.booted hBooted) (scale_mono p hSince)
  · intro r hr
    obtain ⟨hTime, hUs⟩ := h.readings r hr
    exact ⟨BitVec.le_trans hTime hSince, hUs⟩

theorem Steady.load (h : Steady p s) (hCall : call = .init ↔ s.pc = .start)
    (hCall' : call = .uptime ↔ s.pc = .idle) :
    Steady p { s with pc := .loaded call ((first p).load s.counter) s.counter } := by
  have hPc : s.pc.since s.counter = s.counter ∧
      s.pc.booted = Pc.booted (.loaded call ((first p).load s.counter) s.counter) := by
    cases call with
    | init =>
        rw [hCall.mp rfl]
        exact ⟨rfl, rfl⟩
    | uptime =>
        rw [hCall'.mp rfl]
        exact ⟨rfl, rfl⟩
  obtain ⟨hSince, hBooted⟩ := hPc
  refine ⟨⟨⟨rfl, BitVec.le_refl _⟩, h.inv.exact⟩, ⟨h.faithful.between, h.faithful.sorted⟩, ?_, ?_,
    ?_⟩
  · intro hUp
    rw [← hBooted] at hUp
    have hLe := h.booted hUp
    rwa [hSince] at hLe
  · intro hNot
    rw [← hBooted] at hNot
    exact h.fresh hNot
  · intro r hr
    have hOld := h.readings r hr
    rwa [hSince] at hOld

/-- A call ends with a value between the counter at its two loads. -/
theorem Steady.finish (h : Steady p s) (hPc : s.pc = .loaded call word c) (hLe : c ≤ s.counter)
    (hRises : LowRises c s.counter) : Steady p (s.finish p c call) := by
  obtain ⟨hFirst, hSecond⟩ := (time_between_iff p hLe).mpr hRises
  have hInv : Inv p (s.finish p c call) := by
    cases call with
    | init => exact ⟨trivial, h.inv.exact⟩
    | uptime =>
        refine ⟨trivial, ?_⟩
        intro r hr
        rcases List.mem_append.mp hr with hr | hr
        · exact h.inv.exact r hr
        · rw [List.mem_singleton.mp hr]
          exact time_between_iff p hLe
  generalize hTime : time p ((first p).load c) ((second p).load s.counter) = v at hFirst hSecond
  have hSince : s.pc.since s.counter = c := by rw [hPc]; rfl
  cases call with
  | init =>
      have hNone : s.readings = [] := h.fresh (by rw [hPc]; rfl)
      have hUp : (s.finish p c .init).up = scale p v := congrArg (scale p) hTime
      refine ⟨hInv, ⟨h.faithful.between, h.faithful.sorted⟩, ?_, ?_, ?_⟩
      · intro _
        rw [hUp]
        exact scale_mono p hSecond
      · intro hNot
        cases hNot
      · show ∀ r ∈ s.readings, _
        rw [hNone]
        intro r hr
        cases hr
  | uptime =>
      have hBooted : s.up ≤ scale p c := by
        have hUp := h.booted (by rw [hPc]; rfl)
        rwa [hSince] at hUp
      have hEq : s.finish p c .uptime =
          { s with
            pc := .idle
            readings := s.readings ++ [⟨c, s.counter, v, scale p v - s.up⟩] } := by
        rw [← hTime]
        rfl
      rw [hEq] at hInv ⊢
      have hOld : ∀ r ∈ s.readings, r.time ≤ c ∧ s.up ≤ scale p r.time ∧
          r.us = scale p r.time - s.up := by
        intro r hr
        have hr := h.readings r hr
        rwa [hSince] at hr
      refine ⟨hInv, ⟨?_, ?_⟩, ?_, ?_, ?_⟩
      · intro r hr
        rcases List.mem_append.mp hr with hr | hr
        · exact h.faithful.between r hr
        · rw [List.mem_singleton.mp hr]
          exact ⟨hFirst, hSecond⟩
      · refine List.pairwise_append.mpr ⟨h.faithful.sorted, List.pairwise_singleton _ _, ?_⟩
        intro r hr r' hr'
        obtain ⟨hTime, hUp, hUs⟩ := hOld r hr
        rw [List.mem_singleton.mp hr', hUs]
        exact us_le hUp (BitVec.le_trans hTime hFirst)
      · intro _
        exact BitVec.le_trans hBooted (scale_mono p hLe)
      · intro hNot
        cases hNot
      · intro r hr
        rcases List.mem_append.mp hr with hr | hr
        · obtain ⟨hTime, hUs⟩ := hOld r hr
          exact ⟨BitVec.le_trans hTime hLe, hUs⟩
        · rw [List.mem_singleton.mp hr]
          exact ⟨hSecond, BitVec.le_trans hBooted (scale_mono p hFirst), rfl⟩

theorem Steady.next (h : Steady p s) (hNext : ((clock p).restrict Uncarried).next s a = some t) :
    Steady p t := by
  obtain ⟨hCond, hStep⟩ := System.restrict_next.mp hNext
  cases a with
  | advance c =>
      obtain ⟨hLe, rfl⟩ := next_advance (p := p) hStep
      exact h.advance hLe
  | load =>
      rcases next_load h.inv hStep with ⟨call, hCall, hCall', rfl⟩ | ⟨call, c, hPc, hLe, rfl⟩
      · exact h.load hCall hCall'
      · unfold Uncarried at hCond
        rw [hPc] at hCond
        exact h.finish hPc hLe hCond

/--
**Uptime.** In every run whose second loads come before the low half is lower than
at the first, every value lies between the counter at its two loads, and the
reported times never decrease.  In any run, a value lies there if and only if the
low half was not lower.
-/
theorem uptime_between_iff (p : Platform) (s : Driver) :
    (((clock p).restrict Uncarried).Reachable s → Faithful s) ∧
      ((clock p).Reachable s →
        ∀ r ∈ s.readings, (r.Between ↔ LowRises r.first r.second)) := by
  constructor
  · intro h
    have hSteady : Steady p s := h.inv (fun _ => Steady.start) fun _ _ _ hs hNext => hs.next hNext
    exact hSteady.faithful
  · intro h
    exact (Inv.reachable h).exact

/-- The counter passes 2 ^ 32 between two reads. -/
def carry : List Step :=
  [.load, .load, .advance 0xffffffff, .load, .load, .advance 0x100000000, .load, .load]

theorem uptime_between_iff_carry :
    ∃ s, ((clock .npc).restrict Uncarried).Reachable s ∧ Faithful s ∧
      s.readings.map Reading.us = [0xffffffff, 0x100000000] := by
  have hSteps : ((clock .npc).restrict Uncarried).steps ⟨0, 0, .start, []⟩ carry =
      some ⟨0x100000000, 0, .idle, [⟨0xffffffff, 0xffffffff, 0xffffffff, 0xffffffff⟩,
        ⟨0x100000000, 0x100000000, 0x100000000, 0x100000000⟩]⟩ := by decide
  have hReach : ((clock .npc).restrict Uncarried).Reachable
      ⟨0x100000000, 0, .idle, [⟨0xffffffff, 0xffffffff, 0xffffffff, 0xffffffff⟩,
        ⟨0x100000000, 0x100000000, 0x100000000, 0x100000000⟩]⟩ :=
    ⟨_, ⟨rfl, rfl, rfl⟩, System.steps_run _ _ hSteps⟩
  exact ⟨_, hReach, (uptime_between_iff .npc _).1 hReach, rfl⟩

/-- The counter passes 2 ^ 32 between the loads of the first of two reads. -/
def torn : List Step :=
  [.load, .load, .advance 0xffffffff, .load, .advance 0x100000000, .load, .load, .load]

/-- spike reports a time to come, npc and ysyxsoc one that has long passed. -/
theorem uptime_torn :
    (∃ s, (clock .spike).Reachable s ∧ ¬ Faithful s ∧
      s.readings.map Reading.us = [0x1ffffffff / 10, 0x100000000 / 10]) ∧
    (∃ s, (clock .npc).Reachable s ∧ ¬ Faithful s ∧
      s.readings.map Reading.us = [0, 0x100000000]) ∧
    ∃ s, (clock .ysyxsoc).Reachable s ∧ ¬ Faithful s ∧
      s.readings.map Reading.us = [0, 0x100000000] := by
  have hSpike : (clock .spike).steps ⟨0, 0, .start, []⟩ torn =
      some ⟨0x100000000, 0, .idle, [⟨0xffffffff, 0x100000000, 0x1ffffffff, 0x1ffffffff / 10⟩,
        ⟨0x100000000, 0x100000000, 0x100000000, 0x100000000 / 10⟩]⟩ := by decide
  have hNpc : (clock .npc).steps ⟨0, 0, .start, []⟩ torn =
      some ⟨0x100000000, 0, .idle, [⟨0xffffffff, 0x100000000, 0, 0⟩,
        ⟨0x100000000, 0x100000000, 0x100000000, 0x100000000⟩]⟩ := by decide
  have hYsyxsoc : (clock .ysyxsoc).steps ⟨0, 0, .start, []⟩ torn =
      some ⟨0x100000000, 0, .idle, [⟨0xffffffff, 0x100000000, 0, 0⟩,
        ⟨0x100000000, 0x100000000, 0x100000000, 0x100000000⟩]⟩ := by decide
  refine ⟨⟨_, ⟨_, ⟨rfl, rfl, rfl⟩, System.steps_run _ _ hSpike⟩, ?_, rfl⟩,
    ⟨_, ⟨_, ⟨rfl, rfl, rfl⟩, System.steps_run _ _ hNpc⟩, ?_, rfl⟩,
    ⟨_, ⟨_, ⟨rfl, rfl, rfl⟩, System.steps_run _ _ hYsyxsoc⟩, ?_, rfl⟩⟩
  · intro hFaithful
    have hBetween := (hFaithful.between _ List.mem_cons_self).2
    exact absurd hBetween (by decide)
  · intro hFaithful
    have hBetween := (hFaithful.between _ List.mem_cons_self).1
    exact absurd hBetween (by decide)
  · intro hFaithful
    have hBetween := (hFaithful.between _ List.mem_cons_self).1
    exact absurd hBetween (by decide)

end AbstractMachine.Riscv.Timer
