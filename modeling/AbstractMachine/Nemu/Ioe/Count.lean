import AbstractMachine.Nemu.Ioe.Model

/-!
# The count register

`__am_audio_play` adds to the count register by a read and a separate write, and
the device subtracts from it at any moment.  What the device takes between the
two is not subtracted: `lost` counts it, and the register is off by just that.
-/

namespace AbstractMachine.Nemu

open AbstractMachine.Lib

/-! ## The system -/

/-- Where `__am_audio_play` is. -/
inductive Pc where
  | idle
  /-- Before a read of the first loop. -/
  | waiting (ctl : AmAudioPlay)
  /-- In the second loop, with `n` words to go from `i` on. -/
  | writing (ctl : AmAudioPlay) (n i : Nat)
  /-- The last read has given `value`. -/
  | storing (ctl : AmAudioPlay) (value : Word)

/-- The driver, the device and what has been played and consumed. -/
structure Shared where
  audio : Audio
  pc : Pc
  /-- The number of bytes of all requests that have ended. -/
  played : Nat
  /-- The number of bytes that the device has taken. -/
  consumed : Nat
  /-- How many of them between the last read and the write. -/
  lost : Nat

/-- A step of the program or of the device. -/
inductive SharedStep where
  | request (ctl : AmAudioPlay)
  /-- The read and the test of the first loop. -/
  | poll
  /-- One turn of the second loop. -/
  | word
  | read
  | write
  /-- `__am_audio_status`. -/
  | status
  | consume (k : Nat)

/-- The count has been read and is about to be stored. -/
def Pc.isStoring : Pc → Bool
  | .storing _ _ => true
  | _ => false

/-- How many bytes the device takes. -/
def SharedStep.taken : SharedStep → Nat
  | .consume k => k
  | _ => 0

/-- The step, but for what is lost. -/
def Shared.act (s : Shared) : SharedStep → Option Shared
  | .request ctl =>
      match s.pc with
      | .idle => if 0 ≤ ctl.len.toInt then some { s with pc := .waiting ctl } else none
      | _ => none
  | .poll =>
      match s.pc with
      | .waiting ctl =>
          if s.audio.cfgNow.bufsize.slt (s.audio.count + ctl.len) then some s
          else some { s with pc := .writing ctl ((ctl.len.toInt.toNat + 3) / 4) 0 }
      | _ => none
  | .word =>
      match s.pc with
      | .writing ctl (n + 1) i =>
          (writeWords s.audio.cfgNow.bufsize ctl.buf 1 i s.audio).map fun a =>
            { s with audio := a, pc := .writing ctl n (i + 4) }
      | _ => none
  | .read =>
      match s.pc with
      | .writing ctl 0 _ => some { s with pc := .storing ctl s.audio.count }
      | _ => none
  | .write =>
      match s.pc with
      | .storing ctl value =>
          some
            { s with
              audio := { s.audio with count := value + ctl.len }
              pc := .idle
              played := s.played + ctl.len.toNat }
      | _ => none
  | .status => some s
  | .consume k =>
      if k ≤ s.audio.count.toNat then
        some
          { s with
            audio := { s.audio with count := s.audio.count - BitVec.ofNat 32 k }
            consumed := s.consumed + k }
      else none

/-- A step, with the bytes that are lost in it. -/
def Shared.next (s : Shared) (r : SharedStep) : Option Shared :=
  (s.act r).map fun t => { t with lost := if s.pc.isStoring then s.lost + r.taken else s.lost }

/-- Nothing has been requested. -/
structure Shared.Init (s : Shared) : Prop where
  count : s.audio.count = 0
  pc : s.pc = .idle
  played : s.played = 0
  consumed : s.consumed = 0
  lost : s.lost = 0

/-- The driver and the device, interleaved. -/
def sharing : System Shared SharedStep where
  init := Shared.Init
  next := Shared.next

/-- A poll of the first loop. -/
def SharedStep.isPoll : SharedStep → Bool
  | .poll => true
  | _ => false

/-- What the first loop compares with the size. -/
def Pc.sum (count : Word) : Pc → Nat
  | .waiting ctl => count.toNat + ctl.len.toNat
  | _ => 0

/-- The test of the first loop adds without overflow. -/
def IntSums (s : Shared) (r : SharedStep) : Prop :=
  r.isPoll = true → s.pc.sum s.audio.count < 2 ^ 31

instance (s : Shared) (r : SharedStep) : Decidable (IntSums s r) :=
  inferInstanceAs (Decidable (_ → _))

/-- And the device takes nothing between the last read and the write. -/
def Undisturbed (s : Shared) (r : SharedStep) : Prop :=
  IntSums s r ∧ (s.pc.isStoring = true → r.taken = 0)

instance (s : Shared) (r : SharedStep) : Decidable (Undisturbed s r) :=
  inferInstanceAs (Decidable (_ ∧ _))

/-- The register has what was requested and not yet taken. -/
def Counted (s : Shared) : Prop :=
  s.pc = .idle → s.audio.count.toNat + s.consumed = s.played

/-! ## A request that runs alone -/

private theorem writeWords_count {size : Word} {buf : Nat → BitVec 8} {n i : Nat} {a a' : Audio}
    (h : writeWords size buf n i a = some a') : a'.count = a.count := by
  induction n generalizing i a with
  | zero =>
      cases h
      rfl
  | succ n ih =>
      rw [writeWords, Option.ite_none_left_eq_some] at h
      exact (ih h.2).trans rfl

private theorem wait_const {size len count : Word} {fuel : Nat}
    (h : wait size len fuel (fun _ => count) = true) : ¬ size.slt (count + len) = true := by
  induction fuel with
  | zero => cases h
  | succ fuel ih =>
      intro hFull
      rw [wait, if_pos hFull] at h
      exact ih h hFull

/-- The turns of the second loop, one after another. -/
theorem words_run {s : Shared} {a a' : Audio} {ctl : AmAudioPlay} {n i : Nat}
    (h : writeWords a.cfgNow.bufsize ctl.buf n i a = some a') :
    System.Run sharing { s with audio := a, pc := .writing ctl n i }
      { s with audio := a', pc := .writing ctl 0 (i + 4 * n) } := by
  induction n generalizing a i with
  | zero =>
      cases h
      exact System.Run.refl _
  | succ n ih =>
      rw [writeWords, Option.ite_none_left_eq_some] at h
      obtain ⟨hSize, hRest⟩ := h
      have hStep :
          sharing.next { s with audio := a, pc := .writing ctl (n + 1) i } .word =
            some
              { s with
                audio :=
                  { a with
                    sbuf := outWord a.sbuf ctl.buf a.lastWrite.toNat i
                    lastWrite := (a.lastWrite + 4).srem a.cfgNow.bufsize }
                pc := .writing ctl n (i + 4) } := by
        show Option.map _ (Option.map _ (writeWords _ _ 1 i a)) = _
        rw [writeWords, if_neg hSize]
        rfl
      have hEnd : i + 4 * (n + 1) = i + 4 + 4 * n := by omega
      rw [hEnd]
      exact (System.Run.step _ (System.Run.refl _) hStep).trans (ih hRest)

/-- The steps of a request between which nothing happens are `__am_audio_play`. -/
theorem request_alone {s : Shared} {ctl : AmAudioPlay} {fuel : Nat} {a : Audio}
    (hIdle : s.pc = .idle) (hLen : 0 ≤ ctl.len.toInt)
    (h : amAudioPlay fuel (fun _ => s.audio.count) s.audio.count ctl s.audio = .done a) :
    System.Run sharing s { s with audio := a, played := s.played + ctl.len.toNat } := by
  obtain ⟨b, pc, played, consumed, lost⟩ := s
  cases hIdle
  unfold amAudioPlay at h
  dsimp only at h
  by_cases hWait : wait b.cfgNow.bufsize ctl.len fuel (fun _ => b.count) = true
  · rw [if_pos hWait] at h
    cases hWords : writeWords b.cfgNow.bufsize ctl.buf ((ctl.len.toInt.toNat + 3) / 4) 0 b with
    | none =>
        rw [hWords] at h
        cases h
    | some b' =>
        rw [hWords] at h
        cases h
        have hRequest :
            sharing.next ⟨b, .idle, played, consumed, lost⟩ (.request ctl) =
              some ⟨b, .waiting ctl, played, consumed, lost⟩ := by
          show Option.map _ (if 0 ≤ ctl.len.toInt then _ else _) = _
          rw [if_pos hLen]
          rfl
        have hPoll :
            sharing.next ⟨b, .waiting ctl, played, consumed, lost⟩ .poll =
              some
                ⟨b, .writing ctl ((ctl.len.toInt.toNat + 3) / 4) 0, played, consumed, lost⟩ := by
          show Option.map _ (if b.cfgNow.bufsize.slt (b.count + ctl.len) = true then _ else _) = _
          rw [if_neg (wait_const hWait)]
          rfl
        have hEnd :
            System.Run sharing
              ⟨b', .writing ctl 0 (0 + 4 * ((ctl.len.toInt.toNat + 3) / 4)), played, consumed, lost⟩
              ⟨{ b' with count := b'.count + ctl.len }, .idle, played + ctl.len.toNat, consumed,
                lost⟩ :=
          System.Run.step .write (System.Run.step .read (System.Run.refl _) rfl) rfl
        rw [writeWords_count hWords] at hEnd
        have hStart := System.Run.step _ (System.Run.step _ (System.Run.refl _) hRequest) hPoll
        exact (hStart.trans (words_run (s := ⟨b, .idle, played, consumed, lost⟩) hWords)).trans hEnd
  · rw [if_neg hWait] at h
    cases h

/-! ## What is lost -/

/-- What the register has, or has had at the last read. -/
def Pc.value (count : Word) : Pc → Word
  | .storing _ value => value
  | _ => count

/-- What the driver is about to add, once there is room. -/
def Pc.pending : Pc → Nat
  | .writing ctl _ _ => ctl.len.toNat
  | .storing ctl _ => ctl.len.toNat
  | _ => 0

/-- The register as it should be, but for what is lost. -/
structure Accounts (s : Shared) : Prop where
  balance : (s.pc.value s.audio.count).toNat + s.consumed = s.played + s.lost
  room : (s.pc.value s.audio.count).toNat + s.pc.pending < 2 ^ 32

variable {s s' : Shared} {r : SharedStep}

theorem Accounts.next (hInv : Accounts s) (hSums : IntSums s r) (hNext : s.next r = some s') :
    Accounts s' := by
  obtain ⟨t, hAct, rfl⟩ := Option.map_eq_some_iff.mp hNext
  clear hNext
  obtain ⟨a, pc, played, consumed, lost⟩ := s
  obtain ⟨hBalance, hRoom⟩ := hInv
  dsimp only at hBalance hRoom
  cases r with
  | request ctl =>
      cases pc with
      | idle =>
          obtain ⟨-, hEq⟩ := Option.ite_none_right_eq_some.mp hAct
          cases hEq
          exact ⟨hBalance, hRoom⟩
      | _ => cases hAct
  | poll =>
      cases pc with
      | waiting ctl =>
          have hSum : a.count.toNat + ctl.len.toNat < 2 ^ 31 := hSums rfl
          unfold Shared.act at hAct
          dsimp only at hAct
          split at hAct <;> cases hAct
          · exact ⟨hBalance, hRoom⟩
          · refine ⟨hBalance, ?_⟩
            show a.count.toNat + ctl.len.toNat < 2 ^ 32
            omega
      | _ => cases hAct
  | word =>
      cases pc with
      | writing ctl n i =>
          cases n with
          | zero => cases hAct
          | succ n =>
              obtain ⟨a', hWords, hEq⟩ := Option.map_eq_some_iff.mp hAct
              cases hEq
              have hCount : a'.count = a.count := writeWords_count hWords
              constructor
              · show a'.count.toNat + consumed = played + lost
                rw [hCount]
                exact hBalance
              · show a'.count.toNat + ctl.len.toNat < 2 ^ 32
                rw [hCount]
                exact hRoom
      | _ => cases hAct
  | read =>
      cases pc with
      | writing ctl n i =>
          cases n with
          | zero =>
              cases hAct
              exact ⟨hBalance, hRoom⟩
          | succ n => cases hAct
      | _ => cases hAct
  | write =>
      cases pc with
      | storing ctl value =>
          cases hAct
          have hRoom : value.toNat + ctl.len.toNat < 2 ^ 32 := hRoom
          have hBalance : value.toNat + consumed = played + lost := hBalance
          have hAdd : (value + ctl.len).toNat = value.toNat + ctl.len.toNat := by
            rw [BitVec.toNat_add]
            exact Nat.mod_eq_of_lt hRoom
          constructor
          · show (value + ctl.len).toNat + consumed = played + ctl.len.toNat + lost
            omega
          · show (value + ctl.len).toNat + 0 < 2 ^ 32
            omega
      | _ => cases hAct
  | status =>
      cases hAct
      cases pc <;> exact ⟨hBalance, hRoom⟩
  | consume k =>
      obtain ⟨hLe, hEq⟩ := Option.ite_none_right_eq_some.mp hAct
      cases hEq
      have hLe : k ≤ a.count.toNat := hLe
      have hSub := toNat_taken hLe
      cases pc with
      | storing ctl value =>
          have hBalance : value.toNat + consumed = played + lost := hBalance
          refine ⟨?_, hRoom⟩
          show value.toNat + (consumed + k) = played + (lost + k)
          omega
      | _ =>
          simp only [Pc.value, Pc.pending] at hBalance hRoom
          constructor
          · show (a.count - BitVec.ofNat 32 k).toNat + (consumed + k) = played + lost
            omega
          · simp only [Pc.value, Pc.pending]
            omega

theorem Accounts.init (h : s.Init) : Accounts s := by
  constructor
  · rw [h.pc, h.count, h.played, h.consumed, h.lost]
    rfl
  · rw [h.pc, h.count]
    decide

/-- Between requests, the register is off by what is lost. -/
theorem Accounts.idle (hInv : Accounts s) (hIdle : s.pc = .idle) :
    s.audio.count.toNat + s.consumed = s.played + s.lost := by
  have hBalance := hInv.balance
  rw [hIdle] at hBalance
  exact hBalance

/-- Over any interleaving, the register is right just when nothing is lost. -/
theorem count_off (s : Shared) (h : (sharing.restrict IntSums).Reachable s) (hIdle : s.pc = .idle) :
    s.audio.count.toNat + s.consumed = s.played ↔ s.lost = 0 := by
  have hInv : Accounts s := by
    apply h.inv
    · exact fun s hInit => Accounts.init hInit
    · intro s r s' hInv hNext
      obtain ⟨hSums, hNext⟩ := System.restrict_next.mp hNext
      exact hInv.next hSums hNext
  have hOff := hInv.idle hIdle
  omega

/-! ## Runs without a loss -/

private theorem lost_next (hQuiet : Undisturbed s r) (hNext : s.next r = some s') :
    s'.lost = s.lost := by
  obtain ⟨t, -, rfl⟩ := Option.map_eq_some_iff.mp hNext
  by_cases hStoring : s.pc.isStoring = true
  · have hTaken := hQuiet.2 hStoring
    show (if s.pc.isStoring = true then s.lost + r.taken else s.lost) = s.lost
    rw [if_pos hStoring, hTaken, Nat.add_zero]
  · exact if_neg hStoring

/--
**The count register.** If the device takes nothing between the last read and
the write of a request, then between requests the register has what was
requested and not yet taken, over any interleaving.
-/
theorem undisturbed_counted (s : Shared) (h : (sharing.restrict Undisturbed).Reachable s) :
    Counted s := by
  have hInv : Accounts s ∧ s.lost = 0 := by
    apply h.inv
    · exact fun s hInit => ⟨Accounts.init hInit, hInit.lost⟩
    · rintro s r s' ⟨hInv, hLost⟩ hNext
      obtain ⟨hQuiet, hNext⟩ := System.restrict_next.mp hNext
      exact ⟨hInv.next hQuiet.1 hNext, (lost_next hQuiet hNext).trans hLost⟩
  intro hIdle
  have hOff := hInv.1.idle hIdle
  rw [hInv.2] at hOff
  exact hOff

/-- A buffer of 8 bytes, with nothing in it. -/
def quiet : Shared where
  audio :=
    { cfgNow := { present := true, bufsize := 8 }
      lastWrite := 0
      sbuf := fun _ => 0
      count := 0 }
  pc := .idle
  played := 0
  consumed := 0
  lost := 0

private theorem quiet_init : sharing.init quiet := ⟨rfl, rfl, rfl, rfl, rfl⟩

/-- A request of `len` bytes. -/
def samples (len : Word) : AmAudioPlay := { buf := fun k => BitVec.ofNat 8 k, len := len }

/-- The device plays while a request is waiting and while it is written. -/
def politeRun : List SharedStep :=
  [.request (samples 8), .poll, .word, .word, .read, .write,
    .request (samples 4), .poll, .consume 4, .poll, .consume 2, .word, .read, .write, .consume 1]

theorem undisturbed_counted_run :
    ∃ s, (sharing.restrict Undisturbed).Reachable s ∧ s.pc = .idle ∧ s.consumed = 7 ∧
      s.played = 12 ∧ Counted s := by
  obtain ⟨s, hRun, hPc, hConsumed, hPlayed⟩ :
      ∃ s, (sharing.restrict Undisturbed).steps quiet politeRun = some s ∧ s.pc = .idle ∧
        s.consumed = 7 ∧ s.played = 12 := ⟨_, rfl, rfl, rfl, rfl⟩
  have hReach : (sharing.restrict Undisturbed).Reachable s :=
    ⟨_, quiet_init, System.steps_run _ _ hRun⟩
  exact ⟨s, hReach, hPc, hConsumed, hPlayed, undisturbed_counted s hReach⟩

/-- The device plays 4 bytes between the read and the write of the second request. -/
def lossyRun : List SharedStep :=
  [.request (samples 4), .poll, .word, .read, .write,
    .request (samples 4), .poll, .word, .read, .consume 4, .write]

/-- 8 bytes are requested and 4 are taken, but the register has 8. -/
theorem lossy_count :
    ∃ s, sharing.Reachable s ∧ s.pc = .idle ∧ s.played = 8 ∧ s.consumed = 4 ∧
      s.audio.count = 8 ∧ ¬ Counted s := by
  obtain ⟨s, hRun, hPc, hPlayed, hConsumed, hCount⟩ :
      ∃ s, sharing.steps quiet lossyRun = some s ∧ s.pc = .idle ∧ s.played = 8 ∧
        s.consumed = 4 ∧ s.audio.count = 8 := ⟨_, rfl, rfl, rfl, rfl, rfl⟩
  refine ⟨s, ⟨_, quiet_init, System.steps_run _ _ hRun⟩, hPc, hPlayed, hConsumed, hCount, ?_⟩
  intro hCounted
  have hEq := hCounted hPc
  rw [hCount, hConsumed, hPlayed] at hEq
  exact absurd hEq (by decide)

end AbstractMachine.Nemu
