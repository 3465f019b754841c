import AbstractMachine.Nemu.Ioe.Model

/-!
# Playing

`__am_audio_play` waits until there is room for the request in a buffer of
`cfg_now.bufsize` bytes.  With the size of the device there, a device that
plays all it has lets the request through; after `ioe_init` the size there is 0,
and no request that is not empty ever comes to its end.
-/

namespace AbstractMachine.Nemu

open AbstractMachine.Lib

variable {size len count : Word} {counts : Nat → Word} {ctl : AmAudioPlay} {a : Audio} {s : Ioe}
  {fuel n i k : Nat} {buf : Nat → BitVec 8}

/-! ## The wait loop -/

/-- Once there is room, the loop ends. -/
theorem wait_room (counts : Nat → Word) (h : ¬ size.slt (counts k + len) = true) :
    ∃ fuel, wait size len fuel counts = true := by
  induction k generalizing counts with
  | zero =>
      refine ⟨1, ?_⟩
      rw [wait, if_neg h]
  | succ k ih =>
      obtain ⟨fuel, hWait⟩ := ih (fun k => counts (k + 1)) h
      by_cases hRoom : size.slt (counts 0 + len) = true
      · refine ⟨fuel + 1, ?_⟩
        rw [wait, if_pos hRoom]
        exact hWait
      · refine ⟨1, ?_⟩
        rw [wait, if_neg hRoom]

/-- As long as there is no room, it does not. -/
theorem wait_full (h : ∀ k, size.slt (counts k + len) = true) (fuel : Nat) :
    wait size len fuel counts = false := by
  induction fuel generalizing counts with
  | zero => rfl
  | succ fuel ih =>
      rw [wait, if_pos (h 0)]
      exact ih fun k => h (k + 1)

/-! ## The writes -/

private theorem writeWords_some (hSize : size ≠ 0) (buf : Nat → BitVec 8) (n i : Nat) (a : Audio) :
    ∃ a', writeWords size buf n i a = some a' := by
  induction n generalizing i a with
  | zero => exact ⟨a, rfl⟩
  | succ n ih =>
      rw [writeWords, if_neg hSize]
      exact ih _ _

/-- The first write divides by the size. -/
theorem writeWords_zero (hn : 0 < n) : writeWords 0 buf n i a = none := by
  cases n with
  | zero => cases hn
  | succ n => rw [writeWords, if_pos rfl]

/-! ## Requests -/

/-- After `__am_audio_init`, a request that fits ends when the device has played
what it had. -/
theorem play_initialised (hSize : 0 < a.cfgNow.bufsize.toInt)
    (hLen : ctl.len.toInt ≤ a.cfgNow.bufsize.toInt) (hDrained : counts k = 0) :
    ∃ fuel a', amAudioPlay fuel counts count ctl a = .done a' := by
  have hRoom : ¬ a.cfgNow.bufsize.slt (counts k + ctl.len) = true := by
    have hNone : (0 : Word) + ctl.len = ctl.len := BitVec.zero_add _
    rw [hDrained, hNone, BitVec.slt_iff_toInt_lt]
    omega
  have hPos : a.cfgNow.bufsize ≠ 0 := by
    intro hZero
    rw [hZero] at hSize
    exact absurd hSize (by decide)
  obtain ⟨fuel, hWait⟩ := wait_room counts hRoom
  obtain ⟨a', hWords⟩ := writeWords_some hPos ctl.buf ((ctl.len.toInt.toNat + 3) / 4) 0 a
  refine ⟨fuel, { a' with count := count + ctl.len }, ?_⟩
  unfold amAudioPlay
  simp only [hWait, if_true, hWords]

/--
**Audio after start-up.** Whatever ran since `ioe_init`, and whatever the device
answers, a request that is not empty does not end: it waits for ever or divides
by zero.
-/
theorem play_never (s : Ioe) (hReach : programs.Reachable s) (ctl : AmAudioPlay)
    (hLen : 0 < ctl.len.toInt) (fuel : Nat) (counts : Nat → Word) (count : Word) (a : Audio) :
    amAudioPlay fuel counts count ctl s.audio ≠ .done a := by
  have hZero := (unset_reachable hReach).bufsize
  have hSome : 0 < (ctl.len.toInt.toNat + 3) / 4 := by omega
  intro hPlay
  unfold amAudioPlay at hPlay
  simp only [hZero, writeWords_zero hSome] at hPlay
  split at hPlay <;> cases hPlay

/-- One sample. -/
def oneSample : AmAudioPlay := { buf := fun _ => 0, len := 4 }

/-- A program that has just started. -/
def fresh : Ioe := ioeInit (loaded (fun _ => 0) 0 (fun _ => 0))

private theorem fresh_reachable : programs.Reachable fresh := ⟨_, ⟨_, _, _, rfl⟩, System.Run.refl _⟩

theorem play_never_fresh :
    amAudioPlay 3 (fun _ => 0) 0 oneSample fresh.audio ≠ .done fresh.audio :=
  play_never fresh fresh_reachable oneSample (by decide) 3 (fun _ => 0) 0 fresh.audio

/-- Even if the device has nothing to play. -/
theorem play_waits :
    programs.Reachable fresh ∧
      ∀ fuel, amAudioPlay fuel (fun _ => 0) 0 oneSample fresh.audio = .waiting := by
  refine ⟨fresh_reachable, ?_⟩
  intro fuel
  have hWait : wait 0 4 fuel (fun _ => 0) = false := wait_full (fun _ => by decide) fuel
  have hSize : fresh.audio.cfgNow.bufsize = 0 := rfl
  have hFour : oneSample.len = 4 := rfl
  unfold amAudioPlay
  simp only [hSize, hFour, hWait]
  rfl

end AbstractMachine.Nemu
