import AbstractMachine.Lib.Ring
import AbstractMachine.Lib.SignedWord
import AbstractMachine.Nemu.Ioe.Model

/-!
# The audio buffer as a queue

The driver puts the bytes of a request into the buffer of the device, word by
word from `last_write` on, and adds their number to the count register; the
device plays at most that many, from a position of its own.  As long as the
requests are whole words, the bytes in between are those that have been
requested and not yet played, in order.
-/

namespace AbstractMachine.Nemu

open AbstractMachine.Lib

/-! ## The system -/

/-- The driver and a device that consumes the ring buffer. -/
structure Stream where
  audio : Audio
  /-- Where the device goes on. -/
  readPos : Nat
  /-- The bytes of all requests. -/
  played : List (BitVec 8)
  /-- The bytes that the device has taken. -/
  consumed : List (BitVec 8)

/-- The size of the ring buffer. -/
def Stream.size (s : Stream) : Nat := s.audio.cfgNow.bufsize.toNat

/-- The bytes of a request. -/
def AmAudioPlay.bytes (ctl : AmAudioPlay) : List (BitVec 8) :=
  (List.range ctl.len.toNat).map ctl.buf

/-- A request that returns, or the device consumes `k` bytes. -/
inductive StreamStep where
  | play (ctl : AmAudioPlay)
  | consume (k : Nat)

/-- Nothing is consumed while a request waits, so the loop ends at its first test
or not at all. -/
def Stream.next (s : Stream) : StreamStep → Option Stream
  | .play ctl =>
      if 0 ≤ ctl.len.toInt ∧ ctl.len.toInt ≤ s.audio.cfgNow.bufsize.toInt then
        match amAudioPlay 1 (fun _ => s.audio.count) s.audio.count ctl s.audio with
        | .done a => some { s with audio := a, played := s.played ++ ctl.bytes }
        | _ => none
      else none
  | .consume k =>
      if k ≤ s.audio.count.toNat then
        some
          { s with
            audio := { s.audio with count := s.audio.count - BitVec.ofNat 32 k }
            readPos := (s.readPos + k) % s.size
            consumed := s.consumed ++ ring s.size s.audio.sbuf s.readPos k }
      else none

/-- The driver has the size of the device, a positive multiple of 4. -/
structure Stream.Init (s : Stream) : Prop where
  pos : 0 < s.audio.cfgNow.bufsize.toInt
  word : s.audio.cfgNow.bufsize.toNat % 4 = 0
  lastWrite : s.audio.lastWrite = 0
  count : s.audio.count = 0
  readPos : s.readPos = 0
  played : s.played = []
  consumed : s.consumed = []

/-- The driver and the device, taking turns. -/
def streams : System Stream StreamStep where
  init := Stream.Init
  next := Stream.next

/-- What has been requested is what has been taken and what is in the buffer. -/
def InOrder (s : Stream) : Prop :=
  s.played = s.consumed ++ ring s.size s.audio.sbuf s.readPos s.audio.count.toNat

/-- Requests of whole words, whose sum with the count is an `int`. -/
def WholeWords (s : Stream) : StreamStep → Prop
  | .play ctl => ctl.len.toNat % 4 = 0 ∧ s.audio.count.toNat + ctl.len.toNat < 2 ^ 31
  | .consume _ => True

instance (s : Stream) (r : StreamStep) : Decidable (WholeWords s r) :=
  match r with
  | .play _ => inferInstanceAs (Decidable (_ ∧ _))
  | .consume _ => inferInstanceAs (Decidable True)

/-! ## The writes of a request -/

variable {size : Word} {buf sbuf : Nat → BitVec 8} {n i pos : Nat} {a a' : Audio}

theorem toNat_next {lw : Word} (hPos : 0 < size.toInt) (hLe : lw.toNat + 4 ≤ size.toNat) :
    ((lw + 4).srem size).toNat = (lw.toNat + 4) % size.toNat := by
  have hSize := size.isLt
  have hFour : (4 : Word).toNat = 4 := rfl
  have hInt := BitVec.toInt_eq_toNat_cond size
  have hHalf : size.toNat < 2 ^ 31 := by
    split at hInt <;> omega
  have hSum : (lw + 4).toNat = lw.toNat + 4 := by
    rw [BitVec.toNat_add, hFour]
    exact Nat.mod_eq_of_lt (by omega)
  have hMsb : size.msb = false := by
    rw [BitVec.msb_eq_decide, decide_eq_false_iff_not]
    omega
  have hMsb' : (lw + 4).msb = false := by
    rw [BitVec.msb_eq_decide, decide_eq_false_iff_not, hSum]
    omega
  rw [BitVec.srem_eq, hMsb, hMsb']
  show ((lw + 4) % size).toNat = _
  rw [BitVec.toNat_umod, hSum]

/-- A word of the ring, and the place after it. -/
theorem place_word {size pos : Nat} (hWord : size % 4 = 0) (hAl : pos % 4 = 0) (hSize : 0 < size) :
    pos % size + 4 ≤ size ∧ ∀ t, t < 4 → (pos + t) % size = pos % size + t := by
  have hLt := Nat.mod_lt pos hSize
  have hMod : pos % size % 4 = pos % 4 := Nat.mod_mod_of_dvd pos (Nat.dvd_of_mod_eq_zero hWord)
  refine ⟨by omega, ?_⟩
  intro t ht
  rw [← Nat.mod_add_mod, Nat.mod_eq_of_lt (by omega)]

/-- `n` words into the places from `pos` on. -/
theorem writeWords_ring (hPos : 0 < size.toInt) (hWord : size.toNat % 4 = 0)
    (hFit : 4 * n ≤ size.toNat) (hAl : pos % 4 = 0) (hAt : a.lastWrite.toNat = pos % size.toNat)
    (h : writeWords size buf n i a = some a') :
    a'.lastWrite.toNat = (pos + 4 * n) % size.toNat ∧ a'.count = a.count ∧
      (∀ t, t < 4 * n → a'.sbuf ((pos + t) % size.toNat) = buf (i + t)) ∧
      ∀ o, (∀ t, t < 4 * n → o ≠ (pos + t) % size.toNat) → a'.sbuf o = a.sbuf o := by
  induction n generalizing pos i a with
  | zero =>
      cases h
      exact ⟨hAt, rfl, fun t ht => absurd ht (Nat.not_lt_zero t), fun _ _ => rfl⟩
  | succ n ih =>
      rw [writeWords, Option.ite_none_left_eq_some] at h
      obtain ⟨hEnd, hPlace⟩ := place_word hWord hAl (by omega)
      have hNext : ((a.lastWrite + 4).srem size).toNat = (pos + 4) % size.toNat := by
        rw [toNat_next hPos (by omega), hAt, Nat.mod_add_mod]
      obtain ⟨hLast, hCount, hIn, hOut⟩ := ih (by omega) (by omega) hNext h.2
      refine ⟨?_, hCount, ?_, ?_⟩
      · rw [hLast]
        congr 1
        omega
      · intro t ht
        by_cases hFirst : t < 4
        · -- The other words go to other places.
          rw [hOut _ fun t' _ => ?_]
          · show outWord _ _ _ _ _ = _
            rw [outWord, if_pos (by rw [hPlace t hFirst, hAt]; omega), hPlace t hFirst, hAt]
            congr 1
            omega
          · rw [Nat.add_assoc]
            exact place_ne (by omega) (by omega)
        · obtain ⟨t, rfl⟩ := Nat.exists_eq_add_of_le (Nat.le_of_not_lt hFirst)
          rw [← Nat.add_assoc, hIn t (by omega)]
          congr 1
          omega
      · intro o ho
        rw [hOut o fun t ht => ?_]
        · show outWord _ _ _ _ _ = _
          apply if_neg
          rintro ⟨hLo, hHi⟩
          apply ho (o - pos % size.toNat) (by omega)
          rw [hPlace _ (by omega)]
          omega
        · have hNe := ho (4 + t) (by omega)
          rw [← Nat.add_assoc] at hNe
          exact hNe

/-! ## One step -/

/-- What every step on whole words keeps. -/
structure Queue (s : Stream) : Prop where
  pos : 0 < s.audio.cfgNow.bufsize.toInt
  word : s.size % 4 = 0
  fits : s.audio.count.toNat ≤ s.size
  aligned : (s.readPos + s.audio.count.toNat) % 4 = 0
  lastWrite : s.audio.lastWrite.toNat = (s.readPos + s.audio.count.toNat) % s.size
  inOrder : InOrder s

variable {s s' : Stream} {ctl : AmAudioPlay} {k : Nat}

/-- The loop lets a request through that fits, and no other. -/
theorem wait_once {count len : Word} (hPos : 0 < size.toInt)
    (hSum : count.toNat + len.toNat < 2 ^ 31)
    (h : wait size len 1 (fun _ => count) = true) :
    count.toNat + len.toNat ≤ size.toNat := by
  have hAdd : (count + len).toNat = count.toNat + len.toNat := by
    rw [BitVec.toNat_add]
    exact Nat.mod_eq_of_lt (by omega)
  have hInt := BitVec.toInt_eq_toNat_cond (count + len)
  have hSize := SignedWord.toInt_of_nonneg (Int.le_of_lt hPos)
  have hRoom : ¬ size.slt (count + len) = true := by
    intro hFull
    rw [wait, if_pos hFull] at h
    cases h
  rw [BitVec.slt_iff_toInt_lt] at hRoom
  rw [hAdd] at hInt
  split at hInt <;> omega

/-- A request of whole words that fits goes behind what is there. -/
theorem audioPlay_queue {count len : Nat} (hPos : 0 < a.cfgNow.bufsize.toInt)
    (hWord : a.cfgNow.bufsize.toNat % 4 = 0) (hFit : count + len ≤ a.cfgNow.bufsize.toNat)
    (hLen : len % 4 = 0) (hAl : (pos + count) % 4 = 0)
    (hAt : a.lastWrite.toNat = (pos + count) % a.cfgNow.bufsize.toNat)
    (h : writeWords a.cfgNow.bufsize buf (len / 4) 0 a = some a') :
    a'.lastWrite.toNat = (pos + (count + len)) % a.cfgNow.bufsize.toNat ∧
      ring a.cfgNow.bufsize.toNat a'.sbuf pos (count + len) =
        ring a.cfgNow.bufsize.toNat a.sbuf pos count ++ (List.range len).map buf := by
  have hWhole : 4 * (len / 4) = len := by omega
  obtain ⟨hLast, -, hIn, hOut⟩ := writeWords_ring hPos hWord (by omega) hAl hAt h
  rw [hWhole] at hLast hIn hOut
  refine ⟨by rw [hLast, Nat.add_assoc], ?_⟩
  rw [ring_add, ring_write hFit hOut]
  congr 1
  apply List.map_congr_left
  intro t ht
  rw [hIn t (List.mem_range.mp ht), Nat.zero_add]

theorem Queue.play (hQ : Queue s) (hWhole : WholeWords s (.play ctl))
    (h : s.next (.play ctl) = some s') : Queue s' := by
  obtain ⟨hLen, hSum⟩ := hWhole
  obtain ⟨⟨hNonneg, -⟩, h⟩ := Option.ite_none_right_eq_some.mp h
  have hNat := SignedWord.toInt_of_nonneg hNonneg
  unfold amAudioPlay at h
  dsimp only at h
  by_cases hWait : wait s.audio.cfgNow.bufsize ctl.len 1 (fun _ => s.audio.count) = true
  · have hFit := wait_once hQ.pos hSum hWait
    have hWords : (ctl.len.toInt.toNat + 3) / 4 = ctl.len.toNat / 4 := by omega
    rw [if_pos hWait, hWords] at h
    cases hWrite : writeWords s.audio.cfgNow.bufsize ctl.buf (ctl.len.toNat / 4) 0 s.audio with
    | none =>
        rw [hWrite] at h
        cases h
    | some a =>
        rw [hWrite] at h
        cases h
        obtain ⟨hLast, hRing⟩ :=
          audioPlay_queue hQ.pos hQ.word hFit hLen hQ.aligned hQ.lastWrite hWrite
        have hCfg : a.cfgNow = s.audio.cfgNow := writeWords_cfg hWrite
        have hAdd : (s.audio.count + ctl.len).toNat = s.audio.count.toNat + ctl.len.toNat := by
          rw [BitVec.toNat_add]
          exact Nat.mod_eq_of_lt (by omega)
        have hAl := hQ.aligned
        constructor
        · rw [hCfg]
          exact hQ.pos
        · show a.cfgNow.bufsize.toNat % 4 = 0
          rw [hCfg]
          exact hQ.word
        · show (s.audio.count + ctl.len).toNat ≤ a.cfgNow.bufsize.toNat
          rw [hAdd, hCfg]
          exact hFit
        · show (s.readPos + (s.audio.count + ctl.len).toNat) % 4 = 0
          rw [hAdd]
          omega
        · show a.lastWrite.toNat =
            (s.readPos + (s.audio.count + ctl.len).toNat) % a.cfgNow.bufsize.toNat
          rw [hAdd, hCfg]
          exact hLast
        · show s.played ++ ctl.bytes =
            s.consumed ++
              ring a.cfgNow.bufsize.toNat a.sbuf s.readPos (s.audio.count + ctl.len).toNat
          have hOrder : s.played =
              s.consumed ++
                ring s.audio.cfgNow.bufsize.toNat s.audio.sbuf s.readPos s.audio.count.toNat :=
            hQ.inOrder
          rw [hAdd, hCfg, hRing, hOrder, List.append_assoc]
          rfl
  · rw [if_neg hWait] at h
    cases h

theorem Queue.consume (hQ : Queue s) (h : s.next (.consume k) = some s') : Queue s' := by
  obtain ⟨hLe, h⟩ := Option.ite_none_right_eq_some.mp h
  cases h
  have hLt := s.audio.count.isLt
  have hMax := hQ.fits
  have hAl := hQ.aligned
  have hWord := hQ.word
  have hSub := toNat_taken hLe
  have hFour : (s.readPos + k) % s.size % 4 = (s.readPos + k) % 4 :=
    Nat.mod_mod_of_dvd _ (Nat.dvd_of_mod_eq_zero hWord)
  have hSum : s.readPos + k + (s.audio.count.toNat - k) = s.readPos + s.audio.count.toNat := by
    omega
  constructor
  · exact hQ.pos
  · exact hWord
  · show (s.audio.count - BitVec.ofNat 32 k).toNat ≤ s.size
    omega
  · show ((s.readPos + k) % s.size + (s.audio.count - BitVec.ofNat 32 k).toNat) % 4 = 0
    omega
  · show s.audio.lastWrite.toNat =
      ((s.readPos + k) % s.size + (s.audio.count - BitVec.ofNat 32 k).toNat) % s.size
    rw [hSub, Nat.mod_add_mod, hSum]
    exact hQ.lastWrite
  · show s.played =
      s.consumed ++ ring s.size s.audio.sbuf s.readPos k ++
        ring s.size s.audio.sbuf ((s.readPos + k) % s.size)
          (s.audio.count - BitVec.ofNat 32 k).toNat
    rw [hSub, ring_mod (Nat.mod_mod (s.readPos + k) s.size), List.append_assoc, ← ring_add,
      Nat.add_sub_cancel' hLe]
    exact hQ.inOrder

/-! ## Runs -/

theorem Queue.init (h : s.Init) : Queue s := by
  constructor
  · exact h.pos
  · exact h.word
  · rw [h.count]
    exact Nat.zero_le _
  · rw [h.readPos, h.count]
    rfl
  · rw [h.lastWrite, h.readPos, h.count]
    exact (Nat.zero_mod _).symm
  · unfold InOrder
    rw [h.played, h.consumed, h.count]
    rfl

/--
**The audio buffer is a queue.** In a run whose requests are all whole words,
what is requested is what the device has taken followed by what is still in the
buffer, byte by byte and in order.
-/
theorem whole_words_in_order (s : Stream) (h : (streams.restrict WholeWords).Reachable s) :
    InOrder s := by
  have hQ : Queue s := by
    apply h.inv
    · exact fun s hInit => Queue.init hInit
    · intro s r s' hQ hNext
      obtain ⟨hWhole, hNext⟩ := System.restrict_next.mp hNext
      cases r with
      | play ctl => exact hQ.play hWhole hNext
      | consume k => exact hQ.consume hNext
  exact hQ.inOrder

/-- A buffer of 8 bytes. -/
def eightBytes : Stream where
  audio :=
    { cfgNow := { present := true, bufsize := 8 }
      lastWrite := 0
      sbuf := fun _ => 0
      count := 0 }
  readPos := 0
  played := []
  consumed := []

private theorem eightBytes_init :
    streams.init eightBytes := ⟨by decide, rfl, rfl, rfl, rfl, rfl, rfl⟩

/-- The bytes `first`, `first + 1` and so on. -/
def upFrom (first : Nat) (len : Word) : AmAudioPlay where
  buf k := BitVec.ofNat 8 (first + k)
  len := len

/-- Two requests of one whole word each. -/
def wholeRun : List StreamStep :=
  [.play (upFrom 1 4), .consume 3, .play (upFrom 5 4), .consume 4]

/-- Round the end of the buffer. -/
theorem whole_words_in_order_run :
    ∃ s, (streams.restrict WholeWords).Reachable s ∧ s.consumed = [1, 2, 3, 4, 5, 6, 7] ∧
      InOrder s := by
  obtain ⟨s, hRun, hConsumed⟩ :
      ∃ s, (streams.restrict WholeWords).steps eightBytes wholeRun = some s ∧
        s.consumed = [1, 2, 3, 4, 5, 6, 7] := ⟨_, rfl, rfl⟩
  have hReach : (streams.restrict WholeWords).Reachable s :=
    ⟨_, eightBytes_init, System.steps_run _ _ hRun⟩
  exact ⟨s, hReach, hConsumed, whole_words_in_order s hReach⟩

/-- Two requests of three bytes each. -/
def threeRun : List StreamStep :=
  [.play (upFrom 1 3), .consume 3, .play (upFrom 4 3), .consume 3]

/-- Two requests of three bytes: the second is written at 4 and played from 3. -/
theorem three_bytes_shifted :
    ∃ s, streams.Reachable s ∧ s.played = [1, 2, 3, 4, 5, 6] ∧
      s.consumed = [1, 2, 3, 4, 4, 5] ∧ ¬ InOrder s := by
  obtain ⟨s, hRun, hPlayed, hConsumed⟩ :
      ∃ s, streams.steps eightBytes threeRun = some s ∧ s.played = [1, 2, 3, 4, 5, 6] ∧
        s.consumed = [1, 2, 3, 4, 4, 5] := ⟨_, rfl, rfl, rfl⟩
  refine ⟨s, ⟨_, eightBytes_init, System.steps_run _ _ hRun⟩, hPlayed, hConsumed, ?_⟩
  intro hOrder
  unfold InOrder at hOrder
  rw [hPlayed, hConsumed] at hOrder
  exact absurd (List.cons_eq_cons.mp hOrder).2 (by simp)

end AbstractMachine.Nemu
