import Mathlib.Data.List.Basic
import AbstractMachine.Lib.Transition

/-!
# The audio pipe of native

`__am_audio_play` writes a buffer into a pipe, and SDL, in a thread of its own,
calls `audio_play` to fill a stream from it.  The system decides how much a
`write` or a `read` transfers.  Both loops start again at the beginning of their
buffer, with the whole length, so that they are right as long as a transfer that
is not refused is a whole one.
-/

namespace AbstractMachine.Native.Ioe

open AbstractMachine.Lib

/-- A byte of a sample. -/
abbrev Byte := BitVec 8

/-! ## The system -/

/-- A call of `audio_write`; `buf` is all that is to be written. -/
structure Writing where
  buf : List Byte
  nwrite : Nat
  deriving DecidableEq

/-- A call of `audio_play`; `stream` is all that is to be filled. -/
structure Playing where
  stream : List Byte
  nread : Nat
  b : Nat
  deriving DecidableEq

/-- The pipe between the program and the callback, with `count` and both ends. -/
structure Audio where
  pipe : List Byte
  count : Nat
  writer : Option Writing
  player : Option Playing
  /-- The buffers of all requests. -/
  played : List Byte
  /-- What the callbacks have put into their streams before the padding. -/
  placed : List Byte
  deriving DecidableEq

/-- The stream of a callback that returns. -/
def Playing.filled (p : Playing) : List Byte :=
  p.stream.take p.nread ++ List.replicate (p.stream.length - p.nread) 0

/-- The result of `write` or `read` is `none` for -1. -/
inductive Step where
  | play (buf : List Byte)
  | write (n : Option Nat)
  | written
  | callback (stream : List Byte)
  | read (n : Option Nat)
  | returns

/-- One step: a request, one `write` or `read` of its loop, or the end of a call. -/
def Audio.next (s : Audio) : Step → Option Audio
  | .play buf =>
      match s.writer with
      | none =>
          some { s with writer := some { buf := buf, nwrite := 0 }, played := s.played ++ buf }
      | some _ => none
  | .write r =>
      match s.writer, r with
      | none, _ => none
      | some w, none => if w.nwrite < w.buf.length then some s else none
      | some w, some n =>
          if w.nwrite < w.buf.length ∧ 0 < n ∧ n ≤ w.buf.length then
            some
              { s with
                pipe := s.pipe ++ w.buf.take n
                count := s.count + n
                writer := some { w with nwrite := w.nwrite + n } }
          else none
  | .written =>
      match s.writer with
      | none => none
      | some w => if w.nwrite < w.buf.length then none else some { s with writer := none }
  | .callback stream =>
      match s.player with
      | none =>
          let nread := if s.count < stream.length then s.count else stream.length
          some { s with player := some { stream := stream, nread := nread, b := 0 } }
      | some _ => none
  | .read r =>
      match s.player, r with
      | none, _ => none
      | some p, none => if p.b < p.nread then some s else none
      | some p, some n =>
          if p.b < p.nread ∧ 0 < n ∧ n ≤ p.nread ∧ n ≤ s.pipe.length then
            some
              { s with
                pipe := s.pipe.drop n
                player :=
                  some { p with stream := s.pipe.take n ++ p.stream.drop n, b := p.b + n } }
          else none
  | .returns =>
      match s.player with
      | none => none
      | some p =>
          if p.b < p.nread then none
          else
            some
              { s with
                count := s.count - p.nread
                player := none
                placed := s.placed ++ p.filled.take p.nread }

/-- The pipe is new. -/
def start : Audio where
  pipe := []
  count := 0
  writer := none
  player := none
  played := []
  placed := []

/-- The program and the audio thread, interleaved. -/
def playback : System Audio Step where
  init s := s = start
  next := Audio.next

/-- Every transfer is refused or whole. -/
def Whole (s : Audio) : Step → Prop
  | .write r => r = none ∨ r = s.writer.map fun w => w.buf.length
  | .read r => r = none ∨ r = s.player.map fun p => p.nread
  | _ => True

instance (s : Audio) (r : Step) : Decidable (Whole s r) :=
  match r with
  | .write _ => inferInstanceAs (Decidable (_ ∨ _))
  | .read _ => inferInstanceAs (Decidable (_ ∨ _))
  | .play _ => inferInstanceAs (Decidable True)
  | .written => inferInstanceAs (Decidable True)
  | .callback _ => inferInstanceAs (Decidable True)
  | .returns => inferInstanceAs (Decidable True)

/-- What the two ends do together. -/
structure Faithful (s : Audio) : Prop where
  order : s.placed <+: s.played
  nwrite : ∀ w, s.writer = some w → w.nwrite ≤ w.buf.length
  nread : ∀ p, s.player = some p → p.b ≤ p.nread
  count : s.writer = none → s.player = none → s.count = s.pipe.length

/-! ## One step -/

/-- What is still to be written. -/
def pending : Option Writing → List Byte
  | none => []
  | some w => w.buf.drop w.nwrite

/-- What is in a stream but not yet handed over. -/
def delivered : Option Playing → List Byte
  | none => []
  | some p => p.stream.take p.b

/-- A loop has done nothing or all; a byte is in one place, in order. -/
structure Flow (s : Audio) : Prop where
  nwrite : ∀ w, s.writer = some w → w.nwrite = 0 ∨ w.nwrite = w.buf.length
  nread : ∀ p, s.player = some p →
    (p.b = 0 ∨ p.b = p.nread) ∧ p.nread ≤ p.stream.length ∧ p.nread ≤ s.count
  count : s.count = s.pipe.length + (delivered s.player).length
  order : s.placed ++ delivered s.player ++ s.pipe ++ pending s.writer = s.played

variable {pipe played placed buf stream : List Byte} {count n : Nat} {writer : Option Writing}
  {player : Option Playing} {s s' : Audio} {r : Step}

theorem Flow.play (hInv : Flow ⟨pipe, count, none, player, played, placed⟩) (buf : List Byte) :
    Flow ⟨pipe, count, some ⟨buf, 0⟩, player, played ++ buf, placed⟩ := by
  refine ⟨?_, hInv.nread, hInv.count, ?_⟩
  · intro w hw
    cases hw
    exact Or.inl rfl
  · have hOrder : placed ++ delivered player ++ pipe ++ [] = played := hInv.order
    show placed ++ delivered player ++ pipe ++ buf.drop 0 = played ++ buf
    rw [← hOrder, List.append_nil, List.drop_zero]

/-- A whole write is the first that is not refused. -/
theorem Flow.write {w : Writing} (hInv : Flow ⟨pipe, count, some w, player, played, placed⟩)
    (hMore : w.nwrite < w.buf.length) :
    Flow
      ⟨pipe ++ w.buf.take w.buf.length, count + w.buf.length,
        some { w with nwrite := w.nwrite + w.buf.length }, player, played, placed⟩ := by
  have hStart : w.nwrite = 0 := by
    rcases hInv.nwrite w rfl with hStart | hEnd
    · exact hStart
    · omega
  refine ⟨?_, ?_, ?_, ?_⟩
  · intro w' hw'
    cases hw'
    right
    show w.nwrite + w.buf.length = w.buf.length
    omega
  · intro p hp
    obtain ⟨hLoop, hStream, hCount⟩ := hInv.nread p hp
    exact ⟨hLoop, hStream, Nat.le_trans hCount (Nat.le_add_right _ _)⟩
  · have hCount : count = pipe.length + (delivered player).length := hInv.count
    show count + w.buf.length = (pipe ++ w.buf.take w.buf.length).length + (delivered player).length
    rw [List.take_length, List.length_append]
    omega
  · have hOrder : placed ++ delivered player ++ pipe ++ w.buf.drop w.nwrite = played := hInv.order
    show placed ++ delivered player ++ (pipe ++ w.buf.take w.buf.length) ++
      w.buf.drop (w.nwrite + w.buf.length) = played
    rw [hStart, List.drop_zero] at hOrder
    rw [hStart, Nat.zero_add, List.take_length, List.drop_length, List.append_nil,
      ← List.append_assoc, hOrder]

theorem Flow.written {w : Writing} (hInv : Flow ⟨pipe, count, some w, player, played, placed⟩)
    (hDone : ¬ w.nwrite < w.buf.length) : Flow ⟨pipe, count, none, player, played, placed⟩ := by
  refine ⟨(fun _ hw => nomatch hw), hInv.nread, hInv.count, ?_⟩
  have hOrder : placed ++ delivered player ++ pipe ++ w.buf.drop w.nwrite = played := hInv.order
  rw [List.drop_eq_nil_of_le (Nat.le_of_not_lt hDone)] at hOrder
  exact hOrder

theorem Flow.callback (hInv : Flow ⟨pipe, count, writer, none, played, placed⟩)
    (stream : List Byte) :
    Flow
      ⟨pipe, count, writer,
        some ⟨stream, if count < stream.length then count else stream.length, 0⟩, played,
        placed⟩ := by
  refine ⟨hInv.nwrite, ?_, hInv.count, hInv.order⟩
  intro p hp
  cases hp
  refine ⟨Or.inl rfl, ?_⟩
  show (if count < stream.length then count else stream.length) ≤ stream.length ∧
    (if count < stream.length then count else stream.length) ≤ count
  split <;> omega

/-- So is a whole read. -/
theorem Flow.read {p : Playing} (hInv : Flow ⟨pipe, count, writer, some p, played, placed⟩)
    (hMore : p.b < p.nread) (hPipe : p.nread ≤ pipe.length) :
    Flow
      ⟨pipe.drop p.nread, count, writer,
        some
          { p with stream := pipe.take p.nread ++ p.stream.drop p.nread, b := p.b + p.nread },
        played, placed⟩ := by
  obtain ⟨hLoop, hStream, hMax⟩ := hInv.nread p rfl
  have hStart : p.b = 0 := by
    rcases hLoop with hStart | hEnd
    · exact hStart
    · omega
  have hLen : (pipe.take p.nread).length = p.nread := List.length_take_of_le hPipe
  have hTaken : (pipe.take p.nread ++ p.stream.drop p.nread).take (p.b + p.nread) =
      pipe.take p.nread := by
    rw [hStart, Nat.zero_add]
    exact List.take_left' hLen
  refine ⟨hInv.nwrite, ?_, ?_, ?_⟩
  · intro p' hp'
    cases hp'
    refine ⟨Or.inr ?_, ?_, hMax⟩
    · show p.b + p.nread = p.nread
      omega
    · show p.nread ≤ (pipe.take p.nread ++ p.stream.drop p.nread).length
      rw [List.length_append, hLen]
      exact Nat.le_add_right _ _
  · have hCount : count = pipe.length + (p.stream.take p.b).length := hInv.count
    show count = (pipe.drop p.nread).length +
      ((pipe.take p.nread ++ p.stream.drop p.nread).take (p.b + p.nread)).length
    rw [hStart, List.take_zero, List.length_nil] at hCount
    rw [hTaken, hLen, List.length_drop]
    omega
  · have hOrder : placed ++ p.stream.take p.b ++ pipe ++ pending writer = played := hInv.order
    show placed ++ (pipe.take p.nread ++ p.stream.drop p.nread).take (p.b + p.nread) ++
      pipe.drop p.nread ++ pending writer = played
    rw [hStart, List.take_zero, List.append_nil] at hOrder
    rw [hTaken, List.append_assoc placed, List.take_append_drop, hOrder]

theorem Flow.returns {p : Playing} (hInv : Flow ⟨pipe, count, writer, some p, played, placed⟩)
    (hDone : ¬ p.b < p.nread) :
    Flow
      ⟨pipe, count - p.nread, writer, none, played, placed ++ p.filled.take p.nread⟩ := by
  obtain ⟨hLoop, hStream, hMax⟩ := hInv.nread p rfl
  have hAll : p.b = p.nread := by omega
  have hLen : (p.stream.take p.nread).length = p.nread := List.length_take_of_le hStream
  refine ⟨hInv.nwrite, (fun _ hp => nomatch hp), ?_, ?_⟩
  · have hCount : count = pipe.length + (p.stream.take p.b).length := hInv.count
    show count - p.nread = pipe.length + 0
    rw [hAll, hLen] at hCount
    omega
  · have hOrder : placed ++ p.stream.take p.b ++ pipe ++ pending writer = played := hInv.order
    show placed ++ p.filled.take p.nread ++ [] ++ pipe ++ pending writer = played
    rw [Playing.filled, List.take_left' hLen, List.append_nil, ← hAll, hOrder]

theorem Flow.next (hInv : Flow s) (hWhole : Whole s r) (hNext : s.next r = some s') : Flow s' := by
  obtain ⟨pipe, count, writer, player, played, placed⟩ := s
  cases r with
  | play buf =>
      cases writer with
      | some w => cases hNext
      | none =>
          cases hNext
          exact hInv.play buf
  | write n =>
      cases writer with
      | none => cases hNext
      | some w =>
          cases n with
          | none =>
              obtain ⟨-, hEq⟩ := Option.ite_none_right_eq_some.mp hNext
              cases hEq
              exact hInv
          | some n =>
              obtain ⟨⟨hMore, -⟩, hEq⟩ := Option.ite_none_right_eq_some.mp hNext
              rcases hWhole with hNone | hSome
              · cases hNone
              · cases hSome
                cases hEq
                exact hInv.write hMore
  | written =>
      cases writer with
      | none => cases hNext
      | some w =>
          obtain ⟨hDone, hEq⟩ := Option.ite_none_left_eq_some.mp hNext
          cases hEq
          exact hInv.written hDone
  | callback stream =>
      cases player with
      | some p => cases hNext
      | none =>
          cases hNext
          exact hInv.callback stream
  | read n =>
      cases player with
      | none => cases hNext
      | some p =>
          cases n with
          | none =>
              obtain ⟨-, hEq⟩ := Option.ite_none_right_eq_some.mp hNext
              cases hEq
              exact hInv
          | some n =>
              obtain ⟨⟨hMore, -, -, hPipe⟩, hEq⟩ := Option.ite_none_right_eq_some.mp hNext
              rcases hWhole with hNone | hSome
              · cases hNone
              · cases hSome
                cases hEq
                exact hInv.read hMore hPipe
  | returns =>
      cases player with
      | none => cases hNext
      | some p =>
          obtain ⟨hDone, hEq⟩ := Option.ite_none_left_eq_some.mp hNext
          cases hEq
          exact hInv.returns hDone

/-! ## Runs -/

theorem Flow.start : Flow start :=
  ⟨(fun _ hw => nomatch hw), (fun _ hp => nomatch hp), rfl, rfl⟩

theorem Flow.faithful (h : Flow s) : Faithful s := by
  constructor
  · refine ⟨delivered s.player ++ (s.pipe ++ pending s.writer), ?_⟩
    rw [← h.order, List.append_assoc, List.append_assoc]
  · intro w hw
    rcases h.nwrite w hw with hStart | hEnd <;> omega
  · intro p hp
    rcases (h.nread p hp).1 with hStart | hEnd <;> omega
  · intro _ hPlayer
    have hCount := h.count
    rw [hPlayer] at hCount
    exact hCount

/--
**The audio pipe.** In a run in which every transfer is refused or whole, the
callbacks place what has been requested, in order, no loop transfers more than
it was asked for, and the count is right between operations.
-/
theorem whole_transfers_faithful (s : Audio) (h : (playback.restrict Whole).Reachable s) :
    Faithful s := by
  have hFlow : Flow s := by
    apply h.inv
    · intro s hInit
      cases hInit
      exact Flow.start
    · intro s r s' hInv hNext
      obtain ⟨hWhole, hNext⟩ := System.restrict_next.mp hNext
      exact hInv.next hWhole hNext
  exact hFlow.faithful

/-- A callback in the middle of a request, and one that has to pad. -/
def roomyRun : List Step :=
  [.play [1, 2, 3, 4], .write none, .write (some 4), .written, .play [5, 6], .callback [0, 0, 0],
    .read (some 3), .write (some 2), .returns, .written, .callback [0, 0, 0, 0], .read none,
    .read (some 3), .returns]

theorem whole_transfers_faithful_run :
    ∃ s, (playback.restrict Whole).Reachable s ∧ s.placed = [1, 2, 3, 4, 5, 6] ∧ Faithful s := by
  obtain ⟨s, hRun, hPlaced⟩ :
      ∃ s, (playback.restrict Whole).steps start roomyRun = some s ∧
        s.placed = [1, 2, 3, 4, 5, 6] := ⟨_, rfl, rfl⟩
  have hReach : (playback.restrict Whole).Reachable s := ⟨_, rfl, System.steps_run _ _ hRun⟩
  exact ⟨s, hReach, hPlaced, whole_transfers_faithful s hReach⟩

/-- A write that transfers half of the buffer. -/
def partialRun : List Step :=
  [.play [1, 2, 3, 4], .write (some 2), .write (some 4), .written, .callback [0, 0, 0, 0],
    .read (some 4), .returns]

/-- The next write starts again: the callback gets 1, 2, 1, 2. -/
theorem partial_write_repeats :
    ∃ s, playback.Reachable s ∧ s.played = [1, 2, 3, 4] ∧ s.placed = [1, 2, 1, 2] ∧
      ¬ Faithful s := by
  obtain ⟨s, hRun, hPlayed, hPlaced⟩ :
      ∃ s, playback.steps start partialRun = some s ∧ s.played = [1, 2, 3, 4] ∧
        s.placed = [1, 2, 1, 2] := ⟨_, rfl, rfl, rfl⟩
  refine ⟨s, ⟨_, rfl, System.steps_run _ _ hRun⟩, hPlayed, hPlaced, ?_⟩
  intro hFaithful
  have hPrefix := hFaithful.order
  rw [hPlayed, hPlaced] at hPrefix
  exact absurd hPrefix (by decide)

end AbstractMachine.Native.Ioe
