import Mathlib.Algebra.Group.Nat.Defs
import Mathlib.Logic.Function.Basic
import AbstractMachine.Lib.Ring
import AbstractMachine.Lib.Transition

/-!
# The keyboard of native

SDL delivers key events to a thread of its own, `event_thread`, which puts them
into a ring; `__am_input_keybrd` takes them out.  A mutex keeps the two apart.
The ring has two positions and no count: it is empty when they are equal, which
they also are after `KEY_QUEUE_LEN` events that nobody has read.
-/

namespace AbstractMachine.Native.Input

open AbstractMachine.Lib

/-- An `int`. -/
abbrev Word := BitVec 32

/-! ## Keys -/

/-- `AM_KEYS`, as the enumeration of `amdev.h`. -/
inductive AmKey where
  | ESCAPE | F1 | F2 | F3 | F4 | F5 | F6 | F7 | F8 | F9 | F10 | F11 | F12
  | GRAVE | N1 | N2 | N3 | N4 | N5 | N6 | N7 | N8 | N9 | N0 | MINUS | EQUALS | BACKSPACE
  | TAB | Q | W | E | R | T | Y | U | I | O | P | LEFTBRACKET | RIGHTBRACKET | BACKSLASH
  | CAPSLOCK | A | S | D | F | G | H | J | K | L | SEMICOLON | APOSTROPHE | RETURN
  | LSHIFT | Z | X | C | V | B | N | M | COMMA | PERIOD | SLASH | RSHIFT
  | LCTRL | APPLICATION | LALT | SPACE | RALT | RCTRL
  | UP | DOWN | LEFT | RIGHT | INSERT | DELETE | HOME | END | PAGEUP | PAGEDOWN
  deriving DecidableEq, Repr

open AmKey in
/-- The keys in the order of their codes, which start at 1. -/
def AM_KEYS : List AmKey :=
  [ESCAPE, F1, F2, F3, F4, F5, F6, F7, F8, F9, F10, F11, F12,
    GRAVE, N1, N2, N3, N4, N5, N6, N7, N8, N9, N0, MINUS, EQUALS, BACKSPACE,
    TAB, Q, W, E, R, T, Y, U, I, O, P, LEFTBRACKET, RIGHTBRACKET, BACKSLASH,
    CAPSLOCK, A, S, D, F, G, H, J, K, L, SEMICOLON, APOSTROPHE, RETURN,
    LSHIFT, Z, X, C, V, B, N, M, COMMA, PERIOD, SLASH, RSHIFT,
    LCTRL, APPLICATION, LALT, SPACE, RALT, RCTRL,
    UP, DOWN, LEFT, RIGHT, INSERT, DELETE, HOME, END, PAGEUP, PAGEDOWN]

/-- The code of no key. -/
def AM_KEY_NONE : Word := 0

/-- The enumerators after `AM_KEY_NONE`, in the order of `AM_KEYS`. -/
def AmKey.code (k : AmKey) : Word := BitVec.ofNat 32 (AM_KEYS.idxOf k + 1)

/-- The bit of an entry of the queue that tells a press from a release. -/
def KEYDOWN_MASK : Word := 0x8000

/-- SDL's numbers of the keys are those of a header that is not here; the table
has room for every one. -/
abbrev Scancodes := AmKey → Fin 256

/-- An initialiser that comes later in the table wins. -/
def keymap (sdl : Scancodes) (scancode : Fin 256) : Word :=
  match AM_KEYS.reverse.find? (fun k => sdl k = scancode) with
  | some k => k.code
  | none => 0

/-- `AM_INPUT_KEYBRD_T`. -/
structure AmInputKeybrd where
  keydown : Bool
  keycode : Word
  deriving DecidableEq, Repr

/-- The entry that `event_thread` stores for an event. -/
def amCode (e : AmInputKeybrd) : Word := e.keycode ||| if e.keydown then KEYDOWN_MASK else 0

/-- The event that `__am_input_keybrd` reads off an entry. -/
def kbdOf (k : Word) : AmInputKeybrd where
  keydown := k &&& KEYDOWN_MASK != 0
  keycode := k &&& ~~~KEYDOWN_MASK

/-! ## The two threads -/

def KEY_QUEUE_LEN : Nat := 1024

/-- The two threads that take `key_queue_lock`. -/
inductive Thread where
  | event
  | keybrd
  deriving DecidableEq, Repr

/-- Where `event_thread` is; `e` is the event that it handles. -/
inductive EventThread where
  | wait
  | lock (e : AmInputKeybrd)
  | store (e : AmInputKeybrd)
  | advance (e : AmInputKeybrd)
  | unlock
  deriving DecidableEq, Repr

/-- Where `__am_input_keybrd` is; `k` is its local variable. -/
inductive Keybrd where
  | idle
  | lock
  | test
  | take
  | advance (k : Word)
  | unlock (k : Word)
  | fill (k : Word)
  deriving DecidableEq, Repr

/-- What a read returned, and how many events were outstanding when it looked. -/
structure Reading where
  kbd : AmInputKeybrd
  outstanding : Nat
  deriving DecidableEq, Repr

/-- The statics of `input.c`, both threads, and what has gone through the queue as a ghost. -/
structure Keyboard where
  keyQueue : Nat → Word
  keyF : Nat
  keyR : Nat
  keyQueueLock : Option Thread
  eventThread : EventThread
  keybrd : Keybrd
  /-- The events that have been put into the queue. -/
  produced : List AmInputKeybrd
  /-- How many have been taken out. -/
  taken : Nat
  /-- How many were outstanding when the last read looked. -/
  tested : Nat
  readings : List Reading

/-- Events that have been produced but not yet read. -/
def Keyboard.outstanding (s : Keyboard) : Nat := s.produced.length - s.taken

/-- A key moves, a thread goes on, or the program reads. -/
inductive Step where
  | event (keydown : Bool) (scancode : Fin 256)
  | eventThread
  | read
  | keybrd
  deriving DecidableEq, Repr

/-- `event_thread`: a key that is not in the map is dropped. -/
def Keyboard.event (sdl : Scancodes) (s : Keyboard) (keydown : Bool) (scancode : Fin 256) :
    Option Keyboard :=
  match s.eventThread with
  | .wait =>
      if keymap sdl scancode ≠ 0 then
        some { s with eventThread := .lock ⟨keydown, keymap sdl scancode⟩ }
      else some s
  | _ => none

/-- One atomic step of `event_thread`. -/
def Keyboard.eventThreadNext (s : Keyboard) : Option Keyboard :=
  match s.eventThread with
  | .wait => none
  | .lock e =>
      if s.keyQueueLock = none then
        some { s with keyQueueLock := some .event, eventThread := .store e }
      else none
  | .store e =>
      some
        { s with
          keyQueue := Function.update s.keyQueue s.keyR (amCode e)
          eventThread := .advance e }
  | .advance e =>
      some
        { s with
          keyR := (s.keyR + 1) % KEY_QUEUE_LEN
          eventThread := .unlock
          produced := s.produced ++ [e] }
  | .unlock => some { s with keyQueueLock := none, eventThread := .wait }

/-- The program calls `__am_input_keybrd`. -/
def Keyboard.read (s : Keyboard) : Option Keyboard :=
  match s.keybrd with
  | .idle => some { s with keybrd := .lock }
  | _ => none

/-- One atomic step of `__am_input_keybrd`. -/
def Keyboard.keybrdNext (s : Keyboard) : Option Keyboard :=
  match s.keybrd with
  | .idle => none
  | .lock =>
      if s.keyQueueLock = none then
        some { s with keyQueueLock := some .keybrd, keybrd := .test }
      else none
  | .test =>
      some
        { s with
          keybrd := if s.keyF ≠ s.keyR then .take else .unlock AM_KEY_NONE
          tested := s.outstanding }
  | .take => some { s with keybrd := .advance (s.keyQueue s.keyF) }
  | .advance k =>
      some
        { s with
          keyF := (s.keyF + 1) % KEY_QUEUE_LEN
          keybrd := .unlock k
          taken := s.taken + 1 }
  | .unlock k => some { s with keyQueueLock := none, keybrd := .fill k }
  | .fill k =>
      some
        { s with
          keybrd := .idle
          readings := s.readings ++ [⟨kbdOf k, s.tested⟩] }

/-- A step; `none` where it is not enabled. -/
def Keyboard.next (sdl : Scancodes) (s : Keyboard) : Step → Option Keyboard
  | .event keydown scancode => s.event sdl keydown scancode
  | .eventThread => s.eventThreadNext
  | .read => s.read
  | .keybrd => s.keybrdNext

/-- The queue is empty and both threads are outside. -/
def start : Keyboard where
  keyQueue := fun _ => 0
  keyF := 0
  keyR := 0
  keyQueueLock := none
  eventThread := .wait
  keybrd := .idle
  produced := []
  taken := 0
  tested := 0
  readings := []

/-- The two threads, interleaved. -/
def keyboard (sdl : Scancodes) : System Keyboard Step where
  init s := s = start
  next := Keyboard.next sdl

/-- The entry is stored, and `key_r` is not yet moved. -/
def EventThread.advancing : EventThread → Bool
  | .advance _ => true
  | _ => false

/-- No event is produced while `n` are outstanding. -/
def AtMost (n : Nat) (s : Keyboard) (a : Step) : Prop :=
  a = .eventThread ∧ s.eventThread.advancing → s.outstanding < n

instance (n : Nat) (s : Keyboard) (a : Step) : Decidable (AtMost n s a) :=
  inferInstanceAs (Decidable (_ → _))

/-- The reading is of a key. -/
def AmInputKeybrd.isKey (kbd : AmInputKeybrd) : Bool := kbd.keycode ≠ AM_KEY_NONE

/-- The results that are keys. -/
def Keyboard.delivered (s : Keyboard) : List AmInputKeybrd :=
  (s.readings.map Reading.kbd).filter AmInputKeybrd.isKey

/-- The reads return the events in order, and nothing when there is nothing. -/
structure Delivers (s : Keyboard) : Prop where
  inOrder : s.delivered <+: s.produced
  all : s.keybrd = .idle → s.delivered = s.produced.take s.taken ∧ s.taken ≤ s.produced.length
  empty : ∀ r ∈ s.readings, r.kbd.keycode = AM_KEY_NONE ↔ r.outstanding = 0

/-! ## Key codes -/

/-- A code that `am_code` can be made of. -/
def Mapped (e : AmInputKeybrd) : Prop := e.keycode ≠ AM_KEY_NONE ∧ e.keycode.toNat < 2 ^ 15

private theorem code_toNat (k : AmKey) :
    k.code.toNat = AM_KEYS.idxOf k + 1 ∧ AM_KEYS.idxOf k < 84 := by
  cases k <;> exact ⟨rfl, by decide⟩

private theorem keymap_mapped {sdl : Scancodes} {scancode : Fin 256} (keydown : Bool)
    (h : keymap sdl scancode ≠ 0) : Mapped ⟨keydown, keymap sdl scancode⟩ := by
  refine ⟨h, ?_⟩
  show (keymap sdl scancode).toNat < 2 ^ 15
  unfold keymap at h ⊢
  split
  · rename_i k hFind
    obtain ⟨hCode, hLt⟩ := code_toNat k
    omega
  · exact Nat.zero_lt_succ _

/-- Every key of the table is in the map. -/
theorem keymap_ne (sdl : Scancodes) (k : AmKey) (h : k ∈ AM_KEYS) : keymap sdl (sdl k) ≠ 0 := by
  unfold keymap
  split
  · rename_i k' hFind
    obtain ⟨hCode, hLt⟩ := code_toNat k'
    intro hZero
    rw [hZero] at hCode
    exact absurd hCode (by simp)
  · rename_i hFind
    have hNot := List.find?_eq_none.mp hFind k (List.mem_reverse.mpr h)
    exact absurd hNot (by simp)

private theorem and_mask {k : Word} (h : k.toNat < 2 ^ 15) : k &&& KEYDOWN_MASK = 0#32 := by
  show k &&& BitVec.twoPow 32 15 = 0
  have hBit : k.getLsbD 15 = false := Nat.testBit_lt_two_pow h
  rw [BitVec.and_twoPow, hBit]
  rfl

private theorem and_not_mask {k : Word} (h : k.toNat < 2 ^ 15) : k &&& ~~~KEYDOWN_MASK = k := by
  have hSplit : k &&& ~~~KEYDOWN_MASK ||| k &&& KEYDOWN_MASK = k := by
    rw [← BitVec.and_or_distrib_left, BitVec.or_comm, BitVec.or_not_self, BitVec.and_allOnes]
  rwa [and_mask h, BitVec.or_zero] at hSplit

/-- `__am_input_keybrd` takes a code apart as `event_thread` has put it together. -/
theorem kbdOf_amCode {e : AmInputKeybrd} (h : Mapped e) : kbdOf (amCode e) = e := by
  obtain ⟨keydown, keycode⟩ := e
  have hMask : keycode &&& KEYDOWN_MASK = 0#32 := and_mask h.2
  have hCode : keycode &&& ~~~KEYDOWN_MASK = keycode := and_not_mask h.2
  unfold kbdOf amCode
  cases keydown with
  | false => simp [hMask, hCode]
  | true =>
      have hDown : (keycode ||| KEYDOWN_MASK) &&& KEYDOWN_MASK = KEYDOWN_MASK := by
        rw [BitVec.and_or_distrib_right, hMask, BitVec.and_self, BitVec.zero_or]
      have hRest : (keycode ||| KEYDOWN_MASK) &&& ~~~KEYDOWN_MASK = keycode := by
        rw [BitVec.and_or_distrib_right, hCode, BitVec.and_not_self]
        exact BitVec.or_zero
      show AmInputKeybrd.mk ((keycode ||| KEYDOWN_MASK) &&& KEYDOWN_MASK != 0)
        ((keycode ||| KEYDOWN_MASK) &&& ~~~KEYDOWN_MASK) = ⟨true, keycode⟩
      rw [hDown, hRest]
      rfl

/-! ## One step -/

/-- The event that `event_thread` handles. -/
def EventThread.pending : EventThread → List AmInputKeybrd
  | .lock e => [e]
  | .store e => [e]
  | .advance e => [e]
  | _ => []

/-- Between the lock and the unlock of `event_thread`. -/
def EventThread.holds : EventThread → Bool
  | .store _ => true
  | .advance _ => true
  | .unlock => true
  | _ => false

/-- Between the lock and the unlock of `__am_input_keybrd`. -/
def Keybrd.holds : Keybrd → Bool
  | .test => true
  | .take => true
  | .advance _ => true
  | .unlock _ => true
  | _ => false

/-- What a read has taken out and not yet returned. -/
def Keybrd.inHand : Keybrd → List AmInputKeybrd
  | .unlock k => [kbdOf k].filter AmInputKeybrd.isKey
  | .fill k => [kbdOf k].filter AmInputKeybrd.isKey
  | _ => []

/-- The events in the queue. -/
def Keyboard.queued (s : Keyboard) : List AmInputKeybrd := s.produced.drop s.taken

/-- What a read knows between its look at the positions and its return. -/
def Keyboard.Looked (s : Keyboard) : Prop :=
  match s.keybrd with
  | .take => s.tested = s.outstanding ∧ s.queued ≠ []
  | .advance k => s.tested = s.outstanding ∧ s.queued.head? = some (kbdOf k)
  | .unlock k => (kbdOf k).keycode = AM_KEY_NONE ↔ s.tested = 0
  | .fill k => (kbdOf k).keycode = AM_KEY_NONE ↔ s.tested = 0
  | _ => True

/-- The invariant: the lock keeps the threads apart, and the queue holds the outstanding
events. -/
structure Flow (s : Keyboard) : Prop where
  eventLock : s.eventThread.holds → s.keyQueueLock = some .event
  keybrdLock : s.keybrd.holds → s.keyQueueLock = some .keybrd
  queue : RingQueue KEY_QUEUE_LEN s.keyQueue s.keyF s.keyR (s.queued.map amCode)
  room : s.queued.length < KEY_QUEUE_LEN
  taken : s.taken ≤ s.produced.length
  mapped : ∀ e ∈ s.produced ++ s.eventThread.pending, Mapped e
  stored : ∀ e, s.eventThread = .advance e → s.keyQueue s.keyR = amCode e
  looked : s.Looked
  order : s.delivered ++ s.keybrd.inHand = s.produced.take s.taken
  empty : ∀ r ∈ s.readings, r.kbd.keycode = AM_KEY_NONE ↔ r.outstanding = 0

private theorem outstanding_eq (s : Keyboard) : s.outstanding = s.queued.length :=
  List.length_drop.symm

variable {sdl : Scancodes} {s s' : Keyboard} {e : AmInputKeybrd} {k : Word}

/-- One thread at most is between its lock and its unlock. -/
theorem Flow.apart (h : Flow s) (hEvent : s.eventThread.holds) : s.keybrd.holds = false := by
  by_contra hHolds
  have hLock := h.keybrdLock (Bool.not_eq_false _ ▸ hHolds)
  rw [h.eventLock hEvent] at hLock
  cases hLock

theorem Flow.event (h : Flow s) (keydown : Bool) (scancode : Fin 256)
    (hNext : s.event sdl keydown scancode = some s') : Flow s' := by
  unfold Keyboard.event at hNext
  cases hPc : s.eventThread with
  | wait =>
      rw [hPc] at hNext
      by_cases hMap : keymap sdl scancode ≠ 0
      · cases (if_pos hMap).symm.trans hNext
        refine { h with eventLock := nofun, stored := nofun, mapped := ?_ }
        intro e he
        rcases List.mem_append.mp he with hOld | hNew
        · exact h.mapped e (List.mem_append_left _ hOld)
        · cases List.mem_singleton.mp hNew
          exact keymap_mapped keydown hMap
      · cases (if_neg hMap).symm.trans hNext
        exact h
  | _ =>
      rw [hPc] at hNext
      cases hNext

theorem Flow.lock (h : Flow s) (hPc : s.eventThread = .lock e) (hFree : s.keyQueueLock = none) :
    Flow { s with keyQueueLock := some .event, eventThread := .store e } := by
  refine { h with eventLock := fun _ => rfl, keybrdLock := ?_, stored := nofun, mapped := ?_ }
  · intro hHolds
    cases hFree.symm.trans (h.keybrdLock hHolds)
  · have hMapped := h.mapped
    rw [hPc] at hMapped
    exact hMapped

theorem Flow.store (h : Flow s) (hPc : s.eventThread = .store e) :
    Flow
      { s with
        keyQueue := Function.update s.keyQueue s.keyR (amCode e)
        eventThread := .advance e } := by
  have hRoom : (s.queued.map amCode).length < KEY_QUEUE_LEN := by
    rw [List.length_map]
    exact h.room
  refine
    { h with
      eventLock := fun _ => h.eventLock (by rw [hPc]; rfl)
      queue := h.queue.store hRoom (amCode e)
      mapped := ?_
      stored := ?_ }
  · have hMapped := h.mapped
    rw [hPc] at hMapped
    exact hMapped
  · intro e' he'
    cases he'
    exact Function.update_self _ _ _

/-- The reader is not between its lock and its unlock. -/
theorem Flow.produce (h : Flow s) (hPc : s.eventThread = .advance e)
    (hRoom : s.queued.length + 1 < KEY_QUEUE_LEN) :
    Flow
      { s with
        keyR := (s.keyR + 1) % KEY_QUEUE_LEN
        eventThread := .unlock
        produced := s.produced ++ [e] } := by
  have hHolds : s.eventThread.holds := by
    rw [hPc]
    rfl
  have hApart := h.apart hHolds
  have hQueued : (s.produced ++ [e]).drop s.taken = s.queued ++ [e] :=
    List.drop_append_of_le_length h.taken
  refine
    { h with
      eventLock := fun _ => h.eventLock hHolds
      queue := ?_
      room := ?_
      taken := ?_
      mapped := ?_
      stored := nofun
      looked := ?_
      order := ?_ }
  · show RingQueue KEY_QUEUE_LEN s.keyQueue s.keyF _ (((s.produced ++ [e]).drop s.taken).map amCode)
    rw [hQueued, List.map_append]
    exact h.queue.push (h.stored e hPc)
  · show ((s.produced ++ [e]).drop s.taken).length < KEY_QUEUE_LEN
    rw [hQueued, List.length_append]
    exact hRoom
  · show s.taken ≤ (s.produced ++ [e]).length
    rw [List.length_append]
    exact Nat.le_add_right_of_le h.taken
  · have hMapped := h.mapped
    rw [hPc] at hMapped
    show ∀ e' ∈ s.produced ++ [e] ++ [], Mapped e'
    rwa [List.append_nil]
  · have hLooked := h.looked
    unfold Keyboard.Looked at hLooked ⊢
    cases hKeybrd : s.keybrd with
    | take => rw [hKeybrd] at hApart; cases hApart
    | advance k => rw [hKeybrd] at hApart; cases hApart
    | unlock k => rw [hKeybrd] at hApart; cases hApart
    | fill k => rwa [hKeybrd] at hLooked
    | _ => trivial
  · show s.delivered ++ s.keybrd.inHand = (s.produced ++ [e]).take s.taken
    rw [List.take_append_of_le_length h.taken]
    exact h.order

theorem Flow.unlock (h : Flow s) (hPc : s.eventThread = .unlock) :
    Flow { s with keyQueueLock := none, eventThread := .wait } := by
  have hApart : s.keybrd.holds = false := h.apart (by rw [hPc]; rfl)
  refine { h with eventLock := nofun, keybrdLock := ?_, stored := nofun, mapped := ?_ }
  · intro hHolds
    cases hApart.symm.trans hHolds
  · have hMapped := h.mapped
    rw [hPc] at hMapped
    exact hMapped

theorem Flow.eventThread {n : Nat} (hLt : n < KEY_QUEUE_LEN) (h : Flow s)
    (hCond : s.eventThread.advancing → s.outstanding < n)
    (hNext : s.eventThreadNext = some s') : Flow s' := by
  unfold Keyboard.eventThreadNext at hNext
  cases hPc : s.eventThread with
  | wait => rw [hPc] at hNext; cases hNext
  | lock e =>
      rw [hPc] at hNext
      obtain ⟨hFree, hEq⟩ := Option.ite_none_right_eq_some.mp hNext
      cases hEq
      exact h.lock hPc hFree
  | store e =>
      rw [hPc] at hNext
      cases hNext
      exact h.store hPc
  | advance e =>
      rw [hPc] at hNext
      cases hNext
      have hOut : s.outstanding < n := hCond (by rw [hPc]; rfl)
      rw [outstanding_eq] at hOut
      exact h.produce hPc (by omega)
  | unlock =>
      rw [hPc] at hNext
      cases hNext
      exact h.unlock hPc

theorem Flow.read (h : Flow s) (hNext : s.read = some s') : Flow s' := by
  unfold Keyboard.read at hNext
  cases hPc : s.keybrd with
  | idle =>
      rw [hPc] at hNext
      cases hNext
      have hOrder := h.order
      rw [hPc] at hOrder
      exact { h with keybrdLock := nofun, looked := trivial, order := hOrder }
  | _ =>
      rw [hPc] at hNext
      cases hNext

theorem Flow.keybrdLocked (h : Flow s) (hPc : s.keybrd = .lock) (hFree : s.keyQueueLock = none) :
    Flow { s with keyQueueLock := some .keybrd, keybrd := .test } := by
  have hOrder := h.order
  rw [hPc] at hOrder
  refine
    { h with eventLock := ?_, keybrdLock := fun _ => rfl, looked := trivial, order := hOrder }
  intro hHolds
  cases hFree.symm.trans (h.eventLock hHolds)

/-- The positions differ exactly when an event is outstanding. -/
theorem Flow.test (h : Flow s) (hPc : s.keybrd = .test) :
    Flow
      { s with
        keybrd := if s.keyF ≠ s.keyR then .take else .unlock AM_KEY_NONE
        tested := s.outstanding } := by
  have hLock := h.keybrdLock (by rw [hPc]; rfl)
  have hOrder := h.order
  rw [hPc] at hOrder
  have hRoom : (s.queued.map amCode).length < KEY_QUEUE_LEN := by
    rw [List.length_map]
    exact h.room
  have hEmpty : s.keyF = s.keyR ↔ s.queued = [] :=
    (h.queue.empty_iff hRoom).trans List.map_eq_nil_iff
  by_cases hEq : s.keyF = s.keyR
  · rw [if_neg (not_not_intro hEq)]
    refine { h with keybrdLock := fun _ => hLock, looked := ?_, order := hOrder }
    have hNone : s.outstanding = 0 := by
      rw [outstanding_eq, hEmpty.mp hEq]
      rfl
    exact ⟨fun _ => hNone, fun _ => rfl⟩
  · rw [if_pos hEq]
    exact
      { h with
        keybrdLock := fun _ => hLock
        looked := ⟨rfl, mt hEmpty.mpr hEq⟩
        order := hOrder }

theorem Flow.take (h : Flow s) (hPc : s.keybrd = .take) :
    Flow { s with keybrd := .advance (s.keyQueue s.keyF) } := by
  have hLock := h.keybrdLock (by rw [hPc]; rfl)
  have hOrder := h.order
  have hLooked := h.looked
  unfold Keyboard.Looked at hLooked
  rw [hPc] at hOrder hLooked
  obtain ⟨hTested, hNe⟩ := hLooked
  obtain ⟨e, rest, hQueued⟩ := List.exists_cons_of_ne_nil hNe
  have hQueue := h.queue
  rw [hQueued, List.map_cons] at hQueue
  have hMapped : Mapped e := by
    apply h.mapped
    apply List.mem_append_left
    apply List.mem_of_mem_drop (i := s.taken)
    show e ∈ s.queued
    rw [hQueued]
    exact List.mem_cons_self
  refine { h with keybrdLock := fun _ => hLock, looked := ⟨hTested, ?_⟩, order := hOrder }
  show s.queued.head? = some (kbdOf (s.keyQueue s.keyF))
  rw [hQueue.head, kbdOf_amCode hMapped, hQueued]
  rfl

theorem Flow.advance (h : Flow s) (hPc : s.keybrd = .advance k) :
    Flow
      { s with
        keyF := (s.keyF + 1) % KEY_QUEUE_LEN
        keybrd := .unlock k
        taken := s.taken + 1 } := by
  have hLock := h.keybrdLock (by rw [hPc]; rfl)
  have hOrder := h.order
  have hLooked := h.looked
  unfold Keyboard.Looked at hLooked
  rw [hPc] at hOrder hLooked
  obtain ⟨hTested, hHead⟩ := hLooked
  obtain ⟨rest, hQueued⟩ : ∃ rest, s.queued = kbdOf k :: rest := List.head?_eq_some_iff.mp hHead
  have hRest : s.produced.drop (s.taken + 1) = rest := by
    rw [← List.tail_drop]
    show s.queued.tail = rest
    rw [hQueued, List.tail_cons]
  have hGet : s.produced[s.taken]? = some (kbdOf k) := by
    rw [← List.head?_drop]
    exact hHead
  have hTaken : s.taken < s.produced.length := (List.getElem?_eq_some_iff.mp hGet).1
  have hNe : (kbdOf k).keycode ≠ AM_KEY_NONE :=
    (h.mapped _ (List.mem_append_left _ (List.mem_of_getElem? hGet))).1
  have hQueue := h.queue
  have hRoom := h.room
  rw [hQueued] at hQueue hRoom
  refine
    { h with
      keybrdLock := fun _ => hLock
      queue := ?_
      room := ?_
      taken := hTaken
      looked := ?_
      order := ?_ }
  · show RingQueue KEY_QUEUE_LEN s.keyQueue _ s.keyR ((s.produced.drop (s.taken + 1)).map amCode)
    rw [hRest]
    exact hQueue.pop
  · show (s.produced.drop (s.taken + 1)).length < KEY_QUEUE_LEN
    rw [hRest]
    exact Nat.lt_of_succ_lt hRoom
  · show (kbdOf k).keycode = AM_KEY_NONE ↔ s.tested = 0
    rw [hTested, outstanding_eq, hQueued, List.length_cons]
    exact ⟨fun hNone => absurd hNone hNe, fun hZero => absurd hZero (Nat.succ_ne_zero _)⟩
  · show s.delivered ++ [kbdOf k].filter AmInputKeybrd.isKey = s.produced.take (s.taken + 1)
    have hOld : s.delivered = s.produced.take s.taken := by
      rw [← hOrder]
      exact (List.append_nil _).symm
    have hKey : (kbdOf k).isKey = true := decide_eq_true hNe
    rw [List.take_add_one, hGet, hOld, List.filter_cons_of_pos hKey]
    rfl

theorem Flow.keybrdUnlock (h : Flow s) (hPc : s.keybrd = .unlock k) :
    Flow { s with keyQueueLock := none, keybrd := .fill k } := by
  have hOrder := h.order
  have hLooked := h.looked
  unfold Keyboard.Looked at hLooked
  have hLock := h.keybrdLock (by rw [hPc]; rfl)
  rw [hPc] at hOrder hLooked
  refine { h with eventLock := ?_, keybrdLock := nofun, looked := hLooked, order := hOrder }
  intro hHolds
  cases hLock.symm.trans (h.eventLock hHolds)

theorem Flow.fill (h : Flow s) (hPc : s.keybrd = .fill k) :
    Flow { s with keybrd := .idle, readings := s.readings ++ [⟨kbdOf k, s.tested⟩] } := by
  have hOrder := h.order
  have hLooked := h.looked
  unfold Keyboard.Looked at hLooked
  rw [hPc] at hOrder hLooked
  refine { h with keybrdLock := nofun, looked := trivial, order := ?_, empty := ?_ }
  · show ((s.readings ++ [Reading.mk (kbdOf k) s.tested]).map Reading.kbd).filter
      AmInputKeybrd.isKey ++ [] = s.produced.take s.taken
    rw [List.map_append, List.filter_append, List.append_nil]
    exact hOrder
  · intro r hr
    rcases List.mem_append.mp hr with hOld | hNew
    · exact h.empty r hOld
    · cases List.mem_singleton.mp hNew
      exact hLooked

theorem Flow.keybrd (h : Flow s) (hNext : s.keybrdNext = some s') : Flow s' := by
  unfold Keyboard.keybrdNext at hNext
  cases hPc : s.keybrd with
  | idle => rw [hPc] at hNext; cases hNext
  | lock =>
      rw [hPc] at hNext
      obtain ⟨hFree, hEq⟩ := Option.ite_none_right_eq_some.mp hNext
      cases hEq
      exact h.keybrdLocked hPc hFree
  | test =>
      rw [hPc] at hNext
      cases hNext
      exact h.test hPc
  | take =>
      rw [hPc] at hNext
      cases hNext
      exact h.take hPc
  | advance k =>
      rw [hPc] at hNext
      cases hNext
      exact h.advance hPc
  | unlock k =>
      rw [hPc] at hNext
      cases hNext
      exact h.keybrdUnlock hPc
  | fill k =>
      rw [hPc] at hNext
      cases hNext
      exact h.fill hPc

/-! ## Runs -/

theorem Flow.start : Flow start where
  eventLock := nofun
  keybrdLock := nofun
  queue := RingQueue.new (by decide) _
  room := by decide
  taken := Nat.le_refl 0
  mapped := nofun
  stored := nofun
  looked := trivial
  order := rfl
  empty := nofun

theorem Flow.delivers (h : Flow s) : Delivers s where
  inOrder := by
    refine ⟨s.keybrd.inHand ++ s.queued, ?_⟩
    rw [← List.append_assoc, h.order]
    exact List.take_append_drop s.taken s.produced
  all hIdle := by
    have hOrder := h.order
    rw [hIdle] at hOrder
    exact ⟨(List.append_nil _).symm.trans hOrder, h.taken⟩
  empty := h.empty

/-- The ring has one place less than its length. -/
theorem delivers_of_lt {n : Nat} (hLt : n < KEY_QUEUE_LEN)
    (hReach : ((keyboard sdl).restrict (AtMost n)).Reachable s) : Delivers s := by
  have hFlow : Flow s := by
    apply hReach.inv
    · intro s hInit
      cases hInit
      exact Flow.start
    · intro s a s' hInv hNext
      obtain ⟨hCond, hNext⟩ := System.restrict_next.mp hNext
      cases a with
      | event keydown scancode => exact hInv.event keydown scancode hNext
      | eventThread =>
          exact hInv.eventThread hLt (fun hAdvancing => hCond ⟨rfl, hAdvancing⟩) hNext
      | read => exact hInv.read hNext
      | keybrd => exact hInv.keybrd hNext
  exact hFlow.delivers

/-- Nobody is doing anything, `m` events are in the queue and nothing has been read. -/
structure Filled (m : Nat) (s : Keyboard) : Prop where
  keyF : s.keyF = 0
  keyR : s.keyR = m % KEY_QUEUE_LEN
  lock : s.keyQueueLock = none
  eventThread : s.eventThread = .wait
  keybrd : s.keybrd = .idle
  produced : s.produced.length = m
  taken : s.taken = 0

theorem Filled.press (sdl : Scancodes) {m n : Nat} (h : Filled m s) (hLt : m < n) :
    ∃ s', ((keyboard sdl).restrict (AtMost n)).Run s s' ∧ Filled (m + 1) s' := by
  obtain ⟨keyQueue, keyF, keyR, lock, eventThread, keybrd, produced, taken, tested, readings⟩ := s
  obtain ⟨rfl, rfl, rfl, rfl, rfl, hLength, rfl⟩ := h
  have hLength : produced.length = m := hLength
  let S := (keyboard sdl).restrict (AtMost n)
  let e : AmInputKeybrd := ⟨true, keymap sdl (sdl .ESCAPE)⟩
  let keyR := m % KEY_QUEUE_LEN
  let cells := Function.update keyQueue keyR (amCode e)
  have hEvent : S.next ⟨keyQueue, 0, keyR, none, .wait, .idle, produced, 0, tested, readings⟩
      (.event true (sdl .ESCAPE)) =
        some ⟨keyQueue, 0, keyR, none, .lock e, .idle, produced, 0, tested, readings⟩ :=
    System.restrict_next.mpr ⟨nofun, if_pos (keymap_ne sdl .ESCAPE List.mem_cons_self)⟩
  have hLock : S.next ⟨keyQueue, 0, keyR, none, .lock e, .idle, produced, 0, tested, readings⟩
      .eventThread =
        some ⟨keyQueue, 0, keyR, some .event, .store e, .idle, produced, 0, tested, readings⟩ :=
    System.restrict_next.mpr ⟨nofun, rfl⟩
  have hStore : S.next
      ⟨keyQueue, 0, keyR, some .event, .store e, .idle, produced, 0, tested, readings⟩
      .eventThread =
        some ⟨cells, 0, keyR, some .event, .advance e, .idle, produced, 0, tested, readings⟩ :=
    System.restrict_next.mpr ⟨nofun, rfl⟩
  have hProduce : S.next
      ⟨cells, 0, keyR, some .event, .advance e, .idle, produced, 0, tested, readings⟩
      .eventThread =
        some
          ⟨cells, 0, (keyR + 1) % KEY_QUEUE_LEN, some .event, .unlock, .idle, produced ++ [e], 0,
            tested, readings⟩ :=
    System.restrict_next.mpr ⟨fun _ => Nat.lt_of_le_of_lt (Nat.le_of_eq hLength) hLt, rfl⟩
  have hUnlock : S.next
      ⟨cells, 0, (keyR + 1) % KEY_QUEUE_LEN, some .event, .unlock, .idle, produced ++ [e], 0,
        tested, readings⟩ .eventThread =
        some
          ⟨cells, 0, (keyR + 1) % KEY_QUEUE_LEN, none, .wait, .idle, produced ++ [e], 0, tested,
            readings⟩ :=
    System.restrict_next.mpr ⟨nofun, rfl⟩
  refine ⟨_, .step _ (.step _ (.step _ (.step _ (.step _ (.refl _) hEvent) hLock) hStore)
    hProduce) hUnlock, ?_⟩
  exact
    { keyF := rfl
      keyR := Nat.mod_add_mod m KEY_QUEUE_LEN 1
      lock := rfl
      eventThread := rfl
      keybrd := rfl
      produced := List.length_append.trans (congrArg (· + 1) hLength)
      taken := rfl }

theorem filled (sdl : Scancodes) {n : Nat} :
    ∀ m, m ≤ n → ∃ s, ((keyboard sdl).restrict (AtMost n)).Reachable s ∧ Filled m s := by
  intro m
  induction m with
  | zero =>
      intro _
      exact ⟨start, ⟨start, rfl, .refl _⟩, ⟨rfl, rfl, rfl, rfl, rfl, rfl, rfl⟩⟩
  | succ m ih =>
      intro hLe
      obtain ⟨s, ⟨s₀, hInit, hRun⟩, hFilled⟩ := ih (by omega)
      obtain ⟨s', hPress, hFilled'⟩ := hFilled.press sdl (show m < n by omega)
      exact ⟨s', ⟨s₀, hInit, hRun.trans hPress⟩, hFilled'⟩

/-- A read of a full ring finds it empty. -/
theorem Filled.lost (sdl : Scancodes) (n : Nat) (h : Filled KEY_QUEUE_LEN s) :
    ∃ s', ((keyboard sdl).restrict (AtMost n)).Run s s' ∧ ¬ Delivers s' := by
  obtain ⟨keyQueue, keyF, keyR, lock, eventThread, keybrd, produced, taken, tested, readings⟩ := s
  obtain ⟨rfl, rfl, rfl, rfl, rfl, hLength, rfl⟩ := h
  let as : List Step := [.read, .keybrd, .keybrd, .keybrd, .keybrd]
  refine ⟨_, System.steps_run as _ rfl, ?_⟩
  intro hDelivers
  have hNone := (hDelivers.empty _ (List.mem_append_right _ (List.mem_singleton.mpr rfl))).mp rfl
  have hZero : produced.length - 0 = 0 := hNone
  have hFull : produced.length = KEY_QUEUE_LEN := hLength
  rw [hFull] at hZero
  exact absurd hZero (by decide)

/--
**The keyboard queue.** The reads return the events in order, and nothing exactly
when nothing is outstanding, in every run in which fewer than `KEY_QUEUE_LEN`
events are outstanding; the bound cannot be raised.
-/
theorem keyboard_delivers_iff (sdl : Scancodes) (n : Nat) :
    (∀ s, ((keyboard sdl).restrict (AtMost n)).Reachable s → Delivers s) ↔ n < KEY_QUEUE_LEN := by
  constructor
  · intro hAll
    by_contra hGe
    obtain ⟨s, ⟨s₀, hInit, hRun⟩, hFilled⟩ :=
      filled sdl KEY_QUEUE_LEN (Nat.le_of_not_lt hGe)
    obtain ⟨s', hRead, hLost⟩ := hFilled.lost sdl n
    exact hLost (hAll s' ⟨s₀, hInit, hRun.trans hRead⟩)
  · intro hLt s hReach
    exact delivers_of_lt hLt hReach

/-- Scancodes of the keys in the order of the table. -/
def tableOrder : Scancodes := fun k => Fin.ofNat 256 (AM_KEYS.idxOf k)

/-- `KEY_QUEUE_LEN` events are one too many. -/
theorem keyboard_full_lost :
    ¬ ∀ s, ((keyboard tableOrder).restrict (AtMost KEY_QUEUE_LEN)).Reachable s → Delivers s := by
  intro hAll
  obtain ⟨s, ⟨s₀, hInit, hRun⟩, hFilled⟩ :=
    filled tableOrder KEY_QUEUE_LEN (Nat.le_refl _)
  obtain ⟨s', hRead, hLost⟩ := hFilled.lost tableOrder KEY_QUEUE_LEN
  exact hLost (hAll s' ⟨s₀, hInit, hRun.trans hRead⟩)

end AbstractMachine.Native.Input
