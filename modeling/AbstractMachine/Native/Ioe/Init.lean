import Mathlib.Data.List.Basic
import AbstractMachine.Lib.Transition

/-!
# Initialisation of the devices of native

`ioe_init` only notes that the program uses the devices.  The initialisers run
in `__am_ioe_init`, which the first access to a register calls, and `mpe_init`
when `ioe_init` has been called.  Two flags guard this: `do_io` looks at
`ioe_init_done` and `mpe_init` at `__am_has_ioe`.

The calls are those of the boot CPU; what `entry` calls follows the call of
`mpe_init` that it is in.
-/

namespace AbstractMachine.Native.IoeInit

open AbstractMachine.Lib

/-! ## Registers and handlers -/

/-- A register number; the table has 128 entries. -/
abbrev Reg := Fin 128

/-- Is there a serial port? -/
def AM_UART_CONFIG : Reg := 1

/-- A byte to the serial port. -/
def AM_UART_TX : Reg := 2

/-- A byte from the serial port. -/
def AM_UART_RX : Reg := 3

/-- Is there a timer, and a clock? -/
def AM_TIMER_CONFIG : Reg := 4

/-- The date and the time. -/
def AM_TIMER_RTC : Reg := 5

/-- Microseconds since the start. -/
def AM_TIMER_UPTIME : Reg := 6

/-- Is there a keyboard? -/
def AM_INPUT_CONFIG : Reg := 7

/-- The next key event. -/
def AM_INPUT_KEYBRD : Reg := 8

/-- Is there a screen, and how large is it? -/
def AM_GPU_CONFIG : Reg := 9

/-- Is the screen ready? -/
def AM_GPU_STATUS : Reg := 10

/-- A block of pixels to the screen. -/
def AM_GPU_FBDRAW : Reg := 11

/-- Is there a sound device, and how large is its buffer? -/
def AM_AUDIO_CONFIG : Reg := 14

/-- Frequency, channels and samples. -/
def AM_AUDIO_CTRL : Reg := 15

/-- How many bytes are buffered? -/
def AM_AUDIO_STATUS : Reg := 16

/-- Samples to the sound device. -/
def AM_AUDIO_PLAY : Reg := 17

/-- Is there a disk, and how large is it? -/
def AM_DISK_CONFIG : Reg := 18

/-- Is the disk ready? -/
def AM_DISK_STATUS : Reg := 19

/-- A transfer of blocks. -/
def AM_DISK_BLKIO : Reg := 20

/-- Is there a network? -/
def AM_NET_CONFIG : Reg := 21

/-- The functions that `lut` names, and `fail`. -/
inductive Handler where
  | timerConfig | timerRtc | timerUptime
  | inputConfig | inputKeybrd
  | gpuConfig | gpuFbdraw | gpuStatus
  | uartConfig | uartTx | uartRx
  | audioConfig | audioCtrl | audioStatus | audioPlay
  | diskConfig | diskStatus | diskBlkio
  | netConfig
  | fail
  deriving DecidableEq, Repr

/-- The initial table; `none` is a null pointer. -/
def lut (reg : Reg) : Option Handler :=
  [(AM_TIMER_CONFIG, Handler.timerConfig), (AM_TIMER_RTC, .timerRtc),
    (AM_TIMER_UPTIME, .timerUptime), (AM_INPUT_CONFIG, .inputConfig),
    (AM_INPUT_KEYBRD, .inputKeybrd), (AM_GPU_CONFIG, .gpuConfig), (AM_GPU_FBDRAW, .gpuFbdraw),
    (AM_GPU_STATUS, .gpuStatus), (AM_UART_CONFIG, .uartConfig), (AM_UART_TX, .uartTx),
    (AM_UART_RX, .uartRx), (AM_AUDIO_CONFIG, .audioConfig), (AM_AUDIO_CTRL, .audioCtrl),
    (AM_AUDIO_STATUS, .audioStatus), (AM_AUDIO_PLAY, .audioPlay), (AM_DISK_CONFIG, .diskConfig),
    (AM_DISK_STATUS, .diskStatus), ( AM_DISK_BLKIO, .diskBlkio),
    (AM_NET_CONFIG, .netConfig)].lookup reg

/-! ## Calls -/

/-- The devices that `__am_ioe_init` initialises. -/
inductive Device where
  | timer | gpu | input | uart | audio | disk
  deriving DecidableEq, Repr

/-- What happens to the devices. -/
inductive Event where
  | init (d : Device)
  | handler (h : Handler)
  deriving DecidableEq, Repr

/-- The flags and the table of `ioe.c`, with all that has happened as a ghost. -/
structure Ioe where
  hasIoe : Bool
  ioeInitDone : Bool
  lut : Reg → Option Handler
  /-- All that has happened, in order. -/
  log : List Event

/-- The calls of `__am_ioe_init`, in its order. -/
def initialisers : List Event :=
  [.init .timer, .init .gpu, .init .input, .init .uart, .init .audio, .init .disk]

/-- `__am_ioe_init`. -/
def Ioe.amIoeInit (s : Ioe) : Ioe :=
  { s with
    lut := fun reg => some ((s.lut reg).getD .fail)
    ioeInitDone := true
    log := s.log ++ initialisers }

/-- `fail` panics; there is no handler at a null pointer. -/
def Ioe.handle (s : Ioe) (reg : Reg) : Option Ioe :=
  match s.lut reg with
  | none => none
  | some .fail => none
  | some h => some { s with log := s.log ++ [.handler h] }

/-- `do_io`: the devices are initialised at the first access. -/
def Ioe.doIo (s : Ioe) (reg : Reg) : Option Ioe :=
  (if s.ioeInitDone then s else s.amIoeInit).handle reg

/-- `ioe_init` only asks for the devices; once they are initialised it panics. -/
def Ioe.ioeInit (s : Ioe) : Option Ioe :=
  if s.ioeInitDone then none else some { s with hasIoe := true }

/-- `mpe_init` on the way to `entry`. -/
def Ioe.mpeInit (s : Ioe) : Ioe := if s.hasIoe then s.amIoeInit else s

/-- The functions of the interface, and the start of the CPUs. -/
inductive Call where
  | ioeInit
  | ioeRead (reg : Reg)
  | ioeWrite (reg : Reg)
  | mpeInit
  deriving DecidableEq, Repr

/-- `none` is a panic. -/
def Ioe.next (s : Ioe) : Call → Option Ioe
  | .ioeInit => s.ioeInit
  | .ioeRead reg => s.doIo reg
  | .ioeWrite reg => s.doIo reg
  | .mpeInit => some s.mpeInit

/-- Before `main`. -/
def start : Ioe where
  hasIoe := false
  ioeInitDone := false
  lut := lut
  log := []

/-- The boot CPU and its calls. -/
def bootCpu : System Ioe Call where
  init s := s = start
  next := Ioe.next

/-- `mpe_init` does not find the devices both asked for and initialised. -/
def Fresh (s : Ioe) (a : Call) : Prop := a = .mpeInit → ¬ (s.hasIoe ∧ s.ioeInitDone)

instance (s : Ioe) (a : Call) : Decidable (Fresh s a) := inferInstanceAs (Decidable (_ → _))

/-- No initialiser runs twice. -/
def Once (log : List Event) : Prop := ∀ d, log.count (.init d) ≤ 1

/-- Every initialiser has run before a handler. -/
def InitFirst (log : List Event) : Prop :=
  ∀ (i : Nat) h, log[i]? = some (.handler h) → ∀ d, .init d ∈ log.take i

/-! ## One call -/

/-- What the flags say about the devices. -/
structure Inv (s : Ioe) : Prop where
  before : s.ioeInitDone = false → s.log = []
  after : s.ioeInitDone = true → ∀ d, .init d ∈ s.log
  initFirst : InitFirst s.log

variable {s s' t : Ioe} {a : Call} {log : List Event} {d : Device}

private theorem count_initialisers (d : Device) : initialisers.count (.init d) = 1 := by
  cases d <;> rfl

private theorem mem_initialisers (d : Device) : .init d ∈ initialisers := by
  cases d <;> decide

theorem InitFirst.append (h : InitFirst log) {es : List Event}
    (hNew : ∀ (i : Nat) h, es[i]? = some (.handler h) → ∀ d, .init d ∈ log) :
    InitFirst (log ++ es) := by
  intro i h' hGet d
  by_cases hLt : i < log.length
  · rw [List.getElem?_append_left hLt] at hGet
    rw [List.take_append_of_le_length (Nat.le_of_lt hLt)]
    exact h i h' hGet d
  · have hGe : log.length ≤ i := Nat.le_of_not_lt hLt
    rw [List.getElem?_append_right hGe] at hGet
    rw [List.take_append, List.take_of_length_le hGe]
    exact List.mem_append_left _ (hNew _ h' hGet d)

theorem InitFirst.initialisers (h : InitFirst log) : InitFirst (log ++ initialisers) := by
  apply h.append
  intro i h' hGet
  have hMem := List.mem_of_getElem? hGet
  simp [IoeInit.initialisers] at hMem

theorem Inv.amIoeInit (h : Inv s) : Inv s.amIoeInit where
  before := nofun
  after _ d := List.mem_append_right _ (mem_initialisers d)
  initFirst := h.initFirst.initialisers

private theorem handle_eq {reg : Reg} (hNext : s.handle reg = some s') :
    ∃ h, s' = { s with log := s.log ++ [Event.handler h] } := by
  unfold Ioe.handle at hNext
  split at hNext
  · cases hNext
  · cases hNext
  · rename_i h _ _
    cases hNext
    exact ⟨h, rfl⟩

theorem Inv.handle {reg : Reg} (h : Inv s) (hDone : s.ioeInitDone = true)
    (hNext : s.handle reg = some s') : Inv s' := by
  obtain ⟨handler, rfl⟩ := handle_eq hNext
  constructor
  · intro hNot
    cases hDone.symm.trans hNot
  · intro _ d
    exact List.mem_append_left _ (h.after hDone d)
  · apply h.initFirst.append
    intro _ _ _
    exact h.after hDone

theorem Inv.doIo {reg : Reg} (h : Inv s) (hNext : s.doIo reg = some s') : Inv s' := by
  unfold Ioe.doIo at hNext
  cases hDone : s.ioeInitDone with
  | true =>
      rw [hDone, if_pos rfl] at hNext
      exact h.handle hDone hNext
  | false =>
      rw [hDone, if_neg Bool.false_ne_true] at hNext
      exact h.amIoeInit.handle rfl hNext

theorem Inv.next (h : Inv s) (hNext : s.next a = some s') : Inv s' := by
  cases a with
  | ioeInit =>
      obtain ⟨-, hEq⟩ := Option.ite_none_left_eq_some.mp hNext
      cases hEq
      exact { h with }
  | ioeRead reg => exact h.doIo hNext
  | ioeWrite reg => exact h.doIo hNext
  | mpeInit =>
      cases hNext
      unfold Ioe.mpeInit
      split
      · exact h.amIoeInit
      · exact h

theorem Inv.start : Inv start where
  before _ := rfl
  after := nofun
  initFirst := nofun

/-! ## How often the initialisers run -/

private theorem count_amIoeInit : s.amIoeInit.log.count (.init d) = s.log.count (.init d) + 1 := by
  show (s.log ++ initialisers).count (.init d) = _
  rw [List.count_append, count_initialisers]

private theorem count_doIo {reg : Reg} (hNext : s.doIo reg = some s') :
    s'.log.count (.init d) = s.log.count (.init d) + if s.ioeInitDone then 0 else 1 := by
  obtain ⟨handler, rfl⟩ := handle_eq hNext
  show ((if s.ioeInitDone then s else s.amIoeInit).log ++ [Event.handler handler]).count _ = _
  have hNone : [Event.handler handler].count (.init d) = 0 := rfl
  rw [List.count_append, hNone]
  cases s.ioeInitDone with
  | true => rfl
  | false => exact count_amIoeInit

private theorem once_congr {log' : List Event}
    (h : ∀ d, log'.count (.init d) = log.count (.init d)) :
    Once log' ↔ Once log := by
  unfold Once
  simp only [h]

/-- Nothing has happened before the initialisers run. -/
theorem Inv.once_first (h : Inv s) (hNot : s.ioeInitDone = false)
    (hCount : ∀ d, log.count (.init d) = s.log.count (.init d) + 1) : Once log ∧ Once s.log := by
  unfold Once
  simp only [hCount, h.before hNot]
  exact ⟨fun _ => Nat.le_refl 1, fun _ => Nat.zero_le 1⟩

theorem Inv.once_doIo {reg : Reg} (h : Inv s) (hNext : s.doIo reg = some s') :
    Once s'.log ↔ Once s.log := by
  have hCount := fun d => count_doIo (d := d) hNext
  cases hDone : s.ioeInitDone with
  | true =>
      rw [hDone] at hCount
      exact once_congr hCount
  | false =>
      rw [hDone] at hCount
      obtain ⟨hNew, hOld⟩ := h.once_first hDone hCount
      exact ⟨fun _ => hOld, fun _ => hNew⟩

theorem Inv.once_mpeInit (h : Inv s) :
    Once s.mpeInit.log ↔ Once s.log ∧ ¬ (s.hasIoe ∧ s.ioeInitDone) := by
  unfold Ioe.mpeInit
  cases hHas : s.hasIoe with
  | false => simp
  | true =>
      rw [if_pos rfl]
      cases hDone : s.ioeInitDone with
      | false =>
          obtain ⟨hNew, hOld⟩ := h.once_first hDone fun _ => count_amIoeInit
          exact ⟨fun _ => ⟨hOld, nofun⟩, fun _ => hNew⟩
      | true =>
          constructor
          · intro hOnce
            have hTwice := hOnce .timer
            have hBefore := List.count_pos_iff.mpr (h.after hDone .timer)
            rw [count_amIoeInit] at hTwice
            omega
          · intro hFresh
            exact absurd ⟨rfl, rfl⟩ hFresh.2

theorem Inv.once_next (h : Inv s) (hNext : s.next a = some s') :
    Once s'.log ↔ Once s.log ∧ Fresh s a := by
  cases a with
  | ioeInit =>
      obtain ⟨-, hEq⟩ := Option.ite_none_left_eq_some.mp hNext
      cases hEq
      exact ⟨fun hOnce => ⟨hOnce, nofun⟩, And.left⟩
  | ioeRead reg =>
      rw [h.once_doIo hNext]
      exact ⟨fun hOnce => ⟨hOnce, nofun⟩, And.left⟩
  | ioeWrite reg =>
      rw [h.once_doIo hNext]
      exact ⟨fun hOnce => ⟨hOnce, nofun⟩, And.left⟩
  | mpeInit =>
      cases hNext
      rw [h.once_mpeInit]
      exact and_congr_right fun _ => ⟨fun hNot _ => hNot, fun hFresh => hFresh rfl⟩

/-! ## Sequences of calls -/

theorem Inv.steps (calls : List Call) :
    ∀ s, Inv s → bootCpu.steps s calls = some t →
      Inv t ∧ (Once t.log ↔ Once s.log ∧ (bootCpu.restrict Fresh).steps s calls = some t) := by
  induction calls with
  | nil =>
      intro s hInv hSteps
      cases hSteps
      exact ⟨hInv, (and_iff_left rfl).symm⟩
  | cons a calls ih =>
      intro s hInv hSteps
      obtain ⟨u, hNext, hRest⟩ := Option.bind_eq_some_iff.mp hSteps
      obtain ⟨hEnd, hOnce⟩ := ih u (hInv.next hNext) hRest
      refine ⟨hEnd, hOnce.trans ?_⟩
      rw [hInv.once_next hNext, and_assoc]
      apply and_congr_right
      intro _
      constructor
      · rintro ⟨hFresh, hSame⟩
        exact Option.bind_eq_some_iff.mpr ⟨u, System.restrict_next.mpr ⟨hFresh, hNext⟩, hSame⟩
      · intro hSame
        obtain ⟨u', hNext', hSame'⟩ := Option.bind_eq_some_iff.mp hSame
        obtain ⟨hFresh, hEq⟩ := System.restrict_next.mp hNext'
        cases hNext.symm.trans hEq
        exact ⟨hFresh, hSame'⟩

/--
**Initialisation of the devices.** After any calls that do not panic, the
initialisers have run before every handler; they have run at most once exactly
when no `mpe_init` found the devices asked for and initialised already.
-/
theorem ioe_init_once_iff (calls : List Call) (s : Ioe) (h : bootCpu.steps start calls = some s) :
    (Once s.log ∧ InitFirst s.log) ↔ (bootCpu.restrict Fresh).steps start calls = some s := by
  obtain ⟨hInv, hOnce⟩ := Inv.start.steps calls start h
  rw [and_iff_left hInv.initFirst, hOnce]
  exact and_iff_right fun _ => Nat.zero_le 1

/-- A program that starts the other CPUs before it uses a device. -/
theorem ioe_init_once_iff_mpe_first :
    ∃ s, bootCpu.steps start [.ioeInit, .mpeInit, .ioeRead AM_TIMER_UPTIME] = some s ∧
      ((Once s.log ∧ InitFirst s.log) ↔
        (bootCpu.restrict Fresh).steps start [.ioeInit, .mpeInit, .ioeRead AM_TIMER_UPTIME] =
          some s) :=
  ⟨_, rfl, ioe_init_once_iff _ _ rfl⟩

/-- A program that reads the time first: the initialisers run again. -/
theorem ioe_init_twice :
    ¬ ∀ calls s, bootCpu.steps start calls = some s → Once s.log ∧ InitFirst s.log := by
  intro hAll
  have hTwice : ∃ s, bootCpu.steps start [.ioeInit, .ioeRead AM_TIMER_UPTIME, .mpeInit] = some s ∧
      s.log.count (.init .timer) = 2 := ⟨_, rfl, rfl⟩
  obtain ⟨s, hSteps, hCount⟩ := hTwice
  have hOnce := (hAll _ s hSteps).1 .timer
  rw [hCount] at hOnce
  exact absurd hOnce (by decide)

end AbstractMachine.Native.IoeInit
