import Mathlib.Algebra.Group.Nat.Defs
import Mathlib.Logic.Function.Basic
import AbstractMachine.Lib.Transition

/-!
# The devices of nemu

The drivers of `platform/nemu/ioe` for the screen and for audio, with what
`ioe_init` runs of them.  A driver keeps what it has read from its device in a
static variable, which is 0 until an initialiser sets it.

`int` is a word, compared as a signed number.
-/

namespace AbstractMachine.Nemu

open AbstractMachine.Lib

/-- A word of `io`. -/
abbrev Word := BitVec 32

/-! ## Addresses -/

/-- Where the registers of the devices are. -/
def DEVICE_BASE : Word := 0xa0000000

/-- Where the large buffers are. -/
def MMIO_BASE : Word := 0xa0000000

/-- The timer: two words of microseconds. -/
def RTC_ADDR : Word := DEVICE_BASE + 0x48

/-- The size of the screen. -/
def VGACTL_ADDR : Word := DEVICE_BASE + 0x100

/-- A one asks for a refresh. -/
def SYNC_ADDR : Word := VGACTL_ADDR + 4

/-- The frame buffer. -/
def FB_ADDR : Word := MMIO_BASE + 0x1000000

/-! ## Registers of `amdev.h` -/

/-- `AM_GPU_CONFIG_T`. -/
structure AmGpuConfig where
  present : Bool
  hasAccel : Bool
  width : Word
  height : Word
  vmemsz : Word
  deriving DecidableEq, Repr

/-- `pixels k` is word `k` of the array. -/
structure AmGpuFbdraw where
  x : Word
  y : Word
  pixels : Word → Word
  w : Word
  h : Word
  sync : Bool

/-- `AM_AUDIO_CONFIG_T`. -/
structure AmAudioConfig where
  present : Bool
  bufsize : Word
  deriving DecidableEq, Repr

/-- `buf k` is byte `k` from `buf.start` on, and `len` is `buf.end - buf.start`. -/
structure AmAudioPlay where
  buf : Nat → BitVec 8
  len : Word

/-! ## State -/

/-- What the devices answer, always the same. -/
structure Device where
  /-- The register at `VGACTL_ADDR`. -/
  vgactl : Word
  /-- The register at `AUDIO_SBUF_SIZE_ADDR`. -/
  sbufSize : Word

/-- The static variables of `audio.c`, and its device. -/
structure Audio where
  cfgNow : AmAudioConfig
  lastWrite : Word
  /-- The buffer at `AUDIO_SBUF_ADDR`. -/
  sbuf : Nat → BitVec 8
  /-- The register at `AUDIO_COUNT_ADDR`. -/
  count : Word

/-- The statics of the drivers, and the words of the devices. -/
structure Ioe where
  /-- `cfg_now` of `gpu.c`. -/
  gpu : AmGpuConfig
  audio : Audio
  /-- The words at the other addresses. -/
  io : Word → Word

/-! ## The screen -/

variable (dev : Device)

/-- `__am_gpu_config`: width above, height below, in one word. -/
def amGpuConfig : AmGpuConfig :=
  let w : Word := (dev.vgactl >>> 16).setWidth 16 |>.setWidth 32
  let h : Word := (dev.vgactl &&& 0x0000ffff).setWidth 16 |>.setWidth 32
  { present := true, hasAccel := false, width := w, height := h, vmemsz := w * h }

/-- `__am_gpu_init`, which nothing calls. -/
def amGpuInit (s : Ioe) : Ioe := { s with gpu := amGpuConfig dev }

/-- The variables of the loops of `__am_gpu_fbdraw`. -/
structure Draw where
  pixelIdx : Word
  bufferIdx : Word
  io : Word → Word

/-- The inner loop, for `j` more pixels. -/
def drawRow (pixels : Word → Word) : Nat → Draw → Draw
  | 0, d => d
  | j + 1, d =>
      drawRow pixels j
        { pixelIdx := d.pixelIdx + 1
          bufferIdx := d.bufferIdx + 1
          io := Function.update d.io (FB_ADDR + 4 * d.bufferIdx) (pixels d.pixelIdx) }

/-- The outer loop, for `i` more rows. -/
def drawRows (pixels : Word → Word) (width w : Word) : Nat → Draw → Draw
  | 0, d => d
  | i + 1, d =>
      let d := drawRow pixels w.toInt.toNat d
      drawRows pixels width w i { d with bufferIdx := d.bufferIdx + (width - w) }

/-- `__am_gpu_fbdraw`. -/
def amGpuFbdraw (ctl : AmGpuFbdraw) (s : Ioe) : Ioe :=
  let d :=
    drawRows ctl.pixels s.gpu.width ctl.w ctl.h.toInt.toNat
      { pixelIdx := 0, bufferIdx := ctl.y * s.gpu.width + ctl.x, io := s.io }
  { s with io := if ctl.sync then Function.update d.io SYNC_ADDR 1 else d.io }

/-! ## Audio -/

/-- `__am_audio_config`. -/
def amAudioConfig : AmAudioConfig := { present := true, bufsize := dev.sbufSize }

/-- `__am_audio_init`, which nothing calls. -/
def amAudioInit (s : Ioe) : Ioe :=
  { s with audio := { s.audio with cfgNow := amAudioConfig dev } }

/-- How a call of `__am_audio_play` has ended, if it has. -/
inductive Outcome where
  | waiting
  | divByZero
  | done (a : Audio)

/-- The wait loop: `counts` are the values of the count register, `fuel` bounds
how often it is read. -/
def wait (size len : Word) : Nat → (Nat → Word) → Bool
  | 0, _ => false
  | fuel + 1, counts =>
      if size.slt (counts 0 + len) then wait size len fuel (fun k => counts (k + 1)) else true

/-- The word of `buf` at `i`, put into the buffer of the device at `off`. -/
def outWord (sbuf buf : Nat → BitVec 8) (off i : Nat) : Nat → BitVec 8 := fun o =>
  if off ≤ o ∧ o < off + 4 then buf (i + (o - off)) else sbuf o

/-- The second loop of `__am_audio_play`, for `n` more words from `i` on; none is
a division by zero. -/
def writeWords (size : Word) (buf : Nat → BitVec 8) : Nat → Nat → Audio → Option Audio
  | 0, _, a => some a
  | n + 1, i, a =>
      let sbuf := outWord a.sbuf buf a.lastWrite.toNat i
      if size = 0 then none
      else
        writeWords size buf n (i + 4)
          { a with sbuf := sbuf, lastWrite := (a.lastWrite + 4).srem size }

/-- `count` is what the last read of the count register gives. -/
def amAudioPlay (fuel : Nat) (counts : Nat → Word) (count : Word) (ctl : AmAudioPlay)
    (a : Audio) : Outcome :=
  let size := a.cfgNow.bufsize
  if wait size ctl.len fuel counts then
    match writeWords size ctl.buf ((ctl.len.toInt.toNat + 3) / 4) 0 a with
    | none => .divByZero
    | some a => .done { a with count := count + ctl.len }
  else .waiting

/-! ## Start-up and requests -/

/-- `__am_timer_init`. -/
def amTimerInit (s : Ioe) : Ioe :=
  { s with io := Function.update (Function.update s.io RTC_ADDR 0) (RTC_ADDR + 4) 0 }

/-- `ioe_init`; the table of handlers is constant but for its holes. -/
def ioeInit (s : Ioe) : Ioe := amTimerInit s

/-- A program is loaded: static variables are 0. -/
def loaded (sbuf : Nat → BitVec 8) (count : Word) (io : Word → Word) : Ioe where
  gpu := { present := false, hasAccel := false, width := 0, height := 0, vmemsz := 0 }
  audio :=
    { cfgNow := { present := false, bufsize := 0 }
      lastWrite := 0
      sbuf := sbuf
      count := count }
  io := io

/-- What may happen after `ioe_init`. -/
inductive Request where
  /-- A register that is read gives a value and changes nothing here. -/
  | read
  | gpuFbdraw (ctl : AmGpuFbdraw)
  | audioPlay (fuel : Nat) (counts : Nat → Word) (count : Word) (ctl : AmAudioPlay)
  /-- The audio device has played some of its buffer. -/
  | consume (count : Word)
  /-- Another driver, or another device, writes below the frame buffer. -/
  | other (addr value : Word)

/-- A request, or a write to the memory of a device; `none` where the call does not return. -/
def Ioe.next (s : Ioe) : Request → Option Ioe
  | .read => some s
  | .gpuFbdraw ctl => some (amGpuFbdraw ctl s)
  | .audioPlay fuel counts count ctl =>
      match amAudioPlay fuel counts count ctl s.audio with
      | .done a => some { s with audio := a }
      | _ => none
  | .consume count => some { s with audio := { s.audio with count := count } }
  | .other addr value =>
      if addr < FB_ADDR then some { s with io := Function.update s.io addr value } else none

/-- Programs that begin with `ioe_init`. -/
def programs : System Ioe Request where
  init s := ∃ sbuf count io, s = ioeInit (loaded sbuf count io)
  next := Ioe.next

/-- The count after `k` bytes have been taken. -/
theorem toNat_taken {count : Word} {k : Nat} (hLe : k ≤ count.toNat) :
    (count - BitVec.ofNat 32 k).toNat = count.toNat - k := by
  have hLt := count.isLt
  have hk : (BitVec.ofNat 32 k).toNat = k := by
    rw [BitVec.toNat_ofNat]
    exact Nat.mod_eq_of_lt (Nat.lt_of_le_of_lt hLe hLt)
  have hSub : BitVec.ofNat 32 k ≤ count := by
    rw [BitVec.le_def, hk]
    exact hLe
  rw [BitVec.toNat_sub_of_le hSub, hk]

/-! ## What start-up does not do -/

variable {s : Ioe}

/-- No driver of the screen or of audio has been initialised. -/
structure Unset (s : Ioe) : Prop where
  width : s.gpu.width = 0
  bufsize : s.audio.cfgNow.bufsize = 0

theorem writeWords_cfg {size : Word} {buf : Nat → BitVec 8} {n i : Nat} {a a' : Audio}
    (h : writeWords size buf n i a = some a') : a'.cfgNow = a.cfgNow := by
  induction n generalizing i a with
  | zero =>
      cases h
      rfl
  | succ n ih =>
      rw [writeWords, Option.ite_none_left_eq_some] at h
      exact (ih h.2).trans rfl

private theorem audioPlay_cfg {fuel : Nat} {counts : Nat → Word} {count : Word} {ctl : AmAudioPlay}
    {a a' : Audio} (h : amAudioPlay fuel counts count ctl a = .done a') :
    a'.cfgNow = a.cfgNow := by
  unfold amAudioPlay at h
  dsimp only at h
  split at h
  · cases hWords : writeWords a.cfgNow.bufsize ctl.buf ((ctl.len.toInt.toNat + 3) / 4) 0 a with
    | none =>
        rw [hWords] at h
        cases h
    | some b =>
        have hCfg := writeWords_cfg hWords
        rw [hWords] at h
        cases h
        exact hCfg
  · cases h

theorem Unset.next {s' : Ioe} {r : Request} (h : Unset s) (hNext : s.next r = some s') :
    Unset s' := by
  cases r with
  | read =>
      cases hNext
      exact h
  | gpuFbdraw ctl =>
      cases hNext
      exact ⟨h.width, h.bufsize⟩
  | audioPlay fuel counts count ctl =>
      unfold Ioe.next at hNext
      dsimp only at hNext
      cases hPlay : amAudioPlay fuel counts count ctl s.audio with
      | waiting =>
          rw [hPlay] at hNext
          cases hNext
      | divByZero =>
          rw [hPlay] at hNext
          cases hNext
      | done a =>
          rw [hPlay] at hNext
          cases hNext
          refine ⟨h.width, ?_⟩
          show a.cfgNow.bufsize = 0
          rw [audioPlay_cfg hPlay]
          exact h.bufsize
  | consume count =>
      cases hNext
      exact ⟨h.width, h.bufsize⟩
  | other addr value =>
      obtain ⟨-, hEq⟩ := Option.ite_none_right_eq_some.mp hNext
      cases hEq
      exact ⟨h.width, h.bufsize⟩

/-- `ioe_init` calls neither `__am_gpu_init` nor `__am_audio_init`, and nothing
else does. -/
theorem unset_reachable (h : programs.Reachable s) : Unset s := by
  apply h.inv
  · rintro _ ⟨sbuf, count, io, rfl⟩
    exact ⟨rfl, rfl⟩
  · intro s r s' hInv hNext
    exact hInv.next hNext

end AbstractMachine.Nemu
