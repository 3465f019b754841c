import AbstractMachine.Lib.Section
import Mathlib.Data.BitVec

/-!
# The host interface of `htif.c`

Harts and host exchange messages in two words of memory: a hart puts a command into
`tohost` when it is 0, and the host puts an answer into `fromhost` when it is 0.
Answers that are not awaited are handled on the way.  Accesses to memory are single
steps; the host is assumed to

* take a command, set `tohost` to 0 and carry it out, in this order;
* answer a read with a character, each read once;
* answer a system call, with any payload;
* acknowledge output or not, as it likes.

This is the interface on RV64.
-/

namespace AbstractMachine.Riscv.Spike

open AbstractMachine.Lib

/-- A register of the host interface. -/
abbrev Word64 := BitVec 64

/-! ## Messages of `htif.h` -/

/-- `TOHOST_CMD`. -/
def tohostCmd (dev cmd payload : Word64) : Word64 := (dev <<< 56) ||| (cmd <<< 48) ||| payload

/-- `FROMHOST_DEV`. -/
def fromhostDev (m : Word64) : Word64 := m >>> 56

/-- `FROMHOST_CMD`. -/
def fromhostCmd (m : Word64) : Word64 := (m <<< 8) >>> 56

/-- `FROMHOST_DATA`. -/
def fromhostData (m : Word64) : Word64 := (m <<< 16) >>> 16

/-! ## Memory and host -/

/-- Both registers, the statics of `htif.c`, and the host's side. -/
structure Device where
  tohost : Word64
  fromhost : Word64
  /-- 1 and a character, 0 at the start, or -1 after a read has been asked for. -/
  htif_console_buf : Int
  /-- Reads and system calls that the host has not answered. -/
  reads : Nat
  calls : Nat
  /-- Answers that wait for `fromhost`. -/
  queue : List Word64
  /-- What the host has read from the terminal, and written to it. -/
  typed : List (BitVec 8)
  shown : List (BitVec 8)

/-- The image as it is loaded. -/
def Device.initial : Device where
  tohost := 0
  fromhost := 0
  htif_console_buf := 0
  reads := 0
  calls := 0
  queue := []
  typed := []
  shown := []

/-- The state before the first call. -/
def Initial (s : Device) : Prop := s = Device.initial

/-- The host takes a message, a key is typed, or a system call ends. -/
inductive HostStep where
  | take (ack : Bool)
  | type (data : BitVec 48)
  | done (data : BitVec 48)
  | send

/-- A message that carries a character has it in its low byte. -/
def character (m : Word64) : BitVec 8 := (fromhostData m).setWidth 8

/-- What the host does with a message. -/
def Device.handle (s : Device) (m : Word64) (ack : Bool) : Device :=
  if fromhostDev m = 1 then
    if fromhostCmd m = 0 then
      { s with reads := s.reads + 1 }
    else if fromhostCmd m = 1 then
      { s with
        shown := s.shown ++ [character m]
        queue := s.queue ++ if ack then [tohostCmd 1 1 0] else [] }
    else s
  else if fromhostDev m = 0 then { s with calls := s.calls + 1 }
  else s

/-- A step of the host; `none` where it has nothing to take. -/
def Device.host (s : Device) : HostStep → Option Device
  | .take ack =>
      if s.tohost = 0 then none else some ({ s with tohost := 0 }.handle s.tohost ack)
  | .type data =>
      if s.reads = 0 then none
      else
        let m := tohostCmd 1 0 (data.setWidth 64)
        some { s with
          reads := s.reads - 1
          typed := s.typed ++ [character m]
          queue := s.queue ++ [m] }
  | .done data =>
      if s.calls = 0 then none
      else
        some { s with
          calls := s.calls - 1
          queue := s.queue ++ [tohostCmd 0 0 (data.setWidth 64)] }
  | .send =>
      match s.queue with
      | [] => none
      | m :: queue => if s.fromhost = 0 then some { s with fromhost := m, queue := queue } else none

/-! ## The functions of `htif.c` -/

/-- What follows on `__set_tohost`. -/
inductive After where
  | ret (r : Int)
  /-- The loop of `do_tohost_fromhost`. -/
  | wait (dev cmd : Word64)

/-- What follows on `__check_fromhost`. -/
inductive Cont where
  | buf
  | set (m : Word64) (k : After)
  | wait (dev cmd : Word64)

/-- Before an access to memory. -/
inductive Point where
  /-- `__check_fromhost` reads, clears, and handles what it has read. -/
  | check (k : Cont)
  | clear (fh : Word64) (k : Cont)
  | dispatch (fh : Word64) (k : Cont)
  /-- `htif_console_getchar` -/
  | readBuf
  | clearBuf (ch : Int)
  /-- `__set_tohost` -/
  | test (m : Word64) (k : After)
  | store (m : Word64) (k : After)
  /-- `do_tohost_fromhost` -/
  | wait (dev cmd : Word64)
  | accept
  /-- An assertion has failed. -/
  | failed

/-- Where the caller of `__check_fromhost` goes on. -/
def Cont.resume : Cont → Point
  | .buf => .readBuf
  | .set m k => .test m k
  | .wait dev cmd => .wait dev cmd

/-- Where the caller of `__set_tohost` goes on. -/
def After.resume : After → Point ⊕ Int
  | .ret r => .inr r
  | .wait dev cmd => .inl (.wait dev cmd)

/-- One access to memory, with the branch that follows from it. -/
def Point.next : Point → Device → (Point ⊕ Int) × Device
  | .check k, s =>
      if s.fromhost = 0 then (.inl k.resume, s) else (.inl (.clear s.fromhost k), s)
  | .clear fh k, s => (.inl (.dispatch fh k), { s with fromhost := 0 })
  | .dispatch fh k, s =>
      if fromhostDev fh = 1 then
        if fromhostCmd fh = 0 then
          (.inl k.resume, { s with htif_console_buf := 1 + (character fh).toNat })
        else if fromhostCmd fh = 1 then (.inl k.resume, s)
        else (.inl .failed, s)
      else (.inl .failed, s)
  | .readBuf, s =>
      if 0 ≤ s.htif_console_buf then (.inl (.clearBuf s.htif_console_buf), s)
      else (.inr (s.htif_console_buf - 1), s)
  | .clearBuf ch, s =>
      (.inl (.test (tohostCmd 1 0 0) (.ret (ch - 1))), { s with htif_console_buf := -1 })
  | .test m k, s =>
      if s.tohost = 0 then (.inl (.store m k), s) else (.inl (.check (.set m k)), s)
  | .store m k, s => (k.resume, { s with tohost := m })
  | .wait dev cmd, s =>
      if s.fromhost = 0 then (.inl (.wait dev cmd), s)
      else if fromhostDev s.fromhost = dev ∧ fromhostCmd s.fromhost = cmd then (.inl .accept, s)
      else (.inl (.check (.wait dev cmd)), s)
  | .accept, s => (.inr 0, { s with fromhost := 0 })
  | .failed, s => (.inl .failed, s)

/-- The functions of `htif.c` that take the lock. -/
inductive Call where
  | getchar
  | putchar (ch : BitVec 8)
  | syscall (arg : Word64)

/-- The first access of a call. -/
def Call.enter : Call → Point
  | .getchar => .check .buf
  | .putchar ch => .test (tohostCmd 1 1 (ch.setWidth 64)) (.ret 0)
  | .syscall arg => .test (tohostCmd 0 0 arg) (.wait 0 0)

/-- The calls that harts make, under `htif_lock`. -/
def htif {α : Type} (call : α → Call) : Section Device α Point Int HostStep where
  enter a := (call a).enter
  next := Point.next
  env := Device.host

/-! ## Fields of a message -/

section

variable {d c : BitVec 8} {p : BitVec 48}

/-- A message of device `d`, command `c` and data `p`. -/
def message (d c : BitVec 8) (p : BitVec 48) : Word64 :=
  tohostCmd (d.setWidth 64) (c.setWidth 64) (p.setWidth 64)

theorem toNat_message : (message d c p).toNat = d.toNat * 2 ^ 56 + c.toNat * 2 ^ 48 + p.toNat := by
  have hd := d.isLt
  have hc := c.isLt
  have hp := p.isLt
  have hDev : (d.setWidth 64 <<< 56).toNat = 2 ^ 56 * d.toNat := by
    rw [BitVec.toNat_shiftLeft, BitVec.toNat_setWidth, Nat.shiftLeft_eq]
    omega
  have hCmd : (c.setWidth 64 <<< 48).toNat = 2 ^ 48 * c.toNat := by
    rw [BitVec.toNat_shiftLeft, BitVec.toNat_setWidth, Nat.shiftLeft_eq]
    omega
  have hPayload : (p.setWidth 64).toNat = p.toNat := by
    rw [BitVec.toNat_setWidth]
    omega
  have hHigh : 2 ^ 56 * d.toNat ||| 2 ^ 48 * c.toNat = 2 ^ 48 * (2 ^ 8 * d.toNat + c.toNat) := by
    rw [← Nat.two_pow_add_eq_or_of_lt (by omega)]
    omega
  unfold message tohostCmd
  rw [BitVec.toNat_or, BitVec.toNat_or, hDev, hCmd, hPayload, hHigh,
    ← Nat.two_pow_add_eq_or_of_lt hp]
  omega

@[simp] theorem fromhostDev_message : fromhostDev (message d c p) = d.setWidth 64 := by
  have hc := c.isLt
  have hp := p.isLt
  apply BitVec.eq_of_toNat_eq
  unfold fromhostDev
  rw [BitVec.toNat_ushiftRight, Nat.shiftRight_eq_div_pow, toNat_message, BitVec.toNat_setWidth]
  omega

@[simp] theorem fromhostCmd_message : fromhostCmd (message d c p) = c.setWidth 64 := by
  have hc := c.isLt
  have hp := p.isLt
  apply BitVec.eq_of_toNat_eq
  unfold fromhostCmd
  rw [BitVec.toNat_ushiftRight, BitVec.toNat_shiftLeft, Nat.shiftLeft_eq,
    Nat.shiftRight_eq_div_pow, toNat_message, BitVec.toNat_setWidth]
  omega

@[simp] theorem fromhostData_message : fromhostData (message d c p) = p.setWidth 64 := by
  have hp := p.isLt
  apply BitVec.eq_of_toNat_eq
  unfold fromhostData
  rw [BitVec.toNat_ushiftRight, BitVec.toNat_shiftLeft, Nat.shiftLeft_eq,
    Nat.shiftRight_eq_div_pow, toNat_message, BitVec.toNat_setWidth]
  omega

@[simp] theorem character_message : character (message d c p) = p.setWidth 8 := by
  unfold character
  rw [fromhostData_message]
  exact BitVec.setWidth_setWidth_of_le p (by decide)

end

end AbstractMachine.Riscv.Spike
