import AbstractMachine.Lib.Window

/-!
# A drive at the ATA ports

The registers `0x1f0` to `0x1f7`, as `disk_blkio` and the boot loader use them: one
sector for each command, addressed by 28 bits, its 128 words moved through
`0x1f0`.  The drive is busy for some time after a command and after the last word of
a sector to be written: so many reads of its status say so.  What the interface
does not allow is `none`: a register written while the drive is busy or wants data,
data moved when it does not want any, a sector that is not there, another mode of
addressing, the other drive.

## Main results

* `request_eq` -- the drive gets the sector number and the command.
* `inWords_eq`, `outWords_eq` -- the words of a sector are moved.
-/

namespace AbstractMachine.X86.Ata

open AbstractMachine.Lib

/-- What one access to the data port moves. -/
abbrev Word := BitVec 32

/-! ## The drive -/

/-- The ports of the drive that `disk.c` uses. -/
inductive Port where
  /-- `0x1f2` to `0x1f6` -/
  | count | lba0 | lba1 | lba2 | device
  /-- `0x1f7` -/
  | command
  deriving DecidableEq

/-- The words of each sector. -/
abbrev Sectors := BitVec 28 → Nat → Word

/-- The next word that is moved, if any. -/
inductive Phase where
  | idle
  | reading (lba : BitVec 28) (i : Nat)
  | writing (lba : BitVec 28) (i : Nat) (words : Nat → Word)

/-- A drive that answers after a delay, with its registers and its sectors. -/
structure Drive where
  /-- How many sectors there are. -/
  capacity : Nat
  sectors : Sectors
  count : BitVec 8
  lba0 : BitVec 8
  lba1 : BitVec 8
  lba2 : BitVec 8
  device : BitVec 8
  phase : Phase
  /-- How many reads of the status are still answered with BSY. -/
  busy : Nat
  /-- How long each piece of work takes, and how many there were. -/
  delays : Nat → Nat
  works : Nat

/-- A command, or a sector done: the drive is busy for a while. -/
def Drive.work (d : Drive) : Drive := { d with busy := d.delays d.works, works := d.works + 1 }

/-- The sector that is addressed. -/
def Drive.lba (d : Drive) : Option (BitVec 28) :=
  let lba := d.device.setWidth 4 ++ d.lba2 ++ d.lba1 ++ d.lba0
  if d.count = 1 ∧ d.device &&& 0xf0 = 0xe0 ∧ lba.toNat < d.capacity then some lba else none

/-- The status: BSY, or DRDY with DRQ. -/
def Drive.inb (d : Drive) : BitVec 8 × Drive :=
  match d.busy with
  | busy + 1 => (0x80, { d with busy := busy })
  | 0 =>
      match d.phase with
      | .idle => (0x40, d)
      | _ => (0x48, d)

/-- `0x20` reads a sector and `0x30` writes one. -/
def Drive.start (d : Drive) (cmd : BitVec 8) (lba : BitVec 28) : Option Drive :=
  if cmd = 0x20 then some { d with phase := .reading lba 0 }.work
  else if cmd = 0x30 then some { d with phase := .writing lba 0 (d.sectors lba) }.work
  else none

/-- A byte to a port; `none` where the drive is not ready for it. -/
def Drive.outb (d : Drive) (port : Port) (v : BitVec 8) : Option Drive :=
  match d.busy, d.phase, port with
  | 0, .idle, .count => some { d with count := v }
  | 0, .idle, .lba0 => some { d with lba0 := v }
  | 0, .idle, .lba1 => some { d with lba1 := v }
  | 0, .idle, .lba2 => some { d with lba2 := v }
  | 0, .idle, .device => some { d with device := v }
  | 0, .idle, .command => d.lba.bind (d.start v)
  | _, _, _ => none

/-- A word read off the data port; `none` where the drive has none to give. -/
def Drive.inl (d : Drive) : Option (Word × Drive) :=
  match d.busy, d.phase with
  | 0, .reading lba i =>
      let phase := if i + 1 < 128 then .reading lba (i + 1) else .idle
      some (d.sectors lba i, { d with phase := phase })
  | _, _ => none

/-- A word to the data port; the last of a sector is what stores the sector. -/
def Drive.outl (d : Drive) (v : Word) : Option Drive :=
  match d.busy, d.phase with
  | 0, .writing lba i words =>
      let words := Function.update words i v
      if i + 1 < 128 then some { d with phase := .writing lba (i + 1) words }
      else
        some { d with phase := .idle, sectors := Function.update d.sectors lba words }.work
  | _, _ => none

/-! ## What the drivers do -/

private theorem busy_status : (0x80 : BitVec 8) &&& 0xc0 ≠ 0x40 := by decide

private theorem idle_status : (0x40 : BitVec 8) &&& 0xc0 = 0x40 := by decide

private theorem data_status : (0x48 : BitVec 8) &&& 0xc0 = 0x40 := by decide

private theorem inb_busy_lt {d : Drive} (h : (d.inb).1 &&& 0xc0 ≠ 0x40) :
    d.inb.2.busy < d.busy := by
  unfold Drive.inb at h ⊢
  split at h
  · rename_i busy hBusy
    rw [hBusy]
    exact Nat.lt_succ_self busy
  · split at h
    · exact absurd idle_status h
    · exact absurd data_status h

/-- `wait_disk` -/
def wait_disk (d : Drive) : Drive :=
  if _h : d.inb.1 &&& 0xc0 ≠ 0x40 then wait_disk d.inb.2 else d.inb.2
termination_by d.busy
decreasing_by exact inb_busy_lt ‹_›

/-- The command and its sector, between two waits. -/
def request (sect : Word) (cmd : BitVec 8) (d : Drive) : Option Drive := do
  let d := wait_disk d
  let d ← d.outb .count 1
  let d ← d.outb .lba0 (sect.setWidth 8)
  let d ← d.outb .lba1 ((sect >>> 8).setWidth 8)
  let d ← d.outb .lba2 ((sect >>> 16).setWidth 8)
  let d ← d.outb .device ((sect >>> 24).setWidth 8 ||| 0xe0)
  let d ← d.outb .command cmd
  return wait_disk d

section

variable {w : Nat}

/-- `*ptr++ = inl(0x1f0)`, `n` times. -/
def inWords : Nat → BitVec w → ByteMem w → Drive → Option (BitVec w × ByteMem w × Drive)
  | 0, ptr, m, d => some (ptr, m, d)
  | n + 1, ptr, m, d =>
      d.inl.bind fun (v, d) => inWords n (ptr + 4) (ByteMem.store m ptr (n := 4) v) d

/-- `outl(0x1f0, *ptr++)`, `n` times. -/
def outWords (m : ByteMem w) : Nat → BitVec w → Drive → Option (BitVec w × Drive)
  | 0, ptr, d => some (ptr, d)
  | n + 1, ptr, d => (d.outl (ByteMem.load m ptr 4)).bind (outWords m n (ptr + 4))

end

/-! ## Waiting -/

variable {d : Drive} {sect : Word} {lba : BitVec 28}

/-- The drive comes to an end with what it does, and nothing else changes. -/
theorem wait_disk_eq (d : Drive) : wait_disk d = { d with busy := 0 } := by
  induction hBusy : d.busy generalizing d with
  | zero =>
      have hStatus : d.inb.2 = d ∧ d.inb.1 &&& 0xc0 = 0x40 := by
        unfold Drive.inb
        rw [hBusy]
        cases d.phase with
        | idle => exact ⟨rfl, idle_status⟩
        | reading lba i => exact ⟨rfl, data_status⟩
        | writing lba i words => exact ⟨rfl, data_status⟩
      rw [wait_disk, dif_neg (not_not.mpr hStatus.2), hStatus.1, ← hBusy]
  | succ busy ih =>
      have hStatus : d.inb = (0x80, { d with busy := busy }) := by
        unfold Drive.inb
        rw [hBusy]
      have hWait : wait_disk d = wait_disk { d with busy := busy } := by
        rw [wait_disk, hStatus]
        exact dif_pos busy_status
      rw [hWait]
      exact ih _ rfl

/-! ## Commands -/

/-- A word in two pieces. -/
theorem setWidth_append {w n k : Nat} (v : BitVec w) :
    (v >>> n).setWidth k ++ v.setWidth n = v.setWidth (k + n) := by
  apply BitVec.eq_of_getLsbD_eq
  intro i hi
  simp only [BitVec.getLsbD_append, BitVec.getLsbD_setWidth, BitVec.getLsbD_ushiftRight]
  by_cases hLow : i < n
  · simp [hLow, hi]
  · have hHigh : i - n < k := by omega
    have hSum : n + (i - n) = i := by omega
    simp [hLow, hHigh, hSum, hi]

private theorem device_eq (high : BitVec 4) :
    (high.setWidth 8 ||| 0xe0 : BitVec 8) &&& 0xf0 = 0xe0 ∧
      (high.setWidth 8 ||| 0xe0 : BitVec 8).setWidth 4 = high := by
  revert high
  decide

private theorem device_high (h : sect.toNat < 2 ^ 28) :
    (sect >>> 24).setWidth 8 = ((sect >>> 24).setWidth 4).setWidth 8 := by
  apply BitVec.eq_of_toNat_eq
  simp only [BitVec.toNat_setWidth, BitVec.toNat_ushiftRight, Nat.shiftRight_eq_div_pow]
  omega

/-- The four registers hold the sector number. -/
theorem lba_eq (h : sect.toNat < 2 ^ 28) :
    ((sect >>> 24).setWidth 8 ||| 0xe0 : BitVec 8) &&& 0xf0 = 0xe0 ∧
      ((sect >>> 24).setWidth 8 ||| 0xe0 : BitVec 8).setWidth 4 ++ (sect >>> 16).setWidth 8 ++
        (sect >>> 8).setWidth 8 ++ sect.setWidth 8 = sect.setWidth 28 := by
  have hDevice := device_eq ((sect >>> 24).setWidth 4)
  have hTop := setWidth_append (n := 8) (k := 4) (sect >>> 16)
  have hMid := setWidth_append (n := 8) (k := 12) (sect >>> 8)
  rw [← device_high h] at hDevice
  rw [← BitVec.shiftRight_add] at hTop hMid
  refine ⟨hDevice.1, ?_⟩
  rw [hDevice.2, hTop, hMid, setWidth_append]

/-- The drive when it has been asked for a sector, and is ready to move it. -/
def Drive.asked (d : Drive) (sect : Word) (write : Bool) : Drive :=
  let lba := sect.setWidth 28
  { d with
    count := 1
    lba0 := sect.setWidth 8
    lba1 := (sect >>> 8).setWidth 8
    lba2 := (sect >>> 16).setWidth 8
    device := (sect >>> 24).setWidth 8 ||| 0xe0
    phase := if write then .writing lba 0 (d.sectors lba) else .reading lba 0
    busy := 0
    works := d.works + 1 }

/-- A drive that is not in the middle of a sector takes a command. -/
theorem request_eq (hIdle : d.phase = .idle) (h : sect.toNat < 2 ^ 28)
    (hSect : sect.toNat < d.capacity) (write : Bool) :
    request sect (if write then 0x30 else 0x20) d = some (d.asked sect write) := by
  obtain ⟨hDevice, hLba⟩ := lba_eq h
  have hLt : (sect.setWidth 28).toNat < d.capacity := by
    rw [BitVec.toNat_setWidth, Nat.mod_eq_of_lt h]
    exact hSect
  obtain ⟨capacity, sectors, count, lba0, lba1, lba2, device, phase, busy, delays, works⟩ := d
  cases hIdle
  unfold Drive.asked
  rw [← hLba] at hLt ⊢
  simp only [request, wait_disk_eq, Drive.outb, Option.bind_eq_bind, Option.bind_some, Drive.lba,
    hDevice, true_and]
  rw [if_pos hLt, Option.bind_some]
  cases write with
  | false => rfl
  | true => rfl

/-! ## Data -/

/-- What a drive does whose next word to be read is word `i`. -/
def readingFrom (lba : BitVec 28) (i : Nat) : Phase := if i < 128 then .reading lba i else .idle

/-- The drive that has been given `i` of the words of a sector. -/
def Drive.given (d : Drive) (lba : BitVec 28) (i : Nat) (words : Nat → Word) : Drive :=
  if i < 128 then { d with phase := .writing lba i words }
  else { d with phase := .idle, sectors := Function.update d.sectors lba words }.work

theorem asked_given (d : Drive) (sect : Word) :
    d.asked sect true =
      (d.asked sect true).given (sect.setWidth 28) 0 (d.sectors (sect.setWidth 28)) := by
  unfold Drive.given
  rw [if_pos (by decide)]
  rfl

section

variable {w i n : Nat} {ptr : BitVec w}

private theorem four_add (a : BitVec w) (n : Nat) :
    a + 4 + BitVec.ofNat w (4 * n) = a + BitVec.ofNat w (4 * (n + 1)) := by
  rw [BitVec.add_assoc, Nat.mul_succ, Nat.add_comm, BitVec.ofNat_add]
  rfl

/-- The bytes of the words from `i` on. -/
def dwordBytes (words : Nat → Word) (i o : Nat) : BitVec 8 := byte (words (i + o / 4)) (o % 4)

/-- A word in front of the others. -/
theorem window_words (hFit : 4 * (n + 1) ≤ 2 ^ w) (words : Nat → Word) (m : ByteMem w) :
    ByteMem.window (ptr + 4) (4 * n) (dwordBytes words (i + 1))
        (ByteMem.store m ptr (n := 4) (words i)) =
      ByteMem.window ptr (4 * (n + 1)) (dwordBytes words i) m := by
  have hFirst : ByteMem.store m ptr (n := 4) (words i) =
      ByteMem.window ptr 4 (dwordBytes words i) m := by
    rw [ByteMem.store_eq_window]
    apply ByteMem.window_congr
    intro o ho
    unfold dwordBytes
    rw [Nat.div_eq_of_lt ho, Nat.mod_eq_of_lt ho]
    rfl
  have hRest : dwordBytes words (i + 1) = fun o => dwordBytes words i (4 + o) := by
    funext o
    have hDiv : i + (4 + o) / 4 = i + 1 + o / 4 := by omega
    have hMod : (4 + o) % 4 = o % 4 := by omega
    unfold dwordBytes
    rw [hDiv, hMod]
  have hAppend : ByteMem.window (ptr + BitVec.ofNat w 4) (4 * n)
        (fun o => dwordBytes words i (4 + o)) (ByteMem.window ptr 4 (dwordBytes words i) m) =
      ByteMem.window ptr (4 + 4 * n) (dwordBytes words i) m := ByteMem.window_append (by omega)
  have hSize : 4 * (n + 1) = 4 + 4 * n := by omega
  rw [hFirst, hRest, hSize]
  exact hAppend

/-- The words from `i` on, one after the other. -/
theorem inWords_eq (hPhase : d.phase = readingFrom lba i) (hBusy : d.busy = 0)
    (hEnd : i + n ≤ 128) (hFit : 4 * n ≤ 2 ^ w) (m : ByteMem w) :
    inWords n ptr m d = some (ptr + BitVec.ofNat w (4 * n),
      ByteMem.window ptr (4 * n) (dwordBytes (d.sectors lba) i) m,
      { d with phase := readingFrom lba (i + n) }) := by
  induction n generalizing i ptr m d with
  | zero =>
      rw [inWords, Nat.add_zero, ← hPhase, Nat.mul_zero, BitVec.add_zero, ByteMem.window_zero]
  | succ n ih =>
      have hWord : d.inl = some (d.sectors lba i, { d with phase := readingFrom lba (i + 1) }) := by
        have hMore : i < 128 := by omega
        unfold Drive.inl
        rw [hBusy, hPhase, readingFrom, if_pos hMore]
        rfl
      have hTail := @ih { d with phase := readingFrom lba (i + 1) } (i + 1) (ptr + 4) rfl hBusy
        (by omega) (by omega) (ByteMem.store m ptr (n := 4) (d.sectors lba i))
      rw [inWords, hWord, Option.bind_some]
      dsimp only
      rw [hTail, four_add, window_words hFit, Nat.add_assoc, Nat.add_comm 1]

private theorem outl_given (hBusy : d.busy = 0) (hi : i < 128) (words : Nat → Word) (v : Word) :
    (d.given lba i words).outl v = some (d.given lba (i + 1) (Function.update words i v)) := by
  unfold Drive.given Drive.outl
  rw [if_pos hi]
  simp only [hBusy]
  split <;> rfl

/-- The words from `i` on, with those that memory has. -/
def fromMem (m : ByteMem w) (ptr : BitVec w) (i n : Nat) (words : Nat → Word) : Nat → Word :=
  fun j =>
    if i ≤ j ∧ j < i + n then ByteMem.load m (ptr + BitVec.ofNat w (4 * (j - i))) 4 else words j

private theorem fromMem_succ (m : ByteMem w) (words : Nat → Word) :
    fromMem m (ptr + 4) (i + 1) n (Function.update words i (ByteMem.load m ptr 4)) =
      fromMem m ptr i (n + 1) words := by
  funext j
  unfold fromMem
  by_cases hFirst : j = i
  · have hIn : i ≤ j ∧ j < i + (n + 1) := by omega
    have hNot : ¬ (i + 1 ≤ j ∧ j < i + 1 + n) := by omega
    rw [if_neg hNot, if_pos hIn, hFirst, Function.update_self, Nat.sub_self, Nat.mul_zero,
      BitVec.add_zero]
  · rw [Function.update_of_ne hFirst]
    by_cases hIn : i + 1 ≤ j ∧ j < i + 1 + n
    · have hAll : i ≤ j ∧ j < i + (n + 1) := by omega
      have hDist : j - i = j - (i + 1) + 1 := by omega
      rw [if_pos hIn, if_pos hAll, four_add, hDist]
    · have hNot : ¬ (i ≤ j ∧ j < i + (n + 1)) := by omega
      rw [if_neg hIn, if_neg hNot]

theorem outWords_eq (hBusy : d.busy = 0) (hEnd : i + n ≤ 128) (m : ByteMem w)
    (words : Nat → Word) :
    outWords m n ptr (d.given lba i words) =
      some (ptr + BitVec.ofNat w (4 * n), d.given lba (i + n) (fromMem m ptr i n words)) := by
  induction n generalizing i ptr words with
  | zero =>
      have hNone : fromMem m ptr i 0 words = words := by
        funext j
        exact if_neg (by omega)
      rw [outWords, hNone, Nat.add_zero, Nat.mul_zero, BitVec.add_zero]
  | succ n ih =>
      rw [outWords, outl_given hBusy (by omega), Option.bind_some, ih (by omega), four_add,
        fromMem_succ, Nat.add_assoc, Nat.add_comm 1]

end

end AbstractMachine.X86.Ata
