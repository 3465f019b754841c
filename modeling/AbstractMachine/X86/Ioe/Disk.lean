import AbstractMachine.Lib.Transition
import AbstractMachine.X86.Ata

/-!
# The disk of x86-qemu

`disk_blkio` moves one block after another, each with a command of its own and
128 words.  Above that the disk is a row of bytes: a request copies a range of it
to memory or a range of memory to it.

## Main results

* `disk_refines` -- every run of requests does to memory and the bytes of the disk
  what the copies do, however long the drive takes.
* `disk_round_trip` -- what is written is read back, whatever happens between.
-/

namespace AbstractMachine.X86.Disk

open AbstractMachine.Lib
open AbstractMachine.X86.Ata

def BLKSZ : Nat := 512

/-- `DISKSZ`, 64 MiB. -/
def DISKSZ : Nat := 64 <<< 20

/-! ## The driver -/

/-- `AM_DISK_CONFIG`. -/
structure Config where
  present : Bool
  blksz : Nat
  blkcnt : Nat
  deriving DecidableEq

def disk_config : Config := { present := true, blksz := BLKSZ, blkcnt := DISKSZ / BLKSZ }

/-- `AM_DISK_BLKIO`. -/
structure Blkio (w : Nat) where
  write : Bool
  buf : BitVec w
  blkno : Word
  blkcnt : Word
  deriving DecidableEq

/-- Memory, and the drive. -/
structure Machine (w : Nat) where
  mem : ByteMem w
  drive : Drive

section

variable {w : Nat}

/-- The loop of `disk_blkio`, while `remain` is what it is. -/
def blkioLoop (write : Bool) : Nat → Word → BitVec w → Machine w → Option (Machine w)
  | 0, _, _, s => some s
  | remain + 1, blkno, ptr, s =>
      (request blkno (if write then 0x30 else 0x20) s.drive).bind fun drive =>
        if write then
          (outWords s.mem (BLKSZ / 4) ptr drive).bind fun (ptr, drive) =>
            blkioLoop write remain (blkno + 1) ptr { s with drive := drive }
        else
          (inWords (BLKSZ / 4) ptr s.mem drive).bind fun (ptr, mem, drive) =>
            blkioLoop write remain (blkno + 1) ptr { mem := mem, drive := drive }

/-- `disk_blkio`: one block after another. -/
def disk_blkio (r : Blkio w) (s : Machine w) : Option (Machine w) :=
  blkioLoop r.write r.blkcnt.toNat r.blkno r.buf s

/-! ## A row of bytes -/

/-- Memory, and the bytes of a disk. -/
structure Store (w : Nat) where
  mem : ByteMem w
  bytes : Nat → BitVec 8

/-- Byte `o` belongs to one of `n` blocks. -/
def InBlocks (blkno n o : Nat) : Prop := BLKSZ * blkno ≤ o ∧ o < BLKSZ * (blkno + n)

instance (blkno n o : Nat) : Decidable (InBlocks blkno n o) :=
  inferInstanceAs (Decidable (_ ∧ _))

/-- The blocks from `blkno` on are copied to memory. -/
def Store.read (buf : BitVec w) (blkno n : Nat) (t : Store w) : Store w :=
  { t with mem := ByteMem.window buf (BLKSZ * n) (fun k => t.bytes (BLKSZ * blkno + k)) t.mem }

/-- The blocks from `blkno` on are copied from memory. -/
def Store.write (buf : BitVec w) (blkno n : Nat) (t : Store w) : Store w :=
  { t with
    bytes := fun o =>
      if InBlocks blkno n o then t.mem (buf + BitVec.ofNat w (o - BLKSZ * blkno))
      else t.bytes o }

/-- What a request should do: a copy of its blocks, one way or the other. -/
def Blkio.copy (r : Blkio w) (t : Store w) : Store w :=
  if r.write then t.write r.buf r.blkno.toNat r.blkcnt.toNat
  else t.read r.buf r.blkno.toNat r.blkcnt.toNat

/-- The blocks are there, and the buffer does not meet itself. -/
structure Blkio.Fits (r : Blkio w) (capacity : Nat) : Prop where
  blocks : r.blkno.toNat + r.blkcnt.toNat ≤ capacity
  buffer : BLKSZ * r.blkcnt.toNat ≤ 2 ^ w

/-! ## The machine as a store -/

/-- The bytes of the sectors. -/
def driveBytes (d : Drive) (o : Nat) : BitVec 8 :=
  byte (d.sectors (BitVec.ofNat 28 (o / BLKSZ)) (o % BLKSZ / 4)) (o % 4)

/-- Between two requests the machine shows a store of `c` blocks. -/
structure Shows (c : Nat) (s : Machine w) (t : Store w) : Prop where
  phase : s.drive.phase = .idle
  capacity : s.drive.capacity = c
  mem : s.mem = t.mem
  bytes : ∀ o, o < BLKSZ * c → driveBytes s.drive o = t.bytes o

variable {c n blkno : Nat} {s : Machine w} {t : Store w} {sect : Word} {ptr : BitVec w} {d : Drive}

/-! ## One block -/

private theorem setWidth_sector (sect : Word) :
    sect.setWidth 28 = BitVec.ofNat 28 sect.toNat := by
  apply BitVec.eq_of_toNat_eq
  rw [BitVec.toNat_setWidth, BitVec.toNat_ofNat]

/-- The words of a sector are its bytes. -/
theorem dwordBytes_sector (d : Drive) (blkno : Nat) {k : Nat} (hk : k < BLKSZ) :
    dwordBytes (d.sectors (BitVec.ofNat 28 blkno)) 0 k = driveBytes d (BLKSZ * blkno + k) := by
  unfold dwordBytes driveBytes
  unfold BLKSZ at hk ⊢
  have hDiv : (512 * blkno + k) / 512 = blkno := by omega
  have hMod : (512 * blkno + k) % 512 = k := by omega
  have hByte : (512 * blkno + k) % 4 = k % 4 := by omega
  rw [hDiv, hMod, hByte, Nat.zero_add]

/-- A sector in memory, as the loop of words leaves it. -/
theorem window_sector (h : Shows c s t) (hSect : sect.toNat < c) (ptr : BitVec w) :
    ByteMem.window ptr (4 * (BLKSZ / 4)) (dwordBytes (s.drive.sectors (sect.setWidth 28)) 0) s.mem =
      (t.read ptr sect.toNat 1).mem := by
  have hSize : 4 * (BLKSZ / 4) = BLKSZ * 1 := rfl
  rw [setWidth_sector, h.mem, hSize]
  dsimp only [Store.read]
  apply ByteMem.window_congr
  intro k hk
  rw [dwordBytes_sector s.drive sect.toNat hk]
  apply h.bytes
  unfold BLKSZ at hk ⊢
  omega

private theorem read_block (h : Shows c s t) (hc : c ≤ 2 ^ 28) (hSect : sect.toNat < c)
    (hFit : BLKSZ ≤ 2 ^ w) (ptr : BitVec w) :
    ∃ d d', request sect 0x20 s.drive = some d ∧
      inWords (BLKSZ / 4) ptr s.mem d =
        some (ptr + BitVec.ofNat w BLKSZ, (t.read ptr sect.toNat 1).mem, d') ∧
      Shows c { mem := (t.read ptr sect.toNat 1).mem, drive := d' }
        (t.read ptr sect.toNat 1) := by
  have hRequest := request_eq h.phase (by omega) (h.capacity ▸ hSect) false
  have hEnd : 0 + BLKSZ / 4 ≤ 128 := by decide
  refine ⟨s.drive.asked sect false, { s.drive.asked sect false with phase := .idle }, hRequest,
    ?_, ?_⟩
  · rw [← window_sector h hSect]
    exact inWords_eq rfl rfl hEnd hFit s.mem
  · exact { phase := rfl, capacity := h.capacity, mem := rfl, bytes := h.bytes }

/-- The bytes of the sectors when one of them has been written. -/
theorem driveBytes_write (m : ByteMem w) (ptr : BitVec w) (words : Nat → Word) {o : Nat}
    (hc : c ≤ 2 ^ 28) (hSect : sect.toNat < c) (ho : o < BLKSZ * c) :
    driveBytes (d.given (sect.setWidth 28) (0 + BLKSZ / 4) (fromMem m ptr 0 (BLKSZ / 4) words)) o =
      if InBlocks sect.toNat 1 o then m (ptr + BitVec.ofNat w (o - BLKSZ * sect.toNat))
      else driveBytes d o := by
  have hFull : ¬ 0 + BLKSZ / 4 < 128 := by decide
  have hSame : BitVec.ofNat 28 (o / BLKSZ) = sect.setWidth 28 ↔ o / BLKSZ = sect.toNat := by
    unfold BLKSZ at ho ⊢
    rw [setWidth_sector, ← BitVec.toNat_inj, BitVec.toNat_ofNat, BitVec.toNat_ofNat,
      Nat.mod_eq_of_lt (by omega), Nat.mod_eq_of_lt (by omega)]
  have hIn : InBlocks sect.toNat 1 o ↔ o / BLKSZ = sect.toNat := by
    unfold InBlocks BLKSZ
    omega
  unfold Drive.given driveBytes
  rw [if_neg hFull]
  dsimp only [Drive.work]
  by_cases hBlock : o / BLKSZ = sect.toNat
  · have hWord : o % BLKSZ / 4 < 0 + BLKSZ / 4 := by
      unfold BLKSZ
      omega
    have hDist : o - BLKSZ * sect.toNat = 4 * (o % BLKSZ / 4) + o % 4 := by
      rw [← hBlock]
      unfold BLKSZ
      omega
    rw [if_pos (hIn.mpr hBlock), hSame.mpr hBlock, Function.update_self]
    unfold fromMem
    rw [if_pos ⟨Nat.zero_le _, hWord⟩, byte_load m _ (Nat.mod_lt o (by decide)), hDist,
      BitVec.ofNat_add, BitVec.add_assoc, Nat.sub_zero]
  · rw [if_neg (mt hIn.mp hBlock), Function.update_of_ne]
    exact mt hSame.mp hBlock

private theorem write_block (h : Shows c s t) (hc : c ≤ 2 ^ 28) (hSect : sect.toNat < c)
    (ptr : BitVec w) :
    ∃ d d', request sect 0x30 s.drive = some d ∧
      outWords s.mem (BLKSZ / 4) ptr d = some (ptr + BitVec.ofNat w BLKSZ, d') ∧
      Shows c { mem := s.mem, drive := d' } (t.write ptr sect.toNat 1) := by
  have hRequest := request_eq h.phase (by omega) (h.capacity ▸ hSect) true
  have hEnd : 0 + BLKSZ / 4 ≤ 128 := by decide
  have hWords := @outWords_eq (s.drive.asked sect true) (sect.setWidth 28) w 0 (BLKSZ / 4) ptr
    rfl hEnd s.mem (s.drive.sectors (sect.setWidth 28))
  rw [← asked_given] at hWords
  refine ⟨s.drive.asked sect true, _, hRequest, hWords, ?_⟩
  constructor
  case phase => rfl
  case capacity => exact h.capacity
  case mem => exact h.mem
  case bytes =>
    intro o ho
    rw [driveBytes_write s.mem ptr _ hc hSect ho, h.mem]
    dsimp only [Store.write]
    rw [← h.bytes o ho]
    rfl

/-! ## Requests -/

private theorem toNat_succ (hc : c ≤ 2 ^ 28) (hEnd : sect.toNat + (n + 1) ≤ c) :
    (sect + 1).toNat = sect.toNat + 1 := by
  rw [BitVec.toNat_add]
  exact Nat.mod_eq_of_lt (by show sect.toNat + 1 < 2 ^ 32; omega)

theorem Store.read_zero (ptr : BitVec w) (blkno : Nat) (t : Store w) : t.read ptr blkno 0 = t := by
  unfold Store.read
  rw [Nat.mul_zero, ByteMem.window_zero]

theorem Store.write_zero (ptr : BitVec w) (blkno : Nat) (t : Store w) :
    t.write ptr blkno 0 = t := by
  have hNone : ∀ o, ¬ InBlocks blkno 0 o := by
    intro o hIn
    unfold InBlocks BLKSZ at hIn
    omega
  unfold Store.write
  simp only [hNone, if_false]

/-- A block, and the ones behind it. -/
theorem Store.read_succ (ptr : BitVec w) (blkno n : Nat) (t : Store w)
    (hFit : BLKSZ * (n + 1) ≤ 2 ^ w) :
    (t.read ptr blkno 1).read (ptr + BitVec.ofNat w BLKSZ) (blkno + 1) n =
      t.read ptr blkno (n + 1) := by
  have hRest : (fun k => t.bytes (BLKSZ * (blkno + 1) + k)) =
      fun k => t.bytes (BLKSZ * blkno + (BLKSZ + k)) := by
    funext k
    rw [Nat.mul_succ, Nat.add_assoc]
  have hSize : BLKSZ * (n + 1) = BLKSZ + BLKSZ * n := by
    rw [Nat.mul_succ, Nat.add_comm]
  unfold Store.read
  dsimp only
  rw [hRest, Nat.mul_one, hSize]
  congr 1
  exact ByteMem.window_append (v := fun k => t.bytes (BLKSZ * blkno + k)) (hSize ▸ hFit)

theorem Store.write_succ (ptr : BitVec w) (blkno n : Nat) (t : Store w) :
    (t.write ptr blkno 1).write (ptr + BitVec.ofNat w BLKSZ) (blkno + 1) n =
      t.write ptr blkno (n + 1) := by
  unfold Store.write
  dsimp only
  congr 1
  funext o
  by_cases hRest : InBlocks (blkno + 1) n o
  · have hAll : InBlocks blkno (n + 1) o := by
      unfold InBlocks BLKSZ at *
      omega
    have hDist : o - BLKSZ * blkno = BLKSZ + (o - BLKSZ * (blkno + 1)) := by
      unfold InBlocks BLKSZ at *
      omega
    rw [if_pos hRest, if_pos hAll, hDist, BitVec.ofNat_add, BitVec.add_assoc]
  · have hIff : InBlocks blkno 1 o ↔ InBlocks blkno (n + 1) o := by
      unfold InBlocks BLKSZ at *
      omega
    rw [if_neg hRest]
    simp only [hIff]

private theorem blkioLoop_read (hc : c ≤ 2 ^ 28) (hEnd : sect.toNat + n ≤ c)
    (hFit : BLKSZ * n ≤ 2 ^ w) (h : Shows c s t) (ptr : BitVec w) :
    ∃ s', blkioLoop false n sect ptr s = some s' ∧ Shows c s' (t.read ptr sect.toNat n) := by
  induction n generalizing sect ptr s t with
  | zero =>
      rw [Store.read_zero]
      exact ⟨s, rfl, h⟩
  | succ n ih =>
      have hSect : sect.toNat < c := by omega
      have hNext := toNat_succ hc hEnd
      have hOne : BLKSZ ≤ 2 ^ w := by
        unfold BLKSZ at *
        omega
      obtain ⟨d, d', hRequest, hWords, hBlock⟩ := read_block h hc hSect hOne ptr
      obtain ⟨s', hLoop, hRest⟩ := @ih _ _ (sect + 1) (by omega)
        (Nat.le_trans (Nat.mul_le_mul_left _ (Nat.le_succ n)) hFit) hBlock
        (ptr + BitVec.ofNat w BLKSZ)
      rw [hNext, Store.read_succ ptr _ n t hFit] at hRest
      refine ⟨s', ?_, hRest⟩
      have hStart : request sect (if false then 0x30 else 0x20) s.drive = some d := hRequest
      rw [← hLoop, blkioLoop, hStart, Option.bind_some, if_neg (by decide), hWords]
      rfl

private theorem blkioLoop_write (hc : c ≤ 2 ^ 28) (hEnd : sect.toNat + n ≤ c) (h : Shows c s t)
    (ptr : BitVec w) :
    ∃ s', blkioLoop true n sect ptr s = some s' ∧ Shows c s' (t.write ptr sect.toNat n) := by
  induction n generalizing sect ptr s t with
  | zero =>
      rw [Store.write_zero]
      exact ⟨s, rfl, h⟩
  | succ n ih =>
      have hSect : sect.toNat < c := by omega
      have hNext := toNat_succ hc hEnd
      obtain ⟨d, d', hRequest, hWords, hBlock⟩ := write_block h hc hSect ptr
      obtain ⟨s', hLoop, hRest⟩ := @ih _ _ (sect + 1) (by omega) hBlock
        (ptr + BitVec.ofNat w BLKSZ)
      rw [hNext, Store.write_succ] at hRest
      refine ⟨s', ?_, hRest⟩
      have hStart : request sect (if true then 0x30 else 0x20) s.drive = some d := hRequest
      rw [← hLoop, blkioLoop, hStart, Option.bind_some, if_pos rfl, hWords]
      rfl

private theorem disk_blkio_shows {r : Blkio w} (hc : c ≤ 2 ^ 28) (hFits : r.Fits c)
    (h : Shows c s t) :
    ∃ s', disk_blkio r s = some s' ∧ Shows c s' (r.copy t) := by
  unfold disk_blkio Blkio.copy
  cases r.write with
  | false => exact blkioLoop_read hc hFits.blocks hFits.buffer h r.buf
  | true => exact blkioLoop_write hc hFits.blocks h r.buf

/-! ## Runs -/

/-- What happens: a request, or whatever the processors do to memory. -/
inductive Action (w : Nat) where
  | blkio (r : Blkio w)
  | cpu (f : ByteMem w → ByteMem w)

/-- Requests of the program, and anything else that it does to its memory. -/
def machine (w : Nat) : System (Machine w) (Action w) where
  init s := s.drive.phase = .idle ∧ s.drive.capacity ≤ 2 ^ 28
  next s
    | .blkio r => disk_blkio r s
    | .cpu f => some { s with mem := f s.mem }

/-- The action on the abstract store. -/
def Action.copy : Action w → Store w → Store w
  | .blkio r, t => r.copy t
  | .cpu f, t => { t with mem := f t.mem }

/-- A request is for blocks that the drive has, and for memory that does not wrap. -/
def Action.Fits : Action w → Nat → Prop
  | .blkio r, c => r.Fits c
  | .cpu _, _ => True

/-- Byte `o` of the disk is written. -/
def Action.Writes : Action w → Nat → Prop
  | .blkio r, o => r.write = true ∧ InBlocks r.blkno.toNat r.blkcnt.toNat o
  | .cpu _, _ => False

/-- The store that the machine shows. -/
def Machine.store (s : Machine w) : Store w := { mem := s.mem, bytes := driveBytes s.drive }

private theorem shows_store (h : (machine w).init s) : Shows s.drive.capacity s s.store where
  phase := h.1
  capacity := rfl
  mem := rfl
  bytes := fun _ _ => rfl

private theorem next_shows {a : Action w} (hc : c ≤ 2 ^ 28) (hFits : a.Fits c) (h : Shows c s t) :
    ∃ s', (machine w).next s a = some s' ∧ Shows c s' (a.copy t) := by
  cases a with
  | blkio r => exact disk_blkio_shows hc hFits h
  | cpu f =>
      refine ⟨_, rfl, ?_⟩
      exact {
        phase := h.phase
        capacity := h.capacity
        mem := congrArg f h.mem
        bytes := h.bytes }

private theorem steps_shows (hc : c ≤ 2 ^ 28) (as : List (Action w)) (hFits : ∀ a ∈ as, a.Fits c)
    (h : Shows c s t) :
    ∃ s', (machine w).steps s as = some s' ∧ Shows c s' (as.foldl (fun t a => a.copy t) t) := by
  induction as generalizing s t with
  | nil => exact ⟨s, rfl, h⟩
  | cons a as ih =>
      obtain ⟨s₁, hNext, h₁⟩ := next_shows hc (hFits a List.mem_cons_self) h
      obtain ⟨s', hSteps, hShows⟩ := ih (fun b hb => hFits b (List.mem_cons_of_mem a hb)) h₁
      refine ⟨s', ?_, hShows⟩
      unfold System.steps at hSteps ⊢
      rw [List.foldlM_cons, hNext]
      exact hSteps

/--
**Refinement.** From any state between two requests, a run of requests that fit,
with anything that the processors do to memory between them, never gets stuck, and
does to memory and to the bytes of the disk what the copies do.
-/
theorem disk_refines (hInit : (machine w).init s) (as : List (Action w))
    (hFits : ∀ a ∈ as, a.Fits s.drive.capacity) :
    ∃ s', (machine w).steps s as = some s' ∧
      Shows s.drive.capacity s' (as.foldl (fun t a => a.copy t) s.store) :=
  steps_shows hInit.2 as hFits (shows_store hInit)

/-! ## Reading what was written -/

theorem Store.read_at {buf : BitVec w} {k : Nat} (t : Store w) (hk : k < BLKSZ * n)
    (hFit : BLKSZ * n ≤ 2 ^ w) :
    (t.read buf blkno n).mem (buf + BitVec.ofNat w k) = t.bytes (BLKSZ * blkno + k) := by
  unfold Store.read
  dsimp only
  rw [ByteMem.window_at hk hFit]

theorem Blkio.copy_read {r : Blkio w} (h : r.write = false) (t : Store w) :
    r.copy t = t.read r.buf r.blkno.toNat r.blkcnt.toNat := by
  unfold Blkio.copy
  rw [h]
  rfl

theorem Blkio.copy_write {r : Blkio w} (h : r.write = true) (t : Store w) :
    r.copy t = t.write r.buf r.blkno.toNat r.blkcnt.toNat := if_pos h

private theorem copy_bytes {a : Action w} {o : Nat} (h : ¬ a.Writes o) :
    (a.copy t).bytes o = t.bytes o := by
  cases a with
  | cpu f => rfl
  | blkio r =>
      unfold Action.copy
      cases hWrite : r.write with
      | false => exact congrArg (fun u => u.bytes o) (Blkio.copy_read hWrite t)
      | true =>
          dsimp only
          rw [Blkio.copy_write hWrite]
          exact if_neg fun hIn => h ⟨hWrite, hIn⟩

private theorem foldl_bytes {as : List (Action w)} {o : Nat} (h : ∀ a ∈ as, ¬ a.Writes o) :
    (as.foldl (fun t a => a.copy t) t).bytes o = t.bytes o := by
  induction as generalizing t with
  | nil => rfl
  | cons a as ih =>
      rw [List.foldl_cons, ih fun b hb => h b (List.mem_cons_of_mem a hb)]
      exact copy_bytes (h a List.mem_cons_self)

/--
**Round trip.** A byte that a request reads is the byte that an earlier request
wrote there, as it was in memory at that time, if no request between them writes it;
whatever the processors do to memory, and however long the drive takes.
-/
theorem disk_round_trip {wr rd : Blkio w} (hInit : (machine w).init s) (hWrite : wr.write = true)
    (hRead : rd.write = false) (as : List (Action w)) (hWr : wr.Fits s.drive.capacity)
    (hAs : ∀ a ∈ as, a.Fits s.drive.capacity) (hRd : rd.Fits s.drive.capacity) :
    ∃ s', (machine w).steps s (.blkio wr :: (as ++ [.blkio rd])) = some s' ∧
      ∀ k, k < BLKSZ * rd.blkcnt.toNat →
        InBlocks wr.blkno.toNat wr.blkcnt.toNat (BLKSZ * rd.blkno.toNat + k) →
        (∀ a ∈ as, ¬ a.Writes (BLKSZ * rd.blkno.toNat + k)) →
        s'.mem (rd.buf + BitVec.ofNat w k) =
          s.mem (wr.buf +
            BitVec.ofNat w (BLKSZ * rd.blkno.toNat + k - BLKSZ * wr.blkno.toNat)) := by
  have hFits : ∀ a ∈ Action.blkio wr :: (as ++ [.blkio rd]), a.Fits s.drive.capacity := by
    intro a ha
    simp only [List.mem_cons, List.mem_append, List.not_mem_nil, or_false] at ha
    rcases ha with rfl | ha | rfl
    · exact hWr
    · exact hAs a ha
    · exact hRd
  obtain ⟨s', hSteps, hShows⟩ := steps_shows hInit.2 _ hFits (shows_store hInit)
  refine ⟨s', hSteps, ?_⟩
  intro k hk hIn hKeep
  have hCopied : (wr.copy s.store).bytes (BLKSZ * rd.blkno.toNat + k) =
      s.mem (wr.buf +
        BitVec.ofNat w (BLKSZ * rd.blkno.toNat + k - BLKSZ * wr.blkno.toNat)) := by
    rw [Blkio.copy_write hWrite]
    exact if_pos hIn
  have hKept := foldl_bytes (t := wr.copy s.store) hKeep
  have hLast : List.foldl (fun t a => Action.copy a t) s.store (.blkio wr :: (as ++ [.blkio rd])) =
      rd.copy (as.foldl (fun t a => a.copy t) (wr.copy s.store)) := by
    rw [List.foldl_cons, List.foldl_append]
    rfl
  rw [hShows.mem, hLast, Blkio.copy_read hRead, ← hCopied, ← hKept]
  exact Store.read_at _ hk hRd.buffer

end

/-- A drive of 64 MiB that takes longer each time. -/
def blankDrive : Drive where
  capacity := disk_config.blkcnt
  sectors _ _ := 0
  count := 0
  lba0 := 0
  lba1 := 0
  lba2 := 0
  device := 0
  phase := .idle
  busy := 3
  delays works := works
  works := 0

/-- A memory of addresses and a blank drive. -/
def blankMachine : Machine 32 := { mem := fun x => x.setWidth 8, drive := blankDrive }

/-- A request for block 5. -/
def oneBlock (write : Bool) (buf : BitVec 32) : Blkio 32 :=
  { write := write, buf := buf, blkno := 5, blkcnt := 1 }

private theorem oneBlock_fits (write : Bool) (buf : BitVec 32) :
    (oneBlock write buf).Fits disk_config.blkcnt where
  blocks := by
    show 5 + 1 ≤ 131072
    decide
  buffer := by
    show 512 * 1 ≤ 2 ^ 32
    decide

private theorem blank_init : (machine 32).init blankMachine := by
  refine ⟨rfl, ?_⟩
  show 131072 ≤ 2 ^ 28
  decide

theorem disk_refines_one : ∃ s',
    (machine 32).steps blankMachine [.blkio (oneBlock true 0x1000)] = some s' ∧
      Shows disk_config.blkcnt s' ((oneBlock true 0x1000).copy blankMachine.store) :=
  disk_refines blank_init [.blkio (oneBlock true 0x1000)] fun a ha => by
    cases List.mem_singleton.mp ha
    exact oneBlock_fits true 0x1000

/-- The buffer is cleared between the write and the read. -/
theorem disk_round_trip_one : ∃ s',
    (machine 32).steps blankMachine
        (.blkio (oneBlock true 0x1000) :: ([.cpu fun _ _ => 0] ++
          [.blkio (oneBlock false 0x8000)])) = some s' ∧
      ∀ k, k < 512 →
        s'.mem (0x8000 + BitVec.ofNat 32 k) = (0x1000 + BitVec.ofNat 32 k).setWidth 8 := by
  have hAs : ∀ a ∈ [@Action.cpu 32 fun _ _ => 0], a.Fits disk_config.blkcnt := by
    intro a ha
    cases List.mem_singleton.mp ha
    trivial
  obtain ⟨s', hSteps, hBytes⟩ := disk_round_trip blank_init rfl rfl [.cpu fun _ _ => 0]
    (oneBlock_fits true 0x1000) hAs (oneBlock_fits false 0x8000)
  refine ⟨s', hSteps, ?_⟩
  intro k hk
  have hByte := hBytes k hk (by
    show 512 * 5 ≤ 512 * 5 + k ∧ 512 * 5 + k < 512 * (5 + 1)
    omega) (by
    intro a ha
    cases List.mem_singleton.mp ha
    exact not_false)
  have hDist : BLKSZ * (oneBlock false 0x8000).blkno.toNat + k -
      BLKSZ * (oneBlock true 0x1000).blkno.toNat = k := Nat.add_sub_cancel_left ..
  rw [hDist] at hByte
  exact hByte

end AbstractMachine.X86.Disk
