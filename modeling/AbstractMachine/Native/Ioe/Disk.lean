import AbstractMachine.Lib.ByteFile
import AbstractMachine.Lib.SignedWord
import AbstractMachine.Lib.Transition

/-!
# The disk of native

The disk is a file.  The number of blocks that is reported rounds the size of
the file up, a transfer must be complete, and the offset and the length of a
transfer are products of `int`s: a read of the last block fails while the file
does not reach its end, and so does every transfer from 1 GiB on.
-/

namespace AbstractMachine.Native.Disk

open AbstractMachine.Lib

/-- A byte of the disk. -/
abbrev Byte := BitVec 8

/-- `BLKSZ` of `disk.c`. -/
def BLKSZ : BitVec 32 := 512

/-! ## The driver -/

/-- `AM_DISK_BLKIO`. -/
structure Blkio where
  write : Bool
  buf : BitVec 64
  blkno : BitVec 32
  blkcnt : BitVec 32
  deriving DecidableEq

/-- `AM_DISK_CONFIG`. -/
structure Config where
  present : Bool
  blksz : BitVec 32
  blkcnt : BitVec 32
  deriving DecidableEq

/-- A write that has been made. -/
structure Write where
  first : Nat
  data : List Byte

/-- The statics of `disk.c` and the memory that the transfers go to. -/
structure Driver where
  diskSize : BitVec 32
  fp : Option ByteFile
  mem : ByteMem 64
  /-- The writes so far, the last one first. -/
  log : List Write

/-- The size of the file, as it is now. -/
def Driver.size (s : Driver) : Nat :=
  match s.fp with
  | none => 0
  | some fp => fp.size

/-- `__am_disk_init`; `img` is the file that `diskimg` names, if it opens. -/
def Driver.amDiskInit (mem : ByteMem 64) : Option ByteFile → Driver
  | none => { diskSize := 0, fp := none, mem := mem, log := [] }
  | some img =>
      let fp := img.seekEnd 0
      { diskSize := ((BitVec.ofNat 64 fp.pos + 511).sdiv 512).setWidth 32
        fp := some fp.rewind
        mem := mem
        log := [] }

/-- `__am_disk_config`. -/
def Driver.amDiskConfig (s : Driver) : Config where
  present := s.fp.isSome
  blksz := BLKSZ
  blkcnt := s.diskSize

/-- An `int` as an offset. -/
def Blkio.offset (io : Blkio) : Int := (io.blkno * BLKSZ).toInt

/-- An `int` as a `size_t`. -/
def Blkio.length (io : Blkio) : Nat := ((io.blkcnt * BLKSZ).signExtend 64).toNat

/-- The bytes of the buffer. -/
def Driver.data (s : Driver) (io : Blkio) : List Byte :=
  (List.range io.length).map fun i => s.mem (io.buf + BitVec.ofNat 64 i)

/-- `__am_disk_blkio`; `none` is a failed assertion. -/
def Driver.amDiskBlkio (s : Driver) (io : Blkio) : Option Driver :=
  match s.fp with
  | none => some s
  | some fp =>
      let fp := fp.seekSet io.offset
      if io.write then
        let (ret, fp) := fp.fwrite s.mem io.buf io.length
        let write : Write := { first := io.offset.toNat, data := s.data io }
        if ret = 1 then some { s with fp := some fp, log := write :: s.log } else none
      else
        let (ret, fp, mem) := fp.fread s.mem io.buf io.length
        if ret = 1 then some { s with fp := some fp, mem := mem } else none

/-! ## The system -/

/-- The program stores, or asks for a transfer. -/
inductive Step where
  /-- The program changes its memory. -/
  | store (mem : ByteMem 64)
  | blkio (io : Blkio)

/-- A step; `none` is a failed assertion. -/
def Driver.next (s : Driver) : Step → Option Driver
  | .store mem => some { s with mem := mem }
  | .blkio io => s.amDiskBlkio io

/-- The disk with the image `img`. -/
def native (img : ByteFile) : System Driver Step where
  init s := ∃ mem, s = .amDiskInit mem (some img)
  next := Driver.next

/-- What a disk holds after the writes: the data of the last write of a byte,
or the byte of the image. -/
def after (img : Nat → Byte) : List Write → Nat → Byte
  | [], k => img k
  | wr :: log, k =>
      if wr.first ≤ k then wr.data.getD (k - wr.first) (after img log k) else after img log k

/-- The number of bytes that a request is for. -/
def Blkio.bytes (io : Blkio) : Nat := io.blkcnt.toNat * 512

/-- A request for blocks that the disk reports, with a buffer that holds them. -/
structure InRange (s : Driver) (io : Blkio) : Prop where
  blkno : 0 ≤ io.blkno.toInt
  blkcnt : 1 ≤ io.blkcnt.toInt
  reported : io.blkno.toInt + io.blkcnt.toInt ≤ s.amDiskConfig.blkcnt.toInt
  buf : io.buf.toNat + io.bytes ≤ 2 ^ 64

instance (s : Driver) (io : Blkio) : Decidable (InRange s io) :=
  decidable_of_iff
    (0 ≤ io.blkno.toInt ∧ 1 ≤ io.blkcnt.toInt ∧
      io.blkno.toInt + io.blkcnt.toInt ≤ s.amDiskConfig.blkcnt.toInt ∧
      io.buf.toNat + io.bytes ≤ 2 ^ 64)
    ⟨fun ⟨hNo, hCnt, hRep, hBuf⟩ => ⟨hNo, hCnt, hRep, hBuf⟩,
      fun h => ⟨h.blkno, h.blkcnt, h.reported, h.buf⟩⟩

/-- A transfer has done what was asked for. -/
def Transferred (img : ByteFile) (s : Driver) (io : Blkio) (s' : Driver) : Prop :=
  if io.write then
    s'.mem = s.mem ∧
      ∃ wr, s'.log = wr :: s.log ∧ wr.first = io.blkno.toNat * 512 ∧ wr.data.length = io.bytes ∧
        ∀ i < io.bytes, wr.data[i]? = some (s.mem (io.buf + BitVec.ofNat 64 i))
  else
    s'.log = s.log ∧
      (∀ i < io.bytes, s'.mem (io.buf + BitVec.ofNat 64 i) =
        after img.byte s.log (io.blkno.toNat * 512 + i)) ∧
      ∀ x, ¬ ByteMem.InBlock io.buf io.bytes x → s'.mem x = s.mem x

/-- A request succeeds: no product overflows and the assertion holds. -/
structure Serves (img : ByteFile) (s : Driver) (io : Blkio) : Prop where
  offset : io.blkno.smulOverflow BLKSZ = false
  length : io.blkcnt.smulOverflow BLKSZ = false
  done : ∃ s', s.next (.blkio io) = some s' ∧ Transferred img s io s'

/-- The products are `int`s, and a read does not go beyond the file. -/
def Works (s : Driver) (io : Blkio) : Prop :=
  io.blkno.toNat < 2 ^ 22 ∧ io.blkcnt.toNat < 2 ^ 22 ∧
    (io.write = true ∨ (io.blkno.toNat + io.blkcnt.toNat) * 512 ≤ s.size)

instance (s : Driver) (io : Blkio) : Decidable (Works s io) :=
  inferInstanceAs (Decidable (_ ∧ _ ∧ _))

/-- Every request is for blocks that the disk reports, and works. -/
def Working (s : Driver) : Step → Prop
  | .store _ => True
  | .blkio io => InRange s io ∧ Works s io

instance (s : Driver) (a : Step) : Decidable (Working s a) := by
  unfold Working
  cases a <;> infer_instance

/-! ## Products of `int`s -/

variable {img fp : ByteFile} {s s' : Driver} {io : Blkio} {b : BitVec 32}

private theorem mul_blksz_iff (hb : 0 ≤ b.toInt) :
    b.smulOverflow BLKSZ = false ↔ b.toNat < 2 ^ 22 := by
  have hSize : BLKSZ.toNat = 512 := by decide
  rw [SignedWord.smulOverflow_iff hb (by decide), hSize]
  omega

private theorem toNat_mul_blksz (hb : b.toNat < 2 ^ 22) : (b * BLKSZ).toNat = b.toNat * 512 := by
  have hSize : BLKSZ.toNat = 512 := by decide
  rw [BitVec.toNat_mul, hSize]
  apply Nat.mod_eq_of_lt
  omega

private theorem toInt_mul_blksz (hb : b.toNat < 2 ^ 22) :
    (b * BLKSZ).toInt = (b.toNat * 512 : Nat) := by
  have hNat := toNat_mul_blksz hb
  have hSmall : 2 * (b * BLKSZ).toNat < 2 ^ 32 := by omega
  rw [BitVec.toInt_eq_toNat_of_lt hSmall, hNat]

theorem Blkio.offset_eq (hNo : io.blkno.toNat < 2 ^ 22) :
    io.offset = (io.blkno.toNat * 512 : Nat) :=
  toInt_mul_blksz hNo

theorem Blkio.length_eq (hCnt : io.blkcnt.toNat < 2 ^ 22) : io.length = io.bytes := by
  have hNat := toNat_mul_blksz hCnt
  have hMsb : (io.blkcnt * BLKSZ).msb = false := by
    rw [BitVec.msb_eq_false_iff_two_mul_lt]
    omega
  unfold Blkio.length Blkio.bytes
  rw [BitVec.signExtend_eq_setWidth_of_msb_false hMsb, BitVec.toNat_setWidth, hNat]
  exact Nat.mod_eq_of_lt (by omega)

/-! ## Transfers -/

/-- The file is what the writes have made of the image. -/
def Holds (img : ByteFile) (s : Driver) : Prop :=
  ∃ fp, s.fp = some fp ∧ fp.byte = after img.byte s.log

private theorem seek_pos (hNo : io.blkno.toNat < 2 ^ 22) :
    (fp.seekSet io.offset).pos = io.blkno.toNat * 512 := by
  rw [ByteFile.seekSet_pos (by rw [io.offset_eq hNo]; omega), io.offset_eq hNo,
    Int.toNat_natCast]

private theorem data_length (hCnt : io.blkcnt.toNat < 2 ^ 22) : (s.data io).length = io.bytes := by
  unfold Driver.data
  rw [List.length_map, List.length_range, io.length_eq hCnt]

private theorem data_get (hCnt : io.blkcnt.toNat < 2 ^ 22) {i : Nat} (hi : i < io.bytes) :
    (s.data io)[i]? = some (s.mem (io.buf + BitVec.ofNat 64 i)) := by
  unfold Driver.data
  rw [io.length_eq hCnt, List.getElem?_map, List.getElem?_range hi, Option.map_some]

private theorem bytes_pos (hIn : InRange s io) : 0 < io.bytes := by
  have hCnt := hIn.blkcnt
  have hNat := SignedWord.toInt_of_nonneg (v := io.blkcnt) (by omega)
  unfold Blkio.bytes
  omega

private theorem write_fits (h : Works s io) : io.blkno.toNat * 512 + io.bytes ≤ ByteFile.limit := by
  have hNo := h.1
  have hCnt := h.2.1
  unfold Blkio.bytes ByteFile.limit
  omega

/-- The bytes of the file after a write are those that the log tells. -/
theorem overwrite_after (hCnt : io.blkcnt.toNat < 2 ^ 22)
    (hByte : fp.byte = after img.byte s.log) (k : Nat) (hPos : fp.pos = io.blkno.toNat * 512) :
    fp.overwrite s.mem io.buf io.bytes k =
      after img.byte (⟨io.blkno.toNat * 512, s.data io⟩ :: s.log) k := by
  unfold ByteFile.overwrite
  show _ = if io.blkno.toNat * 512 ≤ k then
    (s.data io).getD (k - io.blkno.toNat * 512) (after img.byte s.log k)
    else after img.byte s.log k
  rw [hPos, ← hByte]
  by_cases hLe : io.blkno.toNat * 512 ≤ k
  · rw [if_pos hLe, List.getD_eq_getElem?_getD]
    by_cases hIn : k - io.blkno.toNat * 512 < io.bytes
    · rw [if_pos ⟨hLe, by omega⟩, data_get hCnt hIn, Option.getD_some]
    · have hNone : (s.data io)[k - io.blkno.toNat * 512]? = none := by
        rw [List.getElem?_eq_none_iff, data_length hCnt]
        omega
      rw [if_neg (by omega), hNone, Option.getD_none]
  · rw [if_neg (by omega), if_neg hLe]

private theorem blkio_write_eq (hFp : s.fp = some fp) (hWrite : io.write = true) :
    s.amDiskBlkio io =
      if ((fp.seekSet io.offset).fwrite s.mem io.buf io.length).1 = 1 then
        some { s with
          fp := some ((fp.seekSet io.offset).fwrite s.mem io.buf io.length).2
          log := ⟨io.offset.toNat, s.data io⟩ :: s.log }
      else none := by
  unfold Driver.amDiskBlkio
  rw [hFp]
  simp only [hWrite, if_true]

private theorem blkio_read_eq (hFp : s.fp = some fp) (hRead : io.write = false) :
    s.amDiskBlkio io =
      if ((fp.seekSet io.offset).fread s.mem io.buf io.length).1 = 1 then
        some { s with
          fp := some ((fp.seekSet io.offset).fread s.mem io.buf io.length).2.1
          mem := ((fp.seekSet io.offset).fread s.mem io.buf io.length).2.2 }
      else none := by
  unfold Driver.amDiskBlkio
  rw [hFp]
  simp only [hRead, Bool.false_eq_true, if_false]

private theorem blkio_write (hHolds : Holds img s) (hIn : InRange s io) (h : Works s io)
    (hWrite : io.write = true) :
    ∃ s', s.amDiskBlkio io = some s' ∧ Transferred img s io s' ∧ Holds img s' := by
  obtain ⟨fp, hFp, hByte⟩ := hHolds
  have hPos : (fp.seekSet io.offset).pos = io.blkno.toNat * 512 := seek_pos h.1
  have hFit : (fp.seekSet io.offset).pos + io.bytes ≤ ByteFile.limit := by
    rw [hPos]
    exact write_fits h
  obtain ⟨hRet, -, hNew⟩ := ByteFile.fwrite_eq s.mem io.buf (bytes_pos hIn) hFit
  have hSeek : (fp.seekSet io.offset).byte = after img.byte s.log := by
    rw [ByteFile.seekSet_byte, hByte]
  have hFirst : io.offset.toNat = io.blkno.toNat * 512 := by
    rw [io.offset_eq h.1, Int.toNat_natCast]
  rw [blkio_write_eq hFp hWrite, io.length_eq h.2.1, if_pos hRet, hFirst]
  refine ⟨_, rfl, ?_, _, rfl, ?_⟩
  · unfold Transferred
    rw [if_pos hWrite]
    exact ⟨rfl, _, rfl, rfl, data_length h.2.1, fun i hi => data_get h.2.1 hi⟩
  · funext k
    rw [hNew, overwrite_after h.2.1 hSeek k hPos]

private theorem blkio_read (hHolds : Holds img s) (hIn : InRange s io) (h : Works s io)
    (hRead : io.write = false) :
    ∃ s', s.amDiskBlkio io = some s' ∧ Transferred img s io s' ∧ Holds img s' := by
  obtain ⟨fp, hFp, hByte⟩ := hHolds
  have hPos : (fp.seekSet io.offset).pos = io.blkno.toNat * 512 := seek_pos h.1
  have hSize : s.size = fp.size := by
    unfold Driver.size
    rw [hFp]
  have hFit : (fp.seekSet io.offset).pos + io.bytes ≤ (fp.seekSet io.offset).size := by
    have hEnd := h.2.2.resolve_left (by rw [hRead]; exact Bool.false_ne_true)
    rw [Nat.add_mul] at hEnd
    rw [hPos, ByteFile.seekSet_size, ← hSize]
    exact hEnd
  have hLen : io.bytes ≤ 2 ^ 64 := Nat.le_trans (Nat.le_add_left ..) hIn.buf
  have hRet := (ByteFile.fread_ret_iff s.mem io.buf (bytes_pos hIn)).mpr hFit
  rw [blkio_read_eq hFp hRead, io.length_eq h.2.1, if_pos hRet]
  refine ⟨_, rfl, ?_, _, rfl, ?_⟩
  · unfold Transferred
    rw [if_neg (by rw [hRead]; exact Bool.false_ne_true)]
    refine ⟨rfl, ?_, fun x hx => ByteFile.fread_outside hx⟩
    intro i hi
    show (ByteFile.fread _ s.mem io.buf io.bytes).2.2 _ = _
    rw [ByteFile.fread_inside hFit hi hLen, hPos, ByteFile.seekSet_byte, hByte]
  · show (ByteFile.fread _ s.mem io.buf io.bytes).2.1.byte = _
    rw [ByteFile.fread_byte, ByteFile.seekSet_byte, hByte]

/-- A request that works is served. -/
theorem blkio_works (hHolds : Holds img s) (hIn : InRange s io) (h : Works s io) :
    ∃ s', s.amDiskBlkio io = some s' ∧ Transferred img s io s' ∧ Holds img s' := by
  cases hWrite : io.write with
  | true => exact blkio_write hHolds hIn h hWrite
  | false => exact blkio_read hHolds hIn h hWrite

/-- A read that is served does not go beyond the file. -/
theorem works_of_served (hHolds : Holds img s) (hIn : InRange s io) (h : Serves img s io) :
    Works s io := by
  obtain ⟨fp, hFp, -⟩ := hHolds
  have hNo := (mul_blksz_iff hIn.blkno).mp h.offset
  have hCnt := (mul_blksz_iff (by have hOne := hIn.blkcnt; omega)).mp h.length
  refine ⟨hNo, hCnt, ?_⟩
  cases hWrite : io.write with
  | true => exact Or.inl rfl
  | false =>
      have hPos : (fp.seekSet io.offset).pos = io.blkno.toNat * 512 := seek_pos hNo
      have hSize : s.size = fp.size := by
        unfold Driver.size
        rw [hFp]
      obtain ⟨s', hDone, -⟩ := h.done
      have hRun : s.amDiskBlkio io = some s' := hDone
      rw [blkio_read_eq hFp hWrite, io.length_eq hCnt] at hRun
      obtain ⟨hRet, -⟩ := Option.ite_none_right_eq_some.mp hRun
      rw [ByteFile.fread_ret_iff s.mem io.buf (bytes_pos hIn), hPos, ByteFile.seekSet_size,
        ← hSize] at hRet
      rw [Nat.add_mul]
      exact Or.inr hRet

private theorem serves_iff (hHolds : Holds img s) (hIn : InRange s io) :
    Serves img s io ↔ Works s io := by
  constructor
  · exact works_of_served hHolds hIn
  · intro h
    obtain ⟨s', hRun, hDone, -⟩ := blkio_works hHolds hIn h
    refine ⟨(mul_blksz_iff hIn.blkno).mpr h.1, ?_, s', hRun, hDone⟩
    exact (mul_blksz_iff (by have hOne := hIn.blkcnt; omega)).mpr h.2.1

/-! ## Runs -/

private theorem holds_init (mem : ByteMem 64) : Holds img (.amDiskInit mem (some img)) := by
  refine ⟨_, rfl, ?_⟩
  show (img.seekEnd 0).byte = img.byte
  unfold ByteFile.seekEnd
  split <;> rfl

private theorem holds_next {a : Step} (hHolds : Holds img s) (h : Working s a)
    (hNext : s.next a = some s') : Holds img s' := by
  cases a with
  | store mem =>
      cases hNext
      exact hHolds
  | blkio io =>
      obtain ⟨t, hRun, -, hNew⟩ := blkio_works hHolds h.1 h.2
      cases hRun.symm.trans hNext
      exact hNew

private theorem holds_reachable (h : ((native img).restrict Working).Reachable s) :
    Holds img s := by
  apply h.inv
  · rintro _ ⟨mem, rfl⟩
    exact holds_init mem
  · intro s a s' hHolds hNext
    obtain ⟨hWorking, hNext'⟩ := System.restrict_next.mp hNext
    exact holds_next hHolds hWorking hNext'

/--
**Requests to the disk.** After any requests that worked, a request for blocks
that the disk reports succeeds, without an overflow, and transfers what the
earlier writes have made of the image, exactly when its block number and its
number of blocks are below 4194304 and, for a read, the file reaches the end
of its last block.
-/
theorem blkio_serves_iff (img : ByteFile) (s : Driver)
    (h : ((native img).restrict Working).Reachable s) (io : Blkio) (hIn : InRange s io) :
    Serves img s io ↔
      io.blkno.toNat < 2 ^ 22 ∧ io.blkcnt.toNat < 2 ^ 22 ∧
        (io.write = true ∨ (io.blkno.toNat + io.blkcnt.toNat) * 512 ≤ s.size) :=
  serves_iff (holds_reachable h) hIn

/-- An image of zeros. -/
def zeros (n : Nat) : ByteFile where
  size := n
  byte _ := 0#8
  pos := 0
  blank _ _ := rfl

/-- The disk after the initialisation. -/
def started (n : Nat) : Driver := .amDiskInit (fun _ => 0#8) (some (zeros n))

private theorem started_reachable (n : Nat) :
    ((native (zeros n)).restrict Working).Reachable (started n) :=
  ⟨_, ⟨_, rfl⟩, .refl _⟩

/-- A request for one block. -/
def oneBlock (write : Bool) (blkno : BitVec 32) : Blkio where
  write := write
  buf := 0x1000
  blkno := blkno
  blkcnt := 1

/-- The second of two blocks. -/
theorem blkio_serves_iff_second :
    Serves (zeros 1024) (started 1024) (oneBlock false 1) ↔
      (1#32).toNat < 2 ^ 22 ∧ (1#32).toNat < 2 ^ 22 ∧
        (false = true ∨ ((1#32).toNat + (1#32).toNat) * 512 ≤ (started 1024).size) :=
  blkio_serves_iff (zeros 1024) (started 1024) (started_reachable 1024) (oneBlock false 1)
    (by decide)

/-- An image of 100 bytes is reported as one block, which cannot be read. -/
theorem blkio_partial_block :
    ¬ ∀ (img : ByteFile) (s : Driver), ((native img).restrict Working).Reachable s →
      ∀ io, InRange s io → Serves img s io := by
  intro hAll
  have hIn : InRange (started 100) (oneBlock false 0) := by decide
  obtain ⟨s', hRun, -⟩ := (hAll _ _ (started_reachable 100) _ hIn).done
  have hFails : ((started 100).amDiskBlkio (oneBlock false 0)).isNone = true := by decide
  rw [show (started 100).amDiskBlkio (oneBlock false 0) = some s' from hRun] at hFails
  cases hFails

end AbstractMachine.Native.Disk
