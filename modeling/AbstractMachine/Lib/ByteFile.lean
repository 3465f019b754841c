import AbstractMachine.Lib.ByteMem

/-!
# Byte files

A regular file as `stdio` shows it when it is open for reading and writing: its
bytes and a position.  A transfer is one item of `n` bytes, and its result the
number of items that were complete.
-/

namespace AbstractMachine.Lib

/-- A file of bytes with its position. -/
structure ByteFile where
  size : Nat
  byte : Nat → BitVec 8
  pos : Nat
  /-- There is nothing past the end; a write there leaves a gap of zeros. -/
  blank : ∀ k, size ≤ k → byte k = 0#8

namespace ByteFile

variable {w : Nat}

/-- No file has a byte at this offset: an offset is a signed word of 64 bits. -/
def limit : Nat := 2 ^ 63 - 1

/-- `fseek` with `SEEK_SET`: a negative offset is refused. -/
def seekSet (f : ByteFile) (off : Int) : ByteFile :=
  if off < 0 then f else { f with pos := off.toNat }

/-- `fseek` with `SEEK_END`. -/
def seekEnd (f : ByteFile) (off : Int) : ByteFile :=
  if (f.size : Int) + off < 0 then f else { f with pos := (f.size + off).toNat }

/-- Back to the first byte. -/
def rewind (f : ByteFile) : ByteFile := { f with pos := 0 }

/-- What a read of `n` bytes finds. -/
def available (f : ByteFile) (n : Nat) : Nat := min n (f.size - f.pos)

/-- `fread` of one item of `n` bytes into `buf`. -/
def fread (f : ByteFile) (mem : ByteMem w) (buf : BitVec w) (n : Nat) :
    Nat × ByteFile × ByteMem w :=
  (if 0 < n ∧ f.available n = n then 1 else 0,
    { f with pos := f.pos + f.available n },
    fun x => if ByteMem.InBlock buf (f.available n) x then f.byte (f.pos + (x - buf).toNat)
      else mem x)

/-- What a write of `n` bytes finds room for. -/
def room (f : ByteFile) (n : Nat) : Nat := min n (limit - f.pos)

/-- The bytes after `n` of them have been written at the position. -/
def overwrite (f : ByteFile) (mem : ByteMem w) (buf : BitVec w) (n k : Nat) : BitVec 8 :=
  if f.pos ≤ k ∧ k < f.pos + n then mem (buf + BitVec.ofNat w (k - f.pos)) else f.byte k

theorem overwrite_blank (f : ByteFile) (mem : ByteMem w) (buf : BitVec w) {n k : Nat}
    (hk : max f.size (f.pos + n) ≤ k) : f.overwrite mem buf n k = 0#8 := by
  unfold overwrite
  rw [if_neg (by omega)]
  exact f.blank k (by omega)

/-- `fwrite` of one item of `n` bytes from `buf`. -/
def fwrite (f : ByteFile) (mem : ByteMem w) (buf : BitVec w) (n : Nat) : Nat × ByteFile :=
  if f.room n = 0 then (0, f)
  else
    (if f.room n = n then 1 else 0,
      { size := max f.size (f.pos + f.room n)
        byte := f.overwrite mem buf (f.room n)
        pos := f.pos + f.room n
        blank := fun _ hk => f.overwrite_blank mem buf hk })

variable {f : ByteFile} {mem : ByteMem w} {buf : BitVec w} {n k : Nat} {off : Int}

theorem seekSet_pos (h : 0 ≤ off) : (f.seekSet off).pos = off.toNat := by
  unfold seekSet
  rw [if_neg (by omega)]

@[simp] theorem seekSet_size : (f.seekSet off).size = f.size := by
  unfold seekSet
  split <;> rfl

@[simp] theorem seekSet_byte : (f.seekSet off).byte = f.byte := by
  unfold seekSet
  split <;> rfl

/-! ## Reading -/

/-- A read is complete when the file reaches that far. -/
theorem fread_ret_iff (mem : ByteMem w) (buf : BitVec w) (hn : 0 < n) :
    (f.fread mem buf n).1 = 1 ↔ f.pos + n ≤ f.size := by
  unfold fread available
  show (if _ then 1 else 0) = 1 ↔ _
  by_cases hFit : f.pos + n ≤ f.size
  · have hMin : min n (f.size - f.pos) = n := by omega
    simp [hn, hMin, hFit]
  · have hMin : min n (f.size - f.pos) ≠ n := by omega
    simp [hMin, hFit]

theorem fread_byte : (f.fread mem buf n).2.1.byte = f.byte := rfl

theorem fread_inside (hFit : f.pos + n ≤ f.size) {i : Nat} (hi : i < n) (hn : n ≤ 2 ^ w) :
    (f.fread mem buf n).2.2 (buf + BitVec.ofNat w i) = f.byte (f.pos + i) := by
  have hAll : f.available n = n := Nat.min_eq_left (by omega)
  unfold fread
  show (if _ then _ else _) = _
  rw [hAll, if_pos (ByteMem.inBlock_offset hi hn), ByteMem.toNat_offset (by omega)]

theorem fread_outside {x : BitVec w} (hx : ¬ ByteMem.InBlock buf n x) :
    (f.fread mem buf n).2.2 x = mem x := by
  apply if_neg
  intro hIn
  unfold ByteMem.InBlock at hx hIn
  have hLe : f.available n ≤ n := Nat.min_le_left ..
  omega

/-! ## Writing -/

theorem room_eq (hFit : f.pos + n ≤ limit) : f.room n = n := Nat.min_eq_left (by omega)

theorem fwrite_eq (mem : ByteMem w) (buf : BitVec w) (hn : 0 < n) (hFit : f.pos + n ≤ limit) :
    (f.fwrite mem buf n).1 = 1 ∧
      (f.fwrite mem buf n).2.size = max f.size (f.pos + n) ∧
      (f.fwrite mem buf n).2.byte = f.overwrite mem buf n := by
  unfold fwrite
  rw [if_neg (by rw [room_eq hFit]; omega)]
  simp only [room_eq hFit, if_true, and_self]

end ByteFile

end AbstractMachine.Lib
