import AbstractMachine.Lib.WordBytes
import AbstractMachine.Rvmini.Macro

/-!
# The tables

The file of `gen-lut.c` and the small tables of `inst-replace.h`, as lists of
bytes, and what a program finds when it looks into them.
-/

namespace AbstractMachine.Rvmini

open AbstractMachine.Lib

/-! ## `gen-lut.c` -/

/-- `gen_table`: `row` rows of `col` entries, each of `entry_size` bytes. -/
def gen_table (row col entry_size : Nat) (expr : Nat → Nat → Word) : List (BitVec 8) :=
  (List.range row).flatMap fun j =>
    (List.range col).flatMap fun i => (List.range entry_size).map (byte (expr j i))

/-- The `and` of the row and the column. -/
def and8Bytes : List (BitVec 8) :=
  gen_table 256 256 1 fun j i => BitVec.ofNat 32 j &&& BitVec.ofNat 32 i

/-- The `or` of the row and the column. -/
def or8Bytes : List (BitVec 8) :=
  gen_table 256 256 1 fun j i => BitVec.ofNat 32 j ||| BitVec.ofNat 32 i

/-- The `xor` of the row and the column. -/
def xor8Bytes : List (BitVec 8) :=
  gen_table 256 256 1 fun j i => BitVec.ofNat 32 j ^^^ BitVec.ofNat 32 i

/-- The column, shifted left by the row. -/
def sll8Bytes : List (BitVec 8) :=
  gen_table 32 256 4 fun j i => BitVec.ofNat 32 i <<< j

/-- The column as the highest byte, shifted right by the row. -/
def srl8Bytes : List (BitVec 8) :=
  gen_table 32 256 4 fun j i => (BitVec.ofNat 32 i <<< 24) >>> j

/-- The same with the sign. -/
def sra8Bytes : List (BitVec 8) :=
  gen_table 32 256 4 fun j i => (BitVec.ofNat 32 i <<< 24).sshiftRight j

/-- The file, as `main` writes it. -/
def lut : List (BitVec 8) :=
  and8Bytes ++ or8Bytes ++ xor8Bytes ++ sll8Bytes ++ srl8Bytes ++ sra8Bytes

/-! ## What is in memory -/

/-- The bytes `bs` are in memory from `a` on. -/
def Holds (m : ByteMem 32) (a : Word) (bs : List (BitVec 8)) : Prop :=
  ∀ k b, bs[k]? = some b → m (a + BitVec.ofNat 32 k) = b

/-- The bytes of `.rodata` up to the end of the file. -/
def rodataSize : Nat := 295680

/-- The tables are in memory.  Any bytes may be in `_check_same_array`. -/
structure Loaded (rodata : Word) (m : ByteMem 32) : Prop where
  align : rodata.toNat % 256 = 0
  same_result : Holds m (_same_result_table rodata) [1, 0, 0, 0, 0, 0, 0, 0]
  check_8bit_0 : Holds m (_check_8bit_0_table rodata) (0 :: List.replicate 255 1)
  slt1 : Holds m (_slt1_table rodata) [0, 1, 0, 0, 1, 1, 0, 1]
  sltu1 : Holds m (_sltu1_table rodata) [0, 1, 1, 1, 0, 0, 0, 1]
  or1 : Holds m (_or1_table rodata) [0, 1, 1, 1]
  logic_shift : Holds m (_logic_shift_table rodata) lut

variable {m : ByteMem 32} {a : Word} {xs ys zs : List (BitVec 8)}

theorem Holds.left (h : Holds m a (xs ++ ys)) : Holds m a xs := by
  intro k b hk
  apply h k b
  have hLt : k < xs.length := (List.getElem?_eq_some_iff.mp hk).1
  rw [List.getElem?_append_left hLt, hk]

theorem Holds.right (h : Holds m a (xs ++ ys)) :
    Holds m (a + BitVec.ofNat 32 xs.length) ys := by
  intro k b hk
  rw [BitVec.add_assoc, ← BitVec.ofNat_add]
  apply h
  rw [List.getElem?_append_right (Nat.le_add_right _ _), Nat.add_sub_cancel_left, hk]

/-! ## Entries -/

variable {α : Type} {f : Nat → List α} {n k i j : Nat}

private theorem length_flatMap_range (h : ∀ j, (f j).length = k) (n : Nat) :
    ((List.range n).flatMap f).length = n * k := by
  induction n with
  | zero => simp
  | succ n ih =>
      rw [List.range_succ, List.flatMap_append, List.length_append, ih]
      simp [h, Nat.succ_mul]

/-- Rows of one length: element `i` of row `j`. -/
theorem getElem?_flatMap_range (h : ∀ j, (f j).length = k) (hj : j < n) (hi : i < k) :
    ((List.range n).flatMap f)[j * k + i]? = (f j)[i]? := by
  induction n with
  | zero => omega
  | succ n ih =>
      have hLen := length_flatMap_range h n
      rw [List.range_succ, List.flatMap_append]
      by_cases hLast : j = n
      · rw [hLast, List.getElem?_append_right (by omega), hLen]
        simp
      · have hLt : j < n := by omega
        have hRow : (j + 1) * k ≤ n * k := Nat.mul_le_mul_right k hLt
        rw [Nat.succ_mul] at hRow
        rw [List.getElem?_append_left (by omega)]
        exact ih hLt

variable {row col size : Nat} {expr : Nat → Nat → Word}

private theorem length_gen_table : (gen_table row col size expr).length = row * (col * size) :=
  length_flatMap_range (fun _ => length_flatMap_range (fun _ => by simp) col) row

/-- Byte `k` of the entry in column `i` of row `j`. -/
theorem Holds.entry (h : Holds m a (gen_table row col size expr)) (hj : j < row) (hi : i < col)
    (hk : k < size) :
    m (a + BitVec.ofNat 32 (j * (col * size) + (i * size + k))) = byte (expr j i) k := by
  apply h
  have hCol : i * size + k < col * size := by
    have hLe : (i + 1) * size ≤ col * size := Nat.mul_le_mul_right size hi
    rw [Nat.succ_mul] at hLe
    omega
  have hEntry : ∀ j i, ((List.range size).map (byte (expr j i))).length = size := by simp
  unfold gen_table
  rw [getElem?_flatMap_range (fun _ => length_flatMap_range (hEntry _) col) hj hCol,
    getElem?_flatMap_range (hEntry j) hi hk]
  simp [hk]

/-- A table whose entries are words. -/
theorem Holds.word (h : Holds m a (gen_table row col 4 expr)) (hj : j < row) (hi : i < col) :
    ByteMem.load m (a + BitVec.ofNat 32 (j * (col * 4) + i * 4)) 4 = expr j i := by
  apply load_eq (n := 4)
  intro b hb
  rw [BitVec.add_assoc, ← BitVec.ofNat_add, Nat.add_assoc]
  exact h.entry hj hi hb

/-! ## The tables of the file -/

/-- What a table of bytes says about its row `a` and its column `b`. -/
def Logic8 (m : ByteMem 32) (table : Word) (op : BitVec 8 → BitVec 8 → BitVec 8) : Prop :=
  ∀ a b : BitVec 8, m (table + ofBytes 0 0 a b) = op a b

/-- What a table of words says about the amount `j` and the byte `x`. -/
def Shift8 (m : ByteMem 32) (table : Word) (op : Nat → Word → Word) : Prop :=
  ∀ j (x : BitVec 8), j < 32 →
    ByteMem.load m (table + BitVec.ofNat 32 (j * 1024) + (x.setWidth 32 <<< 2)) 4 =
      op j (x.setWidth 32)

theorem setWidth_ofNat (x : BitVec 8) : BitVec.ofNat 32 x.toNat = x.setWidth 32 :=
  BitVec.eq_of_toNat_eq (by simp)

theorem ofBytes_low (a b : BitVec 8) :
    ofBytes 0 0 a b = BitVec.ofNat 32 (a.toNat * (256 * 1) + (b.toNat * 1 + 0)) := by
  have ha := a.isLt
  have hb := b.isLt
  apply BitVec.eq_of_toNat_eq
  unfold ofBytes
  rw [BitVec.toNat_append, BitVec.toNat_append, ← Nat.shiftLeft_add_eq_or_of_lt hb,
    ← Nat.shiftLeft_add_eq_or_of_lt ha, Nat.shiftLeft_eq, Nat.shiftLeft_eq, BitVec.toNat_ofNat]
  simp
  omega

theorem Holds.logic8 {table : Word} (op : Word → Word → Word)
    {op8 : BitVec 8 → BitVec 8 → BitVec 8}
    (h : Holds m table
      (gen_table 256 256 1 fun j i => op (BitVec.ofNat 32 j) (BitVec.ofNat 32 i)))
    (hOp : ∀ a b : BitVec 8, byte (op (a.setWidth 32) (b.setWidth 32)) 0 = op8 a b) :
    Logic8 m table op8 := by
  intro a b
  rw [ofBytes_low, h.entry a.isLt b.isLt (by decide), setWidth_ofNat, setWidth_ofNat, hOp]

theorem Holds.shift8 {table : Word} (op : Nat → Word → Word)
    (h : Holds m table (gen_table 32 256 4 fun j i => op j (BitVec.ofNat 32 i))) :
    Shift8 m table op := by
  intro j x hj
  have hCol : x.setWidth 32 <<< 2 = BitVec.ofNat 32 (x.toNat * 4) := by
    apply BitVec.eq_of_toNat_eq
    simp [Nat.shiftLeft_eq]
  rw [hCol, BitVec.add_assoc, ← BitVec.ofNat_add, h.word hj x.isLt, setWidth_ofNat]

/-- The table after others. -/
theorem Holds.table (h : Holds m a (xs ++ ys)) (sym : Word)
    (hLen : xs.length = n) (hSym : a + BitVec.ofNat 32 n = sym) : Holds m sym ys := by
  rw [← hSym, ← hLen]
  exact h.right

variable {rodata : Word}

/-- One table after the other. -/
theorem Loaded.tables (h : Loaded rodata m) :
    Holds m (_and8_table rodata) and8Bytes ∧ Holds m (_or8_table rodata) or8Bytes ∧
    Holds m (_xor8_table rodata) xor8Bytes ∧ Holds m (_sll8_table rodata) sll8Bytes ∧
    Holds m (_srl8_table rodata) srl8Bytes ∧ Holds m (_sra8_table rodata) sra8Bytes := by
  have hAnd := h.logic_shift
  simp only [lut, List.append_assoc] at hAnd
  have hOr := hAnd.table (_or8_table rodata) length_gen_table rfl
  have hXor := hOr.table (_xor8_table rodata) length_gen_table rfl
  have hSll := hXor.table (_sll8_table rodata) length_gen_table rfl
  have hSrl := hSll.table (_srl8_table rodata) length_gen_table rfl
  have hSra := hSrl.table (_sra8_table rodata) length_gen_table rfl
  exact ⟨hAnd.left, hOr.left, hXor.left, hSll.left, hSrl.left, hSra⟩

theorem Loaded.and8 (h : Loaded rodata m) : Logic8 m (_and8_table rodata) (· &&& ·) := by
  apply h.tables.1.logic8 (· &&& ·)
  intro a b
  rw [byte_and, byte_setWidth_zero a (by decide), byte_setWidth_zero b (by decide)]

theorem Loaded.or8 (h : Loaded rodata m) : Logic8 m (_or8_table rodata) (· ||| ·) := by
  apply h.tables.2.1.logic8 (· ||| ·)
  intro a b
  rw [byte_or, byte_setWidth_zero a (by decide), byte_setWidth_zero b (by decide)]

theorem Loaded.xor8 (h : Loaded rodata m) : Logic8 m (_xor8_table rodata) (· ^^^ ·) := by
  apply h.tables.2.2.1.logic8 (· ^^^ ·)
  intro a b
  rw [byte_xor, byte_setWidth_zero a (by decide), byte_setWidth_zero b (by decide)]

theorem Loaded.sll8 (h : Loaded rodata m) :
    Shift8 m (_sll8_table rodata) fun j x => x <<< j :=
  h.tables.2.2.2.1.shift8 fun j x => x <<< j

theorem Loaded.srl8 (h : Loaded rodata m) :
    Shift8 m (_srl8_table rodata) fun j x => (x <<< 24) >>> j :=
  h.tables.2.2.2.2.1.shift8 fun j x => (x <<< 24) >>> j

theorem Loaded.sra8 (h : Loaded rodata m) :
    Shift8 m (_sra8_table rodata) fun j x => (x <<< 24).sshiftRight j :=
  h.tables.2.2.2.2.2.shift8 fun j x => (x <<< 24).sshiftRight j

/-! ## The memory that a program starts with -/

/-- The section, up to the end of the file. -/
def rodataBytes : List (BitVec 8) :=
  List.replicate 256 0 ++ ([1, 0, 0, 0, 0, 0, 0, 0] ++ ((0 :: List.replicate 255 1)
    ++ ([0, 1, 0, 0, 1, 1, 0, 1] ++ ([0, 1, 1, 1, 0, 0, 0, 1] ++ ([0, 1, 1, 1]
    ++ (List.replicate 228 0 ++ lut))))))

/-- A memory with the section at `rodata`. -/
def image (rodata : Word) : ByteMem 32 := fun a => rodataBytes.getD (a - rodata).toNat 0

theorem length_lut : lut.length = 294912 := by
  unfold lut and8Bytes or8Bytes xor8Bytes sll8Bytes srl8Bytes sra8Bytes
  simp only [List.length_append, length_gen_table]

theorem length_zeroTable : (0 :: List.replicate 255 1 : List (BitVec 8)).length = 256 := by
  rw [List.length_cons, List.length_replicate]

private theorem length_rodataBytes : rodataBytes.length = rodataSize := by
  unfold rodataBytes
  rw [List.length_append, List.length_append, List.length_append, List.length_append,
    List.length_append, List.length_append, List.length_append, length_zeroTable, length_lut,
    List.length_replicate, List.length_replicate]
  rfl

private theorem holds_image : Holds (image rodata) rodata rodataBytes := by
  intro k b hk
  have hLt : k < rodataBytes.length := (List.getElem?_eq_some_iff.mp hk).1
  rw [length_rodataBytes, rodataSize] at hLt
  unfold image
  rw [ByteMem.add_sub_self, BitVec.toNat_ofNat, Nat.mod_eq_of_lt (by omega),
    List.getD_eq_getElem?_getD, hk]
  rfl

theorem next_symbol (a : Word) (n k : Nat) :
    a + BitVec.ofNat 32 n + BitVec.ofNat 32 k = a + BitVec.ofNat 32 (n + k) := by
  rw [BitVec.add_assoc, ← BitVec.ofNat_add]

theorem loaded_image (hAlign : rodata.toNat % 256 = 0) : Loaded rodata (image rodata) := by
  have hAll : Holds (image rodata) rodata rodataBytes := holds_image
  unfold rodataBytes at hAll
  have hSame := hAll.table (_same_result_table rodata) List.length_replicate rfl
  have hZero := hSame.table (_check_8bit_0_table rodata) rfl (next_symbol rodata 256 8)
  have hSlt := hZero.table (_slt1_table rodata) length_zeroTable (next_symbol rodata 264 256)
  have hSltu := hSlt.table (_sltu1_table rodata) rfl (next_symbol rodata 520 8)
  have hOr := hSltu.table (_or1_table rodata) rfl (next_symbol rodata 528 8)
  have hPad := hOr.table (rodata + BitVec.ofNat 32 540) rfl (next_symbol rodata 536 4)
  have hLut := hPad.table (_logic_shift_table rodata) List.length_replicate
    (next_symbol rodata 540 228)
  exact ⟨hAlign, hSame.left, hZero.left, hSlt.left, hSltu.left, hOr.left, hLut⟩

end AbstractMachine.Rvmini
