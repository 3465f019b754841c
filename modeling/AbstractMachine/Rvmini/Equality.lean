import AbstractMachine.Rvmini.Bytes

/-!
# Tests for equality

`seqz` looks the bytes up in a table that says which of them is 0.  `seq` writes
1 at the place of a byte of the first operand, 0 at the place of the same byte
of the second, and looks what is at the first place: whatever was in the array
before does not matter.
-/

namespace AbstractMachine.Rvmini

open AbstractMachine.Lib ByteMem Function Macro Rv32i

variable {rodata sp : Word} {x : Reg → Word} {u : Nat → Word} {m : ByteMem 32} {ops : List Op}
  {rd rs1 rs2 : Reg} {v w : Word} {b : Nat}

/-! ## The result -/

/-- How many of the bytes differ. -/
def count (p0 p1 p2 p3 : Bool) : Nat := p0.toNat + p1.toNat + p2.toNat + p3.toNat

private theorem count_eq (p0 p1 p2 p3 : Bool) :
    flag p0 + flag p1 + flag p2 + flag p3 = BitVec.ofNat 32 (count p0 p1 p2 p3) := by
  cases p0 <;> cases p1 <;> cases p2 <;> cases p3 <;> rfl

theorem Ready.same_result (h : Ready rodata sp m) (p0 p1 p2 p3 : Bool) :
    (m (_same_result_table rodata + BitVec.ofNat 32 (count p0 p1 p2 p3))).setWidth 32 =
      flag (!(p0 || p1 || p2 || p3)) := by
  have hEntry : [1, 0, 0, 0, 0, 0, 0, 0][count p0 p1 p2 p3]? =
      some (BitVec.setWidth 8 (flag (!(p0 || p1 || p2 || p3)))) := by
    cases p0 <;> cases p1 <;> cases p2 <;> cases p3 <;> rfl
  rw [h.loaded.same_result _ _ hEntry]
  cases p0 <;> cases p1 <;> cases p2 <;> cases p3 <;> rfl

theorem Ready.outside_result (h : Ready rodata sp m) (p0 p1 p2 p3 : Bool) :
    ¬ InScratch sp (_same_result_table rodata + BitVec.ofNat 32 (count p0 p1 p2 p3)) := by
  have hLt : count p0 p1 p2 p3 < 5 := by
    cases p0 <;> cases p1 <;> cases p2 <;> cases p3 <;> decide
  apply h.outside_table (n := 256)
  unfold rodataSize
  omega

/-- The look into the table, with the number of the bytes that differ in `gp`. -/
theorem run_same_result (h : Ready rodata sp m) (rd : Reg) (p0 p1 p2 p3 : Bool)
    (hGp : read x .gp = BitVec.ofNat 32 (count p0 p1 p2 p3)) :
    ∃ y, runOps (la .tp (_same_result_table rodata) ++ (.add .tp .tp .gp :: .lbu rd 0 .tp :: ops))
        (core sp x u m) =
        runOps ops (core sp (write y rd (flag (!(p0 || p1 || p2 || p3)))) u m) ∧
      Agree [.tp] x y := by
  rw [run_la, run_add, run_lbu_outside _ (h.outside_result p0 p1 p2 p3), h.same_result]
  · exact ⟨_, rfl, Agree.refl.write_scratch (by simp) |>.write_scratch (by simp)⟩
  · rw [read_write_self (by decide), read_write_self (by decide), read_write_ne (by decide), hGp]
    exact BitVec.add_zero _

/-- Words are equal if no byte differs. -/
theorem bytes_same (v w : Word) :
    (!(byte v 0 != byte w 0 || byte v 1 != byte w 1 || byte v 2 != byte w 2 ||
      byte v 3 != byte w 3)) = (v == w) := by
  rw [Bool.eq_iff_iff, Bool.not_eq_true', beq_iff_eq]
  simp only [Bool.or_eq_false_iff, bne_eq_false_iff_eq]
  constructor
  · rintro ⟨⟨⟨h0, h1⟩, h2⟩, h3⟩
    exact word_ext h0 h1 h2 h3
  · rintro rfl
    exact ⟨⟨⟨rfl, rfl⟩, rfl⟩, rfl⟩

/-! ## `seqz` -/

/-- The bytes that are not 0 are the bytes that the table says 1 for. -/
theorem Ready.check_8bit_0 (h : Ready rodata sp m) (y : BitVec 8) :
    (m (_check_8bit_0_table rodata + y.setWidth 32)).setWidth 32 = flag (y != 0) := by
  have hEntry : (0 :: List.replicate 255 1 : List (BitVec 8))[y.toNat]? =
      some (BitVec.setWidth 8 (flag (y != 0))) := by
    have hLt := y.isLt
    by_cases h0 : y = 0
    · rw [h0]
      rfl
    · have hPos : y.toNat ≠ 0 := fun hEq => h0 (BitVec.eq_of_toNat_eq hEq)
      have hSucc : y.toNat - 1 + 1 = y.toNat := by omega
      rw [← hSucc, List.getElem?_cons_succ, List.getElem?_replicate, if_pos (by omega),
        bne_iff_ne.mpr h0]
      rfl
  rw [← setWidth_ofNat y, h.loaded.check_8bit_0 _ _ hEntry]
  cases y != 0 <;> rfl

theorem Ready.outside_check_8bit_0 (h : Ready rodata sp m) (y : BitVec 8) :
    ¬ InScratch sp (_check_8bit_0_table rodata + y.setWidth 32) := by
  have hy := y.isLt
  rw [← setWidth_ofNat y]
  apply h.outside_table (n := 264)
  unfold rodataSize
  omega

private theorem run_check_8bit_0 (h : Ready rodata sp m) (hSp : read x .sp = sp)
    (hTable : read x .s0 = _check_8bit_0_table rodata) (h0 : rd ≠ .zero) (hNe : rd ≠ .s0)
    (hb : b < 4) :
    runOps (check_8bit_0 .s0 rd b ++ ops) (core sp x u m) =
      runOps ops (core sp (write x rd (flag (byte (u VAR_A) b != 0))) u m) := by
  have hAddr : ∀ v : Word, v + BitVec.ofInt 32 0 = v := fun v => BitVec.add_zero v
  unfold Macro.check_8bit_0
  simp only [List.cons_append, List.nil_append]
  rw [run_lbu hSp (by decide) (by decide) hb, run_add,
    run_lbu_outside _ (h.outside_check_8bit_0 (byte (u VAR_A) b)),
    h.check_8bit_0, write_write, write_write]
  rw [read_write_self h0, read_write_self h0, read_write_ne hNe.symm, hTable, hAddr]

/-- How many of the bytes are not 0, in `gp`. -/
theorem run_zero_bytes (h : Ready rodata sp m) (hSp : read x .sp = sp)
    (hTable : read x .s0 = _check_8bit_0_table rodata) (hA : u VAR_A = v) :
    ∃ x', runOps (check_8bit_0 .s0 .gp 0 ++ (check_8bit_0 .s0 .tp 1 ++ (.add .gp .gp .tp ::
        (check_8bit_0 .s0 .tp 2 ++ (.add .gp .gp .tp :: (check_8bit_0 .s0 .tp 3 ++
        (.add .gp .gp .tp :: ops))))))) (core sp x u m) = runOps ops (core sp x' u m) ∧
      read x' .gp = BitVec.ofNat 32
        (count (byte v 0 != 0) (byte v 1 != 0) (byte v 2 != 0) (byte v 3 != 0)) ∧
      Agree [.gp, .tp] x x' := by
  rw [run_check_8bit_0 h hSp hTable (by decide) (by decide) (by decide),
    run_check_8bit_0 h (by simp [hSp]) (by simp [hTable]) (by decide) (by decide) (by decide),
    run_add,
    run_check_8bit_0 h (by simp [hSp]) (by simp [hTable]) (by decide) (by decide) (by decide),
    run_add,
    run_check_8bit_0 h (by simp [hSp]) (by simp [hTable]) (by decide) (by decide) (by decide),
    run_add]
  refine ⟨_, rfl, ?_, ?_⟩
  · rw [← count_eq]
    simp [hA]
  · intro r hr
    simp only [List.mem_cons, List.not_mem_nil, or_false, not_or] at hr
    simp only [read_write_ne hr.1, read_write_ne hr.2]

/-- `s0` is put back last, also when it is `rd`. -/
theorem run_seqz (h : Ready rodata sp m) (hSp : read x .sp = sp) (rd rs1 : Reg) (h2 : rd ≠ .sp)
    (ops : List Op) :
    ∃ y u', runOps (seqz rodata rd rs1 ++ ops) (core sp x u m) =
        runOps ops (core sp (write (write y rd (flag (read x rs1 == 0))) .s0 (read x .s0)) u' m) ∧
      Agree [.s0, .gp, .tp] x y := by
  have hAl := h.aligned
  unfold seqz PUSH POP
  simp only [List.append_assoc, List.cons_append, List.nil_append]
  rw [run_sw hSp hAl (by decide) (by decide), run_sw hSp hAl (by decide) (by decide), run_la]
  obtain ⟨x', hRun, hGp, hAgree⟩ := run_zero_bytes
    (x := write x .s0 (_check_8bit_0_table rodata)) (m := m) (v := read x rs1)
    (u := update (update u VAR_A (read x rs1)) 1 (read x .s0)) h (by simp [hSp]) (by simp)
    (by simp [VAR_A])
  obtain ⟨y, hResult, hTp⟩ := run_same_result h rd _ _ _ _ hGp
  have hZero := bytes_same (read x rs1) 0
  rw [hRun, hResult, ← hZero, run_lw _ hAl (by decide) (by decide), update_self]
  · refine ⟨y, _, rfl, ?_⟩
    intro r hr
    simp only [List.mem_cons, List.not_mem_nil, or_false, not_or] at hr
    rw [hTp r (by simp [hr]), hAgree r (by simp [hr]), read_write_ne hr.1]
  · rw [read_write_ne h2.symm, hTp _ (by decide), hAgree _ (by decide)]
    simp [hSp]

/-- What is put back is what `s0` was. -/
theorem seqz_s0 {c : Core} (h : Ready rodata (c.get .sp) c.mem)
    (hImp : Implements c [.gp, .tp] (seqz rodata .s0 rs1)
      (Rv32i.unary (fun v => flag (v == 0)) .s0 rs1)) :
    c.get .s0 = flag (c.get rs1 == 0) := by
  obtain ⟨c', hRun, hAlike⟩ := hImp
  rw [← core_slots (c.get .sp) c] at hRun
  obtain ⟨y, u', hSeqz, -⟩ := run_seqz (x := c.x)
    (u := fun n => load c.mem (c.get .sp - 28 + BitVec.ofNat 32 (28 - 4 * n)) 4) h rfl .s0 rs1
    (by decide) []
  have hEnd := Option.some.inj (hRun.symm.trans (run_all hSeqz))
  have hReg : c'.get .s0 = flag (c.get rs1 == 0) := hAlike.reg .s0 (by decide)
  rw [← hReg, hEnd, get_core, read_write_self (by decide)]
  rfl

/--
**Zero test.** `seqz` does what it says if and only if its result does not go
into `s0`, or `s0` holds that result already: what it puts back into `s0` at the
end is what `s0` was before.
-/
theorem seqz_implements_iff (rodata : Word) (c : Core) (h : Ready rodata (c.get .sp) c.mem)
    (rd rs1 : Reg) (h2 : rd ≠ .sp) :
    Implements c [.gp, .tp] (seqz rodata rd rs1)
        (Rv32i.unary (fun v => flag (v == 0)) rd rs1) ↔
      (rd = .s0 → c.get .s0 = flag (c.get rs1 == 0)) := by
  constructor
  · rintro hImp rfl
    exact seqz_s0 h hImp
  · intro hS0
    apply implements_set rfl
    intro u
    obtain ⟨y, u', hSeqz, hAgree⟩ := run_seqz (x := c.x) (u := u) h rfl rd rs1 h2 []
    refine ⟨_, u', run_all hSeqz, ?_⟩
    by_cases hRd : rd = .s0
    · subst hRd
      have hKept : write c.x .s0 (flag (c.get rs1 == 0)) = c.x := by
        rw [← hS0 rfl]
        exact write_read
      rw [write_write, hKept]
      exact hAgree.restore
    · rw [write_comm hRd]
      exact Agree.result hAgree.restore

/-- A pointer tested for null, with the result in `a0`. -/
theorem seqz_implements_iff_a0 :
    Implements (start 0x1000#32 0x80000#32) [.gp, .tp] (seqz 0x1000#32 .a0 .s0)
        (Rv32i.unary (fun v => flag (v == 0)) .a0 .s0) ↔
      (Reg.a0 = .s0 → (start 0x1000#32 0x80000#32).get .s0 =
        flag ((start 0x1000#32 0x80000#32).get .s0 == 0)) :=
  seqz_implements_iff 0x1000#32 (start 0x1000#32 0x80000#32)
    (ready_image (by decide) (by decide) (by decide)) .a0 .s0 (by decide)

/-- `seqz s0, a0` with 0 in both leaves 0 in `s0`. -/
theorem seqz_s0_wrong :
    Ready 0x1000#32 0x80000#32 (image 0x1000#32) ∧
      ¬ Implements (start 0x1000#32 0x80000#32) [.gp, .tp] (seqz 0x1000#32 .s0 .a0)
        (Rv32i.unary (fun v => flag (v == 0)) .s0 .a0) := by
  have hReady : Ready 0x1000#32 0x80000#32 (image 0x1000#32) :=
    ready_image (by decide) (by decide) (by decide)
  refine ⟨hReady, ?_⟩
  intro hImp
  have hBad : (start 0x1000#32 0x80000#32).get .s0 =
    flag ((start 0x1000#32 0x80000#32).get .a0 == 0) := seqz_s0 hReady hImp
  revert hBad
  decide

/-! ## `seq` -/

/-- Equal outside the array of `seq`. -/
def SameTables (rodata : Word) (m m' : ByteMem 32) : Prop :=
  ∀ y, ¬ InBlock (_check_same_array rodata) 256 y → m' y = m y

variable {m' : ByteMem 32}

theorem SameTables.update (h : SameTables rodata m m') (y v : BitVec 8) :
    SameTables rodata m
      (Function.update m' (_check_same_array rodata + y.setWidth 32) v) := by
  intro z hz
  rw [update_of_ne _, h z hz]
  rintro rfl
  apply hz
  rw [← setWidth_ofNat y]
  exact inBlock_offset y.isLt (by decide)

/-- The tables come after the array. -/
theorem SameTables.holds (h : SameTables rodata m m') {n : Nat} {bs : List (BitVec 8)}
    (hBytes : Holds m (rodata + BitVec.ofNat 32 n) bs) (hn : 256 ≤ n)
    (hFit : n + bs.length ≤ rodataSize) : Holds m' (rodata + BitVec.ofNat 32 n) bs := by
  intro k b hk
  have hLt : k < bs.length := (List.getElem?_eq_some_iff.mp hk).1
  unfold rodataSize at hFit
  rw [h _ _, hBytes k b hk]
  rw [next_symbol]
  unfold InBlock _check_same_array
  rw [toNat_offset (by omega)]
  omega

theorem SameTables.ready (hSame : SameTables rodata m m') (h : Ready rodata sp m) :
    Ready rodata sp m' where
  aligned := h.aligned
  apart := h.apart
  loaded :=
    { align := h.loaded.align
      same_result := hSame.holds h.loaded.same_result (by decide) (by decide)
      check_8bit_0 := hSame.holds h.loaded.check_8bit_0 (by decide)
        (by rw [length_zeroTable]; decide)
      slt1 := hSame.holds h.loaded.slt1 (by decide) (by decide)
      sltu1 := hSame.holds h.loaded.sltu1 (by decide) (by decide)
      or1 := hSame.holds h.loaded.or1 (by decide) (by decide)
      logic_shift := hSame.holds h.loaded.logic_shift (by decide)
        (by rw [length_lut]; decide) }

theorem SameTables.refl : SameTables rodata m m := fun _ _ => rfl

/-- The array after the bytes `y` and `z` have been compared. -/
def marked (rodata : Word) (m : ByteMem 32) (y z : BitVec 8) : ByteMem 32 :=
  Function.update (Function.update m (_check_same_array rodata + y.setWidth 32) 1)
    (_check_same_array rodata + z.setWidth 32) 0

theorem SameTables.marked (h : SameTables rodata m m') (y z : BitVec 8) :
    SameTables rodata m (marked rodata m' y z) := (h.update y 1).update z 0

/-- 1 is overwritten with 0 if and only if the bytes are equal. -/
theorem marked_at (y z : BitVec 8) :
    (marked rodata m y z (_check_same_array rodata + y.setWidth 32)).setWidth 32 =
      flag (y != z) := by
  unfold Rvmini.marked
  by_cases hEq : y = z
  · rw [hEq, update_self, bne_self_eq_false]
    rfl
  · have hNe : _check_same_array rodata + y.setWidth 32 ≠
        _check_same_array rodata + z.setWidth 32 := by
      intro hAddr
      apply hEq
      rw [← setWidth_byte y, (BitVec.add_right_inj _).mp hAddr, setWidth_byte]
    rw [update_of_ne hNe, update_self, bne_iff_ne.mpr hEq]
    rfl

theorem Ready.outside_check_same (h : Ready rodata sp m) (y : BitVec 8) :
    ¬ InScratch sp (_check_same_array rodata + y.setWidth 32) := by
  have hy := y.isLt
  rw [← setWidth_ofNat y]
  apply h.outside
  unfold rodataSize
  omega

private theorem run_check_8bit_same (h : Ready rodata sp m) (hSp : read x .sp = sp)
    (hTable : read x .s0 = _check_same_array rodata) (h0 : rd ≠ .zero) (h2 : rd ≠ .sp)
    (hS0 : rd ≠ .s0) (hTp : rd ≠ .tp) (hb : b < 4) :
    runOps (check_8bit_same .s0 rd b ++ ops) (core sp x u m) =
      runOps ops (core sp
        (write (write x .tp (_check_same_array rodata + (byte (u VAR_A) b).setWidth 32)) rd
          (flag (byte (u VAR_A) b != byte (u VAR_B) b)))
        u (marked rodata m (byte (u VAR_A) b) (byte (u VAR_B) b))) := by
  have hAddr : ∀ v : Word, v + BitVec.ofInt 32 0 = v := fun v => BitVec.add_zero v
  have hOutA := h.outside_check_same (byte (u VAR_A) b)
  have hOutB := h.outside_check_same (byte (u VAR_B) b)
  unfold Macro.check_8bit_same
  simp only [List.cons_append, List.nil_append]
  rw [run_lbu hSp (by decide) (by decide) hb, run_add, run_addi, run_sb_outside _ hOutA,
    run_lbu (by simp [hSp, h2.symm]) (by decide) (by decide) hb, run_add,
    run_sb_outside _ hOutB, run_lbu_outside _ hOutA]
  · have hMem : Function.update (Function.update m
          (_check_same_array rodata + (byte (u VAR_A) b).setWidth 32) 1)
          (_check_same_array rodata + (byte (u VAR_B) b).setWidth 32) 0 =
        marked rodata m (byte (u VAR_A) b) (byte (u VAR_B) b) := rfl
    have hOne : (0 + BitVec.ofInt 32 1 : Word).setWidth 8 = 1 := rfl
    have hNone : (0 : Word).setWidth 8 = 0 := rfl
    simp only [read_write_self h0, read_write_ne hS0.symm, read_zero, write_write, hTable, hOne,
      hNone, hMem, marked_at]
    rw [write_comm hTp, write_write]
  · simp [hTp.symm, hS0.symm, h0, hTable]
  · simp [hS0.symm, h0, hTable]
  · simp [hTp.symm, hS0.symm, h0, hTable]

/-- How many of the bytes differ, in `gp`. -/
theorem run_same_bytes (h : Ready rodata sp m) (hSp : read x .sp = sp)
    (hTable : read x .s0 = _check_same_array rodata) (hA : u VAR_A = v) (hB : u VAR_B = w) :
    ∃ x' m', runOps (check_8bit_same .s0 .gp 0 ++ (check_8bit_same .s0 .s1 1 ++
        (.add .gp .gp .s1 :: (check_8bit_same .s0 .s1 2 ++ (.add .gp .gp .s1 ::
        (check_8bit_same .s0 .s1 3 ++ (.add .gp .gp .s1 :: ops))))))) (core sp x u m) =
        runOps ops (core sp x' u m') ∧
      read x' .gp = BitVec.ofNat 32 (count (byte v 0 != byte w 0) (byte v 1 != byte w 1)
        (byte v 2 != byte w 2) (byte v 3 != byte w 3)) ∧
      Agree [.s1, .gp, .tp] x x' ∧ SameTables rodata m m' := by
  have hSame : SameTables rodata m m := SameTables.refl
  have h0 := hSame.marked (byte v 0) (byte w 0)
  have h1 := h0.marked (byte v 1) (byte w 1)
  have h2 := h1.marked (byte v 2) (byte w 2)
  have h3 := h2.marked (byte v 3) (byte w 3)
  rw [run_check_8bit_same h hSp hTable (by decide) (by decide) (by decide) (by decide) (by decide),
    hA, hB,
    run_check_8bit_same (h0.ready h) (by simp [hSp]) (by simp [hTable]) (by decide) (by decide)
      (by decide) (by decide) (by decide), run_add, hA, hB,
    run_check_8bit_same (h1.ready h) (by simp [hSp]) (by simp [hTable]) (by decide) (by decide)
      (by decide) (by decide) (by decide), run_add, hA, hB,
    run_check_8bit_same (h2.ready h) (by simp [hSp]) (by simp [hTable]) (by decide) (by decide)
      (by decide) (by decide) (by decide), run_add, hA, hB]
  refine ⟨_, _, rfl, ?_, ?_, h3⟩
  · rw [← count_eq]
    simp
  · intro r hr
    simp only [List.mem_cons, List.not_mem_nil, or_false, not_or] at hr
    simp only [read_write_ne hr.1, read_write_ne hr.2.1, read_write_ne hr.2.2]

/-- With `tp` as its destination, as the branches use it. -/
theorem run_seq (h : Ready rodata sp m) (hSp : read x .sp = sp) (rs1 rs2 : Reg) (ops : List Op) :
    ∃ y u' m', runOps (seq rodata .tp rs1 rs2 ++ ops) (core sp x u m) =
        runOps ops (core sp (write y .tp (flag (read x rs1 == read x rs2))) u' m') ∧
      Agree [.gp, .tp] x y ∧ SameTables rodata m m' := by
  have hAl := h.aligned
  unfold seq PUSH POP
  simp only [List.append_assoc, List.cons_append, List.nil_append]
  rw [run_sw hSp hAl (by decide) (by decide), run_sw hSp hAl (by decide) (by decide),
    run_sw hSp hAl (by decide) (by decide), run_sw hSp hAl (by decide) (by decide), run_la]
  obtain ⟨x', m', hRun, hGp, hAgree, hSame⟩ := run_same_bytes
    (x := write x .s0 (_check_same_array rodata)) (m := m) (v := read x rs1) (w := read x rs2)
    (u := update (update (update (update u VAR_A (read x rs1)) VAR_B (read x rs2)) 1 (read x .s0))
      2 (read x .s1)) h (by simp [hSp]) (by simp) (by simp [VAR_A, VAR_B]) (by simp [VAR_B])
  obtain ⟨y, hResult, hTp⟩ := run_same_result (hSame.ready h) .tp _ _ _ _ hGp
  have hOld : Agree [.s1, .s0, .gp, .tp] x y := by
    intro r hr
    simp only [List.mem_cons, List.not_mem_nil, or_false, not_or] at hr
    rw [hTp r (by simp [hr]), hAgree r (by simp [hr]), read_write_ne hr.2.1]
  have hSp' : read y .sp = sp := by rw [hOld _ (by decide), hSp]
  rw [hRun, hResult, bytes_same, run_lw (by simp [hSp']) hAl (by decide) (by decide),
    run_lw (by simp [hSp']) hAl (by decide) (by decide), update_self, update_of_ne (by decide),
    update_self, write_comm (r := .tp) (s := .s1) (by decide),
    write_comm (r := .tp) (s := .s0) (by decide)]
  exact ⟨_, _, _, rfl, hOld.restore.restore, hSame⟩

end AbstractMachine.Rvmini
