import AbstractMachine.Rvmini.Bytes

/-!
# Comparisons

The result is looked up in a table of eight bytes, at the signs of the operands
and of their difference.
-/

namespace AbstractMachine.Rvmini

open AbstractMachine.Lib ByteMem Function Macro Rv32i

variable {rodata sp : Word} {x : Reg → Word} {u : Nat → Word} {m : ByteMem 32} {ops : List Op}
  {rd rs1 rs2 : Reg} {a b : Word}

/-! ## The index -/

/-- The place in the table of three signs. -/
def signs (sa sb sr : Bool) : Nat := 4 * sa.toNat + 2 * sb.toNat + sr.toNat

private theorem signs_eq (sa sb sr : Bool) :
    (((flag sa <<< 1) + flag sb) <<< 1) + flag sr = BitVec.ofNat 32 (signs sa sb sr) := by
  cases sa <;> cases sb <;> cases sr <;> rfl

/-- If the signs differ, the difference says nothing. -/
theorem slt_msb (a b : Word) : a.slt b = if a.msb = b.msb then (a - b).msb else a.msb := by
  have ha := a.isLt
  have hb := b.isLt
  simp only [BitVec.slt_eq_decide, BitVec.msb_eq_decide, BitVec.toInt_eq_toNat_cond,
    BitVec.toNat_sub, decide_eq_decide]
  by_cases hSame : 2 ^ (32 - 1) ≤ a.toNat ↔ 2 ^ (32 - 1) ≤ b.toNat
  · rw [if_pos hSame, decide_eq_decide]
    omega
  · rw [if_neg hSame, decide_eq_decide]
    omega

private theorem ult_msb (a b : Word) : a.ult b = if a.msb = b.msb then (a - b).msb else b.msb := by
  have ha := a.isLt
  have hb := b.isLt
  simp only [BitVec.ult_eq_decide, BitVec.msb_eq_decide, BitVec.toNat_sub, decide_eq_decide]
  by_cases hSame : 2 ^ (32 - 1) ≤ a.toNat ↔ 2 ^ (32 - 1) ≤ b.toNat
  · rw [if_pos hSame, decide_eq_decide]
    omega
  · rw [if_neg hSame, decide_eq_decide]
    omega

/-- What a table of eight bytes says about the signs of two words and of their
difference. -/
structure SignTable (sp : Word) (m : ByteMem 32) (lut : Word) (op : Word → Word → Word) :
    Prop where
  table : ∀ a b, (m (lut + BitVec.ofNat 32 (signs a.msb b.msb (a - b).msb))).setWidth 32 = op a b
  outside : ∀ sa sb sr, ¬ InScratch sp (lut + BitVec.ofNat 32 (signs sa sb sr))

private theorem signs_lt (sa sb sr : Bool) : signs sa sb sr < 8 := by
  cases sa <;> cases sb <;> cases sr <;> decide

theorem Ready.slt1 (h : Ready rodata sp m) :
    SignTable sp m (_slt1_table rodata) Rv32i.slt where
  table := by
    intro a b
    have hEntry : [0, 1, 0, 0, 1, 1, 0, 1][signs a.msb b.msb (a - b).msb]? =
        some (BitVec.setWidth 8 (flag (a.slt b))) := by
      rw [slt_msb]
      cases a.msb <;> cases b.msb <;> cases (a - b).msb <;> rfl
    rw [h.loaded.slt1 _ _ hEntry]
    unfold Rv32i.slt
    cases a.slt b <;> rfl
  outside := fun sa sb sr => h.outside_table (n := 520)
    (Nat.lt_of_lt_of_le (Nat.add_lt_add_left (signs_lt sa sb sr) 520) (by decide))

theorem Ready.sltu1 (h : Ready rodata sp m) :
    SignTable sp m (_sltu1_table rodata) Rv32i.sltu where
  table := by
    intro a b
    have hEntry : [0, 1, 1, 1, 0, 0, 0, 1][signs a.msb b.msb (a - b).msb]? =
        some (BitVec.setWidth 8 (flag (a.ult b))) := by
      rw [ult_msb]
      cases a.msb <;> cases b.msb <;> cases (a - b).msb <;> rfl
    rw [h.loaded.sltu1 _ _ hEntry]
    unfold Rv32i.sltu
    cases a.ult b <;> rfl
  outside := fun sa sb sr => h.outside_table (n := 528)
    (Nat.lt_of_lt_of_le (Nat.add_lt_add_left (signs_lt sa sb sr) 528) (by decide))

/-! ## The macro -/

/-- The three signs, in `gp`. -/
theorem run_signs (h : Ready rodata sp m) (hSp : read x .sp = sp) (ha : read x .s0 = a)
    (hb : read x .s1 = b) :
    ∃ x' u', runOps (msb .gp .s0 ++ (slliSelf .gp 1 ++ (msb .tp .s1 ++ (.add .gp .gp .tp ::
        (slliSelf .gp 1 ++ (sub rodata .tp .s0 .s1 ++ (msb .tp .tp ++ (.add .gp .gp .tp ::
        ops)))))))) (core sp x u m) = runOps ops (core sp x' u' m) ∧
      read x' .gp = BitVec.ofNat 32 (signs a.msb b.msb (a - b).msb) ∧
      Agree [.gp, .tp] x x' ∧ u' 1 = u 1 ∧ u' 2 = u 2 := by
  have hAl := h.aligned
  rw [run_msb hSp hAl (by decide) (by decide), run_slliSelf (by decide),
    run_msb (by simp [hSp]) hAl (by decide) (by decide), run_add, run_slliSelf (by decide),
    run_sub h (by simp [hSp]) (by decide), run_msb (by simp [hSp]) hAl (by decide) (by decide),
    run_add]
  refine ⟨_, _, rfl, ?_, ?_, ?_, ?_⟩
  · rw [← signs_eq]
    simp [ha, hb]
  · intro r hr
    simp only [List.mem_cons, List.not_mem_nil, or_false, not_or] at hr
    simp only [read_write_ne hr.1, read_write_ne hr.2]
  · simp [VAR_C, VAR_D]
  · simp [VAR_C, VAR_D]

/-- The result goes into `rd` last, when `s0` and `s1` are back. -/
theorem run_slt_template (h : Ready rodata sp m) (hSp : read x .sp = sp) {lut : Word}
    {op : Word → Word → Word} (hTable : SignTable sp m lut op) (rd rs1 rs2 : Reg)
    (ops : List Op) :
    ∃ y u', runOps (slt_template rodata lut rd rs1 rs2 ++ ops) (core sp x u m) =
        runOps ops (core sp (write y rd (op (read x rs1) (read x rs2))) u' m) ∧
      Agree [.gp, .tp] x y := by
  have hAl := h.aligned
  unfold slt_template PUSH POP mv
  simp only [List.append_assoc, List.cons_append, List.nil_append]
  rw [run_sw hSp hAl (by decide) (by decide), run_sw hSp hAl (by decide) (by decide),
    run_sw hSp hAl (by decide) (by decide), run_addi,
    run_lw (by simp [hSp]) hAl (by decide) (by decide)]
  have hMove : read x rs1 + BitVec.ofInt 32 0 = read x rs1 := BitVec.add_zero _
  rw [hMove, update_self]
  obtain ⟨x', u', hRun, hGp, hAgree, h1, h2⟩ := run_signs
    (x := write (write x .s0 (read x rs1)) .s1 (read x rs2)) (m := m) (a := read x rs1)
    (b := read x rs2) h (by simp [hSp]) (by simp) (by simp)
  have hSp' : read x' .sp = sp := by
    rw [hAgree _ (by decide)]
    simp [hSp]
  have hOld : Agree [.s1, .s0, .gp, .tp] x x' := by
    intro r hr
    simp only [List.mem_cons, List.not_mem_nil, or_false, not_or] at hr
    rw [hAgree r (by simp [hr]), read_write_ne hr.1, read_write_ne hr.2.1]
  rw [hRun, run_la, run_add, run_lw (by simp [hSp']) hAl (by decide) (by decide),
    run_lw (by simp [hSp']) hAl (by decide) (by decide),
    run_lbu_outside (a := lut + read x' .gp) _ (by rw [hGp]; exact hTable.outside _ _ _), hGp]
  · have hPushed : u' 1 = read x .s0 ∧ u' 2 = read x .s1 := by
      rw [h1, h2, update_of_ne (by decide), update_of_ne (by decide), update_self,
        update_of_ne (by decide), update_self]
      exact ⟨rfl, rfl⟩
    have hTaken : (m (lut + BitVec.ofNat 32 (signs (read x rs1).msb (read x rs2).msb
        (read x rs1 - read x rs2).msb))).setWidth 32 = op (read x rs1) (read x rs2) :=
      hTable.table _ _
    rw [hPushed.1, hPushed.2, hTaken, write_write]
    refine ⟨_, u', rfl, ?_⟩
    exact Agree.restore (Agree.restore (hOld.write_scratch (by simp)))
  · simp [BitVec.ofInt]

/-- A comparison of registers. -/
theorem SignTable.rtype {c : Core} {lut : Word} {op : Word → Word → Word}
    (h : Ready rodata (c.get .sp) c.mem) (hTable : SignTable (c.get .sp) c.mem lut op) :
    Implements c [.gp, .tp] (slt_template rodata lut rd rs1 rs2) (Rv32i.rtype op rd rs1 rs2) := by
  apply implements_set rfl
  intro u
  obtain ⟨y, u', hRun, hAgree⟩ := run_slt_template (u := u) h rfl hTable rd rs1 rs2 []
  exact ⟨_, _, run_all hRun, hAgree.result⟩

/-- `li` and a comparison with `tp`. -/
theorem SignTable.itype {c : Core} {lut : Word} {op : Word → Word → Word}
    (h : Ready rodata (c.get .sp) c.mem) (hTable : SignTable (c.get .sp) c.mem lut op)
    (h1 : rs1 ≠ .tp) (imm : BitVec 12) :
    Implements c [.gp, .tp] (li .tp imm.toInt :: slt_template rodata lut rd rs1 .tp)
      (Rv32i.itype op rd rs1 imm) := by
  apply implements_set rfl
  intro u
  have hSp : read (write c.x .tp (imm.signExtend 32)) .sp = c.get .sp := read_write_ne (by decide)
  obtain ⟨y, u', hRun, hAgree⟩ := run_slt_template (u := u) h hSp hTable rd rs1 .tp []
  rw [read_write_ne h1, read_write_self (by decide)] at hRun
  refine ⟨_, _, run_li.trans (run_all hRun), Agree.result ?_⟩
  intro r hr
  rw [hAgree r hr]
  exact Agree.refl.write_scratch (by simp) r hr

/--
**Comparisons.** Whatever the operands, they compute what RV32I says, and use
`gp`, `tp` and the scratch area only.
-/
theorem compare_implements (rodata : Word) (c : Core) (h : Ready rodata (c.get .sp) c.mem)
    (rd rs1 rs2 : Reg) (imm : BitVec 12) (h1 : rs1 ≠ .tp) :
    Implements c [.gp, .tp] (slt rodata rd rs1 rs2) (Rv32i.rtype Rv32i.slt rd rs1 rs2) ∧
    Implements c [.gp, .tp] (sltu rodata rd rs1 rs2) (Rv32i.rtype Rv32i.sltu rd rs1 rs2) ∧
    Implements c [.gp, .tp] (slti rodata rd rs1 imm) (Rv32i.itype Rv32i.slt rd rs1 imm) ∧
    Implements c [.gp, .tp] (sltiu rodata rd rs1 imm) (Rv32i.itype Rv32i.sltu rd rs1 imm) ∧
    Implements c [.gp, .tp] (snez rodata rd rs1) (Rv32i.unary (fun v => flag (v != 0)) rd rs1) ∧
    Implements c [.gp, .tp] (sgt rodata rd rs1 rs2)
      (Rv32i.rtype (fun a b => flag (b.slt a)) rd rs1 rs2) ∧
    Implements c [.gp, .tp] (sgtu rodata rd rs1 rs2)
      (Rv32i.rtype (fun a b => flag (b.ult a)) rd rs1 rs2) ∧
    Implements c [.gp, .tp] (sgtz rodata rd rs1)
      (Rv32i.unary (fun v => flag (BitVec.slt 0 v)) rd rs1) := by
  refine ⟨h.slt1.rtype h, h.sltu1.rtype h, h.slt1.itype h h1 imm, h.sltu1.itype h h1 imm, ?_,
    h.slt1.rtype h, h.sltu1.rtype h, h.slt1.rtype h⟩
  have hZero : ∀ v : Word, Rv32i.sltu 0 v = flag (v != 0) := by
    intro v
    have hPos : BitVec.ult 0 v = (v != 0) := by
      rw [Bool.eq_iff_iff, BitVec.ult_eq_decide, decide_eq_true_eq, bne_iff_ne, ne_eq,
        ← BitVec.toNat_inj]
      exact Nat.pos_iff_ne_zero
    unfold Rv32i.sltu
    rw [hPos]
  have hSltu : Implements c [.gp, .tp] (sltu rodata rd .zero rs1)
      (Rv32i.rtype Rv32i.sltu rd .zero rs1) := h.sltu1.rtype h
  unfold Rv32i.rtype at hSltu
  unfold Rv32i.unary snez
  simpa only [Core.get, read_zero, hZero] using hSltu

/-- With `s0` and `s1` the other way around, and the result in `s0`. -/
theorem compare_implements_start :
    Implements (start 0x1000#32 0x80000#32) [.gp, .tp] (slt 0x1000#32 .s0 .s1 .s0)
      (Rv32i.rtype Rv32i.slt .s0 .s1 .s0) :=
  (compare_implements 0x1000#32 (start 0x1000#32 0x80000#32)
    (ready_image (by decide) (by decide) (by decide)) .s0 .s1 .s0 5#12 (by decide)).1

end AbstractMachine.Rvmini
