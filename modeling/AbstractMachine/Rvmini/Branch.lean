import AbstractMachine.Rvmini.Compare
import AbstractMachine.Rvmini.Equality

/-!
# Branches

A test leaves 0 or 1 in `tp`, the addresses of the target and of the next
instruction go into two slots of the scratch area, and a jump takes the one that
`tp` selects.
-/

namespace AbstractMachine.Rvmini

open AbstractMachine.Lib ByteMem Function Macro Rv32i

/-! ## What a branch does -/

/-- Only the program counter changes. -/
def Rv32i.branch (cond : Word → Word → Bool) (rs1 rs2 : Reg) (target next : Word) (s : State) :
    State :=
  { s with pc := if cond (s.core.get rs1) (s.core.get rs2) then target else next }

/-- The address after the instructions `is` at `pc`. -/
def after (pc : Word) (is : List Instr) : Word := pc + BitVec.ofNat 32 (4 * is.length)

/-- The code of a branch at `pc`: its label is the address after it. -/
def placed (pc : Word) (code : Word → List Instr) : List Instr := code (after pc (code 0))

/-- From `s`, the code does what the branch `inst` does. -/
def Branches (rodata : Word) (s : State) (code : Word → List Instr)
    (inst : Word → State → State) : Prop :=
  let is := placed s.pc code
  let want := inst (after s.pc is) s
  ∃ s', run is s = some s' ∧ s'.pc = want.pc ∧
    Alike [.gp, .tp]
      (fun a => InScratch (s.core.get .sp) a ∨ InBlock (_check_same_array rodata) 256 a)
      want.core s'.core

/-- An address that a jump does not round down. -/
def CodeAddr (a : Word) : Prop := a.toNat % 2 = 0

instance (a : Word) : Decidable (CodeAddr a) := by
  unfold CodeAddr
  infer_instance

variable {rodata sp : Word} {x : Reg → Word} {u : Nat → Word} {m : ByteMem 32} {ops : List Op}
  {is : List Instr} {rs1 rs2 : Reg} {target label pc a : Word} {p hi : Bool} {s : State}

theorem CodeAddr.jump (h : CodeAddr a) : (a + BitVec.ofInt 32 0) &&& ~~~1 = a := by
  have hZero : a + BitVec.ofInt 32 0 = a := BitVec.add_zero a
  have hMask : ∀ k, k < 32 → k ≠ 0 → (~~~1 : Word).getLsbD k = true := by decide
  rw [hZero]
  apply BitVec.eq_of_getLsbD_eq
  intro i hi
  by_cases h0 : i = 0
  · have hBit : a.getLsbD 0 = false := by
      unfold CodeAddr at h
      rw [BitVec.getLsbD, Nat.testBit_zero, h]
      rfl
    rw [h0, BitVec.getLsbD_and, hBit, Bool.false_and]
  · rw [BitVec.getLsbD_and, hMask i hi h0, Bool.and_true]

theorem CodeAddr.after (h : CodeAddr pc) (is : List Instr) : CodeAddr (after pc is) := by
  unfold CodeAddr at h ⊢
  unfold Rvmini.after
  rw [BitVec.toNat_add, BitVec.toNat_ofNat]
  omega

/-! ## Straight-line code and then a jump -/

theorem run_ops (ops : List Op) (is : List Instr) (s : State) :
    run (ops.map .op ++ is) s =
      (runOps ops s.core).bind fun c =>
        run is { core := c, pc := s.pc + BitVec.ofNat 32 (4 * ops.length) } := by
  induction ops generalizing s with
  | nil =>
      have hPc : s.pc + BitVec.ofNat 32 (4 * 0) = s.pc := BitVec.add_zero _
      rw [List.length_nil, hPc]
      rfl
  | cons op ops ih =>
      have hPc : s.pc + 4 + BitVec.ofNat 32 (4 * ops.length) =
          s.pc + BitVec.ofNat 32 (4 * (ops.length + 1)) := by
        rw [BitVec.add_assoc, Nat.mul_succ, BitVec.ofNat_add, BitVec.add_comm 4]
        rfl
      rw [List.map_cons, List.cons_append, run, step, runOps, List.length_cons, ← hPc]
      cases hExec : exec s.core op with
      | none => rfl
      | some c => exact ih _

/-! ## The jump -/

/-- The slot that `tp` selects. -/
theorem selected (p : Bool) :
    sp + (flag p <<< 2) + BitVec.ofInt 32 (-VAR_B * 4) =
      sp + BitVec.ofInt 32 (SP_VAR (if p then VAR_A else VAR_B)) := by
  have hOff : (flag p <<< 2) + BitVec.ofInt 32 (-VAR_B * 4) =
      BitVec.ofInt 32 (SP_VAR (if p then VAR_A else VAR_B)) := by
    cases p <;> rfl
  rw [BitVec.add_assoc, hOff]

/-- One of two addresses, into `tp`. -/
theorem run_select (h : Ready rodata sp m) (hSp : read x .sp = sp) (hTp : read x .tp = flag p)
    (high low : Word) :
    ∃ x' u', runOps (slliSelf .tp 2 ++ (.add .tp .sp .tp :: (la .gp high ++
          (.sw .gp (SP_VAR VAR_A) .sp :: (la .gp low ++ (.sw .gp (SP_VAR VAR_B) .sp ::
          [.lw .tp (-VAR_B * 4) .tp])))))) (core sp x u m) = some (core sp x' u' m) ∧
      read x' .tp = (if p then high else low) ∧ Agree [.gp, .tp] x x' := by
  have hAl := h.aligned
  rw [run_slliSelf (by decide), run_add, run_la, run_sw (by simp [hSp]) hAl (by decide) (by decide),
    run_la, run_sw (by simp [hSp]) hAl (by decide) (by decide),
    run_lw_slot (n := if p then VAR_A else VAR_B) _ hAl (by cases p <;> decide)
      (by cases p <;> decide)]
  · refine ⟨_, _, rfl, ?_, ?_⟩
    · cases p <;> simp [VAR_A, VAR_B]
    · intro r hr
      simp only [List.mem_cons, List.not_mem_nil, or_false, not_or] at hr
      simp only [read_write_ne hr.1, read_write_ne hr.2]
  · rw [read_write_ne (by decide), read_write_ne (by decide), read_write_self (by decide),
      read_write_self (by decide), read_write_ne (by decide), hSp, hTp]
    exact selected p

private theorem run_branch_resolve (h : Ready rodata sp m) (hSp : read x .sp = sp)
    (hTp : read x .tp = flag p) (target label pc : Word) (hi : Bool) :
    ∃ x' u', run (branch_resolve target label hi) { core := core sp x u m, pc := pc } =
        some
          { core := core sp x' u' m
            pc := ((if p == hi then target else label) + BitVec.ofInt 32 0) &&& ~~~1 } ∧
      Agree [.gp, .tp] x x' := by
  have hJump : ∀ x' u' pc, run [.jalr .zero 0 .tp] { core := core sp x' u' m, pc := pc } =
      some { core := core sp x' u' m, pc := (read x' .tp + BitVec.ofInt 32 0) &&& ~~~1 } :=
    fun _ _ _ => rfl
  unfold branch_resolve
  rw [run_ops]
  cases hi
  · simp only [Bool.false_eq_true, if_false, List.append_assoc, List.cons_append, List.nil_append]
    obtain ⟨x', u', hRun, hTaken, hAgree⟩ := run_select (u := u) h hSp hTp label target
    rw [hRun, Option.bind_some, hJump, hTaken]
    refine ⟨x', u', ?_, hAgree⟩
    cases p <;> rfl
  · simp only [if_true, List.append_assoc, List.cons_append, List.nil_append]
    obtain ⟨x', u', hRun, hTaken, hAgree⟩ := run_select (u := u) h hSp hTp target label
    rw [hRun, Option.bind_some, hJump, hTaken]
    refine ⟨x', u', ?_, hAgree⟩
    cases p <;> rfl

/-! ## Tests -/

/-- The code leaves `p` in `tp`. -/
def Tests (rodata sp : Word) (x : Reg → Word) (m : ByteMem 32) (ops : List Op) (p : Bool) :
    Prop :=
  ∀ u, ∃ y u' m', runOps ops (core sp x u m) = some (core sp (write y .tp (flag p)) u' m') ∧
    Agree [.gp, .tp] x y ∧ SameTables rodata m m'

/-- Both branches of the condition in `branch_resolve` have the same length. -/
theorem length_branch_resolve (target label label' : Word) (hi : Bool) :
    (branch_resolve target label hi).length = (branch_resolve target label' hi).length := by
  unfold branch_resolve la
  cases hi <;> simp

theorem Tests.branches (hTest : Tests rodata (s.core.get .sp) s.core.x s.core.mem ops p)
    (h : Ready rodata (s.core.get .sp) s.core.mem) (hi : Bool) {code : Word → List Instr}
    (hCode : ∀ label, code label = ops.map .op ++ branch_resolve target label hi)
    (hPc : CodeAddr s.pc) (hTarget : CodeAddr target) {cond : Word → Word → Bool}
    (hCond : (p == hi) = cond (s.core.get rs1) (s.core.get rs2)) :
    Branches rodata s code (Rv32i.branch cond rs1 rs2 target) := by
  have hLength : (placed s.pc code).length = (code 0).length := by
    unfold placed
    rw [hCode, hCode, List.length_append, List.length_append, length_branch_resolve]
  have hAfter : Rvmini.after s.pc (placed s.pc code) = Rvmini.after s.pc (code 0) := by
    unfold Rvmini.after
    rw [hLength]
  have hLabel : CodeAddr (Rvmini.after s.pc (code 0)) := hPc.after _
  have hNext : CodeAddr (if p == hi then target else Rvmini.after s.pc (code 0)) := by
    cases p == hi
    · exact hLabel
    · exact hTarget
  obtain ⟨y, u', m', hRun, hAgree, hSame⟩ := hTest fun n =>
    load s.core.mem (s.core.get .sp - 28 + BitVec.ofNat 32 (28 - 4 * n)) 4
  rw [core_slots] at hRun
  have hSp : read (write y .tp (flag p)) .sp = s.core.get .sp := by
    rw [read_write_ne (by decide), hAgree _ (by decide)]
    rfl
  obtain ⟨x', u'', hJump, hEnd⟩ := run_branch_resolve (u := u') (hSame.ready h) hSp
    (read_write_self (by decide)) target (Rvmini.after s.pc (code 0))
    (s.pc + BitVec.ofNat 32 (4 * ops.length)) hi
  rw [hNext.jump] at hJump
  unfold Branches Rv32i.branch
  simp only [hAfter, ← hCond]
  have hAll : run (placed s.pc code) s =
      run (branch_resolve target (Rvmini.after s.pc (code 0)) hi)
        { core := core (s.core.get .sp) (write y .tp (flag p)) u' m'
          pc := s.pc + BitVec.ofNat 32 (4 * ops.length) } := by
    unfold placed
    rw [hCode, run_ops, hRun]
    rfl
  refine ⟨_, hAll.trans hJump, rfl, ?_, ?_⟩
  · intro r hr
    rw [get_core, hEnd r hr]
    exact hAgree.write_scratch (by simp) r hr
  · intro a ha
    rw [not_or] at ha
    exact (mem_core_outside ha.1).trans (hSame a ha.2)

/-! ## The tests of the branches -/

private theorem tests_seq (h : Ready rodata sp m) (hSp : read x .sp = sp) (rs1 rs2 : Reg) :
    Tests rodata sp x m (seq rodata .tp rs1 rs2) (read x rs1 == read x rs2) := by
  intro u
  obtain ⟨y, u', m', hRun, hAgree, hSame⟩ := run_seq (u := u) h hSp rs1 rs2 []
  exact ⟨y, u', m', run_all hRun, hAgree, hSame⟩

private theorem tests_seqz (h : Ready rodata sp m) (hSp : read x .sp = sp) (rs1 : Reg) :
    Tests rodata sp x m (seqz rodata .tp rs1) (read x rs1 == 0) := by
  intro u
  obtain ⟨y, u', hRun, hAgree⟩ := run_seqz (u := u) h hSp .tp rs1 (by decide) []
  rw [write_comm (by decide)] at hRun
  exact ⟨_, u', m, run_all hRun, hAgree.restore, SameTables.refl⟩

private theorem tests_slt (h : Ready rodata sp m) (hSp : read x .sp = sp) (rs1 rs2 : Reg) :
    Tests rodata sp x m (slt rodata .tp rs1 rs2) ((read x rs1).slt (read x rs2)) := by
  intro u
  obtain ⟨y, u', hRun, hAgree⟩ := run_slt_template (u := u) h hSp h.slt1 .tp rs1 rs2 []
  exact ⟨y, u', m, run_all hRun, hAgree, SameTables.refl⟩

private theorem tests_sltu (h : Ready rodata sp m) (hSp : read x .sp = sp) (rs1 rs2 : Reg) :
    Tests rodata sp x m (sltu rodata .tp rs1 rs2) ((read x rs1).ult (read x rs2)) := by
  intro u
  obtain ⟨y, u', hRun, hAgree⟩ := run_slt_template (u := u) h hSp h.sltu1 .tp rs1 rs2 []
  exact ⟨y, u', m, run_all hRun, hAgree, SameTables.refl⟩

private theorem tests_msb (h : Ready rodata sp m) (hSp : read x .sp = sp) (rs1 : Reg) :
    Tests rodata sp x m (msb .tp rs1) (read x rs1).msb := by
  intro u
  have hRun : runOps (msb .tp rs1 ++ []) (core sp x u m) = _ :=
    run_msb hSp h.aligned (by decide) (by decide)
  exact ⟨x, _, m, run_all hRun, Agree.refl, SameTables.refl⟩

/-- The table of the disjunction, at the sum of two flags. -/
theorem Ready.or1 (h : Ready rodata sp m) (p q : Bool) :
    (m (_or1_table rodata + (flag p + flag q))).setWidth 32 = flag (p || q) ∧
      ¬ InScratch sp (_or1_table rodata + (flag p + flag q)) := by
  have hSum : flag p + flag q = BitVec.ofNat 32 (p.toNat + q.toNat) := by
    cases p <;> cases q <;> rfl
  have hLt : p.toNat + q.toNat < 4 := by
    cases p <;> cases q <;> decide
  have hEntry : [0, 1, 1, 1][p.toNat + q.toNat]? = some (BitVec.setWidth 8 (flag (p || q))) := by
    cases p <;> cases q <;> rfl
  rw [hSum]
  constructor
  · rw [h.loaded.or1 _ _ hEntry]
    cases p <;> cases q <;> rfl
  · apply h.outside_table (n := 536)
    unfold rodataSize
    omega

/-- A word is positive if neither its sign nor the sign of its predecessor is set. -/
theorem tests_notPositive (h : Ready rodata sp m) (hSp : read x .sp = sp) (hGp : rs2 ≠ .gp) :
    Tests rodata sp x m (notPositive rodata rs2)
      ((read x rs2).msb || (read x rs2 - 1).msb) := by
  intro u
  have hAl := h.aligned
  have hDec : read x rs2 + BitVec.ofInt 32 (-1) = read x rs2 - 1 := by
    rw [BitVec.sub_eq_add_neg]
    rfl
  have hTable := h.or1 (read x rs2).msb (read x rs2 - 1).msb
  have hAddr : ∀ v : Word, v + BitVec.ofInt 32 0 = v := fun v => BitVec.add_zero v
  unfold notPositive
  simp only [List.append_assoc, List.cons_append, List.nil_append]
  rw [run_msb hSp hAl (by decide) (by decide), run_addi, read_write_ne hGp, hDec,
    run_msb (by simp [hSp]) hAl (by decide) (by decide), run_add, run_la, run_add,
    run_lbu_outside _ hTable.2, hTable.1]
  · refine ⟨_, _, m, rfl, ?_, SameTables.refl⟩
    intro r hr
    simp only [List.mem_cons, List.not_mem_nil, or_false, not_or] at hr
    simp only [read_write_ne hr.1, read_write_ne hr.2]
  · rw [read_write_self (by decide), read_write_ne (by decide), read_write_self (by decide),
      read_write_self (by decide), read_write_ne (by decide), read_write_ne (by decide),
      read_write_self (by decide), read_write_self (by decide), hAddr, BitVec.add_comm,
      read_write_self (by decide)]

theorem slt_zero (v : Word) : BitVec.slt v 0 = v.msb := by
  rw [BitVec.msb_eq_toInt, BitVec.slt_eq_decide]
  rfl

theorem sle_zero (v : Word) : BitVec.sle v 0 = (v.msb || (v - 1).msb) := by
  have hLt := v.isLt
  rw [BitVec.sle_eq_decide, BitVec.msb_eq_decide, BitVec.msb_eq_decide, BitVec.toInt_eq_toNat_cond,
    BitVec.toNat_sub, ← Bool.decide_or, decide_eq_decide]
  simp
  omega

theorem isZero_reg {r : Name} (hr : IsZero r = true) : r.reg = .zero := by
  unfold IsZero at hr
  rcases of_decide_eq_true hr with rfl | rfl
  · rfl
  · rfl

private theorem tests_same (h : Ready rodata sp m) (hSp : read x .sp = sp) (rs1 rs2 : Name) :
    Tests rodata sp x m (same rodata rs1 rs2) (read x rs1.reg == read x rs2.reg) := by
  unfold same
  by_cases hZ2 : IsZero rs2 = true
  · rw [if_pos hZ2, isZero_reg hZ2, read_zero]
    exact tests_seqz h hSp _
  · rw [if_neg hZ2]
    by_cases hZ1 : IsZero rs1 = true
    · rw [if_pos hZ1, isZero_reg hZ1, read_zero, BEq.comm]
      exact tests_seqz h hSp _
    · rw [if_neg hZ1]
      exact tests_seq h hSp _ _

/-! ## The branches -/

section

variable (h : Ready rodata (s.core.get .sp) s.core.mem) (hPc : CodeAddr s.pc)
  (hTarget : CodeAddr target) (rs1 rs2 : Name)

include h hPc hTarget

theorem beq_branches : Branches rodata s (beq rodata rs1 rs2 target)
    (Rv32i.branch (· == ·) rs1.reg rs2.reg target) := by
  apply (tests_same h rfl rs1 rs2).branches h _ (fun _ => rfl) hPc hTarget
  exact beq_true _

theorem bne_branches : Branches rodata s (bne rodata rs1 rs2 target)
    (Rv32i.branch (· != ·) rs1.reg rs2.reg target) := by
  apply (tests_same h rfl rs1 rs2).branches h _ (fun _ => rfl) hPc hTarget
  exact beq_false _

theorem blt_branches (hGp : rs2.reg ≠ .gp) : Branches rodata s (blt rodata rs1 rs2 target)
    (Rv32i.branch BitVec.slt rs1.reg rs2.reg target) := by
  by_cases hZ2 : IsZero rs2 = true
  · apply (tests_msb h rfl rs1.reg).branches h true _ hPc hTarget
    · rw [isZero_reg hZ2]
      exact (beq_true _).trans (slt_zero _).symm
    · intro label
      unfold blt
      rw [if_pos hZ2]
  · by_cases hZ1 : IsZero rs1 = true
    · apply (tests_notPositive h rfl hGp).branches h false _ hPc hTarget
      · rw [isZero_reg hZ1, ← sle_zero, beq_false, BitVec.sle_eq_not_slt, Bool.not_not]
        rfl
      · intro label
        unfold blt
        rw [if_neg hZ2, if_pos hZ1]
    · apply (tests_slt h rfl rs1.reg rs2.reg).branches h true _ hPc hTarget
      · exact beq_true _
      · intro label
        unfold blt
        rw [if_neg hZ2, if_neg hZ1]

theorem bge_branches (hGp : rs2.reg ≠ .gp) : Branches rodata s (bge rodata rs1 rs2 target)
    (Rv32i.branch (fun a b => b.sle a) rs1.reg rs2.reg target) := by
  by_cases hZ1 : IsZero rs1 = true
  · apply (tests_notPositive h rfl hGp).branches h true _ hPc hTarget
    · rw [isZero_reg hZ1]
      exact (beq_true _).trans (sle_zero _).symm
    · intro label
      unfold bge
      rw [if_pos hZ1]
  · apply (tests_slt h rfl rs1.reg rs2.reg).branches h false _ hPc hTarget
    · exact (beq_false _).trans BitVec.sle_eq_not_slt.symm
    · intro label
      unfold bge
      rw [if_neg hZ1]

theorem bltu_branches : Branches rodata s (bltu rodata rs1 rs2 target)
    (Rv32i.branch BitVec.ult rs1.reg rs2.reg target) := by
  apply (tests_sltu h rfl rs1.reg rs2.reg).branches h _ (fun _ => rfl) hPc hTarget
  exact beq_true _

theorem bgeu_branches : Branches rodata s (bgeu rodata rs1 rs2 target)
    (Rv32i.branch (fun a b => b.ule a) rs1.reg rs2.reg target) := by
  apply (tests_sltu h rfl rs1.reg rs2.reg).branches h _ (fun _ => rfl) hPc hTarget
  exact (beq_false _).trans (BitVec.ule_eq_not_ult _ _).symm

end

/--
**Branches.** Each goes to the target if the condition holds, and to the
instruction after it if not; all that it changes is `gp`, `tp`, the scratch area
and the array of `seq`.
-/
theorem branch_implements (rodata : Word) (s : State)
    (h : Ready rodata (s.core.get .sp) s.core.mem) (rs1 rs2 : Name) (target : Word)
    (h1 : rs1.reg ≠ .gp) (h2 : rs2.reg ≠ .gp) (hPc : CodeAddr s.pc) (hTarget : CodeAddr target) :
    Branches rodata s (beq rodata rs1 rs2 target)
      (Rv32i.branch (fun a b => a == b) rs1.reg rs2.reg target) ∧
    Branches rodata s (bne rodata rs1 rs2 target)
      (Rv32i.branch (fun a b => a != b) rs1.reg rs2.reg target) ∧
    Branches rodata s (blt rodata rs1 rs2 target)
      (Rv32i.branch (fun a b => a.slt b) rs1.reg rs2.reg target) ∧
    Branches rodata s (bge rodata rs1 rs2 target)
      (Rv32i.branch (fun a b => b.sle a) rs1.reg rs2.reg target) ∧
    Branches rodata s (bltu rodata rs1 rs2 target)
      (Rv32i.branch (fun a b => a.ult b) rs1.reg rs2.reg target) ∧
    Branches rodata s (bgeu rodata rs1 rs2 target)
      (Rv32i.branch (fun a b => b.ule a) rs1.reg rs2.reg target) ∧
    Branches rodata s (beqz rodata rs1 target)
      (Rv32i.branch (fun a b => a == b) rs1.reg .zero target) ∧
    Branches rodata s (bnez rodata rs1 target)
      (Rv32i.branch (fun a b => a != b) rs1.reg .zero target) ∧
    Branches rodata s (blez rodata rs1 target)
      (Rv32i.branch (fun a b => a.sle b) rs1.reg .zero target) ∧
    Branches rodata s (bgez rodata rs1 target)
      (Rv32i.branch (fun a b => b.sle a) rs1.reg .zero target) ∧
    Branches rodata s (bltz rodata rs1 target)
      (Rv32i.branch (fun a b => a.slt b) rs1.reg .zero target) ∧
    Branches rodata s (bgtz rodata rs1 target)
      (Rv32i.branch (fun a b => b.slt a) rs1.reg .zero target) ∧
    Branches rodata s (bgt rodata rs1 rs2 target)
      (Rv32i.branch (fun a b => b.slt a) rs1.reg rs2.reg target) ∧
    Branches rodata s (ble rodata rs1 rs2 target)
      (Rv32i.branch (fun a b => a.sle b) rs1.reg rs2.reg target) ∧
    Branches rodata s (bgtu rodata rs1 rs2 target)
      (Rv32i.branch (fun a b => b.ult a) rs1.reg rs2.reg target) ∧
    Branches rodata s (bleu rodata rs1 rs2 target)
      (Rv32i.branch (fun a b => a.ule b) rs1.reg rs2.reg target) :=
  ⟨beq_branches h hPc hTarget rs1 rs2, bne_branches h hPc hTarget rs1 rs2,
    blt_branches h hPc hTarget rs1 rs2 h2, bge_branches h hPc hTarget rs1 rs2 h2,
    bltu_branches h hPc hTarget rs1 rs2, bgeu_branches h hPc hTarget rs1 rs2,
    beq_branches h hPc hTarget rs1 (.x .zero), bne_branches h hPc hTarget rs1 (.x .zero),
    bge_branches h hPc hTarget (.x .zero) rs1 h1,
    bge_branches h hPc hTarget rs1 (.x .zero) (by decide),
    blt_branches h hPc hTarget rs1 (.x .zero) (by decide),
    blt_branches h hPc hTarget (.x .zero) rs1 h1, blt_branches h hPc hTarget rs2 rs1 h1,
    bge_branches h hPc hTarget rs2 rs1 h1, bltu_branches h hPc hTarget rs2 rs1,
    bgeu_branches h hPc hTarget rs2 rs1⟩

/-- Backwards, comparing `a0` with register 0. -/
theorem branch_implements_start :
    Branches 0x1000#32 { core := start 0x1000#32 0x80000#32, pc := 0x100000#32 }
      (beq 0x1000#32 (.x .zero) (.abi .a0) 0xff000#32)
      (Rv32i.branch (fun a b => a == b) .zero .a0 0xff000#32) :=
  (branch_implements 0x1000#32 { core := start 0x1000#32 0x80000#32, pc := 0x100000#32 }
    (ready_image (by decide) (by decide) (by decide)) (.x .zero) (.abi .a0) 0xff000#32
    (by decide) (by decide) (by decide) (by decide)).1

end AbstractMachine.Rvmini
