import AbstractMachine.Rvmini.Replaced

/-!
# The replacement preserves programs

The machine that runs the image of a program follows the program, instruction by
instruction: it is at the address of the program's next instruction, its registers
are the program's except for `gp` and `tp`, and so is its memory except for what
the program may not read.

## Main results

* `Program.simulates` -- each step of a program is matched by its base instructions.
* `program_preserved` -- the same of every run, and of the runs that never end.
-/

namespace AbstractMachine.Rvmini

open AbstractMachine.Lib ByteMem Macro Rv32i

/-! ## Jumps -/

section

variable {p : Program} {t : State} {c d c' : Core} {area : Word → Prop} {i k : Nat} {a : Word}

theorem Program.codeAddr (p : Program) (k : Nat) : CodeAddr (p.addr k) := by
  have hBase := p.aligned
  unfold Aligned at hBase
  unfold CodeAddr Program.addr
  rw [BitVec.toNat_add, BitVec.toNat_ofNat]
  omega

theorem Program.addr_index (h : p.index a = some k) : p.addr k = a := by
  unfold Program.index at h
  simpa using List.find?_some h

/-- A jump goes the same way on alike cores. -/
theorem Jump.exec_alike {j : Jump} (h : Alike [.gp, .tp] area c d) (hRegs : Ordinary j.regs)
    (hExec : j.exec p i c = some (c', k)) :
    ∃ d', j.exec p i d = some (d', k) ∧ Alike [.gp, .tp] area c' d' := by
  have hGet : ∀ r, r ∈ j.regs → d.get r = c.get r := fun r hr => h.get (hRegs r hr)
  cases j with
  | jalr rd off rs1 =>
      have h1 := hGet rs1 (by simp [Jump.regs])
      obtain ⟨k', hIndex, hEnd⟩ := Option.map_eq_some_iff.mp hExec
      cases hEnd
      refine ⟨d.set rd (p.addr (i + 1)), ?_, h.set _ _⟩
      dsimp only [Jump.exec]
      rw [h1, hIndex]
      rfl
  | jal rd label =>
      cases hExec
      exact ⟨_, rfl, h.set _ _⟩
  | call label =>
      cases hExec
      exact ⟨_, rfl, h.set _ _⟩
  | tail label =>
      cases hExec
      exact ⟨_, rfl, h⟩
  | j label =>
      cases hExec
      exact ⟨_, rfl, h⟩
  | branch f rs1 rs2 label =>
      cases hExec
      have h1 := hGet rs1.reg (by simp [Jump.regs])
      have h2 := hGet rs2.reg (by simp [Jump.regs])
      refine ⟨d, ?_, h⟩
      dsimp only [Jump.exec]
      rw [h1, h2]
  | branchz f rs label =>
      cases hExec
      have h1 := hGet rs.reg (by simp [Jump.regs])
      refine ⟨d, ?_, h⟩
      dsimp only [Jump.exec]
      rw [h1]

/-- What a jump may overwrite. -/
def Overwritten (rodata sp x : Word) : Prop :=
  InScratch sp x ∨ InBlock (_check_same_array rodata) 256 x

/-- The base instructions of a jump: at least one is executed, and what follows
the last of them is never reached. -/
def Jumps (rodata : Word) (t : State) (code : List Instr) (c : Core) (pc : Word) : Prop :=
  ∃ (ops : List Op) (is dead : List Instr) (t' : State),
    code = ops.map .op ++ (is ++ dead) ∧ is.length = 1 ∧
    run (ops.map .op ++ is) t = some t' ∧ t'.pc = pc ∧
    Alike [.gp, .tp] (Overwritten rodata (t.core.get .sp)) c t'.core

/-- The address of a label into `r`, and a jump there. -/
theorem run_la_jalr {r rd : Reg} (hr : r ≠ .zero) (ha : CodeAddr a) (t : State) :
    run ((la r a).map .op ++ [.jalr rd 0 r]) t =
      some { core := (t.core.set r a).set rd (t.pc + 12), pc := a } := by
  have hGet : (t.core.set r a).get r = a := read_write_self hr
  have hPc : t.pc + BitVec.ofNat 32 (4 * (la r a).length) + 4 = t.pc + 12 := by
    rw [length_la, BitVec.add_assoc]
    rfl
  rw [run_ops, runOps_la, Option.bind_some, run, step, hGet, ha.jump, hPc]
  rfl

private theorem set_set (c : Core) (r : Reg) (v w : Word) : (c.set r v).set r w = c.set r w :=
  congrArg (fun x => { c with x }) write_write

private theorem jumps_call_template {rodata : Word} {r : Reg} (hr : r ≠ .zero) (ha : CodeAddr a)
    (hNext : t.pc + 12 = p.addr (i + 1)) :
    Jumps rodata t (call_template r a) (t.core.set r (p.addr (i + 1))) a := by
  refine ⟨la r a, [.jalr r 0 r], [], _, rfl, rfl, run_la_jalr hr ha t, rfl, ?_⟩
  rw [hNext, set_set]
  exact Alike.refl

private theorem jumps_j {rodata : Word} (ha : CodeAddr a) :
    Jumps rodata t (Macro.j a) t.core a := by
  refine ⟨la .tp a, [.jalr .tp 0 .tp], [], _, rfl, rfl, run_la_jalr (by decide) ha t, rfl, ?_⟩
  exact (Alike.refl.set_right (by simp) _).set_right (by simp) _

private theorem jumps_tail {rodata : Word} (ha : CodeAddr a) :
    Jumps rodata t (tail a) t.core a := by
  refine ⟨la .tp a, [.jalr .zero 0 .tp], call_template .ra a, _, List.append_assoc _ _ _, rfl,
    run_la_jalr (by decide) ha t, rfl, ?_⟩
  have hZero : (t.core.set .tp a).set .zero (t.pc + 12) = t.core.set .tp a :=
    congrArg (fun x => { t.core with x }) write_zero
  rw [hZero]
  exact Alike.refl.set_right (by simp) _

private theorem isZero_of_reg {r : Name} (h : r.reg = .zero) : IsZero r = true := by
  cases r with
  | abi r =>
      cases h
      rfl
  | x r =>
      cases h
      rfl
  | fp => cases h

/-- A test, and then the jump of a branch. -/
def TestsThen (code : Word → List Instr) : Prop :=
  ∀ next, ∃ (ops : List Op) (target : Word) (hi : Bool),
    code next = ops.map .op ++ branch_resolve target next hi

private theorem testsThen_blt (rodata : Word) (rs1 rs2 : Name) (target : Word) :
    TestsThen (blt rodata rs1 rs2 target) := by
  intro next
  unfold blt
  split
  · exact ⟨_, _, _, rfl⟩
  · split
    · exact ⟨_, _, _, rfl⟩
    · exact ⟨_, _, _, rfl⟩

private theorem testsThen_bge (rodata : Word) (rs1 rs2 : Name) (target : Word) :
    TestsThen (bge rodata rs1 rs2 target) := by
  intro next
  unfold bge
  split
  · exact ⟨_, _, _, rfl⟩
  · exact ⟨_, _, _, rfl⟩

theorem Branches.jumps {rodata target : Word} {rs1 rs2 : Reg} {cond : Word → Word → Bool}
    {code : Word → List Instr} {n : Nat}
    (h : Branches rodata t code (Rv32i.branch cond rs1 rs2 target)) (hCode : TestsThen code)
    (hSize : ∀ next, (code next).length = n)
    (hNext : t.pc + BitVec.ofNat 32 (4 * n) = p.addr (i + 1)) :
    Jumps rodata t (code (p.addr (i + 1))) t.core
      (if cond (t.core.get rs1) (t.core.get rs2) then target else p.addr (i + 1)) := by
  have hAfter : ∀ next, after t.pc (code next) = p.addr (i + 1) := by
    intro next
    unfold after
    rw [hSize, hNext]
  have hPlaced : placed t.pc code = code (p.addr (i + 1)) := congrArg code (hAfter 0)
  obtain ⟨t', hRun, hPc, hAlike⟩ := h
  rw [hPlaced] at hRun hPc hAlike
  rw [hAfter] at hPc hAlike
  obtain ⟨ops, target', hi, hEq⟩ := hCode (p.addr (i + 1))
  obtain ⟨ops', hJump⟩ : ∃ ops' : List Op, branch_resolve target' (p.addr (i + 1)) hi =
      ops'.map .op ++ [.jalr .zero 0 .tp] := ⟨_, rfl⟩
  have hSplit : code (p.addr (i + 1)) = (ops ++ ops').map .op ++ [.jalr .zero 0 .tp] := by
    rw [hEq, hJump, List.map_append, List.append_assoc]
  rw [hSplit] at hRun
  refine ⟨ops ++ ops', [.jalr .zero 0 .tp], [], t', ?_, rfl, hRun, hPc, hAlike⟩
  rw [hSplit, List.append_nil]

/-- Every jump goes where it says. -/
theorem Jump.replaced {j : Jump} (hCode : p.code[i]? = some (.jump j))
    (h : Ready p.rodata (t.core.get .sp) t.core.mem) (hRegs : Ordinary j.regs)
    (hPc : t.pc = p.addr i) (hExec : j.exec p i t.core = some (c', k)) :
    Jumps p.rodata t (j.code p.rodata p.addr (p.addr (i + 1))) c' (p.addr k) := by
  have hNext := Program.addr_succ hCode
  have hEven := p.codeAddr
  rw [← hPc] at hNext
  have hPcEven : CodeAddr t.pc := hPc ▸ hEven i
  have hSize : ∀ next,
      (j.code p.rodata p.addr next).length = (Inst.jump j).size p.rodata := by
    intro next
    exact j.length_code _ _ _
  have hIf : ∀ (b : Bool) (label : Nat), (if b = true then p.addr label else p.addr (i + 1)) =
      p.addr (if b = true then label else i + 1) := by
    intro b label
    cases b <;> rfl
  cases j with
  | jalr rd off rs1 =>
      obtain ⟨k', hIndex, hEnd⟩ := Option.map_eq_some_iff.mp hExec
      cases hEnd
      refine ⟨[], [.jalr rd off rs1], [], _, rfl, rfl, rfl, (Program.addr_index hIndex).symm, ?_⟩
      rw [hNext]
      exact Alike.refl
  | jal rd label =>
      cases hExec
      dsimp only [Jump.code]
      unfold Macro.jal
      split
      · rename_i hZero
        rw [isZero_reg hZero]
        exact jumps_j (hEven _)
      · rename_i hSome
        have hThree : (Inst.jump (.jal rd k)).size p.rodata = 3 := length_jal rd 0
        rw [hThree] at hNext
        exact jumps_call_template (mt isZero_of_reg hSome) (hEven _) hNext.symm
  | call label =>
      cases hExec
      exact jumps_call_template (by decide) (hEven _) hNext.symm
  | tail label =>
      cases hExec
      exact jumps_tail (hEven _)
  | j label =>
      cases hExec
      exact jumps_j (hEven _)
  | branch f rs1 rs2 label =>
      cases hExec
      have hTarget := hEven label
      have h1 := (hRegs rs1.reg (by simp [Jump.regs])).2
      have h2 := (hRegs rs2.reg (by simp [Jump.regs])).2
      rw [← hIf]
      cases f with
      | beq =>
          exact (beq_branches h hPcEven hTarget rs1 rs2).jumps (fun _ => ⟨_, _, _, rfl⟩) hSize
            hNext.symm
      | bne =>
          exact (bne_branches h hPcEven hTarget rs1 rs2).jumps (fun _ => ⟨_, _, _, rfl⟩) hSize
            hNext.symm
      | blt =>
          exact (blt_branches h hPcEven hTarget rs1 rs2 h2).jumps (testsThen_blt _ _ _ _) hSize
            hNext.symm
      | bge =>
          exact (bge_branches h hPcEven hTarget rs1 rs2 h2).jumps (testsThen_bge _ _ _ _) hSize
            hNext.symm
      | bltu =>
          exact (bltu_branches h hPcEven hTarget rs1 rs2).jumps (fun _ => ⟨_, _, _, rfl⟩) hSize
            hNext.symm
      | bgeu =>
          exact (bgeu_branches h hPcEven hTarget rs1 rs2).jumps (fun _ => ⟨_, _, _, rfl⟩) hSize
            hNext.symm
      | bgt =>
          exact (blt_branches h hPcEven hTarget rs2 rs1 h1).jumps (testsThen_blt _ _ _ _) hSize
            hNext.symm
      | ble =>
          exact (bge_branches h hPcEven hTarget rs2 rs1 h1).jumps (testsThen_bge _ _ _ _) hSize
            hNext.symm
      | bgtu =>
          exact (bltu_branches h hPcEven hTarget rs2 rs1).jumps (fun _ => ⟨_, _, _, rfl⟩) hSize
            hNext.symm
      | bleu =>
          exact (bgeu_branches h hPcEven hTarget rs2 rs1).jumps (fun _ => ⟨_, _, _, rfl⟩) hSize
            hNext.symm
  | branchz f rs label =>
      cases hExec
      have hTarget := hEven label
      have hRs := (hRegs rs.reg (by simp [Jump.regs])).2
      rw [← hIf]
      cases f with
      | beqz =>
          exact (beq_branches h hPcEven hTarget rs (.x .zero)).jumps (fun _ => ⟨_, _, _, rfl⟩) hSize
            hNext.symm
      | bnez =>
          exact (bne_branches h hPcEven hTarget rs (.x .zero)).jumps (fun _ => ⟨_, _, _, rfl⟩) hSize
            hNext.symm
      | blez =>
          exact (bge_branches h hPcEven hTarget (.x .zero) rs hRs).jumps
            (testsThen_bge _ _ _ _) hSize hNext.symm
      | bgez =>
          exact (bge_branches h hPcEven hTarget rs (.x .zero) (by decide)).jumps
            (testsThen_bge _ _ _ _) hSize hNext.symm
      | bltz =>
          exact (blt_branches h hPcEven hTarget rs (.x .zero) (by decide)).jumps
            (testsThen_blt _ _ _ _) hSize hNext.symm
      | bgtz =>
          exact (blt_branches h hPcEven hTarget (.x .zero) rs hRs).jumps
            (testsThen_blt _ _ _ _) hSize hNext.symm

theorem Jump.exec_mem (j : Jump) (hExec : j.exec p i c = some (c', k)) : c'.mem = c.mem := by
  cases j with
  | jalr rd off rs1 =>
      obtain ⟨k', -, hEnd⟩ := Option.map_eq_some_iff.mp hExec
      cases hEnd
      rfl
  | _ =>
      cases hExec
      rfl

end

/-! ## The simulation -/

/-- The machine follows the program. -/
structure Follows {p : Program} (s : Source p) (t : State) : Prop where
  pc : t.pc = p.addr s.pc
  alike : Alike [.gp, .tp] s.junk s.core t.core
  loaded : Loaded p.rodata t.core.mem

section

variable {p : Program} {s s' : Source p} {t : State} {rodata sp : Word} {m m' : ByteMem 32}

/-- The tables that a change leaves alone. -/
theorem Holds.congr {n : Nat} {bs : List (BitVec 8)}
    (h : Holds m (rodata + BitVec.ofNat 32 n) bs) (hn : 256 ≤ n)
    (hFit : n + bs.length ≤ rodataSize)
    (hSame : ∀ x, InBlock rodata rodataSize x → ¬ InBlock rodata 256 x → m' x = m x) :
    Holds m' (rodata + BitVec.ofNat 32 n) bs := by
  intro k b hk
  have hLt : k < bs.length := (List.getElem?_eq_some_iff.mp hk).1
  have hSize : rodataSize < 2 ^ 32 := by decide
  have hDist : (rodata + BitVec.ofNat 32 (n + k) - rodata).toNat = n + k :=
    toNat_offset (by omega)
  have hByte := h k b hk
  rw [next_symbol] at hByte ⊢
  rw [hSame _ _ _, hByte]
  · unfold InBlock
    omega
  · unfold InBlock
    omega

theorem Loaded.congr (h : Loaded rodata m)
    (hSame : ∀ x, InBlock rodata rodataSize x → ¬ InBlock rodata 256 x → m' x = m x) :
    Loaded rodata m' where
  align := h.align
  same_result := h.same_result.congr (by decide) (by decide) hSame
  check_8bit_0 := h.check_8bit_0.congr (by decide) (by rw [length_zeroTable]; decide) hSame
  slt1 := h.slt1.congr (by decide) (by decide) hSame
  sltu1 := h.sltu1.congr (by decide) (by decide) hSame
  or1 := h.or1.congr (by decide) (by decide) hSame
  logic_shift := h.logic_shift.congr (by decide) (by rw [length_lut]; decide) hSame

/-- The scratch area is free and the tables are in memory. -/
theorem Follows.ready (h : Follows s t) {inst : Inst} (hInst : s.Disciplined inst) :
    Ready p.rodata (t.core.get .sp) t.core.mem := by
  have hSp : t.core.get .sp = s.core.get .sp := h.alike.get (by decide)
  rw [hSp]
  exact ⟨hInst.aligned, h.loaded, hInst.apart⟩

/-- An instruction that goes on to the next one. -/
theorem Follows.data (h : Follows s t) {d : Data} (hCode : p.code[s.pc]? = some (.data d))
    (hInst : s.Disciplined (.data d)) (hExec : d.exec p.addr s.core = some s'.core)
    (hPc : s'.pc = s.pc + 1)
    (hJunk : ∀ x, s'.junk x ↔ (s.junk x ∧ ¬ Touches ((Inst.data d).writes s.core) x) ∨
      InScratch (s'.core.get .sp) x) :
    ∃ n t', iterate p.step n t = some t' ∧ Follows s' t' := by
  obtain ⟨hRegs, hTakes⟩ := p.accepted _ (List.mem_of_getElem? hCode)
  have hSp : t.core.get .sp = s.core.get .sp := h.alike.get (by decide)
  obtain ⟨c, hExec', hResult, hKept⟩ := Data.exec_alike h.alike hRegs hInst.reads hExec
  -- its accesses are outside of the scratch area, which is junk
  have hReads : ∀ x, Touches ((Inst.data d).reads t.core) x → ¬ InScratch (t.core.get .sp) x := by
    intro x hx hScratch
    rw [Data.reads_alike h.alike hRegs] at hx
    rw [hSp] at hScratch
    exact hInst.reads x hx (s.reserved x (Or.inl hScratch))
  have hWrites : ∀ x, Touches ((Inst.data d).writes t.core) x →
      ¬ InScratch (t.core.get .sp) x := by
    intro x hx hScratch
    rw [Data.writes_alike h.alike hRegs] at hx
    rw [hSp] at hScratch
    exact hInst.writes x hx (Or.inl hScratch)
  obtain ⟨ops, c', hOps, hRun, hSame⟩ :=
    Data.replaced (h.ready hInst) hRegs hTakes hReads hWrites hExec'
  have hBlock : p.block s.pc (.data d) = ops.map .op := by
    dsimp only [Program.block, Inst.expand]
    rw [hOps]
    rfl
  have hSize : (Inst.data d).size p.rodata = ops.length := by
    rw [← Program.length_block (p := p) (i := s.pc), hBlock, List.length_map]
  have hAll : run (ops.map .op ++ []) t =
      some { core := c', pc := t.pc + BitVec.ofNat 32 (4 * ops.length) } := by
    rw [run_ops, hRun]
    rfl
  have hStart : t.pc = p.addr s.pc + BitVec.ofNat 32 (4 * ([] : List Instr).length) := by
    rw [h.pc]
    exact (BitVec.add_zero _).symm
  have hIter := Program.iterate_block (p := p) [] [] hCode (by decide)
    (by rw [hBlock, List.append_nil, List.append_nil, List.nil_append]) hStart hAll
  refine ⟨_, _, hIter, ?_, ?_, ?_⟩
  · rw [hPc, Program.addr_succ hCode, hSize, h.pc]
  · apply (hResult.trans hSame).mono (fun _ hr => hr)
    rintro x (hx | hx)
    · exact (hJunk x).mpr (Or.inl hx)
    · rw [hSp] at hx
      refine (hJunk x).mpr (Or.inl ⟨s.reserved x (Or.inl hx), ?_⟩)
      intro hw
      exact hInst.writes x hw (Or.inl hx)
  · apply h.loaded.congr
    intro x hx _
    have hOut : ¬ InScratch (t.core.get .sp) x := by
      rw [hSp]
      exact hInst.apart x hx
    have hUnwritten : ¬ Touches ((Inst.data d).writes s.core) x := by
      intro hw
      exact hInst.writes x hw (Or.inr hx)
    exact (hSame.mem x hOut).trans (hKept x hUnwritten)

/-- A jump. -/
theorem Follows.jump (h : Follows s t) {j : Jump} (hCode : p.code[s.pc]? = some (.jump j))
    (hInst : s.Disciplined (.jump j)) (hExec : j.exec p s.pc s.core = some (s'.core, s'.pc))
    (hJunk : ∀ x, s.junk x → s'.junk x) :
    ∃ n t', iterate p.step (n + 1) t = some t' ∧ Follows s' t' := by
  have hRegs : Ordinary j.regs := p.accepted _ (List.mem_of_getElem? hCode)
  have hReady := h.ready hInst
  have hSp : t.core.get .sp = s.core.get .sp := h.alike.get (by decide)
  obtain ⟨c, hExec', hResult⟩ := Jump.exec_alike h.alike hRegs hExec
  obtain ⟨ops, is, dead, t', hSplit, hOne, hRun, hPc, hSame⟩ :=
    Jump.replaced hCode hReady hRegs h.pc hExec'
  have hStart : t.pc = p.addr s.pc + BitVec.ofNat 32 (4 * ([] : List Instr).length) := by
    rw [h.pc]
    exact (BitVec.add_zero _).symm
  have hIter := Program.iterate_block (p := p) [] dead hCode
    (Nat.le_of_eq hOne) hSplit hStart hRun
  rw [hOne] at hIter
  refine ⟨_, t', hIter, hPc, ?_, ?_⟩
  · apply (hResult.trans hSame).mono (fun _ hr => hr)
    rintro x (hx | hx)
    · exact hJunk x hx
    · rw [hSp] at hx
      apply hJunk
      rcases hx with hx | hx
      · exact s.reserved x (Or.inl hx)
      · apply s.reserved x (Or.inr _)
        unfold InBlock _check_same_array at *
        unfold rodataSize
        omega
  · apply h.loaded.congr
    intro x hx hArray
    have hOut : ¬ Overwritten p.rodata (t.core.get .sp) x := by
      rw [hSp]
      rintro (hScratch | hIn)
      · exact hInst.apart x hx hScratch
      · exact hArray hIn
    have hMem : c.mem = t.core.mem := j.exec_mem hExec'
    rw [hSame.mem x hOut, hMem]

/-- How many instructions come after this one. -/
def Source.rank (s : Source p) : Nat := p.code.length - s.pc

theorem Program.simulates (p : Program) :
    Simulates Source.Step p.step Follows (Source.rank (p := p)) where
  simulate := by
    rintro s s' t h ⟨inst, hCode, hInst, hExec, hJunk⟩
    cases inst with
    | data d =>
        obtain ⟨c, hExec', hEnd⟩ := Option.map_eq_some_iff.mp hExec
        obtain ⟨hCore, hPc⟩ := Prod.mk.inj hEnd
        rw [hCore] at hExec'
        obtain ⟨n, t', hIter, hFollows⟩ := h.data hCode hInst hExec' hPc.symm hJunk
        refine ⟨n, t', hIter, hFollows, ?_⟩
        intro _
        have hLt : s.pc < p.code.length := (List.getElem?_eq_some_iff.mp hCode).1
        unfold Source.rank
        omega
    | jump j =>
        obtain ⟨n, t', hIter, hFollows⟩ := h.jump hCode hInst hExec fun x hx =>
          (hJunk x).mpr (Or.inl ⟨hx, not_touches_none⟩)
        exact ⟨n + 1, t', hIter, hFollows, fun h0 => absurd h0 (Nat.succ_ne_zero n)⟩

/--
**The replacement preserves programs.** Whatever an accepted program does, the
machine that runs the base instructions does as well: after every run it is where
the program is, with the same registers but for `gp` and `tp`, and the same memory
but for the bytes the program may not read.  If the program runs forever, the
machine never stops.
-/
theorem program_preserved (p : Program) (s : Source p) (t : State) (h : Follows s t) :
    (∀ s', Relation.ReflTransGen Source.Step s s' →
      ∃ n t', iterate p.step n t = some t' ∧ Follows s' t') ∧
    ∀ f : Nat → Source p, f 0 = s → (∀ k, Source.Step (f k) (f (k + 1))) →
      ∀ n, ∃ t', iterate p.step n t = some t' := by
  constructor
  · intro s' hRun
    exact p.simulates.run hRun h
  · rintro f rfl hSteps n
    exact p.simulates.forever hSteps h n

end

/-! ## A loop -/

/-- Negates `a0`, over and over. -/
def negations : List Inst := [.data (.unary .neg (.abi .a0) (.abi .a0)), .jump (.j 0)]

private theorem negations_accepted : ∀ inst ∈ negations, inst.Accepted 0x1000#32 := by
  intro inst h
  simp only [negations, List.mem_cons, List.not_mem_nil, or_false] at h
  rcases h with rfl | rfl
  · exact ⟨by decide, by decide, by decide⟩
  · exact List.forall_mem_nil _

private theorem negations_aligned : Aligned 0x100000#32 := by decide

private theorem negations_fits : (0x100000#32).toNat +
    4 * offsetOf 0x1000#32 negations negations.length ≤ 2 ^ 32 := by decide

/-- Two `neg` and a jump back, with the tables at 0x1000. -/
def negationLoop : Program :=
  ⟨0x1000, 0x100000, negations, negations_accepted, negations_aligned, negations_fits⟩

/-- With 1 in `a0`. -/
def negationStart : Core := (start 0x1000 0x80000).set .a0 1

/-- That program before its first instruction, the stack at 0x80000. -/
def negationSource (c : Core) (pc : Nat) (hSp : c.get .sp = 0x80000) : Source negationLoop where
  core := c
  pc := pc
  junk := Reserved 0x1000 0x80000
  reserved x h := hSp ▸ h

/-- After the first instruction -1 is in `a0`. -/
theorem program_preserved_negation :
    ∃ n t', iterate negationLoop.step n
        { core := negationStart, pc := negationLoop.addr 0 } = some t' ∧
      t'.pc = negationLoop.addr 1 ∧ t'.core.get .a0 = -1 := by
  have hReady : Ready 0x1000#32 0x80000#32 (image 0x1000#32) :=
    ready_image (by decide) (by decide) (by decide)
  have hRun := (program_preserved negationLoop (negationSource negationStart 0 rfl)
    { core := negationStart, pc := negationLoop.addr 0 } ⟨rfl, Alike.refl, hReady.loaded⟩).1
    (negationSource (negationStart.set .a0 (0 - negationStart.get .a0)) 1 rfl)
    (Relation.ReflTransGen.single ⟨_, rfl, ⟨hReady.aligned, hReady.apart,
      fun _ h => absurd h not_touches_none, fun _ h => absurd h not_touches_none⟩, rfl, by
        intro x
        constructor
        · exact fun h => Or.inl ⟨h, not_touches_none⟩
        · rintro (h | h)
          · exact h.1
          · exact Or.inl h⟩)
  obtain ⟨n, t', hIter, hFollows⟩ := hRun
  refine ⟨n, t', hIter, hFollows.pc, ?_⟩
  rw [hFollows.alike.get (by decide)]
  decide

end AbstractMachine.Rvmini
