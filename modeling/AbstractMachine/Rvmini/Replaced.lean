import AbstractMachine.Rvmini.Alike
import AbstractMachine.Rvmini.Branch
import AbstractMachine.Rvmini.Loads
import AbstractMachine.Rvmini.Logic

/-!
# Instructions and their macros

The base instructions of each instruction do what it does, on every core that has
the tables in memory and a free scratch area.
-/

namespace AbstractMachine.Rvmini

open AbstractMachine.Lib ByteMem Function Macro Rv32i

variable {rodata : Word} {c c' : Core} {ops : List Op} {rd rs1 rs2 : Name}

/-! ## Straight-line code -/

theorem Implements.mono {inst : Core → Core} (h : Implements c [.tp] ops inst) :
    Implements c [.gp, .tp] ops inst := by
  obtain ⟨c'', hRun, hAlike⟩ := h
  exact ⟨c'', hRun, hAlike.mono (fun r hr => List.mem_cons_of_mem _ hr) fun _ hx => hx⟩

theorem RType.replaced (h : Ready rodata (c.get .sp) c.mem) (f : RType)
    (hRegs : Ordinary [rd.reg, rs1.reg, rs2.reg]) (hTakes : f.Takes rodata rd rs1 rs2) :
    ∃ ops, f.ops rodata rd rs1 rs2 = some ops ∧
      Implements c [.gp, .tp] ops (Rv32i.rtype f.op rd.reg rs1.reg rs2.reg) := by
  have hAl := h.aligned
  obtain ⟨hSome, hX⟩ := hTakes
  have hRd := (hRegs rd.reg (by simp)).1
  have h1 := (hRegs rs1.reg (by simp)).1
  obtain ⟨ops, hOps⟩ := Option.isSome_iff_exists.mp hSome
  refine ⟨ops, hOps, ?_⟩
  cases f with
  | sub =>
      cases hOps
      exact (sub_implements h h1).mono
  | and =>
      have hSp := logic_sp hOps (hX (by simp))
      exact (h.and8.rtype hAl byte_and hOps hRd hSp).mono
  | or =>
      have hSp := logic_sp hOps (hX (by simp))
      exact (h.or8.rtype hAl byte_or hOps hRd hSp).mono
  | xor =>
      have hSp := logic_sp hOps (hX (by simp))
      exact (h.xor8.rtype hAl byte_xor hOps hRd hSp).mono
  | slt =>
      cases hOps
      exact h.slt1.rtype h
  | sltu =>
      cases hOps
      exact h.sltu1.rtype h
  | sll =>
      cases hOps
      exact sll_implements h _ _ _
  | srl =>
      cases hOps
      exact shift_right_implements h (fun _ _ => rfl) _ _ _
  | sra =>
      cases hOps
      exact shift_right_implements h (fun _ _ => rfl) _ _ _
  | sgt =>
      cases hOps
      exact h.slt1.rtype h
  | sgtu =>
      cases hOps
      exact h.sltu1.rtype h

theorem IType.replaced (h : Ready rodata (c.get .sp) c.mem) (f : IType) {imm : BitVec 12}
    (hRegs : Ordinary [rd.reg, rs1.reg]) (hTakes : f.Takes rodata rd rs1 imm) :
    ∃ ops, f.ops rodata rd rs1 imm = some ops ∧
      Implements c [.gp, .tp] ops (Rv32i.itype f.op rd.reg rs1.reg imm) := by
  have hAl := h.aligned
  obtain ⟨hSome, hX⟩ := hTakes
  have hRd := (hRegs rd.reg (by simp)).1
  have h1 := (hRegs rs1.reg (by simp)).1
  obtain ⟨ops, hOps⟩ := Option.isSome_iff_exists.mp hSome
  refine ⟨ops, hOps, ?_⟩
  cases f with
  | andi =>
      have hSp := itype_sp hOps (hX (by simp))
      exact (h.and8.itype hAl byte_and hOps hRd hSp h1).mono
  | ori =>
      have hSp := itype_sp hOps (hX (by simp))
      exact (h.or8.itype hAl byte_or hOps hRd hSp h1).mono
  | xori =>
      have hSp := itype_sp hOps (hX (by simp))
      exact (h.xor8.itype hAl byte_xor hOps hRd hSp h1).mono
  | slti =>
      cases hOps
      exact h.slt1.itype h h1 imm
  | sltiu =>
      cases hOps
      exact h.sltu1.itype h h1 imm

theorem ShiftI.replaced (h : Ready rodata (c.get .sp) c.mem) (f : ShiftI) {shamt : Nat}
    (hRd : rd.reg ≠ .tp) (hShamt : shamt < 32) :
    Implements c [.gp, .tp] (f.ops rodata rd rs1 shamt)
      (Rv32i.ishift f.op rd.reg rs1.reg shamt) := by
  cases f with
  | slli => exact slli_implements h.aligned rd rs1 hShamt
  | srli => exact shift_right_imm_implements h (fun _ _ => rfl) hRd _ hShamt
  | srai => exact shift_right_imm_implements h (fun _ _ => rfl) hRd _ hShamt

/-- The result may also go nowhere. -/
theorem msb_implements (hAl : Aligned (c.get .sp)) {rd rs : Reg} (hSp : rd ≠ .sp) :
    Implements c [.gp, .tp] (msb rd rs) (Rv32i.unary (fun v => flag (BitVec.slt v 0)) rd rs) := by
  have hSign : flag (BitVec.slt (c.get rs) 0) = flag (read c.x rs).msb :=
    congrArg flag (slt_zero _)
  apply implements_set (congrArg (c.set rd) hSign)
  intro u
  by_cases h0 : rd = .zero
  · subst h0
    have hGet : read c.x .sp = c.get .sp := rfl
    have hRun : runOps (msb .zero rs ++ []) (core (c.get .sp) c.x u c.mem) =
        runOps [] (core (c.get .sp) c.x
          (update (update u VAR_C (read c.x rs)) VAR_C (read c.x .zero)) c.mem) := by
      unfold msb
      rw [List.append_assoc, List.append_assoc, run_getbyte hGet hAl (by decide),
        run_slliSelf (by decide), write_zero, write_zero, run_getbyte hGet hAl (by decide),
        write_zero]
    exact ⟨c.x, _, run_all hRun, Agree.refl⟩
  · exact ⟨_, _, run_all (run_msb rfl hAl h0 hSp), Agree.refl⟩

theorem Unary.replaced (h : Ready rodata (c.get .sp) c.mem) (f : Unary) {rd rs : Reg}
    (hSeqz : f = .seqz → rd ≠ .s0 ∧ rd ≠ .sp) (hSltz : f = .sltz → rd ≠ .sp) :
    Implements c [.gp, .tp] (f.ops rodata rd rs) (Rv32i.unary f.op rd rs) := by
  cases f with
  | not => exact (not_implements h).mono
  | neg =>
      have h1 : Reg.zero ≠ .tp := by decide
      exact (sub_implements h h1).mono
  | snez => exact SignTable.rtype h h.sltu1
  | seqz =>
      obtain ⟨hS0, hSp⟩ := hSeqz rfl
      apply implements_set rfl
      intro u
      obtain ⟨y, u', hRun, hAgree⟩ := run_seqz (x := c.x) (u := u) h rfl rd rs hSp []
      rw [write_comm hS0] at hRun
      exact ⟨_, u', run_all hRun, hAgree.restore.result⟩
  | sltz => exact msb_implements h.aligned (hSltz rfl)
  | sgtz => exact SignTable.rtype h h.slt1

/-- The bytes of a load are outside of the scratch area. -/
theorem Load.replaced (h : Ready rodata (c.get .sp) c.mem) (f : Load) {rd base : Reg} {off : Int}
    (hRd : rd ≠ .tp ∧ rd ≠ .gp) (hBase : base ≠ .tp ∧ base ≠ .gp) (hLb : f = .lb → rd ≠ .sp)
    (hOut : ∀ x, InBlock (c.get base + BitVec.ofInt 32 off) f.bytes x →
      ¬ InScratch (c.get .sp) x) :
    Implements c [.gp, .tp] (f.ops rodata rd off base) (f.exec rd off base) := by
  have hByte : ∀ k, k < f.bytes →
      ¬ InScratch (c.get .sp) (c.get base + BitVec.ofInt 32 off + BitVec.ofNat 32 k) := by
    intro k hk
    apply hOut
    apply inBlock_offset hk
    cases f <;> decide
  cases f with
  | lb =>
      apply implements_set rfl
      intro u
      have h0 := hByte 0 (by decide)
      rw [BitVec.add_zero] at h0
      obtain ⟨y, u', hRun, hAgree⟩ := run_lb (u := u) h rfl hRd.1 (hLb rfl) rfl h0
      exact ⟨_, _, hRun, hAgree.result⟩
  | lh =>
      apply implements_set rfl
      intro u
      have h0 := hByte 0 (by decide)
      rw [BitVec.add_zero] at h0
      obtain ⟨y, u', hRun, hAgree⟩ :=
        run_lh (u := u) h rfl hRd.2 hBase rfl h0 (hByte 1 (by decide))
      exact ⟨_, _, hRun, hAgree.result⟩
  | lhu =>
      apply implements_set rfl
      intro u
      have h0 := hByte 0 (by decide)
      rw [BitVec.add_zero] at h0
      obtain ⟨y, u', hRun, hAgree⟩ := run_lhu (u := u) (m := c.mem) rfl h.aligned hRd.1 hBase.1
        rfl h0 (hByte 1 (by decide))
      exact ⟨_, _, hRun, hAgree.result⟩

private theorem sh_implements (h : Ready rodata (c.get .sp) c.mem) {rs base : Reg} {off : Int}
    (hBase : base ≠ .tp) (hOut : ∀ x, InBlock (c.get base + BitVec.ofInt 32 off) 2 x →
      ¬ InScratch (c.get .sp) x) :
    Implements c [.gp, .tp] (Macro.sh rs off base) (Rv32i.sh rs off base) := by
  have h0 := hOut _ (inBlock_offset (i := 0) (by decide) (by decide))
  have h1 := hOut _ (inBlock_offset (i := 1) (by decide) (by decide))
  rw [BitVec.add_zero] at h0
  apply implements_core
  intro u
  obtain ⟨y, u', hRun, hAgree⟩ := run_sh (u := u) (m := c.mem) rfl h.aligned hBase rfl h0 h1
  exact ⟨y, u', hRun, hAgree⟩

theorem runOps_la (r : Reg) (a : Word) (c : Core) : runOps (la r a) c = some (c.set r a) := by
  let u := fun n => load c.mem (c.get .sp - 28 + BitVec.ofNat 32 (28 - 4 * n)) 4
  have hLa : runOps (la r a ++ []) (core (c.get .sp) c.x u c.mem) =
      some (core (c.get .sp) (write c.x r a) u c.mem) := run_la
  have hRun := run_all hLa
  rw [core_slots] at hRun
  rw [hRun]
  exact congrArg some (core_slots (c.get .sp) (c.set r a))

/-- Every macro does what its instruction does. -/
theorem Data.replaced (h : Ready rodata (c.get .sp) c.mem) {d : Data} {addr : Nat → Word}
    (hRegs : Ordinary d.regs) (hTakes : d.Takes rodata)
    (hReads : ∀ x, Touches ((Inst.data d).reads c) x → ¬ InScratch (c.get .sp) x)
    (hWrites : ∀ x, Touches ((Inst.data d).writes c) x → ¬ InScratch (c.get .sp) x)
    (hExec : d.exec addr c = some c') :
    ∃ ops c'', d.ops rodata addr = some ops ∧ runOps ops c = some c'' ∧
      Alike [.gp, .tp] (InScratch (c.get .sp)) c' c'' := by
  cases d with
  | op o =>
      have hOne : runOps [o] c = some c' := by
        rw [runOps]
        exact Option.bind_eq_some_iff.mpr ⟨c', hExec, rfl⟩
      exact ⟨[o], c', rfl, hOne, Alike.refl⟩
  | la rd sym =>
      cases hExec
      exact ⟨_, _, rfl, runOps_la _ _ _, Alike.refl⟩
  | rtype f rd rs1 rs2 =>
      cases hExec
      obtain ⟨ops, hOps, c'', hRun, hAlike⟩ := f.replaced h hRegs hTakes
      exact ⟨ops, c'', hOps, hRun, hAlike⟩
  | itype f rd rs1 imm =>
      cases hExec
      obtain ⟨ops, hOps, c'', hRun, hAlike⟩ := f.replaced h hRegs hTakes
      exact ⟨ops, c'', hOps, hRun, hAlike⟩
  | shift f rd rs1 shamt =>
      cases hExec
      have hRd := (hRegs rd.reg (by simp [Data.regs])).1
      obtain ⟨c'', hRun, hAlike⟩ := f.replaced h hRd hTakes
      exact ⟨_, c'', rfl, hRun, hAlike⟩
  | unary f rd rs =>
      cases hExec
      obtain ⟨c'', hRun, hAlike⟩ := f.replaced h hTakes.1 hTakes.2
      exact ⟨_, c'', rfl, hRun, hAlike⟩
  | load f rd off base =>
      cases hExec
      have hRd := hRegs rd (by simp [Data.regs])
      have hBase := hRegs base (by simp [Data.regs])
      obtain ⟨c'', hRun, hAlike⟩ := f.replaced h hRd hBase hTakes fun x hx =>
        hReads x (Touches.some_iff.mpr hx)
      exact ⟨_, c'', rfl, hRun, hAlike⟩
  | sh rs off base =>
      cases hExec
      have hBase := hRegs base (by simp [Data.regs])
      obtain ⟨c'', hRun, hAlike⟩ := sh_implements h hBase.1 fun x hx =>
        hWrites x (Touches.some_iff.mpr hx)
      exact ⟨_, c'', rfl, hRun, hAlike⟩

end AbstractMachine.Rvmini
