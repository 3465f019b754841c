import AbstractMachine.Rvmini.Source

/-!
# Alike cores

Two cores that differ in `gp`, `tp` and some bytes only, and what an instruction
makes of them.  One that does not use these registers and does not read these
bytes has the same results on both.
-/

namespace AbstractMachine.Rvmini

open AbstractMachine.Lib ByteMem Rv32i

variable {scratch : List Reg} {area area' : Word → Prop} {c d e : Core} {r : Reg} {a x : Word}
  {n : Nat}

/-! ## General facts -/

theorem Alike.refl : Alike scratch area c c := ⟨fun _ _ => rfl, fun _ _ => rfl⟩

theorem Alike.mono {scratch' : List Reg} (h : Alike scratch area c d)
    (hReg : ∀ r, r ∈ scratch → r ∈ scratch') (hArea : ∀ x, area x → area' x) :
    Alike scratch' area' c d where
  reg r hr := h.reg r fun hIn => hr (hReg r hIn)
  mem x hx := h.mem x fun hIn => hx (hArea x hIn)

theorem Alike.trans (h : Alike scratch area c d) (h' : Alike scratch area' d e) :
    Alike scratch (fun x => area x ∨ area' x) c e where
  reg r hr := (h'.reg r hr).trans (h.reg r hr)
  mem x hx := by
    rw [not_or] at hx
    exact (h'.mem x hx.2).trans (h.mem x hx.1)

theorem Alike.set (h : Alike scratch area c d) (r : Reg) (v : Word) :
    Alike scratch area (c.set r v) (d.set r v) where
  reg s hs := by
    have hRead : ∀ e : Core, (e.set r v).get s = read (write e.x r v) s := fun _ => rfl
    by_cases hEq : s = r
    · rw [hRead, hRead, hEq]
      by_cases h0 : r = .zero
      · rw [h0, read_zero, read_zero]
      · rw [read_write_self h0, read_write_self h0]
    · rw [hRead, hRead, read_write_ne hEq, read_write_ne hEq]
      exact h.reg s hs
  mem x hx := h.mem x hx

/-- A register that may differ. -/
theorem Alike.set_right (h : Alike scratch area c d) (hr : r ∈ scratch) (v : Word) :
    Alike scratch area c (d.set r v) where
  reg s hs := by
    have hNe : s ≠ r := by
      rintro rfl
      exact hs hr
    exact (read_write_ne hNe).trans (h.reg s hs)
  mem x hx := h.mem x hx

/-! ## Memory -/

theorem Alike.load (h : Alike scratch area c d) (hn : n ≤ 2 ^ 32)
    (hRead : ∀ x, InBlock a n x → ¬ area x) : load d.mem a n = load c.mem a n :=
  load_congr hn fun x hx => h.mem x (hRead x hx)

private theorem inBlock_one (a : Word) : InBlock a 1 a := by
  unfold InBlock
  rw [BitVec.sub_self]
  decide

theorem Touches.some_iff : Touches (some (a, n)) x ↔ InBlock a n x := by
  constructor
  · rintro ⟨b, k, hEq, hIn⟩
    cases hEq
    exact hIn
  · intro hIn
    exact ⟨a, n, rfl, hIn⟩

theorem not_touches_none : ¬ Touches none x := by
  rintro ⟨b, k, hEq, -⟩
  cases hEq

/-- The stored bytes are alike, and the others are as they were. -/
theorem Alike.stored (h : Alike scratch area c d) {m m' : ByteMem 32} {w : Option (Word × Nat)}
    (hIn : ∀ x, Touches w x → m' x = m x) (hOut : ∀ x, ¬ Touches w x → m x = c.mem x)
    (hOut' : ∀ x, ¬ Touches w x → m' x = d.mem x) :
    Alike scratch (fun x => area x ∧ ¬ Touches w x) { c with mem := m } { d with mem := m' } where
  reg r hr := h.reg r hr
  mem x hx := by
    by_cases hw : Touches w x
    · exact hIn x hw
    · calc m' x = d.mem x := hOut' x hw
        _ = c.mem x := h.mem x fun ha => hx ⟨ha, hw⟩
        _ = m x := (hOut x hw).symm

theorem Alike.store (h : Alike scratch area c d) (a : Word) (v : BitVec (8 * n)) :
    Alike scratch (fun x => area x ∧ ¬ Touches (some (a, n)) x)
      { c with mem := ByteMem.store c.mem a v } { d with mem := ByteMem.store d.mem a v } := by
  apply h.stored
  · intro x hx
    rw [ByteMem.store, ByteMem.store, if_pos (Touches.some_iff.mp hx),
      if_pos (Touches.some_iff.mp hx)]
  · intro x hx
    exact store_outside _ _ (mt Touches.some_iff.mpr hx)
  · intro x hx
    exact store_outside _ _ (mt Touches.some_iff.mpr hx)

theorem Alike.store_byte (h : Alike scratch area c d) (a : Word) (b : BitVec 8) :
    Alike scratch (fun x => area x ∧ ¬ Touches (some (a, 1)) x)
      { c with mem := Function.update c.mem a b } { d with mem := Function.update d.mem a b } := by
  have hOne : ∀ x, ¬ Touches (some (a, 1)) x → x ≠ a := by
    rintro x hx rfl
    exact hx (Touches.some_iff.mpr (inBlock_one x))
  apply h.stored
  · intro x hx
    have hEq : x = a := by
      have hZero : (x - a).toNat = 0 := Nat.lt_one_iff.mp (Touches.some_iff.mp hx)
      rw [← offset_toNat (a := a) (x := x), hZero]
      exact BitVec.add_zero a
    rw [hEq, Function.update_self, Function.update_self]
  · intro x hx
    exact Function.update_of_ne (hOne x hx) _ _
  · intro x hx
    exact Function.update_of_ne (hOne x hx) _ _

/-! ## Instructions -/

theorem Alike.get (h : Alike [.gp, .tp] area c d) (hr : r ≠ .tp ∧ r ≠ .gp) : d.get r = c.get r :=
  h.reg r (by simp [hr])

theorem Data.reads_alike {i : Data} (h : Alike [.gp, .tp] area c d) (hRegs : Ordinary i.regs) :
    (Inst.data i).reads d = (Inst.data i).reads c := by
  have hGet : ∀ r, r ∈ i.regs → d.get r = c.get r := fun r hr => h.get (hRegs r hr)
  cases i with
  | op o =>
      cases o with
      | lw rd off rs1 => simp only [Inst.reads, hGet rs1 (by simp [Data.regs, Op.regs])]
      | lbu rd off rs1 => simp only [Inst.reads, hGet rs1 (by simp [Data.regs, Op.regs])]
      | _ => rfl
  | load f rd off base => simp only [Inst.reads, hGet base (by simp [Data.regs])]
  | _ => rfl

theorem Data.writes_alike {i : Data} (h : Alike [.gp, .tp] area c d) (hRegs : Ordinary i.regs) :
    (Inst.data i).writes d = (Inst.data i).writes c := by
  have hGet : ∀ r, r ∈ i.regs → d.get r = c.get r := fun r hr => h.get (hRegs r hr)
  cases i with
  | op o =>
      cases o with
      | sw rs2 off rs1 => simp only [Inst.writes, hGet rs1 (by simp [Data.regs, Op.regs])]
      | sb rs2 off rs1 => simp only [Inst.writes, hGet rs1 (by simp [Data.regs, Op.regs])]
      | _ => rfl
  | sh rs off base => simp only [Inst.writes, hGet base (by simp [Data.regs])]
  | _ => rfl

/-- Alike results, and memory that is not written stays. -/
def SameEffect (w : Option (Word × Nat)) (area : Word → Prop) (d c' d' : Core) : Prop :=
  Alike [.gp, .tp] (fun x => area x ∧ ¬ Touches w x) c' d' ∧
    ∀ x, ¬ Touches w x → d'.mem x = d.mem x

/-- An instruction that only puts a result into a register. -/
theorem Alike.sameEffect_set (h : Alike [.gp, .tp] area c d) (r : Reg) {v v' : Word}
    (hv : v' = v) : SameEffect none area d (c.set r v) (d.set r v') := by
  rw [hv]
  refine ⟨(h.set r v).mono (fun _ hr => hr) fun x hx => ⟨hx, not_touches_none⟩, ?_⟩
  intro x _
  rfl

theorem Op.exec_alike {op : Op} {c' : Core} (h : Alike [.gp, .tp] area c d)
    (hRegs : Ordinary op.regs)
    (hReads : ∀ x, Touches ((Inst.data (.op op)).reads c) x → ¬ area x)
    (hExec : exec c op = some c') :
    ∃ d', exec d op = some d' ∧ SameEffect ((Inst.data (.op op)).writes c) area d c' d' := by
  have hGet : ∀ r, r ∈ op.regs → d.get r = c.get r := fun r hr => h.get (hRegs r hr)
  cases op with
  | add rd rs1 rs2 =>
      cases hExec
      have h1 := hGet rs1 (by simp [Op.regs])
      have h2 := hGet rs2 (by simp [Op.regs])
      exact ⟨_, rfl, h.sameEffect_set rd (by rw [h1, h2])⟩
  | addi rd rs1 imm =>
      cases hExec
      have h1 := hGet rs1 (by simp [Op.regs])
      exact ⟨_, rfl, h.sameEffect_set rd (by rw [h1])⟩
  | lui rd imm =>
      cases hExec
      exact ⟨_, rfl, h.sameEffect_set rd rfl⟩
  | lw rd off rs1 =>
      have h1 := hGet rs1 (by simp [Op.regs])
      have hLoad : ByteMem.load d.mem (c.get rs1 + BitVec.ofInt 32 off) 4 =
          ByteMem.load c.mem (c.get rs1 + BitVec.ofInt 32 off) 4 :=
        h.load (by decide) fun x hx => hReads x (Touches.some_iff.mpr hx)
      unfold exec at hExec ⊢
      dsimp only at hExec ⊢
      split at hExec
      · rename_i hAl
        cases hExec
        rw [h1, if_pos hAl]
        exact ⟨_, rfl, h.sameEffect_set rd hLoad⟩
      · cases hExec
  | lbu rd off rs1 =>
      cases hExec
      have h1 := hGet rs1 (by simp [Op.regs])
      have hByte : d.mem (c.get rs1 + BitVec.ofInt 32 off) =
          c.mem (c.get rs1 + BitVec.ofInt 32 off) :=
        h.mem _ (hReads _ (Touches.some_iff.mpr (inBlock_one _)))
      exact ⟨_, rfl, h.sameEffect_set rd (by rw [h1, hByte])⟩
  | sw rs2 off rs1 =>
      have h1 := hGet rs1 (by simp [Op.regs])
      have h2 := hGet rs2 (by simp [Op.regs])
      unfold exec at hExec ⊢
      dsimp only at hExec ⊢
      split at hExec
      · rename_i hAl
        cases hExec
        rw [h1, h2, if_pos hAl]
        refine ⟨_, rfl, h.store _ _, ?_⟩
        intro x hx
        exact store_outside _ _ (mt Touches.some_iff.mpr hx)
      · cases hExec
  | sb rs2 off rs1 =>
      cases hExec
      have h1 := hGet rs1 (by simp [Op.regs])
      have h2 := hGet rs2 (by simp [Op.regs])
      unfold exec
      dsimp only
      rw [h1, h2]
      refine ⟨_, rfl, h.store_byte _ _, ?_⟩
      intro x hx
      apply Function.update_of_ne
      rintro rfl
      exact hx (Touches.some_iff.mpr (inBlock_one _))

theorem Load.exec_alike {rd base : Reg} {off : Int} (f : Load) (h : Alike [.gp, .tp] area c d)
    (hBase : base ≠ .tp ∧ base ≠ .gp)
    (hReads : ∀ x, InBlock (c.get base + BitVec.ofInt 32 off) f.bytes x → ¬ area x) :
    SameEffect none area d (f.exec rd off base c) (f.exec rd off base d) := by
  have hGet := h.get hBase
  cases f with
  | lb =>
      have hByte := h.mem _ (hReads _ (inBlock_one _))
      exact h.sameEffect_set rd (by rw [hGet, hByte])
  | lh =>
      have hHalf := h.load (by decide) hReads
      exact h.sameEffect_set rd (by rw [hGet]; exact congrArg _ hHalf)
  | lhu =>
      have hHalf := h.load (by decide) hReads
      exact h.sameEffect_set rd (by rw [hGet]; exact congrArg _ hHalf)

/-- An instruction has the same results on alike cores. -/
theorem Data.exec_alike {i : Data} {addr : Nat → Word} {c' : Core}
    (h : Alike [.gp, .tp] area c d) (hRegs : Ordinary i.regs)
    (hReads : ∀ x, Touches ((Inst.data i).reads c) x → ¬ area x)
    (hExec : i.exec addr c = some c') :
    ∃ d', i.exec addr d = some d' ∧ SameEffect ((Inst.data i).writes c) area d c' d' := by
  have hGet : ∀ r, r ∈ i.regs → d.get r = c.get r := fun r hr => h.get (hRegs r hr)
  cases i with
  | op o => exact Op.exec_alike h hRegs hReads hExec
  | la rd sym =>
      cases hExec
      exact ⟨_, rfl, h.sameEffect_set rd rfl⟩
  | rtype f rd rs1 rs2 =>
      cases hExec
      have h1 := hGet rs1.reg (by simp [Data.regs])
      have h2 := hGet rs2.reg (by simp [Data.regs])
      exact ⟨_, rfl, h.sameEffect_set rd.reg (by rw [h1, h2])⟩
  | itype f rd rs1 imm =>
      cases hExec
      have h1 := hGet rs1.reg (by simp [Data.regs])
      exact ⟨_, rfl, h.sameEffect_set rd.reg (by rw [h1])⟩
  | shift f rd rs1 shamt =>
      cases hExec
      have h1 := hGet rs1.reg (by simp [Data.regs])
      exact ⟨_, rfl, h.sameEffect_set rd.reg (by rw [h1])⟩
  | unary f rd rs =>
      cases hExec
      have h1 := hGet rs.reg (by simp [Data.regs])
      exact ⟨_, rfl, h.sameEffect_set rd.reg (by rw [h1])⟩
  | load f rd off base =>
      cases hExec
      exact ⟨_, rfl, f.exec_alike h (hRegs base (by simp [Data.regs]))
        fun x hx => hReads x (Touches.some_iff.mpr hx)⟩
  | sh rs off base =>
      cases hExec
      have h1 := hGet rs (by simp [Data.regs])
      have h2 := hGet base (by simp [Data.regs])
      unfold Data.exec Rv32i.sh
      dsimp only
      rw [h1, h2]
      refine ⟨_, rfl, h.store _ _, ?_⟩
      intro x hx
      exact store_outside _ _ (mt Touches.some_iff.mpr hx)

end AbstractMachine.Rvmini
