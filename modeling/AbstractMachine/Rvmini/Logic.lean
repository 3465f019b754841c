import AbstractMachine.Rvmini.Bytes

/-!
# Arithmetic and logic

`and`, `or` and `xor` look every byte of the result up in a table of 64K, whose
address they keep in the destination.  With `zero` as the destination there is
no such address; then the bytes they read mean nothing, and go nowhere.
-/

namespace AbstractMachine.Rvmini

open AbstractMachine.Lib ByteMem Function Macro Rv32i

variable {rodata sp : Word} {x : Reg → Word} {u : Nat → Word} {m : ByteMem 32} {ops : List Op}
  {rd rs1 rs2 : Reg} {b : Nat}

/-! ## One byte -/

private theorem setByte_low (p q y z : BitVec 8) :
    setByte (setByte (ofBytes 0 0 p q) 1 y) 0 z = ofBytes 0 0 y z := by
  apply word_ext <;> simp [byte_setByte_word]

/-- Any byte can be read. -/
theorem run_lbu_any (off : Int) (rd rs1 : Reg) (ops : List Op) (sp : Word) (x : Reg → Word)
    (u : Nat → Word) (m : ByteMem 32) :
    ∃ y : BitVec 8, runOps (.lbu rd off rs1 :: ops) (core sp x u m) =
      runOps ops (core sp (write x rd (y.setWidth 32)) u m) := ⟨_, rfl⟩

/-- A table that is in memory, outside the scratch area. -/
structure LogicTable (sp : Word) (m : ByteMem 32) (lut : Word)
    (op : BitVec 8 → BitVec 8 → BitVec 8) : Prop where
  table : Logic8 m lut op
  outside : ∀ y z, ¬ InScratch sp (lut + ofBytes 0 0 y z)

theorem Ready.and8 (h : Ready rodata sp m) :
    LogicTable sp m (_and8_table rodata) (· &&& ·) where
  table := h.loaded.and8
  outside := by
    rw [and8_offset]
    exact h.outside_logic (by decide)

theorem Ready.or8 (h : Ready rodata sp m) :
    LogicTable sp m (_or8_table rodata) (· ||| ·) where
  table := h.loaded.or8
  outside := by
    rw [or8_offset]
    exact h.outside_logic (by decide)

theorem Ready.xor8 (h : Ready rodata sp m) :
    LogicTable sp m (_xor8_table rodata) (· ^^^ ·) where
  table := h.loaded.xor8
  outside := by
    rw [xor8_offset]
    exact h.outside_logic (by decide)

section

variable {lut : Word} {op : BitVec 8 → BitVec 8 → BitVec 8}

/-- The byte at the address in `tp`. -/
theorem LogicTable.run_lookup (h : LogicTable sp m lut op) (rd : Reg) {y z : BitVec 8}
    (hTp : rd ≠ .zero → read x .tp = lut + ofBytes 0 0 y z) :
    ∃ r : BitVec 8, runOps (.lbu .tp 0 .tp :: ops) (core sp x u m) =
      runOps ops (core sp (write x .tp (r.setWidth 32)) u m) ∧ (rd ≠ .zero → r = op y z) := by
  by_cases h0 : rd = .zero
  · obtain ⟨r, hr⟩ := run_lbu_any 0 .tp .tp ops sp x u m
    exact ⟨r, hr, fun hNe => absurd h0 hNe⟩
  · refine ⟨op y z, ?_, fun _ => rfl⟩
    rw [← h.table y z]
    apply run_lbu_outside _ (h.outside y z)
    rw [hTp h0]
    exact BitVec.add_zero _

/-- A state between two bytes: what has been computed is in `VAR_C`, and the
last place in the table in `VAR_D`. -/
def between (sp : Word) (x : Reg → Word) (u : Nat → Word) (m : ByteMem 32) (t : Word)
    (p q : BitVec 8) (r : Word) : Core :=
  core sp (write x .tp t) (update (update u VAR_D (ofBytes 0 0 p q)) VAR_C r) m

/-- The two bytes, spliced, are the place in the table. -/
theorem LogicTable.run_byte (h : LogicTable sp m lut op) (hAl : Aligned sp)
    (hSp : read x .sp = sp) (hNe : rd ≠ .tp) (hRd : rd ≠ .zero → read x rd = lut) (hb : b < 4)
    (t : Word) (p q : BitVec 8) (r : Word) :
    ∃ t' p' q' y, runOps (logic8_byte_internal rd b ++ ops) (between sp x u m t p q r) =
        runOps ops (between sp x u m t' p' q' (setByte r b y)) ∧
      (rd ≠ .zero → y = op (byte (u VAR_A) b) (byte (u VAR_B) b)) := by
  have hA : VAR_A ≠ VAR_C ∧ VAR_A ≠ VAR_D := by decide
  have hB : VAR_B ≠ VAR_C ∧ VAR_B ≠ VAR_D := by decide
  have hDC : VAR_D ≠ VAR_C := by decide
  have hCD : VAR_C ≠ VAR_D := by decide
  unfold logic8_byte_internal between
  simp only [List.cons_append, List.nil_append]
  rw [run_lbu (by simp [hSp]) (by decide) (by decide) hb,
    run_sb (by simp [hSp]) (by decide) (by decide) (by decide),
    run_lbu (by simp [hSp]) (by decide) (by decide) hb,
    run_sb (by simp [hSp]) (by decide) (by decide) (by decide),
    run_lw (by simp [hSp]) hAl (by decide) (by decide), run_add]
  simp only [write_write, update_idem, update_self, update_of_ne hA.1, update_of_ne hA.2,
    update_of_ne hB.1, update_of_ne hB.2, update_of_ne hDC, read_write_ne hNe,
    read_write_self (r := .tp) (by decide), setWidth_byte, setByte_low, update_comm hCD]
  have hPlace : rd ≠ .zero →
      read (write x .tp (read x rd + ofBytes 0 0 (byte (u VAR_A) b) (byte (u VAR_B) b))) .tp =
        lut + ofBytes 0 0 (byte (u VAR_A) b) (byte (u VAR_B) b) := by
    intro h0
    rw [read_write_self (by decide), hRd h0]
  obtain ⟨y, hRun, hy⟩ := h.run_lookup rd hPlace
  refine ⟨y.setWidth 32, byte (u VAR_A) b, byte (u VAR_B) b, y, ?_, hy⟩
  rw [hRun, run_sb (by simp [hSp]) (by decide) (by decide) hb, write_write,
    read_write_self (by decide), setWidth_byte, update_self, update_idem]

/-- All four of them. -/
theorem LogicTable.run_bytes (h : LogicTable sp m lut op) (hAl : Aligned sp)
    (hSp : read x .sp = sp) (hNe : rd ≠ .tp) (hRd : rd ≠ .zero → read x rd = lut)
    {v v1 v2 : Word} (hA : u VAR_A = v1) (hB : u VAR_B = v2) (hD : u VAR_D = 0)
    (hv : ∀ b, b < 4 → byte v b = op (byte v1 b) (byte v2 b)) (ops : List Op) :
    ∃ t p q r, runOps (logic8_byte_internal rd 3 ++ (logic8_byte_internal rd 2 ++
        (logic8_byte_internal rd 1 ++ (logic8_byte_internal rd 0 ++ ops)))) (core sp x u m) =
        runOps ops (between sp x u m t p q r) ∧ (rd ≠ .zero → r = v) := by
  have hStart : core sp x u m = between sp x u m (read x .tp) 0 0 (u VAR_C) := by
    have hZero : ofBytes 0 0 0 0 = u VAR_D := hD.symm
    have hEq : update u VAR_D (u VAR_D) = u := update_eq_self _ _
    rw [between, write_read, hZero, hEq, update_eq_self]
  rw [hStart]
  obtain ⟨t3, p3, q3, y3, hRun3, h3⟩ :=
    h.run_byte hAl hSp hNe hRd (b := 3) (by decide) (read x .tp) 0 0 (u VAR_C)
  obtain ⟨t2, p2, q2, y2, hRun2, h2⟩ :=
    h.run_byte hAl hSp hNe hRd (b := 2) (by decide) t3 p3 q3 (setByte (u VAR_C) 3 y3)
  obtain ⟨t1, p1, q1, y1, hRun1, h1⟩ :=
    h.run_byte hAl hSp hNe hRd (b := 1) (by decide) t2 p2 q2 _
  obtain ⟨t0, p0, q0, y0, hRun0, h0⟩ :=
    h.run_byte hAl hSp hNe hRd (b := 0) (by decide) t1 p1 q1 _
  refine ⟨t0, p0, q0, _, (hRun3.trans (hRun2.trans (hRun1.trans hRun0))), ?_⟩
  intro hz
  rw [setByte_all, h3 hz, h2 hz, h1 hz, h0 hz]
  apply word_ext <;> simp [hv, hA, hB]

/-- A macro that does not refuse its operands. -/
theorem LogicTable.run_logic (h : LogicTable sp m lut op) (hAl : Aligned sp)
    (hSp : read x .sp = sp) {rd rs1 rs2 : Name} (hOps : logic lut rd rs1 rs2 = some ops)
    (hTp : rd.reg ≠ .tp) (hNe : rd.reg ≠ .sp) {v : Word}
    (hv : ∀ b, b < 4 → byte v b = op (byte (read x rs1.reg) b) (byte (read x rs2.reg) b)) :
    ∃ x' u', runOps ops (core sp x u m) = some (core sp x' u' m) ∧
      Agree [.tp] (write x rd.reg v) x' := by
  unfold logic at hOps
  by_cases hZero : rd = .x .zero
  · rw [if_pos hZero] at hOps
    cases hOps
    rw [hZero]
    exact ⟨x, u, rfl, Agree.refl⟩
  · rw [if_neg hZero] at hOps
    split at hOps
    · cases hOps
    split at hOps
    · cases hOps
    split at hOps
    · cases hOps
    cases hOps
    simp only [List.append_assoc, List.cons_append, List.nil_append]
    rw [run_sw hSp hAl (by decide) (by decide), run_sw hSp hAl (by decide) (by decide), run_la,
      run_sw (by rw [read_write_ne hNe.symm, hSp]) hAl (by decide) (by decide)]
    obtain ⟨t, p, q, r, hRun, hr⟩ := h.run_bytes (x := write x rd.reg lut)
      (u := update (update (update u VAR_A (read x rs1.reg)) VAR_B (read x rs2.reg)) VAR_D 0)
      hAl (by rw [read_write_ne hNe.symm, hSp]) hTp (fun h0 => read_write_self h0)
      rfl rfl rfl hv [.lw rd.reg (SP_VAR VAR_C) .sp]
    refine ⟨_, _, hRun.trans (run_lw ?_ hAl (by decide) (by decide)), ?_⟩
    · rw [read_write_ne (by decide), read_write_ne hNe.symm, hSp]
    · rw [update_self]
      by_cases h0 : rd.reg = .zero
      · simp only [h0, write_zero]
        exact Agree.write_scratch Agree.refl (by simp)
      · rw [hr h0, write_comm hTp, write_write]
        exact Agree.result (Agree.write_scratch Agree.refl (by simp))

end

/-! ## Refinement -/

variable {c : Core}

/-- `li` and an operation on registers. -/
theorem run_itype (x : Reg → Word) (u : Nat → Word) (m : ByteMem 32) (sp : Word)
    {rtype : Name → Name → Name → Option (List Op)} {rd rs1 : Name} {imm : BitVec 12}
    (hOps : Macro.itype rtype rd rs1 imm = some ops) :
    ∃ ops', rtype rd rs1 (.abi .tp) = some ops' ∧ runOps ops (core sp x u m) =
      runOps ops' (core sp (write x .tp (imm.signExtend 32)) u m) := by
  unfold Macro.itype at hOps
  rw [Option.map_eq_some_iff] at hOps
  obtain ⟨ops', hOps', rfl⟩ := hOps
  exact ⟨ops', hOps', run_li⟩

section

variable {lut : Word} {op : BitVec 8 → BitVec 8 → BitVec 8} {op32 : Word → Word → Word}
  {rd rs1 rs2 : Name}

theorem LogicTable.rtype (h : LogicTable (c.get .sp) c.mem lut op) (hAl : Aligned (c.get .sp))
    (hOp : ∀ y z b, byte (op32 y z) b = op (byte y b) (byte z b))
    (hOps : logic lut rd rs1 rs2 = some ops) (hTp : rd.reg ≠ .tp) (hSp : rd.reg ≠ .sp) :
    Implements c [.tp] ops (Rv32i.rtype op32 rd.reg rs1.reg rs2.reg) := by
  apply implements_set rfl
  intro u
  exact h.run_logic hAl rfl hOps hTp hSp fun b _ => hOp _ _ b

theorem LogicTable.itype (h : LogicTable (c.get .sp) c.mem lut op) (hAl : Aligned (c.get .sp))
    (hOp : ∀ y z b, byte (op32 y z) b = op (byte y b) (byte z b)) {imm : BitVec 12}
    (hOps : Macro.itype (logic lut) rd rs1 imm = some ops) (hTp : rd.reg ≠ .tp)
    (hSp : rd.reg ≠ .sp) (h1 : rs1.reg ≠ .tp) :
    Implements c [.tp] ops (Rv32i.itype op32 rd.reg rs1.reg imm) := by
  apply implements_set rfl
  intro u
  obtain ⟨ops', hOps', hRun⟩ := run_itype c.x u c.mem (c.get .sp) hOps
  have hLi : read (write c.x .tp (imm.signExtend 32)) (Name.abi .tp).reg = imm.signExtend 32 :=
    read_write_self (by decide)
  have hOp32 : ∀ b, b < 4 → byte (op32 (c.get rs1.reg) (imm.signExtend 32)) b =
      op (byte (read (write c.x .tp (imm.signExtend 32)) rs1.reg) b)
        (byte (read (write c.x .tp (imm.signExtend 32)) (Name.abi .tp).reg) b) := by
    intro b _
    rw [hOp, hLi, read_write_ne h1]
    rfl
  have hSp' : read (write c.x .tp (imm.signExtend 32)) .sp = c.get .sp := read_write_ne (by decide)
  obtain ⟨x', u', hRun', hAgree⟩ := h.run_logic (u := u) hAl hSp' hOps' hTp hSp hOp32
  refine ⟨x', u', hRun.trans hRun', ?_⟩
  intro r hr
  rw [hAgree r hr]
  exact Agree.result (Agree.write_scratch Agree.refl (by simp)) r hr

/-- The macros take all registers but `sp`, `gp` and `tp`. -/
theorem logic_takes (h : ∀ n ∈ [rd, rs1, rs2], n.reg ≠ .sp ∧ n.reg ≠ .gp ∧ n.reg ≠ .tp) :
    ∃ ops, logic lut rd rs1 rs2 = some ops := by
  have hAbi : ∀ n ∈ [rd, rs1, rs2], n ≠ .abi .sp ∧ n ≠ .abi .gp ∧ n ≠ .abi .tp := by
    intro n hn
    obtain ⟨hSp, hGp, hTp⟩ := h n hn
    exact ⟨fun hEq => hSp (by rw [hEq]; rfl), fun hEq => hGp (by rw [hEq]; rfl),
      fun hEq => hTp (by rw [hEq]; rfl)⟩
  simp only [List.mem_cons, List.not_mem_nil, or_false, forall_eq_or_imp, forall_eq] at hAbi
  obtain ⟨hRd, h1, h2⟩ := hAbi
  unfold logic
  by_cases hZero : rd = .x .zero
  · exact ⟨[], if_pos hZero⟩
  · rw [if_neg hZero, if_neg (by simp [hRd, h1, h2]), if_neg (by simp [hRd, h1, h2]),
      if_neg (by simp [hRd, h1])]
    exact ⟨_, rfl⟩

end

theorem sub_implements {rd rs1 rs2 : Reg} (h : Ready rodata (c.get .sp) c.mem) (h1 : rs1 ≠ .tp) :
    Implements c [.tp] (sub rodata rd rs1 rs2) (Rv32i.rtype (· - ·) rd rs1 rs2) := by
  apply implements_set rfl
  intro u
  exact ⟨_, _, run_all (run_sub h rfl h1), Agree.result (Agree.write_scratch Agree.refl (by simp))⟩

theorem not_implements {rd rs1 : Reg} (h : Ready rodata (c.get .sp) c.mem) :
    Implements c [.tp] (Macro.not rodata rd rs1) (Rv32i.unary (~~~ ·) rd rs1) := by
  apply implements_set rfl
  intro u
  exact ⟨_, _, run_all (run_not h rfl), Agree.result (Agree.write_scratch Agree.refl (by simp))⟩

/-- No macro is used with `tp` and `gp`. -/
def Plain (r : Reg) : Prop := r ≠ .tp ∧ r ≠ .gp

instance (r : Reg) : Decidable (Plain r) := by
  unfold Plain
  infer_instance

/-- The macros refuse `sp` as the destination, under its name `sp`. -/
theorem logic_sp {lut : Word} {rd rs1 rs2 : Name} (hOps : logic lut rd rs1 rs2 = some ops)
    (hX : rd ≠ .x .sp) : rd.reg ≠ .sp := by
  intro hSp
  have hAbi : rd = .abi .sp := by
    cases rd with
    | abi r => exact congrArg Name.abi hSp
    | x r => exact absurd (congrArg Name.x hSp) hX
    | fp => cases hSp
  unfold logic at hOps
  rw [hAbi, if_neg (by decide), if_pos (Or.inl rfl)] at hOps
  cases hOps

theorem itype_sp {lut : Word} {rd rs1 : Name} {imm : BitVec 12}
    (hOps : Macro.itype (logic lut) rd rs1 imm = some ops) (hX : rd ≠ .x .sp) : rd.reg ≠ .sp := by
  unfold Macro.itype at hOps
  rw [Option.map_eq_some_iff] at hOps
  obtain ⟨ops', hOps', _⟩ := hOps
  exact logic_sp hOps' hX

/--
**Arithmetic and logic.** Whatever operands the macros take, they compute what
RV32I says, and use `tp` and the scratch area only.
-/
theorem logic_implements (rodata : Word) (c : Core) (h : Ready rodata (c.get .sp) c.mem)
    (rd rs1 rs2 : Name) (imm : BitVec 12) (hRd : Plain rd.reg) (h1 : Plain rs1.reg)
    (hX : rd ≠ .x .sp) :
    (∀ ops ∈ Macro.and rodata rd rs1 rs2,
      Implements c [.tp] ops (Rv32i.rtype (· &&& ·) rd.reg rs1.reg rs2.reg)) ∧
    (∀ ops ∈ Macro.or rodata rd rs1 rs2,
      Implements c [.tp] ops (Rv32i.rtype (· ||| ·) rd.reg rs1.reg rs2.reg)) ∧
    (∀ ops ∈ Macro.xor rodata rd rs1 rs2,
      Implements c [.tp] ops (Rv32i.rtype (· ^^^ ·) rd.reg rs1.reg rs2.reg)) ∧
    (∀ ops ∈ andi rodata rd rs1 imm,
      Implements c [.tp] ops (Rv32i.itype (· &&& ·) rd.reg rs1.reg imm)) ∧
    (∀ ops ∈ ori rodata rd rs1 imm,
      Implements c [.tp] ops (Rv32i.itype (· ||| ·) rd.reg rs1.reg imm)) ∧
    (∀ ops ∈ xori rodata rd rs1 imm,
      Implements c [.tp] ops (Rv32i.itype (· ^^^ ·) rd.reg rs1.reg imm)) ∧
    Implements c [.tp] (Macro.not rodata rd.reg rs1.reg) (Rv32i.unary (~~~ ·) rd.reg rs1.reg) ∧
    Implements c [.tp] (sub rodata rd.reg rs1.reg rs2.reg)
      (Rv32i.rtype (· - ·) rd.reg rs1.reg rs2.reg) ∧
    Implements c [.tp] (neg rodata rd.reg rs1.reg) (Rv32i.unary (- ·) rd.reg rs1.reg) := by
  have hAl := h.aligned
  refine ⟨?_, ?_, ?_, ?_, ?_, ?_, not_implements h, sub_implements h h1.1, ?_⟩
  · intro ops hOps
    exact h.and8.rtype hAl byte_and hOps hRd.1 (logic_sp hOps hX)
  · intro ops hOps
    exact h.or8.rtype hAl byte_or hOps hRd.1 (logic_sp hOps hX)
  · intro ops hOps
    exact h.xor8.rtype hAl byte_xor hOps hRd.1 (logic_sp hOps hX)
  · intro ops hOps
    exact h.and8.itype hAl byte_and hOps hRd.1 (itype_sp hOps hX) h1.1
  · intro ops hOps
    exact h.or8.itype hAl byte_or hOps hRd.1 (itype_sp hOps hX) h1.1
  · intro ops hOps
    exact h.xor8.itype hAl byte_xor hOps hRd.1 (itype_sp hOps hX) h1.1
  · have hZero : ∀ v : Word, 0 - v = -v := fun v => BitVec.zero_sub v
    have hNeg : Implements c [.tp] (sub rodata rd.reg .zero rs1.reg)
        (Rv32i.rtype (· - ·) rd.reg .zero rs1.reg) := sub_implements h (by decide)
    unfold Rv32i.rtype at hNeg
    unfold Rv32i.unary neg
    simpa only [Core.get, read_zero, hZero] using hNeg

/-- In place, with `a0`. -/
theorem logic_implements_start :
    ∃ ops, Macro.and 0x1000#32 (.abi .a0) (.abi .a0) (.abi .a1) = some ops ∧
      Implements (start 0x1000#32 0x80000#32) [.tp] ops
        (Rv32i.rtype (· &&& ·) .a0 .a0 .a1) :=
  ⟨_, rfl, (logic_implements 0x1000#32 (start 0x1000#32 0x80000#32)
    (ready_image (by decide) (by decide) (by decide)) (.abi .a0) (.abi .a0) (.abi .a1) 5#12
    (by decide) (by decide) (by decide)).1 _ rfl⟩


/-! ## `sp` under its other name -/

/-- The tables are apart from what would be the scratch area below one of them. -/
theorem lut_outside (lut : Word) (y z : BitVec 8) : ¬ InScratch lut (lut + ofBytes 0 0 y z) := by
  have hy := y.isLt
  have hz := z.isLt
  have hPlace : lut + ofBytes 0 0 y z - (lut - 28) = ofBytes 0 0 y z + 28 := by grind
  have hOff : (ofBytes 0 0 y z).toNat = y.toNat * (256 * 1) + (z.toNat * 1 + 0) := by
    rw [ofBytes_low, BitVec.toNat_ofNat]
    omega
  unfold InScratch InBlock scratchSize
  rw [hPlace, BitVec.toNat_add, hOff]
  have hSmall : (28 : Word).toNat = 28 := rfl
  omega

/-- With `x2` as its destination, a macro moves `sp` to its table, and the scratch area with
it: the four bytes of `VAR_D` are cleared there, and two of them stay 0. -/
theorem LogicTable.run_sp {lut : Word} {op : BitVec 8 → BitVec 8 → BitVec 8}
    {op32 : Word → Word → Word} {rs1 rs2 : Name} (h : LogicTable sp m lut op) (hAl : Aligned sp)
    (hLut : Aligned lut) (hSp : read x .sp = sp)
    (hByte : ∀ y z b, byte (op32 y z) b = op (byte y b) (byte z b))
    (hOps : logic lut (.x .sp) rs1 rs2 = some ops) :
    ∃ c', runOps ops (core sp x u m) = some c' ∧ c'.mem (lut - 28 + BitVec.ofNat 32 3) = 0 := by
  unfold logic at hOps
  rw [if_neg (by decide)] at hOps
  split at hOps
  · cases hOps
  split at hOps
  · cases hOps
  split at hOps
  · cases hOps
  cases hOps
  simp only [List.append_assoc, List.cons_append, List.nil_append]
  rw [run_sw hSp hAl (by decide) (by decide), run_sw hSp hAl (by decide) (by decide), run_la]
  -- from here on the scratch area is the one below `lut`
  generalize hCore : core sp (write x (Name.x .sp).reg lut)
    (update (update u VAR_A (read x rs1.reg)) VAR_B (read x rs2.reg)) m = c
  have hGet : read c.x .sp = lut := by
    rw [← hCore]
    exact read_write_self (by decide)
  have hTable : LogicTable lut c.mem lut op := by
    refine ⟨fun y z => ?_, lut_outside lut⟩
    rw [← hCore, mem_core_outside (h.outside y z)]
    exact h.table y z
  rw [← core_slots lut c, run_sw hGet hLut (by decide) (by decide)]
  generalize (fun n => load c.mem (lut - 28 + BitVec.ofNat 32 (28 - 4 * n)) 4) = u
  have hClear : update u VAR_D (read c.x .zero) VAR_D = 0 := update_self ..
  obtain ⟨t, p, q, r, hRun, -⟩ := hTable.run_bytes (x := c.x)
    (u := update u VAR_D (read c.x .zero)) hLut hGet (show Reg.sp ≠ .tp by decide)
    (fun _ => hGet) (Eq.refl _) (Eq.refl _) hClear (fun b _ => hByte _ _ b)
    [.lw .sp (SP_VAR VAR_C) .sp]
  refine ⟨core lut _ _ c.mem, hRun.trans (run_lw ?_ hLut (by decide) (by decide)), ?_⟩
  · rw [read_write_ne (by decide), hGet]
  · have hPlace : 3 < scratchSize ∧ scratchSize ≤ 2 ^ 32 := by decide
    have hSlot : 7 - 3 / 4 = VAR_D ∧ 3 % 4 = 3 ∧ VAR_D ≠ VAR_C := by decide
    rw [mem_core, window_at hPlace.1 hPlace.2, slots, hSlot.1, hSlot.2.1, update_of_ne hSlot.2.2,
      update_self, byte_ofBytes_3]

/-- `or x2, a0, a1` is not refused, and writes into the table of `and`. -/
theorem or_sp_wrong :
    Ready 0x1000#32 0x80000#32 (image 0x1000#32) ∧ Plain (Name.x .sp).reg ∧
      ∃ ops, Macro.or 0x1000#32 (.x .sp) (.abi .a0) (.abi .a1) = some ops ∧
        ¬ Implements (start 0x1000#32 0x80000#32) [.tp] ops
          (Rv32i.rtype (· ||| ·) .sp .a0 .a1) := by
  have hReady : Ready 0x1000#32 0x80000#32 (image 0x1000#32) :=
    ready_image (by decide) (by decide) (by decide)
  obtain ⟨ops, hOps⟩ : ∃ ops,
      logic (_or8_table 0x1000#32) (.x .sp) (.abi .a0) (.abi .a1) = some ops := ⟨_, rfl⟩
  refine ⟨hReady, by decide, ops, hOps, ?_⟩
  rintro ⟨c', hRun, hAlike⟩
  have hPlace : _or8_table 0x1000#32 - 28 + BitVec.ofNat 32 3 =
      _and8_table 0x1000#32 + ofBytes 0 0 0xff 0xe7 := by decide
  have hEntry : image 0x1000#32 (_or8_table 0x1000#32 - 28 + BitVec.ofNat 32 3) = 0xe7 := by
    rw [hPlace, hReady.loaded.and8]
    rfl
  have hOut : ¬ InScratch 0x80000#32 (_or8_table 0x1000#32 - 28 + BitVec.ofNat 32 3) := by decide
  have hMem : (Rv32i.rtype (· ||| ·) .sp .a0 .a1 (start 0x1000#32 0x80000#32)).mem =
      image 0x1000#32 := rfl
  have hKept := hAlike.mem _ hOut
  rw [hMem, hEntry] at hKept
  rw [← core_slots 0x80000#32 (start 0x1000#32 0x80000#32)] at hRun
  obtain ⟨c'', hRun', hZero⟩ := hReady.or8.run_sp (x := (start 0x1000#32 0x80000#32).x)
    hReady.aligned (by decide) rfl byte_or hOps
  cases hRun.symm.trans hRun'
  exact absurd (hKept.symm.trans hZero) (by decide)

end AbstractMachine.Rvmini
