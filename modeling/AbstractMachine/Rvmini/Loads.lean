import AbstractMachine.Rvmini.Shift

/-!
# Loads and stores of less than a word

A signed load puts its highest byte at the top of a word, and shifts it down
again with the sign.
-/

namespace AbstractMachine.Rvmini

open AbstractMachine.Lib ByteMem Function Macro

/-! ## Extensions -/

/-- Bit `i` of a byte at the top of a word, shifted down again. -/
theorem getLsbD_top (y : BitVec 8) {s i : Nat} (hs : s ≤ 24) (hi : i < 32) :
    ((y.setWidth 32 <<< 24).sshiftRight s).getLsbD i =
      if i < 24 - s then false else if i < 32 - s then y.getLsbD (i - (24 - s)) else y.msb := by
  have hBit : ∀ k, k < 32 → (y.setWidth 32 <<< 24).getLsbD k =
      if k < 24 then false else y.getLsbD (k - 24) := by
    intro k hk
    have hSub : k - 24 < 32 := by omega
    by_cases h24 : k < 24
    · simp [BitVec.getLsbD_shiftLeft, h24, -BitVec.getLsbD_eq_getElem]
    · simp [BitVec.getLsbD_shiftLeft, BitVec.getLsbD_setWidth, hk, h24, hSub,
        -BitVec.getLsbD_eq_getElem]
  have hMsb : (y.setWidth 32 <<< 24).msb = y.msb := by
    rw [BitVec.msb_eq_getLsbD_last, hBit _ (by decide), BitVec.msb_eq_getLsbD_last]
    rfl
  rw [BitVec.getLsbD_sshiftRight, hMsb, decide_eq_false (by omega), Bool.not_false, Bool.true_and]
  by_cases hLow : i < 24 - s
  · rw [if_pos hLow, if_pos (by omega), hBit _ (by omega), if_pos (by omega)]
  · by_cases hByte : i < 32 - s
    · have hEq : s + i - 24 = i - (24 - s) := by omega
      rw [if_neg hLow, if_pos hByte, if_pos (by omega), hBit _ (by omega), if_neg (by omega), hEq]
    · rw [if_neg hLow, if_neg hByte, if_neg (by omega)]

private theorem signExtend_byte (y : BitVec 8) :
    (y.setWidth 32 <<< 24).sshiftRight 24 = y.signExtend 32 := by
  apply BitVec.eq_of_getLsbD_eq
  intro i hi
  rw [getLsbD_top y (by decide) hi, BitVec.getLsbD_signExtend, decide_eq_true hi, Bool.true_and,
    if_neg (by omega)]
  rfl

variable {m : ByteMem 32} {a : Word}

private theorem getLsbD_half (i : Nat) (hi : i < 16) : (load m a 2).getLsbD i =
    if i < 8 then (m a).getLsbD i else (m (a + 1)).getLsbD (i - 8) := by
  rw [getLsbD_load, decide_eq_true (by omega), Bool.true_and]
  by_cases h8 : i < 8
  · have hDiv : i / 8 = 0 := by omega
    have hMod : i % 8 = i := by omega
    have hAddr : a + BitVec.ofNat 32 0 = a := BitVec.add_zero a
    rw [if_pos h8, hDiv, hMod, hAddr]
  · have hDiv : i / 8 = 1 := by omega
    have hMod : i % 8 = i - 8 := by omega
    rw [if_neg h8, hDiv, hMod]
    rfl

private theorem getLsbD_low (y : BitVec 8) {i : Nat} (hi : i < 32) :
    (y.setWidth 32).getLsbD i = (decide (i < 8) && y.getLsbD i) := by
  by_cases h8 : i < 8
  · simp [hi, h8, BitVec.getLsbD_setWidth, -BitVec.getLsbD_eq_getElem]
  · simp [h8, BitVec.getLsbD_of_ge y i (by omega), BitVec.getLsbD_setWidth]

private theorem signExtend_half :
    (m a).setWidth 32 + ((m (a + 1)).setWidth 32 <<< 24).sshiftRight 16 =
      (load m a 2).signExtend 32 := by
  have hApart : (m a).setWidth 32 &&& ((m (a + 1)).setWidth 32 <<< 24).sshiftRight 16 = 0 := by
    apply BitVec.eq_of_getLsbD_eq
    intro i hi
    rw [BitVec.getLsbD_and, getLsbD_low _ hi, getLsbD_top _ (by decide) hi]
    by_cases h8 : i < 8
    · rw [if_pos (by omega), Bool.and_false]
      exact BitVec.getLsbD_zero.symm
    · rw [decide_eq_false h8, Bool.false_and, Bool.false_and]
      exact BitVec.getLsbD_zero.symm
  rw [BitVec.add_eq_or_of_and_eq_zero _ _ hApart]
  apply BitVec.eq_of_getLsbD_eq
  intro i hi
  rw [BitVec.getLsbD_or, getLsbD_low _ hi, getLsbD_top _ (by decide) hi, BitVec.getLsbD_signExtend,
    decide_eq_true hi, Bool.true_and]
  by_cases h8 : i < 8
  · rw [if_pos (by omega), if_pos (by omega), getLsbD_half i (by omega), if_pos h8,
      decide_eq_true h8, Bool.true_and, Bool.or_false]
  · rw [decide_eq_false h8, Bool.false_and, Bool.false_or, if_neg (by omega)]
    by_cases h16 : i < 16
    · rw [if_pos (by omega), if_pos h16, getLsbD_half i h16, if_neg h8]
    · have hMsb : (load m a 2).msb = (m (a + 1)).msb := by
        rw [BitVec.msb_eq_getLsbD_last, BitVec.msb_eq_getLsbD_last, getLsbD_half _ (by decide)]
        rfl
      rw [if_neg (by omega), if_neg (by omega), hMsb]

theorem setWidth_half :
    (m a).setWidth 32 + setByte (0 : Word) 1 (m (a + 1)) = (load m a 2).setWidth 32 := by
  have hHigh : ∀ i, i < 32 → (setByte (0 : Word) 1 (m (a + 1))).getLsbD i =
      if 8 ≤ i ∧ i < 16 then (m (a + 1)).getLsbD (i - 8) else false := by
    intro i hi
    rw [getLsbD_setByte, decide_eq_true hi, Bool.true_and]
    by_cases hIn : 8 ≤ i ∧ i < 16
    · rw [if_pos hIn, if_pos hIn]
    · rw [if_neg hIn, if_neg hIn]
      exact BitVec.getLsbD_zero
  have hApart : (m a).setWidth 32 &&& setByte (0 : Word) 1 (m (a + 1)) = 0 := by
    apply BitVec.eq_of_getLsbD_eq
    intro i hi
    rw [BitVec.getLsbD_and, getLsbD_low _ hi, hHigh i hi]
    by_cases h8 : i < 8
    · rw [if_neg (by omega), Bool.and_false]
      exact BitVec.getLsbD_zero.symm
    · rw [decide_eq_false h8, Bool.false_and, Bool.false_and]
      exact BitVec.getLsbD_zero.symm
  rw [BitVec.add_eq_or_of_and_eq_zero _ _ hApart]
  apply BitVec.eq_of_getLsbD_eq
  intro i hi
  rw [BitVec.getLsbD_or, getLsbD_low _ hi, hHigh i hi, BitVec.getLsbD_setWidth, decide_eq_true hi,
    Bool.true_and]
  by_cases h16 : i < 16
  · rw [getLsbD_half i h16]
    by_cases h8 : i < 8
    · rw [if_pos h8, if_neg (by omega), decide_eq_true h8, Bool.true_and, Bool.or_false]
    · rw [if_neg h8, if_pos (by omega), decide_eq_false h8, Bool.false_and, Bool.false_or]
  · rw [BitVec.getLsbD_of_ge (load m a 2) i (by omega), if_neg (by omega),
      decide_eq_false (by omega), Bool.false_and, Bool.false_or]

/-! ## Loads -/

variable {rodata sp : Word} {x : Reg → Word} {u : Nat → Word} {rd base : Reg} {off : Int}

private theorem next_byte (v : Word) (off : Int) :
    v + BitVec.ofInt 32 (1 + off) = v + BitVec.ofInt 32 off + 1 := by
  rw [BitVec.ofInt_add, BitVec.add_comm (BitVec.ofInt 32 1), ← BitVec.add_assoc]
  rfl

private theorem splice_top (y : BitVec 8) : setByte (0 : Word) 3 y = y.setWidth 32 <<< 24 := by
  rw [← splice_24, byte_setWidth_zero _ (by decide)]

/-- `base` may be `rd`, which is written last. -/
theorem run_lhu (hSp : read x .sp = sp) (hAl : Aligned sp) (hRd : rd ≠ .tp) (hBase : base ≠ .tp)
    (ha : read x base + BitVec.ofInt 32 off = a) (h0 : ¬ InScratch sp a)
    (h1 : ¬ InScratch sp (a + 1)) :
    ∃ y u', runOps (lhu rd off base) (core sp x u m) =
        some (core sp (write y rd ((load m a 2).setWidth 32)) u' m) ∧ Agree [.gp, .tp] x y := by
  have ha1 : read x base + BitVec.ofInt 32 (1 + off) = a + 1 := by rw [next_byte, ha]
  have ha0 : ∀ v, read (write x .tp v) base + BitVec.ofInt 32 (0 + off) = a := by
    intro v
    rw [read_write_ne hBase, Int.zero_add, ha]
  unfold lhu
  rw [run_sw hSp hAl (by decide) (by decide), run_lbu_outside ha1 h1,
    run_sb (by simp [hSp]) (by decide) (by decide) (by decide),
    run_lw (by simp [hSp]) hAl (by decide) (by decide), write_write,
    run_lbu_outside (ha0 _) h0, run_add, write_write, read_write_ne hRd.symm]
  simp only [update_self, read_zero, read_write_self (r := .tp) (by decide), setWidth_byte]
  by_cases hz : rd = .zero
  · rw [hz, write_zero]
    exact ⟨_, _, by rw [write_zero]; rfl, Agree.refl.write_scratch (by simp)⟩
  · rw [read_write_self hz, setWidth_half]
    exact ⟨_, _, rfl, Agree.refl.write_scratch (by simp)⟩

/-- The sign is in `gp` when `rd` is written. -/
theorem run_lh (h : Ready rodata sp m) (hSp : read x .sp = sp) (hRd : rd ≠ .gp)
    (hBase : base ≠ .tp ∧ base ≠ .gp) (ha : read x base + BitVec.ofInt 32 off = a)
    (h0 : ¬ InScratch sp a) (h1 : ¬ InScratch sp (a + 1)) :
    ∃ y u', runOps (lh rodata rd off base) (core sp x u m) =
        some (core sp (write y rd ((load m a 2).signExtend 32)) u' m) ∧ Agree [.gp, .tp] x y := by
  have hAl := h.aligned
  have ha1 : read x base + BitVec.ofInt 32 (1 + off) = a + 1 := by rw [next_byte, ha]
  unfold lh srai
  simp only [List.cons_append, List.nil_append]
  rw [run_sw hSp hAl (by decide) (by decide), run_lbu_outside ha1 h1,
    run_sb (by simp [hSp]) (by decide) (by decide) (by decide),
    run_lw (by simp [hSp]) hAl (by decide) (by decide), write_write]
  simp only [update_self, read_zero, read_write_self (r := .gp) (by decide), setWidth_byte]
  obtain ⟨y, u', hRun, hAgree⟩ := run_shift_right_imm
    (x := write x .gp (setByte (0 : Word) 3 (m (a + 1))))
    (u := update (update u VAR_A 0) VAR_A (setByte (0 : Word) 3 (m (a + 1))))
    h (by simp [hSp]) true (show Reg.gp ≠ Reg.tp by decide) .gp (n := 16) (by decide)
    [.lbu rd (0 + off) base, .add rd rd .gp]
  have hOld : Agree [.gp, .tp] x y := by
    intro r hr
    rw [hAgree r hr]
    exact Agree.refl.write_scratch (by simp) r hr
  have ha0 : ∀ v, read (write y .gp v) base + BitVec.ofInt 32 (0 + off) = a := by
    intro v
    rw [read_write_ne hBase.2, hOld base (by simp [hBase]), Int.zero_add, ha]
  rw [hRun, run_lbu_outside (ha0 _) h0, run_add, write_write, read_write_ne hRd.symm,
    read_write_self (r := .gp) (by decide), read_write_self (r := .gp) (by decide), splice_top]
  by_cases hz : rd = .zero
  · rw [hz, write_zero]
    exact ⟨_, _, by rw [write_zero]; rfl, hOld.write_scratch (by simp)⟩
  · have hSum : (m a).setWidth 32 + shiftRight true ((m (a + 1)).setWidth 32 <<< 24) 16 =
        (load m a 2).signExtend 32 := signExtend_half
    rw [read_write_self hz, hSum]
    exact ⟨_, _, rfl, hOld.write_scratch (by simp)⟩

/-- `rd` is used with `sp`, and so has to be another register. -/
theorem run_lb (h : Ready rodata sp m) (hSp : read x .sp = sp) (hRd : rd ≠ .tp) (hNe : rd ≠ .sp)
    (ha : read x base + BitVec.ofInt 32 off = a) (h0 : ¬ InScratch sp a) :
    ∃ y u', runOps (lb rodata rd off base) (core sp x u m) =
        some (core sp (write y rd ((m a).signExtend 32)) u' m) ∧ Agree [.gp, .tp] x y := by
  have hAl := h.aligned
  have hSp' : ∀ v, read (write x rd v) .sp = sp := by
    intro v
    rw [read_write_ne hNe.symm, hSp]
  unfold lb srai
  simp only [List.cons_append, List.nil_append]
  rw [run_sw hSp hAl (by decide) (by decide), run_lbu_outside ha h0,
    run_sb (hSp' _) (by decide) (by decide) (by decide),
    run_lw (hSp' _) hAl (by decide) (by decide),
    write_write]
  simp only [update_self, read_zero]
  obtain ⟨y, u', hRun, hAgree⟩ := run_shift_right_imm (u := update (update u VAR_A 0) VAR_A
      (setByte (0 : Word) 3 ((read (write x rd ((m a).setWidth 32)) rd).setWidth 8)))
    h (hSp' _) true hRd rd (n := 24) (by decide) []
  refine ⟨write y rd (read x rd), u', (run_all hRun).trans ?_, Agree.restore ?_⟩
  · by_cases hz : rd = .zero
    · rw [hz, write_zero, write_zero, write_zero]
    · have hValue : shiftRight true ((m a).setWidth 32 <<< 24) 24 = (m a).signExtend 32 :=
        signExtend_byte _
      rw [read_write_self hz, read_write_self hz, setWidth_byte, splice_top, hValue, write_write]
  · intro r hr
    simp only [List.mem_cons, not_or] at hr
    rw [hAgree r (by simpa using hr.2), read_write_ne hr.1]

/-! ## Stores -/

theorem run_sh (hSp : read x .sp = sp) (hAl : Aligned sp) {rs : Reg} (hBase : base ≠ .tp)
    (ha : read x base + BitVec.ofInt 32 off = a) (h0 : ¬ InScratch sp a)
    (h1 : ¬ InScratch sp (a + 1)) :
    ∃ y u', runOps (Macro.sh rs off base) (core sp x u m) =
        some (core sp y u' (store m a (n := 2) ((read x rs).setWidth 16))) ∧
      Agree [.gp, .tp] x y := by
  have ha1 : ∀ v, read (write x .tp v) base + BitVec.ofInt 32 (1 + off) = a + 1 := by
    intro v
    rw [read_write_ne hBase, next_byte, ha]
  have ha0 : read x base + BitVec.ofInt 32 (0 + off) = a := by rw [Int.zero_add, ha]
  have hStore : update (update m a (byte (read x rs) 0)) (a + 1) (byte (read x rs) 1) =
      store m a (n := 2) ((read x rs).setWidth 16) := by
    have hByte : ∀ b, b < 2 → byte ((read x rs).setWidth 16) b = byte (read x rs) b :=
      fun b hb => byte_setWidth (n := 2) _ hb
    rw [← hByte 0 (by decide), ← hByte 1 (by decide)]
    exact store_two m a _ (by decide)
  unfold Macro.sh
  simp only [List.cons_append, List.nil_append]
  rw [run_sb_outside ha0 h0, run_getbyte hSp hAl (by decide), run_sb_outside (ha1 _) h1,
    read_write_self (by decide), setWidth_byte, setWidth_eq_byte, hStore]
  exact ⟨_, _, rfl, Agree.refl.write_scratch (by simp)⟩

/-! ## Refinement -/

/--
**Loads and stores of less than a word.** They do what RV32I says, at every
address outside the scratch area.  `sp` can be loaded by halves, but not by
`lb`.
-/
theorem subword_implements (rodata : Word) (c : Core) (h : Ready rodata (c.get .sp) c.mem)
    (rd rs base : Reg) (off : Int) (hRd : rd ≠ .tp ∧ rd ≠ .gp) (hBase : base ≠ .tp ∧ base ≠ .gp)
    (h0 : ¬ InScratch (c.get .sp) (c.get base + BitVec.ofInt 32 off)) :
    (rd ≠ .sp → Implements c [.gp, .tp] (lb rodata rd off base) (Rv32i.lb rd off base)) ∧
    (¬ InScratch (c.get .sp) (c.get base + BitVec.ofInt 32 off + 1) →
      Implements c [.gp, .tp] (lh rodata rd off base) (Rv32i.lh rd off base) ∧
      Implements c [.gp, .tp] (lhu rd off base) (Rv32i.lhu rd off base) ∧
      Implements c [.gp, .tp] (Macro.sh rs off base) (Rv32i.sh rs off base)) := by
  refine ⟨?_, ?_⟩
  · intro hSp
    apply implements_set rfl
    intro u
    obtain ⟨y, u', hRun, hAgree⟩ := run_lb (u := u) h rfl hRd.1 hSp rfl h0
    exact ⟨_, _, hRun, hAgree.result⟩
  · intro h1
    refine ⟨?_, ?_, ?_⟩
    · apply implements_set rfl
      intro u
      obtain ⟨y, u', hRun, hAgree⟩ := run_lh (u := u) h rfl hRd.2 hBase rfl h0 h1
      exact ⟨_, _, hRun, hAgree.result⟩
    · apply implements_set rfl
      intro u
      obtain ⟨y, u', hRun, hAgree⟩ :=
        run_lhu (u := u) (m := c.mem) rfl h.aligned hRd.1 hBase.1 rfl h0 h1
      exact ⟨_, _, hRun, hAgree.result⟩
    · apply implements_core
      intro u
      exact run_sh rfl h.aligned hBase.1 rfl h0 h1

/-- A byte loaded over its own base. -/
theorem subword_implements_start :
    Implements (start 0x400#32 0x80000#32) [.gp, .tp] (lb 0x400#32 .a0 0x500 .a0)
      (Rv32i.lb .a0 0x500 .a0) :=
  (subword_implements 0x400#32 (start 0x400#32 0x80000#32)
    (ready_image (by decide) (by decide) (by decide)) .a0 .a1 .a0 0x500 (by decide) (by decide)
    (by decide)).1 (by decide)

/-- With `sp` as its destination, `lb` puts the byte into `sp` and goes on to
store relative to it. -/
theorem lb_sp_wrong :
    Ready 0x400#32 0x80000#32 (image 0x400#32) ∧ ¬ InScratch 0x80000#32 0x500#32 ∧
      ¬ Implements (start 0x400#32 0x80000#32) [.gp, .tp] (lb 0x400#32 .sp 0x500 .zero)
        (Rv32i.lb .sp 0x500 .zero) := by
  have hReady : Ready 0x400#32 0x80000#32 (image 0x400#32) :=
    ready_image (by decide) (by decide) (by decide)
  have hOut : ¬ InScratch 0x80000#32 0x500#32 := by decide
  have hByte : image 0x400#32 0x500#32 = 1 := hReady.loaded.same_result 0 1 rfl
  refine ⟨hReady, hOut, ?_⟩
  rintro ⟨c', hRun, -⟩
  rw [← core_slots 0x80000#32 (start 0x400#32 0x80000#32)] at hRun
  unfold lb at hRun
  simp only [List.cons_append, List.nil_append] at hRun
  have hSp : read (start 0x400#32 0x80000#32).x .sp = 0x80000#32 := rfl
  have hZero : read (start 0x400#32 0x80000#32).x .zero + BitVec.ofInt 32 0x500 = 0x500#32 := by
    rw [read_zero]
    rfl
  have hMem : (start 0x400#32 0x80000#32).mem 0x500#32 = 1 := hByte
  rw [run_sw hSp hReady.aligned (by decide) (by decide), run_lbu_outside hZero hOut, hMem] at hRun
  -- `sp` is 1 now
  rw [runOps, exec, Option.bind_some, runOps, exec, if_neg] at hRun
  · cases hRun
  · rw [get_core, read_write_self (by decide)]
    decide

end AbstractMachine.Rvmini
