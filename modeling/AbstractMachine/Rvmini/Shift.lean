import AbstractMachine.Rvmini.Bytes

/-!
# Shifts

A shift looks every byte of its operand up in a row of words, one row for each
amount, and puts the words together.
-/

namespace AbstractMachine.Rvmini

open AbstractMachine.Lib ByteMem Function Macro

variable {rodata sp : Word} {x : Reg → Word} {u : Nat → Word} {m : ByteMem 32} {ops : List Op}
  {rd rs1 rs2 : Reg} {a v : Word} {b j n : Nat}

/-! ## Tables -/

/-- A table of words that is in memory, outside the scratch area. -/
structure ShiftTable (sp : Word) (m : ByteMem 32) (table : Word) (op : Nat → Word → Word) :
    Prop where
  word : Shift8 m table op
  aligned : ∀ j (y : BitVec 8), Aligned (table + BitVec.ofNat 32 (j * 1024) + y.setWidth 32 <<< 2)
  outside : ∀ j (y : BitVec 8), j < 32 →
    Apart (table + BitVec.ofNat 32 (j * 1024) + y.setWidth 32 <<< 2) 4 (sp - 28) scratchSize

theorem Ready.shiftTable (h : Ready rodata sp m) {table : Word} {op : Nat → Word → Word}
    (hWord : Shift8 m table op) (hAt : table = rodata + BitVec.ofNat 32 n) (hn : n % 4 = 0)
    (hFit : n + 32768 ≤ rodataSize) : ShiftTable sp m table op where
  word := hWord
  aligned := by
    intro j y
    have hAlign := h.loaded.align
    rw [hAt]
    unfold Aligned
    simp only [BitVec.toNat_add, BitVec.toNat_ofNat, BitVec.toNat_shiftLeft, Nat.shiftLeft_eq]
    omega
  outside := by
    intro j y hj
    have hy := y.isLt
    have hCol : y.setWidth 32 <<< 2 = BitVec.ofNat 32 (y.toNat * 4) := by
      apply BitVec.eq_of_toNat_eq
      simp [Nat.shiftLeft_eq]
    rw [hAt, hCol, next_symbol, next_symbol]
    apply h.outside4
    omega

private theorem sll8_offset : _sll8_table rodata = rodata + BitVec.ofNat 32 197376 := by
  unfold _sll8_table
  rw [xor8_offset]
  exact next_symbol rodata 131840 65536

private theorem srl8_offset : _srl8_table rodata = rodata + BitVec.ofNat 32 230144 := by
  unfold _srl8_table
  rw [sll8_offset]
  exact next_symbol rodata 197376 32768

private theorem sra8_offset : _sra8_table rodata = rodata + BitVec.ofNat 32 262912 := by
  unfold _sra8_table
  rw [srl8_offset]
  exact next_symbol rodata 230144 32768

theorem Ready.sll8 (h : Ready rodata sp m) :
    ShiftTable sp m (_sll8_table rodata) fun j y => y <<< j :=
  h.shiftTable h.loaded.sll8 sll8_offset (by decide) (by decide)

theorem Ready.srl8 (h : Ready rodata sp m) :
    ShiftTable sp m (_srl8_table rodata) fun j y => (y <<< 24) >>> j :=
  h.shiftTable h.loaded.srl8 srl8_offset (by decide) (by decide)

theorem Ready.sra8 (h : Ready rodata sp m) :
    ShiftTable sp m (_sra8_table rodata) fun j y => (y <<< 24).sshiftRight j :=
  h.shiftTable h.loaded.sra8 sra8_offset (by decide) (by decide)

/-! ## The row -/

/-- The five low bits of the amount. -/
theorem run_getshamt (h : Ready rodata sp m) (hSp : read x .sp = sp) :
    runOps (getshamt rodata .s0 rs2 ++ ops) (core sp x u m) =
      runOps ops (core sp
        (write (write x .tp (_and8_table rodata + (0x1f#32 <<< 8))) .s0
          ((0x1f#8 &&& byte (read x rs2) 0).setWidth 32))
        (update u VAR_B (setByte (u VAR_B) 0 ((read x rs2).setWidth 8))) m) := by
  have hOut : ¬ InScratch sp (_and8_table rodata + ofBytes 0 0 0x1f (byte (read x rs2) 0)) := by
    rw [and8_offset]
    exact h.outside_logic (by decide) _ _
  have hByte : m (_and8_table rodata + ofBytes 0 0 0x1f (byte (read x rs2) 0)) =
      0x1f#8 &&& byte (read x rs2) 0 := h.loaded.and8 _ _
  have hStored : byte (setByte (u VAR_B) 0 ((read x rs2).setWidth 8)) 0 = byte (read x rs2) 0 := by
    rw [byte_setByte_word _ (by decide), if_pos rfl]
    rfl
  unfold getshamt
  simp only [List.append_assoc, List.cons_append, List.nil_append]
  rw [run_sb hSp (by decide) (by decide) (by decide),
    run_lbu hSp (by decide) (by decide) (by decide),
    update_self, hStored, run_la, run_add, run_lbu_outside _ hOut, hByte]
  · rw [write_write, write_comm (r := .s0) (s := .tp) (by decide), write_write]
  · rw [← row_column]
    simp [BitVec.ofInt]
    rfl

/-- The number of the row, in its place. -/
theorem row_offset (v : Word) :
    ofBytes 0 0 (0x1f#8 &&& byte v 0) 0 <<< 2 = BitVec.ofNat 32 (v.toNat % 32 * 1024) := by
  have hLow : (0x1f#8 &&& byte v 0).toNat = v.toNat % 32 := by
    have hByte : (byte v 0).toNat = v.toNat % 256 := by
      unfold byte
      rw [BitVec.extractLsb'_toNat]
      rfl
    have hMask : ∀ n, 31 &&& n = n % 32 := by
      intro n
      rw [Nat.and_comm]
      exact Nat.and_two_pow_sub_one_eq_mod n 5
    rw [BitVec.toNat_and, hByte]
    exact (hMask _).trans (by omega)
  rw [ofBytes_low, hLow]
  apply BitVec.eq_of_toNat_eq
  simp [Nat.shiftLeft_eq]
  omega

/-- `s0` is the address of the row for the amount. -/
theorem run_shiftRow (h : Ready rodata sp m) (hSp : read x .sp = sp) {table : Word} :
    runOps (shiftRow rodata table rs2 ++ ops) (core sp x u m) =
      runOps ops (core sp
        (write (write x .tp table) .s0 (table + BitVec.ofNat 32 ((read x rs2).toNat % 32 * 1024)))
        (update u VAR_B (ofBytes 0 0 (0x1f#8 &&& byte (read x rs2) 0) 0)) m) := by
  have hAl := h.aligned
  have hSplice : ∀ y, setByte (0 : Word) 1 y = ofBytes 0 0 y 0 := by
    intro y
    apply word_ext <;> rw [byte_setByte_word _ (by decide)] <;> simp <;> rfl
  unfold shiftRow
  simp only [List.append_assoc, List.cons_append, List.nil_append]
  rw [run_getshamt h hSp, run_sw (by simp [hSp]) hAl (by decide) (by decide),
    run_sb (by simp [hSp]) (by decide) (by decide) (by decide),
    run_lw (by simp [hSp]) hAl (by decide) (by decide), run_slliSelf (by decide), run_la, run_add]
  have hSwap : ∀ (x : Reg → Word) v w, write (write x .s0 v) .tp w = write (write x .tp w) .s0 v :=
    fun x v w => write_comm (by decide)
  simp only [update_idem, update_self, read_zero, write_write, hSwap, read_write_self, ne_eq,
    reduceCtorEq, not_false_eq_true, read_write_ne, setWidth_byte, hSplice]
  rw [row_offset, BitVec.add_comm]

/-- The word for byte `b` of `VAR_A`. -/
theorem ShiftTable.run_byte {table : Word} {op : Nat → Word → Word}
    (h : ShiftTable sp m table op) (hSp : read x .sp = sp)
    (hRow : read x .s0 = table + BitVec.ofNat 32 (j * 1024)) (hj : j < 32) (hb : b < 4) :
    runOps (get_shift_byte_in_tp .s0 b ++ ops) (core sp x u m) =
      runOps ops (core sp (write x .tp (op j ((byte (u VAR_A) b).setWidth 32))) u m) := by
  have hAddr : ∀ v : Word, v + BitVec.ofInt 32 0 = v := fun v => BitVec.add_zero v
  unfold get_shift_byte_in_tp
  simp only [List.append_assoc, List.cons_append, List.nil_append]
  rw [run_lbu hSp (by decide) (by decide) hb, run_slliSelf (by decide), run_add,
    run_lw_outside _ (h.aligned j (byte (u VAR_A) b)) (h.outside j (byte (u VAR_A) b) hj),
    h.word j _ hj]
  · simp only [write_write]
  · rw [hAddr]
    simp [hRow]

/-! ## Left shifts -/

theorem splice_24 (v : Word) : setByte (0 : Word) 3 (byte v 0) = v <<< 24 := by
  have hByte : ∀ b, b < 4 → byte (v <<< 24) b = if b < 3 then 0 else byte v (b - 3) :=
    fun b hb => byte_shiftLeft (n := 4) v 3 hb
  apply word_ext <;> rw [byte_setByte_word _ (by decide), hByte _ (by decide)] <;> rfl

/-- Whatever is in the two upper bytes. -/
theorem splice_16 {w : Word} (h0 : byte w 0 = 0) (h1 : byte w 1 = 0) (v : Word) :
    setByte (setByte w 2 (byte v 0)) 3 (byte v 1) = v <<< 16 := by
  have hByte : ∀ b, b < 4 → byte (v <<< 16) b = if b < 2 then 0 else byte v (b - 2) :=
    fun b hb => byte_shiftLeft (n := 4) v 2 hb
  apply word_ext <;> rw [byte_setByte_word _ (by decide), byte_setByte_word _ (by decide),
    hByte _ (by decide)] <;> simp [h0, h1]

/-- `sh` into the scratch area. -/
theorem run_sh_slot (hSp : read x .sp = sp) (hAl : Aligned sp) {r : Reg} (hv : read x r = v)
    (h0 : 0 < n) (hn : n < 8) (hC : n ≠ VAR_C) :
    runOps (sh r (SP_VAR_BYTE n 2) .sp ++ ops) (core sp x u m) =
      runOps ops (core sp (write x .tp ((byte v 1).setWidth 32))
        (update (update u n (setByte (setByte (u n) 2 (byte v 0)) 3 (byte v 1))) VAR_C v) m) := by
  have hLow : (0 : Int) + SP_VAR_BYTE n 2 = SP_VAR_BYTE n 2 := Int.zero_add _
  have hHigh : (1 : Int) + SP_VAR_BYTE n 2 = SP_VAR_BYTE n 3 := by
    unfold SP_VAR_BYTE
    omega
  unfold sh
  rw [hLow, hHigh, List.append_assoc, List.append_assoc, List.singleton_append,
    run_sb hSp h0 hn (by decide), run_getbyte hSp hAl (by decide), List.singleton_append,
    run_sb (by simp [hSp]) h0 hn (by decide), read_write_self (by decide), setWidth_byte,
    hv, setWidth_eq_byte, update_of_ne hC, update_self, update_comm hC, update_idem,
    update_comm hC.symm]

/-- Shifted, the bytes still add up. -/
theorem shiftLeft_lanes (a : Word) (j : Nat) :
    ((byte a 3).setWidth 32 <<< j) <<< 24 + ((byte a 2).setWidth 32 <<< j) <<< 16 +
      ((byte a 1).setWidth 32 <<< j) <<< 8 + (byte a 0).setWidth 32 <<< j = a <<< j := by
  have hLane : ∀ b, ((byte a b).setWidth 32 <<< j) <<< (8 * b) = lane a b <<< j := by
    intro b
    unfold lane
    rw [← BitVec.shiftLeft_add, ← BitVec.shiftLeft_add, Nat.add_comm]
  have h0 : (byte a 0).setWidth 32 <<< j = lane a 0 <<< j := by
    unfold lane
    rw [Nat.mul_zero, BitVec.shiftLeft_zero]
  have hSum := congrArg (fun v : Word => v <<< j) (sum_lanes a)
  simp only [BitVec.shiftLeft_add_distrib] at hSum
  rw [h0, hLane 3, hLane 2, hLane 1, BitVec.add_assoc, BitVec.add_assoc,
    ← BitVec.add_assoc (lane a 2 <<< j), hSum]

/-- The words of the bytes, added up. -/
theorem run_sll_bytes (h : Ready rodata sp m) (hSp : read x .sp = sp) (hA : u VAR_A = a)
    (hRow : read x .s0 = _sll8_table rodata + BitVec.ofNat 32 (j * 1024)) (hj : j < 32)
    (ops : List Op) :
    ∃ x' u', runOps (.sw .zero (SP_VAR VAR_B) .sp :: (get_shift_byte_in_tp .s0 3 ++
        (.sb .tp (SP_VAR_BYTE VAR_B 3) .sp :: .lw .gp (SP_VAR VAR_B) .sp ::
        (get_shift_byte_in_tp .s0 2 ++ (Macro.sh .tp (SP_VAR_BYTE VAR_B 2) .sp ++
        (.lw .tp (SP_VAR VAR_B) .sp :: .add .gp .gp .tp ::
        (get_shift_byte_in_tp .s0 1 ++ (slliSelf .tp 8 ++ (.add .gp .gp .tp ::
        (get_shift_byte_in_tp .s0 0 ++ ops)))))))))) (core sp x u m) =
        runOps ops (core sp x' u' m) ∧
      read x' .gp + read x' .tp = a <<< j ∧ Agree [.gp, .tp] x x' ∧ u' 1 = u 1 := by
  have hAl := h.aligned
  have hT := h.sll8
  have hAB : VAR_A ≠ VAR_B := by decide
  have hAC : VAR_A ≠ VAR_C := by decide
  have hBC : VAR_B ≠ VAR_C := by decide
  rw [run_sw hSp hAl (by decide) (by decide), hT.run_byte hSp hRow hj (by decide),
    run_sb (by simp [hSp]) (by decide) (by decide) (by decide),
    run_lw (by simp [hSp]) hAl (by decide) (by decide),
    hT.run_byte (by simp [hSp]) (by simp [hRow]) hj (by decide),
    run_sh_slot (by simp [hSp]) hAl (read_write_self (by decide)) (by decide) (by decide)
      (by decide),
    run_lw (by simp [hSp]) hAl (by decide) (by decide), run_add,
    hT.run_byte (by simp [hSp]) (by simp [hRow]) hj (by decide), run_slliSelf (by decide), run_add,
    hT.run_byte (by simp [hSp]) (by simp [hRow]) hj (by decide)]
  refine ⟨_, _, rfl, ?_, ?_, ?_⟩
  · have hLow : ∀ b, b < 2 → byte (((byte a 3).setWidth 32 <<< j) <<< 24) b = 0 := by
      intro b hb
      refine (byte_shiftLeft (n := 4) _ 3 (by omega)).trans ?_
      rw [if_pos (by omega)]
    simp only [read_write_self, read_write_ne, ne_eq, reduceCtorEq, not_false_eq_true, update_self,
      update_of_ne hAB, update_of_ne hAC, update_of_ne hBC, update_idem, read_zero, hA,
      setWidth_eq_byte, splice_24, splice_16 (hLow 0 (by decide)) (hLow 1 (by decide))]
    exact shiftLeft_lanes a j
  · intro r hr
    simp only [List.mem_cons, List.not_mem_nil, or_false, not_or] at hr
    simp only [read_write_ne hr.1, read_write_ne hr.2]
  · simp [VAR_B, VAR_C]

/-- `s0` is put back before `rd` is written. -/
theorem run_sll (h : Ready rodata sp m) (hSp : read x .sp = sp) (rd rs1 rs2 : Reg)
    (ops : List Op) :
    ∃ y u', runOps (Macro.sll rodata rd rs1 rs2 ++ ops) (core sp x u m) =
        runOps ops (core sp (write y rd (Rv32i.sll (read x rs1) (read x rs2))) u' m) ∧
      Agree [.gp, .tp] x y := by
  have hAl := h.aligned
  have hj : (read x rs2).toNat % 32 < 32 := Nat.mod_lt _ (by decide)
  unfold Macro.sll PUSH POP
  simp only [List.append_assoc, List.cons_append, List.nil_append]
  rw [run_sw hSp hAl (by decide) (by decide), run_sw hSp hAl (by decide) (by decide),
    run_shiftRow h hSp]
  obtain ⟨x', u', hRun, hSum, hAgree, hPushed⟩ := run_sll_bytes (a := read x rs1)
    (x := write (write x .tp (_sll8_table rodata)) .s0
      (_sll8_table rodata + BitVec.ofNat 32 ((read x rs2).toNat % 32 * 1024)))
    (u := update (update (update u 1 (read x .s0)) VAR_A (read x rs1)) VAR_B
      (ofBytes 0 0 (0x1f#8 &&& byte (read x rs2) 0) 0))
    h (by simp [hSp]) rfl (read_write_self (by decide)) hj
    (.lw .s0 (SP_VAR 1) .sp :: .add rd .gp .tp :: ops)
  have hSp' : read x' .sp = sp := by
    rw [hAgree _ (by decide)]
    simp [hSp]
  have hOld : Agree [.s0, .gp, .tp] x x' := by
    intro r hr
    simp only [List.mem_cons, List.not_mem_nil, or_false, not_or] at hr
    rw [hAgree r (by simp [hr]), read_write_ne hr.1, read_write_ne hr.2.2]
  have hS0 : u' 1 = read x .s0 := hPushed
  rw [hRun, run_lw hSp' hAl (by decide) (by decide), run_add, hS0, read_write_ne (by decide),
    read_write_ne (by decide), hSum]
  exact ⟨_, u', rfl, hOld.restore⟩

/-! ## Right shifts -/

/-- The three lower bytes of the result, put together from the upper bytes of
the words: nothing overlaps. -/
theorem low_bytes (a : Word) (j : Nat) :
    let y := fun b => ((byte a b).setWidth 32 <<< 24) >>> j
    ofBytes 0 (byte (y 2) 3) (byte (y 2) 2 + byte (y 1) 3)
        (byte (y 2) 1 + byte (y 1) 2 + byte (y 0) 3) =
      (lane a 2 ||| lane a 1 ||| lane a 0) >>> j := by
  intro y
  have hByte : ∀ b k, b < 4 →
      byte (lane a b >>> j) k = if k ≤ b then byte (y b) (k + 3 - b) else 0 :=
    fun b k hb => byte_lane_ushiftRight a hb j
  have hApart : ∀ b c k, b ≠ c → byte (lane a b >>> j) k &&& byte (lane a c >>> j) k = 0 := by
    intro b c k hNe
    rw [← byte_and, ← BitVec.ushiftRight_and_distrib, lane_and a hNe]
    simp [byte]
  have h1 : byte (y 2) 2 + byte (y 1) 3 = byte (lane a 2 >>> j) 1 ||| byte (lane a 1 >>> j) 1 := by
    rw [← BitVec.add_eq_or_of_and_eq_zero _ _ (hApart 2 1 1 (by decide)), hByte 2 1 (by decide),
      hByte 1 1 (by decide)]
    rfl
  have h0 : byte (y 2) 1 + byte (y 1) 2 + byte (y 0) 3 =
      byte (lane a 2 >>> j) 0 ||| byte (lane a 1 >>> j) 0 ||| byte (lane a 0 >>> j) 0 := by
    rw [← BitVec.add_eq_or_of_and_eq_zero _ _
        (and_or_zero (hApart 2 0 0 (by decide)) (hApart 1 0 0 (by decide))),
      ← BitVec.add_eq_or_of_and_eq_zero _ _ (hApart 2 1 0 (by decide)), hByte 2 0 (by decide),
      hByte 1 0 (by decide), hByte 0 0 (by decide)]
    rfl
  rw [h1, h0, BitVec.ushiftRight_or_distrib, BitVec.ushiftRight_or_distrib]
  apply word_ext <;> simp [hByte]

private theorem low_and (a : Word) : (lane a 2 ||| lane a 1 ||| lane a 0) &&& lane a 3 = 0 :=
  and_or_zero (and_or_zero (lane_and a (by decide)) (lane_and a (by decide)))
    (lane_and a (by decide))

/-- The word of the highest byte is added at the end. -/
theorem srl_sum (a : Word) (j : Nat) :
    (lane a 2 ||| lane a 1 ||| lane a 0) >>> j + ((byte a 3).setWidth 32 <<< 24) >>> j =
      a >>> j := by
  have hApart : (lane a 2 ||| lane a 1 ||| lane a 0) >>> j &&& lane a 3 >>> j = 0 := by
    rw [← BitVec.ushiftRight_and_distrib, low_and]
    exact BitVec.zero_ushiftRight
  refine (BitVec.add_eq_or_of_and_eq_zero _ _ hApart).trans ?_
  rw [← BitVec.ushiftRight_or_distrib, BitVec.or_comm, or_lanes]

/-- For an arithmetic shift, that word carries the sign. -/
theorem sra_sum (a : Word) (j : Nat) :
    (lane a 2 ||| lane a 1 ||| lane a 0) >>> j + ((byte a 3).setWidth 32 <<< 24).sshiftRight j =
      a.sshiftRight j := by
  have hMsb : (lane a 2 ||| lane a 1 ||| lane a 0).msb = false := by
    rw [BitVec.msb_eq_getLsbD_last]
    simp [BitVec.getLsbD_or, getLsbD_lane, -BitVec.getLsbD_eq_getElem]
  have hApart : (lane a 2 ||| lane a 1 ||| lane a 0).sshiftRight j &&& (lane a 3).sshiftRight j =
      0 := by
    rw [← BitVec.sshiftRight_and_distrib, low_and]
    exact BitVec.zero_sshiftRight
  rw [← BitVec.sshiftRight_eq_of_msb_false hMsb]
  refine (BitVec.add_eq_or_of_and_eq_zero _ _ hApart).trans ?_
  rw [← BitVec.sshiftRight_or_distrib, BitVec.or_comm, or_lanes]

private theorem setByte_middle (v : Word) (b2 b1 : BitVec 8) :
    setByte (setByte v 1 b1) 2 b2 = ofBytes (byte v 3) b2 b1 (byte v 0) := by
  apply word_ext <;> rw [byte_setByte_word _ (by decide), byte_setByte_word _ (by decide)] <;>
    simp

/-- Three bytes, added as words. -/
theorem byte_sum (p q r : BitVec 8) :
    byte (p.setWidth 32 + q.setWidth 32 + r.setWidth 32) 0 = p + q + r ∧
      byte (p.setWidth 32 + q.setWidth 32 + r.setWidth 32) 3 = 0 := by
  have hp := p.isLt
  have hq := q.isLt
  have hr := r.isLt
  constructor
  · rw [← setWidth_eq_byte, BitVec.setWidth_add _ _ (by decide),
      BitVec.setWidth_add _ _ (by decide)]
    simp
  · apply BitVec.eq_of_toNat_eq
    unfold byte
    simp [BitVec.extractLsb'_toNat, Nat.shiftRight_eq_div_pow]
    omega

private theorem run_shiftRightLow (h : Ready rodata sp m) (hSp : read x .sp = sp) (hA : u VAR_A = a)
    (hRow : read x .s0 = _srl8_table rodata + BitVec.ofNat 32 (j * 1024)) (hj : j < 32)
    (ops : List Op) :
    ∃ x' u', runOps (shiftRightLow ++ ops) (core sp x u m) = runOps ops (core sp x' u' m) ∧
      read x' .gp = (lane a 2 ||| lane a 1 ||| lane a 0) >>> j ∧ Agree [.gp, .tp] x x' ∧
      u' 1 = u 1 ∧ u' VAR_A = a := by
  have hAl := h.aligned
  have hT := h.srl8
  have hAB : VAR_A ≠ VAR_B := by decide
  have hAC : VAR_A ≠ VAR_C := by decide
  have hBC : VAR_B ≠ VAR_C := by decide
  have hBD : VAR_B ≠ VAR_D := by decide
  have hCD : VAR_C ≠ VAR_D := by decide
  unfold shiftRightLow
  simp only [List.append_assoc, List.cons_append, List.nil_append]
  rw [hT.run_byte hSp hRow hj (by decide), run_sw (by simp [hSp]) hAl (by decide) (by decide),
    hT.run_byte (by simp [hSp]) (by simp [hRow]) hj (by decide),
    run_sw (by simp [hSp]) hAl (by decide) (by decide),
    hT.run_byte (by simp [hSp]) (by simp [hRow]) hj (by decide),
    run_sw (by simp [hSp]) hAl (by decide) (by decide),
    run_lbu (by simp [hSp]) (by decide) (by decide) (by decide),
    run_lbu (by simp [hSp]) (by decide) (by decide) (by decide), run_add,
    run_lbu (by simp [hSp]) (by decide) (by decide) (by decide), run_add,
    run_sw (by simp [hSp]) hAl (by decide) (by decide),
    run_lbu (by simp [hSp]) (by decide) (by decide) (by decide),
    run_lbu (by simp [hSp]) (by decide) (by decide) (by decide), run_add,
    run_sb (by simp [hSp]) (by decide) (by decide) (by decide),
    run_lbu (by simp [hSp]) (by decide) (by decide) (by decide),
    run_sb (by simp [hSp]) (by decide) (by decide) (by decide),
    run_lw (by simp [hSp]) hAl (by decide) (by decide)]
  refine ⟨_, _, rfl, ?_, ?_, ?_, ?_⟩
  · simp only [read_write_self, read_write_ne, ne_eq, reduceCtorEq, not_false_eq_true, update_self,
      update_of_ne hAB, update_of_ne hAC, update_of_ne hBC, update_of_ne hBD, update_of_ne hCD, hA,
      setByte_middle, (byte_sum _ _ _).1, (byte_sum _ _ _).2]
    rw [BitVec.setWidth_add _ _ (by decide)]
    simp only [setWidth_byte]
    exact low_bytes a j
  · intro r hr
    simp only [List.mem_cons, List.not_mem_nil, or_false, not_or] at hr
    simp only [read_write_ne hr.1, read_write_ne hr.2]
  · simp [VAR_B, VAR_C, VAR_D]
  · simp [VAR_A, VAR_B, VAR_C, VAR_D, ← hA]

/-- The kind of a right shift. -/
def shiftRight (is_arith : Bool) (a : Word) (j : Nat) : Word :=
  if is_arith then a.sshiftRight j else a >>> j

/-- What follows the row, which is one of `_srl8_table` in both cases. -/
theorem run_right (h : Ready rodata sp m) (hSp : read x .sp = sp) (hA : u VAR_A = a)
    (hRow : read x .s0 = _srl8_table rodata + BitVec.ofNat 32 (j * 1024)) (hj : j < 32)
    (is_arith : Bool) (rd : Reg) (ops : List Op) :
    ∃ y u', runOps (shiftRightLow ++
        ((if is_arith then
            la .tp (_sra8_table rodata - _srl8_table rodata) ++ [.add .s0 .s0 .tp]
          else []) ++
        (get_shift_byte_in_tp .s0 3 ++ (.lw .s0 (SP_VAR 1) .sp :: .add rd .gp .tp :: ops))))
          (core sp x u m) =
        runOps ops (core sp (write (write y .s0 (u 1)) rd (shiftRight is_arith a j)) u' m) ∧
      Agree [.s0, .gp, .tp] x y := by
  have hAl := h.aligned
  obtain ⟨x', u', hRun, hLow, hAgree, hPushed, hA'⟩ := run_shiftRightLow h hSp hA hRow hj
    ((if is_arith then la .tp (_sra8_table rodata - _srl8_table rodata) ++ [.add .s0 .s0 .tp]
        else []) ++
      (get_shift_byte_in_tp .s0 3 ++ (.lw .s0 (SP_VAR 1) .sp :: .add rd .gp .tp :: ops)))
  have hSp' : read x' .sp = sp := by rw [hAgree _ (by decide), hSp]
  have hRow' : read x' .s0 = _srl8_table rodata + BitVec.ofNat 32 (j * 1024) := by
    rw [hAgree _ (by decide), hRow]
  have hOld : Agree [.s0, .gp, .tp] x x' := by
    intro r hr
    apply hAgree
    simp only [List.mem_cons, List.not_mem_nil, or_false, not_or] at hr ⊢
    exact hr.2
  rw [hRun]
  cases is_arith with
  | false =>
      rw [if_neg (by decide), List.nil_append, h.srl8.run_byte hSp' hRow' hj (by decide),
        run_lw (by simp [hSp']) hAl (by decide) (by decide), run_add, hPushed, hA',
        read_write_ne (by decide), read_write_ne (by decide), hLow, read_write_ne (by decide),
        read_write_self (by decide), srl_sum]
      exact ⟨_, u', rfl, hOld.write_scratch (by simp)⟩
  | true =>
      have hSra : _srl8_table rodata + BitVec.ofNat 32 (j * 1024) +
          (_sra8_table rodata - _srl8_table rodata) =
          _sra8_table rodata + BitVec.ofNat 32 (j * 1024) := by grind
      rw [if_pos rfl, List.append_assoc, run_la, List.singleton_append, run_add,
        h.sra8.run_byte (by simp [hSp']) (by simp [hRow', hSra]) hj (by decide),
        run_lw (by simp [hSp']) hAl (by decide) (by decide), run_add, hPushed, hA']
      have hSum : ∀ v w t s, read (write (write (write (write x' .tp v) .s0 w) .tp t) .s0 s) .gp +
          read (write (write (write (write x' .tp v) .s0 w) .tp t) .s0 s) .tp =
            (lane a 2 ||| lane a 1 ||| lane a 0) >>> j + t := by
        intro v w t s
        simp [hLow]
      rw [hSum, sra_sum]
      exact ⟨_, u', rfl, ((hOld.write_scratch (by simp)).write_scratch (by simp)).write_scratch
        (by simp)⟩

private theorem run_shift_right_reg (h : Ready rodata sp m) (hSp : read x .sp = sp)
    (is_arith : Bool)
    (rd rs1 rs2 : Reg) (ops : List Op) :
    ∃ y u', runOps (shift_right_template rodata rd rs1 (.reg rs2) is_arith ++ ops)
          (core sp x u m) =
        runOps ops (core sp
          (write y rd (shiftRight is_arith (read x rs1) ((read x rs2).toNat % 32))) u' m) ∧
      Agree [.gp, .tp] x y := by
  have hAl := h.aligned
  have hj : (read x rs2).toNat % 32 < 32 := Nat.mod_lt _ (by decide)
  unfold shift_right_template PUSH POP
  simp only [List.append_assoc, List.cons_append, List.nil_append]
  rw [run_sw hSp hAl (by decide) (by decide), run_sw hSp hAl (by decide) (by decide),
    run_shiftRow h hSp]
  obtain ⟨y, u', hRun, hAgree⟩ := run_right (a := read x rs1)
    (x := write (write x .tp (_srl8_table rodata)) .s0
      (_srl8_table rodata + BitVec.ofNat 32 ((read x rs2).toNat % 32 * 1024)))
    (u := update (update (update u 1 (read x .s0)) VAR_A (read x rs1)) VAR_B
      (ofBytes 0 0 (0x1f#8 &&& byte (read x rs2) 0) 0))
    h (by simp [hSp]) rfl (read_write_self (by decide)) hj is_arith rd ops
  have hOld : Agree [.s0, .gp, .tp] x y := by
    intro r hr
    rw [hAgree r hr]
    simp only [List.mem_cons, List.not_mem_nil, or_false, not_or] at hr
    rw [read_write_ne hr.1, read_write_ne hr.2.2]
  exact ⟨_, u', hRun, hOld.restore⟩

private theorem row_imm (n : Nat) : BitVec.ofNat 32 n <<< 10 = BitVec.ofNat 32 (n * 1024) := by
  apply BitVec.eq_of_toNat_eq
  simp [Nat.shiftLeft_eq]

private theorem byte_top (a : Word) : (byte a 3).setWidth 32 = a >>> 24 := by
  apply BitVec.eq_of_getLsbD_eq
  intro i hi
  rw [BitVec.getLsbD_setWidth, getLsbD_byte, BitVec.getLsbD_ushiftRight, decide_eq_true hi,
    Bool.true_and]
  by_cases h8 : i < 8
  · rw [decide_eq_true h8, Bool.true_and]
  · rw [decide_eq_false h8, BitVec.getLsbD_of_ge a _ (by omega), Bool.false_and]

private theorem sshiftRight_top (a : Word) :
    ((byte a 3).setWidth 32 <<< 24).sshiftRight 24 = a.sshiftRight 24 := by
  have hLow : (lane a 2 ||| lane a 1 ||| lane a 0) >>> 24 = 0 := by
    apply BitVec.eq_of_getLsbD_eq
    intro i hi
    have h2 : ¬ 24 + i < 24 := by omega
    rw [BitVec.getLsbD_ushiftRight, BitVec.getLsbD_or, BitVec.getLsbD_or, getLsbD_lane,
      getLsbD_lane, getLsbD_lane]
    simp
    omega
  rw [← sra_sum a 24, hLow]
  exact (BitVec.zero_add _).symm

/-- An immediate of 24 has a code of its own. -/
theorem run_shift_right_24 (h : Ready rodata sp m) (hSp : read x .sp = sp) (is_arith : Bool)
    (hRd : rd ≠ .tp) (rs1 : Reg) (ops : List Op) :
    ∃ y u', runOps (shift_right_24 rodata rd rs1 is_arith ++ ops) (core sp x u m) =
        runOps ops (core sp (write y rd (shiftRight is_arith (read x rs1) 24)) u' m) ∧
      Agree [.gp, .tp] x y := by
  have hAl := h.aligned
  unfold shift_right_24
  cases is_arith with
  | false =>
      rw [if_neg (by decide), run_getbyte hSp hAl (by decide), byte_top]
      exact ⟨x, _, rfl, Agree.refl⟩
  | true =>
      have hLoad : ∀ (x : Reg → Word) u (q : BitVec 8),
          read x .tp = _sra8_table rodata + BitVec.ofNat 32 (24 * 1024) + q.setWidth 32 <<< 2 →
          runOps (.lw rd 0 .tp :: ops) (core sp x u m) =
            runOps ops (core sp (write x rd ((q.setWidth 32 <<< 24).sshiftRight 24)) u m) := by
        intro x u q hTp
        rw [run_lw_outside _ (h.sra8.aligned 24 q) (h.sra8.outside 24 q (by decide)),
          h.sra8.word 24 q (by decide)]
        rw [hTp]
        exact BitVec.add_zero _
      rw [if_pos rfl]
      simp only [List.append_assoc, List.cons_append, List.nil_append]
      rw [run_sw hSp hAl (by decide) (by decide), run_la,
        run_lbu (by simp [hSp]) (by decide) (by decide) (by decide), run_slliSelf (by decide),
        run_add]
      by_cases h0 : rd = .zero
      · -- nothing is written, and the row itself is read
        rw [h0] at hLoad ⊢
        rw [hLoad _ _ 0 (by simp)]
        simp only [write_zero]
        exact ⟨_, _, rfl, (Agree.refl.write_scratch (by simp)).write_scratch (by simp)⟩
      · rw [hLoad _ _ (byte (read x rs1) 3) (by simp [h0, hRd.symm])]
        simp only [write_write, write_comm hRd, sshiftRight_top]
        exact ⟨_, _, rfl, Agree.refl.write_scratch (by simp)⟩

theorem run_shift_right_imm (h : Ready rodata sp m) (hSp : read x .sp = sp) (is_arith : Bool)
    (hRd : rd ≠ .tp) (rs1 : Reg) {n : Nat} (hn : n < 32) (ops : List Op) :
    ∃ y u', runOps (shift_right_template rodata rd rs1 (.imm n) is_arith ++ ops) (core sp x u m) =
        runOps ops (core sp (write y rd (shiftRight is_arith (read x rs1) n)) u' m) ∧
      Agree [.gp, .tp] x y := by
  have hAl := h.aligned
  by_cases h24 : n = 24
  · have hFast : shift_right_template rodata rd rs1 (.imm n) is_arith =
        shift_right_24 rodata rd rs1 is_arith := by
      unfold shift_right_template
      exact if_pos h24
    rw [hFast, h24]
    exact run_shift_right_24 h hSp is_arith hRd rs1 ops
  · unfold shift_right_template PUSH POP
    simp only [if_neg h24, List.append_assoc, List.cons_append, List.nil_append]
    rw [run_sw hSp hAl (by decide) (by decide), run_sw hSp hAl (by decide) (by decide), run_la]
    obtain ⟨y, u', hRun, hAgree⟩ := run_right (a := read x rs1)
      (x := write x .s0 (_srl8_table rodata + (BitVec.ofNat 32 n <<< 10)))
      (u := update (update u 1 (read x .s0)) VAR_A (read x rs1))
      h (by simp [hSp]) rfl (by rw [read_write_self (by decide), row_imm]) hn is_arith rd ops
    have hOld : Agree [.s0, .gp, .tp] x y := by
      intro r hr
      rw [hAgree r hr]
      simp only [List.mem_cons, List.not_mem_nil, or_false, not_or] at hr
      rw [read_write_ne hr.1]
    exact ⟨_, u', hRun, hOld.restore⟩

/-! ## Left shifts by a constant -/

private theorem write_shift (k : Nat) :
    write (write x rd v) rd (read (write x rd v) rd <<< k) = write x rd (v <<< k) := by
  by_cases h0 : rd = .zero
  · rw [h0, write_zero, write_zero, write_zero]
  · rw [read_write_self h0, write_write]

private theorem run_slli_low (rd rs1 : Name) {k : Nat} (hk : k < 16) (ops : List Op) :
    runOps (slli rd rs1 k ++ ops) (core sp x u m) =
      runOps ops (core sp (write x rd.reg (read x rs1.reg <<< k)) u m) := by
  have hMove : read x rs1.reg + BitVec.ofInt 32 0 = read x rs1.reg := BitVec.add_zero _
  rw [slli]
  by_cases h0 : k = 0
  · rw [if_pos h0, h0, BitVec.shiftLeft_zero]
    by_cases hSame : rd = rs1
    · rw [if_neg (not_not.mpr hSame), hSame, write_read]
      rfl
    · rw [if_pos hSame]
      refine run_addi.trans ?_
      rw [hMove]
      rfl
  · have hDouble : (read x rs1.reg + read x rs1.reg) <<< (k - 1) = read x rs1.reg <<< k := by
      have hSucc := shiftLeft_succ (read x rs1.reg) 0
      rw [BitVec.shiftLeft_zero] at hSucc
      rw [← hSucc, ← BitVec.shiftLeft_add]
      congr 1
      omega
    rw [if_neg h0, if_neg (by omega), if_neg (by omega), List.cons_append, run_add, run_replicate,
      write_shift, hDouble]

/-- From 16 on, whole bytes are moved first. -/
theorem run_slli (hSp : read x .sp = sp) (hAl : Aligned sp) (rd rs1 : Name) {n : Nat}
    (hn : n < 32) (ops : List Op) :
    ∃ y u', runOps (slli rd rs1 n ++ ops) (core sp x u m) =
        runOps ops (core sp (write y rd.reg (read x rs1.reg <<< n)) u' m) ∧
      Agree [.gp, .tp] x y := by
  by_cases h16 : n < 16
  · exact ⟨x, u, run_slli_low rd rs1 h16 ops, Agree.refl⟩
  by_cases h24 : n < 24
  · have hSum : (read x rs1.reg <<< 16) <<< (n - 16) = read x rs1.reg <<< n := by
      rw [← BitVec.shiftLeft_add]
      congr 1
      omega
    rw [slli, if_neg (by omega), if_neg (by omega), if_pos (by omega)]
    simp only [List.append_assoc, List.cons_append, List.nil_append]
    rw [run_sw hSp hAl (by decide) (by decide),
      run_sh_slot hSp hAl rfl (by decide) (by decide) (by decide),
      run_lw (by simp [hSp]) hAl (by decide) (by decide), run_slli_self rd (by omega), write_shift,
      update_of_ne (by decide), update_self, update_self, read_zero, splice_16 rfl rfl, hSum]
    exact ⟨_, _, rfl, Agree.refl.write_scratch (by simp)⟩
  · have hSum : (read x rs1.reg <<< 24) <<< (n - 24) = read x rs1.reg <<< n := by
      rw [← BitVec.shiftLeft_add]
      congr 1
      omega
    rw [slli, if_neg (by omega), if_pos (by omega)]
    simp only [List.cons_append, List.nil_append]
    rw [run_sw hSp hAl (by decide) (by decide), run_sb hSp (by decide) (by decide) (by decide),
      run_lw hSp hAl (by decide) (by decide), run_slli_self rd (by omega), write_shift,
      update_self, update_self, read_zero, setWidth_eq_byte, splice_24, hSum]
    exact ⟨x, _, rfl, Agree.refl⟩

/-! ## Refinement -/

variable {c : Core}

theorem sll_implements (h : Ready rodata (c.get .sp) c.mem) (rd rs1 rs2 : Reg) :
    Implements c [.gp, .tp] (Macro.sll rodata rd rs1 rs2)
      (Rv32i.rtype Rv32i.sll rd rs1 rs2) := by
  apply implements_set rfl
  intro u
  obtain ⟨y, u', hRun, hAgree⟩ := run_sll (u := u) h rfl rd rs1 rs2 []
  exact ⟨_, _, run_all hRun, hAgree.result⟩

private theorem toNat_shamt {n : Nat} (hn : n < 32) : (BitVec.ofNat 32 n).toNat % 32 = n := by
  rw [BitVec.toNat_ofNat]
  omega

section

variable {is_arith : Bool} {op : Word → Word → Word}

theorem shift_right_implements (h : Ready rodata (c.get .sp) c.mem)
    (hOp : ∀ a b, op a b = shiftRight is_arith a (b.toNat % 32)) (rd rs1 rs2 : Reg) :
    Implements c [.gp, .tp] (shift_right_template rodata rd rs1 (.reg rs2) is_arith)
      (Rv32i.rtype op rd rs1 rs2) := by
  apply implements_set rfl
  intro u
  obtain ⟨y, u', hRun, hAgree⟩ := run_shift_right_reg (u := u) h rfl is_arith rd rs1 rs2 []
  refine ⟨_, _, run_all hRun, ?_⟩
  rw [hOp]
  exact hAgree.result

theorem shift_right_imm_implements (h : Ready rodata (c.get .sp) c.mem)
    (hOp : ∀ a b, op a b = shiftRight is_arith a (b.toNat % 32)) (hRd : rd ≠ .tp) (rs1 : Reg)
    {n : Nat} (hn : n < 32) :
    Implements c [.gp, .tp] (shift_right_template rodata rd rs1 (.imm n) is_arith)
      (Rv32i.ishift op rd rs1 n) := by
  apply implements_set rfl
  intro u
  obtain ⟨y, u', hRun, hAgree⟩ := run_shift_right_imm (u := u) h rfl is_arith hRd rs1 hn []
  refine ⟨_, _, run_all hRun, ?_⟩
  rw [hOp, toNat_shamt hn]
  exact hAgree.result

end

theorem slli_implements (hAl : Aligned (c.get .sp)) (rd rs1 : Name) {n : Nat} (hn : n < 32) :
    Implements c [.gp, .tp] (slli rd rs1 n) (Rv32i.ishift Rv32i.sll rd.reg rs1.reg n) := by
  apply implements_set rfl
  intro u
  obtain ⟨y, u', hRun, hAgree⟩ := run_slli (x := c.x) (u := u) (m := c.mem) rfl hAl rd rs1 hn []
  refine ⟨_, _, run_all hRun, ?_⟩
  unfold Rv32i.sll
  rw [toNat_shamt hn]
  exact hAgree.result

/--
**Shifts.** Whatever the operands, they compute what RV32I says, and use `gp`,
`tp` and the scratch area only.
-/
theorem shift_implements (rodata : Word) (c : Core) (h : Ready rodata (c.get .sp) c.mem)
    (rd rs1 rs2 : Name) (shamt : Nat) (hRd : rd.reg ≠ .tp) (hImm : shamt < 32) :
    Implements c [.gp, .tp] (Macro.sll rodata rd.reg rs1.reg rs2.reg)
      (Rv32i.rtype Rv32i.sll rd.reg rs1.reg rs2.reg) ∧
    Implements c [.gp, .tp] (Macro.srl rodata rd.reg rs1.reg rs2.reg)
      (Rv32i.rtype Rv32i.srl rd.reg rs1.reg rs2.reg) ∧
    Implements c [.gp, .tp] (Macro.sra rodata rd.reg rs1.reg rs2.reg)
      (Rv32i.rtype Rv32i.sra rd.reg rs1.reg rs2.reg) ∧
    Implements c [.gp, .tp] (slli rd rs1 shamt) (Rv32i.ishift Rv32i.sll rd.reg rs1.reg shamt) ∧
    Implements c [.gp, .tp] (srli rodata rd.reg rs1.reg shamt)
      (Rv32i.ishift Rv32i.srl rd.reg rs1.reg shamt) ∧
    Implements c [.gp, .tp] (srai rodata rd.reg rs1.reg shamt)
      (Rv32i.ishift Rv32i.sra rd.reg rs1.reg shamt) := by
  have hSrl : ∀ a b, Rv32i.srl a b = shiftRight false a (b.toNat % 32) := fun _ _ => rfl
  have hSra : ∀ a b, Rv32i.sra a b = shiftRight true a (b.toNat % 32) := fun _ _ => rfl
  exact ⟨sll_implements h _ _ _, shift_right_implements h hSrl _ _ _,
    shift_right_implements h hSra _ _ _, slli_implements h.aligned rd rs1 hImm,
    shift_right_imm_implements h hSrl hRd _ hImm, shift_right_imm_implements h hSra hRd _ hImm⟩

/-- `s0` by itself, into itself, and by 24. -/
theorem shift_implements_start :
    Implements (start 0x1000#32 0x80000#32) [.gp, .tp] (Macro.sll 0x1000#32 .s0 .s0 .s0)
        (Rv32i.rtype Rv32i.sll .s0 .s0 .s0) ∧
      Implements (start 0x1000#32 0x80000#32) [.gp, .tp] (srai 0x1000#32 .s0 .s0 24)
        (Rv32i.ishift Rv32i.sra .s0 .s0 24) :=
  have h := shift_implements 0x1000#32 (start 0x1000#32 0x80000#32)
    (ready_image (by decide) (by decide) (by decide)) (.abi .s0) .fp (.x .s0) 24 (by decide)
    (by decide)
  ⟨h.1, h.2.2.2.2.2⟩

end AbstractMachine.Rvmini
