import AbstractMachine.Rvmini.Scratch

/-!
# Bytes, signs and differences

The macros that the others are made of: each reads and leaves the registers and
the slots that its lemma names.
-/

namespace AbstractMachine.Rvmini

open AbstractMachine.Lib ByteMem Function Macro Rv32i

/-! ## Addresses of symbols -/

private theorem hi_lo (addr : Word) : (hi addr ++ 0#12) + BitVec.ofInt 32 (lo addr) = addr := by
  have hLt := addr.isLt
  have hLo : BitVec.ofInt 32 (lo addr) = (addr.setWidth 12).signExtend 32 := rfl
  have hHi : (hi addr ++ 0#12).toNat = (addr.toNat + 2048) % 2 ^ 32 / 4096 * 4096 := by
    refine (BitVec.toNat_append (hi addr) 0#12).trans ?_
    unfold hi
    simp [Nat.shiftLeft_eq, Nat.shiftRight_eq_div_pow]
    omega
  apply BitVec.eq_of_toNat_eq
  rw [hLo, BitVec.toNat_add, hHi, BitVec.toNat_signExtend]
  simp [BitVec.msb_eq_decide]
  split <;> omega

variable {rodata sp a : Word} {x : Reg → Word} {u : Nat → Word} {m : ByteMem 32} {ops : List Op}
  {r rd rs1 rs2 : Reg} {n b : Nat} {off : Int} {v : Word}

theorem run_la : runOps (la r a ++ ops) (core sp x u m) =
    runOps ops (core sp (write x r a) u m) := by
  refine (run_addi (x := write x r (hi a ++ 0#12))).trans ?_
  by_cases hr : r = .zero
  · rw [hr]
    rfl
  · rw [read_write_self hr, hi_lo, write_write]
    rfl

/-- `li` of an immediate. -/
theorem run_li {imm : BitVec 12} : runOps (li r imm.toInt :: ops) (core sp x u m) =
    runOps ops (core sp (write x r (imm.signExtend 32)) u m) := by
  refine run_addi.trans ?_
  rw [read_zero]
  exact congrArg (fun v => runOps ops (core sp (write x r v) u m)) (BitVec.zero_add _)

theorem run_getbyte (hSp : read x .sp = sp) (hAl : Aligned sp) (hb : b < 4) :
    runOps (getbyte rd rs1 b ++ ops) (core sp x u m) =
      runOps ops (core sp (write x rd ((byte (read x rs1) b).setWidth 32))
        (update u VAR_C (read x rs1)) m) := by
  refine (run_sw hSp hAl (by decide) (by decide)).trans ?_
  refine (run_lbu hSp (by decide) (by decide) hb).trans ?_
  rw [update_self]
  rfl

theorem shiftLeft_succ (v : Word) (k : Nat) : v <<< (k + 1) = (v <<< k) + (v <<< k) := by
  apply BitVec.eq_of_toNat_eq
  simp [Nat.shiftLeft_eq, Nat.pow_succ, Nat.mul_two, Nat.mul_add]

theorem run_replicate (k : Nat) :
    runOps (List.replicate k (.add r r r) ++ ops) (core sp x u m) =
      runOps ops (core sp (write x r (read x r <<< k)) u m) := by
  induction k generalizing x with
  | zero => rw [BitVec.shiftLeft_zero, write_read]; rfl
  | succ k ih =>
      rw [List.replicate_succ, List.cons_append, run_add, ih, write_write]
      by_cases hr : r = .zero
      · rw [hr]
        rfl
      · rw [read_write_self hr, Nat.add_comm k 1, BitVec.shiftLeft_add, shiftLeft_succ _ 0,
          BitVec.shiftLeft_zero]

/-- Up to 15, a shift is a repeated doubling. -/
theorem run_slli_self (rd : Name) {k : Nat} (hk : k < 16) :
    runOps (slli rd rd k ++ ops) (core sp x u m) =
      runOps ops (core sp (write x rd.reg (read x rd.reg <<< k)) u m) := by
  rw [slli]
  by_cases h0 : k = 0
  · rw [if_pos h0, if_neg (by simp), h0, BitVec.shiftLeft_zero, write_read]
    rfl
  · have hSucc : k - 1 + 1 = k := by omega
    rw [if_neg h0, if_neg (by omega), if_neg (by omega), ← List.replicate_succ, hSucc]
    exact run_replicate k

theorem run_slliSelf {k : Nat} (hk : k < 16) :
    runOps (slliSelf r k ++ ops) (core sp x u m) =
      runOps ops (core sp (write x r (read x r <<< k)) u m) := run_slli_self (.abi r) hk

private theorem msb_bits (v : Word) :
    (byte ((byte v 3).setWidth 32 <<< 1) 1).setWidth 32 = flag v.msb := by
  apply BitVec.eq_of_getLsbD_eq
  intro i hi
  have hFlag : (flag v.msb).getLsbD i = (decide (i = 0) && v.msb) := by
    unfold flag
    cases v.msb <;> simp
  rw [hFlag, BitVec.getLsbD_setWidth, getLsbD_byte, BitVec.getLsbD_shiftLeft,
    BitVec.getLsbD_setWidth, getLsbD_byte, BitVec.msb_eq_getLsbD_last]
  by_cases h0 : i = 0
  · simp [h0]
  · by_cases h8 : i < 8
    · have hHigh : ¬ 7 + i < 8 := by omega
      simp [h0, hHigh]
    · simp [h0, h8]

theorem run_msb (hSp : read x .sp = sp) (hAl : Aligned sp) (h0 : rd ≠ .zero) (h2 : rd ≠ .sp) :
    runOps (msb rd rs1 ++ ops) (core sp x u m) =
      runOps ops (core sp (write x rd (flag (read x rs1).msb))
        (update u VAR_C ((byte (read x rs1) 3).setWidth 32 <<< 1)) m) := by
  have hSp' : ∀ v, read (write x rd v) .sp = sp := by
    intro v
    rw [read_write_ne (Ne.symm h2), hSp]
  unfold msb
  rw [List.append_assoc, List.append_assoc, run_getbyte hSp hAl (by decide),
    run_slliSelf (by decide), read_write_self h0, write_write, run_getbyte (hSp' _) hAl (by decide),
    read_write_self h0, write_write, update_idem, msb_bits]

/-! ## Looking into the tables -/

/-- The tables and the scratch area have no byte in common. -/
theorem Ready.outside (h : Ready rodata sp m) (hn : n < rodataSize) :
    ¬ InScratch sp (rodata + BitVec.ofNat 32 n) :=
  h.apart _ (inBlock_offset hn (by decide))

theorem Ready.outside_table (h : Ready rodata sp m) {k : Nat} (hn : n + k < rodataSize) :
    ¬ InScratch sp (rodata + BitVec.ofNat 32 n + BitVec.ofNat 32 k) := by
  rw [next_symbol]
  exact h.outside hn

theorem Ready.outside4 (h : Ready rodata sp m) (hn : n + 4 ≤ rodataSize) :
    Apart (rodata + BitVec.ofNat 32 n) 4 (sp - 28) scratchSize := by
  intro y hy
  exact h.apart y (inBlock_sub hy hn (by decide))

/-- The tables of the logic operations, 64K each. -/
theorem Ready.outside_logic (h : Ready rodata sp m) (hn : n ≤ 131840) (b1 b0 : BitVec 8) :
    ¬ InScratch sp (rodata + BitVec.ofNat 32 n + ofBytes 0 0 b1 b0) := by
  have h1 := b1.isLt
  have h0 := b0.isLt
  rw [ofBytes_low, BitVec.add_assoc, ← BitVec.ofNat_add]
  apply h.outside
  unfold rodataSize
  omega

theorem and8_offset : _and8_table rodata = rodata + BitVec.ofNat 32 768 := rfl

theorem or8_offset : _or8_table rodata = rodata + BitVec.ofNat 32 66304 := by
  unfold _or8_table _and8_table _logic_shift_table
  rw [BitVec.add_assoc]
  rfl

theorem xor8_offset : _xor8_table rodata = rodata + BitVec.ofNat 32 131840 := by
  unfold _xor8_table
  rw [or8_offset, BitVec.add_assoc]
  rfl

/-- The start of a row, as an address, and the column. -/
theorem row_column (b1 b0 : BitVec 8) :
    b0.setWidth 32 + (a + ofBytes 0 0 b1 0) = a + ofBytes 0 0 b1 b0 := by
  have hCol : b0.setWidth 32 = BitVec.ofNat 32 b0.toNat := (setWidth_ofNat b0).symm
  rw [BitVec.add_comm, BitVec.add_assoc, ofBytes_low, ofBytes_low, hCol, ← BitVec.ofNat_add]
  simp

/-! ## `not` and `sub` -/

private theorem xor_ones (v : BitVec 8) : 255#8 ^^^ v = ~~~v := by
  apply BitVec.eq_of_getLsbD_eq
  intro i hi
  have hAll : ∀ k, k < 8 → (255#8).getLsbD k = true := by decide
  rw [BitVec.getLsbD_xor, hAll i hi, BitVec.getLsbD_not, decide_eq_true hi]
  simp

private theorem run_notByte (h : Ready rodata sp m) (hSp : read x .sp = sp)
    (hTp : read x .tp = _xor8_table rodata + (0xff#32 <<< 8)) (hb : b < 4) :
    runOps (notByte b ++ ops) (core sp x u m) =
      runOps ops (core sp (write x .gp ((~~~byte (u VAR_C) b).setWidth 32))
        (update u VAR_D (setByte (u VAR_D) b (~~~byte (u VAR_C) b))) m) := by
  have hOut : ¬ InScratch sp (_xor8_table rodata + ofBytes 0 0 255 (byte (u VAR_C) b)) := by
    rw [xor8_offset]
    exact h.outside_logic (by decide) _ _
  have hByte : m (_xor8_table rodata + ofBytes 0 0 255 (byte (u VAR_C) b)) =
      ~~~byte (u VAR_C) b :=
    (h.loaded.xor8 _ _).trans (xor_ones _)
  refine (run_lbu hSp (by decide) (by decide) hb).trans ?_
  refine run_add.trans ?_
  refine (run_lbu_outside ?_ hOut).trans ?_
  · -- the row of the table and the byte
    rw [read_write_self (by decide), read_write_self (by decide), read_write_ne (by decide), hTp,
      ← row_column]
    exact BitVec.add_zero _
  refine (run_sb (by simp [hSp]) (by decide) (by decide) hb).trans ?_
  rw [hByte, write_write, write_write, read_write_self (by decide), setWidth_byte]
  rfl

theorem setByte_all (v : Word) (b3 b2 b1 b0 : BitVec 8) :
    setByte (setByte (setByte (setByte v 3 b3) 2 b2) 1 b1) 0 b0 = ofBytes b3 b2 b1 b0 := by
  apply word_ext <;> simp [byte_setByte_word]

private theorem byte_not (v : Word) (hb : b < 4) : byte (~~~v) b = ~~~byte v b := by
  apply BitVec.eq_of_getLsbD_eq
  intro i hi
  have hLt : 8 * b + i < 32 := by omega
  rw [getLsbD_byte, BitVec.getLsbD_not, BitVec.getLsbD_not, getLsbD_byte, decide_eq_true hi,
    decide_eq_true hLt]
  rfl

private theorem run_notBytes (h : Ready rodata sp m) (hSp : read x .sp = sp)
    (hTp : read x .tp = _xor8_table rodata + (0xff#32 <<< 8)) (hC : u VAR_C = v) :
    runOps (notByte 3 ++ (notByte 2 ++ (notByte 1 ++ (notByte 0 ++ ops)))) (core sp x u m) =
      runOps ops (core sp (write x .gp ((~~~byte v 0).setWidth 32)) (update u VAR_D (~~~v)) m) := by
  have hAll : setByte (setByte (setByte (setByte (u VAR_D) 3 (~~~byte v 3)) 2 (~~~byte v 2)) 1
      (~~~byte v 1)) 0 (~~~byte v 0) = ~~~v := by
    rw [setByte_all]
    apply word_ext <;> simp [byte_not]
  have hNe : VAR_C ≠ VAR_D := by decide
  rw [run_notByte h hSp hTp (by decide), hC,
    run_notByte h (by simp [hSp]) (by simp [hTp]) (by decide)]
  simp only [update_idem, update_self, update_of_ne hNe, hC]
  rw [run_notByte h (by simp [hSp]) (by simp [hTp]) (by decide)]
  simp only [update_idem, update_self, update_of_ne hNe, hC]
  rw [run_notByte h (by simp [hSp]) (by simp [hTp]) (by decide)]
  simp only [write_write, update_idem, update_self, update_of_ne hNe, hC, hAll]

/-- `gp` is put back. -/
theorem run_not (h : Ready rodata sp m) (hSp : read x .sp = sp) :
    runOps (Macro.not rodata rd rs1 ++ ops) (core sp x u m) =
      runOps ops (core sp
        (write (write x .tp (_xor8_table rodata + (0xff#32 <<< 8))) rd (~~~read x rs1))
        (update (update (update u 3 (read x .gp)) VAR_C (read x rs1)) VAR_D (~~~read x rs1))
        m) := by
  have hAl := h.aligned
  have hGp : ∀ v, write (write x .tp v) .gp (read x .gp) = write x .tp v := by
    intro v
    rw [write_comm (by decide), write_read]
  unfold Macro.not PUSH POP
  simp only [List.append_assoc, List.cons_append, List.nil_append]
  rw [run_sw hSp hAl (by decide) (by decide), run_sw hSp hAl (by decide) (by decide),
    run_la, run_notBytes h (by simp [hSp]) (by simp) (update_self _ _ _),
    run_lw (by simp [hSp]) hAl (by decide) (by decide),
    run_lw (by simp [hSp]) hAl (by decide) (by decide), write_write, update_self,
    update_of_ne (by decide), update_of_ne (by decide), update_self, hGp]

/-- `rd` may be `tp`, or the second operand. -/
theorem run_sub (h : Ready rodata sp m) (hSp : read x .sp = sp) (h1 : rs1 ≠ .tp) :
    runOps (sub rodata rd rs1 rs2 ++ ops) (core sp x u m) =
      runOps ops (core sp
        (write (write x .tp (~~~read x rs2)) rd (read x rs1 - read x rs2))
        (update (update (update u 3 (read x .gp)) VAR_C (read x rs2)) VAR_D (~~~read x rs2))
        m) := by
  have hSub : read x rs1 + ~~~read x rs2 + BitVec.ofInt 32 1 = read x rs1 - read x rs2 := by
    rw [BitVec.sub_eq_add_neg, BitVec.neg_eq_not_add, BitVec.add_assoc]
    rfl
  unfold sub
  rw [List.append_assoc, run_not h hSp, write_write]
  refine run_add.trans (run_addi.trans ?_)
  rw [write_write, read_write_ne h1]
  by_cases hRd : rd = .zero
  · rw [hRd]
    rfl
  · rw [read_write_self hRd, read_write_self (r := .tp) (by decide), hSub]
    rfl

end AbstractMachine.Rvmini
