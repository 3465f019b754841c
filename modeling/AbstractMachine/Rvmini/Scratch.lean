import AbstractMachine.Lib.Window
import AbstractMachine.Rvmini.Rv32i

/-!
# The scratch area

The seven words below the stack pointer.  A core is written as its registers,
its words in the scratch area and the memory outside it; each base instruction
then either moves a word or a byte between the registers and the scratch area,
or looks outside.
-/

namespace AbstractMachine.Rvmini

open AbstractMachine.Lib ByteMem Function Macro

/-! ## Cores by their slots -/

/-- The bytes of the scratch area, for the word `u n` in the slot at `sp - 4 * n`. -/
def slots (u : Nat → Word) (o : Nat) : BitVec 8 := byte (u (7 - o / 4)) (o % 4)

/-- The core with the registers `x`, the words `u` in the slots and the memory `m`
outside the scratch area. -/
def core (sp : Word) (x : Reg → Word) (u : Nat → Word) (m : ByteMem 32) : Core where
  x := x
  mem := window (sp - 28) scratchSize (slots u) m

variable {sp a : Word} {x : Reg → Word} {u : Nat → Word} {m : ByteMem 32} {ops : List Op}
  {r rd rs1 rs2 : Reg} {n b : Nat} {off : Int} {v : Word}

theorem get_core : (core sp x u m).get r = read x r := rfl

theorem mem_core : (core sp x u m).mem = window (sp - 28) scratchSize (slots u) m := rfl

theorem mem_core_outside (ha : ¬ InScratch sp a) : (core sp x u m).mem a = m a := by
  rw [mem_core]
  exact window_outside ha

/-- Every core is of this form. -/
theorem core_slots (sp : Word) (c : Core) :
    core sp c.x (fun n => load c.mem (sp - 28 + BitVec.ofNat 32 (28 - 4 * n)) 4) c.mem = c := by
  have hSlots : ∀ o, o < scratchSize →
      slots (fun n => load c.mem (sp - 28 + BitVec.ofNat 32 (28 - 4 * n)) 4) o =
        c.mem (sp - 28 + BitVec.ofNat 32 o) := by
    intro o ho
    have hMod : o % 4 < 4 := Nat.mod_lt o (by decide)
    have hSplit : 28 - 4 * (7 - o / 4) + o % 4 = o := by
      unfold scratchSize at ho
      omega
    unfold slots
    rw [byte_load (n := 4) _ _ hMod, BitVec.add_assoc, ← BitVec.ofNat_add, hSplit]
  unfold core
  rw [window_congr hSlots, window_self]

/-! ## Addresses -/

private theorem slot_addr (hn : n < 8) (hb : b < 4) :
    sp + BitVec.ofInt 32 (SP_VAR_BYTE n b) = sp - 28 + BitVec.ofNat 32 (28 - 4 * n + b) := by
  have hOff : ∀ n, n < 8 → ∀ b, b < 4 →
      BitVec.ofInt 32 (SP_VAR_BYTE n b) = BitVec.ofNat 32 (28 - 4 * n + b) - 28 := by decide
  rw [hOff n hn b hb]
  grind

private theorem aligned_slot (hAl : Aligned sp) (hn : n < 8) :
    Aligned (sp + BitVec.ofInt 32 (SP_VAR n)) := by
  have hOff : ∀ n, n < 8 → (BitVec.ofInt 32 (SP_VAR n)).toNat % 4 = 0 := by decide
  have hSlot := hOff n hn
  unfold Aligned at hAl ⊢
  rw [BitVec.toNat_add]
  omega

private theorem fit_slot (hn : n < 8) (h0 : 0 < n) : 28 - 4 * n + 4 ≤ scratchSize := by
  unfold scratchSize
  omega

private theorem slots_at (hn : n < 8) (h0 : 0 < n) (hb : b < 4) :
    slots u (28 - 4 * n + b) = byte (u n) b := by
  have hDiv : 7 - (28 - 4 * n + b) / 4 = n := by omega
  have hMod : (28 - 4 * n + b) % 4 = b := by omega
  unfold slots
  rw [hDiv, hMod]

/-! ## Single instructions -/

theorem run_add : runOps (.add rd rs1 rs2 :: ops) (core sp x u m) =
    runOps ops (core sp (write x rd (read x rs1 + read x rs2)) u m) := rfl

theorem run_addi : runOps (.addi rd rs1 off :: ops) (core sp x u m) =
    runOps ops (core sp (write x rd (read x rs1 + BitVec.ofInt 32 off)) u m) := rfl

theorem run_sw (hSp : read x .sp = sp) (hAl : Aligned sp) (h0 : 0 < n) (hn : n < 8) :
    runOps (.sw r (SP_VAR n) .sp :: ops) (core sp x u m) =
      runOps ops (core sp x (update u n (read x r)) m) := by
  have hAddr : (core sp x u m).get .sp = sp := hSp
  have hMem : store (core sp x u m).mem (sp + BitVec.ofInt 32 (SP_VAR n)) (n := 4) (read x r) =
      (core sp x (update u n (read x r)) m).mem := by
    unfold SP_VAR
    rw [slot_addr hn (by decide), Nat.add_zero, mem_core, mem_core]
    apply store_window (fit_slot hn h0) (by decide)
    · intro b hb
      exact (slots_at hn h0 hb).trans (by rw [update_self])
    · intro i hi hOut
      unfold scratchSize at hi
      unfold slots
      rw [update_of_ne]
      omega
  rw [runOps, exec, hAddr, if_pos (aligned_slot hAl hn), get_core, hMem]
  rfl

/-- A word of the scratch area, from any address that is its. -/
theorem run_lw_slot (hAddr : read x rs1 + BitVec.ofInt 32 off = sp + BitVec.ofInt 32 (SP_VAR n))
    (hAl : Aligned sp) (h0 : 0 < n) (hn : n < 8) :
    runOps (.lw rd off rs1 :: ops) (core sp x u m) =
      runOps ops (core sp (write x rd (u n)) u m) := by
  have hLoad : load (core sp x u m).mem (sp + BitVec.ofInt 32 (SP_VAR n)) 4 = u n := by
    unfold SP_VAR
    rw [slot_addr hn (by decide), Nat.add_zero, mem_core]
    exact load_window (fit_slot hn h0) (by decide) fun b hb => slots_at hn h0 hb
  rw [runOps, exec, get_core, hAddr, if_pos (aligned_slot hAl hn), hLoad]
  rfl

theorem run_lw (hSp : read x .sp = sp) (hAl : Aligned sp) (h0 : 0 < n) (hn : n < 8) :
    runOps (.lw rd (SP_VAR n) .sp :: ops) (core sp x u m) =
      runOps ops (core sp (write x rd (u n)) u m) :=
  run_lw_slot (by rw [hSp]) hAl h0 hn

theorem run_lbu (hSp : read x .sp = sp) (h0 : 0 < n) (hn : n < 8) (hb : b < 4) :
    runOps (.lbu rd (SP_VAR_BYTE n b) .sp :: ops) (core sp x u m) =
      runOps ops (core sp (write x rd ((byte (u n) b).setWidth 32)) u m) := by
  have hAddr : (core sp x u m).get .sp = sp := hSp
  have hByte : (core sp x u m).mem (sp + BitVec.ofInt 32 (SP_VAR_BYTE n b)) = byte (u n) b := by
    have hFit := fit_slot hn h0
    rw [slot_addr hn hb, mem_core, window_at (by omega) (by decide), slots_at hn h0 hb]
  rw [runOps, exec, hAddr, hByte]
  rfl

theorem run_sb (hSp : read x .sp = sp) (h0 : 0 < n) (hn : n < 8) (hb : b < 4) :
    runOps (.sb r (SP_VAR_BYTE n b) .sp :: ops) (core sp x u m) =
      runOps ops (core sp x (update u n (setByte (u n) b ((read x r).setWidth 8))) m) := by
  have hAddr : (core sp x u m).get .sp = sp := hSp
  have hMem : update (core sp x u m).mem (sp + BitVec.ofInt 32 (SP_VAR_BYTE n b))
        ((read x r).setWidth 8) =
      (core sp x (update u n (setByte (u n) b ((read x r).setWidth 8))) m).mem := by
    have hFit := fit_slot hn h0
    rw [slot_addr hn hb, mem_core, mem_core, update_window (by omega) (by decide)]
    apply window_congr
    intro o ho
    unfold scratchSize at ho
    unfold slots
    by_cases hWord : 7 - o / 4 = n
    · rw [hWord, update_self, byte_setByte_word _ hb]
      by_cases hByte : o % 4 = b
      · have hEq : o = 28 - 4 * n + b := by omega
        rw [if_pos hByte, hEq, update_self]
      · have hNe : o ≠ 28 - 4 * n + b := by omega
        rw [if_neg hByte, update_of_ne hNe, hWord]
    · have hNe : o ≠ 28 - 4 * n + b := by omega
      rw [update_of_ne hNe, update_of_ne hWord]
  rw [runOps, exec, hAddr, get_core, hMem]
  rfl

/-! ## Outside -/

theorem run_lbu_outside (hAddr : read x rs1 + BitVec.ofInt 32 off = a) (ha : ¬ InScratch sp a) :
    runOps (.lbu rd off rs1 :: ops) (core sp x u m) =
      runOps ops (core sp (write x rd ((m a).setWidth 32)) u m) := by
  rw [runOps, exec, get_core, hAddr, mem_core_outside ha]
  rfl

theorem run_lw_outside (hAddr : read x rs1 + BitVec.ofInt 32 off = a) (hAl : Aligned a)
    (ha : Apart a 4 (sp - 28) scratchSize) :
    runOps (.lw rd off rs1 :: ops) (core sp x u m) =
      runOps ops (core sp (write x rd (load m a 4)) u m) := by
  have hLoad : load (core sp x u m).mem a 4 = load m a 4 := load_window_apart (by decide) ha
  rw [runOps, exec, get_core, hAddr, if_pos hAl, hLoad]
  rfl

theorem run_sb_outside (hAddr : read x rs1 + BitVec.ofInt 32 off = a) (ha : ¬ InScratch sp a) :
    runOps (.sb r off rs1 :: ops) (core sp x u m) =
      runOps ops (core sp x u (update m a ((read x r).setWidth 8))) := by
  have hMem : update (core sp x u m).mem a ((read x r).setWidth 8) =
      (core sp x u (update m a ((read x r).setWidth 8))).mem := by
    rw [mem_core, mem_core]
    exact update_window_outside ha _
  rw [runOps, exec, get_core, hAddr, get_core, hMem]
  rfl

/-- A macro at the end. -/
theorem run_all {c c' : Core} (h : runOps (ops ++ []) c = runOps [] c') :
    runOps ops c = some c' := by
  rw [List.append_nil] at h
  exact h

/-! ## Results -/

/-- The registers are equal, except for those in `scratch`. -/
def Agree (scratch : List Reg) (x x' : Reg → Word) : Prop :=
  ∀ r, r ∉ scratch → read x' r = read x r

variable {scratch : List Reg} {x' : Reg → Word}

theorem Agree.refl : Agree scratch x x := fun _ _ => rfl

theorem Agree.write_scratch (h : Agree scratch x x') (hr : r ∈ scratch) :
    Agree scratch x (write x' r v) := by
  intro s hs
  have hNe : s ≠ r := by
    rintro rfl
    exact hs hr
  rw [read_write_ne hNe, h s hs]

theorem Agree.result (h : Agree scratch x x') : Agree scratch (write x r v) (write x' r v) := by
  intro s hs
  by_cases hEq : s = r
  · rw [hEq]
    by_cases h0 : r = .zero
    · rw [h0]
      rfl
    · rw [read_write_self h0, read_write_self h0]
  · rw [read_write_ne hEq, read_write_ne hEq, h s hs]

/-- A register that is put back. -/
theorem Agree.restore (h : Agree (r :: scratch) x x') :
    Agree scratch x (write x' r (read x r)) := by
  intro s hs
  by_cases hEq : s = r
  · rw [hEq]
    by_cases h0 : r = .zero
    · rw [h0]
      rfl
    · rw [read_write_self h0]
  · rw [read_write_ne hEq]
    apply h
    simp [hEq, hs]

/-- To compare with an instruction, run the code with any words in the slots. -/
theorem implements_core {c : Core} {inst : Core → Core}
    (h : ∀ u, ∃ x' u', runOps ops (core (c.get .sp) c.x u c.mem) =
      some (core (c.get .sp) x' u' (inst c).mem) ∧ Agree scratch (inst c).x x') :
    Implements c scratch ops inst := by
  obtain ⟨x', u', hRun, hAgree⟩ := h _
  rw [core_slots] at hRun
  refine ⟨_, hRun, ?_, ?_⟩
  · intro r hr
    exact hAgree r hr
  · intro a ha
    exact mem_core_outside ha

/-- Code that puts a result into `rd`. -/
theorem implements_set {c : Core} {inst : Core → Core} (hInst : inst c = c.set rd v)
    (h : ∀ u, ∃ x' u', runOps ops (core (c.get .sp) c.x u c.mem) =
      some (core (c.get .sp) x' u' c.mem) ∧ Agree scratch (write c.x rd v) x') :
    Implements c scratch ops inst := by
  apply implements_core
  rw [hInst]
  exact h

end AbstractMachine.Rvmini
