import AbstractMachine.Riscv.Trap.Model

/-!
# The frame that a trap leaves

Entry stores the interrupted registers in a frame below the stack pointer and
hands its address to `__am_irq_handle`; exit loads them from the frame whose
address comes back.  The stack pointer itself is not stored: it is the end of
the frame.
-/

namespace AbstractMachine.Riscv

open AbstractMachine.Lib
open AbstractMachine.Lib.ByteMem

section

variable {t : Target}

/-! ## Registers and offsets -/

theorem mem_REGS {r : Reg} : r ∈ REGS t ↔ r ≠ 0 ∧ r ≠ sp ∧ r.val < nrRegs t := by
  obtain ⟨platform, xlen, e⟩ := t
  revert r
  cases platform <;> cases xlen <;> cases e <;> decide

/-- The frame is much smaller than memory. -/
theorem context_fits : contextWords t * XLEN t ≤ 2 ^ (8 * XLEN t) := by
  obtain ⟨platform, xlen, e⟩ := t
  cases platform <;> cases xlen <;> cases e <;> decide

theorem nrRegs_lt : nrRegs t + 2 < contextWords t := by
  unfold contextWords
  split <;> omega

theorem XLEN_fits : XLEN t ≤ 2 ^ (8 * XLEN t) := by
  obtain ⟨platform, xlen, e⟩ := t
  cases platform <;> cases xlen <;> cases e <;> decide

variable {h : Hart t} {l : List Reg} {r : Reg}

@[simp] theorem run_nil : run [] h = h := by
  unfold run
  rfl

@[simp] theorem run_cons (i : Instr) (is : List Instr) :
    run (i :: is) h = run is (exec h i) := by
  unfold run
  rfl

theorem run_append (is js : List Instr) : run (is ++ js) h = run js (run is h) := by
  unfold run
  exact List.foldl_append

@[simp] theorem get_of_ne (hr : r ≠ 0) : h.get r = h.x r := if_neg hr

@[simp] theorem set_mem (v : Word t) : (h.set r v).mem = h.mem := rfl

@[simp] theorem set_csr (v : Word t) : (h.set r v).csr = h.csr := rfl

@[simp] theorem set_x_self (v : Word t) : (h.set r v).x r = v := Function.update_self ..

private theorem set_x_ne {q : Reg} (hq : q ≠ r) (v : Word t) : (h.set r v).x q = h.x q :=
  Function.update_of_ne hq ..

/-- Storing one word of a frame. -/
theorem word_store {m : ByteMem (8 * XLEN t)} {f : Word t} {i j : Nat} (v : Word t)
    (hi : i < contextWords t) (hj : j < contextWords t) :
    word (store m (slot (XLEN t) f i) v) f j = if i = j then v else word m f j :=
  load_store_slot v hi hj context_fits

/-- A frame only depends on its bytes. -/
theorem word_congr {m m' : ByteMem (8 * XLEN t)} {f : Word t} {k : Nat}
    (hk : k < contextWords t) (hSame : ∀ x, InBlock f (CONTEXT_SIZE t) x → m' x = m x) :
    word m' f k = word m f k := by
  apply load_congr XLEN_fits
  intro x hx
  exact hSame x (inBlock_slot hx hk context_fits)

/-! ## Pushes and pops -/

private theorem exec_PUSH (hr : r ≠ 0) :
    exec h (PUSH t r) = { h with mem := store h.mem (slot (XLEN t) (h.x sp) r) (h.x r) } := by
  show ({ h with mem := store h.mem (h.get sp + _) (h.get r) } : Hart t) = _
  rw [get_of_ne hr, get_of_ne (by decide)]
  rfl

private theorem run_PUSH_regs (hl : ∀ r ∈ l, r ≠ 0) :
    (run (l.map (PUSH t)) h).x = h.x ∧ (run (l.map (PUSH t)) h).csr = h.csr := by
  induction l generalizing h with
  | nil => simp
  | cons r l ih =>
      have hRest : ∀ r ∈ l, r ≠ 0 := fun r hr => hl r (List.mem_cons_of_mem _ hr)
      rw [List.map_cons, run_cons, exec_PUSH (hl r List.mem_cons_self)]
      exact ih hRest

/-- Pushes write to the frame only. -/
theorem run_PUSH_outside (hl : ∀ r ∈ l, r ≠ 0 ∧ r.val < contextWords t) {x : Word t}
    (hx : ¬ InBlock (h.x sp) (CONTEXT_SIZE t) x) :
    (run (l.map (PUSH t)) h).mem x = h.mem x := by
  induction l generalizing h with
  | nil => simp
  | cons r l ih =>
      have hr := hl r List.mem_cons_self
      have hRest : ∀ r ∈ l, r ≠ 0 ∧ r.val < contextWords t :=
        fun r hr => hl r (List.mem_cons_of_mem _ hr)
      rw [List.map_cons, run_cons, exec_PUSH hr.1]
      have hStep := ih (h := { h with
        mem := store h.mem (slot (XLEN t) (h.x sp) r) (h.x r) }) hRest hx
      rw [hStep]
      apply store_outside
      intro hIn
      exact hx (inBlock_slot hIn hr.2 context_fits)

/-- Pushes leave the places of other registers alone. -/
theorem run_PUSH_other (hl : ∀ r ∈ l, r ≠ 0 ∧ r.val < contextWords t) {k : Reg}
    (hk : k.val < contextWords t) (hNot : k ∉ l) :
    word (run (l.map (PUSH t)) h).mem (h.x sp) k = word h.mem (h.x sp) k := by
  induction l generalizing h with
  | nil => simp
  | cons r l ih =>
      have hr := hl r List.mem_cons_self
      have hRest : ∀ r ∈ l, r ≠ 0 ∧ r.val < contextWords t :=
        fun r hr => hl r (List.mem_cons_of_mem _ hr)
      rw [List.mem_cons, not_or] at hNot
      rw [List.map_cons, run_cons, exec_PUSH hr.1]
      have hStep := ih (h := { h with
        mem := store h.mem (slot (XLEN t) (h.x sp) r) (h.x r) }) hRest hNot.2
      rw [hStep, word_store _ hr.2 hk, if_neg]
      intro hVal
      exact hNot.1 (Fin.ext hVal.symm)

/-- What the pushes leave in the frame. -/
theorem run_PUSH_word (hl : ∀ r ∈ l, r ≠ 0 ∧ r.val < contextWords t) {k : Reg} (hIn : k ∈ l) :
    word (run (l.map (PUSH t)) h).mem (h.x sp) k = h.x k := by
  induction l generalizing h with
  | nil => cases hIn
  | cons r l ih =>
      have hr := hl r List.mem_cons_self
      have hRest : ∀ r ∈ l, r ≠ 0 ∧ r.val < contextWords t :=
        fun r hr => hl r (List.mem_cons_of_mem _ hr)
      rw [List.map_cons, run_cons, exec_PUSH hr.1]
      by_cases hLater : k ∈ l
      · exact ih (h := { h with
          mem := store h.mem (slot (XLEN t) (h.x sp) r) (h.x r) }) hRest hLater
      · have hEq : k = r := (List.mem_cons.mp hIn).resolve_right hLater
        subst hEq
        have hStep := run_PUSH_other (h := { h with
          mem := store h.mem (slot (XLEN t) (h.x sp) k) (h.x k) }) hRest hr.2 hLater
        rw [hStep, word_store _ hr.2 hr.2, if_pos rfl]

/-- Pops write registers only. -/
theorem run_POP (hl : sp ∉ l) :
    (run (l.map (POP t)) h).mem = h.mem ∧ (run (l.map (POP t)) h).csr = h.csr ∧
      (∀ r, r ∈ l → (run (l.map (POP t)) h).x r = word h.mem (h.x sp) r) ∧
      ∀ r, r ∉ l → (run (l.map (POP t)) h).x r = h.x r := by
  induction l generalizing h with
  | nil => simp
  | cons k l ih =>
      rw [List.mem_cons, not_or] at hl
      have hPop : exec h (POP t k) = h.set k (word h.mem (h.x sp) k) := by
        show h.set k (load h.mem (h.get sp + _) _) = _
        rw [get_of_ne (by decide)]
        rfl
      obtain ⟨hMem, hCsr, hIn, hOut⟩ := ih (h := h.set k (word h.mem (h.x sp) k)) hl.2
      rw [List.map_cons, run_cons, hPop]
      refine ⟨hMem, hCsr, ?_, ?_⟩
      · intro r hr
        by_cases hLater : r ∈ l
        · rw [hIn r hLater, set_mem, set_x_ne hl.1]
        · have hEq : r = k := (List.mem_cons.mp hr).resolve_right hLater
          rw [hOut r hLater, hEq, set_x_self]
      · intro r hr
        rw [List.mem_cons, not_or] at hr
        rw [hOut r hr.2, set_x_ne hr.1]

/-! ## Entry and exit -/

/-- The frame at `f` holds the registers the hart `h` had. -/
structure Saved (t : Target) (m : ByteMem (8 * XLEN t)) (f : Word t) (h : Hart t) : Prop where
  gpr : ∀ r ∈ REGS t, word m f r = h.x r
  mstatus : word m f (nrRegs t + 1) = h.csr .mstatus
  mepc : word m f (nrRegs t + 2) = h.csr .mepc
  sp : f + BitVec.ofNat _ (CONTEXT_SIZE t) = h.x sp

theorem Saved.congr {m m' : ByteMem (8 * XLEN t)} {f : Word t} (hs : Saved t m f h)
    (hSame : ∀ x, InBlock f (CONTEXT_SIZE t) x → m' x = m x) : Saved t m' f h where
  gpr := by
    intro r hr
    have hLt := (mem_REGS.mp hr).2.2
    have hWords := nrRegs_lt (t := t)
    rw [word_congr (by omega) hSame]
    exact hs.gpr r hr
  mstatus := by
    have hWords := nrRegs_lt (t := t)
    rw [word_congr (by omega) hSame]
    exact hs.mstatus
  mepc := by
    rw [word_congr nrRegs_lt hSame]
    exact hs.mepc
  sp := hs.sp

/-- The frame of a trap. -/
def frameOf (h : Hart t) : Word t := h.x sp - BitVec.ofNat _ (CONTEXT_SIZE t)

/-- The stores after the pushes, and what nemu does with `mstatus`. -/
theorem run_saveCsrs (h : Hart t) :
    let f := h.x sp
    let h' := run (saveCsrs t ++ setMprv t ++ [.mv a0 sp]) h
    h'.x a0 = f ∧
      h'.mem = store (store (store h.mem (slot (XLEN t) f (nrRegs t + 0)) (h.csr .mcause))
        (slot (XLEN t) f (nrRegs t + 1)) (h.csr .mstatus))
        (slot (XLEN t) f (nrRegs t + 2)) (h.csr .mepc) := by
  obtain ⟨platform, xlen, e⟩ := t
  cases platform <;>
    simp [saveCsrs, setMprv, exec, Hart.get, Hart.set, sp, t0, t1, t2, a0, slot, OFFSET_CAUSE,
      OFFSET_STATUS, OFFSET_EPC, Function.update]

/-- The loads before the pops. -/
theorem run_loadCsrs (h : Hart t) :
    let h' := run ([.mv sp a0] ++ loadCsrs t) h
    h'.mem = h.mem ∧ h'.x sp = h.x a0 ∧
      h'.csr .mstatus = word h.mem (h.x a0) (nrRegs t + 1) ∧
      h'.csr .mepc = word h.mem (h.x a0) (nrRegs t + 2) := by
  simp [loadCsrs, exec, Hart.get, Hart.set, sp, t1, t2, a0, word, slot, OFFSET_STATUS,
    OFFSET_EPC, Function.update]

private theorem REGS_bound : ∀ r ∈ REGS t, r ≠ 0 ∧ r.val < contextWords t := by
  intro r hr
  have hWords := nrRegs_lt (t := t)
  have hMem := mem_REGS.mp hr
  exact ⟨hMem.1, by omega⟩

/-- The hart after the pushes. -/
def pushed (h : Hart t) : Hart t := run ((REGS t).map (PUSH t)) (h.set sp (frameOf h))

private theorem pushed_regs (h : Hart t) :
    (pushed h).x sp = frameOf h ∧ (pushed h).csr = h.csr := by
  obtain ⟨hX, hCsr⟩ := run_PUSH_regs (h := h.set sp (frameOf h)) fun r hr => (REGS_bound r hr).1
  unfold pushed
  rw [hX, hCsr]
  exact ⟨set_x_self _, rfl⟩

private theorem run_trapEntry (h : Hart t) :
    run (trapEntry t) h = run (saveCsrs t ++ setMprv t ++ [.mv a0 sp]) (pushed h) := by
  have hAddi : exec h (.addi sp sp (-CONTEXT_SIZE t)) = h.set sp (frameOf h) := by
    show h.set sp (h.get sp + BitVec.ofInt _ (-(CONTEXT_SIZE t : Int))) = _
    rw [get_of_ne (by decide), BitVec.ofInt_neg, BitVec.ofInt_natCast, ← BitVec.sub_eq_add_neg]
    rfl
  simp only [trapEntry, pushed, run_append, run_cons, run_nil, hAddi]

/-- The words of the frame after entry. -/
theorem entry_word (h : Hart t) {k : Nat} (hk : k < contextWords t) :
    word (run (trapEntry t) h).mem (frameOf h) k =
      if nrRegs t + 2 = k then h.csr .mepc
      else if nrRegs t + 1 = k then h.csr .mstatus
      else if nrRegs t + 0 = k then h.csr .mcause
      else word (pushed h).mem (frameOf h) k := by
  have hWords := nrRegs_lt (t := t)
  obtain ⟨hSp, hCsr⟩ := pushed_regs h
  obtain ⟨_, hMem⟩ := run_saveCsrs (pushed h)
  rw [hSp, hCsr] at hMem
  rw [run_trapEntry, hMem, word_store _ (by omega) hk, word_store _ (by omega) hk,
    word_store _ (by omega) hk]

/-- **Entry.**  The registers of the interrupted code are in the frame, whose
address is the argument of `__am_irq_handle`; no other memory changes. -/
theorem entry_saves (h : Hart t) :
    let h' := run (trapEntry t) h
    h'.x a0 = frameOf h ∧ Saved t h'.mem (frameOf h) h ∧
      ∀ x, ¬ InBlock (frameOf h) (CONTEXT_SIZE t) x → h'.mem x = h.mem x := by
  intro h'
  have hWords := nrRegs_lt (t := t)
  obtain ⟨hSp, _⟩ := pushed_regs h
  obtain ⟨hA0, hMem⟩ := run_saveCsrs (pushed h)
  rw [← run_trapEntry, hSp] at hA0 hMem
  refine ⟨hA0, ?_, ?_⟩
  · exact
      { gpr := by
          intro r hr
          have hMemR := mem_REGS.mp hr
          rw [entry_word h (REGS_bound r hr).2, if_neg (by omega), if_neg (by omega),
            if_neg (by omega)]
          have hPushed := run_PUSH_word (h := h.set sp (frameOf h)) REGS_bound hr
          rw [set_x_self, set_x_ne hMemR.2.1] at hPushed
          exact hPushed
        mstatus := by rw [entry_word h (by omega), if_neg (by omega), if_pos rfl]
        mepc := by rw [entry_word h (by omega), if_pos rfl]
        sp := BitVec.sub_add_cancel _ _ }
  · intro x hx
    have hSlot : ∀ k, k < contextWords t → ¬ InBlock (slot (XLEN t) (frameOf h) k) (XLEN t) x :=
      fun k hk hIn => hx (inBlock_slot hIn hk context_fits)
    rw [hMem, store_outside _ _ (hSlot _ (by omega)), store_outside _ _ (hSlot _ (by omega)),
      store_outside _ _ (hSlot _ (by omega))]
    apply run_PUSH_outside REGS_bound
    rw [set_x_self]
    exact hx

/-- The registers that make up a thread: `x1` to `x31` (`x15` on RV32E),
`mepc` and `mstatus`. -/
def SameThread (h h' : Hart t) : Prop :=
  (∀ r : Reg, r ≠ 0 → r.val < nrRegs t → h.x r = h'.x r) ∧
    h.csr .mepc = h'.csr .mepc ∧ h.csr .mstatus = h'.csr .mstatus

/-- The hart before the last instruction of the exit code. -/
def popped (h : Hart t) : Hart t :=
  run ((REGS t).map (POP t)) (run ([.mv sp a0] ++ loadCsrs t) h)

private theorem popped_sp (h : Hart t) : (popped h).x sp = h.x a0 := by
  have hNotSp : sp ∉ REGS t := fun hIn => (mem_REGS.mp hIn).2.1 rfl
  unfold popped
  rw [(run_POP hNotSp).2.2.2 sp hNotSp, (run_loadCsrs h).2.1]

private theorem run_trapExit (h : Hart t) :
    run (trapExit t) h = (popped h).set sp (h.x a0 + BitVec.ofNat _ (CONTEXT_SIZE t)) := by
  unfold trapExit
  rw [run_append, run_append, run_cons, run_nil]
  show (popped h).set sp ((popped h).get sp + BitVec.ofInt _ (CONTEXT_SIZE t : Int)) = _
  rw [get_of_ne (by decide), popped_sp, BitVec.ofInt_natCast]

/-- Exit writes no memory. -/
theorem run_trapExit_mem (h : Hart t) : (run (trapExit t) h).mem = h.mem := by
  have hNotSp : sp ∉ REGS t := fun hIn => (mem_REGS.mp hIn).2.1 rfl
  rw [run_trapExit, set_mem, popped, (run_POP hNotSp).1, (run_loadCsrs h).1]

/-- The stack pointer is the end of the frame. -/
theorem run_trapExit_sp (h : Hart t) :
    (run (trapExit t) h).x sp = h.x a0 + BitVec.ofNat _ (CONTEXT_SIZE t) := by
  rw [run_trapExit, set_x_self]

/-- The control registers are loaded from the frame that came back. -/
theorem run_trapExit_csr (h : Hart t) :
    (run (trapExit t) h).csr .mstatus = word h.mem (h.x a0) (nrRegs t + 1) ∧
      (run (trapExit t) h).csr .mepc = word h.mem (h.x a0) (nrRegs t + 2) := by
  have hNotSp : sp ∉ REGS t := fun hIn => (mem_REGS.mp hIn).2.1 rfl
  obtain ⟨_, _, hStatus, hEpc⟩ := run_loadCsrs h
  rw [run_trapExit, set_csr, popped, (run_POP hNotSp).2.1]
  exact ⟨hStatus, hEpc⟩

/-- So are the general registers. -/
theorem run_trapExit_reg (h : Hart t) {r : Reg} (hr : r ∈ REGS t) :
    (run (trapExit t) h).x r = word h.mem (h.x a0) r := by
  have hNotSp : sp ∉ REGS t := fun hIn => (mem_REGS.mp hIn).2.1 rfl
  have hNe : r ≠ sp := (mem_REGS.mp hr).2.1
  obtain ⟨hMem, hSp, _, _⟩ := run_loadCsrs h
  rw [run_trapExit, set_x_ne hNe, popped, (run_POP hNotSp).2.2.1 r hr, hMem, hSp]

/-- **Exit.**  The registers are those in the frame that came back. -/
theorem exit_restores {f : Word t} {h₂ : Hart t} (hA0 : h₂.x a0 = f)
    (hs : Saved t h₂.mem f h) : SameThread (run (trapExit t) h₂) h := by
  obtain ⟨hStatus, hEpc⟩ := run_trapExit_csr h₂
  refine ⟨?_, ?_, ?_⟩
  · intro r hZero hLt
    by_cases hr : r = sp
    · rw [hr, run_trapExit_sp, hA0]
      exact hs.sp
    · have hReg : r ∈ REGS t := mem_REGS.mpr ⟨hZero, hr, hLt⟩
      rw [run_trapExit_reg h₂ hReg, hA0]
      exact hs.gpr r hReg
  · rw [hEpc, hA0, hs.mepc]
  · rw [hStatus, hA0, hs.mstatus]

end

end AbstractMachine.Riscv
