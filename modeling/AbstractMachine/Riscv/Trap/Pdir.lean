import AbstractMachine.Riscv.Trap.Frame

/-!
# The context and the frame

`struct Context` ends with `pdir`, for which the `trap.S` of nemu makes no room:
its place is the word at the interrupted stack pointer.  A handler that stores to
it, as `__am_get_cur_as` does, changes the stack of the interrupted code.
-/

namespace AbstractMachine.Riscv

open AbstractMachine.Lib
open AbstractMachine.Lib.ByteMem

/-! ## The context -/

/-- `sizeof(Context)`: `gpr`, `mcause`, `mstatus`, `mepc` and `pdir`. -/
def sizeofContext (t : Target) : Nat := (nrRegs t + 4) * XLEN t

section

variable {t : Target}

/-- The word of `pdir` in the context at `c`. -/
def pdir (m : ByteMem (8 * XLEN t)) (c : Word t) : Word t := word m c (nrRegs t + 3)

/-- `__am_get_cur_as`; `satp` is what `get_satp` gives. -/
def amGetCurAs (vmeEnable : Bool) (satp c : Word t) (m : ByteMem (8 * XLEN t)) :
    ByteMem (8 * XLEN t) :=
  store m (slot (XLEN t) c (nrRegs t + 3)) (if vmeEnable then satp else 0)

/-- The hart is back from `__am_irq_handle` with the context that it was given, to
whose fields the user handler has stored; the stack below was used. -/
structure Handled (h₁ h₂ : Hart t) : Prop where
  a0 : h₂.x a0 = h₁.x a0
  mem : ∀ x, ¬ InBlock (h₁.x Riscv.a0) (sizeofContext t) x → (h₁.x Riscv.a0).toNat ≤ x.toNat →
    h₂.mem x = h₁.mem x

/-- No byte at or above the stack pointer has changed. -/
def StackKept (h h' : Hart t) : Prop := ∀ x, (h.x sp).toNat ≤ x.toNat → h'.mem x = h.mem x

/-! ## Sizes -/

theorem contextSize_le : CONTEXT_SIZE t ≤ sizeofContext t := by
  unfold CONTEXT_SIZE sizeofContext contextWords
  apply Nat.mul_le_mul_right
  split <;> omega

private theorem sizeofContext_fits : sizeofContext t ≤ 2 ^ (8 * XLEN t) := by
  obtain ⟨platform, xlen, e⟩ := t
  cases platform <;> cases xlen <;> cases e <;> decide

variable {h h₁ h₂ : Hart t} {x : Word t}

/-- The stack pointer is the end of the frame. -/
theorem frameOf_toNat (hLt : (frameOf h).toNat + CONTEXT_SIZE t < 2 ^ (8 * XLEN t)) :
    (h.x sp).toNat = (frameOf h).toNat + CONTEXT_SIZE t := by
  have hEnd : frameOf h + BitVec.ofNat _ (CONTEXT_SIZE t) = h.x sp := BitVec.sub_add_cancel _ _
  rw [← hEnd, BitVec.toNat_add, BitVec.toNat_ofNat, Nat.add_mod_mod]
  exact Nat.mod_eq_of_lt hLt

/-- A trap changes nothing above the context. -/
theorem trap_outside (hHandled : Handled (run (trapEntry t) h) h₂)
    (hx : ¬ InBlock (frameOf h) (sizeofContext t) x) (hLe : (frameOf h).toNat ≤ x.toNat) :
    (run (trapExit t) h₂).mem x = h.mem x := by
  obtain ⟨hA0, -, hMem⟩ := entry_saves h
  have hFrame : ¬ InBlock (frameOf h) (CONTEXT_SIZE t) x := by
    intro hIn
    exact hx (Nat.lt_of_lt_of_le hIn contextSize_le)
  rw [← hA0] at hx hLe
  rw [run_trapExit_mem, hHandled.mem x hx hLe]
  exact hMem x hFrame

/-- `__am_get_cur_as` stores to its context only. -/
theorem getCurAs_handled (vmeEnable : Bool) (satp : Word t) (h : Hart t) :
    Handled (run (trapEntry t) h)
      { run (trapEntry t) h with
        mem := amGetCurAs vmeEnable satp (frameOf h) (run (trapEntry t) h).mem } := by
  refine ⟨rfl, ?_⟩
  intro x hx _
  rw [(entry_saves h).1] at hx
  apply store_outside
  intro hIn
  exact hx (inBlock_slot hIn (Nat.lt_succ_self _) sizeofContext_fits)

/-- On npc the frame has room for every field. -/
theorem npc_trap_keeps_stack (hNpc : t.platform = .npc)
    (hObject : (frameOf h).toNat + sizeofContext t < 2 ^ (8 * XLEN t))
    (hHandled : Handled (run (trapEntry t) h) h₂) : StackKept h (run (trapExit t) h₂) := by
  have hSize : CONTEXT_SIZE t = sizeofContext t := by
    unfold CONTEXT_SIZE contextWords
    rw [hNpc]
    rfl
  have hSp := frameOf_toNat (hSize ▸ hObject)
  intro x hx
  rw [hSp, hSize] at hx
  apply trap_outside hHandled
  · rw [inBlock_iff (Nat.le_of_lt hObject)]
    omega
  · omega

end

/-! ## nemu -/

section

variable {xlen : Xlen} {e : Bool} {h h₂ : Hart ⟨.nemu, xlen, e⟩}

/-- The place of `pdir` is the word at the interrupted stack pointer. -/
theorem slot_pdir (h : Hart ⟨.nemu, xlen, e⟩) :
    slot (XLEN ⟨.nemu, xlen, e⟩) (frameOf h) (nrRegs ⟨.nemu, xlen, e⟩ + 3) = h.x sp :=
  BitVec.sub_add_cancel _ _

/--
**What a trap leaves of the stack.** Whatever the user handler stores to the
fields of its context, no byte at or above the interrupted stack pointer changes,
if and only if `pdir` keeps its value.
-/
theorem trap_keeps_stack_iff (xlen : Xlen) (e : Bool) (h h₂ : Hart ⟨.nemu, xlen, e⟩)
    (hObject : (frameOf h).toNat + sizeofContext ⟨.nemu, xlen, e⟩ ≤
      2 ^ (8 * XLEN ⟨.nemu, xlen, e⟩))
    (hHandled : Handled (run (trapEntry ⟨.nemu, xlen, e⟩) h) h₂) :
    StackKept h (run (trapExit ⟨.nemu, xlen, e⟩) h₂) ↔
      pdir h₂.mem (frameOf h) = pdir h.mem (frameOf h) := by
  have hSize : sizeofContext ⟨.nemu, xlen, e⟩ =
      CONTEXT_SIZE ⟨.nemu, xlen, e⟩ + XLEN ⟨.nemu, xlen, e⟩ := Nat.succ_mul _ _
  have hWord : 0 < XLEN ⟨.nemu, xlen, e⟩ := by cases xlen <;> exact Nat.succ_pos _
  have hSp := frameOf_toNat (h := h) (by omega)
  have hPdir : ∀ x, InBlock (h.x sp) (XLEN ⟨.nemu, xlen, e⟩) x ↔
      (h.x sp).toNat ≤ x.toNat ∧ x.toNat < (h.x sp).toNat + XLEN ⟨.nemu, xlen, e⟩ :=
    fun x => inBlock_iff (by omega)
  unfold pdir word
  rw [slot_pdir]
  constructor
  · intro hKept
    apply load_congr XLEN_fits
    intro x hx
    rw [← hKept x ((hPdir x).mp hx).1, run_trapExit_mem]
  · intro hSame x hx
    by_cases hIn : InBlock (frameOf h) (sizeofContext ⟨.nemu, xlen, e⟩) x
    · rw [inBlock_iff hObject] at hIn
      rw [run_trapExit_mem]
      exact load_inj hSame ((hPdir x).mpr (by omega))
    · exact trap_outside hHandled hIn (by omega)

/-- Interrupted at 0x80001000, in a memory of ones. -/
def interrupted : Hart rv32 where
  x _ := 0x80001000
  csr _ := 0
  mem _ := 1

/-- A handler that does nothing. -/
theorem trap_keeps_stack_iff_idle :
    StackKept interrupted (run (trapExit rv32) (run (trapEntry rv32) interrupted)) ↔
      pdir (run (trapEntry rv32) interrupted).mem (frameOf interrupted) =
        pdir interrupted.mem (frameOf interrupted) :=
  trap_keeps_stack_iff .rv32 false interrupted (run (trapEntry rv32) interrupted) (by decide)
    ⟨rfl, fun _ _ _ => rfl⟩

/-- `__am_get_cur_as` without virtual memory stores a null pointer. -/
theorem get_cur_as_changes_stack :
    let h₂ : Hart rv32 :=
      { run (trapEntry rv32) interrupted with
        mem := amGetCurAs false 0 (frameOf interrupted) (run (trapEntry rv32) interrupted).mem }
    Handled (run (trapEntry rv32) interrupted) h₂ ∧
      ¬ StackKept interrupted (run (trapExit rv32) h₂) := by
  intro h₂
  refine ⟨getCurAs_handled false 0 interrupted, ?_⟩
  intro hKept
  have hWord := hKept 0x80001000 (by decide)
  rw [run_trapExit_mem] at hWord
  have hPlace : InBlock (slot (XLEN rv32) (frameOf interrupted) (nrRegs rv32 + 3)) (XLEN rv32)
      (0x80001000 : Word rv32) := by decide
  have hStored : h₂.mem 0x80001000 = 0 := by
    dsimp only [h₂]
    unfold amGetCurAs store
    rw [if_pos hPlace]
    decide
  rw [hStored] at hWord
  exact absurd hWord (by decide)

end

end AbstractMachine.Riscv
