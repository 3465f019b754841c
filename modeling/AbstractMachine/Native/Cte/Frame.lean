import AbstractMachine.Native.Cte.Model

/-!
# The saved context

What `setup_stack` leaves in memory and in the registers, and where: a
`ucontext_t` comes back as it was stored, `irq_handle` is called with the
`Context` and the interrupts blocked, and on x86_64 the `Context` keeps off the
red zone and its address is 8 below a multiple of 16.
-/

namespace AbstractMachine.Native.Cte

open AbstractMachine.Lib
open AbstractMachine.Lib.ByteMem
open AbstractMachine.Native.Vme (VM inUserSpace amSwitch)

variable {P : Platform} {m m' : Mem} {a c x : Word} {uc : Ucontext P} {h h' : Host P} {i : Nat}
  {event : EventKind}

/-! ## Memory -/

private theorem words_fit (P : Platform) : P.words * 8 ≤ 2 ^ 64 := by
  have hWords := P.words_le
  omega

private theorem fieldsSize_le (P : Platform) : fieldsSize P ≤ contextSize P := Nat.le_add_right _ _

theorem contextSize_le (P : Platform) : contextSize P ≤ 0x90000 := by
  have hWords := P.words_le
  unfold contextSize fieldsSize
  split <;> omega

theorem storeUc_outside (m : Mem) (uc : Ucontext P) (hx : ¬ InBlock a (P.words * 8) x) :
    storeUc m a uc x = m x := by
  unfold InBlock at hx
  exact dif_neg (by omega)

/-- What was stored. -/
theorem loadUc_storeUc (m : Mem) (a : Word) (uc : Ucontext P) :
    loadUc (storeUc m a uc) a = uc := by
  have hWords := P.words_le
  funext k
  apply load_eq
  intro b hb
  have hk := k.isLt
  have hOff : (slot 8 a k.val + BitVec.ofNat 64 b - a).toNat = k.val * 8 + b := by
    unfold slot
    rw [BitVec.add_assoc, ← BitVec.ofNat_add]
    exact toNat_offset (by omega)
  have hDiv : (k.val * 8 + b) / 8 = k.val := by omega
  have hMod : (k.val * 8 + b) % 8 = b := by omega
  unfold storeUc
  simp only [hOff, hDiv, hMod]
  exact dif_pos hk

/-- A `ucontext_t` only depends on its block. -/
theorem loadUc_congr (hSame : ∀ x, InBlock a (P.words * 8) x → m' x = m x) :
    loadUc (P := P) m' a = loadUc m a := by
  funext k
  apply load_congr (by decide)
  intro x hx
  exact hSame x (inBlock_slot hx k.isLt (words_fit P))

/-- The words of `uc` are fields. -/
theorem inBlock_uc (hx : InBlock (c + 16) (P.words * 8) x) : InBlock c (fieldsSize P) x := by
  have hWords := P.words_le
  apply inBlock_sub (i := 16) hx
  · unfold fieldsSize
    omega
  · unfold fieldsSize
    omega

theorem inBlock_vmHead (hx : InBlock (c + 8) 8 x) : InBlock c (fieldsSize P) x := by
  have hWords := P.words_le
  apply inBlock_sub (i := 8) hx
  · unfold fieldsSize
    omega
  · unfold fieldsSize
    omega

theorem inBlock_ksp (hx : InBlock c 8 x) : InBlock c (fieldsSize P) x := by
  unfold InBlock fieldsSize at *
  omega

/-- The two fields that `irq_handle` fills in are apart from `uc`. -/
theorem apart_head (hx : InBlock (c + 16) (P.words * 8) x) :
    ¬ InBlock (c + 8) 8 x ∧ ¬ InBlock c 8 x := by
  have hWords := P.words_le
  have hDist := toNat_sub_offset (a := c) (i := 16) hx (by omega)
  constructor
  · have hApart := apart_offset (a := c) (i := 8) (j := 16) (n := 8) (k := P.words * 8)
      (by omega) (by omega)
    exact fun hx' => hApart x hx' hx
  · unfold InBlock
    omega

theorem store_head_uc (m : Mem) (c ksp head : Word) :
    loadUc (P := P) (store (store m (c + 8) (n := 8) head) c (n := 8) ksp) (c + 16) =
      loadUc m (c + 16) := by
  apply loadUc_congr
  intro x hx
  rw [store_outside _ _ (apart_head hx).2, store_outside _ _ (apart_head hx).1]

theorem store_head_ksp (m : Mem) (c ksp head : Word) :
    load (store (store m (c + 8) (n := 8) head) c (n := 8) ksp) c 8 = ksp :=
  load_store_same _ c (n := 8) ksp (by decide)

theorem store_head_vmHead (m : Mem) (c ksp head : Word) :
    load (store (store m (c + 8) (n := 8) head) c (n := 8) ksp) (c + 8) 8 = head := by
  have hApart : Apart c 8 (c + 8) 8 := by
    have hOff := apart_offset (a := c) (i := 0) (j := 8) (n := 8) (k := 8) (by decide) (by decide)
    rw [BitVec.add_zero] at hOff
    exact hOff
  rw [load_store_apart _ _ (by decide) hApart.symm]
  exact load_store_same _ (c + 8) (n := 8) head (by decide)

/-! ## Registers -/

private theorem regs_ne (P : Platform) : P.pc ≠ P.sp ∧ P.pc ≠ P.gpr1 ∧ P.sp ≠ P.gpr1 := by
  have hRegs := P.regs
  simp only [List.nodup_cons, List.mem_cons, List.not_mem_nil, or_false, not_or] at hRegs
  exact ⟨hRegs.1.1, hRegs.1.2, hRegs.2.1⟩

theorem callIrqHandle_gpr1 (c : Word) (uc : Ucontext P) : callIrqHandle c uc P.gpr1 = c := by
  unfold callIrqHandle
  rw [Function.update_of_ne (Ne.symm (regs_ne P).2.2),
    Function.update_of_ne (Ne.symm (regs_ne P).2.1),
    Function.update_self]

private theorem ne_sigmask {r : Fin P.words} (hr : r ∈ [P.pc, P.sp, P.gpr1]) : P.sigmask ≠ r := by
  intro hEq
  have hOut := P.regs_sigmask r hr
  rw [← hEq] at hOut
  omega

/-- `irq_handle` starts with the interrupts blocked. -/
theorem callIrqHandle_blocked (c : Word) (uc : Ucontext P) {sig : Signal}
    (hSig : sig = .sigusr1 ∨ sig = .sigvtalrm) : blocked (callIrqHandle c uc) sig = true := by
  have hMask : callIrqHandle c uc P.sigmask = intrSigmask 0 := by
    unfold callIrqHandle
    rw [Function.update_of_ne (ne_sigmask (by simp)), Function.update_of_ne (ne_sigmask (by simp)),
      Function.update_of_ne (ne_sigmask (by simp))]
    unfold getIntrSigmask
    rw [if_pos ⟨Nat.le_refl _, by omega⟩, Nat.sub_self]
  unfold blocked
  rw [hMask]
  rcases hSig with rfl | rfl <;> decide

/-- Only for a system call the program counter moves. -/
theorem skipSyscall_eq (event : EventKind) (uc : Ucontext P) :
    skipSyscall event uc =
      if event = .syscall then Function.update uc P.pc (uc P.pc + SYSCALL_INSTR_LEN) else uc := by
  unfold skipSyscall
  split
  · rfl
  · exact Function.update_eq_self _ _

/-! ## Where the context is -/

/-- The `Context` ends at the stack pointer, or 8 below it. -/
theorem contextBelow_eq (P : Platform) (sp : Word) :
    ∃ gap : Nat, (gap = 0 ∨ gap = 8) ∧
      contextBelow P sp = sp - BitVec.ofNat 64 (contextSize P + gap) := by
  unfold contextBelow
  by_cases hPad : P.arch = .x86_64 ∧ (sp - BitVec.ofNat 64 (contextSize P) + 8) % 16 ≠ 0
  · refine ⟨8, Or.inr rfl, ?_⟩
    rw [if_pos hPad, BitVec.ofNat_add, ← BitVec.sub_sub]
    rfl
  · exact ⟨0, Or.inl rfl, if_neg hPad⟩

/-- The fields of the `Context` lie in the bytes below the stack pointer. -/
theorem inBlock_below (sp : Word) (hx : InBlock (contextBelow P sp) (fieldsSize P) x) :
    InBlock (sp - BitVec.ofNat 64 (contextSize P + 8)) (contextSize P + 8) x := by
  have hLe := contextSize_le P
  have hFields := fieldsSize_le P
  obtain ⟨gap, hGap, hEq⟩ := contextBelow_eq P sp
  have hBase : contextBelow P sp =
      sp - BitVec.ofNat 64 (contextSize P + 8) + BitVec.ofNat 64 (8 - gap) := by
    have hSum : contextSize P + 8 = contextSize P + gap + (8 - gap) := by omega
    rw [hEq, hSum, BitVec.ofNat_add _ (8 - gap), ← BitVec.sub_sub, BitVec.sub_add_cancel]
  rw [hBase] at hx
  exact inBlock_sub hx (by omega) (by omega)

/-- The `Context` ends below the stack pointer, when that is not close to 0. -/
theorem contextBelow_toNat (sp : Word) (hRoom : contextSize P + 8 ≤ sp.toNat) :
    (contextBelow P sp).toNat + contextSize P ≤ sp.toNat := by
  have hLt := sp.isLt
  obtain ⟨gap, hGap, hEq⟩ := contextBelow_eq P sp
  have hNat : (BitVec.ofNat 64 (contextSize P + gap)).toNat = contextSize P + gap := by
    rw [BitVec.toNat_ofNat]
    exact Nat.mod_eq_of_lt (by omega)
  have hSub : BitVec.ofNat 64 (contextSize P + gap) ≤ sp := by
    rw [BitVec.le_def, hNat]
    omega
  rw [hEq, BitVec.toNat_sub_of_le hSub, hNat]
  omega

/-- On x86_64 a stack pointer that is a multiple of 8 gives a `Context` whose
address is 8 below a multiple of 16. -/
theorem contextBelow_aligned (hArch : P.arch = .x86_64) {sp : Word} (hSp : sp.toNat % 8 = 0) :
    ((contextBelow P sp).toNat + 8) % 16 = 0 := by
  have hLt := sp.isLt
  have hWords := P.words_le
  have hSize : contextSize P = 144 + 8 * P.words := by
    unfold contextSize fieldsSize
    rw [if_pos hArch]
    omega
  have hNat : (BitVec.ofNat 64 (contextSize P)).toNat = contextSize P := by
    rw [BitVec.toNat_ofNat]
    exact Nat.mod_eq_of_lt (by omega)
  have hEight : (8 : Word).toNat = 8 := rfl
  have hDown : (sp - BitVec.ofNat 64 (contextSize P)).toNat % 8 = 0 := by
    rw [BitVec.toNat_sub, hNat, hSize]
    omega
  have hUp : ((sp - BitVec.ofNat 64 (contextSize P) + 8) % 16).toNat =
      ((sp - BitVec.ofNat 64 (contextSize P)).toNat + 8) % 16 := by
    have hSixteen : (16 : Word).toNat = 16 := rfl
    rw [BitVec.toNat_umod, BitVec.toNat_add, hEight, hSixteen]
    omega
  unfold contextBelow
  by_cases hPad : (sp - BitVec.ofNat 64 (contextSize P) + 8) % 16 ≠ 0
  · have hOdd : ((sp - BitVec.ofNat 64 (contextSize P)).toNat + 8) % 16 ≠ 0 := by
      intro hZero
      apply hPad
      apply BitVec.eq_of_toNat_eq
      rw [hUp, hZero]
      rfl
    rw [if_pos ⟨hArch, hPad⟩, BitVec.toNat_sub, hEight]
    omega
  · have hEven := congrArg BitVec.toNat (Decidable.not_not.mp hPad)
    rw [hUp] at hEven
    rw [if_neg fun hBoth => hPad hBoth.2]
    exact hEven

/-! ## `setup_stack` -/

/-- A missed interrupt changes nothing. -/
theorem setupStack_missed (hMissed : missed h i event = true) : setupStack i event h = h :=
  if_pos hMissed

theorem setupStack_eq (hTaken : missed h i event = false) :
    setupStack i event h =
      { h with
        mem := storeUc h.mem (contextBelow P (stackTop h i) + 16) (skipSyscall event (h.uc i))
        uc := Function.update h.uc i
          (callIrqHandle (contextBelow P (stackTop h i)) (skipSyscall event (h.uc i))) } :=
  if_neg (ne_true_of_eq_false hTaken)

end AbstractMachine.Native.Cte
