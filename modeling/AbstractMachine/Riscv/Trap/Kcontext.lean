import AbstractMachine.Riscv.Trap.Frame

/-!
# Fresh contexts

`kcontext` writes the words of a context by their numbers, for a fixed number
of 32-bit registers; `trap.S` reads them at offsets computed from the register
file and the word size of the target.  A fresh thread starts if the two
agree, which on nemu is the case for RV32I only.
-/

namespace AbstractMachine.Riscv

open AbstractMachine.Lib
open AbstractMachine.Lib.ByteMem

section

variable {t : Target} {m : ByteMem (8 * XLEN t)} {n : Nat} {kstack : Area t}
  {entry arg : Word t}

/-! ## The words of a fresh context -/

/-- The word `k` of a context made for `n` registers. -/
def freshWord (n : Nat) (entry arg : Word t) (k : Nat) : BitVec 32 :=
  if k = n + 3 then 0
  else if k = n + 2 then entry.setWidth 32
  else if k = n + 1 then 0x1800
  else if k = n then 11
  else if k = 10 then arg.setWidth 32
  else 0

/-- Where `kcontext` puts the context. -/
def contextAt (n : Nat) (kstack : Area t) : Word t :=
  kstack.fin - BitVec.ofNat _ (4 * (n + 4))

/-- The stack has room for the context, and below it for the word at its start. -/
def Large (n : Nat) (kstack : Area t) : Prop :=
  kstack.start.toNat + 4 + 4 * (n + 4) ≤ kstack.fin.toNat

private theorem toNat_contextAt (hLarge : Large n kstack) :
    (contextAt n kstack).toNat = kstack.fin.toNat - 4 * (n + 4) := by
  have hFin := kstack.fin.isLt
  unfold Large at hLarge
  have hSize : (BitVec.ofNat (8 * XLEN t) (4 * (n + 4))).toNat = 4 * (n + 4) := by
    rw [BitVec.toNat_ofNat]
    exact Nat.mod_eq_of_lt (by omega)
  unfold contextAt
  rw [BitVec.toNat_sub_of_le, hSize]
  rw [BitVec.le_def, hSize]
  omega

private theorem ld_st32 {p : Word t} {i j k : Nat} (v : BitVec 32) (hi : i < k) (hj : j < k)
    (hk : k * 4 ≤ 2 ^ (8 * XLEN t)) :
    load (st32 m p i v) (slot 4 p j) 4 = if i = j then v else load m (slot 4 p j) 4 :=
  load_store_slot (n := 4) v hi hj hk

private theorem ld_st32_apart {p q : Word t} {i : Nat} (v : BitVec 32) (hFit : 4 ≤ 2 ^ (8 * XLEN t))
    (hApart : Apart q 4 (slot 4 p i) 4) : load (st32 m p i v) q 4 = load m q 4 :=
  load_store_apart (n := 4) (k := 4) m v hFit hApart

/-- The loop clears the registers. -/
theorem ld_clear {p : Word t} {j k : Nat} (hn : n ≤ k) (hj : j < k)
    (hk : k * 4 ≤ 2 ^ (8 * XLEN t)) :
    load ((List.range n).foldl (fun m i => st32 m p i 0) m) (slot 4 p j) 4 =
      if j < n then 0 else load m (slot 4 p j) 4 := by
  induction n with
  | zero => rfl
  | succ n ih =>
      rw [List.range_succ, List.foldl_append, List.foldl_cons, List.foldl_nil,
        ld_st32 _ hn hj hk, ih (by omega)]
      by_cases hEq : n = j
      · rw [if_pos hEq, if_pos (by omega)]
      · rw [if_neg hEq]
        by_cases hLt : j < n
        · rw [if_pos hLt, if_pos (by omega)]
        · rw [if_neg hLt, if_neg (by omega)]

/-- **The words of a fresh context.** -/
theorem kcontextWith_word {k : Nat} (hn : 10 < n) (hLarge : Large n kstack)
    (hk : k < n + 4) :
    load (kcontextWith n kstack entry arg m).2 (slot 4 (contextAt n kstack) k) 4 =
      freshWord n entry arg k := by
  have hFin := kstack.fin.isLt
  have hFit : (n + 4) * 4 ≤ 2 ^ (8 * XLEN t) := by
    unfold Large at hLarge
    omega
  have hAt := toNat_contextAt hLarge
  -- the word at the start of the stack is not in the context
  have hStart : Apart (slot 4 (contextAt n kstack) k) 4 (slot 4 kstack.start 0) 4 := by
    unfold Large at hLarge
    intro x hx hx'
    have hIn := inBlock_slot hx hk hFit
    rw [slot, Nat.zero_mul, BitVec.add_zero, inBlock_iff (by omega)] at hx'
    rw [inBlock_iff (by omega)] at hIn
    omega
  have hTen : 10 < n + 4 := by omega
  unfold kcontextWith
  unfold contextAt at hStart ⊢
  dsimp only
  generalize kstack.fin - BitVec.ofNat (8 * XLEN t) (4 * (n + 4)) = p at hStart ⊢
  rw [ld_st32_apart _ (by omega) hStart, ld_st32 _ (by omega) hk hFit,
    ld_st32 _ (by omega) hk hFit, ld_st32 _ (by omega) hk hFit, ld_st32 _ (by omega) hk hFit,
    ld_st32 _ hTen hk hFit, ld_clear (by omega) hk hFit]
  unfold freshWord
  simp only [@eq_comm Nat _ k]
  by_cases hLow : k < n
  · rw [if_pos hLow]
  · have hClear : ¬ k < n → k = n ∨ k = n + 1 ∨ k = n + 2 ∨ k = n + 3 := by omega
    rcases hClear hLow with hEq | hEq | hEq | hEq <;> simp [hEq]

/-! ## The first run of the thread -/

variable {h : Hart t}

/-- The hart is about to run `entry(arg)`, on the stack it was given. -/
structure Starts (kstack : Area t) (entry arg : Word t) (h : Hart t) : Prop where
  pc : h.csr .mepc = entry
  a0 : h.x a0 = arg
  mstatus : h.csr .mstatus = 0x1800
  sp : kstack.start.toNat < (h.x sp).toNat ∧ (h.x sp).toNat ≤ kstack.fin.toNat

/-- `__am_irq_handle` returns the context of `kcontext`, whose bytes are as
`kcontext` left them. -/
structure Returned (kstack : Area t) (entry arg : Word t) (m : ByteMem (8 * XLEN t))
    (h : Hart t) : Prop where
  large : Large (kcontextRegs t) kstack
  ptr : h.x a0 = (kcontext kstack entry arg m).1
  mem : ∀ x, InBlock (h.x a0) ((kcontextRegs t + 4) * 4) x →
    h.mem x = (kcontext kstack entry arg m).2 x

theorem Returned.at_context (hr : Returned kstack entry arg m h) :
    h.x a0 = contextAt (kcontextRegs t) kstack := hr.ptr

private theorem kcontextRegs_bound (t : Target) : 10 < kcontextRegs t ∧ kcontextRegs t ≤ 32 := by
  unfold kcontextRegs
  split <;> decide

/-- On a 32-bit target the words of the frame are those `kcontext` writes. -/
theorem word_eq_load (hXlen : XLEN t = 4) (c : Word t) (k : Nat) :
    word m c k = (load m (slot 4 c k) 4).setWidth (8 * XLEN t) := by
  have hWord : ∀ l, l = 4 → load m (slot l c k) l = (load m (slot 4 c k) 4).setWidth (8 * l) := by
    rintro l rfl
    exact (BitVec.setWidth_eq _).symm
  exact hWord _ hXlen

/-- What the exit code reads on a 32-bit target. -/
theorem Returned.word_eq (hr : Returned kstack entry arg m h) (hXlen : XLEN t = 4) {k : Nat}
    (hk : k < kcontextRegs t + 4) :
    word h.mem (h.x a0) k =
      (freshWord (kcontextRegs t) entry arg k).setWidth (8 * XLEN t) := by
  have hRegs := kcontextRegs_bound t
  have hBits : 8 * XLEN t = 32 := by omega
  have hFit : (kcontextRegs t + 4) * 4 ≤ 2 ^ (8 * XLEN t) := by
    rw [hBits]
    omega
  have hSame : load h.mem (slot 4 (h.x a0) k) 4 =
      load (kcontext kstack entry arg m).2 (slot 4 (h.x a0) k) 4 := by
    apply load_congr (n := 4)
    · omega
    · intro x hx
      apply hr.mem
      exact inBlock_slot hx hk hFit
  rw [word_eq_load hXlen, hSame, hr.at_context, kcontext,
    kcontextWith_word hRegs.1 hr.large hk]

/-- The stack pointer of the thread. -/
theorem Returned.toNat_sp (hr : Returned kstack entry arg m h)
    (hTop : kstack.fin.toNat - 4 * (kcontextRegs t + 4) + CONTEXT_SIZE t < 2 ^ (8 * XLEN t)) :
    ((run (trapExit t) h).x sp).toNat =
      kstack.fin.toNat - 4 * (kcontextRegs t + 4) + CONTEXT_SIZE t := by
  have hSize : (BitVec.ofNat (8 * XLEN t) (CONTEXT_SIZE t)).toNat = CONTEXT_SIZE t := by
    rw [BitVec.toNat_ofNat]
    exact Nat.mod_eq_of_lt (by omega)
  rw [run_trapExit_sp, hr.at_context, BitVec.toNat_add_of_lt, toNat_contextAt hr.large, hSize]
  rw [toNat_contextAt hr.large, hSize]
  omega

/-- Where the two descriptions agree, the thread starts. -/
theorem Returned.starts (hr : Returned kstack entry arg m h) (hXlen : XLEN t = 4)
    (hRegs : nrRegs t = kcontextRegs t) : Starts kstack entry arg (run (trapExit t) h) := by
  have hBound := kcontextRegs_bound t
  have hLarge := hr.large
  have hFin := kstack.fin.isLt
  have hBits : 8 * XLEN t = 32 := by omega
  have hWhole : ∀ v : Word t, (v.setWidth 32).setWidth (8 * XLEN t) = v := by
    intro v
    rw [BitVec.setWidth_setWidth_of_le v (by omega), BitVec.setWidth_eq]
  have hA0 : a0 ∈ REGS t := mem_REGS.mpr ⟨by decide, by decide, by rw [hRegs]; exact hBound.1⟩
  have hSize : CONTEXT_SIZE t ≤ 4 * (kcontextRegs t + 4) ∧
      4 * (kcontextRegs t + 3) ≤ CONTEXT_SIZE t := by
    unfold CONTEXT_SIZE contextWords
    rw [hXlen, hRegs]
    split <;> omega
  obtain ⟨hStatus, hEpc⟩ := run_trapExit_csr h
  unfold Large at hLarge
  exact
    { pc := by
        rw [hEpc, hr.word_eq hXlen (by omega), hRegs, freshWord, if_neg (by omega), if_pos rfl]
        exact hWhole entry
      a0 := by
        have hTen : a0.val = 10 := rfl
        rw [run_trapExit_reg h hA0, hr.word_eq hXlen (by omega), freshWord, hTen,
          if_neg (by omega), if_neg (by omega), if_neg (by omega), if_neg (by omega), if_pos rfl]
        exact hWhole arg
      mstatus := by
        rw [hStatus, hr.word_eq hXlen (by omega), hRegs, freshWord, if_neg (by omega),
          if_neg (by omega), if_pos rfl]
        exact BitVec.setWidth_ofNat_of_le (by omega) 0x1800
      sp := by
        rw [hr.toNat_sp (by omega)]
        omega }

/-- On RV32E the exit code finds a cleared register in the place of
`mstatus`. -/
theorem Returned.not_starts_e (hr : Returned kstack entry arg m h) (ht : t.platform = .nemu)
    (hXlen : XLEN t = 4) (hE : t.e = true) :
    ¬ Starts kstack entry arg (run (trapExit t) h) := by
  intro hStarts
  have hRegs : nrRegs t = 16 := by
    unfold nrRegs
    rw [hE]
    rfl
  have hWords : kcontextRegs t = 32 := by
    unfold kcontextRegs
    rw [ht]
  have hStatus := hStarts.mstatus
  rw [(run_trapExit_csr h).1, hr.word_eq hXlen (by omega), hRegs, hWords] at hStatus
  have hCleared : freshWord 32 entry arg (16 + 1) = BitVec.ofNat 32 0 := rfl
  have hBits : 2 ^ (8 * XLEN t) = 2 ^ 32 := by rw [hXlen]
  rw [hCleared, BitVec.setWidth_ofNat_of_le (by omega)] at hStatus
  have hNat : 0 % 2 ^ (8 * XLEN t) = 0x1800 % 2 ^ (8 * XLEN t) :=
    congrArg BitVec.toNat hStatus
  rw [hBits] at hNat
  cases hNat

/-- On RV64 the frame of the exit code ends above the stack. -/
theorem Returned.not_starts_64 (hr : Returned kstack entry arg m h) (ht : t.platform = .nemu)
    (hXlen : XLEN t = 8) (hTop : kstack.fin.toNat + 136 < 2 ^ 64) :
    ¬ Starts kstack entry arg (run (trapExit t) h) := by
  intro hStarts
  have hLarge := hr.large
  have hWords : kcontextRegs t = 32 := by
    unfold kcontextRegs
    rw [ht]
  have hSize : 152 ≤ CONTEXT_SIZE t ∧ CONTEXT_SIZE t ≤ 280 := by
    unfold CONTEXT_SIZE contextWords nrRegs
    rw [hXlen, ht]
    dsimp only
    split <;> omega
  have hBits : 2 ^ (8 * XLEN t) = 2 ^ 64 := by rw [hXlen]
  have hSp := hStarts.sp.2
  unfold Large at hLarge
  rw [hr.toNat_sp (by omega)] at hSp
  omega

end

/--
**`kcontext` on nemu.**  Whatever the stack, the entry and the argument, a
fresh thread starts if and only if the target is RV32I.  On RV64 the memory
above the stack, into which the exit code reads, must exist.
-/
theorem kcontext_starts_iff (t : Target) (ht : t.platform = .nemu) (kstack : Area t)
    (entry arg : Word t) (m : ByteMem (8 * XLEN t)) (h : Hart t)
    (hr : Returned kstack entry arg m h)
    (hTop : t.xlen = .rv64 → kstack.fin.toNat + 136 < 2 ^ 64) :
    Starts kstack entry arg (run (trapExit t) h) ↔ t.xlen = .rv32 ∧ t.e = false := by
  constructor
  · intro hStarts
    cases hXlen : t.xlen with
    | rv32 =>
        have hFour : XLEN t = 4 := by
          unfold XLEN
          rw [hXlen]
        refine ⟨rfl, ?_⟩
        cases hE : t.e with
        | false => rfl
        | true => exact absurd hStarts (hr.not_starts_e ht hFour hE)
    | rv64 =>
        have hEight : XLEN t = 8 := by
          unfold XLEN
          rw [hXlen]
        exact absurd hStarts (hr.not_starts_64 ht hEight (hTop hXlen))
  · rintro ⟨hXlen, hE⟩
    have hFour : XLEN t = 4 := by
      unfold XLEN
      rw [hXlen]
    apply hr.starts hFour
    unfold nrRegs kcontextRegs
    rw [hE, ht]
    rfl

/-- The hart when the handler has returned a fresh context on the page from
0x1000 on. -/
def freshHart (t : Target) : Hart t :=
  let ctx := kcontext (t := t) ⟨0x1000, 0x2000⟩ 0x100 7 fun _ => 0
  { x := fun _ => ctx.1, csr := fun _ => 0, mem := ctx.2 }

theorem kcontext_starts_rv32 :
    Starts (t := rv32) ⟨0x1000, 0x2000⟩ 0x100 7 (run (trapExit rv32) (freshHart rv32)) :=
  (kcontext_starts_iff rv32 rfl ⟨0x1000, 0x2000⟩ 0x100 7 (fun _ => 0) (freshHart rv32)
    ⟨by unfold Large; decide, rfl, fun _ _ => rfl⟩ (fun h => by cases h)).mpr ⟨rfl, rfl⟩

/-- On RV32E the thread starts at address 0, with `mstatus` 0. -/
theorem kcontext_wrong_rv32e :
    ¬ Starts (t := rv32e) ⟨0x1000, 0x2000⟩ 0x100 7 (run (trapExit rv32e) (freshHart rv32e)) := by
  intro hStarts
  have hPc := hStarts.pc
  revert hPc
  decide +kernel

end AbstractMachine.Riscv
