import AbstractMachine.Riscv.Trap.Threads

/-!
# Yielding

`yield` is an `ecall`, and `ecall` leaves its own address in `mepc`.  Neither
`__am_irq_handle` nor `trap.S` moves `mepc` on, so that a thread which has
yielded is resumed at the same `ecall`, and yields again.

The threads of `Trap.Threads`, with the address of the next instruction.  The
hart leaves an `ecall` by a trap only; interrupts are never enabled on these
platforms.
-/

namespace AbstractMachine.Riscv

open AbstractMachine.Lib
open AbstractMachine.Lib.ByteMem

/-- `a7`, or `a5` on RV32E. -/
def callReg (t : Target) : Reg := if t.e then 15 else 17

/-- The threads, and the address the hart is about to fetch from. -/
structure Config (t : Target) where
  machine : Machine t
  pc : Word t

section

variable {t : Target} (S : Stacks t) (ecall : Word t → Bool) (j : Nat)

/-- What the last trap of the running thread found is `h`. -/
def TrapOf (m m' : Machine t) (h : Hart t) : Prop :=
  Trap S m m' ∧ m'.last m.running = some h

/-- A step while thread `j` lives; there are `ecall`s at the addresses
`ecall`. -/
inductive Fetch : Config t → Config t → Prop where
  | exec {c : Config t} (h : Hart t) (pc : Word t) (hCode : ecall c.pc = false)
      (hMem : ∀ i, i ≠ c.machine.running → ∀ x, S.On i x → h.mem x = c.machine.hart.mem x) :
      Fetch c { machine := { c.machine with hart := h }, pc := pc }
  | create {c : Config t} (i : Nat) (f : Word t) (mem : ByteMem (8 * XLEN t)) (hOther : i ≠ j)
      (hNot : i ≠ c.machine.running) (hMem : ∀ x, ¬ S.On i x → mem x = c.machine.hart.mem x) :
      Fetch c
        { c with
          machine :=
            { c.machine with
              hart := { c.machine.hart with mem := mem }
              context := Function.update c.machine.context i (some f)
              last := Function.update c.machine.last i none } }
  /-- The hardware sets `mepc` to the address of the instruction, and `mcause`
  to 11 for an `ecall`; `mret` goes to `mepc`. -/
  | trap {c : Config t} {m' : Machine t} (h : Hart t) (hTrap : TrapOf S c.machine m' h)
      (hMepc : h.csr .mepc = c.pc) (hMcause : ecall c.pc = true → h.csr .mcause = 11) :
      Fetch c { machine := m', pc := m'.hart.csr .mepc }

/-- The registers of a thread that is at the `ecall` of `yield`. -/
def Yields (h : Hart t) : Prop := t.platform = .nemu → h.x (callReg t) = -1#_

/-- Thread `j` has not left the `ecall` at `p`. -/
def Spins (p : Word t) (c : Config t) : Prop :=
  (c.machine.running = j → c.pc = p ∧ Yields c.machine.hart) ∧
    (c.machine.running ≠ j → ∃ f h, c.machine.context j = some f ∧
      c.machine.last j = some h ∧ h.csr .mepc = p ∧ Yields h)

variable {S ecall j} {m m' : Machine t} {c c' : Config t} {h : Hart t} {p : Word t}

/-! ## One trap -/

private theorem callReg_lt (t : Target) : callReg t ≠ 0 ∧ (callReg t).val < nrRegs t := by
  unfold callReg nrRegs
  cases t.e <;> decide

theorem SameThread.yields {h' : Hart t} (hSame : SameThread h h') (hYields : Yields h') :
    Yields h := by
  intro hNemu
  rw [hSame.1 _ (callReg_lt t).1 (callReg_lt t).2]
  exact hYields hNemu

private theorem setWidth_neg_one (t : Target) : (-1#(8 * XLEN t)).setWidth 32 = -1 := by
  obtain ⟨_, xlen, _⟩ := t
  cases xlen with
  | rv32 => exact (by decide : (-1#32).setWidth 32 = -1)
  | rv64 => exact (by decide : (-1#64).setWidth 32 = -1)

private theorem add_four_ne (p : Word t) : p ≠ p + 4#(8 * XLEN t) := by
  intro hEq
  have hFour : 4#(8 * XLEN t) = 0#(8 * XLEN t) := by
    have hCancel : p + 4#(8 * XLEN t) - p = p - p := by rw [← hEq]
    rw [add_sub_self, BitVec.sub_self] at hCancel
    exact hCancel
  obtain ⟨_, xlen, _⟩ := t
  cases xlen with
  | rv32 => exact absurd hFour (by decide : 4#32 ≠ 0#32)
  | rv64 => exact absurd hFour (by decide : 4#64 ≠ 0#64)

/-- The event of an `ecall`. -/
theorem event_of_ecall (hMcause : h.csr .mcause = 11) (hYields : Yields h) :
    event (run (trapEntry t) h).mem (frameOf h) = .yield := by
  have hWords := nrRegs_lt (t := t)
  have hCause : word (run (trapEntry t) h).mem (frameOf h) (nrRegs t) = 11 := by
    rw [entry_word h (by omega), if_neg (by omega), if_neg (by omega), if_pos (Nat.add_zero _)]
    exact hMcause
  have hIn : callReg t ∈ REGS t := by
    obtain ⟨platform, xlen, e⟩ := t
    cases platform <;> cases xlen <;> cases e <;> decide
  have hNumber : word (run (trapEntry t) h).mem (frameOf h) (callRegister t) = h.x (callReg t) := by
    have hReg : callRegister t = (callReg t).val := by
      unfold callRegister callReg
      cases t.e <;> rfl
    rw [hReg]
    exact (entry_saves h).2.1.gpr _ hIn
  unfold event
  cases hPlatform : t.platform with
  | nemu =>
      dsimp only
      rw [if_pos hCause, hNumber, hYields hPlatform, setWidth_neg_one, if_pos rfl]
  | npc =>
      dsimp only
      rw [if_pos hCause]

/-- A trap saves the running thread, and resumes one. -/
theorem TrapOf.eq (hTrap : TrapOf S m m' h) :
    h.x = m.hart.x ∧ ∃ h₂ i, m' = (m.saved h).resumed h₂ i := by
  obtain ⟨⟨h₁, h₂, i, f, _, hX, _, _, _, _, _, _, hm'⟩, hLast⟩ := hTrap
  rw [hm', resumed_last, saved_last, Function.update_self] at hLast
  have hEq : h₁ = h := Option.some.inj hLast
  subst hEq
  exact ⟨hX, h₂, i, hm'⟩

/-! ## Every run -/

/-- A step keeps the invariant of the threads. -/
theorem Suspended.fetch (hs : Suspended S c.machine) (hStep : Fetch S ecall j c c') :
    Suspended S c'.machine := by
  cases hStep with
  | exec h pc hCode hMem => exact hs.exec hMem
  | create i f mem hOther hNot hMem => exact hs.create hNot hMem
  | trap h hTrap hMepc hMcause => exact (hs.trap hTrap.1).1

/-- A step leaves thread `j` at its `ecall`. -/
theorem Spins.fetch (hCode : ecall p = true) (hs : Suspended S c.machine) (hSpins : Spins j p c)
    (hStep : Fetch S ecall j c c') : Spins j p c' := by
  cases hStep with
  | exec h pc hNot hMem =>
      have hOther : c.machine.running ≠ j := by
        intro hRun
        rw [(hSpins.1 hRun).1, hCode] at hNot
        cases hNot
      exact ⟨fun hRun => absurd hRun hOther, hSpins.2⟩
  | create i f mem hOther hNot hMem =>
      refine ⟨hSpins.1, ?_⟩
      intro hRun
      obtain ⟨f', h, hContext, hLast, hRest⟩ := hSpins.2 hRun
      refine ⟨f', h, ?_, ?_, hRest⟩
      · show Function.update c.machine.context i (some f) j = some f'
        rw [Function.update_of_ne (Ne.symm hOther)]
        exact hContext
      · show Function.update c.machine.last i none j = some h
        rw [Function.update_of_ne (Ne.symm hOther)]
        exact hLast
  | trap h hTrap hMepc hMcause =>
      rename_i m'
      obtain ⟨hX, h₂, i, hm'⟩ := hTrap.eq
      have hSame := (hs.trap hTrap.1).2
      -- the last trap of `j` found it at `p`, whether it is this one or not
      have hFound : ∃ h', m'.last j = some h' ∧ h'.csr .mepc = p ∧ Yields h' := by
        by_cases hRun : c.machine.running = j
        · obtain ⟨hPc, hYields⟩ := hSpins.1 hRun
          refine ⟨h, ?_, hMepc.trans hPc, ?_⟩
          · rw [← hRun]
            exact hTrap.2
          · intro hNemu
            rw [hX]
            exact hYields hNemu
        · obtain ⟨_, h', _, hLast, hRest⟩ := hSpins.2 hRun
          refine ⟨h', ?_, hRest⟩
          rw [hm', resumed_last, saved_last, Function.update_of_ne (Ne.symm hRun)]
          exact hLast
      obtain ⟨h', hLast, hAt, hYields⟩ := hFound
      constructor
      · intro hRun
        have hRun' : m'.running = j := hRun
        rw [← hRun'] at hLast
        have hThread := hSame h' hLast
        exact ⟨hThread.2.1.trans hAt, hThread.yields hYields⟩
      · intro hNot
        have hNot' : j ≠ i := by
          rintro rfl
          apply hNot
          show m'.running = _
          rw [hm', resumed_running]
        have hContext : ∃ f, m'.context j = some f := by
          rw [hm', resumed_context, saved_context, Function.update_of_ne hNot']
          by_cases hRun : c.machine.running = j
          · rw [hRun, Function.update_self]
            exact ⟨_, rfl⟩
          · rw [Function.update_of_ne (Ne.symm hRun)]
            obtain ⟨f, _, hContext, _⟩ := hSpins.2 hRun
            exact ⟨f, hContext⟩
        obtain ⟨f, hContext⟩ := hContext
        exact ⟨f, h', hContext, hLast, hAt, hYields⟩

theorem Spins.run (hCode : ecall p = true) (hs : Suspended S c.machine) (hSpins : Spins j p c)
    (hRun : Relation.ReflTransGen (Fetch S ecall j) c c') :
    Suspended S c'.machine ∧ Spins j p c' := by
  induction hRun with
  | refl => exact ⟨hs, hSpins⟩
  | tail _ hStep ih => exact ⟨ih.1.fetch hStep, ih.2.fetch hCode ih.1 hStep⟩

end

/--
**A thread never gets past `yield`.**  In every run, on either platform and
for every register file and word size: from the moment a thread is at the
`ecall` of `yield`, whenever it runs it is at this `ecall` and not at the next
instruction, and each of its traps delivers another `EVENT_YIELD`.
-/
theorem yield_never_returns (t : Target) (S : Stacks t) (ecall : Word t → Bool) (j : Nat)
    (p : Word t) (hCode : ecall p = true) (m₀ : Machine t) (c₁ c : Config t)
    (hStarted : Started m₀) (hBefore : Relation.ReflTransGen (Step S) m₀ c₁.machine)
    (hThread : c₁.machine.running = j) (hPc : c₁.pc = p) (hYields : Yields c₁.machine.hart)
    (hRun : Relation.ReflTransGen (Fetch S ecall j) c₁ c) (hRunning : c.machine.running = j) :
    c.pc = p ∧ c.pc ≠ p + 4#(8 * XLEN t) ∧
      ∀ m' h, TrapOf S c.machine m' h → h.csr .mcause = 11 →
        event (run (trapEntry t) h).mem (frameOf h) = .yield := by
  have hs : Suspended S c₁.machine := hStarted.suspended.run hBefore
  have hSpins : Spins j p c₁ := ⟨fun _ => ⟨hPc, hYields⟩, fun hNot => absurd hThread hNot⟩
  obtain ⟨hAt, hNumber⟩ := (hSpins.run hCode hs hRun).2.1 hRunning
  refine ⟨hAt, ?_, ?_⟩
  · rw [hAt]
    exact add_four_ne p
  · intro m' h hTrap hMcause
    apply event_of_ecall hMcause
    intro hNemu
    rw [hTrap.eq.1]
    exact hNumber hNemu

/-! ## One thread that yields -/

/-- Thread 0 of `twoStacks` at an `ecall` at address 0x100. -/
def yielding : Config rv32 where
  machine :=
    { hart :=
        { x := fun r => if r = sp then 0x1000 else if r = callReg rv32 then -1 else 0
          csr := fun r => if r = .mcause then 11 else if r = .mepc then 0x100 else 0
          mem := fun _ => 0 }
      running := 0
      context := fun _ => none
      last := fun _ => none }
  pc := 0x100

/-- The handler returns the context it was given. -/
def yielded : Machine rv32 :=
  (yielding.machine.saved yielding.machine.hart).resumed
    (returning yielding.machine (frameOf yielding.machine.hart)) 0

private theorem yielding_trap :
    TrapOf twoStacks yielding.machine yielded yielding.machine.hart := by
  have hFrame : frameOf yielding.machine.hart =
      0 + BitVec.ofNat _ (0x1000 - CONTEXT_SIZE rv32) := by decide
  constructor
  · apply trap_returning
    · intro x hx
      rw [hFrame] at hx
      exact inBlock_sub hx (k := 0x1000) (by decide) (by decide)
    · rfl
  · rfl

/-- The thread has been resumed, and not at the instruction after the `ecall`. -/
theorem yield_resumes_at_ecall :
    TrapOf twoStacks yielding.machine yielded yielding.machine.hart ∧
      event (run (trapEntry rv32) yielding.machine.hart).mem (frameOf yielding.machine.hart) =
        .yield ∧
      yielded.running = yielding.machine.running ∧ yielded.hart.csr .mepc ≠ yielding.pc + 4 := by
  refine ⟨yielding_trap, ?_, rfl, ?_⟩
  · apply event_of_ecall rfl
    intro _
    rfl
  · decide +kernel

theorem yield_never_returns_once :
    ∃ c : Config rv32, c.pc = 0x100#32 ∧ c.pc ≠ 0x100#32 + 4#32 ∧
      ∀ m' h, TrapOf twoStacks c.machine m' h → h.csr .mcause = 11 →
        event (run (trapEntry rv32) h).mem (frameOf h) = .yield := by
  let ecall : Word rv32 → Bool := fun p => p == 0x100#32
  let c : Config rv32 := { machine := yielded, pc := yielded.hart.csr .mepc }
  have hStep : Fetch twoStacks ecall 0 yielding c :=
    Fetch.trap yielding.machine.hart yielding_trap rfl fun _ => rfl
  exact ⟨c, yield_never_returns rv32 twoStacks ecall 0 0x100#32 rfl yielding.machine yielding c
    ⟨rfl, fun _ => rfl⟩ Relation.ReflTransGen.refl rfl rfl (fun _ => rfl)
    (Relation.ReflTransGen.single hStep) rfl⟩

end AbstractMachine.Riscv
