import AbstractMachine.Native.Cte.Frame
import AbstractMachine.Native.Vme.Switch
import Mathlib.Logic.Relation

/-!
# Traps and contexts

Any number of CPUs, each a process of its own, over the memory they share.  A
CPU computes until a signal stops it; `irq_handle` calls the user handler with
the context that `setup_stack` saved, and the context the handler returns is
put back by the magic call.  Handlers may be interrupted in turn, at any point
where the interrupts are not blocked, also between `__am_switch` and the magic
call.  What is computed is arbitrary, except that it leaves the contexts alone
that are still to be resumed, and that a trap finds room below the stack
pointer.

With each such context goes what the trap found: the `ucontext_t`, and
`thiscpu->ksp` and `thiscpu->vm_head` of the CPU.
-/

namespace AbstractMachine.Native.Cte

open AbstractMachine.Lib
open AbstractMachine.Lib.ByteMem
open AbstractMachine.Native.Vme (VM inUserSpace amSwitch amSwitch_off amSwitch_on)

variable (P : Platform)

/-- What was captured with a context: the event, if it is not a fresh one, and
the state of the CPU. -/
structure Saved where
  event : Option EventKind
  uc : Ucontext P
  ksp : Word
  vmHead : Nat

variable {P}

/-- The `ucontext_t` to resume: past the instruction of a system call, and as it
was for every other event. -/
def Saved.resumed (s : Saved P) : Ucontext P :=
  match s.event with
  | some event => skipSyscall event s.uc
  | none => s.uc

variable (P)

/-- Where a CPU is. -/
inductive Phase where
  /-- In code of the user, of the kernel or of the user handler. -/
  | running
  /-- At the start of `irq_handle(c)`. -/
  | entering (c : Word)
  /-- Between `__am_switch(c)` and the end of the magic call. -/
  | returning (c : Word) (s : Saved P)

/-- A context to be resumed: what was captured, and where the CPU was. -/
structure Entry where
  saved : Saved P
  phase : Phase P

/-- The CPUs, and the contexts still to be resumed. -/
structure Machine where
  host : Host P
  phase : Nat → Phase P
  contexts : Word → Option (Entry P)

variable {P}

/-! ## The steps -/

/-- The signal reaches CPU `i`.  Only interrupts come at any time. -/
def Delivered (m : Machine P) (i : Nat) (sig : Signal) : Prop :=
  blocked (m.host.uc i) sig = false ∧
    (sig = .sigusr1 ∨ sig = .sigvtalrm ∨ ∀ c, m.phase i ≠ .entering c)

/-- No context that is still to be resumed lies right below the stack pointer. -/
def Room (m : Machine P) (i : Nat) : Prop :=
  ∀ c e, m.contexts c = some e →
    Apart (stackTop m.host i - BitVec.ofNat 64 (contextSize P + 8)) (contextSize P + 8)
      c (fieldsSize P)

/-- The machine after a trap that left the host as `h`. -/
def Machine.trapped (m : Machine P) (i : Nat) (event : EventKind) (h : Host P) : Machine P :=
  let c := contextBelow P (stackTop m.host i)
  let saved : Saved P :=
    { event := some event
      uc := m.host.uc i
      ksp := m.host.ksp i
      vmHead := m.host.vmHead i }
  { host := h
    phase := Function.update m.phase i (.entering c)
    contexts := Function.update m.contexts c (some ⟨saved, m.phase i⟩) }

/-- The fresh context in the bytes at `c`. -/
def fresh (mem : Mem) (c : Word) : Entry P where
  saved :=
    { event := none
      uc := loadUc mem (c + 16)
      ksp := load mem c 8
      vmHead := (load mem (c + 8) 8).toNat }
  phase := .running

/-- The context `c` is there to be returned: it is fresh, or has been passed to
the user handler. -/
def Ready (m : Machine P) (c : Word) (e : Entry P) : Prop :=
  m.contexts c = some e ∧ ∀ i, m.phase i ≠ .entering c

/-- The magic call puts the context `c` back on CPU `i`. -/
def Restore (m : Machine P) (i : Nat) (c : Word) (m' : Machine P) : Prop :=
  ∃ e info h, Ready m c e ∧ m.phase i = .returning c e.saved ∧
    m.host.uc i P.gpr1 = c ∧ magic .sigsegv info = true ∧
    sigHandler i .sigsegv info m.host = some h ∧
    m' =
      { host := h
        phase := Function.update m.phase i e.phase
        contexts := Function.update m.contexts c none }

/-- A step of the system. -/
inductive Step : Machine P → Machine P → Prop where
  /-- CPU `i` computes; the calls of `vme.c` leave every `vm_head` alone. -/
  | exec {m : Machine P} (i : Nat) (uc : Ucontext P) (mem : Mem) (vm : VM)
      (hPhase : ∀ c, m.phase i ≠ .entering c)
      (hMem : ∀ c e, m.contexts c = some e →
        ∀ x, InBlock c (fieldsSize P) x → mem x = m.host.mem x)
      (hHead : ∀ j, (vm.cpu j).vmHead = m.host.vmHead j)
      (hEnable : m.host.vm.vmeEnable = true → vm.vmeEnable = true) :
      Step m
        { m with
          host := { m.host with mem := mem, vm := vm, uc := Function.update m.host.uc i uc } }
  /-- A fresh context has been made at `c`. -/
  | create {m : Machine P} (c : Word)
      (hApart : ∀ k e, m.contexts k = some e → Apart c (fieldsSize P) k (fieldsSize P)) :
      Step m { m with contexts := Function.update m.contexts c (some (fresh m.host.mem c)) }
  /-- An interrupt that `setup_stack` misses. -/
  | miss {m : Machine P} (i : Nat) (sig : Signal) (info : Siginfo) (ev : Event) (h : Host P)
      (hDelivered : Delivered m i sig) (hMagic : magic sig info = false)
      (hEvent : decodeSignal (amInUserspace m.host i info.si_addr) info sig = some ev)
      (hMissed : missed m.host i ev.event = true)
      (hHandler : sigHandler i sig info m.host = some h) :
      Step m { m with host := h }
  /-- A signal for which `setup_stack` saves a context. -/
  | trap {m : Machine P} (i : Nat) (sig : Signal) (info : Siginfo) (ev : Event) (h : Host P)
      (hDelivered : Delivered m i sig) (hMagic : magic sig info = false)
      (hEvent : decodeSignal (amInUserspace m.host i info.si_addr) info sig = some ev)
      (hTaken : missed m.host i ev.event = false) (hRoom : Room m i)
      (hHandler : sigHandler i sig info m.host = some h) :
      Step m (m.trapped i ev.event h)
  /-- `irq_handle` calls the user handler. -/
  | enter {m : Machine P} (i : Nat) (c : Word) (h : Host P) (hPhase : m.phase i = .entering c)
      (hHandle : irqHandleEnter i m.host = some h) :
      Step m { m with host := h, phase := Function.update m.phase i .running }
  /-- The user handler has returned the context `c`. -/
  | ret {m : Machine P} (i : Nat) (c : Word) (e : Entry P) (h : Host P)
      (hPhase : m.phase i = .running) (hReady : Ready m c e)
      (hHandle : irqHandleReturn i c m.host = some h) :
      Step m { m with host := h, phase := Function.update m.phase i (.returning c e.saved) }
  | restore {m m' : Machine P} (i : Nat) (c : Word) (hRestore : Restore m i c m') : Step m m'

/-- Nothing has trapped yet, and no CPU is in an address space. -/
structure Started (m : Machine P) : Prop where
  phase : ∀ i, m.phase i = .running
  contexts : ∀ c, m.contexts c = none
  vmHead : ∀ i, m.host.vmHead i = 0

/-! ## The invariant -/

/-- On its way back to a trapped context, a CPU is in the address space of that
context; one without `vme_init` is in none. -/
def Phase.Fits (vmHead : Nat) : Phase P → Prop
  | .running => True
  | .entering _ => False
  | .returning _ s => vmHead = s.vmHead ∨ s.event = none ∧ vmHead = 0

/-- `irq_handle(c)` is about to start on CPU `i`. -/
structure Entering (m : Machine P) (i : Nat) (c : Word) : Prop where
  gpr1 : m.host.uc i P.gpr1 = c
  blocked : ∀ sig, sig = .sigusr1 ∨ sig = .sigvtalrm → blocked (m.host.uc i) sig = true
  entry : ∃ e, m.contexts c = some e ∧ m.host.ksp i = e.saved.ksp ∧
    m.host.vmHead i = e.saved.vmHead

/-- CPU `i` is on its way into a handler, or in a phase that fits its address space. -/
def CpuOk (m : Machine P) (i : Nat) : Prop :=
  (∃ c, m.phase i = .entering c ∧ Entering m i c) ∨ (m.phase i).Fits (m.host.vmHead i)

/-- The `ucontext_t` of a context is in memory, and what goes with it is right. -/
structure Held (h : Host P) (c : Word) (e : Entry P) : Prop where
  uc : loadUc h.mem (c + 16) = e.saved.resumed
  lt : e.saved.vmHead < 2 ^ 64
  off : h.vm.vmeEnable = false → e.saved.event ≠ none → e.saved.vmHead = 0
  fits : e.phase.Fits e.saved.vmHead
  running : e.saved.event = none → e.phase = .running

/-- The fields `ksp` and `vm_head` are filled in. -/
def Filled (mem : Mem) (c : Word) (s : Saved P) : Prop :=
  load mem c 8 = s.ksp ∧ load mem (c + 8) 8 = BitVec.ofNat 64 s.vmHead

/-- What holds of every reachable machine; `cpu` is the part that carries the traps. -/
structure Inv (m : Machine P) : Prop where
  lt : ∀ i, m.host.vmHead i < 2 ^ 64
  off : m.host.vm.vmeEnable = false → ∀ i, m.host.vmHead i = 0
  cpu : ∀ i, CpuOk m i
  apart : ∀ c e k e', m.contexts c = some e → m.contexts k = some e' → c ≠ k →
    Apart c (fieldsSize P) k (fieldsSize P)
  held : ∀ c e, m.contexts c = some e → Held m.host c e
  filled : ∀ c e, m.contexts c = some e → (∀ i, m.phase i ≠ .entering c) →
    Filled m.host.mem c e.saved

/-! ## The handlers -/

section

variable {m m' : Machine P} {h h' : Host P} {i : Nat} {c k : Word} {e : Entry P} {mem mem' : Mem}
  {sig : Signal} {info : Siginfo} {ev : Event} {s : Saved P}

private theorem describeError_event (sig : Signal) (info : Siginfo) (ev : Event) :
    (describeError sig info ev).event = ev.event := by
  unfold describeError
  split
  · rename_i hError
    exact hError.symm
  · rfl

/-- Every signal but that of the magic call is for `setup_stack`. -/
theorem sigHandler_eq (hMagic : magic sig info = false)
    (hEvent : decodeSignal (amInUserspace h i info.si_addr) info sig = some ev)
    (hHandler : sigHandler i sig info h = some h') :
    h' = setupStack i ev.event (h.setEv i (describeError sig info ev)) := by
  unfold sigHandler at hHandler
  rw [if_neg (ne_true_of_eq_false hMagic), hEvent] at hHandler
  have hSome := Option.some.inj hHandler
  rw [← hSome, describeError_event]

private theorem sigHandler_magic (hMagic : magic sig info = true)
    (hHandler : sigHandler i sig info h = some h') :
    h' = iret i (h.setEv i ⟨.error, 0, 0, none⟩) := by
  unfold sigHandler at hHandler
  rw [if_pos hMagic] at hHandler
  exact (Option.some.inj hHandler).symm

private theorem sigHandler_missed (hMagic : magic sig info = false)
    (hEvent : decodeSignal (amInUserspace h i info.si_addr) info sig = some ev)
    (hMissed : missed h i ev.event = true) (hHandler : sigHandler i sig info h = some h') :
    h' = h.setEv i (describeError sig info ev) :=
  (sigHandler_eq hMagic hEvent hHandler).trans
    (setupStack_missed (h := h.setEv i (describeError sig info ev)) hMissed)

private theorem sigHandler_taken (hMagic : magic sig info = false)
    (hEvent : decodeSignal (amInUserspace h i info.si_addr) info sig = some ev)
    (hTaken : missed h i ev.event = false) (hHandler : sigHandler i sig info h = some h') :
    h' =
      { h.setEv i (describeError sig info ev) with
        mem := storeUc h.mem (contextBelow P (stackTop h i) + 16) (skipSyscall ev.event (h.uc i))
        uc := Function.update h.uc i
          (callIrqHandle (contextBelow P (stackTop h i)) (skipSyscall ev.event (h.uc i))) } :=
  (sigHandler_eq hMagic hEvent hHandler).trans
    (setupStack_eq (h := h.setEv i (describeError sig info ev)) hTaken)

/-- What `irq_handle` stores before it calls the user handler. -/
structure Enters (h h' : Host P) (i : Nat) (c : Word) : Prop where
  rest : ∃ mem, h' = { h with mem := mem }
  uc : loadUc (P := P) h'.mem (c + 16) = loadUc h.mem (c + 16)
  ksp : load h'.mem c 8 = h.ksp i
  vmHead : load h'.mem (c + 8) 8 = BitVec.ofNat 64 (h.vmHead i)
  outside : ∀ x, ¬ InBlock c (fieldsSize P) x → h'.mem x = h.mem x

private theorem irqHandleEnter_enters (hGpr1 : h.uc i P.gpr1 = c)
    (hHandle : irqHandleEnter i h = some h') : Enters h h' i c := by
  unfold irqHandleEnter at hHandle
  rw [hGpr1] at hHandle
  split at hHandle
  · cases hHandle
  · cases hHandle
    exact
      { rest := ⟨_, rfl⟩
        uc := store_head_uc _ _ _ _
        ksp := store_head_ksp _ _ _ _
        vmHead := store_head_vmHead _ _ _ _
        outside := by
          intro x hx
          show store (store _ _ _) _ _ x = _
          rw [store_outside _ _ fun hIn => hx (inBlock_ksp hIn),
            store_outside _ _ fun hIn => hx (inBlock_vmHead hIn)] }

/-! ## Frame conditions -/

private theorem not_apart_self (P : Platform) (c : Word) :
    ¬ Apart c (fieldsSize P) c (fieldsSize P) := by
  intro hApart
  have hIn : InBlock c (fieldsSize P) c := by
    unfold InBlock fieldsSize
    rw [BitVec.sub_self]
    exact Nat.lt_of_lt_of_le (by decide) (Nat.le_add_right 16 _)
  exact hApart c hIn hIn

theorem Held.congr (hHeld : Held h c e)
    (hMem : ∀ x, InBlock c (fieldsSize P) x → h'.mem x = h.mem x)
    (hOff : h'.vm.vmeEnable = false → h.vm.vmeEnable = false) : Held h' c e where
  uc := by
    rw [← hHeld.uc]
    apply loadUc_congr
    intro x hx
    exact hMem x (inBlock_uc hx)
  lt := hHeld.lt
  off := fun hFalse => hHeld.off (hOff hFalse)
  fits := hHeld.fits
  running := hHeld.running

theorem Filled.congr (hFilled : Filled mem c s)
    (hMem : ∀ x, InBlock c (fieldsSize P) x → mem' x = mem x) : Filled mem' c s := by
  constructor
  · rw [← hFilled.1]
    apply load_congr (by decide)
    intro x hx
    exact hMem x (inBlock_ksp hx)
  · rw [← hFilled.2]
    apply load_congr (by decide)
    intro x hx
    exact hMem x (inBlock_vmHead hx)

/-- What another CPU does leaves this one as it is. -/
theorem CpuOk.congr (hOk : CpuOk m i) (hPhase : m'.phase i = m.phase i)
    (hUc : ∀ c, m.phase i = .entering c → m'.host.uc i = m.host.uc i)
    (hKsp : m'.host.ksp i = m.host.ksp i) (hHead : m'.host.vmHead i = m.host.vmHead i)
    (hContext : ∀ c e, m.phase i = .entering c → m.contexts c = some e →
      m'.contexts c = some e) : CpuOk m' i := by
  rcases hOk with ⟨c, hc, hEntering⟩ | hFits
  · left
    obtain ⟨e, he, hCaptured⟩ := hEntering.entry
    refine ⟨c, hPhase.trans hc, ?_, ?_, ?_⟩
    · rw [hUc c hc]
      exact hEntering.gpr1
    · rw [hUc c hc]
      exact hEntering.blocked
    · rw [hKsp, hHead]
      exact ⟨e, hContext c e hc he, hCaptured⟩
  · right
    rw [hPhase, hHead]
    exact hFits

/-- A CPU that is not at the start of `irq_handle` may go on. -/
theorem not_entering_of_update {ph : Phase P} (hi : m.phase i ≠ .entering c)
    (hNot : ∀ j, Function.update m.phase i ph j ≠ .entering c) (j : Nat) :
    m.phase j ≠ .entering c := by
  by_cases hj : j = i
  · rw [hj]
    exact hi
  · have hUpdate := hNot j
    rw [Function.update_of_ne hj] at hUpdate
    exact hUpdate

/-- No context is where a new one fits. -/
theorem context_none
    (hApart : ∀ k e, m.contexts k = some e → Apart c (fieldsSize P) k (fieldsSize P)) :
    m.contexts c = none := by
  cases hc : m.contexts c with
  | none => rfl
  | some e => exact absurd (hApart c e hc) (not_apart_self P c)

/-- A context that is there after one has been made. -/
theorem context_update {e₀ : Entry P}
    (hk : Function.update m.contexts c (some e₀) k = some e) :
    k = c ∧ e = e₀ ∨ k ≠ c ∧ m.contexts k = some e := by
  by_cases hEq : k = c
  · subst hEq
    rw [Function.update_self] at hk
    exact Or.inl ⟨rfl, (Option.some.inj hk).symm⟩
  · rw [Function.update_of_ne hEq] at hk
    exact Or.inr ⟨hEq, hk⟩

private theorem context_keep {e₀ : Entry P}
    (hApart : ∀ k e, m.contexts k = some e → Apart c (fieldsSize P) k (fieldsSize P))
    (he : m.contexts k = some e) : Function.update m.contexts c (some e₀) k = some e := by
  rw [Function.update_of_ne, he]
  rintro rfl
  rw [context_none hApart] at he
  cases he

theorem Inv.apart_update (hInv : Inv m) {e₀ : Entry P}
    (hApart : ∀ k e, m.contexts k = some e → Apart c (fieldsSize P) k (fieldsSize P))
    (k : Word) (e : Entry P) (l : Word) (e' : Entry P)
    (hk : Function.update m.contexts c (some e₀) k = some e)
    (hl : Function.update m.contexts c (some e₀) l = some e') (hNe : k ≠ l) :
    Apart k (fieldsSize P) l (fieldsSize P) := by
  rcases context_update hk with ⟨rfl, _⟩ | ⟨_, hOld⟩
  · rcases context_update hl with ⟨rfl, _⟩ | ⟨_, hOld'⟩
    · exact absurd rfl hNe
    · exact hApart l e' hOld'
  · rcases context_update hl with ⟨rfl, _⟩ | ⟨_, hOld'⟩
    · exact (hApart k e hOld).symm
    · exact hInv.apart k e l e' hOld hOld' hNe

/-- A CPU at the start of `irq_handle` gets no signal. -/
theorem Inv.not_entering (hInv : Inv m) (hDelivered : Delivered m i sig) :
    (∀ c, m.phase i ≠ .entering c) ∧ (m.phase i).Fits (m.host.vmHead i) := by
  rcases hInv.cpu i with ⟨c, hPhase, hEntering⟩ | hFits
  · exfalso
    rcases hDelivered.2 with hSig | hSig | hNot
    · have hMask := hEntering.blocked sig (Or.inl hSig)
      rw [hDelivered.1] at hMask
      cases hMask
    · have hMask := hEntering.blocked sig (Or.inr hSig)
      rw [hDelivered.1] at hMask
      cases hMask
    · exact hNot c hPhase
  · refine ⟨?_, hFits⟩
    intro c hPhase
    rw [hPhase] at hFits
    exact hFits

/-! ## One step -/

theorem Inv.exec (hInv : Inv m) (i : Nat) (uc : Ucontext P) (mem : Mem) (vm : VM)
    (hPhase : ∀ c, m.phase i ≠ .entering c)
    (hMem : ∀ c e, m.contexts c = some e →
      ∀ x, InBlock c (fieldsSize P) x → mem x = m.host.mem x)
    (hHead : ∀ j, (vm.cpu j).vmHead = m.host.vmHead j)
    (hEnable : m.host.vm.vmeEnable = true → vm.vmeEnable = true) :
    Inv { m with
      host := { m.host with mem := mem, vm := vm, uc := Function.update m.host.uc i uc } } := by
  have hOff : vm.vmeEnable = false → m.host.vm.vmeEnable = false := by
    intro hFalse
    apply eq_false_of_ne_true
    intro hTrue
    rw [hEnable hTrue] at hFalse
    cases hFalse
  exact
    { lt := by
        intro j
        show (vm.cpu j).vmHead < 2 ^ 64
        rw [hHead]
        exact hInv.lt j
      off := by
        intro hFalse j
        show (vm.cpu j).vmHead = 0
        rw [hHead]
        exact hInv.off (hOff hFalse) j
      cpu := by
        intro j
        have hUc : ∀ c, m.phase j = .entering c →
            Function.update m.host.uc i uc j = m.host.uc j := by
          intro c hc
          apply Function.update_of_ne
          rintro rfl
          exact hPhase c hc
        exact (hInv.cpu j).congr rfl hUc rfl (hHead j) fun _ _ _ he => he
      apart := hInv.apart
      held := fun c e hc => (hInv.held c e hc).congr (hMem c e hc) hOff
      filled := fun c e hc hNot => (hInv.filled c e hc hNot).congr (hMem c e hc) }

theorem Inv.create (hInv : Inv m) (c : Word)
    (hApart : ∀ k e, m.contexts k = some e → Apart c (fieldsSize P) k (fieldsSize P)) :
    Inv { m with contexts := Function.update m.contexts c (some (fresh m.host.mem c)) } where
  lt := hInv.lt
  off := hInv.off
  cpu := fun i => (hInv.cpu i).congr rfl (fun _ _ => rfl) rfl rfl
    fun _ _ _ he => context_keep hApart he
  apart := hInv.apart_update hApart
  held := by
    intro k e hk
    rcases context_update hk with ⟨rfl, rfl⟩ | ⟨_, hOld⟩
    · exact
        { uc := rfl
          lt := BitVec.isLt _
          off := fun _ hNot => absurd rfl hNot
          fits := trivial
          running := fun _ => rfl }
    · exact hInv.held k e hOld
  filled := by
    intro k e hk hNot
    rcases context_update hk with ⟨rfl, rfl⟩ | ⟨_, hOld⟩
    · refine ⟨rfl, ?_⟩
      show load m.host.mem (k + 8) 8 = BitVec.ofNat 64 (load m.host.mem (k + 8) 8).toNat
      rw [BitVec.ofNat_toNat, BitVec.setWidth_eq]
    · exact hInv.filled k e hOld hNot

/-- The context of a trap is new, and the others stay as they are. -/
theorem trap_apart (hRoom : Room m i) :
    ∀ k e, m.contexts k = some e →
      Apart (contextBelow P (stackTop m.host i)) (fieldsSize P) k (fieldsSize P) := by
  intro k e hk x hx
  exact hRoom k e hk x (inBlock_below _ hx)

private theorem trap_memory (hRoom : Room m i) (uc : Ucontext P) :
    ∀ k e, m.contexts k = some e → ∀ x, InBlock k (fieldsSize P) x →
      storeUc m.host.mem (contextBelow P (stackTop m.host i) + 16) uc x = m.host.mem x := by
  intro k e hk x hx
  apply storeUc_outside
  intro hUc
  exact trap_apart hRoom k e hk x (inBlock_uc hUc) hx

theorem Inv.trap (hInv : Inv m) (hDelivered : Delivered m i sig) (hMagic : magic sig info = false)
    (hEvent : decodeSignal (amInUserspace m.host i info.si_addr) info sig = some ev)
    (hTaken : missed m.host i ev.event = false) (hRoom : Room m i)
    (hHandler : sigHandler i sig info m.host = some h) : Inv (m.trapped i ev.event h) := by
  obtain ⟨hNot, hFits⟩ := hInv.not_entering hDelivered
  have hHost := sigHandler_taken hMagic hEvent hTaken hHandler
  have hApart := trap_apart hRoom
  have hMem := trap_memory hRoom (skipSyscall ev.event (m.host.uc i))
  subst hHost
  exact
    { lt := hInv.lt
      off := hInv.off
      cpu := by
        intro j
        by_cases hj : j = i
        · subst hj
          left
          refine ⟨_, Function.update_self _ _ _, ?_⟩
          exact
            { gpr1 := by
                show Function.update m.host.uc j _ j P.gpr1 = _
                rw [Function.update_self]
                exact callIrqHandle_gpr1 _ _
              blocked := by
                intro sig hSig
                show Cte.blocked (Function.update m.host.uc j _ j) sig = true
                rw [Function.update_self]
                exact callIrqHandle_blocked _ _ hSig
              entry := ⟨_, Function.update_self _ _ _, rfl, rfl⟩ }
        · exact (hInv.cpu j).congr (Function.update_of_ne hj _ _)
            (fun _ _ => Function.update_of_ne hj _ _) rfl rfl
            fun _ _ _ he => context_keep hApart he
      apart := hInv.apart_update hApart
      held := by
        intro k e hk
        rcases context_update hk with ⟨rfl, rfl⟩ | ⟨_, hOld⟩
        · exact
            { uc := loadUc_storeUc _ _ _
              lt := hInv.lt i
              off := fun hFalse _ => hInv.off hFalse i
              fits := hFits
              running := nofun }
        · exact (hInv.held k e hOld).congr (hMem k e hOld) id
      filled := by
        intro k e hk hNotEntering
        rcases context_update hk with ⟨rfl, rfl⟩ | ⟨_, hOld⟩
        · exact absurd (Function.update_self _ _ _) (hNotEntering i)
        · have hOthers := not_entering_of_update (hNot k) hNotEntering
          exact (hInv.filled k e hOld hOthers).congr (hMem k e hOld) }

theorem Inv.entering (hInv : Inv m) (hPhase : m.phase i = .entering c) : Entering m i c := by
  rcases hInv.cpu i with ⟨k, hk, hEntering⟩ | hFits
  · rw [hPhase] at hk
    cases hk
    exact hEntering
  · rw [hPhase] at hFits
    exact absurd hFits id

/-- `irq_handle` fills in the fields of the context it was called with. -/
theorem Inv.enter (hInv : Inv m) (hPhase : m.phase i = .entering c)
    (hHandle : irqHandleEnter i m.host = some h) :
    Inv { m with host := h, phase := Function.update m.phase i .running } := by
  have hEntering := hInv.entering hPhase
  have hEnters := irqHandleEnter_enters hEntering.gpr1 hHandle
  obtain ⟨e₀, he₀, hKsp, hHead⟩ := hEntering.entry
  have hMem : ∀ k e, m.contexts k = some e → k ≠ c → ∀ x, InBlock k (fieldsSize P) x →
      h.mem x = m.host.mem x := by
    intro k e hk hNe x hx
    exact hEnters.outside x (hInv.apart k e c e₀ hk he₀ hNe x hx)
  have hFilled : Filled h.mem c e₀.saved :=
    ⟨hEnters.ksp.trans hKsp, hEnters.vmHead.trans (congrArg _ hHead)⟩
  have hUc := hEnters.uc
  obtain ⟨mem, rfl⟩ := hEnters.rest
  exact
    { lt := hInv.lt
      off := hInv.off
      cpu := by
        intro j
        by_cases hj : j = i
        · subst hj
          right
          show Phase.Fits _ (Function.update m.phase j .running j)
          rw [Function.update_self]
          trivial
        · exact (hInv.cpu j).congr (Function.update_of_ne hj _ _) (fun _ _ => rfl) rfl rfl
            fun _ _ _ he => he
      apart := hInv.apart
      held := by
        intro k e hk
        have hHeld := hInv.held k e hk
        by_cases hEq : k = c
        · subst hEq
          exact ⟨hUc.trans hHeld.uc, hHeld.lt, hHeld.off, hHeld.fits, hHeld.running⟩
        · exact hHeld.congr (hMem k e hk hEq) id
      filled := by
        intro k e hk hNot
        by_cases hEq : k = c
        · subst hEq
          rw [he₀] at hk
          cases hk
          exact hFilled
        · have hOld : m.phase i ≠ .entering k := by
            rw [hPhase]
            intro hSameContext
            cases hSameContext
            exact hEq rfl
          have hOthers := not_entering_of_update hOld hNot
          exact (hInv.filled k e hk hOthers).congr (hMem k e hk hEq) }

/-- The state `__am_switch(c)` leaves behind. -/
theorem irqHandleReturn_eq (hHandle : irqHandleReturn i c h = some h') :
    ∃ u vm, (amSwitch i (load h.mem (c + 8) 8).toNat).run h.vm = .ok (u, vm) ∧
      h' = { h with vm := vm } := by
  unfold irqHandleReturn at hHandle
  split at hHandle
  · cases hHandle
  · split at hHandle
    · rename_i u vm hRun
      exact ⟨u, vm, hRun, (Option.some.inj hHandle).symm⟩
    · cases hHandle

/-- `__am_switch(c)` puts the CPU in the address space of the context, and does
nothing without `vme_init`. -/
theorem Inv.switch (hInv : Inv m) (hReady : Ready m c e) {u : Unit} {vm : VM}
    (hRun : (amSwitch i (load m.host.mem (c + 8) 8).toNat).run m.host.vm = .ok (u, vm)) :
    vm.vmeEnable = m.host.vm.vmeEnable ∧
      (∀ j, j ≠ i → (vm.cpu j).vmHead = m.host.vmHead j) ∧
      (vm.vmeEnable = false → (vm.cpu i).vmHead = 0) ∧
      ((vm.cpu i).vmHead = e.saved.vmHead ∨ e.saved.event = none ∧ (vm.cpu i).vmHead = 0) := by
  have hHeld := hInv.held c e hReady.1
  have hField : (load m.host.mem (c + 8) 8).toNat = e.saved.vmHead := by
    rw [(hInv.filled c e hReady.1 hReady.2).2, BitVec.toNat_ofNat]
    exact Nat.mod_eq_of_lt hHeld.lt
  rw [hField] at hRun
  cases hEnable : m.host.vm.vmeEnable with
  | false =>
      have hZero : (m.host.vm.cpu i).vmHead = 0 := hInv.off hEnable i
      rw [amSwitch_off hEnable hRun]
      refine ⟨hEnable, fun _ _ => rfl, fun _ => hZero, ?_⟩
      by_cases hFresh : e.saved.event = none
      · exact Or.inr ⟨hFresh, hZero⟩
      · left
        rw [hZero, hHeld.off hEnable hFresh]
  | true =>
      obtain ⟨hOn, hHead, hOthers⟩ := amSwitch_on hEnable hRun
      refine ⟨hOn, hOthers, ?_, Or.inl hHead⟩
      intro hFalse
      rw [hOn] at hFalse
      cases hFalse

theorem Inv.ret (hInv : Inv m) (hPhase : m.phase i = .running) (hReady : Ready m c e)
    (hHandle : irqHandleReturn i c m.host = some h) :
    Inv { m with host := h, phase := Function.update m.phase i (.returning c e.saved) } := by
  obtain ⟨u, vm, hRun, rfl⟩ := irqHandleReturn_eq hHandle
  obtain ⟨hEnable, hOthers, hOff, hOwn⟩ := hInv.switch hReady hRun
  have hHeld := hInv.held c e hReady.1
  exact
    { lt := by
        intro j
        show (vm.cpu j).vmHead < 2 ^ 64
        by_cases hj : j = i
        · subst hj
          rcases hOwn with hHead | ⟨_, hHead⟩
          · rw [hHead]
            exact hHeld.lt
          · rw [hHead]
            decide
        · rw [hOthers j hj]
          exact hInv.lt j
      off := by
        intro hFalse j
        show (vm.cpu j).vmHead = 0
        by_cases hj : j = i
        · subst hj
          exact hOff hFalse
        · rw [hOthers j hj]
          exact hInv.off (hEnable ▸ hFalse) j
      cpu := by
        intro j
        by_cases hj : j = i
        · subst hj
          right
          show Phase.Fits (vm.cpu j).vmHead (Function.update m.phase j _ j)
          rw [Function.update_self]
          exact hOwn
        · exact (hInv.cpu j).congr (Function.update_of_ne hj _ _) (fun _ _ => rfl) rfl
            (hOthers j hj) fun _ _ _ he => he
      apart := hInv.apart
      held := fun k e' hk => (hInv.held k e' hk).congr (fun _ _ => rfl) fun hFalse =>
        hEnable ▸ hFalse
      filled := by
        intro k e' hk hNot
        have hOld : m.phase i ≠ .entering k := by
          rw [hPhase]
          exact nofun
        exact hInv.filled k e' hk (not_entering_of_update hOld hNot) }

/-- `iret` of a context that is there. -/
theorem Inv.restored (hInv : Inv m) (hRestore : Restore m i c m') :
    ∃ e ev, Ready m c e ∧ m.phase i = .returning c e.saved ∧
      m' =
        { host := { m.host with
            ev := ev
            uc := Function.update m.host.uc i e.saved.resumed
            ksp := Function.update m.host.ksp i e.saved.ksp }
          phase := Function.update m.phase i e.phase
          contexts := Function.update m.contexts c none } := by
  obtain ⟨e, info, h, hReady, hPhase, hGpr1, hMagic, hHandler, rfl⟩ := hRestore
  refine ⟨e, h.ev, hReady, hPhase, ?_⟩
  have hHost := sigHandler_magic hMagic hHandler
  subst hHost
  rw [← (hInv.held c e hReady.1).uc, ← (hInv.filled c e hReady.1 hReady.2).1, ← hGpr1]
  rfl

/-- On its way back to a trapped context, the CPU is in its address space. -/
theorem Inv.returning (hInv : Inv m) (hPhase : m.phase i = .returning c s) :
    m.host.vmHead i = s.vmHead ∨ s.event = none ∧ m.host.vmHead i = 0 := by
  rcases hInv.cpu i with ⟨k, hk, _⟩ | hFits
  · rw [hPhase] at hk
    cases hk
  · rw [hPhase] at hFits
    exact hFits

theorem Inv.restore (hInv : Inv m) (hRestore : Restore m i c m') : Inv m' := by
  obtain ⟨e, ev, hReady, hPhase, rfl⟩ := hInv.restored hRestore
  have hHeld := hInv.held c e hReady.1
  have hOld : ∀ k e', Function.update m.contexts c none k = some e' → m.contexts k = some e' := by
    intro k e' hk
    by_cases hEq : k = c
    · rw [hEq, Function.update_self] at hk
      cases hk
    · rw [Function.update_of_ne hEq] at hk
      exact hk
  exact
    { lt := hInv.lt
      off := hInv.off
      cpu := by
        intro j
        by_cases hj : j = i
        · subst hj
          right
          show Phase.Fits (m.host.vmHead j) (Function.update m.phase j e.phase j)
          rw [Function.update_self]
          rcases hInv.returning hPhase with hHead | ⟨hFresh, _⟩
          · rw [hHead]
            exact hHeld.fits
          · rw [hHeld.running hFresh]
            trivial
        · have hContext : ∀ k e', m.phase j = .entering k → m.contexts k = some e' →
              Function.update m.contexts c none k = some e' := by
            intro k e' hk he'
            rw [Function.update_of_ne _ _ _, he']
            rintro rfl
            exact hReady.2 j hk
          exact (hInv.cpu j).congr (Function.update_of_ne hj _ _)
            (fun _ _ => Function.update_of_ne hj _ _) (Function.update_of_ne hj _ _) rfl hContext
      apart := fun k e₁ l e₂ hk hl hNe => hInv.apart k e₁ l e₂ (hOld k e₁ hk) (hOld l e₂ hl) hNe
      held := fun k e' hk => (hInv.held k e' (hOld k e' hk)).congr (fun _ _ => rfl) id
      filled := by
        intro k e' hk hNot
        have hHere : m.phase i ≠ .entering k := by
          rw [hPhase]
          exact nofun
        exact hInv.filled k e' (hOld k e' hk) (not_entering_of_update hHere hNot) }

theorem Inv.step (hInv : Inv m) (hStep : Step m m') : Inv m' := by
  cases hStep with
  | exec i uc mem vm hPhase hMem hHead hEnable =>
      exact hInv.exec i uc mem vm hPhase hMem hHead hEnable
  | create c hApart => exact hInv.create c hApart
  | miss i sig info ev h hDelivered hMagic hEvent hMissed hHandler =>
      have hHost := sigHandler_missed hMagic hEvent hMissed hHandler
      subst hHost
      exact
        { lt := hInv.lt
          off := hInv.off
          cpu := fun j => (hInv.cpu j).congr rfl (fun _ _ => rfl) rfl rfl fun _ _ _ he => he
          apart := hInv.apart
          held := fun c e hc => (hInv.held c e hc).congr (fun _ _ => rfl) id
          filled := hInv.filled }
  | trap i sig info ev h hDelivered hMagic hEvent hTaken hRoom hHandler =>
      exact hInv.trap hDelivered hMagic hEvent hTaken hRoom hHandler
  | enter i c h hPhase hHandle => exact hInv.enter hPhase hHandle
  | ret i c e h hPhase hReady hHandle => exact hInv.ret hPhase hReady hHandle
  | restore i c hRestore => exact hInv.restore hRestore

theorem Inv.run (hInv : Inv m) (hRun : Relation.ReflTransGen Step m m') : Inv m' := by
  induction hRun with
  | refl => exact hInv
  | tail _ hStep ih => exact ih.step hStep

theorem Started.inv (hStarted : Started m) : Inv m where
  lt := by
    intro i
    rw [hStarted.vmHead]
    decide
  off := fun _ => hStarted.vmHead
  cpu := by
    intro i
    right
    rw [hStarted.phase]
    trivial
  apart := by
    intro c e k e' hc
    rw [hStarted.contexts] at hc
    cases hc
  held := by
    intro c e hc
    rw [hStarted.contexts] at hc
    cases hc
  filled := by
    intro c e hc
    rw [hStarted.contexts] at hc
    cases hc

/-! ## The results -/

/-- A context comes back as the trap found it, past the instruction of a system
call and only of that. -/
def Restores (m : Machine P) : Prop :=
  ∀ i c e event m', m.contexts c = some e → e.saved.event = some event → Restore m i c m' →
    m'.host.uc i =
        (if event = .syscall then
          Function.update e.saved.uc P.pc (e.saved.uc P.pc + SYSCALL_INSTR_LEN)
        else e.saved.uc) ∧
      m'.host.ksp i = e.saved.ksp ∧ m'.host.vmHead i = e.saved.vmHead

/-- An interrupt at a program counter that is not signal-safe changes nothing. -/
def MissesUnsafe (h : Host P) : Prop :=
  ∀ i sig info h', sig = .sigusr1 ∨ sig = .sigvtalrm → signalSafe h i = false →
    sigHandler i sig info h = some h' → h'.uc i = h.uc i ∧ h'.mem = h.mem

/-- On x86_64, the fields of the `Context` that `irq_handle` is called with end
128 bytes below the stack pointer, or 8 bytes further below, and the stack is
aligned for the call. -/
def KeepsRedZone (h : Host P) : Prop :=
  P.arch = .x86_64 → ∀ i sig info ev h', magic sig info = false →
    decodeSignal (amInUserspace h i info.si_addr) info sig = some ev →
    missed h i ev.event = false → sigHandler i sig info h = some h' →
    (stackTop h i).toNat % 8 = 0 →
    (∃ gap : Nat, (gap = 0 ∨ gap = 8) ∧
      h'.uc i P.gpr1 + BitVec.ofNat 64 (fieldsSize P + gap) = stackTop h i - 128) ∧
    (contextSize P + 8 ≤ (stackTop h i).toNat →
      (h'.uc i P.gpr1).toNat + fieldsSize P ≤ (stackTop h i).toNat - 128) ∧
    ((h'.uc i P.gpr1).toNat + 8) % 16 = 0

theorem Inv.restores (hInv : Inv m) : Restores m := by
  intro i c e event m' hc hEvent hRestore
  obtain ⟨e', ev, hReady, hPhase, rfl⟩ := hInv.restored hRestore
  have hSame := hReady.1
  rw [hc] at hSame
  cases hSame
  have hResumed : e.saved.resumed = skipSyscall event e.saved.uc := by
    unfold Saved.resumed
    rw [hEvent]
  refine ⟨?_, Function.update_self _ _ _, ?_⟩
  · rw [← skipSyscall_eq, ← hResumed]
    exact Function.update_self _ _ _
  · rcases hInv.returning hPhase with hOwn | ⟨hFresh, _⟩
    · exact hOwn
    · rw [hFresh] at hEvent
      cases hEvent

private theorem missesUnsafe (h : Host P) : MissesUnsafe h := by
  intro i sig info h' hSig hUnsafe hHandler
  have hMagic : magic sig info = false := by
    rcases hSig with rfl | rfl <;> rfl
  have hIrq : ∃ ev, decodeSignal (amInUserspace h i info.si_addr) info sig = some ev ∧
      missed h i ev.event = true := by
    unfold missed
    rw [hUnsafe]
    rcases hSig with rfl | rfl
    · exact ⟨_, rfl, rfl⟩
    · exact ⟨_, rfl, rfl⟩
  obtain ⟨ev, hEvent, hMissed⟩ := hIrq
  rw [sigHandler_missed hMagic hEvent hMissed hHandler]
  exact ⟨rfl, rfl⟩

private theorem keepsRedZone (h : Host P) : KeepsRedZone h := by
  intro hArch i sig info ev h' hMagic hEvent hTaken hHandler hSp
  have hSize : contextSize P = fieldsSize P + 128 := by
    unfold contextSize
    rw [if_pos hArch]
  have hContext : h'.uc i P.gpr1 = contextBelow P (stackTop h i) := by
    rw [sigHandler_taken hMagic hEvent hTaken hHandler]
    show Function.update h.uc i _ i P.gpr1 = _
    rw [Function.update_self]
    exact callIrqHandle_gpr1 _ _
  rw [hContext]
  refine ⟨?_, ?_, contextBelow_aligned hArch hSp⟩
  · obtain ⟨gap, hGap, hEq⟩ := contextBelow_eq P (stackTop h i)
    refine ⟨gap, hGap, ?_⟩
    have hSum : contextSize P + gap = 128 + (fieldsSize P + gap) := by omega
    rw [hEq, hSum, BitVec.ofNat_add, ← BitVec.sub_sub, BitVec.sub_add_cancel]
    rfl
  · intro hRoom
    have hBelow := contextBelow_toNat (stackTop h i) hRoom
    omega

end

/--
**Contexts are restored.**  In every run, from the first trap on, on any number
of CPUs and whatever the handlers return: when `iret` restores a context that a
trap saved, the `ucontext_t`, `thiscpu->ksp` and `thiscpu->vm_head` are those the
trap found, with the program counter moved past the instruction of a system
call.  In every state, an interrupt at a program counter that is not signal-safe
leaves the `ucontext_t` as it is, and on x86_64 a trap saves its `Context` below
the red zone, at 8 below a multiple of 16.
-/
theorem contexts_restored (P : Platform) (m₀ m : Machine P) (hStarted : Started m₀)
    (hRun : Relation.ReflTransGen Step m₀ m) :
    Restores m ∧ MissesUnsafe m.host ∧ KeepsRedZone m.host :=
  ⟨(hStarted.inv.run hRun).restores, missesUnsafe m.host, keepsRedZone m.host⟩

/-! ## A thread that yields -/

/-- The `ucontext_t` of glibc on x86_64, and a program at 4 MiB. -/
def linux : Platform where
  arch := .x86_64
  words := 121
  pc := 21
  sp := 20
  gpr1 := 13
  sigmask := 37
  start := 0x400000
  etext := 0x500000
  sigprocmask := 0x7f0000001000
  irqHandle := 0x401000
  words_le := by decide
  regs := by decide
  regs_sigmask := by decide

/-- One thread of the kernel, with its stack below 32 MiB. -/
def oneThread : Machine linux where
  host :=
    { mem := fun _ => 0
      vm := Vme.freshVM
      ksp := fun _ => 0
      ev := fun _ => ⟨.null, 0, 0, none⟩
      uc := fun _ k => if k = linux.pc then 0x400100 else if k = linux.sp then 0x2000000 else 0 }
  phase := fun _ => .running
  contexts := fun _ => none

/-- The thread yields, and its own context is returned. -/
theorem contexts_restored_yield :
    ∃ m m' c e, Relation.ReflTransGen Step oneThread m ∧ Restore m 0 c m' ∧
      m.contexts c = some e ∧ e.saved.uc = oneThread.host.uc 0 ∧
      m'.host.uc 0 = e.saved.uc ∧ m'.host.ksp 0 = e.saved.ksp ∧
      m'.host.vmHead 0 = e.saved.vmHead := by
  let c := contextBelow linux (stackTop oneThread.host 0)
  let e : Entry linux := ⟨⟨some .yield, oneThread.host.uc 0, 0, 0⟩, .running⟩
  let h₁ := setupStack 0 .yield (oneThread.host.setEv 0 ⟨.yield, 0, 0, none⟩)
  let m₁ := oneThread.trapped 0 .yield h₁
  have hTrap : Step oneThread m₁ :=
    Step.trap 0 .sigusr2 ⟨0, 0⟩ ⟨.yield, 0, 0, none⟩ h₁
      ⟨by decide, Or.inr (Or.inr fun _ => nofun)⟩ rfl rfl rfl nofun rfl
  -- the fields of the context are filled in
  have hGpr1 : h₁.uc 0 linux.gpr1 = c := by
    show callIrqHandle c (skipSyscall .yield (oneThread.host.uc 0)) linux.gpr1 = c
    exact callIrqHandle_gpr1 _ _
  let h₂ : Host linux :=
    { h₁ with mem := store (store h₁.mem (c + 8) (n := 8) 0) c (n := 8) 0 }
  let m₂ : Machine linux :=
    { m₁ with host := h₂, phase := Function.update m₁.phase 0 .running }
  have hEnter : Step m₁ m₂ := by
    apply Step.enter 0 c h₂ rfl
    show irqHandleEnter 0 h₁ = some h₂
    unfold irqHandleEnter
    rw [hGpr1]
    rfl
  have hReady : Ready m₂ c e := by
    constructor
    · show Function.update oneThread.contexts c (some e) c = some e
      exact Function.update_self _ _ _
    · intro i
      show Function.update (Function.update _ 0 _) 0 _ i ≠ _
      by_cases hi : i = 0
      · rw [hi, Function.update_self]
        exact nofun
      · rw [Function.update_of_ne hi, Function.update_of_ne hi]
        exact nofun
  -- the handler returns it
  let h₃ : Host linux := { h₂ with vm := Vme.freshVM.setCurrent 0 0 }
  let m₃ : Machine linux :=
    { m₂ with host := h₃, phase := Function.update m₂.phase 0 (.returning c e.saved) }
  have hRet : Step m₂ m₃ := by
    apply Step.ret 0 c e h₃ rfl hReady
    show irqHandleReturn 0 c h₂ = some h₃
    have hHead : load h₂.mem (c + 8) 8 = 0 := store_head_vmHead _ _ _ _
    unfold irqHandleReturn
    rw [if_neg (by decide), hHead]
    rfl
  have hRun : Relation.ReflTransGen Step oneThread m₃ :=
    ((Relation.ReflTransGen.single hTrap).tail hEnter).tail hRet
  have hReady₃ : Ready m₃ c e := by
    refine ⟨hReady.1, ?_⟩
    intro i
    show Function.update m₂.phase 0 _ i ≠ _
    by_cases hi : i = 0
    · rw [hi, Function.update_self]
      exact nofun
    · rw [Function.update_of_ne hi]
      exact hReady.2 i
  have hRestore : Restore m₃ 0 c
      { host := iret 0 (h₃.setEv 0 ⟨.error, 0, 0, none⟩)
        phase := Function.update m₃.phase 0 e.phase
        contexts := Function.update m₃.contexts c none } :=
    ⟨e, ⟨SEGV_ACCERR, 0x100008⟩, _, hReady₃, rfl, hGpr1, rfl, rfl, rfl⟩
  have hStarted : Started oneThread := ⟨fun _ => rfl, fun _ => rfl, fun _ => rfl⟩
  refine ⟨m₃, _, c, e, hRun, hRestore, hReady₃.1, rfl, ?_⟩
  exact (contexts_restored linux oneThread m₃ hStarted hRun).1 0 c e .yield _ hReady₃.1 rfl hRestore

end AbstractMachine.Native.Cte
