import AbstractMachine.Riscv.Trap.Frame
import Mathlib.Logic.Relation

/-!
# Threads

Any number of threads on one hart, each with a stack of its own.  A thread
runs until it traps; the user handler then returns the context just saved or
that of another suspended thread, and `mret` goes on with it.  What a thread
computes is arbitrary, and so is what the handler does, except that it leaves
the frames of suspended threads alone.

The frame of a suspended thread lies in its stack, so neither the running
thread nor a trap on another stack touches it; it still holds the registers
of the last trap when the thread is resumed.
-/

namespace AbstractMachine.Riscv

open AbstractMachine.Lib
open AbstractMachine.Lib.ByteMem

/-- The stacks of the threads, apart from each other. -/
structure Stacks (t : Target) where
  base : Nat → Word t
  size : Nat → Nat
  apart : ∀ i j, i ≠ j → Apart (base i) (size i) (base j) (size j)

section

variable {t : Target}

/-- The address is on the stack of thread `i`. -/
def Stacks.On (S : Stacks t) (i : Nat) (x : Word t) : Prop := InBlock (S.base i) (S.size i) x

/-- The hart with the thread it runs, and what is known of the others. -/
structure Machine (t : Target) where
  hart : Hart t
  running : Nat
  /-- The `Context *` of each suspended thread. -/
  context : Nat → Option (Word t)
  /-- The hart as the last trap of each thread found it. -/
  last : Nat → Option (Hart t)

/-- A trap has been saved: the hart was `h`. -/
def Machine.saved (m : Machine t) (h : Hart t) : Machine t :=
  { m with
    hart := run (trapEntry t) h
    context := Function.update m.context m.running (some (frameOf h))
    last := Function.update m.last m.running (some h) }

/-- The handler has left the hart as `h` and returns the context of `j`. -/
def Machine.resumed (m : Machine t) (h : Hart t) (j : Nat) : Machine t :=
  { m with
    hart := run (trapExit t) h
    running := j
    context := Function.update m.context j none }

variable (S : Stacks t)

/-- The frame of a trap fits on the stack of the running thread. -/
def Room (m : Machine t) (h : Hart t) : Prop :=
  ∀ x, InBlock (frameOf h) (CONTEXT_SIZE t) x → S.On m.running x

/-- The frames of suspended threads are in `mem` as they are in `m`. -/
def Kept (m : Machine t) (mem : ByteMem (8 * XLEN t)) : Prop :=
  ∀ k f, m.context k = some f → ∀ x, InBlock f (CONTEXT_SIZE t) x → mem x = m.hart.mem x

/-- A trap: the hardware sets the control registers, the frame is saved, the
user handler, if there is one, returns the context `f` of a suspended thread,
and that thread resumes. -/
def Trap (m m' : Machine t) : Prop :=
  ∃ h h₂ j f userHandler, h.x = m.hart.x ∧ h.mem = m.hart.mem ∧ Room S m h ∧
    Kept (m.saved h) h₂.mem ∧ (m.saved h).context j = some f ∧
    irqHandle userHandler (m.saved h).hart.mem ((m.saved h).hart.x a0) = f ∧
    h₂.x a0 = f ∧ m' = (m.saved h).resumed h₂ j

/-- A step of the system. -/
inductive Step : Machine t → Machine t → Prop where
  /-- The running thread computes, off the stacks of the others. -/
  | exec {m : Machine t} (h : Hart t)
      (hMem : ∀ j, j ≠ m.running → ∀ x, S.On j x → h.mem x = m.hart.mem x) :
      Step m { m with hart := h }
  /-- A context is made on the stack of a thread that has none. -/
  | create {m : Machine t} (j : Nat) (f : Word t) (mem : ByteMem (8 * XLEN t))
      (hNot : j ≠ m.running) (hMem : ∀ x, ¬ S.On j x → mem x = m.hart.mem x) :
      Step m
        { m with
          hart := { m.hart with mem := mem }
          context := Function.update m.context j (some f)
          last := Function.update m.last j none }
  | trap {m m' : Machine t} (hTrap : Trap S m m') : Step m m'

/-- No thread has trapped yet. -/
def Started (m : Machine t) : Prop :=
  m.context m.running = none ∧ ∀ j, m.last j = none

/-! ## The invariant -/

/-- The frames of suspended threads hold what their last traps found. -/
structure Suspended (m : Machine t) : Prop where
  running : m.context m.running = none
  room : ∀ j f h, m.context j = some f → m.last j = some h →
    ∀ x, InBlock f (CONTEXT_SIZE t) x → S.On j x
  frame : ∀ j f h, m.context j = some f → m.last j = some h → Saved t m.hart.mem f h

variable {S} {m m' : Machine t}

@[simp] theorem saved_context (h : Hart t) :
    (m.saved h).context = Function.update m.context m.running (some (frameOf h)) := rfl
@[simp] theorem saved_last (h : Hart t) :
    (m.saved h).last = Function.update m.last m.running (some h) := rfl

@[simp] theorem resumed_hart (h : Hart t) (j : Nat) :
    (m.resumed h j).hart = run (trapExit t) h := rfl
@[simp] theorem resumed_running (h : Hart t) (j : Nat) : (m.resumed h j).running = j := rfl
@[simp] theorem resumed_context (h : Hart t) (j : Nat) :
    (m.resumed h j).context = Function.update m.context j none := rfl
@[simp] theorem resumed_last (h : Hart t) (j : Nat) : (m.resumed h j).last = m.last := rfl

theorem Stacks.not_on {i j : Nat} {x : Word t} (hij : i ≠ j) (hx : S.On i x) : ¬ S.On j x :=
  S.apart i j hij x hx

theorem Suspended.ne_running {j : Nat} {f : Word t} (h : Suspended S m)
    (hj : m.context j = some f) : j ≠ m.running := by
  rintro rfl
  rw [h.running] at hj
  cases hj

/-- Memory may change off the frames. -/
theorem Suspended.frames {mem : ByteMem (8 * XLEN t)} (h : Suspended S m)
    (hMem : ∀ j f h', m.context j = some f → m.last j = some h' →
      ∀ x, InBlock f (CONTEXT_SIZE t) x → mem x = m.hart.mem x) :
    ∀ j f h', m.context j = some f → m.last j = some h' → Saved t mem f h' := by
  intro j f h' hj hLast
  exact (h.frame j f h' hj hLast).congr (hMem j f h' hj hLast)

theorem Suspended.exec {hart : Hart t} (h : Suspended S m)
    (hMem : ∀ j, j ≠ m.running → ∀ x, S.On j x → hart.mem x = m.hart.mem x) :
    Suspended S { m with hart := hart } where
  running := h.running
  room := h.room
  frame := by
    apply h.frames
    intro j f h' hj hLast x hx
    exact hMem j (h.ne_running hj) x (h.room j f h' hj hLast x hx)

theorem Suspended.create {j : Nat} {f : Word t} {mem : ByteMem (8 * XLEN t)}
    (h : Suspended S m) (hNot : j ≠ m.running)
    (hMem : ∀ x, ¬ S.On j x → mem x = m.hart.mem x) :
    Suspended S
      { m with
        hart := { m.hart with mem := mem }
        context := Function.update m.context j (some f)
        last := Function.update m.last j none } := by
  -- the thread `j` has not trapped since; the others are as before
  have hOld : ∀ k f' h', Function.update m.context j (some f) k = some f' →
      Function.update m.last j none k = some h' →
      k ≠ j ∧ m.context k = some f' ∧ m.last k = some h' := by
    intro k f' h' hk hLast
    by_cases hEq : k = j
    · subst hEq
      rw [Function.update_self] at hLast
      cases hLast
    · rw [Function.update_of_ne hEq] at hk hLast
      exact ⟨hEq, hk, hLast⟩
  exact
    { running := by
        show Function.update m.context j (some f) m.running = none
        rw [Function.update_of_ne (Ne.symm hNot)]
        exact h.running
      room := by
        intro k f' h' hk hLast
        obtain ⟨_, hk, hLast⟩ := hOld k f' h' hk hLast
        exact h.room k f' h' hk hLast
      frame := by
        intro k f' h' hk hLast
        obtain ⟨hEq, hk, hLast⟩ := hOld k f' h' hk hLast
        apply (h.frame k f' h' hk hLast).congr
        intro x hx
        exact hMem x (Stacks.not_on hEq (h.room k f' h' hk hLast x hx)) }

/-- After the entry code the running thread is suspended too. -/
theorem Suspended.saved {h₁ : Hart t} (h : Suspended S m) (hSame : h₁.mem = m.hart.mem)
    (hRoom : Room S m h₁) {j : Nat} {f : Word t} {h' : Hart t}
    (hj : (m.saved h₁).context j = some f) (hLast : (m.saved h₁).last j = some h') :
    (∀ x, InBlock f (CONTEXT_SIZE t) x → S.On j x) ∧
      Saved t (run (trapEntry t) h₁).mem f h' := by
  obtain ⟨_, hSaved, hOutside⟩ := entry_saves h₁
  rw [saved_context] at hj
  rw [saved_last] at hLast
  by_cases hEq : j = m.running
  · rw [hEq, Function.update_self] at hj hLast
    have hFrame := Option.some.inj hj
    have hHart := Option.some.inj hLast
    subst hFrame hHart
    rw [hEq]
    exact ⟨hRoom, hSaved⟩
  · rw [Function.update_of_ne hEq] at hj hLast
    have hOn := h.room j f h' hj hLast
    refine ⟨hOn, ?_⟩
    apply (h.frame j f h' hj hLast).congr
    intro x hx
    rw [← hSame]
    apply hOutside
    intro hFrame
    exact Stacks.not_on hEq (hOn x hx) (hRoom x hFrame)

/-- A trap keeps the invariant, and the thread it resumes is as it was. -/
theorem Suspended.trap (h : Suspended S m) (hTrap : Trap S m m') :
    Suspended S m' ∧ ∀ h', m'.last m'.running = some h' → SameThread m'.hart h' := by
  obtain ⟨h₁, h₂, j, f, _, _, hSame, hRoom, hKept, hj, _, hA0, hm'⟩ := hTrap
  have hSaved : ∀ k f' h', (m.saved h₁).context k = some f' →
      (m.saved h₁).last k = some h' → Saved t h₂.mem f' h' := by
    intro k f' h' hk hLast
    exact (h.saved hSame hRoom hk hLast).2.congr (hKept k f' hk)
  -- the context of `j` is used up
  have hOthers : ∀ k f', m'.context k = some f' → (m.saved h₁).context k = some f' := by
    intro k f' hk
    rw [hm', resumed_context] at hk
    by_cases hEq : k = j
    · rw [hEq, Function.update_self] at hk
      cases hk
    · rw [Function.update_of_ne hEq] at hk
      exact hk
  constructor
  · exact
      { running := by
          rw [hm', resumed_context, resumed_running, Function.update_self]
        room := by
          intro k f' h' hk hLast
          rw [hm', resumed_last] at hLast
          exact (h.saved hSame hRoom (hOthers k f' hk) hLast).1
        frame := by
          intro k f' h' hk hLast
          rw [hm', resumed_last] at hLast
          rw [hm', resumed_hart, run_trapExit_mem]
          exact hSaved k f' h' (hOthers k f' hk) hLast }
  · intro h' hLast
    rw [hm', resumed_last, resumed_running] at hLast
    rw [hm', resumed_hart]
    exact exit_restores hA0 (hSaved j f h' hj hLast)

/-- One step keeps the invariant. -/
theorem Suspended.step (h : Suspended S m) (hStep : Step S m m') : Suspended S m' := by
  cases hStep with
  | exec hart hMem => exact h.exec hMem
  | create j f mem hNot hMem => exact h.create hNot hMem
  | trap hTrap => exact (h.trap hTrap).1

theorem Suspended.run (h : Suspended S m) (hRun : Relation.ReflTransGen (Step S) m m') :
    Suspended S m' := by
  induction hRun with
  | refl => exact h
  | tail _ hStep ih => exact ih.step hStep

theorem Started.suspended (h : Started m) : Suspended S m where
  running := h.1
  room := by
    intro j f h' _ hLast
    rw [h.2 j] at hLast
    cases hLast
  frame := by
    intro j f h' _ hLast
    rw [h.2 j] at hLast
    cases hLast

end

/--
**Threads resume as they were.**  On either platform, for each word size and
register file, in every run: when a trap ends with `mret` into a thread that
has trapped before, the general registers, `sp`, `mepc` and `mstatus` are
those the last trap of that thread found.
-/
theorem threads_resume (t : Target) (S : Stacks t) (m₀ m m' : Machine t)
    (hStarted : Started m₀) (hRun : Relation.ReflTransGen (Step S) m₀ m)
    (hTrap : Trap S m m') (h : Hart t) (hLast : m'.last m'.running = some h) :
    SameThread m'.hart h :=
  ((hStarted.suspended.run hRun).trap hTrap).2 h hLast

/-! ## Two threads -/

/-- Two pages from 0 on. -/
def twoStacks : Stacks rv32 where
  base := fun i => if i = 1 then 0x1000 else 0
  size := fun i => if i < 2 then 0x1000 else 0
  apart := by
    have hPages : Apart (0x0 : Word rv32) 0x1000 0x1000 0x1000 :=
      apart_offset (a := 0) (i := 0) (j := 0x1000) (by decide) (by decide)
    intro i j hij x hx hx'
    unfold InBlock at hx hx'
    by_cases hi : i < 2
    · by_cases hj : j < 2
      · rcases (by omega : i = 0 ∧ j = 1 ∨ i = 1 ∧ j = 0) with ⟨rfl, rfl⟩ | ⟨rfl, rfl⟩
        · exact hPages x hx hx'
        · exact hPages x hx' hx
      · simp [hj] at hx'
    · simp [hi] at hx

/-- A trap of `m` whose handler returns the context `f`. -/
def returning (m : Machine rv32) (f : Word rv32) : Hart rv32 :=
  (run (trapEntry rv32) m.hart).set a0 f

theorem trap_returning {S : Stacks rv32} {m : Machine rv32} {j : Nat} {f : Word rv32}
    (hRoom : Room S m m.hart) (hj : (m.saved m.hart).context j = some f) :
    Trap S m ((m.saved m.hart).resumed (returning m f) j) :=
  ⟨m.hart, returning m f, j, f, some fun _ _ => f, rfl, rfl, hRoom, fun _ _ _ _ _ => rfl, hj,
    rfl, set_x_self _, rfl⟩

/-- Thread 0 runs at the end of its stack, and thread 1 has a fresh context. -/
def twoThreads : Machine rv32 where
  hart :=
    { x := fun r => if r = sp then 0x1000 else r.val
      csr := fun _ => 0x1800
      mem := fun _ => 0 }
  running := 0
  context := fun i => if i = 1 then some (0x2000 - BitVec.ofNat _ (CONTEXT_SIZE rv32)) else none
  last := fun _ => none

/-- Thread 0 traps, thread 1 runs and traps, and thread 0 goes on. -/
theorem threads_resume_two :
    ∃ m m', Relation.ReflTransGen (Step twoStacks) twoThreads m ∧ Trap twoStacks m m' ∧
      m'.running = 0 ∧ SameThread m'.hart twoThreads.hart := by
  let f₁ : Word rv32 := 0x2000 - BitVec.ofNat _ (CONTEXT_SIZE rv32)
  let f₀ : Word rv32 := frameOf twoThreads.hart
  let m₁ := (twoThreads.saved twoThreads.hart).resumed (returning twoThreads f₁) 1
  let m₂ := (m₁.saved m₁.hart).resumed (returning m₁ f₀) 0
  have hTop : ∀ (a : Word rv32) (x : Word rv32),
      InBlock (a + BitVec.ofNat _ (0x1000 - CONTEXT_SIZE rv32)) (CONTEXT_SIZE rv32) x →
      InBlock a 0x1000 x := fun a x hx => inBlock_sub hx (by decide) (by decide)
  have hTrap₁ : Trap twoStacks twoThreads m₁ := by
    apply trap_returning
    · intro x hx
      exact hTop 0 x hx
    · rfl
  have hSp : frameOf m₁.hart = 0x1000 + BitVec.ofNat _ (0x1000 - CONTEXT_SIZE rv32) := by
    show (run (trapExit rv32) (returning twoThreads f₁)).x sp - _ = _
    rw [run_trapExit_sp, BitVec.add_sub_cancel, returning, set_x_self]
    decide
  have hTrap₂ : Trap twoStacks m₁ m₂ := by
    apply trap_returning
    · intro x hx
      rw [hSp] at hx
      exact hTop 0x1000 x hx
    · rfl
  have hStarted : Started twoThreads := ⟨rfl, fun _ => rfl⟩
  have hRun : Relation.ReflTransGen (Step twoStacks) twoThreads m₁ :=
    Relation.ReflTransGen.single (Step.trap hTrap₁)
  exact ⟨m₁, m₂, hRun, hTrap₂, rfl,
    threads_resume rv32 twoStacks twoThreads m₁ m₂ hStarted hRun hTrap₂ _ rfl⟩

end AbstractMachine.Riscv
