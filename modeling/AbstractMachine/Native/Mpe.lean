import Mathlib.Data.Nat.Count
import Mathlib.Logic.Function.Basic
import AbstractMachine.Lib.Transition

/-!
# Starting the other CPUs of native

The CPUs of native are processes.  `mpe_init` opens a pipe and forks a child for
every other CPU; a child waits for a token from the pipe, which the parent writes
when it has forked all of them and, if the program uses the devices, has
initialised these.  Descriptors are inherited by `fork` and closed by each
process on its own.  A `fork` may fail, which the parent does not notice.

`entry` does not return.
-/

namespace AbstractMachine.Native.Mpe

open AbstractMachine.Lib

/-- A byte of the pipe. -/
abbrev Byte := BitVec 8

/-- '+' -/
def PLUS : Byte := 0x2b

/-! ## The processes -/

/-- Where the first process is in `mpe_init`; `i` is its loop counter. -/
inductive ParentPc where
  | openPipe
  | forkTest (i : Nat)
  | fork (i : Nat)
  | ioeTest
  | ioeInit
  | writeTest (i : Nat)
  | write (i : Nat)
  | closeRd
  | closeWr
  | entry
  | aborted
  deriving DecidableEq, Repr

/-- `none` has not been forked yet. -/
inductive ChildPc where
  | none
  | failed
  | read
  | check
  | closeRd
  | closeWr
  | setCpuid
  | initTimer
  | entry
  | aborted
  deriving DecidableEq, Repr

/-- `rd` and `wr` tell which ends of the pipe the process holds open. -/
structure Child where
  pc : ChildPc
  rd : Bool
  wr : Bool
  ch : Byte
  cpuid : Nat
  /-- All that it has read. -/
  got : List Byte
  deriving DecidableEq, Repr

/-- All processes, and the pipe between them. -/
structure Procs where
  parent : ParentPc
  rd : Bool
  wr : Bool
  /-- `__am_ioe_init` has returned. -/
  ioeDone : Bool
  pipe : List Byte
  child : Nat → Child

/-- The process of CPU `i` replaced. -/
def Procs.setChild (s : Procs) (i : Nat) (c : Child) : Procs :=
  { s with child := Function.update s.child i c }

/-- Somebody holds the read end open. -/
def Procs.readers (ncpu : Nat) (s : Procs) : Bool :=
  s.rd || (List.range ncpu).any fun i => (s.child i).rd

/-- Somebody holds the write end open. -/
def Procs.writers (ncpu : Nat) (s : Procs) : Bool :=
  s.wr || (List.range ncpu).any fun i => (s.child i).wr

/-- A child has the descriptors and the `cpuid` of its parent. -/
def Procs.forked (s : Procs) (ok : Bool) : Child where
  pc := if ok then .read else .failed
  rd := ok && s.rd
  wr := ok && s.wr
  ch := 0
  cpuid := 0
  got := []

/-- `ok` tells whether a `fork` succeeds. -/
def Procs.parentNext (ncpu : Nat) (hasIoe ok : Bool) (s : Procs) : Option Procs :=
  match s.parent with
  | .openPipe => some { s with rd := true, wr := true, pipe := [], parent := .forkTest 1 }
  | .forkTest i => some { s with parent := if i < ncpu then .fork i else .ioeTest }
  | .fork i => some { s.setChild i (s.forked ok) with parent := .forkTest (i + 1) }
  | .ioeTest => some { s with parent := if hasIoe then .ioeInit else .writeTest 1 }
  | .ioeInit => some { s with ioeDone := true, parent := .writeTest 1 }
  | .writeTest i => some { s with parent := if i < ncpu then .write i else .closeRd }
  | .write i =>
      if s.wr && s.readers ncpu then
        some { s with pipe := s.pipe ++ [PLUS], parent := .writeTest (i + 1) }
      else some { s with parent := .aborted }
  | .closeRd => some { s with rd := false, parent := .closeWr }
  | .closeWr => some { s with wr := false, parent := .entry }
  | .entry => none
  | .aborted => none

/-- The read of one byte returns. -/
def Child.take (c : Child) (b : Byte) : Child :=
  { c with ch := b, got := c.got ++ [b], pc := .check }

/-- A read of an empty pipe waits as long as there is a writer. -/
def Procs.readNext (ncpu : Nat) (s : Procs) (i : Nat) : Option Procs :=
  let c := s.child i
  if c.rd then
    match s.pipe with
    | b :: rest => some { s.setChild i (c.take b) with pipe := rest }
    | [] => if s.writers ncpu then none else some (s.setChild i { c with pc := .aborted })
  else some (s.setChild i { c with pc := .aborted })

/-- The next step of child `i`; `none` while it has to wait. -/
def Procs.childNext (ncpu : Nat) (s : Procs) (i : Nat) : Option Procs :=
  let c := s.child i
  match c.pc with
  | .none => none
  | .failed => none
  | .read => s.readNext ncpu i
  | .check => some (s.setChild i { c with pc := if c.ch = PLUS then .closeRd else .aborted })
  | .closeRd => some (s.setChild i { c with rd := false, pc := .closeWr })
  | .closeWr => some (s.setChild i { c with wr := false, pc := .setCpuid })
  | .setCpuid => some (s.setChild i { c with cpuid := i, pc := .initTimer })
  | .initTimer => some (s.setChild i { c with pc := .entry })
  | .entry => none
  | .aborted => none

/-- A step of a process; `ok` is whether a `fork` of the parent succeeds. -/
inductive Step where
  | parent (ok : Bool)
  | child (i : Nat)
  deriving DecidableEq, Repr

/-- On the way into `mpe_init`. -/
def start : Procs where
  parent := .openPipe
  rd := false
  wr := false
  ioeDone := false
  pipe := []
  child := fun _ => ⟨.none, false, false, 0, 0, []⟩

/-- `mpe_init` with its children, interleaved. -/
def startup (ncpu : Nat) (hasIoe : Bool) : System Procs Step where
  init s := s = start
  next s
    | .parent ok => s.parentNext ncpu hasIoe ok
    | .child i => s.childNext ncpu i

/-! ## What the start-up promises -/

/-- The child has taken its token. -/
def ChildPc.released : ChildPc → Bool
  | .check => true
  | .closeRd => true
  | .closeWr => true
  | .setCpuid => true
  | .initTimer => true
  | .entry => true
  | _ => false

/-- A child has read one token exactly when its read has returned. -/
def Child.Token (c : Child) : Prop := c.got = if c.pc.released then [PLUS] else []

/-- No CPU enters before all have been forked and the devices are there; each enters with
a number of its own. -/
structure Orderly (ncpu : Nat) (hasIoe : Bool) (s : Procs) : Prop where
  /-- Before a child runs `entry`, the parent has been through its loop and the devices. -/
  after : ∀ i, (s.child i).pc = .entry →
    (∀ j, 1 ≤ j → j < ncpu → (s.child j).pc ≠ .none) ∧ (hasIoe → s.ioeDone)
  running : s.parent ≠ .aborted ∧ ∀ i, (s.child i).pc ≠ .aborted
  token : ∀ i, (s.child i).Token
  cpuid : ∀ i, (s.child i).pc = .entry → (s.child i).cpuid = i ∧ 1 ≤ i ∧ i < ncpu
  /-- When nothing can go on, every child that was forked runs `entry`. -/
  settled : (∀ a, (startup ncpu hasIoe).next s a = none) → s.parent = .entry ∧
    ∀ i, 1 ≤ i → i < ncpu → (s.child i).pc = .entry ∨ (s.child i).pc = .failed

/-! ## The invariant -/

/-- What a child knows of its descriptors and of the byte that it has read, by where it is. -/
def Child.Ok (i : Nat) (c : Child) : Prop :=
  match c.pc with
  | .read => c.rd ∧ c.wr
  | .check => c.ch = PLUS
  | .initTimer => c.cpuid = i
  | .entry => c.cpuid = i
  | .aborted => False
  | _ => True

/-- Both ends of the pipe are open. -/
def ParentPc.opened : ParentPc → Bool
  | .openPipe => false
  | .closeWr => false
  | .entry => false
  | .aborted => false
  | _ => true

/-- The children up to this one have been forked. -/
def ParentPc.forks (ncpu : Nat) : ParentPc → Nat
  | .openPipe => 1
  | .forkTest i => i
  | .fork i => i
  | _ => ncpu

/-- The parent may still write. -/
def ParentPc.writing : ParentPc → Bool
  | .writeTest _ => true
  | .write _ => true
  | .closeRd => true
  | .closeWr => true
  | .entry => true
  | _ => false

/-- Tokens that are still to be written. -/
def ParentPc.left (ncpu : Nat) : ParentPc → Nat
  | .openPipe => ncpu - 1
  | .forkTest _ => ncpu - 1
  | .fork _ => ncpu - 1
  | .ioeTest => ncpu - 1
  | .ioeInit => ncpu - 1
  | .writeTest i => ncpu - i
  | .write i => ncpu - i
  | _ => 0

/-- The child will need a token. -/
def Procs.needs (s : Procs) (i : Nat) : Bool :=
  decide (1 ≤ i) && ((s.child i).pc = .none || (s.child i).pc = .read)

/-- The children that have been forked are those before the counter of the loop. -/
def Forked (ncpu : Nat) (parent : ParentPc) (i : Nat) (c : Child) : Prop :=
  c.pc ≠ .none ↔ 1 ≤ i ∧ i < parent.forks ncpu

/-- The invariant of the start-up, with the tokens that are left in the pipe. -/
structure Inv (ncpu : Nat) (hasIoe : Bool) (s : Procs) : Prop where
  child : ∀ i, (s.child i).Ok i
  token : ∀ i, (s.child i).Token
  forked : ∀ i, Forked ncpu s.parent i (s.child i)
  opened : s.parent.opened → s.rd ∧ s.wr
  forkLoop : ∀ i, s.parent = .forkTest i ∨ s.parent = .fork i → 1 ≤ i ∧ i ≤ max 1 ncpu
  inLoop : ∀ i, s.parent = .fork i ∨ s.parent = .write i → i < ncpu
  plus : ∀ b ∈ s.pipe, b = PLUS
  early : s.parent.writing = false → s.pipe = [] ∧ ∀ i, (s.child i).pc.released = false
  ioe : s.parent.writing → hasIoe → s.ioeDone
  supply : Nat.count (fun i => s.needs i) ncpu ≤ s.pipe.length + s.parent.left ncpu
  running : s.parent ≠ .aborted

/-! ## Counting -/

/-- One fewer of those below `n`. -/
theorem count_drop {p q : Nat → Bool} {i n : Nat} (hi : i < n) (hp : p i = true) (hq : q i = false)
    (hSame : ∀ j, j ≠ i → q j = p j) :
    Nat.count (fun j => q j) n + 1 ≤ Nat.count (fun j => p j) n := by
  induction n with
  | zero => exact absurd hi (Nat.not_lt_zero i)
  | succ n ih =>
      rw [Nat.count_succ, Nat.count_succ]
      by_cases hLast : i = n
      · subst hLast
        have hBelow : Nat.count (fun j => q j) i ≤ Nat.count (fun j => p j) i := by
          apply Nat.count_mono_left
          intro j hj hQ
          rwa [← hSame j (Nat.ne_of_lt hj)]
        rw [if_pos hp, if_neg (by rw [hq]; nofun)]
        exact Nat.succ_le_succ hBelow
      · have hBelow := ih (by omega)
        rw [hSame n (Ne.symm hLast)]
        omega

variable {ncpu : Nat} {hasIoe ok : Bool} {s s' : Procs} {i j : Nat} {c : Child}

private theorem setChild_self : (s.setChild i c).child i = c := by
  unfold Procs.setChild
  exact Function.update_self i c s.child

private theorem setChild_of_ne (h : j ≠ i) : (s.setChild i c).child j = s.child j := by
  unfold Procs.setChild
  exact Function.update_of_ne h c s.child

/-- What holds of the new child and of all others. -/
theorem setChild_forall {P : Nat → Child → Prop} (hNew : P i c) (hOld : ∀ j, P j (s.child j)) :
    ∀ j, P j ((s.setChild i c).child j) := by
  intro j
  by_cases hj : j = i
  · rw [hj, setChild_self]
    exact hNew
  · rw [setChild_of_ne hj]
    exact hOld j

private theorem needs_of_ne (h : j ≠ i) : (s.setChild i c).needs j = s.needs j := by
  unfold Procs.needs
  rw [setChild_of_ne h]

private theorem needs_self :
    (s.setChild i c).needs i = (decide (1 ≤ i) && (c.pc = .none || c.pc = .read)) := by
  unfold Procs.needs
  rw [setChild_self]

/-- No more children need a token than before. -/
theorem count_setChild (h : (s.setChild i c).needs i → s.needs i) :
    Nat.count (fun j => (s.setChild i c).needs j) ncpu ≤ Nat.count (fun j => s.needs j) ncpu := by
  apply Nat.count_mono_left
  intro j _ hj
  by_cases hEq : j = i
  · rw [hEq] at hj ⊢
    exact h hj
  · rwa [← needs_of_ne hEq]

theorem Inv.start : Inv ncpu hasIoe start where
  child _ := trivial
  token _ := rfl
  forked i := ⟨fun hNe => absurd rfl hNe, fun ⟨hPos, hLt⟩ => absurd hPos (Nat.not_le.mpr hLt)⟩
  opened := nofun
  forkLoop _ hi := hi.elim nofun nofun
  inLoop _ hi := hi.elim nofun nofun
  plus := nofun
  early _ := ⟨rfl, fun _ => rfl⟩
  ioe := nofun
  supply := by
    show Nat.count (fun i => Mpe.start.needs i) ncpu ≤ 0 + (ncpu - 1)
    cases ncpu with
    | zero => exact Nat.le_refl 0
    | succ n =>
        rw [Nat.count_succ', Nat.zero_add]
        exact Nat.count_le _
  running := nofun

/-! ## Steps of a child -/

/-- A step of a child after its read. -/
theorem Inv.move (h : Inv ncpu hasIoe s) (hOn : (s.child i).pc.released) (hOk : c.Ok i)
    (hReleased : c.pc.released) (hGot : c.got = (s.child i).got) :
    Inv ncpu hasIoe (s.setChild i c) := by
  have hToken : c.Token := by
    unfold Child.Token
    rw [hGot, h.token i, hOn, hReleased]
  have hNone : ∀ {c : Child}, c.pc.released → c.pc ≠ .none ∧ c.pc ≠ .read := by
    intro c hc
    constructor <;> intro hPc <;> rw [hPc] at hc <;> cases hc
  have hForked : Forked ncpu s.parent i c :=
    (iff_of_true (hNone hReleased).1 (hNone hOn).1).trans (h.forked i)
  refine
    { h with
      child := setChild_forall hOk h.child
      token := setChild_forall (P := fun _ c => c.Token) hToken h.token
      forked := setChild_forall (P := Forked ncpu s.parent) hForked h.forked
      early := ?_
      supply := ?_ }
  · intro hEarly
    cases hOn.symm.trans ((h.early hEarly).2 i)
  · apply Nat.le_trans (count_setChild ?_) h.supply
    intro hNeeds
    rw [needs_self] at hNeeds
    simp [hNone hReleased] at hNeeds

private theorem forks_of_writing {parent : ParentPc} (h : parent.writing) :
    parent.forks ncpu = ncpu := by
  cases parent <;> first | rfl | cases h

/-- A token that can be read has been written after all forks. -/
theorem Inv.writing {rest : List Byte} {b : Byte} (h : Inv ncpu hasIoe s)
    (hPipe : s.pipe = b :: rest) : s.parent.writing = true := by
  by_contra hNot
  have hEmpty := (h.early (Bool.not_eq_true _ ▸ hNot)).1
  rw [hPipe] at hEmpty
  cases hEmpty

theorem Inv.take {rest : List Byte} {b : Byte} (h : Inv ncpu hasIoe s)
    (hPc : (s.child i).pc = .read) (hPipe : s.pipe = b :: rest) :
    Inv ncpu hasIoe { s.setChild i ((s.child i).take b) with pipe := rest } := by
  have hWriting := h.writing hPipe
  have hPlus : b = PLUS := h.plus b (hPipe ▸ List.mem_cons_self)
  have hToken : ((s.child i).take b).Token := by
    show (s.child i).got ++ [b] = [PLUS]
    rw [h.token i, hPc, hPlus]
    rfl
  have hOn : (s.child i).pc ≠ .none := by
    rw [hPc]
    nofun
  have hForked : Forked ncpu s.parent i ((s.child i).take b) :=
    (iff_of_true nofun hOn).trans (h.forked i)
  obtain ⟨hPos, hLt⟩ := (h.forked i).mp hOn
  refine
    { h with
      child := setChild_forall hPlus h.child
      token := setChild_forall (P := fun _ c => c.Token) hToken h.token
      forked := setChild_forall (P := Forked ncpu s.parent) hForked h.forked
      plus := fun b' hb' => h.plus b' (hPipe ▸ List.mem_cons_of_mem b hb')
      early := fun hEarly => by cases hWriting.symm.trans hEarly
      supply := ?_ }
  rw [forks_of_writing hWriting] at hLt
  have hBefore : s.needs i = true := by
    unfold Procs.needs
    simp [hPc, hPos]
  have hAfter : (s.setChild i ((s.child i).take b)).needs i = false := by
    rw [needs_self]
    simp [Child.take]
  have hDrop := count_drop hLt hBefore hAfter fun j hj => needs_of_ne hj
  have hSupply := h.supply
  rw [hPipe, List.length_cons] at hSupply
  show Nat.count (fun j => (s.setChild i ((s.child i).take b)).needs j) ncpu ≤
    rest.length + s.parent.left ncpu
  omega

theorem Inv.lt_ncpu (h : Inv ncpu hasIoe s) (hOn : (s.child i).pc ≠ .none) : i < ncpu := by
  obtain ⟨hPos, hLt⟩ := (h.forked i).mp hOn
  cases hPc : s.parent with
  | openPipe =>
      rw [hPc] at hLt
      exact absurd hPos (Nat.not_le.mpr hLt)
  | forkTest k =>
      have hLe := (h.forkLoop k (Or.inl hPc)).2
      rw [hPc] at hLt
      have hBelow : i < k := hLt
      omega
  | fork k =>
      have hLe := (h.forkLoop k (Or.inr hPc)).2
      rw [hPc] at hLt
      have hBelow : i < k := hLt
      omega
  | _ =>
      rw [hPc] at hLt
      exact hLt

/-- The child itself can write. -/
theorem Inv.writers (h : Inv ncpu hasIoe s) (hPc : (s.child i).pc = .read) :
    (s.child i).rd = true ∧ s.writers ncpu = true := by
  have hOk := h.child i
  unfold Child.Ok at hOk
  rw [hPc] at hOk
  refine ⟨hOk.1, ?_⟩
  unfold Procs.writers
  rw [Bool.or_eq_true]
  right
  have hLt := h.lt_ncpu (i := i) (by rw [hPc]; nofun)
  exact List.any_eq_true.mpr ⟨i, List.mem_range.mpr hLt, hOk.2⟩

theorem Inv.read (h : Inv ncpu hasIoe s) (hPc : (s.child i).pc = .read)
    (hNext : s.readNext ncpu i = some s') : Inv ncpu hasIoe s' := by
  obtain ⟨hRd, hWriters⟩ := h.writers hPc
  unfold Procs.readNext at hNext
  dsimp only at hNext
  rw [if_pos hRd] at hNext
  cases hPipe : s.pipe with
  | cons b rest =>
      rw [hPipe] at hNext
      cases hNext
      exact h.take hPc hPipe
  | nil =>
      rw [hPipe] at hNext
      cases (if_pos hWriters).symm.trans hNext

theorem Inv.childNext (h : Inv ncpu hasIoe s) (hNext : s.childNext ncpu i = some s') :
    Inv ncpu hasIoe s' := by
  have hOk := h.child i
  unfold Child.Ok at hOk
  unfold Procs.childNext at hNext
  cases hPc : (s.child i).pc with
  | none => simp only [hPc] at hNext; cases hNext
  | failed => simp only [hPc] at hNext; cases hNext
  | read =>
      simp only [hPc] at hNext
      exact h.read hPc hNext
  | check =>
      simp only [hPc] at hNext hOk
      rw [if_pos hOk] at hNext
      cases hNext
      exact h.move (by rw [hPc]; rfl) trivial rfl rfl
  | closeRd =>
      simp only [hPc] at hNext
      cases hNext
      exact h.move (by rw [hPc]; rfl) trivial rfl rfl
  | closeWr =>
      simp only [hPc] at hNext
      cases hNext
      exact h.move (by rw [hPc]; rfl) trivial rfl rfl
  | setCpuid =>
      simp only [hPc] at hNext
      cases hNext
      exact h.move (by rw [hPc]; rfl) rfl rfl rfl
  | initTimer =>
      simp only [hPc] at hNext hOk
      cases hNext
      exact h.move (by rw [hPc]; rfl) hOk rfl rfl
  | entry => simp only [hPc] at hNext; cases hNext
  | aborted => simp only [hPc] at hNext; cases hNext

/-! ## Steps of the parent -/

/-- The parent may go from `p` to `p'` without a change to the pipe or a child. -/
structure Goes (ncpu : Nat) (p p' : ParentPc) : Prop where
  forks : ∀ i, 1 ≤ i → (i < p'.forks ncpu ↔ i < p.forks ncpu)
  forkLoop : ∀ i, p' = .forkTest i ∨ p' = .fork i → 1 ≤ i ∧ i ≤ max 1 ncpu
  inLoop : ∀ i, p' = .fork i ∨ p' = .write i → i < ncpu
  writing : p'.writing = false → p.writing = false
  left : p.left ncpu ≤ p'.left ncpu
  running : p' ≠ .aborted

/-- Out of the loops, or on between them. -/
theorem Goes.outside {p p' : ParentPc}
    (hLoop : ∀ i, p' ≠ .forkTest i ∧ p' ≠ .fork i ∧ p' ≠ .write i)
    (hForks : ∀ i, 1 ≤ i → (i < p'.forks ncpu ↔ i < p.forks ncpu))
    (hWriting : p'.writing = false → p.writing = false) (hLeft : p.left ncpu ≤ p'.left ncpu)
    (hRunning : p' ≠ .aborted) : Goes ncpu p p' where
  forks := hForks
  forkLoop i hi := hi.elim (fun h => absurd h (hLoop i).1) (fun h => absurd h (hLoop i).2.1)
  inLoop i hi := hi.elim (fun h => absurd h (hLoop i).2.1) (fun h => absurd h (hLoop i).2.2)
  writing := hWriting
  left := hLeft
  running := hRunning

theorem Inv.goto {p p' : ParentPc} {rd wr ioeDone : Bool} (h : Inv ncpu hasIoe s)
    (hPc : s.parent = p) (hGoes : Goes ncpu p p') (hOpened : p'.opened → rd ∧ wr)
    (hIoe : p'.writing → hasIoe → ioeDone) :
    Inv ncpu hasIoe { s with parent := p', rd := rd, wr := wr, ioeDone := ioeDone } := by
  subst hPc
  exact
    { child := h.child
      token := h.token
      forked := fun i =>
        (h.forked i).trans (and_congr_right fun hPos => (hGoes.forks i hPos).symm)
      opened := hOpened
      forkLoop := hGoes.forkLoop
      inLoop := hGoes.inLoop
      plus := h.plus
      early := fun hNot => h.early (hGoes.writing hNot)
      ioe := hIoe
      supply := Nat.le_trans h.supply (Nat.add_le_add_left hGoes.left _)
      running := hGoes.running }

theorem Inv.fork (h : Inv ncpu hasIoe s) (hPc : s.parent = .fork i) :
    Inv ncpu hasIoe { s.setChild i (s.forked ok) with parent := .forkTest (i + 1) } := by
  obtain ⟨hRd, hWr⟩ := h.opened (by rw [hPc]; rfl)
  obtain ⟨hPos, -⟩ := h.forkLoop i (Or.inr hPc)
  have hLt := h.inLoop i (Or.inl hPc)
  obtain ⟨hPipe, hEarly⟩ := h.early (by rw [hPc]; rfl)
  have hForks : s.parent.forks ncpu = i := by rw [hPc]; rfl
  have hFresh : (s.child i).pc = .none := by
    by_contra hOn
    have hBelow := ((h.forked i).mp hOn).2
    rw [hForks] at hBelow
    exact Nat.lt_irrefl i hBelow
  have hNew : (s.forked ok).pc ≠ .none ∧ (s.forked ok).pc.released = false ∧
      (s.forked ok).Ok i ∧ (s.forked ok).Token := by
    cases ok with
    | false => exact ⟨nofun, rfl, trivial, rfl⟩
    | true => exact ⟨nofun, rfl, ⟨hRd, hWr⟩, rfl⟩
  obtain ⟨hOn, hReleased, hOk, hToken⟩ := hNew
  refine
    { child := setChild_forall hOk h.child
      token := setChild_forall (P := fun _ c => c.Token) hToken h.token
      forked := ?_
      opened := fun _ => ⟨hRd, hWr⟩
      forkLoop := ?_
      inLoop := fun _ hi => hi.elim nofun nofun
      plus := h.plus
      early := fun _ => ⟨hPipe, setChild_forall (P := fun _ c => c.pc.released = false)
        hReleased hEarly⟩
      ioe := nofun
      supply := ?_
      running := nofun }
  · intro j
    show ((s.setChild i (s.forked ok)).child j).pc ≠ .none ↔ 1 ≤ j ∧ j < i + 1
    by_cases hj : j = i
    · rw [hj, setChild_self]
      exact iff_of_true hOn ⟨hPos, Nat.lt_succ_self i⟩
    · rw [setChild_of_ne hj]
      have hForked : _ ↔ 1 ≤ j ∧ j < s.parent.forks ncpu := h.forked j
      rw [hForks] at hForked
      rw [hForked]
      omega
  · intro j hj
    rcases hj with hj | hj <;> cases hj
    omega
  · have hNeeds : s.needs i := by
      unfold Procs.needs
      simp [hFresh, hPos]
    have hSupply := h.supply
    rw [hPc] at hSupply
    exact Nat.le_trans (count_setChild fun _ => hNeeds) hSupply

theorem Inv.write (h : Inv ncpu hasIoe s) (hPc : s.parent = .write i) :
    Inv ncpu hasIoe { s with pipe := s.pipe ++ [PLUS], parent := .writeTest (i + 1) } := by
  have hLt := h.inLoop i (Or.inr hPc)
  have hSupply := h.supply
  refine
    { h with
      forked := ?_
      opened := fun _ => h.opened (by rw [hPc]; rfl)
      forkLoop := fun _ hi => hi.elim nofun nofun
      inLoop := fun _ hi => hi.elim nofun nofun
      plus := ?_
      early := nofun
      ioe := fun _ => h.ioe (by rw [hPc]; rfl)
      supply := ?_
      running := nofun }
  · have hForked := h.forked
    rw [hPc] at hForked
    exact hForked
  · intro b hb
    rcases List.mem_append.mp hb with hOld | hNew
    · exact h.plus b hOld
    · exact List.mem_singleton.mp hNew
  · rw [hPc] at hSupply
    have hLeft : Nat.count (fun j => s.needs j) ncpu ≤ s.pipe.length + (ncpu - i) := hSupply
    show Nat.count (fun j => s.needs j) ncpu ≤ (s.pipe ++ [PLUS]).length + (ncpu - (i + 1))
    rw [List.length_append, List.length_singleton]
    omega

theorem Inv.parentNext (h : Inv ncpu hasIoe s) (hNext : s.parentNext ncpu hasIoe ok = some s') :
    Inv ncpu hasIoe s' := by
  unfold Procs.parentNext at hNext
  have hOpened := h.opened
  have hIoe := h.ioe
  cases hPc : s.parent with
  | openPipe =>
      simp only [hPc] at hNext
      cases hNext
      rw [← (h.early (by rw [hPc]; rfl)).1]
      refine h.goto hPc ?_ (fun _ => ⟨rfl, rfl⟩) nofun
      refine ⟨fun _ _ => Iff.rfl, ?_, fun _ hi => hi.elim nofun nofun, fun _ => rfl,
        Nat.le_refl _, nofun⟩
      intro i hi
      rcases hi with hi | hi <;> cases hi
      omega
  | forkTest i =>
      simp only [hPc] at hNext hOpened
      cases hNext
      have hLoop := h.forkLoop i (Or.inl hPc)
      by_cases hLt : i < ncpu
      · rw [if_pos hLt]
        refine h.goto hPc ?_ (fun _ => hOpened rfl) nofun
        refine ⟨fun _ _ => Iff.rfl, ?_, ?_, fun _ => rfl, Nat.le_refl _, nofun⟩
        · intro k hk
          rcases hk with hk | hk <;> cases hk
          exact hLoop
        · intro k hk
          rcases hk with hk | hk <;> cases hk
          exact hLt
      · rw [if_neg hLt]
        refine h.goto hPc ?_ (fun _ => hOpened rfl) nofun
        refine .outside (fun _ => ⟨nofun, nofun, nofun⟩) ?_ (fun _ => rfl) (Nat.le_refl _) nofun
        intro k hPos
        show k < ncpu ↔ k < i
        omega
  | fork i =>
      simp only [hPc] at hNext
      cases hNext
      exact h.fork hPc
  | ioeTest =>
      simp only [hPc] at hNext hOpened
      cases hNext
      cases hHas : hasIoe with
      | true =>
          refine (hHas ▸ h).goto hPc ?_ (fun _ => hOpened rfl) nofun
          exact .outside (fun _ => ⟨nofun, nofun, nofun⟩) (fun _ _ => Iff.rfl) (fun _ => rfl)
            (Nat.le_refl _) nofun
      | false =>
          refine (hHas ▸ h).goto hPc ?_ (fun _ => hOpened rfl) (fun _ => nofun)
          exact .outside (fun _ => ⟨nofun, nofun, nofun⟩) (fun _ _ => Iff.rfl) nofun
            (Nat.le_refl _) nofun
  | ioeInit =>
      simp only [hPc] at hNext hOpened
      cases hNext
      refine h.goto hPc ?_ (fun _ => hOpened rfl) (fun _ _ => rfl)
      exact .outside (fun _ => ⟨nofun, nofun, nofun⟩) (fun _ _ => Iff.rfl) nofun (Nat.le_refl _)
        nofun
  | writeTest i =>
      simp only [hPc] at hNext hOpened hIoe
      cases hNext
      by_cases hLt : i < ncpu
      · rw [if_pos hLt]
        refine h.goto hPc ?_ (fun _ => hOpened rfl) hIoe
        refine ⟨fun _ _ => Iff.rfl, fun _ hk => hk.elim nofun nofun, ?_, nofun, Nat.le_refl _,
          nofun⟩
        intro k hk
        rcases hk with hk | hk <;> cases hk
        exact hLt
      · rw [if_neg hLt]
        refine h.goto hPc ?_ (fun _ => hOpened rfl) hIoe
        refine .outside (fun _ => ⟨nofun, nofun, nofun⟩) (fun _ _ => Iff.rfl) nofun ?_ nofun
        show ncpu - i ≤ 0
        omega
  | write i =>
      obtain ⟨hRd, hWr⟩ := h.opened (by rw [hPc]; rfl)
      have hReaders : (s.wr && s.readers ncpu) = true := by
        unfold Procs.readers
        rw [hWr, hRd]
        rfl
      simp only [hPc] at hNext
      cases (if_pos hReaders).symm.trans hNext
      exact h.write hPc
  | closeRd =>
      simp only [hPc] at hNext hIoe
      cases hNext
      refine h.goto hPc ?_ nofun hIoe
      exact .outside (fun _ => ⟨nofun, nofun, nofun⟩) (fun _ _ => Iff.rfl) nofun (Nat.le_refl _)
        nofun
  | closeWr =>
      simp only [hPc] at hNext hIoe
      cases hNext
      refine h.goto hPc ?_ nofun hIoe
      exact .outside (fun _ => ⟨nofun, nofun, nofun⟩) (fun _ _ => Iff.rfl) nofun (Nat.le_refl _)
        nofun
  | entry => simp only [hPc] at hNext; cases hNext
  | aborted => simp only [hPc] at hNext; cases hNext

/-! ## Runs -/

private theorem parent_stops (h : s.parentNext ncpu hasIoe ok = none) :
    s.parent = .entry ∨ s.parent = .aborted := by
  unfold Procs.parentNext at h
  cases hPc : s.parent with
  | write i =>
      simp only [hPc] at h
      split at h <;> cases h
  | entry => exact Or.inl rfl
  | aborted => exact Or.inr rfl
  | _ =>
      simp only [hPc] at h
      cases h

private theorem child_stops (h : s.childNext ncpu i = none) :
    (s.child i).pc = .none ∨ (s.child i).pc = .failed ∨ (s.child i).pc = .entry ∨
      (s.child i).pc = .aborted ∨ ((s.child i).pc = .read ∧ s.pipe = []) := by
  unfold Procs.childNext at h
  cases hPc : (s.child i).pc with
  | none => exact Or.inl rfl
  | failed => exact Or.inr (Or.inl rfl)
  | entry => exact Or.inr (Or.inr (Or.inl rfl))
  | aborted => exact Or.inr (Or.inr (Or.inr (Or.inl rfl)))
  | read =>
      simp only [hPc] at h
      unfold Procs.readNext at h
      right; right; right; right
      refine ⟨rfl, ?_⟩
      cases hPipe : s.pipe with
      | nil => rfl
      | cons b rest =>
          rw [hPipe] at h
          dsimp only at h
          split at h <;> cases h
  | _ =>
      simp only [hPc] at h
      cases h

/-- The tokens suffice for the children that wait. -/
theorem Inv.settled (h : Inv ncpu hasIoe s)
    (hStop : ∀ a, (startup ncpu hasIoe).next s a = none) :
    s.parent = .entry ∧
      ∀ i, 1 ≤ i → i < ncpu → (s.child i).pc = .entry ∨ (s.child i).pc = .failed := by
  have hParent : s.parent = .entry := by
    rcases parent_stops (hStop (.parent true)) with hEntry | hAborted
    · exact hEntry
    · exact absurd hAborted h.running
  refine ⟨hParent, ?_⟩
  intro i hPos hLt
  have hForked : (s.child i).pc ≠ .none := by
    apply (h.forked i).mpr
    rw [hParent]
    exact ⟨hPos, hLt⟩
  rcases child_stops (hStop (.child i)) with hPc | hPc | hPc | hPc | ⟨hPc, hPipe⟩
  · exact absurd hPc hForked
  · exact Or.inr hPc
  · exact Or.inl hPc
  · have hOk := h.child i
    unfold Child.Ok at hOk
    rw [hPc] at hOk
    exact hOk.elim
  · have hSupply := h.supply
    rw [hParent, hPipe] at hSupply
    have hNone := Nat.count_iff_forall_not.mp (Nat.le_zero.mp hSupply) i hLt
    refine absurd ?_ hNone
    unfold Procs.needs
    simp [hPc, hPos]

theorem Inv.orderly (h : Inv ncpu hasIoe s) : Orderly ncpu hasIoe s := by
  have hWriting : ∀ i, (s.child i).pc = .entry → s.parent.writing = true := by
    intro i hPc
    by_contra hNot
    have hReleased := (h.early (Bool.not_eq_true _ ▸ hNot)).2 i
    rw [hPc] at hReleased
    cases hReleased
  have hForks : ∀ i, (s.child i).pc = .entry → s.parent.forks ncpu = ncpu :=
    fun i hPc => forks_of_writing (hWriting i hPc)
  refine ⟨?_, ⟨h.running, ?_⟩, h.token, ?_, h.settled⟩
  · intro i hPc
    refine ⟨?_, h.ioe (hWriting i hPc)⟩
    intro j hPos hLt
    apply (h.forked j).mpr
    rw [hForks i hPc]
    exact ⟨hPos, hLt⟩
  · intro i hPc
    have hOk := h.child i
    unfold Child.Ok at hOk
    rw [hPc] at hOk
    exact hOk
  · intro i hPc
    have hOk := h.child i
    unfold Child.Ok at hOk
    have hRange := (h.forked i).mp (by rw [hPc]; nofun)
    rw [hForks i hPc] at hRange
    rw [hPc] at hOk
    exact ⟨hOk, hRange⟩

/--
**Start-up of the processes.** Whatever the schedule and whichever forks fail, a
child runs `entry` after the parent has forked all children and initialised the
devices, no assertion fails, every child takes one token and gets a number of
its own, and no child waits for ever.
-/
theorem startup_orderly (ncpu : Nat) (hasIoe : Bool) (s : Procs)
    (h : (startup ncpu hasIoe).Reachable s) : Orderly ncpu hasIoe s := by
  have hInv : Inv ncpu hasIoe s := by
    apply h.inv
    · intro s hInit
      cases hInit
      exact Inv.start
    · intro s a s' hInv hNext
      cases a with
      | parent ok => exact hInv.parentNext hNext
      | child i => exact hInv.childNext hNext
  exact hInv.orderly

/-- Three processes; the first child takes the second token. -/
def threeRun : List Step :=
  List.replicate 5 (.parent true) ++ List.replicate 7 (.parent true) ++
    List.replicate 6 (.child 2) ++ List.replicate 3 (.parent true) ++ List.replicate 6 (.child 1)

theorem startup_orderly_three :
    ∃ s, (startup 3 true).Reachable s ∧ (s.child 1).pc = .entry ∧ (s.child 2).pc = .entry ∧
      Orderly 3 true s := by
  obtain ⟨s, hRun, hFirst, hSecond⟩ :
      ∃ s, (startup 3 true).steps start threeRun = some s ∧ (s.child 1).pc = .entry ∧
        (s.child 2).pc = .entry := ⟨_, rfl, rfl, rfl⟩
  have hReach : (startup 3 true).Reachable s := ⟨_, rfl, System.steps_run _ _ hRun⟩
  exact ⟨s, hReach, hFirst, hSecond, startup_orderly 3 true s hReach⟩

end AbstractMachine.Native.Mpe
