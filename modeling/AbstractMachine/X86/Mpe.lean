import Mathlib.Logic.Function.Basic
import AbstractMachine.Lib.Transition

/-!
# Starting the other CPUs

`mpe_init` of x86-qemu boots the application processors one after another.  It
boots one and spins until that one has set `ap_ready`, which it clears with the
exchange that sees it.  A processor that has signalled goes on into the entry of
the program while the boot CPU boots the next.

A step is one access to what the processors share.  The number of processors is
any; those from 1 up to it are booted.
-/

namespace AbstractMachine.X86.Mpe

open AbstractMachine.Lib

/-- A word of the shared flags. -/
abbrev Word := BitVec 32

/-- The address of a function. -/
abbrev Addr := Nat

/-- The value that stays in memory is the second one. -/
def xchg (mem newval : Word) : Word × Word := (mem, newval)

/-- A 16-bit jump to 0x7c00. -/
def JMP_BOOT : Word := 0x000bfde9

/-! ## The processors -/

/-- Where the boot CPU is in `mpe_init`; `cpu` is the counter of the loop. -/
inductive BootPc where
  | storeEntry
  | storeJmp
  | test (cpu : Nat)
  | storeAp (cpu : Nat)
  | bootap (cpu : Nat)
  | spin (cpu : Nat)
  | callUser (cpu : Nat)
  | user (cpu : Nat) (f : Addr)
  deriving DecidableEq, Repr

/-- Where an application processor is; a `stray` one has not come to
`__am_othercpu_entry`. -/
inductive ApPc where
  | off
  | bootRecord
  | initgdt
  | initlapic
  | initirq
  | signal
  | callUser
  | user (f : Addr)
  | stray
  deriving DecidableEq, Repr

/-- The shared words, and where every CPU is. -/
structure Cpus where
  userEntry : Addr
  jmpCode : Word
  isAp : Word
  apReady : Word
  boot : BootPc
  ap : Nat → ApPc
  /-- How often `ap_ready` has been set. -/
  signals : Nat
  /-- How often the boot CPU has seen it set. -/
  passes : Nat

/-- Processor `i` moves. -/
def Cpus.setAp (s : Cpus) (i : Nat) (pc : ApPc) : Cpus := { s with ap := Function.update s.ap i pc }

/-- The next step of the boot CPU in `mpe_init`; `none` while it has to wait. -/
def Cpus.bootNext (ncpu : Nat) (entry : Addr) (s : Cpus) : Option Cpus :=
  match s.boot with
  | .storeEntry => some { s with userEntry := entry, boot := .storeJmp }
  | .storeJmp => some { s with jmpCode := JMP_BOOT, boot := .test 1 }
  | .test cpu => some { s with boot := if cpu < ncpu then .storeAp cpu else .callUser cpu }
  | .storeAp cpu => some { s with isAp := 1, boot := .bootap cpu }
  | .bootap cpu => some { s.setAp cpu .bootRecord with boot := .spin cpu }
  | .spin cpu =>
      let (result, apReady) := xchg s.apReady 0
      if result ≠ 1 then some { s with apReady := apReady }
      else some { s with apReady := apReady, boot := .test (cpu + 1), passes := s.passes + 1 }
  | .callUser cpu => some { s with boot := .user cpu s.userEntry }
  | .user _ _ => none

/-- The boot record leads through the boot sector to `_start_c`, which looks at
`is_ap`; `__am_percpu_init` has three parts. -/
def Cpus.apNext (s : Cpus) (i : Nat) : Option Cpus :=
  match s.ap i with
  | .off => none
  | .bootRecord =>
      some (s.setAp i (if s.jmpCode = JMP_BOOT ∧ s.isAp ≠ 0 then .initgdt else .stray))
  | .initgdt => some (s.setAp i .initlapic)
  | .initlapic => some (s.setAp i .initirq)
  | .initirq => some (s.setAp i .signal)
  | .signal =>
      some
        { s.setAp i .callUser with
          apReady := (xchg s.apReady 1).2
          signals := s.signals + 1 }
  | .callUser => some (s.setAp i (.user s.userEntry))
  | .user _ => none
  | .stray => none

/-- A step of a CPU. -/
inductive Step where
  | boot
  | ap (i : Nat)
  deriving DecidableEq, Repr

/-- On the way into `mpe_init`. -/
def start : Cpus where
  userEntry := 0
  jmpCode := 0
  isAp := 0
  apReady := 0
  boot := .storeEntry
  ap := fun _ => .off
  signals := 0
  passes := 0

/-- The boot CPU and the others, interleaved. -/
def startup (ncpu : Nat) (entry : Addr) : System Cpus Step where
  init s := s = start
  next s
    | .boot => s.bootNext ncpu entry
    | .ap i => s.apNext i

/-! ## The handshake -/

/-- Booted, but not yet signalling. -/
def ApPc.starting : ApPc → Bool
  | .bootRecord => true
  | .initgdt => true
  | .initlapic => true
  | .initirq => true
  | .signal => true
  | _ => false

/-- The processor has set `ap_ready`. -/
def ApPc.signalled : ApPc → Bool
  | .callUser => true
  | .user _ => true
  | _ => false

/-- The processors from 1 up to this one have passed the loop. -/
def BootPc.cpu : BootPc → Nat
  | .storeEntry => 1
  | .storeJmp => 1
  | .test cpu => cpu
  | .storeAp cpu => cpu
  | .bootap cpu => cpu
  | .spin cpu => cpu
  | .callUser cpu => cpu
  | .user cpu _ => cpu

/-- The boot CPU has left the loop. -/
def BootPc.left : BootPc → Bool
  | .callUser _ => true
  | .user _ _ => true
  | _ => false

/-- The invariant of the handshake, by where the boot CPU is. -/
structure Inv (ncpu : Nat) (entry : Addr) (s : Cpus) : Prop where
  first : 1 ≤ s.boot.cpu
  passed : ∀ i, 1 ≤ i → i < s.boot.cpu → (s.ap i).signalled
  booted : ∀ i, s.boot = .spin i →
    (s.ap i).starting ∧ s.apReady = 0 ∨ (s.ap i).signalled ∧ s.apReady = 1
  started : ∀ i, s.ap i ≠ .off → 1 ≤ i ∧ i < s.boot.cpu ∨ s.boot = .spin i
  clear : (∀ i, s.boot ≠ .spin i) → s.apReady = 0
  left : s.boot.left → ncpu ≤ s.boot.cpu
  userEntry : s.boot ≠ .storeEntry → s.userEntry = entry
  jmpCode : s.boot ≠ .storeEntry → s.boot ≠ .storeJmp → s.jmpCode = JMP_BOOT
  isAp : ∀ i, s.boot = .bootap i ∨ s.boot = .spin i → s.isAp = 1
  signals : s.signals = s.passes + s.apReady.toNat
  passes : s.passes + 1 = s.boot.cpu
  entered : (∀ i f, s.ap i = .user f → f = entry) ∧ ∀ cpu f, s.boot = .user cpu f → f = entry

variable {ncpu : Nat} {entry : Addr} {s s' : Cpus} {i cpu : Nat} {pc pc' : ApPc}

private theorem setAp_self : (s.setAp i pc).ap i = pc := by
  unfold Cpus.setAp
  exact Function.update_self i pc s.ap

private theorem setAp_of_ne {j : Nat} (h : j ≠ i) : (s.setAp i pc).ap j = s.ap j := by
  unfold Cpus.setAp
  exact Function.update_of_ne h pc s.ap

theorem Inv.start : Inv ncpu entry start where
  first := Nat.le_refl 1
  passed _ hPos hLt := absurd hLt (Nat.not_lt.mpr hPos)
  booted := nofun
  started _ hOn := absurd rfl hOn
  clear _ := rfl
  left := nofun
  userEntry hNe := absurd rfl hNe
  jmpCode hNe _ := absurd rfl hNe
  isAp _ h := h.elim nofun nofun
  signals := rfl
  passes := rfl
  entered := ⟨nofun, nofun⟩

private theorem not_signalled (h : pc.starting) : pc.signalled = false := by
  cases pc <;> first | rfl | cases h

/-- The processor that starts is the one that the boot CPU waits for. -/
theorem Inv.spinning (h : Inv ncpu entry s) (hStarting : (s.ap i).starting) :
    s.boot = .spin i ∧ s.apReady = 0 := by
  have hNot := not_signalled hStarting
  have hOn : s.ap i ≠ .off := by
    intro hOff
    rw [hOff] at hStarting
    cases hStarting
  rcases h.started i hOn with ⟨hPos, hLt⟩ | hSpin
  · cases hNot.symm.trans (h.passed i hPos hLt)
  · rcases h.booted i hSpin with ⟨-, hClear⟩ | ⟨hSet, -⟩
    · exact ⟨hSpin, hClear⟩
    · cases hNot.symm.trans hSet

/-- A step of a processor that neither starts it nor signals. -/
theorem Inv.move (h : Inv ncpu entry s) (hPc : s.ap i = pc') (hOn : pc' ≠ .off)
    (hStarting : pc.starting = pc'.starting) (hSignalled : pc.signalled = pc'.signalled)
    (hUser : ∀ f, pc = .user f → f = entry) : Inv ncpu entry (s.setAp i pc) := by
  have hSame : ∀ j, ((s.setAp i pc).ap j).starting = (s.ap j).starting ∧
      ((s.setAp i pc).ap j).signalled = (s.ap j).signalled := by
    intro j
    by_cases hj : j = i
    · subst hj
      rw [setAp_self, hPc]
      exact ⟨hStarting, hSignalled⟩
    · rw [setAp_of_ne hj]
      exact ⟨rfl, rfl⟩
  refine { h with passed := ?_, booted := ?_, started := ?_, entered := ⟨?_, h.entered.2⟩ }
  · intro j hPos hLt
    rw [(hSame j).2]
    exact h.passed j hPos hLt
  · intro j hSpin
    rw [(hSame j).1, (hSame j).2]
    exact h.booted j hSpin
  · intro j hj
    apply h.started j
    by_cases hEq : j = i
    · rwa [hEq, hPc]
    · rwa [setAp_of_ne hEq] at hj
  · intro j f hj
    by_cases hEq : j = i
    · rw [hEq, setAp_self] at hj
      exact hUser f hj
    · rw [setAp_of_ne hEq] at hj
      exact h.entered.1 j f hj

theorem Inv.signal (h : Inv ncpu entry s) (hPc : s.ap i = .signal) :
    Inv ncpu entry
      { s.setAp i .callUser with
        apReady := (xchg s.apReady 1).2
        signals := s.signals + 1 } := by
  obtain ⟨hSpin, hClear⟩ := h.spinning (i := i) (by rw [hPc]; rfl)
  have hMoved : ∀ j, j ≠ i → (s.setAp i .callUser).ap j = s.ap j := fun j hj => setAp_of_ne hj
  have hSelf : (s.setAp i .callUser).ap i = .callUser := setAp_self
  refine
    { h with
      passed := ?_
      booted := ?_
      started := ?_
      clear := fun hNone => absurd hSpin (hNone i)
      signals := ?_
      entered := ⟨?_, h.entered.2⟩ }
  · intro j hPos hLt
    show ((s.setAp i .callUser).ap j).signalled
    by_cases hj : j = i
    · rw [hj, hSelf]
      rfl
    · rw [hMoved j hj]
      exact h.passed j hPos hLt
  · intro j hj
    cases hSpin.symm.trans hj
    right
    show ((s.setAp i .callUser).ap i).signalled ∧ _
    rw [hSelf]
    exact ⟨rfl, rfl⟩
  · intro j hj
    by_cases hEq : j = i
    · rw [hEq]
      exact Or.inr hSpin
    · exact h.started j (hMoved j hEq ▸ hj)
  · show s.signals + 1 = s.passes + 1
    rw [h.signals, hClear]
    rfl
  · intro j f hj
    by_cases hEq : j = i
    · rw [hEq] at hj
      cases hSelf.symm.trans hj
    · exact h.entered.1 j f ((hMoved j hEq).symm.trans hj)

theorem Inv.apNext (h : Inv ncpu entry s) (hNext : s.apNext i = some s') : Inv ncpu entry s' := by
  unfold Cpus.apNext at hNext
  cases hPc : s.ap i with
  | off => rw [hPc] at hNext; cases hNext
  | bootRecord =>
      rw [hPc] at hNext
      have hSpin := (h.spinning (i := i) (by rw [hPc]; rfl)).1
      have hJmp : s.jmpCode = JMP_BOOT := h.jmpCode (by rw [hSpin]; nofun) (by rw [hSpin]; nofun)
      have hAp : s.isAp ≠ 0 := by
        rw [h.isAp i (Or.inr hSpin)]
        decide
      rw [if_pos ⟨hJmp, hAp⟩] at hNext
      cases hNext
      exact h.move hPc nofun rfl rfl nofun
  | initgdt =>
      rw [hPc] at hNext
      cases hNext
      exact h.move hPc nofun rfl rfl nofun
  | initlapic =>
      rw [hPc] at hNext
      cases hNext
      exact h.move hPc nofun rfl rfl nofun
  | initirq =>
      rw [hPc] at hNext
      cases hNext
      exact h.move hPc nofun rfl rfl nofun
  | signal =>
      rw [hPc] at hNext
      cases hNext
      exact h.signal hPc
  | callUser =>
      rw [hPc] at hNext
      cases hNext
      have hOn : s.ap i ≠ .off := by
        rw [hPc]
        nofun
      have hStored : s.boot ≠ .storeEntry := by
        intro hBoot
        have hStarted := h.started i hOn
        rw [hBoot] at hStarted
        rcases hStarted with ⟨hPos, hLt⟩ | hSpin
        · exact absurd hPos (Nat.not_le.mpr hLt)
        · cases hSpin
      have hUser : ∀ f, ApPc.user s.userEntry = .user f → f = entry := by
        intro f hf
        cases hf
        exact h.userEntry hStored
      exact h.move hPc nofun rfl rfl hUser
  | user f => rw [hPc] at hNext; cases hNext
  | stray => rw [hPc] at hNext; cases hNext

/-- A step of the boot CPU that changes nothing but what it prepares. -/
theorem Inv.boot {boot : BootPc} {userEntry : Addr} {jmpCode isAp : Word} (h : Inv ncpu entry s)
    (hSpin : ∀ i, s.boot ≠ .spin i) (hSpin' : ∀ i, boot ≠ .spin i) (hCpu : boot.cpu = s.boot.cpu)
    (hLeft : boot.left → ncpu ≤ s.boot.cpu) (hEntry : userEntry = entry)
    (hJmp : boot ≠ .storeJmp → jmpCode = JMP_BOOT) (hAp : ∀ i, boot = .bootap i → isAp = 1)
    (hUser : ∀ cpu f, boot = .user cpu f → f = entry) :
    Inv ncpu entry
      { s with userEntry := userEntry, jmpCode := jmpCode, isAp := isAp, boot := boot } where
  first := hCpu ▸ h.first
  passed i hPos hLt := h.passed i hPos (hCpu ▸ hLt)
  booted i hi := absurd hi (hSpin' i)
  started i hOn := by
    rcases h.started i hOn with hLt | hAt
    · exact Or.inl (hCpu.symm ▸ hLt)
    · exact absurd hAt (hSpin i)
  clear _ := h.clear hSpin
  left hIn := hCpu.symm ▸ hLeft hIn
  userEntry _ := hEntry
  jmpCode _ := hJmp
  isAp i hi := hi.elim (hAp i) fun hAt => absurd hAt (hSpin' i)
  signals := h.signals
  passes := hCpu.symm ▸ h.passes
  entered := ⟨h.entered.1, hUser⟩

theorem Inv.bootap (h : Inv ncpu entry s) (hPc : s.boot = .bootap cpu) :
    Inv ncpu entry { s.setAp cpu .bootRecord with boot := .spin cpu } := by
  have hCpu : s.boot.cpu = cpu := by rw [hPc]; rfl
  have hSpin : ∀ i, s.boot ≠ .spin i := by rw [hPc]; nofun
  have hMoved : ∀ j, j ≠ cpu → (s.setAp cpu .bootRecord).ap j = s.ap j :=
    fun j hj => setAp_of_ne hj
  have hSelf : (s.setAp cpu .bootRecord).ap cpu = .bootRecord := setAp_self
  refine
    { first := hCpu ▸ h.first
      passed := ?_
      booted := ?_
      started := ?_
      clear := fun hNone => absurd rfl (hNone cpu)
      left := nofun
      userEntry := fun _ => h.userEntry (by rw [hPc]; nofun)
      jmpCode := fun _ _ => h.jmpCode (by rw [hPc]; nofun) (by rw [hPc]; nofun)
      isAp := fun _ _ => h.isAp cpu (Or.inl hPc)
      signals := h.signals
      passes := hCpu ▸ h.passes
      entered := ⟨?_, nofun⟩ }
  · intro j hPos hLt
    have hNe : j ≠ cpu := Nat.ne_of_lt hLt
    show ((s.setAp cpu .bootRecord).ap j).signalled
    rw [hMoved j hNe]
    exact h.passed j hPos (hCpu.symm ▸ hLt)
  · intro j hj
    cases hj
    left
    show ((s.setAp cpu .bootRecord).ap cpu).starting ∧ _
    rw [hSelf]
    exact ⟨rfl, h.clear hSpin⟩
  · intro j hj
    by_cases hEq : j = cpu
    · rw [hEq]
      exact Or.inr rfl
    · rcases h.started j (hMoved j hEq ▸ hj) with ⟨hPos, hLt⟩ | hAt
      · exact Or.inl ⟨hPos, hCpu ▸ hLt⟩
      · exact absurd hAt (hSpin j)
  · intro j f hj
    by_cases hEq : j = cpu
    · rw [hEq] at hj
      cases hSelf.symm.trans hj
    · exact h.entered.1 j f ((hMoved j hEq).symm.trans hj)

/-- The exchange that sees the signal ends the turn of the loop. -/
theorem Inv.pass (h : Inv ncpu entry s) (hPc : s.boot = .spin cpu) (hSet : s.apReady = 1) :
    Inv ncpu entry
      { s with apReady := 0, boot := .test (cpu + 1), passes := s.passes + 1 } := by
  have hCpu : s.boot.cpu = cpu := by rw [hPc]; rfl
  have hDone : (s.ap cpu).signalled := by
    rcases h.booted cpu hPc with ⟨-, hClear⟩ | ⟨hDone, -⟩
    · rw [hClear] at hSet
      exact absurd hSet (by decide)
    · exact hDone
  refine
    { first := Nat.succ_pos cpu
      passed := ?_
      booted := nofun
      started := ?_
      clear := fun _ => rfl
      left := nofun
      userEntry := fun _ => h.userEntry (by rw [hPc]; nofun)
      jmpCode := fun _ _ => h.jmpCode (by rw [hPc]; nofun) (by rw [hPc]; nofun)
      isAp := fun _ hi => hi.elim nofun nofun
      signals := ?_
      passes := ?_
      entered := ⟨h.entered.1, nofun⟩ }
  · intro j hPos hLt
    rcases Nat.lt_succ_iff_lt_or_eq.mp hLt with hOld | hNew
    · exact h.passed j hPos (hCpu.symm ▸ hOld)
    · rw [hNew]
      exact hDone
  · intro j hj
    left
    show 1 ≤ j ∧ j < cpu + 1
    have hFirst := h.first
    rw [hCpu] at hFirst
    rcases h.started j hj with ⟨hPos, hLt⟩ | hAt
    · rw [hCpu] at hLt
      exact ⟨hPos, Nat.lt_succ_of_lt hLt⟩
    · cases hPc.symm.trans hAt
      exact ⟨hFirst, Nat.lt_succ_self cpu⟩
  · show s.signals = s.passes + 1 + 0
    rw [h.signals, hSet]
    rfl
  · show s.passes + 1 + 1 = cpu + 1
    rw [h.passes, hCpu]

theorem Inv.spin (h : Inv ncpu entry s) (hPc : s.boot = .spin cpu)
    (hNext : s.bootNext ncpu entry = some s') : Inv ncpu entry s' := by
  unfold Cpus.bootNext at hNext
  rw [hPc] at hNext
  by_cases hSet : s.apReady = 1
  · cases (if_neg (not_not_intro hSet)).symm.trans hNext
    exact h.pass hPc hSet
  · cases (if_pos hSet).symm.trans hNext
    have hClear : s.apReady = 0 := by
      rcases h.booted cpu hPc with ⟨-, hClear⟩ | ⟨-, hOne⟩
      · exact hClear
      · exact absurd hOne hSet
    show Inv ncpu entry { s with apReady := 0, boot := .spin cpu }
    rw [← hClear, ← hPc]
    exact h

theorem Inv.bootNext (h : Inv ncpu entry s) (hNext : s.bootNext ncpu entry = some s') :
    Inv ncpu entry s' := by
  cases hPc : s.boot with
  | storeEntry =>
      simp only [Cpus.bootNext, hPc] at hNext
      cases hNext
      exact h.boot (by rw [hPc]; nofun) nofun (by rw [hPc]; rfl) nofun rfl
        (fun hNe => absurd rfl hNe) nofun nofun
  | storeJmp =>
      simp only [Cpus.bootNext, hPc] at hNext
      cases hNext
      have hEntry := h.userEntry (by rw [hPc]; nofun)
      exact h.boot (by rw [hPc]; nofun) nofun (by rw [hPc]; rfl) nofun hEntry (fun _ => rfl)
        nofun nofun
  | test cpu =>
      simp only [Cpus.bootNext, hPc] at hNext
      cases hNext
      have hEntry := h.userEntry (by rw [hPc]; nofun)
      have hJmp := h.jmpCode (by rw [hPc]; nofun) (by rw [hPc]; nofun)
      by_cases hLt : cpu < ncpu
      · rw [if_pos hLt]
        exact h.boot (by rw [hPc]; nofun) nofun (by rw [hPc]; rfl) nofun hEntry (fun _ => hJmp)
          nofun nofun
      · rw [if_neg hLt]
        have hLeft : ncpu ≤ s.boot.cpu := by
          rw [hPc]
          exact Nat.le_of_not_lt hLt
        exact h.boot (by rw [hPc]; nofun) nofun (by rw [hPc]; rfl) (fun _ => hLeft) hEntry
          (fun _ => hJmp) nofun nofun
  | storeAp cpu =>
      simp only [Cpus.bootNext, hPc] at hNext
      cases hNext
      have hEntry := h.userEntry (by rw [hPc]; nofun)
      have hJmp := h.jmpCode (by rw [hPc]; nofun) (by rw [hPc]; nofun)
      exact h.boot (by rw [hPc]; nofun) nofun (by rw [hPc]; rfl) nofun hEntry (fun _ => hJmp)
        (fun _ _ => rfl) nofun
  | bootap cpu =>
      simp only [Cpus.bootNext, hPc] at hNext
      cases hNext
      exact h.bootap hPc
  | spin cpu => exact h.spin hPc hNext
  | callUser cpu =>
      simp only [Cpus.bootNext, hPc] at hNext
      cases hNext
      have hEntry := h.userEntry (by rw [hPc]; nofun)
      have hJmp := h.jmpCode (by rw [hPc]; nofun) (by rw [hPc]; nofun)
      have hLeft : ncpu ≤ s.boot.cpu := h.left (by rw [hPc]; rfl)
      have hUser : ∀ cpu' f, BootPc.user cpu s.userEntry = .user cpu' f → f = entry := by
        intro cpu' f hf
        cases hf
        exact hEntry
      exact h.boot (by rw [hPc]; nofun) nofun (by rw [hPc]; rfl) (fun _ => hLeft) hEntry
        (fun _ => hJmp) nofun hUser
  | user cpu f =>
      simp only [Cpus.bootNext, hPc] at hNext
      cases hNext

/-! ## Runs -/

/-- Two processors, up to the entry of both. -/
def twoRun : List Step :=
  [.boot, .boot, .boot, .boot, .boot, .boot, .ap 1, .ap 1, .ap 1, .boot, .ap 1, .ap 1, .boot,
    .ap 1, .boot, .boot]

end AbstractMachine.X86.Mpe
