import AbstractMachine.Lib.Transition
import AbstractMachine.X86.Vme.Boot
import AbstractMachine.X86.Vme.Teardown

/-!
# Many address spaces

The system after `vme_init`: the kernel calls `protect`, `map` and
`unprotect` in any order on any number of `AddrSpace` objects.  Next to the
state of `vme.c` the model keeps an account for each object: the pages
`pgalloc` handed out in the calls made for it since it was protected.

A call only touches the pages on the account of its own address space, pages
that were free, and the `ptr` field it sets.  The ownership invariant follows
from that: accounts are the pages of the trees, no page is on two accounts,
and none of them was in use when `vme_init` returned.
-/

namespace AbstractMachine.X86.Vme

open AbstractMachine.Lib

/-! ## Calls -/

/-- A call made by the kernel; `as` is the address of the `ptr` field. -/
inductive Op where
  | protect (as : Nat)
  | map (as va pa : Nat) (prot : BitVec 32)
  | unprotect (as : Nat)

/-- The address space a call is made for. -/
def Op.as : Op → Nat
  | .protect as => as
  | .map as _ _ _ => as
  | .unprotect as => as

/-- The account after a call that obtained `got`. -/
def Op.charge (got old : List Nat) : Op → List Nat
  | .protect _ => got
  | .map _ _ _ _ => old ++ got
  | .unprotect _ => []

/-- The caller's side: the `AddrSpace` object has been protected. -/
def requireSpace (as : Nat) : Vm Unit := do
  let s ← get
  if as ∉ s.spaces then throw .contract

/-- A call, as the kernel may make it.  An object to be protected does not lie
in a page table, and only protected objects are mapped or unprotected. -/
def call (arch : Arch) (env : Pager) : Op → Vm Unit
  | .protect as => do
      let s ← get
      if s.InUse arch as then throw .contract
      set { s with spaces := s.spaces.insert as }
      protect arch env as
  | .map as va pa prot => do
      requireSpace as
      map arch env as va pa prot
  | .unprotect as => do
      requireSpace as
      unprotect arch env as
      modify fun s => { s with spaces := s.spaces.filter (· ≠ as) }

/-- The state of `vme.c` with the accounts. -/
structure Machine where
  vm : VM
  /-- The pages obtained for each address space since it was protected. -/
  account : Nat → List Nat

/-- The machine after a call that left the state `vm`. -/
def Machine.after (m : Machine) (op : Op) (vm : VM) : Machine where
  vm := vm
  account := Function.update m.account op.as
    (op.charge (vm.allocated.drop m.vm.allocated.length) (m.account op.as))

/-- One call. -/
def step (arch : Arch) (env : Pager) (m : Machine) (op : Op) : Except Stop Machine :=
  match (call arch env op).run m.vm with
  | .ok (_, vm) => .ok (m.after op vm)
  | .error e => .error e

/-- The machine when `vme_init` has returned. -/
def Booted (arch : Arch) (env : Pager) (m : Machine) : Prop :=
  ∃ mem cpu as u, (arch = .x86_64 → mem pml4Addr = 0) ∧
    (boot arch env cpu as).run (VM.reset arch mem as) = .ok (u, m.vm) ∧
    m.account = fun _ => []

/-- All runs of the system. -/
def system (arch : Arch) (env : Pager) : System Machine Op where
  init := Booted arch env
  next := fun m op => (step arch env m op).toOption

section

variable {arch : Arch} {env : Pager}

theorem step_eq_ok {m m' : Machine} {op : Op} :
    step arch env m op = .ok m' ↔
      ∃ vm, (call arch env op).run m.vm = .ok ((), vm) ∧ m' = m.after op vm := by
  unfold step
  constructor
  · intro h
    split at h
    · rename_i vm hCall
      cases h
      exact ⟨vm, hCall, rfl⟩
    · cases h
  · rintro ⟨vm, hCall, rfl⟩
    rw [hCall]

theorem system_next {m m' : Machine} {op : Op} :
    (system arch env).next m op = some m' ↔ step arch env m op = .ok m' := by
  show (step arch env m op).toOption = some m' ↔ _
  cases step arch env m op with
  | error e =>
      constructor
      · intro h
        cases h
      · intro h
        cases h
  | ok m'' =>
      constructor
      · intro h
        cases h
        rfl
      · intro h
        cases h
        rfl

theorem requireSpace_ok {s s' : VM} {as : Nat} {u : Unit}
    (h : (requireSpace as).run s = .ok (u, s')) : as ∈ s.spaces ∧ s = s' := by
  rw [requireSpace, bind_eq_ok] at h
  obtain ⟨t, t', hGet, h⟩ := h
  obtain ⟨rfl, rfl⟩ := get_eq_ok.mp hGet
  split at h
  · exact absurd h throw_ne_ok
  · rename_i hAs
    exact ⟨not_not.mp hAs, (pure_eq_ok.mp h).2⟩

/-! ## What one call can do -/

/-- The words of the kernel root table. -/
def kernelWord (arch : Arch) (s : VM) (i : Nat) : Nat :=
  s.mem (s.kpt + i * wordBytes arch)

/-- The memory holds the address space `as`, on the pages of `account`. -/
def Holds (arch : Arch) (s : VM) (kword : Nat → Nat) (as : Nat)
    (account : List Nat) : Prop :=
  ∃ root kids, Space arch s kword as root kids ∧
    ∀ q, q ∈ account ↔ (RadixTree.table root kids).Owns q

/-- A call for `as` took the machine from `m` to `m'`. -/
structure Touches (arch : Arch) (kword : Nat → Nat) (m m' : Machine) (as : Nat) :
    Prop where
  mem : ∀ x, x ≠ as →
    (∀ q, q ∈ m.account as ∨ q ∈ m'.account as → ¬ InPage 4096 q x) →
    m'.vm.mem x = m.vm.mem x
  keeps : ∀ q ∈ m.vm.live, q ∉ m.account as → q ∈ m'.vm.live
  obtains : ∀ q ∈ m'.vm.live, q ∈ m.vm.live ∨ q ∈ m'.account as
  fresh : ∀ q ∈ m'.account as, q ∈ m.account as ∨ q ∉ m.vm.live ∧ q % 4096 = 0 ∧
    ∀ as' ∈ m.vm.spaces, ¬ InPage 4096 q as'
  inUse : ∀ q ∈ m'.account as, q ∈ m'.vm.live
  nodup : (m'.account as).Nodup
  outside : ∀ q ∈ m.vm.live, ¬ InPage 4096 q as
  account : ∀ as', as' ≠ as → m'.account as' = m.account as'
  spaces : ∀ as', as' ≠ as → (as' ∈ m'.vm.spaces ↔ as' ∈ m.vm.spaces)
  kpt : m'.vm.kpt = m.vm.kpt
  self : as ∈ m'.vm.spaces → Holds arch m'.vm kword as (m'.account as)

/-! ## The ownership invariant -/

/-- Ownership: `s₀` is the state when `vme_init` returned. -/
structure Owned (arch : Arch) (s₀ : VM) (m : Machine) : Prop where
  kernel : KernelTables arch s₀.mem s₀.kpt s₀.live
  kpt : m.vm.kpt = s₀.kpt
  kept : ∀ q ∈ s₀.live, q ∈ m.vm.live
  same : ∀ q x, q ∈ s₀.live → InPage 4096 q x → m.vm.mem x = s₀.mem x
  space : ∀ as ∈ m.vm.spaces, Holds arch m.vm (kernelWord arch s₀) as (m.account as)
  live : ∀ as, ∀ q ∈ m.account as, q ∈ m.vm.live ∧ q % 4096 = 0 ∧ q ∉ s₀.live
  nodup : ∀ as, (m.account as).Nodup
  apart : ∀ as as' q, q ∈ m.account as → q ∈ m.account as' → as = as'

variable {s₀ : VM} {m m' : Machine}

theorem Owned.outside (h : Owned arch s₀ m) {as : Nat} (hAs : as ∈ m.vm.spaces) :
    ∀ q ∈ m.vm.live, ¬ InPage 4096 q as := by
  obtain ⟨root, kids, hSpace, _⟩ := h.space as hAs
  exact hSpace.outside

/-- A page in use that is not on the account of `as` is not touched. -/
theorem Touches.page {kword : Nat → Nat} {as : Nat} (h : Owned arch s₀ m)
    (hT : Touches arch kword m m' as) {q x : Nat} (hq : q ∈ m.vm.live)
    (hAligned : q % 4096 = 0) (hNot : q ∉ m.account as) (hx : InPage 4096 q x) :
    m'.vm.mem x = m.vm.mem x := by
  refine hT.mem x ?_ ?_
  · rintro rfl
    exact hT.outside q hq hx
  · intro q' hq' hx'
    have hOld : q' ∈ m.account as → False := by
      intro hOld
      have hEq : q' = q := inPage_unique (h.live as q' hOld).2.1 hAligned hx' hx
      exact hNot (hEq ▸ hOld)
    rcases hq' with hOld' | hNew
    · exact hOld hOld'
    · rcases hT.fresh q' hNew with hOld' | ⟨hFree, hAligned', _⟩
      · exact hOld hOld'
      · have hEq : q' = q := inPage_unique hAligned' hAligned hx' hx
        exact hFree (hEq ▸ hq)

/-- Every other address space keeps its tables. -/
theorem Touches.other {kword : Nat → Nat} {as as' root : Nat}
    {kids : Nat → RadixTree Mapping} (h : Owned arch s₀ m)
    (hT : Touches arch kword m m' as) (hAs' : as' ∈ m.vm.spaces) (hNe : as' ≠ as)
    (hSpace : Space arch m.vm (kernelWord arch s₀) as' root kids)
    (hOwns : ∀ q, q ∈ m.account as' ↔ (RadixTree.table root kids).Owns q) :
    Space arch m'.vm (kernelWord arch s₀) as' root kids := by
  have hNot : ∀ q, (RadixTree.table root kids).Owns q → q ∉ m.account as := by
    intro q hq hq'
    exact hNe (h.apart as' as q ((hOwns q).mpr hq) hq')
  refine hSpace.frame ?_ ?_ ?_ ?_ ((hT.spaces as' hNe).mpr hAs')
  · refine hT.mem as' hNe fun q hq hx => ?_
    have hFree : ∀ q ∈ m.vm.live, ¬ InPage 4096 q as' := hSpace.outside
    have hOld : q ∈ m.account as → False := fun hOld =>
      hFree q (h.live as q hOld).1 hx
    rcases hq with hOld' | hNew
    · exact hOld hOld'
    · rcases hT.fresh q hNew with hOld' | ⟨_, _, hApart⟩
      · exact hOld hOld'
      · exact hApart as' hAs' hx
  · intro q x hq hx
    exact Touches.page h hT (hSpace.owned q hq) (hSpace.pageAligned hq) (hNot q hq) hx
  · intro q hq
    exact hT.keeps q (hSpace.owned q hq) (hNot q hq)
  · intro q hq hx
    rcases hT.obtains q hq with hOld | hNew
    · exact hSpace.outside q hOld hx
    · rcases hT.fresh q hNew with hOld | ⟨_, _, hApart⟩
      · exact hSpace.outside q (h.live as q hOld).1 hx
      · exact hApart as' hAs' hx

/-- **The ownership invariant is kept** by whatever touches one address space. -/
theorem Owned.step {as : Nat} (h : Owned arch s₀ m)
    (hT : Touches arch (kernelWord arch s₀) m m' as) : Owned arch s₀ m' := by
  have hKernelNot : ∀ q ∈ s₀.live, q ∉ m.account as :=
    fun q hq hIn => (h.live as q hIn).2.2 hq
  exact
    { kernel := h.kernel
      kpt := hT.kpt.trans h.kpt
      kept := fun q hq => hT.keeps q (h.kept q hq) (hKernelNot q hq)
      same := by
        intro q x hq hx
        exact (Touches.page h hT (h.kept q hq) (h.kernel.aligned q hq)
          (hKernelNot q hq) hx).trans (h.same q x hq hx)
      space := by
        intro as' hAs'
        by_cases hEq : as' = as
        · rw [hEq] at hAs' ⊢
          exact hT.self hAs'
        · have hOld := (hT.spaces as' hEq).mp hAs'
          obtain ⟨root, kids, hSpace, hOwns⟩ := h.space as' hOld
          rw [hT.account as' hEq]
          exact ⟨root, kids, Touches.other h hT hOld hEq hSpace hOwns, hOwns⟩
      live := by
        intro as' q hq
        by_cases hEq : as' = as
        · rw [hEq] at hq
          rcases hT.fresh q hq with hOld | ⟨hFree, hAligned, _⟩
          · exact ⟨hT.inUse q hq, (h.live as q hOld).2⟩
          · exact ⟨hT.inUse q hq, hAligned, fun hKernel => hFree (h.kept q hKernel)⟩
        · rw [hT.account as' hEq] at hq
          obtain ⟨hLive, hRest⟩ := h.live as' q hq
          exact ⟨hT.keeps q hLive fun hIn => hEq (h.apart as' as q hq hIn), hRest⟩
      nodup := by
        intro as'
        by_cases hEq : as' = as
        · rw [hEq]
          exact hT.nodup
        · rw [hT.account as' hEq]
          exact h.nodup as'
      apart := by
        -- a page that is new on one account was on no other
        have hMixed : ∀ as' q, as' ≠ as → q ∈ m'.account as → q ∈ m.account as' →
            False := by
          intro as' q hNe hq hq'
          rcases hT.fresh q hq with hOld | ⟨hFree, _⟩
          · exact hNe (h.apart as' as q hq' hOld)
          · exact hFree (h.live as' q hq').1
        intro a b q ha hb
        by_cases hA : a = as
        · by_cases hB : b = as
          · rw [hA, hB]
          · rw [hA] at ha
            rw [hT.account b hB] at hb
            exact (hMixed b q hB ha hb).elim
        · rw [hT.account a hA] at ha
          by_cases hB : b = as
          · rw [hB] at hb
            exact (hMixed a q hA hb ha).elim
          · rw [hT.account b hB] at hb
            exact h.apart a b q ha hb }

end

end AbstractMachine.X86.Vme
