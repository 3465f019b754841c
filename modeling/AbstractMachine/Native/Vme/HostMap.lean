import AbstractMachine.Lib.Transition
import AbstractMachine.Native.Vme.Switch
import Mathlib.Data.List.Perm.Subperm

/-!
# The host mapping of a single CPU

The host mapping of the user space changes in two places: `map` sets a page
at once when its address space is current, and `__am_switch` replaces the
pages of the old address space by those of the new one.  On one CPU, and as
long as no page is mapped twice, the two keep it equal to the page table of
the current address space, and the flags say which nodes that is.
-/

namespace AbstractMachine.Native.Vme

open AbstractMachine.Lib

/-- The steps of a single CPU; `head` is the `vm_head` of a context. -/
inductive Op where
  | protect (as : Nat)
  | map (as va pa : Nat) (prot : BitVec 32)
  | switch (head : Nat)

/-- The state of `vme.c`, with what each address space maps so far. -/
structure Machine where
  vm : VM
  /-- The address spaces made by `protect`. -/
  heads : List Nat
  table : Nat → PageTable

/-- A call on CPU 0.  `map` is called for address spaces made by `protect`
and once for each page, and contexts belong to such address spaces or to the
kernel. -/
def call (env : Env) (m : Machine) : Op → Vm Unit
  | .protect as => protect env as
  | .map as va pa prot =>
      if m.vm.ptr as ∈ m.heads ∧ m.table (m.vm.ptr as) va = none then
        map env 0 as va pa prot
      else throw .contract
  | .switch head =>
      if head = 0 ∨ head ∈ m.heads then amSwitch 0 head else throw .contract

/-- The machine after a call that left the state `vm`. -/
def Machine.after (m : Machine) (vm : VM) : Op → Machine
  | .protect as =>
      { vm := vm
        heads := vm.ptr as :: m.heads
        table := Function.update m.table (vm.ptr as) fun _ => none }
  | .map as va pa prot =>
      { m with
        vm := vm
        table := Function.update m.table (m.vm.ptr as)
          (Function.update (m.table (m.vm.ptr as)) va (some (pa, prot))) }
  | .switch _ => { m with vm := vm }

/-- One step. -/
def step (env : Env) (m : Machine) (op : Op) : Option Machine :=
  match (call env m op).run m.vm with
  | .ok (_, vm) => some (m.after vm op)
  | .error _ => none

/-- After `vme_init`, with the kernel running and no user page mapped. -/
def Started (m : Machine) : Prop :=
  ∃ s, vmeInit.run s = .ok ((), m.vm) ∧ s.cpu 0 = { vmHead := 0, host := fun _ => none } ∧
    m.heads = [] ∧ m.table = fun _ _ => none

/-- The machine as a system: a single CPU that maps, switches and protects. -/
def system (env : Env) : System Machine Op where
  init := Started
  next := step env

/-- The host pages of the address space `h`. -/
def hostPages (m : Machine) (h va : Nat) : Option HostPage :=
  if h = 0 then none else (m.table h va).map fun x => hostPage x.1 x.2

/-! ## The invariant -/

/-- The invariant: the list of every address space is its table, and the lists are apart. -/
structure Consistent (m : Machine) : Prop where
  vmeEnable : m.vm.vmeEnable = true
  listed : ∀ h ∈ m.heads, Listed m.vm h (m.table h) (nodesOf m.vm h)
  head : ∀ h ∈ m.heads, h ≠ 0 ∧ h ∈ m.vm.used
  apart : ∀ h ∈ m.heads, ∀ h' ∈ m.heads, ∀ p ∈ nodesOf m.vm h,
    p ∈ nodesOf m.vm h' → h = h'
  current : (m.vm.cpu 0).vmHead = 0 ∨ (m.vm.cpu 0).vmHead ∈ m.heads
  host : ∀ va, (m.vm.cpu 0).host va = hostPages m (m.vm.cpu 0).vmHead va
  flag : ∀ h ∈ m.heads, ∀ p ∈ nodesOf m.vm h,
    (m.vm.node p).isMapped = decide (h = (m.vm.cpu 0).vmHead)

section

variable {env : Env} {s s' : VM} {m m' : Machine} {h : Nat} {t : PageTable} {l : List Nat}

theorem Listed.length_le (hL : Listed s h t l) : l.length ≤ s.used.length :=
  (hL.chain.nodup.subperm hL.used).length_le

theorem Listed.nodesOf_eq (hL : Listed s h t l) (hh : h ≠ 0) : nodesOf s h = l := by
  rw [nodesOf, if_neg hh, visits_of_chain hL.chain hL.length_le]
  rfl

theorem Listed.wellFormed (hL : Listed s h t l) (hh : h ≠ 0) : WellFormed s h where
  ends := fun _ => ⟨l, visits_of_chain hL.chain hL.length_le⟩
  user := by
    rw [hL.nodesOf_eq hh]
    exact hL.user
  vas := by
    rw [hL.nodesOf_eq hh]
    exact hL.vas

/-- The nodes ask for the pages of the table. -/
theorem Listed.pageAt_eq (hL : Listed s h t l) (va : Nat) :
    pageAt s l va = (t va).map fun x => hostPage x.1 x.2 := by
  cases hx : t va with
  | none =>
      show _ = none
      rw [pageAt_none]
      intro p hp hVa
      have hSome := (hL.entries va ((s.node p).pa, (s.node p).prot)).mpr ⟨p, hp, hVa, rfl⟩
      rw [hx] at hSome
      cases hSome
  | some x =>
      obtain ⟨p, hp, rfl, rfl⟩ := (hL.entries va x).mp hx
      exact Vme.pageAt_eq hL.vas hp

/-- Lists survive a step that leaves their nodes and their head alone. -/
theorem Listed.frame (hL : Listed s h t l) (hNode : ∀ p ∈ l, s'.node p = s.node p)
    (hHead : s'.vmHead h = s.vmHead h) (hUsed : ∀ p ∈ s.used, p ∈ s'.used) :
    Listed s' h t l where
  chain := by
    rw [hHead]
    apply hL.chain.congr
    intro q hq
    show (s'.node q).next = (s.node q).next
    rw [hNode q hq]
  used := fun p hp => hUsed p (hL.used p hp)
  user := by
    intro p hp
    rw [hNode p hp]
    exact hL.user p hp
  vas := by
    have hMap : l.map (fun p => (s'.node p).va) = l.map fun p => (s.node p).va := by
      apply List.map_congr_left
      intro p hp
      rw [hNode p hp]
    rw [hMap]
    exact hL.vas
  entries := by
    intro va x
    rw [hL.entries]
    constructor
    · rintro ⟨p, hp, hx⟩
      exact ⟨p, hp, by rw [hNode p hp]; exact hx⟩
    · rintro ⟨p, hp, hx⟩
      rw [hNode p hp] at hx
      exact ⟨p, hp, hx⟩
  hash := by
    intro k p
    rw [hHead, hL.hash]
    constructor
    · rintro ⟨hp, hx⟩
      exact ⟨hp, by rw [hNode p hp]; exact hx⟩
    · rintro ⟨hp, hx⟩
      rw [hNode p hp] at hx
      exact ⟨hp, hx⟩
  nrPage := by rw [hHead, hL.nrPage]

/-- Flags are not part of a list. -/
theorem Listed.flags (hL : Listed s h t l) (hSame : SameLists s s') : Listed s' h t l where
  chain := by
    rw [hSame.vmHead, hSame.next]
    exact hL.chain
  used := by
    rw [hSame.used]
    exact hL.used
  user := by
    simp only [hSame.va]
    exact hL.user
  vas := by
    simp only [hSame.va]
    exact hL.vas
  entries := by
    have hFields : ∀ p, (s'.node p).pa = (s.node p).pa ∧
        (s'.node p).prot = (s.node p).prot := by
      intro p
      rw [hSame.node p]
      simp
    simp only [hSame.va, hFields]
    exact hL.entries
  hash := by
    simp only [hSame.va, hSame.vmHead]
    exact hL.hash
  nrPage := by
    rw [hSame.vmHead]
    exact hL.nrPage

/-! ## The three steps -/

theorem Consistent.protect {as h : Nat} (hC : Consistent m) {vm : VM}
    (hP : Protected m.vm vm as h) :
    Consistent { vm := vm, heads := h :: m.heads,
                 table := Function.update m.table h fun _ => none } := by
  have hNew : h ∉ m.heads := fun hIn => hP.fresh (hC.head h hIn).2
  have hNe : ∀ k ∈ m.heads, k ≠ h := by
    rintro k hk rfl
    exact hNew hk
  have hOld : ∀ k ∈ m.heads, Listed vm k (m.table k) (nodesOf m.vm k) := by
    intro k hk
    apply (hC.listed k hk).frame
    · intro p _
      rw [hP.node]
    · rw [hP.vmHead, Function.update_of_ne (hNe k hk)]
    · intro p hp
      rw [hP.used]
      exact List.mem_cons_of_mem h hp
  have hNodes : ∀ k ∈ m.heads, nodesOf vm k = nodesOf m.vm k :=
    fun k hk => (hOld k hk).nodesOf_eq (hC.head k hk).1
  have hEmpty : nodesOf vm h = [] := hP.listed.nodesOf_eq hP.head
  have hCur : (vm.cpu 0).vmHead ≠ h := by
    rw [hP.cpu]
    rcases hC.current with hZero | hIn
    · rw [hZero]
      exact hP.head.symm
    · exact hNe _ hIn
  exact
    { vmeEnable := hP.vmeEnable.trans hC.vmeEnable
      listed := by
        intro k hk
        rcases List.mem_cons.mp hk with rfl | hk
        · show Listed vm k (Function.update m.table k (fun _ => none) k) (nodesOf vm k)
          rw [Function.update_self, hEmpty]
          exact hP.listed
        · show Listed vm k (Function.update m.table h (fun _ => none) k) (nodesOf vm k)
          rw [Function.update_of_ne (hNe k hk), hNodes k hk]
          exact hOld k hk
      head := by
        intro k hk
        show k ≠ 0 ∧ k ∈ vm.used
        rw [hP.used]
        rcases List.mem_cons.mp hk with rfl | hk
        · exact ⟨hP.head, by simp⟩
        · exact ⟨(hC.head k hk).1, List.mem_cons_of_mem h (hC.head k hk).2⟩
      apart := by
        intro k hk k' hk' p hp hp'
        rcases List.mem_cons.mp hk with rfl | hk
        · rw [show nodesOf vm k = [] from hEmpty] at hp
          exact absurd hp List.not_mem_nil
        · rcases List.mem_cons.mp hk' with rfl | hk'
          · rw [show nodesOf vm k' = [] from hEmpty] at hp'
            exact absurd hp' List.not_mem_nil
          · rw [show nodesOf vm k = nodesOf m.vm k from hNodes k hk] at hp
            rw [show nodesOf vm k' = nodesOf m.vm k' from hNodes k' hk'] at hp'
            exact hC.apart k hk k' hk' p hp hp'
      current := by
        show (vm.cpu 0).vmHead = 0 ∨ (vm.cpu 0).vmHead ∈ h :: m.heads
        rw [hP.cpu]
        exact hC.current.imp id fun hIn => List.mem_cons_of_mem h hIn
      host := by
        intro va
        show (vm.cpu 0).host va = if (vm.cpu 0).vmHead = 0 then none
          else (Function.update m.table h (fun _ => none) (vm.cpu 0).vmHead va).map _
        rw [Function.update_of_ne hCur, hP.cpu]
        exact hC.host va
      flag := by
        intro k hk p hp
        show (vm.node p).isMapped = decide (k = (vm.cpu 0).vmHead)
        rcases List.mem_cons.mp hk with rfl | hk
        · rw [show nodesOf vm k = [] from hEmpty] at hp
          exact absurd hp List.not_mem_nil
        · rw [show nodesOf vm k = nodesOf m.vm k from hNodes k hk] at hp
          rw [hP.node, hP.cpu]
          exact hC.flag k hk p hp }

theorem Consistent.map {as va pa p : Nat} {prot : BitVec 32} (hC : Consistent m) {vm : VM}
    (hIn : m.vm.ptr as ∈ m.heads) (hNone : m.table (m.vm.ptr as) va = none)
    (hP : Pushed m.vm vm 0 (m.vm.ptr as) va pa prot p) :
    Consistent { m with
      vm := vm
      table := Function.update m.table (m.vm.ptr as)
        (Function.update (m.table (m.vm.ptr as)) va (some (pa, prot))) } := by
  generalize m.vm.ptr as = h at *
  have hL := hC.listed h hIn
  have hh := (hC.head h hIn).1
  obtain ⟨_, hFresh, hUsed, _⟩ := hL.new hP hNone
  have hPush := hL.push hP hNone
  have hHere : nodesOf vm h = p :: nodesOf m.vm h := hPush.nodesOf_eq hh
  have hNotIn : ∀ k ∈ m.heads, p ∉ nodesOf m.vm k :=
    fun k hk hp => hFresh ((hC.listed k hk).used p hp)
  have hNode : ∀ k ∈ m.heads, ∀ q ∈ nodesOf m.vm k, vm.node q = m.vm.node q := by
    intro k hk q hq
    apply hP.node_ne
    rintro rfl
    exact hNotIn k hk hq
  have hOld : ∀ k ∈ m.heads, k ≠ h → Listed vm k (m.table k) (nodesOf m.vm k) := by
    intro k hk hNe
    apply (hC.listed k hk).frame (hNode k hk) (hP.head_ne k hNe)
    intro q hq
    rw [hUsed]
    exact List.mem_cons_of_mem p hq
  have hNodes : ∀ k ∈ m.heads, k ≠ h → nodesOf vm k = nodesOf m.vm k :=
    fun k hk hNe => (hOld k hk hNe).nodesOf_eq (hC.head k hk).1
  -- the nodes of any address space: its old ones, and `p` in `h`
  have hMem : ∀ k ∈ m.heads, ∀ q, q ∈ nodesOf vm k ↔
      q ∈ nodesOf m.vm k ∨ k = h ∧ q = p := by
    intro k hk q
    by_cases hkh : k = h
    · subst hkh
      rw [hHere, List.mem_cons]
      simp [or_comm]
    · rw [hNodes k hk hkh]
      simp [hkh]
  exact
    { vmeEnable := hP.vmeEnable.trans hC.vmeEnable
      listed := by
        intro k hk
        show Listed vm k (Function.update m.table h _ k) (nodesOf vm k)
        by_cases hkh : k = h
        · subst hkh
          rw [Function.update_self, hHere]
          exact hPush
        · rw [Function.update_of_ne hkh, hNodes k hk hkh]
          exact hOld k hk hkh
      head := by
        intro k hk
        show k ≠ 0 ∧ k ∈ vm.used
        rw [hUsed]
        exact ⟨(hC.head k hk).1, List.mem_cons_of_mem p (hC.head k hk).2⟩
      apart := by
        intro k hk k' hk' q hq hq'
        rcases (hMem k hk q).mp hq with hOld₁ | ⟨hkh, hqp⟩
        · rcases (hMem k' hk' q).mp hq' with hOld₂ | ⟨_, hqp⟩
          · exact hC.apart k hk k' hk' q hOld₁ hOld₂
          · exact absurd (hqp ▸ hOld₁) (hNotIn k hk)
        · rcases (hMem k' hk' q).mp hq' with hOld₂ | ⟨hkh', _⟩
          · exact absurd (hqp ▸ hOld₂) (hNotIn k' hk')
          · rw [hkh, hkh']
      current := by
        show (vm.cpu 0).vmHead = 0 ∨ (vm.cpu 0).vmHead ∈ m.heads
        rw [hP.current]
        exact hC.current
      host := by
        intro va'
        show (vm.cpu 0).host va' = if (vm.cpu 0).vmHead = 0 then none
          else (Function.update m.table h _ (vm.cpu 0).vmHead va').map _
        rw [hP.host, hP.current]
        by_cases hNow : h = (m.vm.cpu 0).vmHead
        · rw [if_pos ⟨rfl, hNow⟩, ← hNow, if_neg hh, Function.update_self]
          by_cases hva : va' = va
          · subst hva
            rw [Function.update_self, Function.update_self]
            rfl
          · rw [Function.update_of_ne hva, Function.update_of_ne hva, hC.host, hostPages,
              ← hNow, if_neg hh]
        · rw [if_neg (fun hBoth => hNow hBoth.2), Function.update_of_ne (Ne.symm hNow)]
          exact hC.host va'
      flag := by
        intro k hk q hq
        show (vm.node q).isMapped = decide (k = (vm.cpu 0).vmHead)
        rw [hP.current]
        rcases (hMem k hk q).mp hq with hq | ⟨rfl, rfl⟩
        · rw [hNode k hk q hq]
          exact hC.flag k hk q hq
        · exact hP.node_mapped }

theorem Consistent.switch {head : Nat} (hC : Consistent m) {vm : VM}
    (hTarget : head = 0 ∨ head ∈ m.heads) (hW : Switched m.vm vm 0 head) :
    Consistent { m with vm := vm } := by
  have hNodes : ∀ k, nodesOf vm k = nodesOf m.vm k := hW.same.nodesOf
  exact
    { vmeEnable := hW.same.vmeEnable.trans hC.vmeEnable
      listed := by
        intro k hk
        show Listed vm k (m.table k) (nodesOf vm k)
        rw [hNodes]
        exact (hC.listed k hk).flags hW.same
      head := by
        intro k hk
        show k ≠ 0 ∧ k ∈ vm.used
        rw [hW.same.used]
        exact hC.head k hk
      apart := by
        intro k hk k' hk' p hp hp'
        rw [show nodesOf vm k = nodesOf m.vm k from hNodes k] at hp
        rw [show nodesOf vm k' = nodesOf m.vm k' from hNodes k'] at hp'
        exact hC.apart k hk k' hk' p hp hp'
      current := by
        show (vm.cpu 0).vmHead = 0 ∨ (vm.cpu 0).vmHead ∈ m.heads
        rw [hW.current]
        exact hTarget
      host := by
        intro va
        show (vm.cpu 0).host va = hostPages m (vm.cpu 0).vmHead va
        rw [hW.current]
        by_cases hSame : head = (m.vm.cpu 0).vmHead
        · rw [(hW.stay hSame).2, hC.host, hSame]
        · have hOld : (if ∃ p ∈ nodesOf m.vm (m.vm.cpu 0).vmHead,
              (m.vm.node p).va = va ∧ (m.vm.node p).isMapped = true then none
              else (m.vm.cpu 0).host va) = none := by
            split
            · rfl
            · rename_i hNot
              rw [hC.host, hostPages]
              rcases hC.current with hZero | hCur
              · rw [if_pos hZero]
              · rw [if_neg (hC.head _ hCur).1, ← (hC.listed _ hCur).pageAt_eq, pageAt_none]
                intro p hp hVa
                apply hNot
                exact ⟨p, hp, hVa, by rw [hC.flag _ hCur p hp]; simp⟩
          rw [hW.host hSame, hOld, Option.or_none]
          rcases hTarget with hZero | hIn
          · rw [hZero, nodesOf_zero]
            rfl
          · rw [(hC.listed head hIn).pageAt_eq, hostPages, if_neg (hC.head head hIn).1]
      flag := by
        intro k hk p hp
        show (vm.node p).isMapped = decide (k = (vm.cpu 0).vmHead)
        rw [show nodesOf vm k = nodesOf m.vm k from hNodes k] at hp
        rw [hW.current]
        by_cases hSame : head = (m.vm.cpu 0).vmHead
        · rw [(hW.stay hSame).1, hSame]
          exact hC.flag k hk p hp
        · rw [hW.flag hSame, hC.flag k hk p hp]
          by_cases hk' : k = head
          · subst hk'
            simp [hp]
          · have hNotIn : p ∉ nodesOf m.vm head := by
              intro hIn
              rcases hTarget with hZero | hHead
              · rw [hZero, nodesOf_zero] at hIn
                exact List.not_mem_nil hIn
              · exact hk' (hC.apart k hk head hHead p hp hIn)
            by_cases hNow : k = (m.vm.cpu 0).vmHead
            · simp [← hNow, hp, hNotIn, hk']
            · simp [hNow, hNotIn, hk'] }

private theorem step_eq_some {op : Op} :
    step env m op = some m' ↔
      ∃ vm, (call env m op).run m.vm = .ok ((), vm) ∧ m' = m.after vm op := by
  unfold step
  constructor
  · intro hStep
    split at hStep
    · rename_i vm hCall
      cases hStep
      exact ⟨vm, hCall, rfl⟩
    · cases hStep
  · rintro ⟨vm, hCall, rfl⟩
    rw [hCall]

/-- One step keeps the invariant. -/
theorem Consistent.step {op : Op} (hC : Consistent m) (hStep : step env m op = some m') :
    Consistent m' := by
  obtain ⟨vm, hCall, rfl⟩ := step_eq_some.mp hStep
  cases op with
  | protect as =>
      obtain ⟨h, hP⟩ := protect_ok hCall
      have hPtr : vm.ptr as = h := by rw [hP.ptr, Function.update_self]
      have hNext := hC.protect hP
      rw [← hPtr] at hNext
      exact hNext
  | map as va pa prot =>
      rw [call] at hCall
      by_cases hMay : m.vm.ptr as ∈ m.heads ∧ m.table (m.vm.ptr as) va = none
      · rw [if_pos hMay] at hCall
        obtain ⟨_, p, hP⟩ := map_ok hCall
        exact hC.map hMay.1 hMay.2 hP
      · rw [if_neg hMay] at hCall
        exact absurd hCall throw_ne_ok
  | switch head =>
      rw [call] at hCall
      by_cases hMay : head = 0 ∨ head ∈ m.heads
      · have hWf : ∀ h, h = 0 ∨ h ∈ m.heads → WellFormed m.vm h := by
          intro h hh
          rcases hh with rfl | hh
          · exact ⟨by simp, by simp [nodesOf], by simp [nodesOf]⟩
          · exact (hC.listed h hh).wellFormed (hC.head h hh).1
        obtain ⟨s', hRun, hW⟩ := amSwitch_runs 0 hC.vmeEnable (hWf _ hC.current)
          (hWf head hMay)
        rw [if_pos hMay, hRun] at hCall
        cases hCall
        exact hC.switch hMay hW
      · rw [if_neg hMay] at hCall
        exact absurd hCall throw_ne_ok

theorem Started.consistent (hS : Started m) : Consistent m := by
  obtain ⟨s, hRun, hCpu, hHeads, hTable⟩ := hS
  have hVm := modify_eq_ok.mp hRun
  have hNone : ∀ h, h ∉ m.heads := by
    intro h hIn
    rw [hHeads] at hIn
    exact List.not_mem_nil hIn
  have hCpu' : m.vm.cpu 0 = { vmHead := 0, host := fun _ => none } := by
    rw [hVm]
    exact hCpu
  exact
    { vmeEnable := by rw [hVm]
      listed := fun h hIn => absurd hIn (hNone h)
      head := fun h hIn => absurd hIn (hNone h)
      apart := fun h hIn => absurd hIn (hNone h)
      current := by
        rw [hCpu']
        exact Or.inl rfl
      host := by
        intro va
        rw [hCpu']
        rfl
      flag := fun h hIn => absurd hIn (hNone h) }

end

/--
**The host mapping follows the current address space.**  After every step of
a single CPU, the pages mapped in the user space are those mapped so far in
the address space `thiscpu->vm_head`, with their physical pages and
protections, and none when it is `NULL`; the list of every address space ends,
and its nodes are flagged if and only if the address space is the current one.
-/
theorem host_follows (env : Env) (m : Machine) (hReach : (system env).Reachable m) :
    (∀ va, (m.vm.cpu 0).host va = hostPages m (m.vm.cpu 0).vmHead va) ∧
    ∀ h ∈ m.heads, ∃ l, Chain m.vm.next (m.vm.vmHead h).head l ∧
      ∀ p ∈ l, ((m.vm.node p).isMapped = true ↔ h = (m.vm.cpu 0).vmHead) := by
  have hC : Consistent m := by
    apply hReach.inv (fun m hInit => Started.consistent hInit)
    intro m op m' hC hNext
    exact hC.step hNext
  refine ⟨hC.host, ?_⟩
  intro h hh
  refine ⟨nodesOf m.vm h, (hC.listed h hh).chain, ?_⟩
  intro p hp
  rw [hC.flag h hh p hp]
  simp

/-- Two address spaces with a page each; the kernel enters the first one, maps
another page there and moves on to the second. -/
theorem host_follows_two :
    ∃ m, (system smallPages).Reachable m ∧ (m.vm.cpu 0).vmHead ≠ 0 ∧
      ∀ va, (m.vm.cpu 0).host va = hostPages m (m.vm.cpu 0).vmHead va := by
  have hRuns : ((system smallPages).steps
      { vm := freshVM, heads := [], table := fun _ _ => none }
      [ .protect 8, .protect 16
      , .map 8 0x40000000 0x3000000 mmapRead
      , .map 16 0x40000000 0x3001000 mmapWrite
      , .switch 0x2000000
      , .map 8 0x40001000 0x3002000 mmapWrite
      , .switch 0x2001000 ]).any
        (fun m => decide ((m.vm.cpu 0).vmHead ≠ 0)) = true := by
    decide +kernel
  obtain ⟨m, hSteps, hCur⟩ := (Option.any_eq_true _ _).mp hRuns
  have hReach : (system smallPages).Reachable m :=
    ⟨_, ⟨freshVM, rfl, rfl, rfl, rfl⟩, System.steps_run _ _ hSteps⟩
  exact ⟨m, hReach, of_decide_eq_true hCur, (host_follows smallPages m hReach).1⟩

end AbstractMachine.Native.Vme
