import AbstractMachine.Native.Vme.Model

/-!
# The page lists of native

`map` finds or allocates a node, fills it in and pushes it on the list of the
address space.  A node that is allocated is new to the list, so the list grows
by one page.  A node that is found is in the list already and is pushed again
without being taken out first: the list becomes a cycle, and no later call
repairs it.
-/

namespace AbstractMachine.Native.Vme

open AbstractMachine.Lib

/-! ## Keys -/

private theorem digitChar_inj : ∀ m < 16, ∀ n < 16, Nat.digitChar m = Nat.digitChar n → m = n := by
  decide

private theorem toDigits_inj : ∀ m n : Nat, Nat.toDigits 16 m = Nat.toDigits 16 n → m = n := by
  intro m
  induction m using Nat.strongRecOn with
  | ind m ih =>
      intro n h
      rw [Nat.toDigits_eq_if (by decide), Nat.toDigits_eq_if (b := 16) (n := n) (by decide)] at h
      have hLast : ∀ k : Nat, Nat.toDigits 16 k ≠ [] := fun k => Nat.toDigits_ne_nil
      split at h
      · split at h
        · exact digitChar_inj m (by omega) n (by omega) (by simpa using h)
        · have hLen := congrArg List.length h
          have hPos := List.length_pos_iff.mpr (hLast (n / 16))
          rw [List.length_append, List.length_singleton, List.length_singleton] at hLen
          omega
      · split at h
        · have hLen := congrArg List.length h
          have hPos := List.length_pos_iff.mpr (hLast (m / 16))
          rw [List.length_append, List.length_singleton, List.length_singleton] at hLen
          omega
        · have hParts := List.append_inj' h (by simp)
          have hDiv := ih (m / 16) (by omega) (n / 16) hParts.1
          have hMod := digitChar_inj (m % 16) (by omega) (n % 16) (by omega)
            (by simpa using hParts.2)
          omega

/-- The user space lies below 4 GiB, so `%x` prints its addresses in full. -/
theorem key_inj {va va' : Nat} (h : inUserSpace va = true) (h' : inUserSpace va' = true)
    (hKey : key va = key va') : va = va' := by
  simp only [inUserSpace, Bool.and_eq_true, decide_eq_true_eq] at h h'
  have hDigits := toDigits_inj (va % 2 ^ 32) (va' % 2 ^ 32)
    (by simpa [key] using congrArg String.toList hKey)
  omega

/-! ## What one call does -/

section

variable {env : Env} {s s' : VM} {cpu as va pa : Nat} {prot : BitVec 32}

theorem assert_ok {cond : Bool} {s s' : VM} {u : Unit}
    (h : (assert cond).run s = .ok (u, s')) : cond = true ∧ s = s' := by
  unfold assert at h
  cases cond with
  | true => exact ⟨rfl, (pure_eq_ok.mp h).2⟩
  | false => exact absurd h throw_ne_ok

/-- A program goes on after an assertion that holds. -/
theorem assert_bind_ok {α : Type} {cond : Bool} {f : Unit → Vm α} {a : α}
    (h : (assert cond >>= f).run s = .ok (a, s')) : cond = true ∧ (f ()).run s = .ok (a, s') := by
  obtain ⟨_, t, hAssert, hNext⟩ := bind_eq_ok.mp h
  obtain ⟨hCond, rfl⟩ := assert_ok hAssert
  exact ⟨hCond, hNext⟩

theorem pgalloc_ok {p : Nat} (h : (pgalloc env).run s = .ok (p, s')) :
    s'.node = s.node ∧ s'.vmHead = s.vmHead ∧ s'.ptr = s.ptr ∧ s'.cpu = s.cpu ∧
      s'.vmeEnable = s.vmeEnable ∧ (p ≠ 0 → p ∉ s.used ∧ s'.used = p :: s.used) := by
  rw [pgalloc, bind_eq_ok] at h
  obtain ⟨t, t', hGet, h⟩ := h
  obtain ⟨rfl, rfl⟩ := get_eq_ok.mp hGet
  dsimp only at h
  split at h
  · cases h
    simp
  · split at h
    · rename_i hFresh
      cases h
      simp [hFresh]
    · exact absurd h throw_ne_ok

/-- A call of `map` that pushed the node `p` on the list of `h`. -/
structure Pushed (s s' : VM) (cpu h va pa : Nat) (prot : BitVec 32) (p : Nat) : Prop where
  user : inUserSpace va = true
  node_va : (s'.node p).va = va
  node_pa : (s'.node p).pa = pa
  node_prot : (s'.node p).prot = prot
  node_next : (s'.node p).next = (s.vmHead h).head
  node_mapped : (s'.node p).isMapped = decide (h = (s.cpu cpu).vmHead)
  node_ne : ∀ q, q ≠ p → s'.node q = s.node q
  head : (s'.vmHead h).head = p
  head_ne : ∀ h', h' ≠ h → s'.vmHead h' = s.vmHead h'
  hash : (s'.vmHead h).hash = Function.update (s.vmHead h).hash (key va) (some p)
  ptr : s'.ptr = s.ptr
  vmeEnable : s'.vmeEnable = s.vmeEnable
  current : ∀ c, (s'.cpu c).vmHead = (s.cpu c).vmHead
  host : ∀ c, (s'.cpu c).host = if c = cpu ∧ h = (s.cpu cpu).vmHead
    then Function.update (s.cpu c).host va (some (hostPage pa prot)) else (s.cpu c).host
  /-- The node was found, or it is new. -/
  kind : (s.vmHead h).hash (key va) = some p ∧ s'.used = s.used ∧
      (s'.vmHead h).nrPage = (s.vmHead h).nrPage ∨
    (s.vmHead h).hash (key va) = none ∧ p ≠ 0 ∧ p ∉ s.used ∧ s'.used = p :: s.used ∧
      (s'.vmHead h).nrPage = (s.vmHead h).nrPage + 1

/-- What `findNode` leaves behind. -/
structure Found (s t : VM) (h va p : Nat) : Prop where
  node_ne : ∀ q, q ≠ p → t.node q = s.node q
  head : (t.vmHead h).head = (s.vmHead h).head
  head_ne : ∀ h', h' ≠ h → t.vmHead h' = s.vmHead h'
  hash : (t.vmHead h).hash = Function.update (s.vmHead h).hash (key va) (some p)
  ptr : t.ptr = s.ptr
  vmeEnable : t.vmeEnable = s.vmeEnable
  cpu : t.cpu = s.cpu
  kind : (s.vmHead h).hash (key va) = some p ∧ t.used = s.used ∧
      (t.vmHead h).nrPage = (s.vmHead h).nrPage ∨
    (s.vmHead h).hash (key va) = none ∧ p ≠ 0 ∧ p ∉ s.used ∧ t.used = p :: s.used ∧
      (t.vmHead h).nrPage = (s.vmHead h).nrPage + 1

/-- The node is the one of the key, or a new one that gets it. -/
theorem findNodeWith_ran {h p : Nat} {k : String}
    (hRun : (findNodeWith env (pure k) (pure k) h).run s = .ok (p, s')) :
    (s.vmHead h).hash k = some p ∧ s' = s ∨
      (s.vmHead h).hash k = none ∧ p ≠ 0 ∧ ∃ t, (pgalloc env).run s = .ok (p, t) ∧
        s' = (t.setNode p { t.node p with key := k }).setHead h
          { t.vmHead h with
            hash := Function.update (t.vmHead h).hash k (some p)
            nrPage := (t.vmHead h).nrPage + 1 } := by
  rw [findNodeWith, pure_bind, bind_eq_ok] at hRun
  obtain ⟨t, t', hGet, hRun⟩ := hRun
  obtain ⟨rfl, rfl⟩ := get_eq_ok.mp hGet
  dsimp only at hRun
  cases hHash : (s.vmHead h).hash k with
  | some q =>
      rw [hHash] at hRun
      obtain ⟨rfl, rfl⟩ := pure_eq_ok.mp hRun
      exact Or.inl ⟨rfl, rfl⟩
  | none =>
      rw [hHash] at hRun
      dsimp only at hRun
      rw [bind_eq_ok] at hRun
      obtain ⟨q, t, hAlloc, hRun⟩ := hRun
      by_cases hq : q = 0
      · rw [if_pos hq] at hRun
        cases hRun
      · rw [if_neg hq] at hRun
        cases hRun
        exact Or.inr ⟨rfl, hq, t, hAlloc, rfl⟩

private theorem findNode_ok {h p : Nat} (hRun : (findNode env h va).run s = .ok (p, s')) :
    Found s s' h va p := by
  rw [findNode_eq] at hRun
  rcases findNodeWith_ran hRun with ⟨hHash, rfl⟩ | ⟨hHash, hp, t, hAlloc, rfl⟩
  · have hSame : (s'.vmHead h).hash =
        Function.update (s'.vmHead h).hash (key va) (some p) := by
      rw [← hHash, Function.update_eq_self]
    exact
      { node_ne := fun _ _ => rfl
        head := rfl
        head_ne := fun _ _ => rfl
        hash := hSame
        ptr := rfl
        vmeEnable := rfl
        cpu := rfl
        kind := Or.inl ⟨hHash, rfl, rfl⟩ }
  · obtain ⟨hNode, hHead, hPtr, hCpu, hEnable, hFresh⟩ := pgalloc_ok hAlloc
    obtain ⟨hNew, hUsed⟩ := hFresh hp
    exact
      { node_ne := by
          intro r hr
          show Function.update t.node p _ r = s.node r
          rw [Function.update_of_ne hr, hNode]
        head := by simp [hHead]
        head_ne := by
          intro h' hNe
          show Function.update t.vmHead h _ h' = s.vmHead h'
          rw [Function.update_of_ne hNe, hHead]
        hash := by simp [hHead]
        ptr := hPtr
        vmeEnable := hEnable
        cpu := hCpu
        kind := Or.inr ⟨hHash, hp, hNew, hUsed, by simp [hHead]⟩ }

/-- The address space is current: the page is mapped at once. -/
theorem Found.enforce {t : VM} {h p : Nat} (hFound : Found s t h va p)
    (hUser : inUserSpace va = true) (hNow : h = (s.cpu cpu).vmHead) :
    Pushed s (((t.push h p va pa prot).setHost cpu va
      (some (hostPage pa prot))).setMapped p true) cpu h va pa prot p where
  user := hUser
  node_va := by simp
  node_pa := by simp
  node_prot := by simp
  node_next := by simp [hFound.head]
  node_mapped := by simp [← hNow]
  node_ne := by
    intro q hq
    simp [hq, hFound.node_ne q hq]
  head := by simp
  head_ne := by
    intro h' hNe
    simp [hNe, hFound.head_ne h' hNe]
  hash := by simp [hFound.hash]
  ptr := hFound.ptr
  vmeEnable := hFound.vmeEnable
  current := by
    intro c
    by_cases hc : c = cpu
    · subst hc
      simp [hFound.cpu]
    · simp [hc, hFound.cpu]
  host := by
    intro c
    by_cases hc : c = cpu
    · subst hc
      simp [hFound.cpu, ← hNow]
    · simp [hc, hFound.cpu]
  kind := by simpa using hFound.kind

/-- The address space is not current: the host mapping stays as it is. -/
theorem Found.defer {t : VM} {h p : Nat} (hFound : Found s t h va p)
    (hUser : inUserSpace va = true) (hNow : h ≠ (s.cpu cpu).vmHead) :
    Pushed s (t.push h p va pa prot) cpu h va pa prot p where
  user := hUser
  node_va := by simp
  node_pa := by simp
  node_prot := by simp
  node_next := by simp [hFound.head]
  node_mapped := by simp [hNow]
  node_ne := by
    intro q hq
    simp [hq, hFound.node_ne q hq]
  head := by simp
  head_ne := by
    intro h' hNe
    simp [hNe, hFound.head_ne h' hNe]
  hash := by simp [hFound.hash]
  ptr := hFound.ptr
  vmeEnable := hFound.vmeEnable
  current := by
    intro c
    simp [hFound.cpu]
  host := by
    intro c
    simp [hFound.cpu, hNow]
  kind := by simpa using hFound.kind

/-- A call finds a node, fills it in, and maps the page if the address space is current. -/
theorem mapWith_ran {find enter : Vm String} {u : Unit}
    (hRun : (mapWith env find enter cpu as va pa prot).run s = .ok (u, s')) :
    inUserSpace va = true ∧ s.ptr as ≠ 0 ∧ ∃ p t,
      (findNodeWith env find enter (s.ptr as)).run s = .ok (p, t) ∧
        s' =
          if s.ptr as = (t.cpu cpu).vmHead then
            ((t.push (s.ptr as) p va pa prot).setHost cpu va
              (some (hostPage pa prot))).setMapped p true
          else t.push (s.ptr as) p va pa prot := by
  rw [mapWith] at hRun
  obtain ⟨hUser, hRun⟩ := assert_bind_ok hRun
  obtain ⟨-, hRun⟩ := assert_bind_ok hRun
  obtain ⟨-, hRun⟩ := assert_bind_ok hRun
  obtain ⟨-, hRun⟩ := assert_bind_ok hRun
  rw [bind_eq_ok] at hRun
  obtain ⟨t, t', hGet, hRun⟩ := hRun
  obtain ⟨rfl, rfl⟩ := get_eq_ok.mp hGet
  dsimp only at hRun
  obtain ⟨hHead, hRun⟩ := assert_bind_ok hRun
  rw [bind_eq_ok] at hRun
  obtain ⟨p, t, hFind, hRun⟩ := hRun
  rw [bind_eq_ok] at hRun
  obtain ⟨_, t', hPush, hRun⟩ := hRun
  rw [bind_eq_ok] at hRun
  obtain ⟨t'', _, hGet, hRun⟩ := hRun
  obtain ⟨rfl, rfl⟩ := get_eq_ok.mp hGet
  have ht' := modify_eq_ok.mp hPush
  subst ht'
  refine ⟨hUser, by simpa using hHead, p, t, hFind, ?_⟩
  have hCurrent : ((t.push (s.ptr as) p va pa prot).cpu cpu).vmHead = (t.cpu cpu).vmHead := rfl
  rw [hCurrent] at hRun
  by_cases hNow : s.ptr as = (t.cpu cpu).vmHead
  · rw [if_pos hNow] at hRun ⊢
    cases hRun
    rfl
  · rw [if_neg hNow] at hRun ⊢
    cases hRun
    rfl

/-- **`map` specification.** -/
theorem map_ok {u : Unit} (hRun : (map env cpu as va pa prot).run s = .ok (u, s')) :
    s.ptr as ≠ 0 ∧ ∃ p, Pushed s s' cpu (s.ptr as) va pa prot p := by
  rw [map_eq] at hRun
  obtain ⟨hUser, hHead, p, t, hFind, rfl⟩ := mapWith_ran hRun
  have hFound : Found s t (s.ptr as) va p := findNode_ok hFind
  refine ⟨hHead, p, ?_⟩
  rw [hFound.cpu]
  by_cases hNow : s.ptr as = (s.cpu cpu).vmHead
  · rw [if_pos hNow]
    exact hFound.enforce hUser hNow
  · rw [if_neg hNow]
    exact hFound.defer hUser hNow

/-- A new address space: one page was handed out for its `VMHead`. -/
structure Protected (s s' : VM) (as h : Nat) : Prop where
  head : h ≠ 0
  fresh : h ∉ s.used
  used : s'.used = h :: s.used
  node : s'.node = s.node
  vmHead : s'.vmHead = Function.update s.vmHead h { head := 0, hash := fun _ => none, nrPage := 0 }
  ptr : s'.ptr = Function.update s.ptr as h
  vmeEnable : s'.vmeEnable = s.vmeEnable
  cpu : s'.cpu = s.cpu

/-- **`protect` specification.** -/
theorem protect_ok {u : Unit} (hRun : (protect env as).run s = .ok (u, s')) :
    ∃ h, Protected s s' as h := by
  rw [protect] at hRun
  obtain ⟨-, hRun⟩ := assert_bind_ok hRun
  rw [bind_eq_ok] at hRun
  obtain ⟨h, t, hAlloc, hRun⟩ := hRun
  obtain ⟨hNode, hHead, hPtr, hCpu, hEnable, hFresh⟩ := pgalloc_ok hAlloc
  obtain ⟨hNull, hRun⟩ := assert_bind_ok hRun
  have hNonzero : h ≠ 0 := by simpa using hNull
  obtain ⟨hNew, hUsed⟩ := hFresh hNonzero
  cases hRun
  exact
    ⟨h,
      { head := hNonzero
        fresh := hNew
        used := hUsed
        node := hNode
        vmHead := by simp [hHead]
        ptr := by simp [hPtr]
        vmeEnable := hEnable
        cpu := hCpu }⟩

/-! ## Well-formed lists -/

/-- What an address space maps: for each page its physical page and `prot`. -/
abbrev PageTable := Nat → Option (Nat × BitVec 32)

/-- The nodes `l` of the address space `h`: one for each page of `m`. -/
structure Listed (s : VM) (h : Nat) (m : PageTable) (l : List Nat) : Prop where
  chain : Chain s.next (s.vmHead h).head l
  used : ∀ p ∈ l, p ∈ s.used
  user : ∀ p ∈ l, inUserSpace (s.node p).va = true
  vas : (l.map fun p => (s.node p).va).Nodup
  entries : ∀ va x, m va = some x ↔
    ∃ p ∈ l, (s.node p).va = va ∧ ((s.node p).pa, (s.node p).prot) = x
  hash : ∀ k p, (s.vmHead h).hash k = some p ↔ p ∈ l ∧ key (s.node p).va = k
  nrPage : (s.vmHead h).nrPage = l.length

theorem Protected.listed {h : Nat} (hP : Protected s s' as h) :
    Listed s' h (fun _ => none) [] := by
  have hHead : s'.vmHead h = { head := 0, hash := fun _ => none, nrPage := 0 } := by
    rw [hP.vmHead, Function.update_self]
  exact
    { chain := by simp [Chain, hHead]
      used := by simp
      user := by simp
      vas := by simp
      entries := by simp
      hash := by simp [hHead]
      nrPage := by simp [hHead] }

variable {h p : Nat} {m : PageTable} {l : List Nat}

/-- A mapped page has its node in the hash table. -/
theorem Listed.lookup (hL : Listed s h m l) (hUser : inUserSpace va = true) :
    (s.vmHead h).hash (key va) = some p ↔ p ∈ l ∧ (s.node p).va = va := by
  rw [hL.hash]
  constructor
  · rintro ⟨hp, hKey⟩
    exact ⟨hp, key_inj (hL.user p hp) hUser hKey⟩
  · rintro ⟨hp, hVa⟩
    exact ⟨hp, by rw [hVa]⟩

/-- A page that is not mapped gets a new node. -/
theorem Listed.new (hL : Listed s h m l) (hP : Pushed s s' cpu h va pa prot p)
    (hNone : m va = none) :
    p ≠ 0 ∧ p ∉ s.used ∧ s'.used = p :: s.used ∧
      (s'.vmHead h).nrPage = (s.vmHead h).nrPage + 1 := by
  rcases hP.kind with ⟨hFound, _⟩ | ⟨_, hNew⟩
  · have hHere := (hL.lookup hP.user).mp hFound
    have hSome := (hL.entries va ((s.node p).pa, (s.node p).prot)).mpr
      ⟨p, hHere.1, hHere.2, rfl⟩
    rw [hNone] at hSome
    cases hSome
  · exact hNew

/-- Mapping a new page adds its node in front. -/
theorem Listed.push (hL : Listed s h m l) (hP : Pushed s s' cpu h va pa prot p)
    (hNone : m va = none) :
    Listed s' h (Function.update m va (some (pa, prot))) (p :: l) := by
  obtain ⟨hp, hFresh, hUsed, hNr⟩ := hL.new hP hNone
  have hNotIn : p ∉ l := fun hIn => hFresh (hL.used p hIn)
  have hOld : ∀ q ∈ l, s'.node q = s.node q := by
    intro q hq
    apply hP.node_ne
    rintro rfl
    exact hNotIn hq
  have hVas : ∀ q ∈ l, (s.node q).va ≠ va := by
    intro q hq hEq
    have hSome := (hL.entries va ((s.node q).pa, (s.node q).prot)).mpr ⟨q, hq, hEq, rfl⟩
    rw [hNone] at hSome
    cases hSome
  have hMap : l.map (fun q => (s'.node q).va) = l.map fun q => (s.node q).va := by
    apply List.map_congr_left
    intro q hq
    rw [hOld q hq]
  exact
    { chain := by
        rw [hP.head]
        apply hL.chain.push hp hNotIn hP.node_next
        intro q hq
        show (s'.node q).next = (s.node q).next
        rw [hP.node_ne q hq]
      used := by
        intro q hq
        rw [hUsed]
        rcases List.mem_cons.mp hq with hq | hq
        · simp [hq]
        · exact List.mem_cons_of_mem p (hL.used q hq)
      user := by
        intro q hq
        rcases List.mem_cons.mp hq with hq | hq
        · rw [hq, hP.node_va]
          exact hP.user
        · rw [hOld q hq]
          exact hL.user q hq
      vas := by
        rw [List.map_cons, List.nodup_cons, hMap, hP.node_va]
        refine ⟨?_, hL.vas⟩
        intro hIn
        obtain ⟨q, hq, hEq⟩ := List.mem_map.mp hIn
        exact hVas q hq hEq
      entries := by
        intro va' x
        by_cases hEq : va' = va
        · subst hEq
          rw [Function.update_self]
          constructor
          · intro hx
            cases hx
            exact ⟨p, by simp, hP.node_va, by rw [hP.node_pa, hP.node_prot]⟩
          · rintro ⟨q, hq, hVa, rfl⟩
            rcases List.mem_cons.mp hq with hq | hq
            · rw [hq, hP.node_pa, hP.node_prot]
            · rw [hOld q hq] at hVa
              exact absurd hVa (hVas q hq)
        · rw [Function.update_of_ne hEq, hL.entries]
          constructor
          · rintro ⟨q, hq, hVa, hx⟩
            exact ⟨q, List.mem_cons_of_mem p hq, by rw [hOld q hq]; exact ⟨hVa, hx⟩⟩
          · rintro ⟨q, hq, hVa, hx⟩
            rcases List.mem_cons.mp hq with hq | hq
            · rw [hq, hP.node_va] at hVa
              exact absurd hVa.symm hEq
            · rw [hOld q hq] at hVa hx
              exact ⟨q, hq, hVa, hx⟩
      hash := by
        intro k q
        rw [hP.hash]
        by_cases hk : k = key va
        · subst hk
          rw [Function.update_self]
          constructor
          · intro hq
            cases hq
            exact ⟨by simp, by rw [hP.node_va]⟩
          · rintro ⟨hq, hKey⟩
            rcases List.mem_cons.mp hq with hq | hq
            · rw [hq]
            · rw [hOld q hq] at hKey
              exact absurd (key_inj (hL.user q hq) hP.user hKey) (hVas q hq)
        · rw [Function.update_of_ne hk, hL.hash]
          constructor
          · rintro ⟨hq, hKey⟩
            exact ⟨List.mem_cons_of_mem p hq, by rw [hOld q hq]; exact hKey⟩
          · rintro ⟨hq, hKey⟩
            rcases List.mem_cons.mp hq with hq | hq
            · rw [hq, hP.node_va] at hKey
              exact absurd hKey.symm hk
            · rw [hOld q hq] at hKey
              exact ⟨hq, hKey⟩
      nrPage := by rw [hNr, hL.nrPage, List.length_cons] }

/-! ## Cyclic lists -/

/-- The list of `h` never ends. -/
structure Looped (s : VM) (h : Nat) : Prop where
  endless : Endless s.next (s.vmHead h).head
  nodes : ∀ k p, (s.vmHead h).hash k = some p → p ≠ 0

/-- The node that a call pushes is never null. -/
theorem Pushed.nonzero (hP : Pushed s s' cpu h va pa prot p)
    (hNodes : ∀ k p, (s.vmHead h).hash k = some p → p ≠ 0) :
    p ≠ 0 ∧ ∀ k q, (s'.vmHead h).hash k = some q → q ≠ 0 := by
  have hp : p ≠ 0 := by
    rcases hP.kind with ⟨hFound, _⟩ | ⟨_, hp, _⟩
    · exact hNodes _ p hFound
    · exact hp
  refine ⟨hp, ?_⟩
  intro k q hq
  rw [hP.hash] at hq
  by_cases hk : k = key va
  · rw [hk, Function.update_self] at hq
    cases hq
    exact hp
  · rw [Function.update_of_ne hk] at hq
    exact hNodes k q hq

theorem Looped.push (hL : Looped s h) (hP : Pushed s s' cpu h va pa prot p) :
    Looped s' h := by
  obtain ⟨hp, hNodes⟩ := hP.nonzero hL.nodes
  refine ⟨?_, hNodes⟩
  rw [hP.head]
  apply hL.endless.push hp hP.node_next
  intro q hq
  show (s'.node q).next = (s.node q).next
  rw [hP.node_ne q hq]

/-- Mapping a page again pushes a node that is in the list. -/
theorem Listed.again (hL : Listed s h m l) (hP : Pushed s s' cpu h va pa prot p)
    {x : Nat × BitVec 32} (hSome : m va = some x) : Looped s' h := by
  obtain ⟨q, hq, hVa, _⟩ := (hL.entries va x).mp hSome
  have hFound := (hL.lookup hP.user).mpr ⟨hq, hVa⟩
  have hpq : p = q := by
    rcases hP.kind with ⟨hHash, _⟩ | ⟨hHash, _⟩
    · rw [hFound] at hHash
      exact (Option.some.inj hHash).symm
    · rw [hFound] at hHash
      cases hHash
  subst hpq
  have hNodes : ∀ k r, (s.vmHead h).hash k = some r → r ≠ 0 := by
    intro k r hr h0
    rw [h0, hL.hash] at hr
    exact chain_ne_zero hL.chain hr.1
  refine ⟨?_, (hP.nonzero hNodes).2⟩
  rw [hP.head]
  apply hL.chain.endless hq hP.node_next
  intro r hr
  show (s'.node r).next = (s.node r).next
  rw [hP.node_ne r hr]

end

/-! ## Runs of calls -/

/-- The arguments of a call of `map` on CPU `cpu`, for a fixed address space. -/
structure MapCall where
  cpu : Nat
  va : Nat
  pa : Nat
  prot : BitVec 32

/-- The calls, in order. -/
def maps (env : Env) (as : Nat) (calls : List MapCall) : Vm Unit :=
  calls.forM fun c => map env c.cpu as c.va c.pa c.prot

/-- A call of `map` on the abstract table. -/
def PageTable.apply (m : PageTable) (c : MapCall) : PageTable :=
  Function.update m c.va (some (c.pa, c.prot))

/-- Each page with the arguments of the last call for it. -/
def mapped (calls : List MapCall) : PageTable :=
  calls.foldl PageTable.apply fun _ => none

/-- The list of `h` ends, and it has one node for each page of `m`. -/
def MapList (s : VM) (h : Nat) (m : PageTable) : Prop :=
  ∃ fuel l, visits s.next fuel (s.vmHead h).head = some l ∧
    (l.map fun p => (s.node p).va).Nodup ∧
    (∀ va x, m va = some x ↔
      ∃ p ∈ l, (s.node p).va = va ∧ ((s.node p).pa, (s.node p).prot) = x) ∧
    (s.vmHead h).nrPage = l.length

section

variable {env : Env} {as h : Nat}

theorem Listed.mapList {s : VM} {m : PageTable} {l : List Nat} (hL : Listed s h m l) :
    MapList s h m :=
  ⟨l.length, l, visits_of_chain hL.chain (Nat.le_refl _), hL.vas, hL.entries, hL.nrPage⟩

theorem Looped.not_mapList {s : VM} (hL : Looped s h) (m : PageTable) :
    ¬ MapList s h m := by
  rintro ⟨fuel, l, hVisits, _⟩
  exact hL.endless.not_chain l (chain_of_visits hVisits)

/-- Calls for pages that are new, each once, keep the list. -/
theorem maps_listed :
    ∀ (calls : List MapCall) (s s' : VM) (m : PageTable) (l : List Nat),
      Listed s h m l → s.ptr as = h →
      (∀ c ∈ calls, m c.va = none) → (calls.map MapCall.va).Nodup →
      (maps env as calls).run s = .ok ((), s') →
      s'.ptr as = h ∧ ∃ l', Listed s' h (calls.foldl PageTable.apply m) l' := by
  intro calls
  induction calls with
  | nil =>
      intro s s' m l hL hPtr _ _ hRun
      cases forM_nil_eq_ok.mp hRun
      exact ⟨hPtr, l, hL⟩
  | cons c calls ih =>
      intro s s' m l hL hPtr hNew hNodup hRun
      obtain ⟨t, hCall, hRest⟩ := forM_cons_eq_ok.mp hRun
      obtain ⟨_, p, hP⟩ := map_ok hCall
      rw [hPtr] at hP
      rw [List.map_cons, List.nodup_cons] at hNodup
      apply ih t s' _ _ (hL.push hP (hNew c (by simp))) (by rw [hP.ptr, hPtr]) _
        hNodup.2 hRest
      intro c' hc'
      have hNe : c'.va ≠ c.va := by
        intro hEq
        exact hNodup.1 (hEq ▸ List.mem_map_of_mem hc')
      rw [Function.update_of_ne hNe]
      exact hNew c' (by simp [hc'])

private theorem maps_looped :
    ∀ (calls : List MapCall) (s s' : VM), Looped s h → s.ptr as = h →
      (maps env as calls).run s = .ok ((), s') → s'.ptr as = h ∧ Looped s' h := by
  intro calls
  induction calls with
  | nil =>
      intro s s' hL hPtr hRun
      cases forM_nil_eq_ok.mp hRun
      exact ⟨hPtr, hL⟩
  | cons c calls ih =>
      intro s s' hL hPtr hRun
      obtain ⟨t, hCall, hRest⟩ := forM_cons_eq_ok.mp hRun
      obtain ⟨_, p, hP⟩ := map_ok hCall
      rw [hPtr] at hP
      exact ih t s' (hL.push hP) (by rw [hP.ptr, hPtr]) hRest

/-- A call for a page that is mapped already makes the list cyclic, and it
stays cyclic. -/
theorem maps_again :
    ∀ (calls : List MapCall) (s s' : VM) (m : PageTable) (l : List Nat),
      Listed s h m l → s.ptr as = h →
      ¬ ((∀ c ∈ calls, m c.va = none) ∧ (calls.map MapCall.va).Nodup) →
      (maps env as calls).run s = .ok ((), s') →
      s'.ptr as = h ∧ Looped s' h := by
  intro calls
  induction calls with
  | nil =>
      intro s s' m l _ _ hNot _
      exact absurd ⟨by simp, List.nodup_nil⟩ hNot
  | cons c calls ih =>
      intro s s' m l hL hPtr hNot hRun
      obtain ⟨t, hCall, hRest⟩ := forM_cons_eq_ok.mp hRun
      obtain ⟨_, p, hP⟩ := map_ok hCall
      rw [hPtr] at hP
      have hPtr' : t.ptr as = h := by rw [hP.ptr, hPtr]
      cases hHere : m c.va with
      | some x => exact maps_looped calls t s' (hL.again hP hHere) hPtr' hRest
      | none =>
          apply ih t s' _ _ (hL.push hP hHere) hPtr' _ hRest
          rintro ⟨hNew, hNodup⟩
          apply hNot
          -- a later call for the same page would find it in the updated table
          have hNotIn : ∀ c' ∈ calls, c'.va ≠ c.va := by
            intro c' hc' hEq
            have hNone := hNew c' hc'
            rw [hEq, Function.update_self] at hNone
            cases hNone
          constructor
          · intro c' hc'
            rcases List.mem_cons.mp hc' with rfl | hc'
            · exact hHere
            · have hNone := hNew c' hc'
              rwa [Function.update_of_ne (hNotIn c' hc')] at hNone
          · rw [List.map_cons, List.nodup_cons]
            refine ⟨?_, hNodup⟩
            intro hIn
            obtain ⟨c', hc', hEq⟩ := List.mem_map.mp hIn
            exact hNotIn c' hc' hEq

end

/--
**The page list after any calls of `map`.**  After `protect` and any accepted
calls, the list ends and has exactly one node for each page, with the
arguments of the last call for it and `nr_page` as its length, if and only if
no page was mapped twice.
-/
theorem map_list_iff (env : Env) (s₀ s₁ s₂ : VM) (as : Nat) (calls : List MapCall)
    (hProtect : (protect env as).run s₀ = .ok ((), s₁))
    (hMaps : (maps env as calls).run s₁ = .ok ((), s₂)) :
    MapList s₂ (s₂.ptr as) (mapped calls) ↔ (calls.map MapCall.va).Nodup := by
  obtain ⟨h, hP⟩ := protect_ok hProtect
  have hPtr : s₁.ptr as = h := by rw [hP.ptr, Function.update_self]
  constructor
  · intro hList
    by_contra hNodup
    have hLoop := maps_again calls s₁ s₂ _ _ hP.listed hPtr (fun hBoth => hNodup hBoth.2)
      hMaps
    rw [hLoop.1] at hList
    exact hLoop.2.not_mapList _ hList
  · intro hNodup
    obtain ⟨hPtr', l, hL⟩ := maps_listed calls s₁ s₂ _ _ hP.listed hPtr (by simp)
      hNodup hMaps
    rw [hPtr']
    exact hL.mapList

/-- A platform with 4 KiB pages. -/
def smallPages : Env where
  pgsize := 4096
  page := fun n => 0x2000000 + n * 4096

/-- The state after `vme_init`. -/
def freshVM : VM where
  node := fun _ => { va := 0, pa := 0, next := 0, prot := 0, isMapped := false, key := "" }
  vmHead := fun _ => { head := 0, hash := fun _ => none, nrPage := 0 }
  ptr := fun _ => 0
  vmeEnable := true
  cpu := fun _ => { vmHead := 0, host := fun _ => none }
  used := []
  clock := 0

/-- Two pages, one call each. -/
theorem map_list_iff_two :
    ∃ s₁ s₂, (protect smallPages 8).run freshVM = .ok ((), s₁) ∧
      (maps smallPages 8 [⟨0, 0x40000000, 0x3000000, mmapRead⟩,
        ⟨0, 0x40001000, 0x3001000, mmapWrite⟩]).run s₁ = .ok ((), s₂) ∧
      MapList s₂ (s₂.ptr 8) (mapped [⟨0, 0x40000000, 0x3000000, mmapRead⟩,
        ⟨0, 0x40001000, 0x3001000, mmapWrite⟩]) := by
  obtain ⟨_, s₂, hRun⟩ := exists_of_succeeds
    (x := do
      protect smallPages 8
      maps smallPages 8 [⟨0, 0x40000000, 0x3000000, mmapRead⟩,
        ⟨0, 0x40001000, 0x3001000, mmapWrite⟩])
    (s := freshVM) (by decide)
  obtain ⟨_, s₁, hProtect, hMaps⟩ := bind_eq_ok.mp hRun
  exact ⟨s₁, s₂, hProtect, hMaps,
    (map_list_iff smallPages freshVM s₁ s₂ 8 _ hProtect hMaps).mpr (by decide)⟩

/-- One page mapped twice: the list of the address space is a cycle. -/
theorem map_list_twice :
    ∃ s₁ s₂, (protect smallPages 8).run freshVM = .ok ((), s₁) ∧
      (maps smallPages 8 [⟨0, 0x40000000, 0x3000000, mmapRead⟩,
        ⟨0, 0x40000000, 0x3001000, mmapWrite⟩]).run s₁ = .ok ((), s₂) ∧
      ¬ MapList s₂ (s₂.ptr 8) (mapped [⟨0, 0x40000000, 0x3000000, mmapRead⟩,
        ⟨0, 0x40000000, 0x3001000, mmapWrite⟩]) := by
  obtain ⟨_, s₂, hRun⟩ := exists_of_succeeds
    (x := do
      protect smallPages 8
      maps smallPages 8 [⟨0, 0x40000000, 0x3000000, mmapRead⟩,
        ⟨0, 0x40000000, 0x3001000, mmapWrite⟩])
    (s := freshVM) (by decide)
  obtain ⟨_, s₁, hProtect, hMaps⟩ := bind_eq_ok.mp hRun
  obtain ⟨h, hP⟩ := protect_ok hProtect
  have hPtr : s₁.ptr 8 = h := by rw [hP.ptr, Function.update_self]
  obtain ⟨hPtr', hLoop⟩ := maps_again _ s₁ s₂ _ _ hP.listed hPtr
    (fun hBoth => absurd hBoth.2 (by decide)) hMaps
  refine ⟨s₁, s₂, hProtect, hMaps, ?_⟩
  rw [hPtr']
  exact hLoop.not_mapList _

end AbstractMachine.Native.Vme
