import AbstractMachine.Native.Vme.MapList

/-!
# `__am_switch` on well-formed lists

On lists that end, `__am_switch` clears the host pages of the old address
space whose nodes are flagged and sets those of the new one.  The result is
described page by page: what the new list says, otherwise nothing if a
flagged node of the old list named the page, otherwise what was there.
-/

namespace AbstractMachine.Native.Vme

open AbstractMachine.Lib

/-- The nodes of the address space `h`; the kernel (`NULL`) has none. -/
def nodesOf (s : VM) (h : Nat) : List Nat :=
  if h = 0 then [] else (visits s.next s.used.length (s.vmHead h).head).getD []

/-- The host page that the nodes `l` ask for at `va`. -/
def pageAt (s : VM) (l : List Nat) (va : Nat) : Option HostPage :=
  (l.find? fun p => (s.node p).va = va).map fun p => hostPage (s.node p).pa (s.node p).prot

/-- The list of `h` ends, and its nodes are distinct pages of the user space. -/
structure WellFormed (s : VM) (h : Nat) : Prop where
  ends : h ≠ 0 → ∃ l, visits s.next s.used.length (s.vmHead h).head = some l
  user : ∀ p ∈ nodesOf s h, inUserSpace (s.node p).va = true
  vas : ((nodesOf s h).map fun p => (s.node p).va).Nodup

section

variable {s s' t : VM} {cpu : Nat}

theorem WellFormed.chain {h : Nat} (hWf : WellFormed s h) (hh : h ≠ 0) :
    Chain s.next (s.vmHead h).head (nodesOf s h) ∧
      (nodesOf s h).length ≤ s.used.length := by
  obtain ⟨l, hl⟩ := hWf.ends hh
  have hNodes : nodesOf s h = l := by simp [nodesOf, hh, hl]
  rw [hNodes]
  exact ⟨chain_of_visits hl, visits_length hl⟩

theorem nodesOf_zero (s : VM) : nodesOf s 0 = [] := if_pos rfl

/-- The page of a node is the page its list asks for. -/
theorem pageAt_eq {l : List Nat} (hVas : (l.map fun p => (s.node p).va).Nodup) {p : Nat}
    (hp : p ∈ l) :
    pageAt s l (s.node p).va = some (hostPage (s.node p).pa (s.node p).prot) := by
  have hFind : l.find? (fun q => (s.node q).va = (s.node p).va) = some p := by
    cases hq : l.find? (fun q => (s.node q).va = (s.node p).va) with
    | none =>
        have hNone := List.find?_eq_none.mp hq p hp
        simp at hNone
    | some q =>
        have hMem := List.mem_of_find?_eq_some hq
        have hVa : (s.node q).va = (s.node p).va := by
          simpa using List.find?_some hq
        rw [List.inj_on_of_nodup_map hVas hMem hp hVa]
  rw [pageAt, hFind]
  rfl

theorem pageAt_none {l : List Nat} {va : Nat} :
    pageAt s l va = none ↔ ∀ p ∈ l, (s.node p).va ≠ va := by
  simp [pageAt, List.find?_eq_none]

/-! ## The loops -/

/-- Only flags and host pages differ. -/
structure SameLists (s s' : VM) : Prop where
  node : ∀ p, s'.node p = { s.node p with isMapped := (s'.node p).isMapped }
  vmHead : s'.vmHead = s.vmHead
  ptr : s'.ptr = s.ptr
  vmeEnable : s'.vmeEnable = s.vmeEnable
  used : s'.used = s.used

theorem SameLists.refl (s : VM) : SameLists s s :=
  ⟨fun _ => rfl, rfl, rfl, rfl, rfl⟩

theorem SameLists.trans (h : SameLists s t) (h' : SameLists t s') : SameLists s s' where
  node := by
    intro p
    rw [h'.node p, h.node p]
  vmHead := h'.vmHead.trans h.vmHead
  ptr := h'.ptr.trans h.ptr
  vmeEnable := h'.vmeEnable.trans h.vmeEnable
  used := h'.used.trans h.used

theorem SameLists.va (h : SameLists s s') (p : Nat) : (s'.node p).va = (s.node p).va := by
  rw [h.node p]

theorem SameLists.next (h : SameLists s s') : s'.next = s.next := by
  funext p
  show (s'.node p).next = (s.node p).next
  rw [h.node p]

theorem SameLists.pageAt (h : SameLists s s') (l : List Nat) (va : Nat) :
    pageAt s' l va = pageAt s l va := by
  have hPage : ∀ p, (s'.node p).va = (s.node p).va ∧ (s'.node p).pa = (s.node p).pa ∧
      (s'.node p).prot = (s.node p).prot := by
    intro p
    rw [h.node p]
    simp
  simp only [Vme.pageAt, hPage]

theorem SameLists.nodesOf (h : SameLists s s') (k : Nat) : nodesOf s' k = nodesOf s k := by
  unfold Vme.nodesOf
  rw [h.next, h.used, h.vmHead]

theorem SameLists.wellFormed (h : SameLists s s') {k : Nat} (hWf : WellFormed s k) :
    WellFormed s' k where
  ends := by
    rw [h.next, h.used, h.vmHead]
    exact hWf.ends
  user := by
    intro p hp
    rw [h.nodesOf] at hp
    rw [h.va]
    exact hWf.user p hp
  vas := by
    rw [h.nodesOf]
    simp only [h.va]
    exact hWf.vas

/-- A traversal of a list that ends is a loop over its nodes, as long as the
body leaves the links alone. -/
theorem listForeach_eq {body : Nat → Vm Unit}
    (hKeep : ∀ p t t', (body p).run t = .ok ((), t') → t'.next = t.next) :
    ∀ (l : List Nat) (fuel p : Nat) (s : VM), Chain s.next p l → l.length ≤ fuel →
      (listForeach body fuel p).run s = (l.forM body).run s := by
  intro l
  induction l with
  | nil =>
      intro fuel p s hChain _
      have hp : p = 0 := hChain
      unfold listForeach
      simp [hp]
  | cons q l ih =>
      intro fuel p s hChain hLen
      have hpq : p = q := hChain.1
      subst hpq
      cases fuel with
      | zero => simp at hLen
      | succ fuel =>
          unfold listForeach
          rw [if_neg hChain.2.1]
          show (body p >>= fun _ => get >>= fun t => listForeach body fuel (t.next p)).run s =
            (body p >>= fun _ => l.forM body).run s
          simp only [StateT.run_bind]
          cases hBody : (body p).run s with
          | error e => rfl
          | ok r =>
              have hNext : r.2.next = s.next := hKeep p s r.2 hBody
              show (listForeach body fuel (r.2.next p)).run r.2 = (l.forM body).run r.2
              apply ih fuel (r.2.next p) r.2
              · rw [hNext]
                exact hChain.2.2
              · simpa using hLen

/-- After the first loop. -/
structure Unmapped (s s' : VM) (cpu : Nat) (l : List Nat) : Prop where
  same : SameLists s s'
  flag : ∀ p, (s'.node p).isMapped = ((s.node p).isMapped && decide (p ∉ l))
  current : (s'.cpu cpu).vmHead = (s.cpu cpu).vmHead
  cpu_ne : ∀ c, c ≠ cpu → s'.cpu c = s.cpu c
  host : ∀ va, (s'.cpu cpu).host va =
    if ∃ p ∈ l, (s.node p).va = va ∧ (s.node p).isMapped = true then none
    else (s.cpu cpu).host va

private theorem unmapNode_runs (cpu p : Nat) (s : VM) :
    ∃ s', (unmapNode cpu p).run s = .ok ((), s') ∧ Unmapped s s' cpu [p] := by
  by_cases hMapped : (s.node p).isMapped = true
  · refine ⟨(s.setHost cpu (s.node p).va none).setMapped p false, ?_, ?_⟩
    · rw [unmapNode, bind_eq_ok]
      refine ⟨s, s, rfl, ?_⟩
      rw [if_pos hMapped]
      rfl
    · exact
        { same :=
            { node := by
                intro q
                by_cases hq : q = p
                · subst hq
                  simp
                · simp [hq]
              vmHead := rfl
              ptr := rfl
              vmeEnable := rfl
              used := rfl }
          flag := by
            intro q
            by_cases hq : q = p
            · subst hq
              simp
            · simp [hq]
          current := by simp
          cpu_ne := by
            intro c hc
            simp [hc]
          host := by
            intro va
            by_cases hva : (s.node p).va = va
            · subst hva
              simp [hMapped]
            · simp [hMapped, hva, Function.update_of_ne (Ne.symm hva)] }
  · refine ⟨s, ?_, ?_⟩
    · rw [unmapNode, bind_eq_ok]
      refine ⟨s, s, rfl, ?_⟩
      rw [if_neg hMapped]
      rfl
    · exact
        { same := SameLists.refl s
          flag := by
            intro q
            by_cases hq : q = p
            · subst hq
              simpa using hMapped
            · simp [hq]
          current := rfl
          cpu_ne := fun _ _ => rfl
          host := by
            intro va
            simp [hMapped] }

private theorem unmap_forM (cpu : Nat) :
    ∀ (l : List Nat) (s : VM),
      ∃ s', (l.forM (unmapNode cpu)).run s = .ok ((), s') ∧ Unmapped s s' cpu l := by
  intro l
  induction l with
  | nil =>
      intro s
      exact ⟨s, rfl, SameLists.refl s, by simp, rfl, fun _ _ => rfl, by simp⟩
  | cons p l ih =>
      intro s
      obtain ⟨t, hHead, hp⟩ := unmapNode_runs cpu p s
      obtain ⟨s', hTail, hl⟩ := ih t
      refine ⟨s', forM_cons_eq_ok.mpr ⟨t, hHead, hTail⟩, ?_⟩
      exact
        { same := hp.same.trans hl.same
          flag := by
            intro q
            rw [hl.flag, hp.flag]
            by_cases hq : q = p <;> simp [hq]
          current := hl.current.trans hp.current
          cpu_ne := fun c hc => (hl.cpu_ne c hc).trans (hp.cpu_ne c hc)
          host := by
            intro va
            rw [hl.host, hp.host]
            simp only [hp.same.va, hp.flag]
            by_cases hHere : (s.node p).va = va ∧ (s.node p).isMapped = true
            · simp [hHere]
            · have hIff : (∃ q ∈ l, (s.node q).va = va ∧
                  ((s.node q).isMapped && decide (q ∉ [p])) = true) ↔
                  ∃ q ∈ p :: l, (s.node q).va = va ∧ (s.node q).isMapped = true := by
                constructor
                · rintro ⟨q, hq, hVa, hFlag⟩
                  refine ⟨q, by simp [hq], hVa, ?_⟩
                  simp only [Bool.and_eq_true] at hFlag
                  exact hFlag.1
                · rintro ⟨q, hq, hVa, hFlag⟩
                  by_cases hqp : q = p
                  · subst hqp
                    exact absurd ⟨hVa, hFlag⟩ hHere
                  · exact ⟨q, by simpa [hqp] using hq, hVa, by simp [hFlag, hqp]⟩
              have hOnly : (if ∃ q ∈ [p], (s.node q).va = va ∧
                  (s.node q).isMapped = true then none else (s.cpu cpu).host va) =
                  (s.cpu cpu).host va := if_neg (by simpa using hHere)
              rw [hOnly]
              simp only [hIff] }

/-- After the second loop. -/
structure Mapped (s s' : VM) (cpu : Nat) (l : List Nat) : Prop where
  same : SameLists s s'
  flag : ∀ p, (s'.node p).isMapped = ((s.node p).isMapped || decide (p ∈ l))
  current : (s'.cpu cpu).vmHead = (s.cpu cpu).vmHead
  cpu_ne : ∀ c, c ≠ cpu → s'.cpu c = s.cpu c
  host : ∀ va, (s'.cpu cpu).host va = (pageAt s l va).or ((s.cpu cpu).host va)

private theorem mapNode_runs (cpu : Nat) {p : Nat} {s : VM}
    (hUser : inUserSpace (s.node p).va = true) :
    ∃ s', (mapNode cpu p).run s = .ok ((), s') ∧ Mapped s s' cpu [p] := by
  refine ⟨(s.setHost cpu (s.node p).va
    (some (hostPage (s.node p).pa (s.node p).prot))).setMapped p true, ?_, ?_⟩
  · rw [mapNode, bind_eq_ok]
    refine ⟨s, s, rfl, ?_⟩
    rw [hUser]
    rfl
  · exact
      { same :=
          { node := by
              intro q
              by_cases hq : q = p
              · subst hq
                simp
              · simp [hq]
            vmHead := rfl
            ptr := rfl
            vmeEnable := rfl
            used := rfl }
        flag := by
          intro q
          by_cases hq : q = p
          · subst hq
            simp
          · simp [hq]
        current := by simp
        cpu_ne := by
          intro c hc
          simp [hc]
        host := by
          intro va
          by_cases hva : (s.node p).va = va
          · subst hva
            simp [pageAt]
          · simp [pageAt, hva, Function.update_of_ne (Ne.symm hva)] }

private theorem map_forM (cpu : Nat) :
    ∀ (l : List Nat) (s : VM), (∀ p ∈ l, inUserSpace (s.node p).va = true) →
      (l.map fun p => (s.node p).va).Nodup →
      ∃ s', (l.forM (mapNode cpu)).run s = .ok ((), s') ∧ Mapped s s' cpu l := by
  intro l
  induction l with
  | nil =>
      intro s _ _
      exact ⟨s, rfl, SameLists.refl s, by simp, rfl, fun _ _ => rfl,
        by simp [pageAt]⟩
  | cons p l ih =>
      intro s hUser hVas
      obtain ⟨t, hHead, hp⟩ := mapNode_runs cpu (hUser p (by simp))
      rw [List.map_cons, List.nodup_cons] at hVas
      obtain ⟨s', hTail, hl⟩ := ih t
        (fun q hq => by rw [hp.same.va]; exact hUser q (by simp [hq]))
        (by simp only [hp.same.va]; exact hVas.2)
      refine ⟨s', forM_cons_eq_ok.mpr ⟨t, hHead, hTail⟩, ?_⟩
      exact
        { same := hp.same.trans hl.same
          flag := by
            intro q
            rw [hl.flag, hp.flag]
            by_cases hq : q = p <;> simp [hq]
          current := hl.current.trans hp.current
          cpu_ne := fun c hc => (hl.cpu_ne c hc).trans (hp.cpu_ne c hc)
          host := by
            intro va
            rw [hl.host, hp.host, hp.same.pageAt]
            by_cases hva : (s.node p).va = va
            · subst hva
              have hNone : pageAt s l (s.node p).va = none := by
                rw [pageAt_none]
                intro q hq hEq
                exact hVas.1 (hEq ▸ List.mem_map_of_mem (f := fun p => (s.node p).va) hq)
              rw [hNone]
              simp [pageAt]
            · simp [pageAt, hva] }

/-! ## The switch -/

/-- What `__am_switch` to `head` does on CPU `cpu`. -/
structure Switched (s s' : VM) (cpu head : Nat) : Prop where
  same : SameLists s s'
  current : (s'.cpu cpu).vmHead = head
  cpu_ne : ∀ c, c ≠ cpu → s'.cpu c = s.cpu c
  stay : head = (s.cpu cpu).vmHead → s'.node = s.node ∧
    (s'.cpu cpu).host = (s.cpu cpu).host
  flag : head ≠ (s.cpu cpu).vmHead → ∀ p, (s'.node p).isMapped =
    ((s.node p).isMapped && decide (p ∉ nodesOf s (s.cpu cpu).vmHead) ||
      decide (p ∈ nodesOf s head))
  host : head ≠ (s.cpu cpu).vmHead → ∀ va, (s'.cpu cpu).host va =
    (pageAt s (nodesOf s head) va).or
      (if ∃ p ∈ nodesOf s (s.cpu cpu).vmHead, (s.node p).va = va ∧
          (s.node p).isMapped = true then none
        else (s.cpu cpu).host va)

private theorem unmapAll_runs (cpu : Nat) {h : Nat} (hWf : WellFormed s h) :
    ∃ s', (unmapAll cpu h).run s = .ok ((), s') ∧ Unmapped s s' cpu (nodesOf s h) := by
  unfold unmapAll
  by_cases hh : h = 0
  · subst hh
    refine ⟨s, rfl, ?_⟩
    rw [nodesOf_zero]
    exact ⟨SameLists.refl s, by simp, rfl, fun _ _ => rfl, by simp⟩
  · obtain ⟨hChain, hLen⟩ := hWf.chain hh
    have hKeep : ∀ p t t', (unmapNode cpu p).run t = .ok ((), t') →
        t'.next = t.next := by
      intro p t t' hRun
      obtain ⟨t'', hRun', hp⟩ := unmapNode_runs cpu p t
      rw [hRun] at hRun'
      cases hRun'
      exact hp.same.next
    obtain ⟨s', hRun, hUn⟩ := unmap_forM cpu (nodesOf s h) s
    refine ⟨s', ?_, hUn⟩
    rw [bind_eq_ok]
    refine ⟨s, s, rfl, ?_⟩
    rw [if_pos hh, listForeach_eq hKeep _ _ _ s hChain hLen]
    exact hRun

private theorem mapAll_runs (cpu : Nat) {h : Nat} (hWf : WellFormed s h) :
    ∃ s', (mapAll cpu h).run s = .ok ((), s') ∧ Mapped s s' cpu (nodesOf s h) := by
  unfold mapAll
  by_cases hh : h = 0
  · subst hh
    refine ⟨s, rfl, ?_⟩
    rw [nodesOf_zero]
    exact ⟨SameLists.refl s, by simp, rfl, fun _ _ => rfl, by simp [pageAt]⟩
  · obtain ⟨hChain, hLen⟩ := hWf.chain hh
    have hKeep : ∀ p t t', (mapNode cpu p).run t = .ok ((), t') → t'.next = t.next := by
      intro p t t' hRun
      by_cases hUser : inUserSpace (t.node p).va = true
      · obtain ⟨t'', hRun', hp⟩ := mapNode_runs cpu hUser
        rw [hRun] at hRun'
        cases hRun'
        exact hp.same.next
      · rw [mapNode, bind_eq_ok] at hRun
        obtain ⟨r, r', hGet, hRun⟩ := hRun
        obtain ⟨rfl, rfl⟩ := get_eq_ok.mp hGet
        rw [bind_eq_ok] at hRun
        obtain ⟨_, _, hAssert, _⟩ := hRun
        exact absurd (assert_ok hAssert).1 hUser
    obtain ⟨s', hRun, hMap⟩ := map_forM cpu (nodesOf s h) s hWf.user hWf.vas
    refine ⟨s', ?_, hMap⟩
    rw [bind_eq_ok]
    refine ⟨s, s, rfl, ?_⟩
    rw [if_pos hh, listForeach_eq hKeep _ _ _ s hChain hLen]
    exact hRun

/-- **`__am_switch` specification.** -/
theorem amSwitch_runs (cpu : Nat) {head : Nat} (hEnable : s.vmeEnable = true)
    (hNow : WellFormed s (s.cpu cpu).vmHead) (hHead : WellFormed s head) :
    ∃ s', (amSwitch cpu head).run s = .ok ((), s') ∧ Switched s s' cpu head := by
  by_cases hSame : head = (s.cpu cpu).vmHead
  · refine ⟨s.setCurrent cpu head, ?_, ?_⟩
    · rw [amSwitch, bind_eq_ok]
      refine ⟨s, s, rfl, ?_⟩
      rw [if_pos hEnable, if_neg (not_not.mpr hSame)]
      rfl
    · exact
        { same := ⟨fun _ => rfl, rfl, rfl, rfl, rfl⟩
          current := by simp
          cpu_ne := by
            intro c hc
            simp [hc]
          stay := by
            intro _
            simp
          flag := fun hNe => absurd hSame hNe
          host := fun hNe => absurd hSame hNe }
  · obtain ⟨t, hRun, hUn⟩ := unmapAll_runs cpu hNow
    obtain ⟨t', hRun', hMap⟩ := mapAll_runs cpu (hUn.same.wellFormed hHead)
    rw [hUn.same.nodesOf] at hMap
    have hAll := hUn.same.trans hMap.same
    refine ⟨t'.setCurrent cpu head, ?_, ?_⟩
    · rw [amSwitch, bind_eq_ok]
      refine ⟨s, s, rfl, ?_⟩
      rw [if_pos hEnable, if_pos hSame, bind_eq_ok]
      refine ⟨(), t, hRun, ?_⟩
      rw [bind_eq_ok]
      exact ⟨(), t', hRun', rfl⟩
    · exact
        { same := ⟨hAll.node, hAll.vmHead, hAll.ptr, hAll.vmeEnable, hAll.used⟩
          current := by simp
          cpu_ne := by
            intro c hc
            simp [hc, hMap.cpu_ne c hc, hUn.cpu_ne c hc]
          stay := fun hEq => absurd hEq hSame
          flag := by
            intro _ p
            show (t'.node p).isMapped = _
            rw [hMap.flag, hUn.flag]
          host := by
            intro _ va
            simp only [VM.setCurrent, Function.update_self]
            rw [hMap.host, hUn.host, hUn.same.pageAt] }

/-! ## Any lists

Whatever the lists are, `__am_switch` sets `vm_head` of its own CPU only. -/

/-- Every CPU is in the address space it was in. -/
structure SameHeads (s s' : VM) : Prop where
  vmeEnable : s'.vmeEnable = s.vmeEnable
  current : ∀ c, (s'.cpu c).vmHead = (s.cpu c).vmHead

theorem SameHeads.refl (s : VM) : SameHeads s s := ⟨rfl, fun _ => rfl⟩

theorem SameHeads.trans (h : SameHeads s t) (h' : SameHeads t s') : SameHeads s s' where
  vmeEnable := h'.vmeEnable.trans h.vmeEnable
  current := fun c => (h'.current c).trans (h.current c)

private theorem sameHeads_setHost (s : VM) (cpu va p : Nat) (b : Bool) (page : Option HostPage) :
    SameHeads s ((s.setHost cpu va page).setMapped p b) where
  vmeEnable := rfl
  current := by
    intro c
    by_cases hc : c = cpu
    · subst hc
      simp
    · simp [hc]

private theorem unmapNode_sameHeads {cpu p : Nat} {u : Unit}
    (hRun : (unmapNode cpu p).run s = .ok (u, s')) : SameHeads s s' := by
  unfold unmapNode at hRun
  rw [bind_eq_ok] at hRun
  obtain ⟨t, t', hGet, hRun⟩ := hRun
  obtain ⟨rfl, rfl⟩ := get_eq_ok.mp hGet
  by_cases hMapped : (s.node p).isMapped = true
  · rw [if_pos hMapped] at hRun
    cases hRun
    exact sameHeads_setHost s cpu _ p false none
  · rw [if_neg hMapped] at hRun
    cases hRun
    exact SameHeads.refl s

private theorem mapNode_sameHeads {cpu p : Nat} {u : Unit}
    (hRun : (mapNode cpu p).run s = .ok (u, s')) : SameHeads s s' := by
  unfold mapNode at hRun
  rw [bind_eq_ok] at hRun
  obtain ⟨t, t', hGet, hRun⟩ := hRun
  obtain ⟨rfl, rfl⟩ := get_eq_ok.mp hGet
  rw [bind_eq_ok] at hRun
  obtain ⟨_, _, hAssert, hRun⟩ := hRun
  obtain ⟨_, rfl⟩ := assert_ok hAssert
  cases hRun
  exact sameHeads_setHost s cpu _ p true _

private theorem listForeach_sameHeads {body : Nat → Vm Unit}
    (hBody : ∀ p s s' u, (body p).run s = .ok (u, s') → SameHeads s s') :
    ∀ fuel p s s' u, (listForeach body fuel p).run s = .ok (u, s') → SameHeads s s' := by
  intro fuel
  induction fuel with
  | zero =>
      intro p s s' u hRun
      unfold listForeach at hRun
      by_cases hp : p = 0
      · rw [if_pos hp] at hRun
        cases hRun
        exact SameHeads.refl s
      · rw [if_neg hp] at hRun
        exact absurd hRun throw_ne_ok
  | succ fuel ih =>
      intro p s s' u hRun
      unfold listForeach at hRun
      by_cases hp : p = 0
      · rw [if_pos hp] at hRun
        cases hRun
        exact SameHeads.refl s
      · rw [if_neg hp] at hRun
        obtain ⟨_, t, hFirst, hRun⟩ := bind_eq_ok.mp hRun
        obtain ⟨_, _, hGet, hRest⟩ := bind_eq_ok.mp hRun
        obtain ⟨rfl, rfl⟩ := get_eq_ok.mp hGet
        exact (hBody p s _ _ hFirst).trans (ih _ _ _ _ hRest)

private theorem unmapAll_sameHeads {cpu h : Nat} {u : Unit}
    (hRun : (unmapAll cpu h).run s = .ok (u, s')) : SameHeads s s' := by
  unfold unmapAll at hRun
  obtain ⟨_, _, hGet, hRun⟩ := bind_eq_ok.mp hRun
  obtain ⟨rfl, rfl⟩ := get_eq_ok.mp hGet
  by_cases hh : h ≠ 0
  · rw [if_pos hh] at hRun
    exact listForeach_sameHeads (fun _ _ _ _ => unmapNode_sameHeads) _ _ _ _ _ hRun
  · rw [if_neg hh] at hRun
    cases hRun
    exact SameHeads.refl s

private theorem mapAll_sameHeads {cpu h : Nat} {u : Unit}
    (hRun : (mapAll cpu h).run s = .ok (u, s')) : SameHeads s s' := by
  unfold mapAll at hRun
  obtain ⟨_, _, hGet, hRun⟩ := bind_eq_ok.mp hRun
  obtain ⟨rfl, rfl⟩ := get_eq_ok.mp hGet
  by_cases hh : h ≠ 0
  · rw [if_pos hh] at hRun
    exact listForeach_sameHeads (fun _ _ _ _ => mapNode_sameHeads) _ _ _ _ _ hRun
  · rw [if_neg hh] at hRun
    cases hRun
    exact SameHeads.refl s

theorem amSwitch_off {cpu head : Nat} {u : Unit} (hOff : s.vmeEnable = false)
    (hRun : (amSwitch cpu head).run s = .ok (u, s')) : s' = s := by
  unfold amSwitch at hRun
  obtain ⟨_, _, hGet, hRun⟩ := bind_eq_ok.mp hRun
  obtain ⟨rfl, rfl⟩ := get_eq_ok.mp hGet
  rw [if_neg (ne_true_of_eq_false hOff)] at hRun
  cases hRun
  rfl

theorem amSwitch_on {cpu head : Nat} {u : Unit} (hOn : s.vmeEnable = true)
    (hRun : (amSwitch cpu head).run s = .ok (u, s')) :
    s'.vmeEnable = true ∧ (s'.cpu cpu).vmHead = head ∧
      ∀ c, c ≠ cpu → (s'.cpu c).vmHead = (s.cpu c).vmHead := by
  -- the state before `thiscpu->vm_head` is set
  have hLast : ∃ t, SameHeads s t ∧ s' = t.setCurrent cpu head := by
    unfold amSwitch at hRun
    obtain ⟨_, _, hGet, hRun⟩ := bind_eq_ok.mp hRun
    obtain ⟨rfl, rfl⟩ := get_eq_ok.mp hGet
    rw [if_pos hOn] at hRun
    by_cases hNew : head ≠ (s.cpu cpu).vmHead
    · rw [if_pos hNew] at hRun
      obtain ⟨_, t, hUnmap, hRun⟩ := bind_eq_ok.mp hRun
      obtain ⟨_, t', hMap, hRun⟩ := bind_eq_ok.mp hRun
      exact ⟨t', (unmapAll_sameHeads hUnmap).trans (mapAll_sameHeads hMap),
        modify_eq_ok.mp hRun⟩
    · rw [if_neg hNew] at hRun
      exact ⟨s, SameHeads.refl s, modify_eq_ok.mp hRun⟩
  obtain ⟨t, hSame, rfl⟩ := hLast
  refine ⟨hSame.vmeEnable.trans hOn, ?_, ?_⟩
  · simp
  · intro c hc
    have hOther := hSame.current c
    simp only [VM.setCurrent, Function.update_of_ne hc]
    exact hOther

end

end AbstractMachine.Native.Vme
