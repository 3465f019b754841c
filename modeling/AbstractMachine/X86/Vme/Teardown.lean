import AbstractMachine.X86.Vme.Space

/-!
# `teardown` releases the tables of a tree

`teardown` recurses into the entries that are present and accessible to the
user.  On a represented tree these are exactly its tables and leaves, so it
releases the pages of the tree in postorder, each of them once; a leaf leads
one level past the last one, where the recursion stops.  Kernel entries of a
root table lack the user bit and are passed over.
-/

namespace AbstractMachine.X86.Vme

open AbstractMachine.Lib

/-- Between the two states exactly `pages` were taken back, in order. -/
structure Released (s s' : VM) (pages : List Nat) : Prop where
  freed : s'.freed = s.freed ++ pages
  live : ∀ q, q ∈ s'.live ↔ q ∈ s.live ∧ q ∉ pages
  mem : ∀ x, (∀ q ∈ pages, ¬ InPage 4096 q x) → s'.mem x = s.mem x
  spaces : s'.spaces = s.spaces
  allocated : s'.allocated = s.allocated
  kpt : s'.kpt = s.kpt

theorem Released.refl (s : VM) : Released s s [] where
  freed := by simp
  live := by simp
  mem := fun _ _ => rfl
  spaces := rfl
  allocated := rfl
  kpt := rfl

theorem Released.trans {s t u : VM} {pages pages' : List Nat}
    (h : Released s t pages) (h' : Released t u pages') :
    Released s u (pages ++ pages') where
  freed := by rw [h'.freed, h.freed, List.append_assoc]
  live := by
    intro q
    rw [h'.live, h.live, List.mem_append, not_or, and_assoc]
  mem := by
    intro x hx
    rw [h'.mem x fun q hq => hx q (List.mem_append_right _ hq),
      h.mem x fun q hq => hx q (List.mem_append_left _ hq)]
  spaces := h'.spaces.trans h.spaces
  allocated := h'.allocated.trans h.allocated
  kpt := h'.kpt.trans h.kpt

section

variable {arch : Arch} {env : Pager}

private theorem pgfree_runs (arch : Arch) (env : Pager) {s : VM} {p : Nat} (hp : p ∈ s.live) :
    ∃ s', (pgfree arch env p).run s = .ok ((), s') ∧ Released s s' [p] := by
  refine ⟨{ s with
    mem := s.scribble arch env p
    clock := s.clock + 1
    live := s.live.filter (· ≠ p)
    freed := s.freed ++ [p] }, ?_, ?_⟩
  · rw [pgfree, bind_eq_ok]
    refine ⟨s, s, rfl, ?_⟩
    rw [if_pos hp]
    rfl
  · exact
      { freed := rfl
        live := by simp
        mem := by
          intro x hx
          have hxp : ¬ InPage 4096 p x := hx p (List.mem_singleton_self p)
          show VM.scribble arch env s p x = s.mem x
          rw [VM.scribble, mmu_pgsize, if_neg hxp]
        spaces := rfl
        allocated := rfl
        kpt := rfl }

private theorem readEntry_runs {s : VM} {level pt index : Nat} (h : 1 ≤ level → pt ∈ s.live) :
    (readEntry arch level pt index).run s =
      .ok (s.mem (pt + index * wordBytes arch), s) := by
  have hNot : ¬ (1 ≤ level ∧ pt ∉ s.live) := fun ⟨h1, h2⟩ => h2 (h h1)
  rw [readEntry, bind_eq_ok]
  refine ⟨s, s, rfl, ?_⟩
  rw [if_neg hNot]
  rfl

/-- One iteration of the loop of `teardown`. -/
def visit (arch : Arch) (env : Pager) (levels : List PtInfo) (level pt index : Nat) :
    Vm Unit := do
  let entry ← readEntry arch level pt index
  if entry &&& pteP ≠ 0 ∧ entry &&& pteU ≠ 0 then
    teardown arch env levels (level + 1) (baseof arch entry)

private theorem teardown_cons (info : PtInfo) (levels : List PtInfo) (level pt : Nat) :
    teardown arch env (info :: levels) level pt = (do
      (List.range (fanout info)).forM (visit arch env levels level pt)
      if 1 ≤ level then pgfree arch env pt) := by
  rw [fanout, ← Nat.one_shiftLeft]
  rfl

/-- What an entry leads to: `t` when the entry is one that `teardown` enters,
and nothing when it is passed over. -/
def Visited (arch : Arch) (mem : Nat → Nat) (levels : List PtInfo)
    (t : RadixTree Mapping) (a : Nat) : Prop :=
  (layout arch true).SlotRep mem (levels.map fanout) t a ∨
    t = .empty ∧ (mem a &&& pteP = 0 ∨ mem a &&& pteU = 0)

theorem Visited.aligned {mem : Nat → Nat} {levels : List PtInfo}
    {t : RadixTree Mapping} {a : Nat} (h : Visited arch mem levels t a) {q : Nat}
    (hq : t.Owns q) : q % 4096 = 0 := by
  rcases h with h | ⟨rfl, _⟩
  · exact SlotRep.aligned _ _ _ h q hq
  · exact absurd hq id

theorem Visited.fits {mem : Nat → Nat} {levels : List PtInfo}
    {t : RadixTree Mapping} {a : Nat} (h : Visited arch mem levels t a) :
    t.Fits (levels.map fanout) := by
  rcases h with h | ⟨rfl, _⟩
  · exact SlotRep.fits _ _ _ h
  · cases levels <;> trivial

theorem Visited.congr {mem mem' : Nat → Nat} {levels : List PtInfo}
    {t : RadixTree Mapping} {a : Nat} (h : Visited arch mem levels t a)
    (hRoot : mem' a = mem a)
    (hPages : ∀ x, (layout arch true).Covers t x → mem' x = mem x) :
    Visited arch mem' levels t a := by
  rcases h with h | ⟨hEmpty, hSkip⟩
  · exact Or.inl (SlotRep.congr _ _ _ h hRoot hPages)
  · exact Or.inr ⟨hEmpty, hRoot ▸ hSkip⟩

/-- Releasing the table below an entry, for the levels below the entry. -/
def Releases (arch : Arch) (env : Pager) (levels : List PtInfo) : Prop :=
  ∀ (t : RadixTree Mapping) (level pt index : Nat) (s : VM),
    Visited arch s.mem levels t (pt + index * wordBytes arch) →
    t.Separated → (∀ q, t.Owns q → q ∈ s.live) → (1 ≤ level → pt ∈ s.live) →
    ∃ s', (visit arch env levels level pt index).run s =
        .ok ((), s') ∧
      Released s s' (t.postorder (levels.map fanout))

/-- An entry without the present or the user bit is passed over. -/
theorem visit_skips {s : VM} {levels : List PtInfo} {level pt index : Nat}
    (hSkip : s.mem (pt + index * wordBytes arch) &&& pteP = 0 ∨
      s.mem (pt + index * wordBytes arch) &&& pteU = 0)
    (hLive : 1 ≤ level → pt ∈ s.live) :
    (visit arch env levels level pt index).run s = .ok ((), s) := by
  have hNot : ¬ (s.mem (pt + index * wordBytes arch) &&& pteP ≠ 0 ∧
      s.mem (pt + index * wordBytes arch) &&& pteU ≠ 0) := by
    rcases hSkip with h | h <;> simp [h]
  rw [visit, bind_eq_ok]
  refine ⟨_, s, readEntry_runs hLive, ?_⟩
  rw [if_neg hNot]
  rfl

/-- The loop of `teardown` over the entries of one table.  After `k`
iterations the subtrees below `k` are gone and the others are untouched. -/
theorem visits_release {levels : List PtInfo} {p : Nat}
    {kids : Nat → RadixTree Mapping} (hBelow : Releases arch env levels)
    (level : Nat) {f : Nat} {s : VM} (hFits : f * wordBytes arch ≤ 4096)
    (hAligned : p % 4096 = 0)
    (hKids : ∀ i < f, Visited arch s.mem levels (kids i) (p + i * wordBytes arch))
    (hSep : (RadixTree.table p kids).Separated)
    (hOwned : ∀ q, (RadixTree.table p kids).Owns q → q ∈ s.live) :
    ∃ s', ((List.range f).forM
        (visit arch env levels level p)).run s = .ok ((), s') ∧
      Released s s'
        ((List.range f).flatMap fun i => (kids i).postorder (levels.map fanout)) := by
  obtain ⟨hRoot, hApart, hSlots⟩ := hSep
  have hOwns : ∀ i < f, ∀ q, q ∈ (kids i).postorder (levels.map fanout) ↔
      (kids i).Owns q :=
    fun i hi => RadixTree.mem_postorder _ _ (hKids i hi).fits
  refine forM_range_total (fun k t => Released s t
    ((List.range k).flatMap fun i => (kids i).postorder (levels.map fanout)))
    f s (Released.refl s) ?_
  intro k hk t hDone
  -- the pages released so far belong to earlier slots
  have hGone : ∀ q ∈ (List.range k).flatMap
      fun i => (kids i).postorder (levels.map fanout),
      ∃ i < k, (kids i).Owns q := by
    intro q hq
    obtain ⟨i, hi, hq⟩ := List.mem_flatMap.mp hq
    have hik : i < k := List.mem_range.mp hi
    exact ⟨i, hik, (hOwns i (Nat.lt_trans hik hk) q).mp hq⟩
  have hSlotIn : InPage 4096 p (p + k * wordBytes arch) :=
    inPage_slot hk (layout arch true).stride_pos hFits
  have hSlot : t.mem (p + k * wordBytes arch) = s.mem (p + k * wordBytes arch) := by
    refine hDone.mem _ fun q hq hIn => ?_
    obtain ⟨i, hi, hOwn⟩ := hGone q hq
    have hqp : q = p := inPage_unique
      ((hKids i (Nat.lt_trans hi hk)).aligned hOwn) hAligned hIn hSlotIn
    exact hRoot i (hqp ▸ hOwn)
  have hPages : ∀ x, (layout arch true).Covers (kids k) x → t.mem x = s.mem x := by
    rintro x ⟨q, hq, hx⟩
    refine hDone.mem _ fun q' hq' hIn => ?_
    obtain ⟨i, hi, hOwn⟩ := hGone q' hq'
    have hEq : q' = q := inPage_unique
      ((hKids i (Nat.lt_trans hi hk)).aligned hOwn) ((hKids k hk).aligned hq) hIn hx
    exact Nat.ne_of_lt hi (hApart i k q' hOwn (hEq ▸ hq))
  have hLive : ∀ q, (kids k).Owns q → q ∈ t.live := by
    intro q hq
    refine (hDone.live q).mpr ⟨hOwned q (Or.inr ⟨k, hq⟩), fun hIn => ?_⟩
    obtain ⟨i, hi, hOwn⟩ := hGone q hIn
    exact Nat.ne_of_lt hi (hApart i k q hOwn hq)
  have hpLive : p ∈ t.live := by
    refine (hDone.live p).mpr ⟨hOwned p (Or.inl rfl), fun hIn => ?_⟩
    obtain ⟨i, _, hOwn⟩ := hGone p hIn
    exact hRoot i hOwn
  obtain ⟨u, hRun, hRel⟩ := hBelow (kids k) level p k t
    ((hKids k hk).congr hSlot hPages) (hSlots k) hLive fun _ => hpLive
  refine ⟨u, hRun, ?_⟩
  rw [List.range_succ, List.flatMap_append, List.flatMap_singleton]
  exact hDone.trans hRel

/-- Releasing a whole table: its subtrees, then its own page. -/
theorem table_release {info : PtInfo} {levels : List PtInfo} {p : Nat}
    {kids : Nat → RadixTree Mapping} (hBelow : Releases arch env levels)
    (level : Nat) {s : VM} (hFits : fanout info * wordBytes arch ≤ 4096)
    (hAligned : p % 4096 = 0)
    (hKids : ∀ i < fanout info,
      Visited arch s.mem levels (kids i) (p + i * wordBytes arch))
    (hSep : (RadixTree.table p kids).Separated)
    (hOwned : ∀ q, (RadixTree.table p kids).Owns q → q ∈ s.live) :
    ∃ s', (teardown arch env (info :: levels) (level + 1) p).run s = .ok ((), s') ∧
      Released s s'
        ((RadixTree.table p kids).postorder ((info :: levels).map fanout)) := by
  obtain ⟨t, hLoop, hRel⟩ := visits_release hBelow (level + 1) hFits
    hAligned hKids hSep hOwned
  have hpLive : p ∈ t.live := by
    refine (hRel.live p).mpr ⟨hOwned p (Or.inl rfl), fun hIn => ?_⟩
    obtain ⟨i, hi, hq⟩ := List.mem_flatMap.mp hIn
    exact hSep.1 i ((RadixTree.mem_postorder _ _
      (hKids i (List.mem_range.mp hi)).fits p).mp hq)
  obtain ⟨s', hFree, hPage⟩ := pgfree_runs arch env hpLive
  refine ⟨s', ?_, hRel.trans hPage⟩
  rw [teardown_cons, bind_eq_ok]
  refine ⟨(), t, hLoop, ?_⟩
  rw [if_pos (Nat.le_add_left 1 level)]
  exact hFree

/--
**Release specification.**  By induction on the levels, visiting an entry
releases the tables below it in postorder and touches nothing else.
-/
theorem releases (env : Pager) : ∀ levels : List PtInfo, (∀ i ∈ levels, LevelOk arch i) →
    Releases arch env levels := by
  intro levels
  induction levels with
  | nil =>
      intro _ t level pt index s hVisit _ _ hLive
      have hNone : t.postorder (([] : List PtInfo).map fanout) = [] := by
        cases t <;> rfl
      rw [hNone]
      refine ⟨s, ?_, Released.refl s⟩
      -- past the last level `teardown` returns at once
      rw [visit, bind_eq_ok]
      refine ⟨_, s, readEntry_runs hLive, ?_⟩
      split <;> rfl
  | cons info levels ih =>
      intro hLevels t level pt index s hVisit hSep hOwned hLive
      have hInfo : LevelOk arch info := hLevels info (by simp)
      have hBelow := ih fun i hi => hLevels i (List.mem_cons_of_mem info hi)
      cases t with
      | empty =>
          refine ⟨s, visit_skips ?_ hLive, ?_⟩
          · rcases hVisit with h | ⟨_, h⟩
            · exact Or.inl (by rw [(slotRep_empty _ _).mp h, Nat.zero_and])
            · exact h
          · rw [RadixTree.postorder_empty]
            exact Released.refl s
      | leaf m =>
          rcases hVisit with h | ⟨h, _⟩
          · exact absurd h id
          · cases h
      | table p kids =>
          rcases hVisit with h | ⟨h, _⟩
          · obtain ⟨hLink, hAligned, _, hKids, _⟩ := h
            have hEnter : s.mem (pt + index * wordBytes arch) &&& pteP ≠ 0 ∧
                s.mem (pt + index * wordBytes arch) &&& pteU ≠ 0 := by
              rw [hLink]
              exact ⟨link_present hAligned, of_decide_eq_true (link_user hAligned)⟩
            obtain ⟨s', hRun, hRel⟩ := table_release hBelow level hInfo.fits
              hAligned (fun i hi => Or.inl (hKids i hi)) hSep hOwned
            refine ⟨s', ?_, hRel⟩
            rw [visit, bind_eq_ok]
            refine ⟨_, s, readEntry_runs hLive, ?_⟩
            rw [if_pos hEnter, hLink, baseof_link hAligned]
            exact hRun
          · cases h

/--
**`unprotect` specification.**  It succeeds, and takes back exactly the pages
of the address space, each once.
-/
theorem unprotect_spec (env : Pager) {s : VM} {kword : Nat → Nat} {as root : Nat}
    {kids : Nat → RadixTree Mapping} (h : Space arch s kword as root kids)
    (hKernel : ∀ i, KernelIndex arch i → kword i &&& pteU = 0) :
    ∃ s', (unprotect arch env as).run s = .ok ((), s') ∧
      Released s s' ((RadixTree.table root kids).postorder
        ((tables arch).map fanout)) := by
  have hKids : ∀ i < fanout (level1 arch),
      Visited arch s.mem (lower arch) (kids i) (root + i * wordBytes arch) := by
    intro i hi
    by_cases hKer : KernelIndex arch i
    · exact Or.inr ⟨h.vacant i (Or.inl hKer),
        Or.inr (by rw [h.kernel i hKer]; exact hKernel i hKer)⟩
    · exact Or.inl (h.user i hi hKer)
  obtain ⟨s', hRun, hRel⟩ := table_release
    (releases env (lower arch) (lower_ok arch)) 0 h.fits h.aligned hKids h.separated h.owned
  rw [← tables_eq] at hRun hRel
  refine ⟨s', ?_, hRel⟩
  have hEnter : s.mem as &&& pteP ≠ 0 ∧ s.mem as &&& pteU ≠ 0 := by
    rw [h.ptr, Nat.or_assoc, or_and_flag h.aligned (by decide),
      or_and_flag h.aligned (by decide)]
    decide
  have hBase : baseof arch (s.mem as) = root := by
    rw [h.ptr, Nat.or_assoc, baseof_or h.aligned (by decide)]
  have hVisit : (visit arch env (tables arch) 0 as 0).run s =
      .ok ((), s') := by
    have hSlot : as + 0 * wordBytes arch = as := by
      rw [Nat.zero_mul, Nat.add_zero]
    rw [visit, bind_eq_ok]
    refine ⟨_, s, readEntry_runs (fun h => absurd h (by decide)), ?_⟩
    rw [hSlot, if_pos hEnter, hBase]
    exact hRun
  rw [unprotect, pgtables_eq, ← tables_eq, teardown_cons, bind_eq_ok]
  refine ⟨(), s', ?_, rfl⟩
  have hOne : fanout ⟨0, 0, 0⟩ = 1 := rfl
  rw [hOne]
  exact forM_cons_eq_ok.mpr ⟨s', hVisit, rfl⟩

end

end AbstractMachine.X86.Vme
