import AbstractMachine.X86.Vme.Entry

/-!
# `pgallocz` and `ptwalk` on a represented tree

`ptwalk` follows the indices of an address through the tables and grows the
tree where a table is missing.  The specification says that, seen as a radix
tree, the slot it started from represents the same mappings as before, owns
the old pages and the pages just handed out, and contains the slot that is
returned.
-/

namespace AbstractMachine.X86.Vme

open AbstractMachine.Lib

/-! ## Allocation -/

/-- Between the two states exactly the pages `new` were handed out. -/
structure Grows (arch : Arch) (s s' : VM) (new : List Nat) : Prop where
  live : s'.live = new ++ s.live
  spaces : s'.spaces = s.spaces
  freed : s'.freed = s.freed
  allocated : s'.allocated = s.allocated ++ new.reverse
  kpt : s'.kpt = s.kpt
  nodup : new.Nodup
  aligned : ∀ q ∈ new, q % 4096 = 0
  below : ∀ q ∈ new, Addressable arch q
  fresh : ∀ q ∈ new, q ∉ s.live
  apart : ∀ q ∈ new, ∀ as ∈ s.spaces, ¬ InPage 4096 q as

theorem Grows.refl (arch : Arch) (s : VM) : Grows arch s s [] where
  live := rfl
  spaces := rfl
  freed := rfl
  allocated := by simp
  kpt := rfl
  nodup := List.nodup_nil
  aligned := by simp
  below := by simp
  fresh := by simp
  apart := by simp

theorem Grows.trans {arch : Arch} {s t u : VM} {new new' : List Nat} (h : Grows arch s t new)
    (h' : Grows arch t u new') : Grows arch s u (new' ++ new) where
  live := by rw [h'.live, h.live, List.append_assoc]
  spaces := h'.spaces.trans h.spaces
  freed := h'.freed.trans h.freed
  allocated := by
    rw [h'.allocated, h.allocated, List.reverse_append, List.append_assoc]
  kpt := h'.kpt.trans h.kpt
  nodup := by
    rw [List.nodup_append]
    refine ⟨h'.nodup, h.nodup, ?_⟩
    rintro q hq _ hq' rfl
    refine h'.fresh q hq ?_
    rw [h.live]
    exact List.mem_append_left _ hq'
  aligned := by
    intro q hq
    rcases List.mem_append.mp hq with hq | hq
    · exact h'.aligned q hq
    · exact h.aligned q hq
  below := by
    intro q hq
    exact (List.mem_append.mp hq).elim (h'.below q) (h.below q)
  fresh := by
    intro q hq hLive
    rcases List.mem_append.mp hq with hq | hq
    · refine h'.fresh q hq ?_
      rw [h.live]
      exact List.mem_append_right _ hLive
    · exact h.fresh q hq hLive
  apart := by
    intro q hq as hAs
    rcases List.mem_append.mp hq with hq | hq
    · exact h'.apart q hq as (h.spaces ▸ hAs)
    · exact h.apart q hq as hAs

theorem Grows.mem_live {arch : Arch} {s s' : VM} {new : List Nat} (h : Grows arch s s' new)
    (q : Nat) :
    q ∈ s'.live ↔ q ∈ new ∨ q ∈ s.live := by
  rw [h.live, List.mem_append]

/-- An address that no fresh page can contain: it lies in a page in use or is
the `ptr` field of an `AddrSpace`. -/
def Anchored (s : VM) (a : Nat) : Prop :=
  (∃ p ∈ s.live, p % 4096 = 0 ∧ InPage 4096 p a) ∨ a ∈ s.spaces

theorem Grows.not_inPage {arch : Arch} {s s' : VM} {new : List Nat} (h : Grows arch s s' new)
    {a : Nat} (ha : Anchored s a) : ∀ q ∈ new, ¬ InPage 4096 q a := by
  intro q hq hqa
  rcases ha with ⟨p, hp, hAligned, hpa⟩ | hSpace
  · have hEq : q = p := inPage_unique (h.aligned q hq) hAligned hqa hpa
    exact h.fresh q hq (hEq ▸ hp)
  · exact h.apart q hq a hSpace hqa

theorem Anchored.grow {arch : Arch} {s s' : VM} {new : List Nat} {a : Nat} (ha : Anchored s a)
    (h : Grows arch s s' new) : Anchored s' a := by
  rcases ha with ⟨p, hp, hRest⟩ | hSpace
  · exact Or.inl ⟨p, (h.mem_live p).mpr (Or.inr hp), hRest⟩
  · exact Or.inr (h.spaces ▸ hSpace)

section

variable {arch : Arch} {env : Pager}

private theorem zeroWords_slot (base : Nat) (mem : Nat → Nat) :
    ∀ n i, i < n → zeroWords arch base n mem (base + i * wordBytes arch) = 0 := by
  intro n
  induction n with
  | zero => intro i hi; exact absurd hi (Nat.not_lt_zero i)
  | succ n ih =>
      intro i hi
      rw [zeroWords, List.range_succ, List.foldl_append]
      show Function.update (zeroWords arch base n mem) _ 0 _ = 0
      by_cases hin : i = n
      · rw [hin, Function.update_self]
      · rw [Function.update_apply]
        split
        · rfl
        · exact ih i (by omega)

private theorem zeroWords_other (base : Nat) (mem : Nat → Nat) {x : Nat} :
    ∀ n, (∀ i < n, x ≠ base + i * wordBytes arch) →
      zeroWords arch base n mem x = mem x := by
  intro n
  induction n with
  | zero => intro _; rfl
  | succ n ih =>
      intro h
      rw [zeroWords, List.range_succ, List.foldl_append]
      show Function.update (zeroWords arch base n mem) _ 0 x = mem x
      rw [Function.update_of_ne (h n (Nat.lt_succ_self n))]
      exact ih fun i hi => h i (Nat.lt_succ_of_lt hi)

theorem pgalloc_ok {s s' : VM} {p : Nat}
    (h : (pgalloc arch env).run s = .ok (p, s')) (hp : p ≠ 0) :
    s.Fresh arch p ∧ s' = { s with
      mem := s.scribble arch env p
      clock := s.clock + 1
      live := p :: s.live
      allocated := s.allocated ++ [p] } := by
  rw [pgalloc, bind_eq_ok] at h
  obtain ⟨t, t', hGet, h⟩ := h
  obtain ⟨rfl, rfl⟩ := get_eq_ok.mp hGet
  dsimp only at h
  split at h
  · cases h
    exact absurd rfl hp
  · split at h
    · rename_i hFresh
      cases h
      exact ⟨hFresh, rfl⟩
    · exact absurd h throw_ne_ok

theorem panicOn_ok {cond : Bool} {msg : String} {s s' : VM} {u : Unit}
    (h : (panicOn cond msg).run s = .ok (u, s')) : cond = false ∧ s = s' := by
  unfold panicOn at h
  cases cond with
  | true => exact absurd h throw_ne_ok
  | false => exact ⟨rfl, (pure_eq_ok.mp h).2⟩

/-- `pgallocz` hands out one fresh page, filled with zeros. -/
theorem pgallocz_ok {s s' : VM} {p : Nat}
    (h : (pgallocz arch env).run s = .ok (p, s')) :
    Grows arch s s' [p] ∧
      (∀ i, (i + 1) * wordBytes arch ≤ 4096 → s'.mem (p + i * wordBytes arch) = 0) ∧
      ∀ x, ¬ InPage 4096 p x → s'.mem x = s.mem x := by
  rw [pgallocz, bind_eq_ok] at h
  obtain ⟨p, s₁, hAlloc, h⟩ := h
  rw [bind_eq_ok] at h
  obtain ⟨_, s₂, hPanic, h⟩ := h
  rw [bind_eq_ok] at h
  obtain ⟨_, s₃, hZero, h⟩ := h
  obtain ⟨hNull, rfl⟩ := panicOn_ok hPanic
  obtain ⟨rfl, rfl⟩ := pure_eq_ok.mp h
  have hState := modify_eq_ok.mp hZero
  have hp : p ≠ 0 := by simpa using hNull
  obtain ⟨⟨hAligned, hBelow, hLive, hSpaces⟩, hs₁⟩ := pgalloc_ok hAlloc hp
  rw [mmu_pgsize] at hAligned hState
  subst hs₁
  have hStride : 0 < wordBytes arch := (layout arch true).stride_pos
  refine ⟨?_, ?_, ?_⟩
  · subst hState
    exact
      { live := rfl
        spaces := rfl
        freed := rfl
        allocated := rfl
        kpt := rfl
        nodup := List.nodup_singleton p
        aligned := by simpa using hAligned
        below := by simpa using hBelow
        fresh := by simpa using hLive
        apart := by simpa using hSpaces }
  · intro i hi
    subst hState
    refine zeroWords_slot p _ _ i ?_
    rw [Nat.lt_iff_add_one_le, Nat.le_div_iff_mul_le hStride]
    exact hi
  · intro x hx
    subst hState
    refine (zeroWords_other p _ _ ?_).trans ?_
    · intro i hi
      have hSlot : (i + 1) * wordBytes arch ≤ 4096 :=
        (Nat.le_div_iff_mul_le hStride).mp hi
      rintro rfl
      rw [Nat.succ_mul] at hSlot
      exact hx ⟨Nat.le_add_right _ _, by omega⟩
    · show VM.scribble arch env s p x = s.mem x
      rw [VM.scribble, mmu_pgsize, if_neg hx]

theorem load_ok {s s' : VM} {a v : Nat} (h : (load a).run s = .ok (v, s')) :
    s.mem a = v ∧ s = s' := by
  cases h
  exact ⟨rfl, rfl⟩

theorem store_ok {s s' : VM} {a v : Nat} {u : Unit}
    (h : (store a v).run s = .ok (u, s')) :
    s' = s.write a v := by
  cases h
  rfl

/-- Writing a word changes nothing but memory. -/
theorem Grows.write (arch : Arch) (s : VM) (a v : Nat) : Grows arch s (s.write a v) [] :=
  { Grows.refl arch s with }

/-! ## One level of the walk -/

/-- One turn of the loop of `ptwalk` at a level that is not the last: either
the entry was absent and a zeroed page is linked in, or the walk moves to
the table the entry names. -/
theorem ptwalkLoop_step {addr flags pt a : Nat} {info next : PtInfo}
    {levels : List PtInfo} {s s' : VM}
    (h : (ptwalkLoop arch env addr flags (info :: next :: levels) pt).run s =
      .ok (a, s')) :
    let slot := pt + indexof addr info * wordBytes arch
    (s.mem slot &&& pteP = 0 ∧ ∃ p s₁,
      (pgallocz arch env).run s = .ok (p, s₁) ∧
      (ptwalkLoop arch env addr flags (next :: levels) p).run
        (s₁.write slot (p ||| pteP ||| flags)) = .ok (a, s')) ∨
    (s.mem slot &&& pteP ≠ 0 ∧
      (ptwalkLoop arch env addr flags (next :: levels)
        (baseof arch (s.mem slot))).run s = .ok (a, s')) := by
  intro slot
  rw [ptwalkLoop, bind_eq_ok] at h
  obtain ⟨entry, t, hLoad, h⟩ := h
  obtain ⟨rfl, rfl⟩ := load_ok hLoad
  split at h
  · rename_i hAbsent
    rw [bind_eq_ok] at h
    obtain ⟨p, s₁, hAlloc, h⟩ := h
    rw [bind_eq_ok] at h
    obtain ⟨_, s₂, hStore, h⟩ := h
    cases store_ok hStore
    exact Or.inl ⟨hAbsent, p, s₁, hAlloc, h⟩
  · rename_i hPresent
    exact Or.inr ⟨hPresent, h⟩

/-- The last turn returns the slot. -/
theorem ptwalkLoop_last {addr flags pt a : Nat} {info : PtInfo} {s s' : VM}
    (h : (ptwalkLoop arch env addr flags [info] pt).run s = .ok (a, s')) :
    pt + indexof addr info * wordBytes arch = a ∧ s = s' :=
  pure_eq_ok.mp h

/-- The result of a walk below a slot that represented `t`. -/
structure Walked (arch : Arch) (user : Bool) (infos : List PtInfo) (addr : Nat)
    (t : RadixTree Mapping) (slot : Nat) (s s' : VM) (a : Nat)
    (t' : RadixTree Mapping) (new : List Nat) : Prop where
  grows : Grows arch s s' new
  rep : (layout arch user).SlotRep s'.mem (infos.map fanout) t' slot
  separated : t'.Separated
  owns : ∀ q, t'.Owns q ↔ t.Owns q ∨ q ∈ new
  hasPath : t'.HasPath (path addr infos)
  addr_eq : a = t'.slotAddr (wordBytes arch) (path addr infos) slot
  find : ∀ π, t'.find π = t.find π
  frame : ∀ x, x ≠ slot → ¬ (layout arch user).Covers t' x → s'.mem x = s.mem x

/-- A walk below one slot of a table is a walk below the table's own slot. -/
theorem Walked.lift {user : Bool} {addr p slot a : Nat} {next : PtInfo}
    {levels : List PtInfo} {kids : Nat → RadixTree Mapping} {u : RadixTree Mapping}
    {new : List Nat} {s s' : VM} (hNext : LevelOk arch next)
    (hRep : (layout arch user).SlotRep s.mem ((next :: levels).map fanout)
      (.table p kids) slot)
    (hSep : (RadixTree.table p kids).Separated)
    (hOwned : ∀ q, (RadixTree.table p kids).Owns q → q ∈ s.live)
    (hAnchor : Anchored s slot)
    (hOutside : ¬ (layout arch user).Covers (.table p kids) slot)
    (hu : Walked arch user levels addr (kids (indexof addr next))
      (p + indexof addr next * wordBytes arch) s s' a u new) :
    Walked arch user (next :: levels) addr (.table p kids) slot s s' a
      (.table p (Function.update kids (indexof addr next) u)) new := by
  have hIndex : indexof addr next < fanout next := indexof_lt hNext addr
  have hFresh : ∀ q ∈ new, ¬ (RadixTree.table p kids).Owns q :=
    fun q hq hOwn => hu.grows.fresh q hq (hOwned q hOwn)
  have hIn : InPage 4096 p (p + indexof addr next * wordBytes arch) :=
    inPage_slot hIndex (layout arch user).stride_pos hNext.fits
  have hFocus : Focus (layout arch user) s.mem s'.mem (fanout next) p
      (indexof addr next) kids u new :=
    { aligned := hRep.2.1
      fits := hNext.fits
      separated := hSep
      index_lt := hIndex
      subAligned := SlotRep.aligned _ _ _ hu.rep
      owns := hu.owns
      fresh := hFresh
      frame := hu.frame }
  refine
    { grows := hu.grows
      rep := hFocus.table hRep hu.rep hOutside (hu.grows.not_inPage hAnchor)
      separated := hSep.update hu.separated hu.owns hFresh
      owns := RadixTree.owns_update hu.owns
      hasPath := ?_
      addr_eq := ?_
      find := RadixTree.find_update hu.find
      frame := ?_ }
  · show (Function.update kids (indexof addr next) u
      (indexof addr next)).HasPath (path addr levels)
    rw [Function.update_self]
    exact hu.hasPath
  · show a = (Function.update kids (indexof addr next) u
      (indexof addr next)).slotAddr (wordBytes arch) (path addr levels)
        (p + indexof addr next * wordBytes arch)
    rw [Function.update_self]
    exact hu.addr_eq
  · intro x _ hNot
    refine hu.frame x ?_ ?_
    · rintro rfl
      exact hNot ⟨p, Or.inl rfl, hIn⟩
    · rintro ⟨q, hq, hqx⟩
      exact hNot ⟨q, (RadixTree.owns_update hu.owns q).mpr
        (((hu.owns q).mp hq).imp (fun h => Or.inr ⟨_, h⟩) id), hqx⟩

/-- Linking a zeroed page into an empty slot makes it an empty table. -/
theorem link_fresh (user : Bool) (levels : List PtInfo) {p slot : Nat}
    {next : PtInfo} {s s₁ : VM} (hNext : LevelOk arch next)
    (hAnchor : Anchored s slot)
    (hAlloc : (pgallocz arch env).run s = .ok (p, s₁)) :
    let s₂ := s₁.write slot (p ||| pteP ||| linkFlags user)
    Grows arch s s₂ [p] ∧ ¬ InPage 4096 p slot ∧
      (layout arch user).SlotRep s₂.mem ((next :: levels).map fanout)
        (.table p fun _ => .empty) slot ∧
      ∀ x, x ≠ slot → ¬ InPage 4096 p x → s₂.mem x = s.mem x := by
  intro s₂
  obtain ⟨hGrow, hZero, hKeep⟩ := pgallocz_ok hAlloc
  have hpSlot : ¬ InPage 4096 p slot := hGrow.not_inPage hAnchor p (by simp)
  refine ⟨{ hGrow with }, hpSlot, ?_, ?_⟩
  · refine ⟨Function.update_self .., hGrow.aligned p (by simp), hNext.fits,
      fun i hi => ?_, fun _ _ => rfl⟩
    have hIn : InPage 4096 p (p + i * wordBytes arch) :=
      inPage_slot hi (layout arch user).stride_pos hNext.fits
    rw [slotRep_empty]
    show Function.update s₁.mem slot _ (p + i * wordBytes arch) = 0
    rw [Function.update_of_ne (by rintro hEq; exact hpSlot (hEq ▸ hIn))]
    exact hZero i (Nat.le_trans (Nat.mul_le_mul_right _ hi) hNext.fits)
  · intro x hx hxPage
    show Function.update s₁.mem slot _ x = s.mem x
    rw [Function.update_of_ne hx, hKeep x hxPage]

/--
**Walk specification.**  From a slot that represents a separated tree of
pages in use, a successful walk ends in a slot of the grown tree.  The
induction is over the levels below the slot; every turn focuses on one
subtree of the table it passes.
-/
theorem ptwalkLoop_spec (user : Bool) {addr : Nat} :
    ∀ (infos : List PtInfo) (info : PtInfo) (pt a : Nat)
      (t : RadixTree Mapping) (s s' : VM),
      (∀ i ∈ infos, LevelOk arch i) →
      (layout arch user).SlotRep s.mem (infos.map fanout) t
        (pt + indexof addr info * wordBytes arch) →
      t.Separated → (∀ q, t.Owns q → q ∈ s.live) →
      Anchored s (pt + indexof addr info * wordBytes arch) →
      ¬ (layout arch user).Covers t (pt + indexof addr info * wordBytes arch) →
      (ptwalkLoop arch env addr (linkFlags user) (info :: infos) pt).run s =
        .ok (a, s') →
      ∃ t' new, Walked arch user infos addr t
        (pt + indexof addr info * wordBytes arch) s s' a t' new := by
  intro infos
  induction infos with
  | nil =>
      intro info pt a t s s' _ hRep hSep _ _ _ h
      obtain ⟨rfl, rfl⟩ := ptwalkLoop_last h
      exact ⟨t, [], Grows.refl _ _, hRep, hSep, by simp, by simp [path],
        by simp [path], fun _ => rfl, fun _ _ _ => rfl⟩
  | cons next levels ih =>
      intro info pt a t s s' hLevels hRep hSep hOwned hAnchor hOutside h
      have hNext : LevelOk arch next := hLevels next (by simp)
      have hBelow : ∀ i ∈ levels, LevelOk arch i :=
        fun i hi => hLevels i (by simp [hi])
      have hIndex : indexof addr next < fanout next := indexof_lt hNext addr
      generalize hSlot : pt + indexof addr info * wordBytes arch = slot at *
      have hTurn := ptwalkLoop_step h
      dsimp only at hTurn
      rw [hSlot] at hTurn
      rcases hTurn with ⟨hAbsent, p, s₁, hAlloc, hRest⟩ | ⟨hPresent, hRest⟩
      · -- the entry is absent: the subtree is empty and a zeroed table is linked
        have hEmpty : t = .empty := by
          cases t with
          | empty => rfl
          | leaf v => exact absurd hRep id
          | table q kids =>
              obtain ⟨hLink, hAligned, _⟩ := hRep
              rw [hLink] at hAbsent
              exact absurd hAbsent (link_present hAligned)
        subst hEmpty
        obtain ⟨hGrow, hpSlot, hTable, hKeep⟩ :=
          link_fresh user levels hNext hAnchor hAlloc
        have hIn : InPage 4096 p (p + indexof addr next * wordBytes arch) :=
          inPage_slot hIndex (layout arch user).stride_pos hNext.fits
        have hOwnsTable : ∀ q, (RadixTree.table p fun _ =>
            (.empty : RadixTree Mapping)).Owns q ↔ q = p := by simp
        have hpLive := (hGrow.mem_live p).mpr (Or.inl (List.mem_singleton_self p))
        obtain ⟨u, new, hu⟩ := ih next p a .empty _ s' hBelow
          (hTable.2.2.2.1 _ hIndex) trivial (fun q hq => absurd hq id)
          (Or.inl ⟨p, hpLive, hTable.2.1, hIn⟩)
          (by rintro ⟨q, hq, _⟩; exact hq) hRest
        have hWalk : Walked arch user (next :: levels) addr
            (.table p fun _ => .empty) slot _ s' a _ new :=
          Walked.lift hNext hTable
            ⟨fun _ => id, fun _ _ _ hq => absurd hq id, fun _ => trivial⟩
            (fun q hq => by rw [(hOwnsTable q).mp hq]; exact hpLive)
            (hAnchor.grow hGrow)
            (by rintro ⟨q, hq, hx⟩; exact hpSlot ((hOwnsTable q).mp hq ▸ hx)) hu
        refine ⟨_, new ++ [p], { hWalk with
          grows := hGrow.trans hWalk.grows
          owns := ?_
          find := ?_
          frame := ?_ }⟩
        · intro q
          rw [hWalk.owns, hOwnsTable, List.mem_append, List.mem_singleton]
          simp [or_comm]
        · intro π
          rw [hWalk.find]
          cases π with
          | nil => rfl
          | cons i π =>
              rw [RadixTree.find_of_sub_eq
                (RadixTree.sub_table p (fun _ => .empty) i π), RadixTree.find_empty,
                RadixTree.find_empty]
        · intro x hx hNot
          have hxPage : ¬ InPage 4096 p x := fun hIn => hNot ⟨p, Or.inl rfl, hIn⟩
          rw [hWalk.frame x hx hNot, hKeep x hx hxPage]
      · -- the entry is present: the walk moves to the subtree of its table
        cases t with
        | empty =>
            rw [(slotRep_empty _ _).mp hRep] at hPresent
            exact absurd (Nat.zero_and _) hPresent
        | leaf v => exact absurd hRep id
        | table p kids =>
            have hAll := hRep
            obtain ⟨hLink, hAligned, hSize, hKids, _⟩ := hRep
            rw [hLink, baseof_link hAligned] at hRest
            have hIn := inPage_slot (p := p) hIndex
              (layout arch user).stride_pos hSize
            have hKid := hKids _ hIndex
            have hKidOut : ¬ (layout arch user).Covers (kids (indexof addr next))
                (p + indexof addr next * wordBytes arch) := by
              rintro ⟨q, hq, hx⟩
              have hqp : q = p := inPage_unique
                (SlotRep.aligned _ _ _ hKid q hq) hAligned hx hIn
              exact hSep.1 _ (hqp ▸ hq)
            obtain ⟨u, new, hu⟩ := ih next p a (kids (indexof addr next)) s s'
              hBelow hKid (hSep.2.2 _)
              (fun q hq => hOwned q (Or.inr ⟨_, hq⟩))
              (Or.inl ⟨p, hOwned p (Or.inl rfl), hAligned, hIn⟩) hKidOut hRest
            exact ⟨_, new, Walked.lift hNext hAll hSep hOwned hAnchor hOutside hu⟩

/-- Once every table on the way exists, a walk changes nothing and finds the
same slot again. -/
theorem ptwalkLoop_again (user : Bool) {addr flags : Nat} :
    ∀ (infos : List PtInfo) (info : PtInfo) (pt : Nat)
      (t : RadixTree Mapping) (s : VM), (∀ i ∈ infos, LevelOk arch i) →
      (layout arch user).SlotRep s.mem (infos.map fanout) t
        (pt + indexof addr info * wordBytes arch) →
      t.HasPath (path addr infos) →
      (ptwalkLoop arch env addr flags (info :: infos) pt).run s =
        .ok (t.slotAddr (wordBytes arch) (path addr infos)
          (pt + indexof addr info * wordBytes arch), s) := by
  intro infos
  induction infos with
  | nil =>
      intro info pt t s _ _ _
      show Except.ok (_, s) = .ok (t.slotAddr _ [] _, s)
      rw [RadixTree.slotAddr_nil]
  | cons next levels ih =>
      intro info pt t s hLevels hRep hPath
      cases t with
      | empty => exact absurd hPath id
      | leaf v => exact absurd hRep id
      | table p kids =>
          obtain ⟨hLink, hAligned, _, hKids, _⟩ := hRep
          have hKid := hKids _ (indexof_lt (hLevels next (by simp)) addr)
          have hNext := ih next p (kids (indexof addr next)) s
            (fun i hi => hLevels i (by simp [hi])) hKid hPath
          rw [ptwalkLoop, bind_eq_ok]
          refine ⟨_, s, rfl, ?_⟩
          rw [hLink, if_neg (link_present hAligned), baseof_link hAligned]
          exact hNext

end

end AbstractMachine.X86.Vme
