import AbstractMachine.X86.Vme.Protect

/-!
# `map` refines a finite map of pages

The abstract user memory of an address space is a finite map from page
addresses to a physical page and a write permission; a call of `map` updates
it at one page.  After `protect` and any accepted calls of `map` the hardware
walk from `as->ptr` computes exactly this map, if the processor can be told the
pages.  `map` does not check that: an entry of x86_64 has room for 52 bits, and the
others of `pa` are lost.
-/

namespace AbstractMachine.X86.Vme

open AbstractMachine.Lib

/-- The arguments of a call of `map` on a fixed address space. -/
structure MapCall where
  va : Nat
  pa : Nat
  prot : BitVec 32

/-- The abstract user memory: for each page, the physical page and whether it
is writable. -/
abbrev UserMap := Nat → Option (Nat × Bool)

/-- The abstract effect of a call. -/
def UserMap.apply (m : UserMap) (c : MapCall) : UserMap :=
  Function.update m c.va (requested c.pa c.prot)

/-- The map built by a sequence of calls. -/
def userMap (calls : List MapCall) : UserMap :=
  calls.foldl UserMap.apply fun _ => none

/-- The translation an abstract entry stands for. -/
def UserMap.translation (m : UserMap) (va : Nat) : Option Translation :=
  (m (roundDown va 4096)).map fun e =>
    { paddr := e.1 + va % 4096, writable := e.2, user := true }

/-- The map as the processor sees it. -/
def UserMap.seen (arch : Arch) (m : UserMap) : UserMap := fun page =>
  (m page).map fun e => (physical arch e.1, e.2)

/-- The calls of `map` on one address space, in order. -/
def maps (arch : Arch) (env : Pager) (as : Nat) (calls : List MapCall) : Vm Unit :=
  calls.forM fun c => map arch env as c.va c.pa c.prot

section

variable {arch : Arch} {env : Pager} {s s' : VM} {kword : Nat → Nat} {as root : Nat}
  {kids : Nat → RadixTree Mapping}

/-- The tree and the abstract map agree on every user page. -/
def Agrees (arch : Arch) (kids : Nat → RadixTree Mapping) (root : Nat)
    (m : UserMap) : Prop :=
  ∀ va, inRange va (uvmArea arch) = true →
    lookup kids root (path va (tables arch)) = m (roundDown va 4096)

theorem Space.translate_agrees (h : Space arch s kword as root kids) {m : UserMap}
    (hAgree : Agrees arch kids root m) {va : Nat}
    (hVa : inRange va (uvmArea arch) = true) :
    translate arch s.mem va (s.mem as) = (m.seen arch).translation va := by
  rw [h.translate_user (user_index hVa), hAgree va hVa, UserMap.translation, UserMap.seen,
    Option.map_map]
  rfl

/-- Pages that the processor can be told. -/
def UserMap.Below (arch : Arch) (m : UserMap) : Prop :=
  ∀ page e, m page = some e → Addressable arch e.1

theorem UserMap.Below.seen {m : UserMap} (h : m.Below arch) : m.seen arch = m := by
  funext page
  unfold UserMap.seen
  cases hPage : m page with
  | none => rfl
  | some e => rw [Option.map_some, physical_eq (h page e hPage)]

theorem UserMap.Below.apply {m : UserMap} {c : MapCall} (h : m.Below arch)
    (hCall : Addressable arch c.pa) : (m.apply c).Below arch := by
  intro page e hPage
  by_cases hEq : page = c.va
  · rw [hEq, UserMap.apply, Function.update_self, requested] at hPage
    split at hPage
    · cases hPage
    · cases hPage
      exact hCall
  · rw [UserMap.apply, Function.update_of_ne hEq] at hPage
    exact h page e hPage

private theorem userMap_below {calls : List MapCall} (h : ∀ c ∈ calls, Addressable arch c.pa) :
    (userMap calls).Below arch := by
  have hFold : ∀ (calls : List MapCall) (m : UserMap), m.Below arch →
      (∀ c ∈ calls, Addressable arch c.pa) → (calls.foldl UserMap.apply m).Below arch := by
    intro calls
    induction calls with
    | nil => exact fun m hm _ => hm
    | cons c calls ih =>
        intro m hm hCalls
        apply ih _ (hm.apply (hCalls c (List.mem_cons_self ..)))
        exact fun d hd => hCalls d (List.mem_cons_of_mem c hd)
  exact hFold calls _ (fun _ _ hNone => nomatch hNone) h

/-- One accepted call keeps the agreement. -/
theorem Agrees.step {kids' : Nat → RadixTree Mapping} {new : List Nat} {m : UserMap}
    {c : MapCall} (hAgree : Agrees arch kids root m)
    (h : Mapped arch s s' root kids kids' new c.va c.pa c.prot) :
    Agrees arch kids' root (m.apply c) := by
  intro va hVa
  have hCall : roundDown c.va 4096 = c.va := by
    have := h.vaAligned
    rw [roundDown_eq]
    omega
  by_cases hPage : roundDown va 4096 = c.va
  · have hPath : path va (tables arch) = path c.va (tables arch) := by
      rw [← path_roundDown arch va, hPage]
    rw [hPath, h.lookup_self, UserMap.apply, hPage, Function.update_self]
  · have hPath : path va (tables arch) ≠ path c.va (tables arch) := by
      intro hEq
      exact hPage ((path_inj hVa h.inArea hEq).trans hCall)
    rw [h.lookup_ne _ (by simp [path]) hPath, hAgree va hVa, UserMap.apply,
      Function.update_of_ne hPage]

/-- A run of accepted calls keeps the address space and the agreement. -/
theorem maps_agree :
    ∀ (calls : List MapCall) (s s' : VM) (kids : Nat → RadixTree Mapping)
      (m : UserMap), Space arch s kword as root kids → Agrees arch kids root m →
      (maps arch env as calls).run s = .ok ((), s') →
      ∃ kids', Space arch s' kword as root kids' ∧
        Agrees arch kids' root (calls.foldl UserMap.apply m) := by
  intro calls
  induction calls with
  | nil =>
      intro s s' kids m hSpace hAgree h
      cases forM_nil_eq_ok.mp h
      exact ⟨kids, hSpace, hAgree⟩
  | cons c calls ih =>
      intro s s' kids m hSpace hAgree h
      obtain ⟨t, hCall, hRest⟩ := forM_cons_eq_ok.mp h
      obtain ⟨kids₁, new, hSpace₁, hMapped⟩ := map_spec hSpace hCall
      exact ih t s' kids₁ (m.apply c) hSpace₁ (hAgree.step hMapped) hRest

/-! ## Runs that stop -/

/-- A stop that the code or the assumptions account for. -/
def Stop.Rejects : Stop → Prop
  | .panic _ => True
  | .contract => True
  | _ => False

private theorem panicOn_error {cond : Bool} {msg : String} {e : Stop}
    (h : (panicOn cond msg).run s = .error e) : e.Rejects := by
  unfold panicOn at h
  cases cond with
  | true =>
      cases h
      trivial
  | false => cases h

private theorem pgallocz_error {e : Stop} (h : (pgallocz arch env).run s = .error e) :
    e.Rejects := by
  rcases bind_eq_error h with h | ⟨base, t, _, h⟩
  · unfold pgalloc at h
    rcases bind_eq_error h with h | ⟨_, _, hGet, h⟩
    · cases h
    · dsimp only at h
      split at h
      · cases h
      · split at h
        · cases h
        · cases h
          trivial
  · rcases bind_eq_error h with h | ⟨_, _, _, h⟩
    · exact panicOn_error h
    · cases h

private theorem ptwalkLoop_error {addr flags : Nat} {e : Stop} :
    ∀ (infos : List PtInfo) (info : PtInfo) (pt : Nat) (s : VM),
      (ptwalkLoop arch env addr flags (info :: infos) pt).run s = .error e →
      e.Rejects := by
  intro infos
  induction infos with
  | nil => intro info pt s h; cases h
  | cons next levels ih =>
      intro info pt s h
      rw [ptwalkLoop] at h
      rcases bind_eq_error h with h | ⟨entry, t, _, h⟩
      · cases h
      · split at h
        · rcases bind_eq_error h with h | ⟨p, t', _, h⟩
          · exact pgallocz_error h
          · rcases bind_eq_error h with h | ⟨_, t'', _, h⟩
            · cases h
            · exact ih next p t'' h
        · exact ih next _ t h

private theorem ptwalk_error {va flags : Nat} {e : Stop}
    (h : (ptwalk arch env as va flags).run s = .error e) : e.Rejects := by
  rw [ptwalk, pgtables_eq] at h
  exact ptwalkLoop_error _ _ _ _ h

/-- `map` stops only in a `panic_on` or because the pager broke its promise;
in particular `bug()` is never reached. -/
theorem map_error {va pa : Nat} {prot : BitVec 32} {e : Stop}
    (h : (map arch env as va pa prot).run s = .error e) : e.Rejects := by
  unfold map at h
  rcases bind_eq_error h with h | ⟨_, _, _, h⟩
  · exact panicOn_error h
  rcases bind_eq_error h with h | ⟨_, _, _, h⟩
  · exact panicOn_error h
  rcases bind_eq_error h with h | ⟨a, _, _, h⟩
  · exact ptwalk_error h
  rcases bind_eq_error h with h | ⟨entry, t, _, h⟩
  · cases h
  split at h
  all_goals
    rcases bind_eq_error h with h | ⟨_, _, _, h⟩
    · exact panicOn_error h
    rcases bind_eq_error h with h | ⟨_, _, _, h⟩
    · cases h
    rcases bind_eq_error h with h | ⟨_, _, _, h⟩
    · exact ptwalk_error h
    · cases h

/-! ## The refinement -/

/-- The walk after `protect` and any accepted calls, whatever their pages. -/
theorem maps_seen (hAs : as ∈ s.spaces)
    (hOutside : ∀ q ∈ s.live, ¬ InPage (mmu arch).pgsize q as) {s₁ s₂ : VM}
    (hProtect : (protect arch env as).run s = .ok ((), s₁)) {calls : List MapCall}
    (hMaps : (maps arch env as calls).run s₁ = .ok ((), s₂)) :
    ∃ kword root kids,
      Space arch s₂ kword as root kids ∧ Agrees arch kids root (userMap calls) := by
  rw [mmu_pgsize] at hOutside
  obtain ⟨root, _, hSpace, _⟩ := protect_spec hAs hOutside hProtect
  have hEmpty : Agrees arch (fun _ => .empty) root fun _ => none := by
    intro va _
    rw [tables_eq]
    show Option.map _ (RadixTree.find (RadixTree.table root _) (_ :: _)) = none
    rw [RadixTree.find_of_sub_eq (RadixTree.sub_table ..), RadixTree.find_empty]
    rfl
  obtain ⟨kids, hAfter⟩ := maps_agree calls s₁ s₂ _ _ hSpace hEmpty hMaps
  exact ⟨_, root, kids, hAfter⟩

/--
**`map` refines the abstract user memory.**  For either word size, take any
address space made by `protect` and any calls of `map` on it.  A run stops
only in a `panic_on` or because the pager broke its promise.  Otherwise the
hardware walk from `as->ptr` gives, for every address of the user area, the
translation recorded by the abstract map of the calls, if the processor can be told
the pages of the calls; and a further accepted call changes the translation of its
own page only.
-/
theorem maps_refine (arch : Arch) (env : Pager) (s₀ s₁ : VM) (as : Nat)
    (calls : List MapCall) (hAs : as ∈ s₀.spaces)
    (hOutside : ∀ q ∈ s₀.live, ¬ InPage (mmu arch).pgsize q as)
    (hProtect : (protect arch env as).run s₀ = .ok ((), s₁)) :
    (∀ e, (maps arch env as calls).run s₁ = .error e → e.Rejects) ∧
    ∀ s₂, (maps arch env as calls).run s₁ = .ok ((), s₂) →
      ((∀ c ∈ calls, Addressable arch c.pa) → ∀ va, inRange va (uvmArea arch) = true →
        translate arch s₂.mem va (s₂.mem as) = (userMap calls).translation va) ∧
      ∀ (c : MapCall) (s₃ : VM),
        (map arch env as c.va c.pa c.prot).run s₂ = .ok ((), s₃) →
        ∀ va, inRange va (uvmArea arch) = true → roundDown va 4096 ≠ c.va →
          translate arch s₃.mem va (s₃.mem as) =
            translate arch s₂.mem va (s₂.mem as) := by
  refine ⟨?_, ?_⟩
  · intro e h
    obtain ⟨c, _, t, hFail⟩ := forM_eq_error calls s₁ h
    exact map_error hFail
  · intro s₂ hMaps
    obtain ⟨_, root, kids, hSpace₂, hAgree⟩ := maps_seen hAs hOutside hProtect hMaps
    refine ⟨?_, ?_⟩
    · intro hBelow va hVa
      rw [hSpace₂.translate_agrees hAgree hVa, (userMap_below hBelow).seen]
    · intro c s₃ hCall va hVa hPage
      obtain ⟨kids₃, new, hSpace₃, hMapped⟩ := map_spec hSpace₂ hCall
      rw [hSpace₃.translate_agrees (hAgree.step hMapped) hVa,
        hSpace₂.translate_agrees hAgree hVa]
      simp only [UserMap.translation, UserMap.seen, UserMap.apply, Function.update_of_ne hPage]

end

/-! ## A first process -/

/-- A pager that hands out the pages from 16 MiB on. -/
def steadyPager : Pager where
  page := fun n => 0x1000000 + n * 4096
  junk := fun _ _ => 0

/-- A state with one `AddrSpace` object and no table. -/
def bootVM : VM where
  mem := fun _ => 0
  kpt := pml4Addr
  cr3 := pml4Addr
  cr0 := 0
  clock := 0
  live := []
  spaces := [8]
  allocated := []
  freed := []

/-- Two pages mapped by a first process. -/
def bootCalls : List MapCall :=
  [⟨0x100000000000, 0x2000000, mmapWrite⟩, ⟨0x100000001000, 0x2001000, mmapRead⟩]

theorem maps_refine_boot :
    ∃ s₁ s₂, (protect .x86_64 steadyPager 8).run bootVM = .ok ((), s₁) ∧
      (maps .x86_64 steadyPager 8 bootCalls).run s₁ = .ok ((), s₂) ∧
      ∀ va, inRange va (uvmArea .x86_64) = true →
        translate .x86_64 s₂.mem va (s₂.mem 8) =
          (userMap bootCalls).translation va := by
  obtain ⟨_, s₂, hRun⟩ := exists_of_succeeds
    (x := do protect .x86_64 steadyPager 8; maps .x86_64 steadyPager 8 bootCalls)
    (s := bootVM) (by decide +kernel)
  obtain ⟨_, s₁, hProtect, hMaps⟩ := bind_eq_ok.mp hRun
  have hRefines := maps_refine .x86_64 steadyPager bootVM s₁ 8 bootCalls
    (List.mem_singleton_self 8) (by simp [bootVM]) hProtect
  exact ⟨s₁, s₂, hProtect, hMaps, (hRefines.2 s₂ hMaps).1 (by decide)⟩

/-- A page just above the 52 bits that an entry has for it. -/
def farCalls : List MapCall := [⟨0x100000000000, 2 ^ 52, mmapWrite⟩]

/-- `map` accepts the page, and the processor goes to page 0 instead. -/
theorem map_far :
    ∃ s₁ s₂, (protect .x86_64 steadyPager 8).run bootVM = .ok ((), s₁) ∧
      (maps .x86_64 steadyPager 8 farCalls).run s₁ = .ok ((), s₂) ∧
      inRange 0x100000000000 (uvmArea .x86_64) = true ∧
      translate .x86_64 s₂.mem 0x100000000000 (s₂.mem 8) =
        some { paddr := 0, writable := true, user := true } ∧
      (userMap farCalls).translation 0x100000000000 =
        some { paddr := 2 ^ 52, writable := true, user := true } := by
  obtain ⟨_, s₂, hRun⟩ := exists_of_succeeds
    (x := do protect .x86_64 steadyPager 8; maps .x86_64 steadyPager 8 farCalls)
    (s := bootVM) (by decide +kernel)
  obtain ⟨_, s₁, hProtect, hMaps⟩ := bind_eq_ok.mp hRun
  obtain ⟨_, root, kids, hSpace, hAgree⟩ :=
    maps_seen (List.mem_singleton_self 8) (by simp [bootVM]) hProtect hMaps
  have hVa : inRange 0x100000000000 (uvmArea .x86_64) = true := by decide
  have hWalk := hSpace.translate_agrees hAgree hVa
  exact ⟨s₁, s₂, hProtect, hMaps, hVa, hWalk.trans (by decide), by decide⟩

end AbstractMachine.X86.Vme
