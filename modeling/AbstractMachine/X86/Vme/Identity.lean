import AbstractMachine.X86.Vme.Boot

/-!
# The kernel's identity mapping

What every linear address is translated to when `vme_init` has returned on the
boot CPU: the kernel areas to themselves and nothing else.  The run ends whatever
`pgalloc` does, and it ends well when `pgalloc` always has a page.
-/

namespace AbstractMachine.X86.Vme

open AbstractMachine.Lib

/-- The upper bits of a linear address are copies of bit 47. -/
def Canonical : Arch → Nat → Prop
  | .i386, _ => True
  | .x86_64, va => va < 2 ^ 47 ∨ 2 ^ 64 - 2 ^ 47 ≤ va

instance (arch : Arch) (va : Nat) : Decidable (Canonical arch va) :=
  match arch with
  | .i386 => inferInstanceAs (Decidable True)
  | .x86_64 => inferInstanceAs (Decidable (_ ∨ _))

/-- The processor walks the tables for canonical addresses only. -/
def pageWalk (arch : Arch) (mem : Nat → Nat) (cr3 va : Nat) : Option Translation :=
  if Canonical arch va then translate arch mem va cr3 else none

/-- `cr3` maps the kernel areas to themselves, closed to the user, and nothing else. -/
def IdentityMap (arch : Arch) (mem : Nat → Nat) (cr3 : Nat) : Prop :=
  ∀ va < 2 ^ wordBits arch, pageWalk arch mem cr3 va =
    if InKernel arch va then some { paddr := va, writable := true, user := false } else none

/-! ## How the loops end -/

section

variable {env : Pager} {inv : VM → Prop} {E : Stop → Prop} {s : VM} {as : Nat}

/-- A property that a change of memory keeps, and that `pgallocz` keeps or fails with `E`. -/
structure Allocates (env : Pager) (inv : VM → Prop) (E : Stop → Prop) : Prop where
  write : ∀ s a v, inv s → inv (s.write a v)
  alloc : ∀ s, inv s → Ends (pgallocz .i386 env) s (fun _ => inv) E

theorem Allocates.load (_h : Allocates env inv E) (hs : inv s) (a : Nat) :
    Ends (load a) s (fun _ => inv) E :=
  Ends.of_ok rfl hs

theorem Allocates.store (h : Allocates env inv E) (hs : inv s) (a v : Nat) :
    Ends (store a v) s (fun _ => inv) E :=
  Ends.of_ok rfl (h.write s a v hs)

theorem Allocates.ptwalkLoop (h : Allocates env inv E) (addr flags : Nat) :
    ∀ (infos : List PtInfo) (info : PtInfo) (pt : Nat) (s : VM), inv s →
      Ends (ptwalkLoop .i386 env addr flags (info :: infos) pt) s (fun _ => inv) E := by
  intro infos
  induction infos with
  | nil =>
      intro info pt s hs
      exact Ends.of_ok rfl hs
  | cons next levels ih =>
      intro info pt s hs
      rw [Vme.ptwalkLoop]
      apply (h.load hs _).bind
      intro entry t ht
      split
      · apply (h.alloc t ht).bind
        intro page t₁ ht₁
        apply (h.store ht₁ _ _).bind
        intro _ t₂ ht₂
        exact ih next page t₂ ht₂
      · exact ih next _ t ht

theorem Allocates.mapKernelPage (h : Allocates env inv E) (as cur : Nat) (hs : inv s) :
    Ends (mapKernelPage .i386 env as cur) s (fun _ => inv) E := by
  rw [Vme.mapKernelPage, ptwalk, pgtables_eq]
  apply (h.ptwalkLoop cur pteW _ _ as s hs).bind
  intro entry t ht
  exact h.store ht _ _

/-- The loops over the areas come to their ends; the last area ends at address 0. -/
theorem Allocates.loops (h : Allocates env inv E) (as : Nat) (hs : inv s) :
    Ends ((vmAreas .i386).forM fun vma => do
      if vma.kernel then forArea .i386 vma 4096 (Vme.mapKernelPage .i386 env as)) s
      (fun _ => inv) E := by
  have hArea : ∀ area k, 0 < k → (area.start + k * 4096 = area.stop ∧ area.stop < 2 ^ 32 ∨
      area.start + k * 4096 = 2 ^ 32 ∧ area.stop = 0 ∧ 0 < area.start) → ∀ t, inv t →
      Ends (forArea .i386 area 4096 (Vme.mapKernelPage .i386 env as)) t (fun _ => inv) E := by
    intro area k hPos hEnd t ht
    rw [forArea_eq (by decide) hPos hEnd]
    exact Ends.forM (fun cur _ t ht => h.mapKernelPage as cur ht) t ht
  apply Ends.forM ?_ s hs
  intro area hMem t ht
  have hCases : area = ⟨0x40000000, 0x80000000, false⟩ ∨ area = ⟨0x00000000, 0x40000000, true⟩ ∨
      area = ⟨0xfd000000, 0x00000000, true⟩ := by simpa [vmAreas] using hMem
  rcases hCases with rfl | rfl | rfl
  · exact Ends.of_ok rfl ht
  · exact hArea _ 262144 (by decide) (Or.inl ⟨rfl, by decide⟩) t ht
  · exact hArea _ 12288 (by decide) (Or.inr ⟨rfl, rfl, by decide⟩) t ht

theorem Allocates.vmeInit (h : Allocates env inv E) (as : Nat) (hs : inv s) :
    Ends (vmeInit .i386 env 0 as) s (fun _ _ => True) E := by
  rw [Vme.vmeInit]
  refine Ends.bind (Q := fun _ => inv) (Ends.of_ok rfl hs) ?_
  intro _ t ht
  apply (h.store ht as 0).bind
  intro _ t₁ ht₁
  rw [mmu_pgsize]
  apply (h.loops as ht₁).bind
  intro _ t₂ ht₂
  exact Ends.of_ok rfl trivial

/-! ## `pgalloc` -/

/-- `pgalloc` has no page, or gives one that is in use. -/
def AllocFails (e : Stop) : Prop := e = .panic "cannot allocate page" ∨ e = .contract

private theorem allocates_any (env : Pager) : Allocates env (fun _ => True) AllocFails where
  write _ _ _ _ := trivial
  alloc s _ := by
    have hPage : Ends (pgalloc .i386 env) s (fun _ _ => True) AllocFails := by
      rw [pgalloc]
      refine Ends.bind (Q := fun _ _ => True) (Ends.of_ok rfl trivial) ?_
      intro t t' _
      dsimp only
      split
      · exact Ends.of_ok rfl trivial
      · split
        · exact Ends.of_ok rfl trivial
        · exact Ends.of_error rfl (Or.inr rfl)
    rw [pgallocz]
    apply hPage.bind
    intro base t _
    refine Ends.bind (Q := fun _ _ => True) ?_ fun _ _ _ => Ends.of_ok rfl trivial
    unfold panicOn
    split
    · exact Ends.of_error rfl (Or.inl rfl)
    · exact Ends.of_ok rfl trivial

/-- `pgalloc` always has a page: an aligned one, not handed out before, and away from
the `AddrSpace` at `as`. -/
structure Pager.Serves (env : Pager) (as : Nat) : Prop where
  nonnull : ∀ k, env.page k ≠ 0
  aligned : ∀ k, env.page k % 4096 = 0
  apart : ∀ k, ¬ InPage 4096 (env.page k) as
  fresh : ∀ j k, j < k → env.page j ≠ env.page k

/-- The pages in use have been handed out by `pgalloc`. -/
structure Served (env : Pager) (as : Nat) (s : VM) : Prop where
  live : ∀ q ∈ s.live, ∃ k < s.clock, env.page k = q
  spaces : s.spaces = [as]

theorem Served.fresh (h : Served env as s) (hServes : env.Serves as) :
    s.Fresh .i386 (env.page s.clock) := by
  have hBelow : Addressable .i386 (env.page s.clock) := nofun
  refine ⟨hServes.aligned s.clock, hBelow, ?_, ?_⟩
  · intro hLive
    obtain ⟨k, hk, hEq⟩ := h.live _ hLive
    exact hServes.fresh k s.clock hk hEq
  · intro a ha
    rw [h.spaces] at ha
    rw [List.mem_singleton.mp ha]
    exact hServes.apart s.clock

private theorem allocates_serves (hServes : env.Serves as) :
    Allocates env (Served env as) fun _ => False where
  write _ _ _ h := { h with }
  alloc s h := by
    have hPage : Ends (pgalloc .i386 env) s (fun p t => p ≠ 0 ∧ Served env as t)
        fun _ => False := by
      rw [pgalloc]
      refine Ends.bind (Q := fun t t' => t = s ∧ t' = s) (Ends.of_ok rfl ⟨rfl, rfl⟩) ?_
      rintro _ _ ⟨rfl, rfl⟩
      dsimp only
      rw [if_neg (hServes.nonnull _), if_pos (h.fresh hServes)]
      refine Ends.of_ok rfl ⟨hServes.nonnull _, ?_, h.spaces⟩
      intro q hq
      rcases List.mem_cons.mp hq with hNew | hOld
      · exact ⟨_, Nat.lt_succ_self _, hNew.symm⟩
      · obtain ⟨k, hk, hEq⟩ := h.live q hOld
        exact ⟨k, Nat.lt_succ_of_lt hk, hEq⟩
    rw [pgallocz]
    apply hPage.bind
    rintro base t ⟨hNonnull, ht⟩
    have hPanic : Ends (panicOn (base == 0) "cannot allocate page") t (fun _ => Served env as)
        fun _ => False := by
      unfold panicOn
      rw [if_neg (by simpa using hNonnull)]
      exact Ends.pure ht
    apply hPanic.bind
    intro _ t ht
    have hZeroed : Served env as { t with
        mem := zeroWords .i386 base ((mmu .i386).pgsize / wordBytes .i386) t.mem } :=
      ⟨ht.live, ht.spaces⟩
    refine Ends.bind (Q := fun _ => Served env as) (Ends.modify hZeroed) ?_
    intro _ _ h
    exact Ends.pure h

/-! ## What is mapped -/

theorem KernelTree.identityMap {kids : Nat → RadixTree Mapping} {root : Nat}
    (h : KernelTree .i386 s as (.table root kids)) (hIdentity : IdentityTree (.table root kids)) :
    IdentityMap .i386 s.mem root := by
  intro va hVa
  have hRound : roundDown va 4096 ≤ va ∧ va < roundDown va 4096 + 4096 := by
    rw [roundDown_eq]
    omega
  have hCanonical : Canonical .i386 va := trivial
  rw [pageWalk, if_pos hCanonical]
  by_cases hKernel : InKernel .i386 va
  · rw [if_pos hKernel]
    exact (h.tables hIdentity.found).identity va hKernel
  · rw [if_neg hKernel, h.translate, hIdentity.absent, Option.map_none]
    · exact List.length_map ..
    · -- A page on the same path would be the page of `va`.
      intro cur hCur hPath
      obtain ⟨hAligned, hIn⟩ := mem_kernelCurs_i386.mp hCur
      have hLt : cur < 2 ^ 32 := by
        rcases inKernel_i386.mp hIn with hLow | hHigh
        · omega
        · exact hHigh.2
      rw [← path_roundDown] at hPath
      have hVa' : va < 2 ^ 32 := hVa
      have hEq : roundDown va 4096 = cur :=
        path_i386_inj (by omega) hLt (roundDown_mod va) hAligned hPath
      apply hKernel
      rw [inKernel_i386] at hIn ⊢
      omega

theorem BootTables.identityMap {mem : Nat → Nat} (h : BootTables mem)
    (hZero : ∀ i, 0 < i → i < 512 → mem (pml4Addr + i * 8) = 0) :
    IdentityMap .x86_64 mem pml4Addr := by
  intro va hVa
  have hBits : va < 2 ^ 64 := hVa
  by_cases hKernel : InKernel .x86_64 va
  · have hLt := inKernel_x86_64.mp hKernel
    have hCanonical : Canonical .x86_64 va := Or.inl (by omega)
    rw [if_pos hKernel, pageWalk, if_pos hCanonical]
    exact h.kernel.identity va hKernel
  · rw [if_neg hKernel, pageWalk]
    split
    · rename_i hCanonical
      have hHigh : va < 2 ^ 47 ∨ 2 ^ 64 - 2 ^ 47 ≤ va := hCanonical
      rw [inKernel_x86_64] at hKernel
      have hIndex : indexof va (level1 .x86_64) = va / 2 ^ 39 % 2 ^ 9 :=
        indexof_eq (level1_ok .x86_64) va
      have hEntry : mem (frameOf .x86_64 pml4Addr 12 +
          indexof va (level1 .x86_64) * wordBytes .x86_64) = 0 := by
        rw [hIndex]
        exact hZero _ (by omega) (by omega)
      rw [translate_eq, hEntry]
      exact if_pos (Nat.zero_and _)
    · rfl

/-! ## From reset to the return of `vme_init` -/

private theorem boot_i386 {mem : Nat → Nat} (h : Allocates env inv E)
    (hs : inv (VM.reset .i386 mem as)) :
    Ends (boot .i386 env 0 as) (VM.reset .i386 mem as)
      (fun _ s => IdentityMap .i386 s.mem s.kpt) E := by
  rw [boot]
  refine Ends.bind (Q := fun _ s => s = VM.reset .i386 mem as) (Ends.pure rfl) ?_
  rintro _ _ rfl
  have hInit : Ends (vmeInit .i386 env 0 as) (VM.reset .i386 mem as)
      (fun _ s => IdentityMap .i386 s.mem s.kpt) E := by
    apply (h.vmeInit as hs).of_run
    intro _ s hRun
    obtain ⟨kids, hTree, hIdentity⟩ := vmeInit_i386_tree hRun
    exact hTree.identityMap hIdentity
  apply hInit.bind
  intro _ s hMap
  exact Ends.modify hMap

private theorem boot_x86_64 (env : Pager) {mem : Nat → Nat} (as : Nat)
    (hZero : ∀ i < 512, mem (pml4Addr + i * 8) = 0) :
    Ends (boot .x86_64 env 0 as) (VM.reset .x86_64 mem as)
      (fun _ s => IdentityMap .x86_64 s.mem s.kpt) E := by
  obtain ⟨s, hRun, hTables, -, hBelow⟩ := start64_runs (s := VM.reset .x86_64 mem as)
    (hZero 0 (by decide))
  have hRest : ∀ i, 0 < i → i < 512 → s.mem (pml4Addr + i * 8) = 0 := by
    intro i hPos hLt
    have hNe : pml4Addr + i * 8 ≠ pml4Addr := by omega
    have hUnder : pml4Addr + i * 8 < pdptAddr := by
      simp only [pml4Addr, pdptAddr]
      omega
    exact (hBelow _ hNe hUnder).trans (hZero i hLt)
  have hMap := hTables.identityMap hRest
  rw [boot]
  refine Ends.bind (Q := fun _ t => t = s) (Ends.of_ok hRun rfl) ?_
  rintro _ _ rfl
  exact Ends.of_ok rfl hMap

/--
**The kernel's identity mapping.** From reset to the return of `vme_init` on the
boot CPU, the run comes to its end unless `pgalloc` fails, and then the kernel
areas, and no other address, are mapped to themselves, writable and closed to the
user.  It does come there when `pgalloc` always has a page; x86_64 needs none.
-/
theorem kernel_identity (arch : Arch) (env : Pager) (mem : Nat → Nat) (as : Nat)
    (hZero : arch = .x86_64 → ∀ i < 512, mem (pml4Addr + i * 8) = 0) :
    Ends (boot arch env 0 as) (VM.reset arch mem as) (fun _ s => IdentityMap arch s.mem s.kpt)
        AllocFails ∧
      ((arch = .i386 → env.Serves as) →
        ∃ s, (boot arch env 0 as).run (VM.reset arch mem as) = .ok ((), s)) := by
  cases arch with
  | i386 =>
      refine ⟨boot_i386 (allocates_any env) trivial, ?_⟩
      intro hServes
      have hFirst : Served env as (VM.reset .i386 mem as) := ⟨nofun, rfl⟩
      obtain ⟨_, s, hRun, -⟩ := (boot_i386 (allocates_serves (hServes rfl)) hFirst).exists_ok
      exact ⟨s, hRun⟩
  | x86_64 =>
      refine ⟨boot_x86_64 env as (hZero rfl), ?_⟩
      intro _
      obtain ⟨_, s, hRun, -⟩ := (boot_x86_64 (E := fun _ => False) env as (hZero rfl)).exists_ok
      exact ⟨s, hRun⟩

end

/-- One page after the other. -/
def bump : Pager where
  page k := (k + 1) * 4096
  junk _ _ := 0

private theorem bump_serves : bump.Serves 0 where
  nonnull k := Nat.mul_ne_zero (Nat.succ_ne_zero k) (by decide)
  aligned k := Nat.mul_mod_left (k + 1) 4096
  apart k hIn := by
    have hLe : (k + 1) * 4096 ≤ 0 := hIn.1
    omega
  fresh j k hLt := by
    show (j + 1) * 4096 ≠ (k + 1) * 4096
    omega

theorem kernel_identity_bump :
    (∃ s, (boot .i386 bump 0 0).run (VM.reset .i386 (fun _ => 0) 0) = .ok ((), s)) ∧
      ∃ s, (boot .x86_64 bump 0 0).run (VM.reset .x86_64 (fun _ => 0) 0) = .ok ((), s) :=
  ⟨(kernel_identity .i386 bump (fun _ => 0) 0 nofun).2 fun _ => bump_serves,
    (kernel_identity .x86_64 bump (fun _ => 0) 0 fun _ _ _ => rfl).2 nofun⟩

end AbstractMachine.X86.Vme
