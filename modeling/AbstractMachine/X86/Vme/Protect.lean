import AbstractMachine.X86.Vme.Space

/-!
# The area loops and `protect`

A loop over a memory area runs once for every stride from its start to its
end, also when the end has wrapped to address 0.  `protect` therefore copies
exactly the level-1 kernel entries and leaves the user part of the new root
table empty.
-/

namespace AbstractMachine.X86.Vme

open AbstractMachine.Lib

section

variable {arch : Arch} {env : Pager}

/-! ## Loops over an area -/

/-- The loop visits `cur, cur + stride, …` until it reaches the end. -/
theorem areaLoop_eq {stop stride : Nat} {body : Nat → Vm Unit} :
    ∀ (k fuel cur : Nat), k < fuel → cur < 2 ^ wordBits arch →
      (∀ j < k, cur + j * stride < 2 ^ wordBits arch ∧ cur + j * stride ≠ stop) →
      (cur + k * stride) % 2 ^ wordBits arch = stop →
      areaLoop arch stop stride body fuel cur =
        (List.range' cur k stride).forM body := by
  intro k
  induction k with
  | zero =>
      intro fuel cur hFuel hCur _ hStop
      obtain ⟨fuel, rfl⟩ := Nat.exists_eq_succ_of_ne_zero (Nat.ne_of_gt hFuel)
      rw [Nat.zero_mul, Nat.add_zero, Nat.mod_eq_of_lt hCur] at hStop
      rw [areaLoop, if_pos hStop]
      rfl
  | succ k ih =>
      intro fuel cur hFuel hCur hSteps hStop
      obtain ⟨fuel, rfl⟩ := Nat.exists_eq_succ_of_ne_zero (Nat.ne_of_gt
        (Nat.lt_of_le_of_lt (Nat.zero_le _) hFuel))
      have hNot : cur ≠ stop := by
        simpa using (hSteps 0 (Nat.succ_pos k)).2
      have hPow : 0 < 2 ^ wordBits arch := Nat.two_pow_pos _
      have hRest : (List.range' ((cur + stride) % 2 ^ wordBits arch) k stride) =
          List.range' (cur + stride) k stride := by
        cases k with
        | zero => rfl
        | succ k =>
            have hNext := (hSteps 1 (by omega)).1
            rw [Nat.one_mul] at hNext
            rw [Nat.mod_eq_of_lt hNext]
      rw [areaLoop, if_neg hNot, List.range'_succ,
        ih fuel _ (by omega) (Nat.mod_lt _ hPow) ?_ ?_, hRest]
      · rfl
      · intro j hj
        have hHere := (hSteps 1 (by omega)).1
        have hNext := hSteps (j + 1) (by omega)
        rw [Nat.one_mul] at hHere
        rw [Nat.mod_eq_of_lt hHere, Nat.add_assoc,
          show stride + j * stride = (j + 1) * stride by rw [Nat.succ_mul]; omega]
        exact hNext
      · rw [Nat.mod_add_mod, ← hStop, Nat.succ_mul]
        congr 1
        omega

/-- The loop over an area of `k` strides. -/
theorem forArea_eq {area : VmArea} {stride k : Nat} {body : Nat → Vm Unit}
    (hStride : 0 < stride) (hPos : 0 < k)
    (hEnd : area.start + k * stride = area.stop ∧ area.stop < 2 ^ wordBits arch ∨
      area.start + k * stride = 2 ^ wordBits arch ∧ area.stop = 0 ∧ 0 < area.start) :
    forArea arch area stride body = (List.range' area.start k stride).forM body := by
  have hLe : area.start + k * stride ≤ 2 ^ wordBits arch := by
    rcases hEnd with ⟨h, hLt⟩ | ⟨h, _⟩ <;> omega
  have hk : k ≤ k * stride := Nat.le_mul_of_pos_right k hStride
  have hLast : ∀ j < k, area.start + j * stride < area.start + k * stride := by
    intro j hj
    exact Nat.add_lt_add_left (Nat.mul_lt_mul_of_pos_right hj hStride) _
  refine areaLoop_eq k _ _ (by omega) (by omega) ?_ ?_
  · intro j hj
    have h := hLast j hj
    refine ⟨by omega, ?_⟩
    rcases hEnd with ⟨h', _⟩ | ⟨_, h0, hStart⟩ <;> omega
  · rcases hEnd with ⟨h, hLt⟩ | ⟨h, h0, _⟩
    · rw [h, Nat.mod_eq_of_lt hLt]
    · rw [h, h0, Nat.mod_self]

/-- The addresses a loop with the given stride visits in the kernel areas. -/
def kernelCurs : Arch → Nat → List Nat
  | .x86_64, stride => List.range' 0 (0x8000000000 / stride) stride
  | .i386, stride =>
      List.range' 0 (0x40000000 / stride) stride ++
        List.range' 0xfd000000 (0x03000000 / stride) stride

/-- The loops over the kernel areas, for a stride that divides them. -/
theorem forM_vmAreas (arch : Arch) (stride : Nat) {body : Nat → Vm Unit}
    (hStride : 0 < stride)
    (hDvd : match arch with
      | .x86_64 => stride ∣ 0x8000000000
      | .i386 => stride ∣ 0x40000000 ∧ stride ∣ 0x03000000)
    {s s' : VM} {u : Unit}
    (h : ((vmAreas arch).forM fun vma => do
      if vma.kernel then forArea arch vma stride body).run s = .ok (u, s')) :
    ((kernelCurs arch stride).forM body).run s = .ok (u, s') := by
  cases arch with
  | x86_64 =>
      obtain ⟨t, hUser, hRest⟩ := forM_cons_eq_ok.mp h
      obtain ⟨-, rfl⟩ := pure_eq_ok.mp hUser
      obtain ⟨t', hKernel, hNil⟩ := forM_cons_eq_ok.mp hRest
      cases forM_nil_eq_ok.mp hNil
      obtain ⟨k, hk⟩ : stride ∣ 0x8000000000 := hDvd
      have hPos : 0 < k := by
        rcases Nat.eq_zero_or_pos k with rfl | h
        · simp at hk
        · exact h
      have hArea : forArea .x86_64 ⟨0, 0x8000000000, true⟩ stride body =
          (List.range' 0 k stride).forM body := forArea_eq hStride hPos
        (Or.inl ⟨by dsimp only; rw [Nat.zero_add, Nat.mul_comm]; exact hk.symm,
          by decide⟩)
      rw [kernelCurs, hk, Nat.mul_div_cancel_left k hStride, ← hArea]
      exact hKernel
  | i386 =>
      obtain ⟨t, hUser, hRest⟩ := forM_cons_eq_ok.mp h
      obtain ⟨-, rfl⟩ := pure_eq_ok.mp hUser
      obtain ⟨t', hKernel, hRest'⟩ := forM_cons_eq_ok.mp hRest
      obtain ⟨t'', hIo, hNil⟩ := forM_cons_eq_ok.mp hRest'
      cases forM_nil_eq_ok.mp hNil
      obtain ⟨⟨k, hk⟩, l, hl⟩ : stride ∣ 0x40000000 ∧ stride ∣ 0x03000000 := hDvd
      have hPos : 0 < k := by
        rcases Nat.eq_zero_or_pos k with rfl | h
        · simp at hk
        · exact h
      have hPos' : 0 < l := by
        rcases Nat.eq_zero_or_pos l with rfl | h
        · simp at hl
        · exact h
      have hArea : forArea .i386 ⟨0, 0x40000000, true⟩ stride body =
          (List.range' 0 k stride).forM body := forArea_eq hStride hPos
        (Or.inl ⟨by dsimp only; rw [Nat.zero_add, Nat.mul_comm]; exact hk.symm,
          by decide⟩)
      have hArea' : forArea .i386 ⟨0xfd000000, 0, true⟩ stride body =
          (List.range' 0xfd000000 l stride).forM body := forArea_eq hStride hPos'
        (Or.inr ⟨by dsimp only; rw [Nat.mul_comm, ← hl]; rfl, rfl, by decide⟩)
      rw [kernelCurs, hk, hl, Nat.mul_div_cancel_left k hStride,
        Nat.mul_div_cancel_left l hStride, forM_append_eq_ok, ← hArea, ← hArea']
      exact ⟨t', hKernel, hIo⟩

/-! ## Copying the kernel entries -/

/-- The stride of the copy loop, and the level-1 index it reaches. -/
theorem index_kernelCurs (i : Nat) :
    KernelIndex arch i ↔ ∃ cur ∈ kernelCurs arch (1 <<< (level1 arch).shift),
      indexof cur (level1 arch) = i := by
  have hIndex : ∀ cur, indexof cur (level1 arch) =
      cur / 2 ^ (level1 arch).shift % 2 ^ (level1 arch).bits :=
    indexof_eq (level1_ok arch)
  simp only [hIndex]
  cases arch with
  | x86_64 =>
      have hCurs : kernelCurs .x86_64 (1 <<< (level1 .x86_64).shift) = [0] := by decide
      rw [hCurs]
      simp [KernelIndex, eq_comm]
  | i386 =>
      show (i < 256 ∨ 1012 ≤ i ∧ i < 1024) ↔ ∃ cur ∈
        List.range' 0 256 4194304 ++ List.range' 0xfd000000 12 4194304,
          cur / 4194304 % 1024 = i
      simp only [List.mem_append, List.mem_range']
      constructor
      · rintro (h | h)
        · exact ⟨i * 4194304, Or.inl ⟨i, h, by omega⟩, by omega⟩
        · exact ⟨i * 4194304, Or.inr ⟨i - 1012, by omega, by omega⟩, by omega⟩
      · rintro ⟨cur, (⟨j, hj, rfl⟩ | ⟨j, hj, rfl⟩), rfl⟩
        · exact Or.inl (by omega)
        · exact Or.inr (by omega)

/-- The copy loop writes the slots it visits and no others; a slot it visits
ends up with the kernel's word, provided the two tables are apart. -/
theorem copy_forM (upt : Nat) :
    ∀ (curs : List Nat) (s s' : VM) (u : Unit),
      (curs.forM (copyKernelEntry arch upt)).run s = .ok (u, s') →
      Grows arch s s' [] ∧
      (∀ x, (∀ cur ∈ curs,
          x ≠ upt + indexof cur (level1 arch) * wordBytes arch) →
        s'.mem x = s.mem x) ∧
      ((∀ i j, i < fanout (level1 arch) → j < fanout (level1 arch) →
          s.kpt + i * wordBytes arch ≠ upt + j * wordBytes arch) →
        ∀ cur ∈ curs, s'.mem (upt + indexof cur (level1 arch) * wordBytes arch) =
          s.mem (s.kpt + indexof cur (level1 arch) * wordBytes arch)) := by
  intro curs
  induction curs with
  | nil =>
      intro s s' u h
      cases forM_nil_eq_ok.mp h
      exact ⟨Grows.refl arch s, fun _ _ => rfl, fun _ cur hCur => by simp at hCur⟩
  | cons cur curs ih =>
      intro s s' u h
      obtain ⟨t, hCopy, hRest⟩ := forM_cons_eq_ok.mp h
      cases hCopy
      obtain ⟨hGrow, hOther, hCopied⟩ := ih _ s' u hRest
      generalize hSlot : upt + indexof cur (level1 arch) * wordBytes arch = slot at *
      generalize hWord : s.mem (s.kpt + indexof cur (level1 arch) * wordBytes arch) =
        word at *
      have hHere : ∀ x, (VM.write s slot word).mem x = if x = slot then word
          else s.mem x := fun x => Function.update_apply s.mem slot word x
      refine ⟨(Grows.write arch s slot word).trans hGrow, ?_, ?_⟩
      · intro x hx
        rw [hOther x fun c hc => hx c (List.mem_cons_of_mem _ hc), hHere,
          if_neg (hSlot ▸ hx cur (List.mem_cons_self ..))]
      · intro hApart c hc
        -- the kernel words survive the first write, so the rest sees them
        have hKept : ∀ i < fanout (level1 arch),
            (VM.write s slot word).mem (s.kpt + i * wordBytes arch) =
              s.mem (s.kpt + i * wordBytes arch) := by
          intro i hi
          rw [hHere, if_neg (hSlot ▸ hApart i _ hi (indexof_lt (level1_ok arch) cur))]
        by_cases hLater : ∃ c' ∈ curs,
            indexof c' (level1 arch) = indexof c (level1 arch)
        · obtain ⟨c', hc', hEq⟩ := hLater
          rw [← hEq, hCopied hApart c' hc']
          exact hKept _ (indexof_lt (level1_ok arch) c')
        · have hcur : c = cur := by
            rcases List.mem_cons.mp hc with h | h
            · exact h
            · exact absurd ⟨c, h, rfl⟩ hLater
          subst hcur
          rw [hSlot, hWord, hOther slot ?_, hHere, if_pos rfl]
          rintro c' hc' hEq
          refine hLater ⟨c', hc', ?_⟩
          rw [← hSlot] at hEq
          exact (Nat.eq_of_mul_eq_mul_right (layout arch true).stride_pos
            (Nat.add_left_cancel hEq)).symm

/-! ## `protect` -/

/--
**`protect` specification.**  The new address space maps nothing, owns one
fresh page, and its kernel slots hold the kernel's words when the kernel root
table is a page in use.
-/
theorem protect_spec {s s' : VM} {as : Nat} {u : Unit} (hAs : as ∈ s.spaces)
    (hOutside : ∀ q ∈ s.live, ¬ InPage 4096 q as)
    (hRun : (protect arch env as).run s = .ok (u, s')) :
    ∃ root, Grows arch s s' [root] ∧
      Space arch s' (fun i => s'.mem (root + i * wordBytes arch)) as root
        (fun _ => .empty) ∧
      (∀ x, x ≠ as → ¬ InPage 4096 root x → s'.mem x = s.mem x) ∧
      (s.kpt ∈ s.live → s.kpt % 4096 = 0 → ∀ i, KernelIndex arch i →
        s'.mem (root + i * wordBytes arch) =
          s.mem (s.kpt + i * wordBytes arch)) := by
  rw [protect, bind_eq_ok] at hRun
  obtain ⟨root, s₁, hAlloc, hRun⟩ := hRun
  rw [bind_eq_ok] at hRun
  obtain ⟨_, s₂, hLoops, hStore⟩ := hRun
  have hCopy := forM_vmAreas arch _ (by cases arch <;> decide) (by cases arch <;> decide)
    hLoops
  cases store_ok hStore
  obtain ⟨hGrow, hZero, hKeep⟩ := pgallocz_ok hAlloc
  obtain ⟨hGrow₂, hOther, hCopied⟩ := copy_forM root _ _ _ _ hCopy
  have hAll : Grows arch s (s₂.write as (root ||| pteP ||| pteU)) [root] := by
    simpa using (hGrow.trans hGrow₂).trans (Grows.write arch s₂ as _)
  have hRootAligned : root % 4096 = 0 := hGrow.aligned root (by simp)
  have hFits := (level1_ok arch).fits
  have hIn : ∀ i < fanout (level1 arch),
      InPage 4096 root (root + i * wordBytes arch) :=
    fun i hi => inPage_slot hi (layout arch true).stride_pos hFits
  have hAsOut : ¬ InPage 4096 root as := hGrow.apart root (by simp) as hAs
  have hMem : ∀ x, x ≠ as →
      (s₂.write as (root ||| pteP ||| pteU)).mem x = s₂.mem x :=
    fun x hx => Function.update_of_ne hx ..
  have hSlot : ∀ i < fanout (level1 arch),
      (s₂.write as (root ||| pteP ||| pteU)).mem (root + i * wordBytes arch) =
        s₂.mem (root + i * wordBytes arch) := by
    intro i hi
    refine hMem _ ?_
    rintro hEq
    exact hAsOut (hEq ▸ hIn i hi)
  refine ⟨root, hAll, ?_, ?_, ?_⟩
  · exact
      { ptr := Function.update_self ..
        aligned := hRootAligned
        kernel := fun _ _ => rfl
        user := by
          intro i hi hUser
          rw [slotRep_empty]
          show (s₂.write as _).mem (root + i * wordBytes arch) = 0
          rw [hSlot i hi, hOther _ ?_]
          · exact hZero i (Nat.le_trans (Nat.mul_le_mul_right _ hi) hFits)
          · intro cur hCur hEq
            refine hUser ((index_kernelCurs i).mpr ⟨cur, hCur, ?_⟩)
            exact (Nat.eq_of_mul_eq_mul_right (layout arch true).stride_pos
              (Nat.add_left_cancel hEq)).symm
        vacant := fun _ _ => rfl
        separated := ⟨fun _ => id, fun _ _ _ hq => absurd hq id, fun _ => trivial⟩
        owned := by
          intro q hq
          have hq' : q = root := by simpa using hq
          rw [hAll.mem_live, hq']
          exact Or.inl (by simp)
        below := by
          intro q hq
          have hq' : q = root := by simpa using hq
          rw [hq']
          exact hGrow.below root (by simp)
        outside := by
          intro q hq
          rcases (hAll.mem_live q).mp hq with hq | hq
          · rw [List.mem_singleton.mp hq]
            exact hAsOut
          · exact hOutside q hq
        inUse := hAll.spaces ▸ hAs }
  · intro x hx hxRoot
    rw [hMem x hx, hOther x, hKeep x hxRoot]
    rintro cur _ rfl
    exact hxRoot (hIn _ (indexof_lt (level1_ok arch) cur))
  · intro hKptLive hKptAligned i hi
    have hNe : s.kpt ≠ root := by
      intro hEq
      exact hGrow.fresh root (by simp) (hEq ▸ hKptLive)
    have hKptIn : ∀ i < fanout (level1 arch),
        ¬ InPage 4096 root (s.kpt + i * wordBytes arch) := by
      intro i hi hRoot
      exact hNe (inPage_unique hKptAligned hRootAligned
        (inPage_slot hi (layout arch true).stride_pos hFits) hRoot)
    obtain ⟨cur, hCur, rfl⟩ := (index_kernelCurs i).mp hi
    have hLt := indexof_lt (level1_ok arch) cur
    show (s₂.write as _).mem _ = _
    rw [hSlot _ hLt, hCopied ?_ cur hCur, hGrow.kpt, hKeep _ (hKptIn _ hLt)]
    rintro i j hi hj hEq
    rw [hGrow.kpt] at hEq
    exact hKptIn i hi (hEq ▸ hIn j hj)

end

end AbstractMachine.X86.Vme
