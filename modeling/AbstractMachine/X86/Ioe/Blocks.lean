import AbstractMachine.X86.Ioe.Render

/-!
# What one `gpu_render` stores

While the requests fit, and every rectangle lies in the picture that it is drawn in,
all stores go to bytes of `vbuf` and to pixels of the screen.  So nothing else in
memory changes, the tree in `vmem` and `vbuf_head` among it, and the blocks are what
they were when they were returned.
-/

namespace AbstractMachine.X86.Render

open AbstractMachine.Lib
open AbstractMachine.X86.Gpu (Word)

variable {arch : Arch} {vbuf : BitVec (wordBits arch)} {s₀ s t u : Gpu arch} {n H fuel : Nat}
  {px pxLocal : Ptr} {c : Canvas} {kids F : Forest} {W w h : BitVec 16} {m : Bytes} {ptr : Word}
  {r : Request} {before after : List Request}

/-- Nothing has changed but bytes of `vbuf` and the first `n` pixels of the frame
buffer. -/
structure Kept (n : Nat) (s t : Gpu arch) : Prop where
  mem : ∀ reg x, (reg = .vbuf → x < 0 ∨ (VMEM_SIZE : Int) ≤ x) → t.mem reg x = s.mem reg x
  fb : ∀ k : Int, k < 0 ∨ (n : Int) ≤ k → t.fb k = s.fb k

theorem Kept.refl (n : Nat) (s : Gpu arch) : Kept n s s := ⟨fun _ _ _ => rfl, fun _ _ => rfl⟩

theorem Kept.trans (h : Kept n s t) (h' : Kept n t u) : Kept n s u :=
  ⟨fun reg x hx => (h'.mem reg x hx).trans (h.mem reg x hx),
    fun k hk => (h'.fb k hk).trans (h.fb k hk)⟩

/-- A run that keeps the whole frame buffer. -/
theorem Kept.of_zero (h : Kept 0 s t) : Kept n s t := ⟨h.mem, fun k hk => h.fb k (by omega)⟩

/-- The first `k` pixels at `px` are among what may change. -/
structure Ptr.Within (px : Ptr) (k n : Nat) : Prop where
  fb : px = .fb → k ≤ n
  vbuf : ∀ reg x, px.Covers k reg x → reg = .vbuf ∧ 0 ≤ x ∧ x < VMEM_SIZE

private theorem within_screen (n : Nat) : Ptr.fb.Within n n :=
  ⟨fun _ => Nat.le_refl n, fun _ _ ⟨_, hEq, _⟩ => nomatch hEq⟩

private theorem within_block {A k : Nat} (hBlock : A + 3 * k ≤ VMEM_SIZE) :
    (Ptr.mem .vbuf A).Within k 0 := by
  refine ⟨nofun, ?_⟩
  rintro reg x ⟨a, hEq, hLe, hLt⟩
  cases hEq
  exact ⟨rfl, by omega, by omega⟩

/-- The loops, in a picture of `W` by `H`. -/
theorem drawLocal_kept (hWithin : px.Within (W.toNat * H) n) (hRect : c.RectInside W.toNat H)
    (hArea : W.toNat * H ≤ 2 ^ 31) (s : Gpu arch) :
    Kept n s (drawLocal c W w h pxLocal px s) := by
  have hPlaced : c.Placed W := fun i j hi hj =>
    Nat.lt_of_lt_of_le (place_lt hRect hi hj) hArea
  have hDst := dst_cells hRect hPlaced
  constructor
  · intro reg x hx
    apply fold_mem hDst
    intro hCovers
    obtain ⟨hVbuf, hLow, hHigh⟩ := hWithin.vbuf reg x hCovers
    have hOut := hx hVbuf
    omega
  · intro k hk
    cases px with
    | mem reg a =>
        have hMem : Ptr.mem reg a ≠ .fb := nofun
        exact congrFun (fold_fb hMem) k
    | fb =>
        have hLe := hWithin.fb rfl
        have hPixel : (drawLocal c W w h pxLocal .fb s).load .fb k = s.load .fb k := by
          apply fold_unwritten
          intro cell hCell hEq
          have hRange := hDst cell hCell
          omega
        exact hPixel

/-! ## A request -/

/-- `gpu_render`, which began in `s₀`, has asked for `before` so far. -/
def Served (vbuf : BitVec (wordBits arch)) (s₀ : Gpu arch) (before : List Request)
    (s : Gpu arch) : Prop :=
  (s₀.reset vbuf).heap.allocs vbuf before = some s.heap

theorem Served.append (hServed : Served vbuf s₀ before s)
    (hMore : s.heap.allocs vbuf after = some t.heap) : Served vbuf s₀ (before ++ after) t := by
  unfold Served at hServed ⊢
  rw [allocs_append, hServed]
  exact hMore

/-- A block that has been returned lies in `vbuf`, behind the others. -/
structure Returned (vbuf : BitVec (wordBits arch)) (s₀ : Gpu arch) (before : List Request)
    (r : Request) (n : Nat) (s t : Gpu arch) : Prop where
  run : vbufAlloc vbuf r s = .ok (.mem .vbuf (Bump.total Request.need before : Nat)) t
  fits : Bump.total Request.need before + r.need ≤ VMEM_SIZE
  served : Served vbuf s₀ (before ++ [r]) t
  kept : Kept n s t

private theorem vbufAlloc_returned (hVbuf : vbuf.toNat + VMEM_SIZE < 2 ^ wordBits arch)
    (hSeen : MisfitSeen vbuf (before ++ [r])) (hServed : Served vbuf s₀ before s)
    (hAlloc : s.heap.alloc vbuf r ≠ none) : ∃ t, Returned vbuf s₀ before r n s t := by
  obtain ⟨H, hSome⟩ := Option.ne_none_iff_exists'.mp hAlloc
  obtain ⟨t, hRun, rfl, -⟩ := vbufAlloc_some hSome
  have hAll : Served vbuf s₀ (before ++ [r]) t := hServed.append (allocs_one.trans hSome)
  have hFits := served_fits hVbuf hSeen hAll
  rw [Bump.total_append, Bump.total_cons, Bump.total_nil] at hFits
  have hHead : s.vbufHead = vbuf + BitVec.ofNat _ (Bump.total Request.need before) := by
    unfold Served at hServed
    rw [allocs_reset s₀ hVbuf (by omega)] at hServed
    exact (congrArg Heap.head (Option.some.inj hServed)).symm
  obtain ⟨t', hBlock, hZeroed⟩ := vbufAlloc_fits (r := r) hVbuf hHead (by omega)
  obtain ⟨-, rfl⟩ := EStateM.Result.ok.inj (hRun.symm.trans hBlock)
  refine ⟨t, hBlock, by omega, hAll, ?_, fun k _ => congrFun hZeroed.fb k⟩
  intro reg x hx
  by_cases hReg : reg = .vbuf
  · have hOut := hx hReg
    rw [hReg, hZeroed.vbuf]
    exact if_neg (by omega)
  · rw [hZeroed.others reg hReg]

/-! ## A run over a tree -/

private theorem kept_bind {x : EStateM Stop (Gpu arch) Unit}
    {f : Unit → EStateM Stop (Gpu arch) Unit}
    (h : Kept n s (final (x s))) (hNext : ∀ t, x s = .ok () t → Kept n t (final (f () t))) :
    Kept n s (final ((x >>= f) s)) := by
  cases hx : x s with
  | ok _ t =>
      rw [hx] at h
      rw [bind_of_ok hx]
      exact h.trans (hNext t hx)
  | error e t =>
      rw [hx] at h
      rw [bind_of_error hx]
      exact h

/-- In a block of `vbuf`, the loop over siblings keeps everything else. -/
def ChildrenKeep (vbuf : BitVec (wordBits arch)) (s₀ : Gpu arch) (m : Bytes) (fuel : Nat)
    (F : Forest) : Prop :=
  ∀ (before : List Request) (ptr : Word) (W : BitVec 16) (H A : Nat) (s : Gpu arch),
    F.Holds m ptr → F.RectsInside W.toNat H → A + 3 * (W.toNat * H) ≤ VMEM_SIZE →
    MisfitSeen vbuf (before ++ F.requests) → Served vbuf s₀ before s → s.mem .vmem = m →
    Kept 0 s (final (renderChildren vbuf fuel ptr W (.mem .vbuf A) s))

/-- One canvas, once its children are known. -/
theorem render_kept (hVbuf : vbuf.toNat + VMEM_SIZE < 2 ^ wordBits arch)
    (hNode : IsNode m c (kids.Holds m) kids ptr) (hRect : c.RectInside W.toNat H)
    (hInKids : kids.RectsInside c.width.toNat c.height.toNat) (hArea : W.toNat * H ≤ 2 ^ 31)
    (hWithin : px.Within (W.toNat * H) n)
    (hSeen : MisfitSeen vbuf (before ++ (c.requests ++ kids.requests)))
    (hServed : Served vbuf s₀ before s) (hm : s.mem .vmem = m)
    (hKids : ChildrenKeep vbuf s₀ m fuel kids) :
    Kept n s (final (render vbuf (renderChildren vbuf fuel) (toHost ptr) W px s)) := by
  rw [(toHost_inside hNode.inside).2]
  show Kept n s (final ((if (canvasAt (s.mem .vmem) ptr.toNat).type = AM_GPU_TEXTURE then _
    else _ : EStateM Stop (Gpu arch) Unit) s))
  rw [hm, hNode.canvas]
  rcases hNode.kind with ⟨hType, -⟩ | ⟨hType, hHolds⟩
  · rw [if_pos hType]
    exact drawLocal_kept hWithin hRect hArea s
  · have hNot : AM_GPU_SUBTREE ≠ AM_GPU_TEXTURE := by decide
    unfold Canvas.width Canvas.height at hInKids
    rw [hType, if_neg hNot, if_neg hNot] at hInKids
    unfold Canvas.requests at hSeen
    rw [hType, if_pos rfl, ← List.append_assoc] at hSeen
    rw [hType, if_neg hNot, if_pos rfl]
    cases hAlloc : s.heap.alloc vbuf { w := c.w, h := c.h } with
    | none =>
        obtain ⟨t, hRun, -, hMem, hFb⟩ := vbufAlloc_none hAlloc
        rw [bind_of_error hRun]
        exact ⟨fun reg x _ => congrFun (congrFun hMem reg) x, fun k _ => congrFun hFb k⟩
    | some H₁ =>
        have hSome : s.heap.alloc vbuf { w := c.w, h := c.h } ≠ none := by
          rw [hAlloc]
          exact Option.some_ne_none H₁
        obtain ⟨t, hReturned⟩ := vbufAlloc_returned (n := n) hVbuf hSeen.left hServed hSome
        have hVmem : t.mem .vmem = m := by
          funext x
          rw [hReturned.kept.mem .vmem x nofun, hm]
        rw [bind_of_ok hReturned.run]
        refine hReturned.kept.trans (kept_bind ?_ fun t' _ => ?_)
        · exact (hKids _ c.child c.w c.h.toNat _ t hHolds hInKids hReturned.fits hSeen
            hReturned.served hVmem).of_zero
        · exact drawLocal_kept hWithin hRect hArea t'

private theorem renderChildren_kept (hVbuf : vbuf.toNat + VMEM_SIZE < 2 ^ wordBits arch)
    (hFuel : F.size < fuel) : ChildrenKeep vbuf s₀ m fuel F := by
  induction F generalizing fuel with
  | nil =>
      rintro before ptr W H A s hNull - - - - -
      obtain ⟨f, rfl⟩ : ∃ f, fuel = f + 1 := Nat.exists_eq_add_one_of_ne_zero (by omega)
      have hNull : ptr = AM_GPU_NULL := hNull
      rw [renderChildren, if_pos hNull]
      exact Kept.refl 0 s
  | node c kids rest ihKids ihRest =>
      intro before ptr W H A s hHolds hInside hBlock hSeen hServed hm
      obtain ⟨f, rfl⟩ : ∃ f, fuel = f + 1 := Nat.exists_eq_add_one_of_ne_zero (by omega)
      have hSize : kids.size + rest.size + 1 < f + 1 := hFuel
      have hMax : VMEM_SIZE = 2 ^ 19 := rfl
      obtain ⟨hNode, hRest⟩ := hHolds
      obtain ⟨hRect, hInKids, hInRest⟩ := hInside
      have hRequests : before ++ (Forest.node c kids rest).requests =
          before ++ (c.requests ++ kids.requests) ++ rest.requests :=
        (List.append_assoc ..).symm
      rw [hRequests] at hSeen
      rw [renderChildren, if_neg (toHost_inside hNode.inside).1]
      have hKidsOutcome : ∀ a s', s'.mem .vmem = m → kids.Holds m c.child →
          Outcome vbuf kids.requests kids.samples s'
            (renderChildren vbuf f c.child c.w (.mem .vbuf a) s') := fun a s' hm' hHolds =>
        renderChildren_outcome (by omega) (Ptr.out_vbuf a) hm' hHolds
      have hFirst : Outcome vbuf (c.requests ++ kids.requests) (kids.samples ++ c.samples) s
          (render vbuf (renderChildren vbuf f) (toHost ptr) W (.mem .vbuf A) s) :=
        render_outcome (Ptr.out_vbuf A) hm hNode hKidsOutcome
      apply kept_bind
      · exact render_kept hVbuf hNode hRect hInKids (by omega) (within_block hBlock) hSeen.left
          hServed hm (ihKids (by omega))
      · intro t hOk
        rw [hOk] at hFirst
        have hVmem : t.mem .vmem = m := hFirst.vmem.trans hm
        show Kept 0 t (final (renderChildren vbuf f
          (canvasAt (t.mem .vmem) ptr.toNat).sibling W (.mem .vbuf A) t))
        rw [hVmem, hNode.canvas]
        exact ihRest (by omega) _ c.sibling W H A t hRest hInRest hBlock hSeen
          (hServed.append hFirst.heap) hVmem

private theorem gpuRender_kept_outside (hVbuf : vbuf.toNat + VMEM_SIZE < 2 ^ wordBits arch)
    (hScreen : s.display.w.toNat * s.display.h.toNat ≤ 2 ^ 31)
    (hNode : IsNode (s.mem .vmem) c (kids.Holds (s.mem .vmem)) kids ptr) (hFuel : kids.size < fuel)
    (hRects : (Forest.node c kids .nil).RectsInside s.display.w.toNat s.display.h.toNat)
    (hSeen : MisfitSeen vbuf (c.requests ++ kids.requests)) :
    Kept (s.display.w.toNat * s.display.h.toNat) s (final (gpuRender vbuf fuel ptr s)) := by
  have hReset : Kept (s.display.w.toNat * s.display.h.toNat) s (s.reset vbuf) :=
    ⟨fun _ _ _ => rfl, fun _ _ => rfl⟩
  have hStart : Served vbuf s [] (s.reset vbuf) := rfl
  exact hReset.trans (render_kept hVbuf hNode hRects.1 hRects.2.1 hScreen (within_screen _) hSeen
    hStart rfl (renderChildren_kept hVbuf hFuel))

/--
**The blocks of `vbuf`.** For every tree of canvases in `vmem` whose rectangles lie
inside the pictures that they are drawn in, on a screen whose pixels have an `int` as
index, the blocks that `vbuf_alloc` returns in one `gpu_render` are as large as they
have to be, lie inside `vbuf` and are apart, if and only if the first request that
does not fit into the rest of `vbuf`, when there is one, leaves `vbuf_head` above its
end.  And then nothing changes but bytes of `vbuf` and pixels of the screen.
-/
theorem vbufAlloc_sound_iff (vbuf : BitVec (wordBits arch)) (s : Gpu arch) (fuel : Nat)
    (root : Word) (c : Canvas) (kids : Forest)
    (hVbuf : vbuf.toNat + VMEM_SIZE < 2 ^ wordBits arch)
    (hScreen : s.display.w.toNat * s.display.h.toNat ≤ 2 ^ 31)
    (hNode : IsNode (s.mem .vmem) c (kids.Holds (s.mem .vmem)) kids root)
    (hFuel : kids.size < fuel)
    (hRects : (Forest.node c kids .nil).RectsInside s.display.w.toNat s.display.h.toNat) :
    (Sound (final (gpuRender vbuf fuel root s)).blocks ↔
      MisfitSeen vbuf (c.requests ++ kids.requests)) ∧
    (MisfitSeen vbuf (c.requests ++ kids.requests) →
      Kept (s.display.w.toNat * s.display.h.toNat) s (final (gpuRender vbuf fuel root s))) :=
  ⟨sound_iff hVbuf (gpuRender_outcome hFuel hNode),
    gpuRender_kept_outside hVbuf hScreen hNode hFuel hRects⟩

private theorem loneSubtree_isNode (w h : BitVec 16)
    (hCanvas : canvasAt (vmemOf [loneSubtree w h]) 0 = loneSubtree w h) :
    IsNode (vmemOf [loneSubtree w h]) (loneSubtree w h)
      (Forest.nil.Holds (vmemOf [loneSubtree w h])) .nil 0 :=
  ⟨by decide, hCanvas, Or.inr ⟨rfl, rfl⟩⟩

/-- A picture of 16 by 16, which is not drawn. -/
theorem vbufAlloc_sound_iff_icon :
    (Sound (final (gpuRender vbufAddr 1 0
        (gpuOf .x86_64 ⟨640, 480⟩ [loneSubtree 16 16]))).blocks ↔
      MisfitSeen vbufAddr ((loneSubtree 16 16).requests ++ Forest.nil.requests)) ∧
    (MisfitSeen vbufAddr ((loneSubtree 16 16).requests ++ Forest.nil.requests) →
      Kept (640 * 480) (gpuOf .x86_64 ⟨640, 480⟩ [loneSubtree 16 16])
        (final (gpuRender vbufAddr 1 0 (gpuOf .x86_64 ⟨640, 480⟩ [loneSubtree 16 16])))) :=
  vbufAlloc_sound_iff vbufAddr (gpuOf .x86_64 ⟨640, 480⟩ [loneSubtree 16 16]) 1 0
    (loneSubtree 16 16) .nil (by decide) (by decide) (loneSubtree_isNode 16 16 (by decide))
    (by decide) ⟨Or.inl (by decide), trivial, trivial⟩

/-- 65535 by 21846 pixels need more than 4 GiB, and get 65534 bytes. -/
theorem vbufAlloc_short :
    IsNode (vmemOf [loneSubtree 65535 21846]) (loneSubtree 65535 21846)
        (Forest.nil.Holds (vmemOf [loneSubtree 65535 21846])) .nil 0 ∧
      ¬ Sound (final (gpuRender vbufAddr 1 0
        (gpuOf .x86_64 ⟨640, 480⟩ [loneSubtree 65535 21846]))).blocks := by
  have hNode := loneSubtree_isNode 65535 21846 (by decide)
  refine ⟨hNode, ?_⟩
  intro hSound
  have hOutcome : Outcome vbufAddr ((loneSubtree 65535 21846).requests ++ Forest.nil.requests)
      (Forest.nil.samples ++ (loneSubtree 65535 21846).samples)
      ((gpuOf .x86_64 ⟨640, 480⟩ [loneSubtree 65535 21846]).reset vbufAddr)
      (gpuRender vbufAddr 1 0 (gpuOf .x86_64 ⟨640, 480⟩ [loneSubtree 65535 21846])) :=
    gpuRender_outcome Nat.zero_lt_one hNode
  have hSeen := (sound_iff (by decide) hOutcome).mp hSound [] { w := 65535, h := 21846 } [] rfl
    (by decide) (by decide)
  exact absurd hSeen (by decide)

end AbstractMachine.X86.Render
