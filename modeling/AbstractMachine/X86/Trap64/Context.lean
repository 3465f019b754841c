import AbstractMachine.Lib.Window
import AbstractMachine.X86.Trap64.Frame

/-!
# Contexts on x86_64

The `Context` that the code of `trap64.S` and `__am_irq_handle` leave in memory is the
one that the model of `cte.c` saves, and `__am_iret` makes the CPU what that model
says, whatever the memory around it.

## Main results

* `irqSave_context` -- the saved context.
* `leave_eq`, `leave_cpu` -- the CPU after `__am_iret`.
* `kcontext_context`, `ucontext_context` -- fresh contexts.
-/

namespace AbstractMachine.X86.Trap64

open AbstractMachine.Lib
open AbstractMachine.Lib.ByteMem
open AbstractMachine.X86.Cte (Gpr)
open AbstractMachine.X86.Trap32 (IRQS irqOf pushesErrorCode rpl kselKcode irqOf_err)

/-! ## The values -/

/-- The CPU, as the model of `cte.c` has it. -/
def Core.cpu (c : Core) : Cte.Cpu where
  regs :=
    { gpr := fun r => (c.reg (.gpr r)).toNat
      ip := c.rip.toNat
      flags := c.rflags.toNat
      sp := (c.reg .rsp).toNat
      ss := (c.seg .ss).toNat
      ds := (c.seg .ds).toNat }
  cs := (c.seg .cs).toNat
  cr3 := c.cr3.toNat
  sp0 := c.rsp0.toNat
  ss0 := 0

/-- The `Context` in memory. -/
def contextAt (m : Mem) (a : Word) : Cte.Context where
  cr3 := (word m a Field.cr3.index).toNat
  gpr := fun r => (word m a (Field.gpr r).index).toNat
  ip := (word m a Field.rip.index).toNat
  cs := (word m a Field.cs.index).toNat
  flags := (word m a Field.rflags.index).toNat
  sp := (word m a Field.rsp.index).toNat
  sp0 := (word m a Field.rsp0.index).toNat
  ss := (word m a Field.ss.index).toNat
  ds := 0

section

variable {s t : State} {m m' : Mem} {a v ctx : Word} {errcode : Option Word}
  {vector : Fin 256} {r : Gpr} {c : Core} {k : Nat} {f : Field}

/-! ## Members -/

private theorem gpr_index_lt (r : Gpr) : (Field.gpr r).index < 22 := by
  cases r <;> decide

theorem index_lt (f : Field) : f.index < 22 := by
  cases f with
  | gpr r => exact gpr_index_lt r
  | _ => decide

/-- The words of a frame do not disturb each other. -/
theorem word_setField (m : Mem) (a : Word) (f : Field) (v : Word) (hk : k < 29) :
    word (setField a f v m) a k = if f.index = k then v else word m a k := by
  have hf : f.index < 29 := Nat.lt_trans (index_lt f) (by decide)
  exact load_store_slot (n := 8) v hf hk (by decide)

/-- The members only depend on the bytes of the context. -/
theorem word_congr (h : ∀ x, InBlock a sizeofContext x → m' x = m x) (f : Field) :
    word m' a f.index = word m a f.index := by
  apply load_congr (n := 8) (by decide)
  intro x hx
  exact h x (inBlock_slot (n := 8) (k := 22) hx (index_lt f) (by decide))

theorem contextAt_congr (h : ∀ x, InBlock a sizeofContext x → m' x = m x) :
    contextAt m' a = contextAt m a := by
  unfold contextAt
  simp only [word_congr h]

/-! ## Saving -/

private theorem userSel_iff (sel : BitVec 16) : Cte.UserSel sel.toNat ↔ rpl sel ≠ 0 := by
  have hRpl : (rpl sel).toNat = sel.toNat % 4 := BitVec.toNat_setWidth 2 sel
  have hAnd : sel.toNat &&& dplUser = sel.toNat % 4 := Nat.and_two_pow_sub_one_eq_mod sel.toNat 2
  unfold Cte.UserSel
  rw [hAnd, ← hRpl, Ne, Ne, ← BitVec.toNat_inj]
  rfl

private theorem user_iff (c : Core) : c.cpu.User ↔ rpl (c.seg .cs) ≠ 0 := userSel_iff (c.seg .cs)

private theorem toNat_align (v : Word) : (v &&& ~~~0xf#64).toNat = v.toNat - v.toNat % 16 := by
  have hShift : v &&& ~~~0xf#64 = (v >>> 4) <<< 4 := by
    apply BitVec.eq_of_getLsbD_eq
    intro i hi
    have hMask : ∀ j, j < 64 → (~~~0xf#64).getLsbD j = decide (4 ≤ j) := by decide
    rw [BitVec.getLsbD_and, hMask i hi, BitVec.getLsbD_shiftLeft, BitVec.getLsbD_ushiftRight]
    by_cases hLow : 4 ≤ i
    · simp [hi, hLow]
    · simp [hLow]
  have hLt := v.isLt
  rw [hShift, BitVec.toNat_shiftLeft, BitVec.toNat_ushiftRight, Nat.shiftRight_eq_div_pow,
    Nat.shiftLeft_eq, Nat.mod_eq_of_lt (by omega)]
  omega

/-- The address of the frame. -/
theorem frame_toNat (c : Core) : c.frame.toNat = c.cpu.trapFrameAddr .x86_64 := by
  have hTop : c.trapTop.toNat = c.cpu.trapStack.2 - c.cpu.trapStack.2 % 16 := by
    unfold Core.trapTop Cte.Cpu.trapStack
    rw [toNat_align]
    by_cases hMode : rpl (c.seg .cs) = 0
    · rw [if_pos hMode, if_neg (mt (user_iff c).mp (not_not.mpr hMode))]
      rfl
    · rw [if_neg hMode, if_pos ((user_iff c).mpr hMode)]
      rfl
  show _ = Cte.wordSub .x86_64 (c.cpu.trapStack.2 - c.cpu.trapStack.2 % 16) _
  unfold Core.frame Cte.wordSub
  rw [← hTop, BitVec.toNat_sub, Nat.add_comm]
  rfl

/-- The words behind the context stay what they are. -/
theorem word_setField_tail (m : Mem) (a : Word) (f : Field) (v : Word) (tail : Tail) :
    word (setField a f v m) a tail.index = word m a tail.index := by
  have hLt : tail.index < 29 := by
    cases tail <;> decide
  have hNe : f.index ≠ tail.index := by
    have hf := index_lt f
    unfold Tail.index
    omega
  rw [word_setField m a f v hLt, if_neg hNe]

/-- All that is copied is read from the frame as it was. -/
theorem irqSave_eq (c : Core) (tf : Word) (m : Mem) :
    irqSave c tf m =
      setField tf .cr3 c.cr3 (setField tf .ss (word m tf Tail.ss.index)
        (setField tf .rsp0 c.rsp0 (setField tf .rsp (word m tf Tail.rsp.index)
          (setField tf .rflags (word m tf Tail.rflags.index)
            (setField tf .cs (word m tf Tail.cs.index)
              (setField tf .rip (word m tf Tail.rip.index) m)))))) := by
  unfold irqSave
  simp only [word_setField_tail]

private theorem word_setField_self (m : Mem) (a : Word) (f : Field) (v : Word) :
    word (setField a f v m) a f.index = v := by
  rw [word_setField m a f v (Nat.lt_trans (index_lt f) (by decide)), if_pos rfl]

private theorem word_setField_ne {g : Field} (m : Mem) (a : Word) (v : Word)
    (h : f.index ≠ g.index) :
    word (setField a f v m) a g.index = word m a g.index := by
  rw [word_setField m a f v (Nat.lt_trans (index_lt g) (by decide)), if_neg h]

private theorem toNat_selector (sel : BitVec 16) : (sel.setWidth 64).toNat = sel.toNat :=
  BitVec.toNat_setWidth_of_le (by decide)

/-- What the hardware and the stub push is the frame of the model, and the context that
`__am_irq_handle` hands to the user handler is the one that the model saves. -/
theorem irqSave_context (h : Entered s t vector errcode) (addr : Nat) :
    contextAt (irqSave t.core s.core.frame t.mem) s.core.frame =
      Cte.irqSave .x86_64 s.core.cpu addr
        (s.core.cpu.trapFrame .x86_64 (irqNumber vector).toNat (errcode.getD 0).toNat) := by
  have hGpr : ∀ r, word (irqSave t.core s.core.frame t.mem) s.core.frame (Field.gpr r).index =
      s.reg (.gpr r) := by
    intro r
    rw [irqSave_eq, ← h.gpr r]
    cases r <;> simp (disch := decide) only [word_setField_ne]
  unfold contextAt
  simp only [hGpr]
  rw [irqSave_eq]
  simp (disch := decide) only [word_setField_ne, word_setField_self]
  rw [h.tfRip, h.tfCs, h.tfRflags, h.tfRsp, h.tfSs, h.cr3, h.rsp0, toNat_selector, toNat_selector]
  rfl

private theorem setField_outside {x : Word} (f : Field) (v : Word) (m : Mem)
    (hx : ¬ InBlock a sizeofContext x) : setField a f v m x = m x := by
  apply store_outside
  intro hIn
  exact hx (inBlock_slot (n := 8) (k := 22) hIn (index_lt f) (by decide))

/-- Nothing outside the context is written. -/
theorem irqSave_outside {x : Word} (c : Core) (m : Mem) (hx : ¬ InBlock a sizeofContext x) :
    irqSave c a m x = m x := by
  rw [irqSave_eq]
  simp only [setField_outside _ _ _ hx]

/-! ## Restoring -/

/-- Registers popped from the stack of `t`. -/
structure Popped (t u : State) (rs : List Gpr) : Prop where
  mem : u.mem = t.mem
  seg : u.core.seg = t.core.seg
  cr3 : u.core.cr3 = t.core.cr3
  rsp0 : u.core.rsp0 = t.core.rsp0
  rsp : u.reg .rsp = slot 8 (t.reg .rsp) rs.length
  popped : ∀ (k : Nat) r, rs[k]? = some r → u.reg (.gpr r) = word t.mem (t.reg .rsp) k
  others : ∀ r, r ∉ rs → u.reg (.gpr r) = t.reg (.gpr r)

private theorem run_popq (rs : List Gpr) (hNodup : rs.Nodup) (t : State) :
    Popped t (run (rs.map fun r => .popq (.gpr r)) t) rs := by
  induction rs generalizing t with
  | nil =>
      exact ⟨rfl, rfl, rfl, rfl, slot_zero.symm, nofun, fun _ _ => rfl⟩
  | cons r rs ih =>
      obtain ⟨hFresh, hRest⟩ := List.nodup_cons.mp hNodup
      have hTail := ih hRest (exec t (.popq (.gpr r)))
      have hSp : (exec t (.popq (.gpr r))).reg .rsp = t.reg .rsp + BitVec.ofNat 64 8 :=
        (@set_other _ (.gpr r) .rsp nofun _).trans (set_same ..)
      have hTop : (exec t (.popq (.gpr r))).reg (.gpr r) = word t.mem (t.reg .rsp) 0 := by
        unfold word
        rw [slot_zero]
        exact set_same ..
      have hOther : ∀ r', r' ≠ r → (exec t (.popq (.gpr r))).reg (.gpr r') = t.reg (.gpr r') := by
        intro r' hNe
        have hReg : Reg.gpr r' ≠ Reg.gpr r := fun hEq => hNe (Reg.gpr.inj hEq)
        exact (set_other _ hReg _).trans (@set_other t.core .rsp (.gpr r') nofun _)
      constructor
      case mem => exact hTail.mem
      case seg => exact hTail.seg
      case cr3 => exact hTail.cr3
      case rsp0 => exact hTail.rsp0
      case rsp =>
        show (run _ (exec t (.popq (.gpr r)))).reg .rsp = _
        rw [hTail.rsp, hSp, slot_succ]
        rfl
      case popped =>
        intro k r' hk
        cases k with
        | zero =>
            cases hk
            exact (hTail.others r hFresh).trans hTop
        | succ k =>
            have hWord := hTail.popped k r' hk
            rw [hSp] at hWord
            unfold word at hWord ⊢
            rw [slot_succ] at hWord
            exact hWord
      case others =>
        intro r' hr'
        rw [List.mem_cons, not_or] at hr'
        obtain ⟨hNe, hNot⟩ := hr'
        exact (hTail.others r' hNot).trans (hOther r' hNe)

/-- What `__am_iret` makes of a CPU. -/
def loaded (m : Mem) (ctx : Word) (c : Core) : Core where
  reg
    | .gpr r => word m ctx (Field.gpr r).index
    | .rsp => word m ctx Field.rsp.index
  seg
    | .cs => (word m ctx Field.cs.index).setWidth 16
    | _ => (word m ctx Field.ss.index).setWidth 16
  rip := word m ctx Field.rip.index
  rflags := word m ctx Field.rflags.index
  cr3 := c.cr3
  rsp0 := c.rsp0

private theorem gprs_nodup : gprs.Nodup := by decide

private theorem gprs_get (r : Gpr) : gprs[r.ctorIdx]? = some r := by
  cases r <;> rfl

/-- `__am_iret`, before the registers are popped. -/
def amIretStart : List Instr :=
  [.movq (.gpr .rdi) .rsp, .load 160 .rsp (.gpr .rax), .movwToSeg .ds, .movwToSeg .es,
    .addq 8 .rsp]

private theorem amIretStart_rsp (h : t.reg (.gpr .rdi) = ctx) :
    (run amIretStart t).reg .rsp = slot 8 ctx 1 := by
  have hRdi : t.core.reg (.gpr .rdi) = ctx := h
  simp [amIretStart, run, exec, State.set, State.setSeg, State.reg, Core.set, Core.setSeg, slot,
    hRdi]

private theorem amIretStart_seg (h : t.reg (.gpr .rdi) = ctx) (seg : SegReg) :
    (run amIretStart t).core.seg seg =
      if seg = .ds ∨ seg = .es then (word t.mem ctx Field.ss.index).setWidth 16
      else t.core.seg seg := by
  have hRdi : t.core.reg (.gpr .rdi) = ctx := h
  cases seg <;>
    simp [amIretStart, run, exec, State.set, State.setSeg, State.reg, Core.set, Core.setSeg,
      hRdi, word, slot, Field.index]

/-- The five words that `iretq` pops are in the context. -/
theorem iretq_eq (hSp : t.reg .rsp = slot 8 ctx 16)
    (hGprs : ∀ r, t.reg (.gpr r) = word t.mem ctx (Field.gpr r).index)
    (hDs : t.core.seg .ds = (word t.mem ctx Field.ss.index).setWidth 16)
    (hEs : t.core.seg .es = (word t.mem ctx Field.ss.index).setWidth 16) :
    iretq t = { core := loaded t.mem ctx t.core, mem := t.mem } := by
  have hNext : ∀ j, ld t.mem (t.reg .rsp + BitVec.ofNat 64 (j * 8)) = word t.mem ctx (16 + j) := by
    intro j
    rw [hSp]
    unfold word
    rw [← slot_add]
    rfl
  have hRip : ld t.mem (t.reg .rsp) = word t.mem ctx 16 := by
    rw [hSp]
    rfl
  have hCs : ld t.mem (t.reg .rsp + 8) = word t.mem ctx 17 := hNext 1
  have hRflags : ld t.mem (t.reg .rsp + 16) = word t.mem ctx 18 := hNext 2
  have hRsp : ld t.mem (t.reg .rsp + 24) = word t.mem ctx 19 := hNext 3
  have hSs : ld t.mem (t.reg .rsp + 32) = word t.mem ctx 20 := hNext 4
  unfold iretq
  dsimp only
  rw [hRip, hCs, hRflags, hRsp, hSs]
  apply State.ext
  · apply Core.ext
    · funext q
      cases q with
      | gpr r =>
          have hKeep := @set_other t.core .rsp (.gpr r) nofun (word t.mem ctx 19)
          exact hKeep.trans (hGprs r)
      | rsp => exact set_same t.core .rsp (word t.mem ctx 19)
    · funext seg
      cases seg with
      | cs => rfl
      | ds => exact hDs
      | es => exact hEs
      | ss => rfl
    · rfl
    · rfl
    · rfl
    · rfl
  · rfl

/-- **`__am_iret`.** All registers come from the context. -/
theorem runIret_eq (h : t.reg (.gpr .rdi) = ctx) :
    runIret t = { core := loaded t.mem ctx t.core, mem := t.mem } := by
  have hPopped := run_popq gprs gprs_nodup (run amIretStart t)
  have hRun : run amIret t = run (gprs.map fun r => .popq (.gpr r)) (run amIretStart t) :=
    run_append ..
  rw [← hRun] at hPopped
  have hMem : (run amIret t).mem = t.mem := hPopped.mem
  have hCr3 : (run amIret t).core.cr3 = t.core.cr3 := hPopped.cr3
  have hRsp0 : (run amIret t).core.rsp0 = t.core.rsp0 := hPopped.rsp0
  have hSp : (run amIret t).reg .rsp = slot 8 ctx 16 := by
    rw [hPopped.rsp, amIretStart_rsp h, slot_add]
    rfl
  have hGprs : ∀ r, (run amIret t).reg (.gpr r) = word t.mem ctx (Field.gpr r).index := by
    intro r
    have hWord := hPopped.popped r.ctorIdx r (gprs_get r)
    rw [amIretStart_rsp h] at hWord
    rw [hWord]
    unfold word
    rw [slot_add, Nat.add_comm]
    rfl
  have hSeg : ∀ seg, (run amIret t).core.seg seg = _ := fun seg =>
    (congrFun hPopped.seg seg).trans (amIretStart_seg h seg)
  unfold runIret
  rw [iretq_eq hSp (hMem.symm ▸ hGprs) (hMem.symm ▸ hSeg .ds) (hMem.symm ▸ hSeg .es), hMem]
  unfold loaded
  rw [hCr3, hRsp0]

/-! ## Fresh contexts -/

private theorem word_clearContext (m : Mem) (a : Word) (f : Field) :
    word (clearContext a m) a f.index = 0 := by
  have hClear : clearContext a m = window a sizeofContext (fun _ => 0) m := rfl
  unfold word ld slot
  rw [hClear]
  apply load_window (n := 8)
  · have hLt := index_lt f
    unfold sizeofContext
    omega
  · decide
  · intro b _
    simp [byte]

/-- What `kcontext` leaves at the end of the kernel stack. -/
theorem kcontext_context (start kend entry arg : Word) (base : Nat) (m : Mem) :
    contextAt (kcontext start kend entry arg m) (kend - BitVec.ofNat 64 sizeofContext) =
      Cte.kcontext .x86_64 start.toNat ⟨base, kend.toNat⟩ entry.toNat arg.toNat := by
  have hGpr : ∀ r, (word (kcontext start kend entry arg m) (kend - BitVec.ofNat 64 sizeofContext)
      (Field.gpr r).index).toNat =
        Function.update (Function.update (fun _ => 0) Gpr.rdi arg.toNat) Gpr.rsi entry.toNat r := by
    intro r
    unfold kcontext
    cases r <;> simp (disch := decide) only [word_setField_ne, word_setField_self,
      word_clearContext] <;> rfl
  unfold contextAt
  simp only [hGpr]
  unfold kcontext
  simp (disch := decide) only [word_setField_ne, word_setField_self, word_clearContext,
    toNat_selector]
  rfl

/-- What `ucontext` leaves there. -/
theorem ucontext_context (ptr kend entry : Word) (base : Nat) (m : Mem) :
    contextAt (ucontext ptr kend entry m) (kend - BitVec.ofNat 64 sizeofContext) =
      Cte.ucontext .x86_64 ptr.toNat ⟨base, kend.toNat⟩ entry.toNat := by
  have hGpr : ∀ r, word (ucontext ptr kend entry m) (kend - BitVec.ofNat 64 sizeofContext)
      (Field.gpr r).index = 0 := by
    intro r
    unfold ucontext
    cases r <;> simp (disch := decide) only [word_setField_ne, word_clearContext]
  unfold contextAt
  simp only [hGpr]
  unfold ucontext
  simp (disch := decide) only [word_setField_ne, word_setField_self]
  rfl

private theorem clearContext_outside {x : Word} (m : Mem) (hx : ¬ InBlock a sizeofContext x) :
    clearContext a m x = m x := if_neg hx

/-- A fresh context is all that is written. -/
theorem kcontext_outside {x : Word} (start kend entry arg : Word) (m : Mem)
    (hx : ¬ InBlock (kend - BitVec.ofNat 64 sizeofContext) sizeofContext x) :
    kcontext start kend entry arg m x = m x := by
  unfold kcontext
  simp only [setField_outside _ _ _ hx, clearContext_outside _ hx]

theorem ucontext_outside {x : Word} (ptr kend entry : Word) (m : Mem)
    (hx : ¬ InBlock (kend - BitVec.ofNat 64 sizeofContext) sizeofContext x) :
    ucontext ptr kend entry m x = m x := by
  unfold ucontext
  simp only [setField_outside _ _ _ hx, clearContext_outside _ hx]

/-- The segments of a context fit into their registers. -/
def Selectors (ctx : Cte.Context) : Prop := ctx.cs < 2 ^ 16 ∧ ctx.ss < 2 ^ 16

/-- The CPU is what the model makes of it. -/
theorem iret_cpu (hSel : Selectors (contextAt m ctx)) (c : Core) :
    (loaded m ctx c).cpu = Cte.iret .x86_64 (contextAt m ctx) c.cpu := by
  have hCs : ((word m ctx Field.cs.index).setWidth 16).toNat = (contextAt m ctx).cs := by
    rw [BitVec.toNat_setWidth]
    exact Nat.mod_eq_of_lt hSel.1
  have hSs : ((word m ctx Field.ss.index).setWidth 16).toNat = (contextAt m ctx).ss := by
    rw [BitVec.toNat_setWidth]
    exact Nat.mod_eq_of_lt hSel.2
  have hDs : (contextAt m ctx).ss % 2 ^ 16 = (contextAt m ctx).ss := Nat.mod_eq_of_lt hSel.2
  have hArch : ¬ (Arch.x86_64 = .i386 ∧ (contextAt m ctx).cs = ksel segKcode) := nofun
  unfold Core.cpu loaded Cte.iret
  rw [if_neg hArch]
  dsimp only
  rw [hCs, hSs, hDs]
  rfl

private theorem irqRestore_mem (ctx : Word) (s : State) : (irqRestore ctx s).mem = s.mem := by
  unfold irqRestore
  dsimp only
  split <;> rfl

private theorem irqRestore_cpu (ctx : Word) (s : State) :
    (irqRestore ctx s).core.cpu = Cte.irqRestore .x86_64 (contextAt s.mem ctx) s.core.cpu := by
  have hZero : word s.mem ctx Field.cr3.index ≠ 0 ↔ (contextAt s.mem ctx).cr3 ≠ 0 := by
    show _ ↔ (word s.mem ctx Field.cr3.index).toNat ≠ 0
    rw [Ne, Ne, ← BitVec.toNat_inj]
    rfl
  unfold irqRestore Cte.irqRestore
  dsimp only
  by_cases hCr3 : word s.mem ctx Field.cr3.index ≠ 0
  · rw [if_pos hCr3, if_pos (hZero.mp hCr3)]
    rfl
  · rw [if_neg hCr3, if_neg (mt hZero.mpr hCr3)]

/-- The second half of `__am_irq_handle`, with the call of `__am_iret`. -/
theorem leave_eq (ctx : Word) (s : State) :
    runIret ((irqRestore ctx s).set (.gpr .rdi) ctx) =
      { core := loaded s.mem ctx (irqRestore ctx s).core, mem := s.mem } := by
  have hRdi : ((irqRestore ctx s).set (.gpr .rdi) ctx).reg (.gpr .rdi) = ctx := set_same ..
  have hMem : ((irqRestore ctx s).set (.gpr .rdi) ctx).mem = s.mem := irqRestore_mem ctx s
  rw [runIret_eq hRdi, hMem]
  rfl

theorem leave_cpu (s : State) (hSel : Selectors (contextAt s.mem ctx)) :
    (loaded s.mem ctx (irqRestore ctx s).core).cpu =
      Cte.iret .x86_64 (contextAt s.mem ctx)
        (Cte.irqRestore .x86_64 (contextAt s.mem ctx) s.core.cpu) := by
  rw [iret_cpu hSel, irqRestore_cpu]

end

end AbstractMachine.X86.Trap64
