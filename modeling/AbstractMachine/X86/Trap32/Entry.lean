import AbstractMachine.X86.Trap32.Iret

/-!
# Taking a trap and coming back

What the hardware, the stub of the vector, `trap` and `__am_irq_handle` leave
in the saved context is what `__am_iret` installs.
-/

namespace AbstractMachine.X86.Trap32

open AbstractMachine.Lib
open AbstractMachine.Lib.ByteMem

section

variable {s : State} {m : ByteMem 32} {a v : Word} {tss : Tss} {errcode : Option Word}
  {vector : Fin 256}

private theorem offset_inj (f g : Field) : f.offset = g.offset ↔ f = g := by
  have hIdx : ∀ f : Field, f.ctorIdx < 22 := by
    intro f
    cases f <;> decide
  have hf := hIdx f
  have hg := hIdx g
  constructor
  · intro hEq
    have hNat := congrArg BitVec.toNat hEq
    unfold Field.offset at hNat
    rw [BitVec.toNat_ofNat, BitVec.toNat_ofNat] at hNat
    have hSame : f.ctorIdx = g.ctorIdx := by omega
    rw [← Field.ofNat_ctorIdx f, hSame, Field.ofNat_ctorIdx]
  · exact congrArg Field.offset

/-- The members of a structure do not disturb each other. -/
theorem field_setField (f g : Field) :
    field (setField a f v m) a g = if f = g then v else field m a g := by
  unfold field setField
  have hAligned : ∀ f : Field, f.offset.toNat % 4 = 0 := by
    intro f
    cases f <;> decide
  rw [ld_st_add (hAligned f) (hAligned g)]
  simp only [offset_inj]

/-- A state that a trap may interrupt: kernel or user mode, with an error
code where the vector has one. -/
structure Interrupted (s : State) (vector : Fin 256) (errcode : Option Word) : Prop where
  mode : s.seg .cs = kselKcode ∨ rpl (s.seg .cs) = 3#2
  dsEs : s.seg .ds = s.seg .es
  err : errcode.isSome = pushesErrorCode vector

/-! ## The stubs -/

/-- `IRQS` knows which vectors have an error code. -/
theorem irqOf_err (vector : Fin 256) :
    (irqOf vector).any (fun irq => irq.err) = pushesErrorCode vector := by
  have hErr : ∀ irq ∈ IRQS, irq.err = [8, 10, 11, 12, 13, 14].contains irq.id := by decide
  have hListed : ∀ id ∈ [8, 10, 11, 12, 13, 14], ∃ irq ∈ IRQS, irq.id = id := by decide
  unfold pushesErrorCode
  cases hIrq : irqOf vector with
  | some irq =>
      have hFound : (irq.id == vector.val) = true :=
        List.find?_some (p := fun irq : Irq => irq.id == vector.val) hIrq
      have hId := eq_of_beq hFound
      rw [Option.any_some, hErr irq (List.mem_of_find?_eq_some hIrq), hId]
  | none =>
      have hNone := List.find?_eq_none.mp hIrq
      rw [Option.any_none]
      symm
      rw [← Bool.not_eq_true, List.contains_iff_mem]
      intro hMem
      obtain ⟨irq, hIrqs, hId⟩ := hListed _ hMem
      exact hNone irq hIrqs (beq_iff_eq.mpr hId)

/-- A stub pushes a vector number, above it a zero unless the hardware has
pushed an error code. -/
theorem irqStub_eq (vector : Fin 256) : ∃ id : Word, irqStub vector =
    [.cli] ++ (if pushesErrorCode vector then [] else [.pushi 0]) ++ [.pushi id] := by
  have hErr := irqOf_err vector
  unfold irqStub
  cases hIrq : irqOf vector with
  | none =>
      rw [hIrq] at hErr
      rw [← hErr]
      exact ⟨-1, rfl⟩
  | some irq =>
      rw [hIrq] at hErr
      rw [← hErr]
      exact ⟨_, rfl⟩

/-- The words the hardware pushed, `b` being the stack pointer after the stub. -/
structure Pushed (s s₁ : State) (b : Word) : Prop where
  reg : s₁.reg = Function.update s.reg .esp b
  ds : s₁.seg .ds = s.seg .ds
  eip : ld s₁.mem (b + 8#32) = s.eip
  cs : ld s₁.mem (b + 12#32) = (s.seg .cs).setWidth 32
  eflags : ld s₁.mem (b + 16#32) = s.eflags
  user : rpl (s.seg .cs) ≠ 0#2 → ld s₁.mem (b + 20#32) = s.reg .esp
  kernel : rpl (s.seg .cs) = 0#2 → b + 20#32 = s.reg .esp

private theorem stub_pushes (tss : Tss) (h : Interrupted s vector errcode) :
    ∃ b, Pushed s (run (irqStub vector) (interrupt tss errcode s)) b := by
  obtain ⟨id, hStub⟩ := irqStub_eq vector
  have hErr := h.err
  rw [hStub, ← hErr]
  by_cases hMode : rpl (s.seg .cs) = 0#2
  · refine ⟨s.reg .esp - 20#32, ?_⟩
    cases errcode <;> constructor <;>
      simp (disch := decide) [run, exec, interrupt, State.push, State.setSeg, hMode,
        BitVec.sub_eq_add_neg, add_add_lit, ld_st_add]
  · refine ⟨tss.esp0 - 28#32, ?_⟩
    cases errcode <;> constructor <;>
      simp (disch := decide) [run, exec, interrupt, State.push, State.set, State.setSeg, hMode,
        BitVec.sub_eq_add_neg, add_add_lit, ld_st_add]

/-! ## The context -/

/-- `trap` saves the registers in a context below `b`, and leaves the words
above alone. -/
structure Saved (s s₁ : State) (a : Word) : Prop where
  arg : s₁.arg = a
  eax : field s₁.mem a .eax = s.reg .eax
  ebx : field s₁.mem a .ebx = s.reg .ebx
  ecx : field s₁.mem a .ecx = s.reg .ecx
  edx : field s₁.mem a .edx = s.reg .edx
  esi : field s₁.mem a .esi = s.reg .esi
  edi : field s₁.mem a .edi = s.reg .edi
  ebp : field s₁.mem a .ebp = s.reg .ebp
  ds : field s₁.mem a .ds = setAx (s.reg .eax) (s.seg .ds)
  eip : field s₁.mem a .tfEip = ld s.mem (a + 68#32)
  cs : field s₁.mem a .tfCs = ld s.mem (a + 72#32)
  eflags : field s₁.mem a .tfEflags = ld s.mem (a + 76#32)
  esp : field s₁.mem a .tfEsp = ld s.mem (a + 80#32)

/-- The words that `trap` pushes, and the return address. -/
theorem trap_mem (ret : Word) (hEsp : s.reg .esp = a + 60#32) :
    ((run trap s).push ret).mem =
      let m := st (st (st s.mem (a + 36#32) (s.reg .ebp)) (a + 32#32) (s.reg .edi)) (a + 28#32)
        (s.reg .esi)
      let m := st (st (st (st m (a + 24#32) 0#32) (a + 20#32) (s.reg .edx)) (a + 16#32)
        (s.reg .ecx)) (a + 12#32) (s.reg .ebx)
      let m := st (st (st m (a + 8#32) (s.reg .eax)) (a + 4#32) (setAx (s.reg .eax) (s.seg .ds)))
        a 0#32
      st (st m (a + 4294967292#32) a) (a + 4294967288#32) ret := by
  simp (disch := decide) [run, trap, exec, State.push, State.set, State.setSeg, hEsp,
    BitVec.sub_eq_add_neg, add_add_lit]

private theorem trap_arg (ret : Word) (hEsp : s.reg .esp = a + 60#32) :
    ((run trap s).push ret).arg = a := by
  simp (disch := decide) [run, trap, exec, State.push, State.arg, State.set, State.setSeg, hEsp,
    BitVec.sub_eq_add_neg, add_add_lit, ld_st_add]

private theorem trap_saves (ret : Word) (hEsp : s.reg .esp = a + 60#32) :
    Saved s ((run trap s).push ret) a := by
  have hMem := trap_mem (s := s) ret hEsp
  refine ⟨trap_arg ret hEsp, ?_, ?_, ?_, ?_, ?_, ?_, ?_, ?_, ?_, ?_, ?_, ?_⟩ <;>
    simp (disch := decide) [hMem, ld_st_add, ld_st_base, field, Field.offset, Field.ctorIdx]

/-! ## What the handler is given -/

/-- `movw %ds, %ax` only changes the low half. -/
theorem setAx_low (eax : Word) (v : BitVec 16) : (setAx eax v).setWidth 16 = v := by
  have hMask : (0xffff0000 : Word).setWidth 16 = 0#16 := by decide
  unfold setAx
  rw [BitVec.setWidth_or, BitVec.setWidth_and, hMask, BitVec.and_zero, BitVec.zero_or]
  exact BitVec.setWidth_setWidth_of_le v (by decide)

/-- The test of `__am_irq_handle` looks at the privilege level. -/
theorem and_dplUser (c : BitVec 16) :
    c.setWidth 32 &&& BitVec.ofNat 32 dplUser = 0#32 ↔ rpl c = 0#2 := by
  have hAnd : (c.setWidth 32 &&& BitVec.ofNat 32 dplUser).toNat = c.toNat % 4 := by
    have hc := c.isLt
    rw [BitVec.toNat_and, BitVec.toNat_setWidth, Nat.mod_eq_of_lt (by omega)]
    exact Nat.and_two_pow_sub_one_eq_mod c.toNat 2
  have hRpl : (rpl c).toNat = c.toNat % 4 := BitVec.toNat_setWidth 2 c
  rw [← BitVec.toNat_inj, hAnd, ← BitVec.toNat_inj, hRpl]
  rfl

/-- A context with the registers of `s`. -/
structure Holds (s : State) (m : ByteMem 32) (a : Word) : Prop where
  eax : field m a .eax = s.reg .eax
  ebx : field m a .ebx = s.reg .ebx
  ecx : field m a .ecx = s.reg .ecx
  edx : field m a .edx = s.reg .edx
  esi : field m a .esi = s.reg .esi
  edi : field m a .edi = s.reg .edi
  ebp : field m a .ebp = s.reg .ebp
  esp : field m a .esp = s.reg .esp
  eip : field m a .eip = s.eip
  eflags : field m a .eflags = s.eflags
  cs : (field m a .cs).setWidth 16 = s.seg .cs
  ds : (field m a .ds).setWidth 16 = s.seg .ds

/-- `__am_irq_handle` completes the context from the words the hardware pushed. -/
theorem irqSave_holds {s₁ s₂ : State} {cr3 : Word} (hPushed : Pushed s s₁ (a + 60#32))
    (hSaved : Saved s₁ s₂ a) : Holds s (irqSave tss cr3 a s₂.mem) a := by
  have hReg : ∀ r, r ≠ .esp → s₁.reg r = s.reg r := by
    intro r hr
    rw [hPushed.reg]
    exact Function.update_of_ne hr _ _
  have hCs : field s₂.mem a .tfCs = (s.seg .cs).setWidth 32 := by
    rw [hSaved.cs, ← hPushed.cs]
    simp [add_add_lit]
  have hEsp : (if rpl (s.seg .cs) = 0#2 then a + BitVec.ofNat 32 sizeofTrapFrame - 8#32
      else field s₂.mem a .tfEsp) = s.reg .esp := by
    by_cases hMode : rpl (s.seg .cs) = 0#2
    · rw [if_pos hMode, ← hPushed.kernel hMode]
      simp [sizeofTrapFrame, BitVec.sub_eq_add_neg, add_add_lit]
    · rw [if_neg hMode, hSaved.esp, ← hPushed.user hMode]
      simp [add_add_lit]
  have hEip : field s₂.mem a .tfEip = s.eip := by
    rw [hSaved.eip, ← hPushed.eip]
    simp [add_add_lit]
  have hEflags : field s₂.mem a .tfEflags = s.eflags := by
    rw [hSaved.eflags, ← hPushed.eflags]
    simp [add_add_lit]
  constructor <;>
    simp [irqSave, field_setField, hSaved.eax, hSaved.ebx, hSaved.ecx, hSaved.edx, hSaved.esi,
      hSaved.edi, hSaved.ebp, hSaved.ds, hReg, hCs, hEsp, hEip, hEflags, setAx_low,
      and_dplUser, hPushed.ds]

/-! ## Coming back -/

/-- A context only depends on its bytes. -/
theorem field_congr {m' : ByteMem 32} (h : ∀ x, InBlock a sizeofContext x → m' x = m x)
    {f : Field} (hf : f.ctorIdx < 15) : field m' a f = field m a f := by
  have hIn : 4 * f.ctorIdx + 4 ≤ sizeofContext := by
    unfold sizeofContext
    omega
  apply ld_congr
  intro x hx
  exact h x (inBlock_sub hx hIn (by decide))

theorem Holds.congr {m' : ByteMem 32} (hHolds : Holds s m a)
    (h : ∀ x, InBlock a sizeofContext x → m' x = m x) : Holds s m' a where
  eax := (field_congr h (by decide)).trans hHolds.eax
  ebx := (field_congr h (by decide)).trans hHolds.ebx
  ecx := (field_congr h (by decide)).trans hHolds.ecx
  edx := (field_congr h (by decide)).trans hHolds.edx
  esi := (field_congr h (by decide)).trans hHolds.esi
  edi := (field_congr h (by decide)).trans hHolds.edi
  ebp := (field_congr h (by decide)).trans hHolds.ebp
  esp := (field_congr h (by decide)).trans hHolds.esp
  eip := (field_congr h (by decide)).trans hHolds.eip
  eflags := (field_congr h (by decide)).trans hHolds.eflags
  cs := by rw [field_congr h (f := .cs) (by decide), hHolds.cs]
  ds := by rw [field_congr h (f := .ds) (by decide), hHolds.ds]

/-- `s'` goes on where `s` was interrupted. -/
structure Resumes (s s' : State) : Prop where
  reg : s'.reg = s.reg
  eip : s'.eip = s.eip
  eflags : s'.eflags = s.eflags
  cs : s'.seg .cs = s.seg .cs
  ds : s'.seg .ds = s.seg .ds
  es : s'.seg .es = s.seg .es

theorem Holds.resumes {s' : State} (hHolds : Holds s m a) (hInst : Installed s' m a)
    (hDsEs : s.seg .ds = s.seg .es) : Resumes s s' where
  reg := by
    funext r
    cases r with
    | eax => rw [hInst.eax, hHolds.eax]
    | ebx => rw [hInst.ebx, hHolds.ebx]
    | ecx => rw [hInst.ecx, hHolds.ecx]
    | edx => rw [hInst.edx, hHolds.edx]
    | esi => rw [hInst.esi, hHolds.esi]
    | edi => rw [hInst.edi, hHolds.edi]
    | ebp => rw [hInst.ebp, hHolds.ebp]
    | esp => rw [hInst.esp, hHolds.esp]
  eip := by rw [hInst.eip, hHolds.eip]
  eflags := by rw [hInst.eflags, hHolds.eflags]
  cs := by rw [hInst.cs, hHolds.cs]
  ds := by rw [hInst.ds, hHolds.ds]
  es := by rw [hInst.es, hHolds.ds, hDsEs]

/-- The context of a trap holds the interrupted registers, and lies far enough
below a kernel stack pointer. -/
theorem enterHandle_holds (h : Interrupted s vector errcode) (ret cr3 : Word)
    (ha : (enterHandle tss vector errcode ret s).arg = a) :
    Holds s (irqSave tss cr3 a (enterHandle tss vector errcode ret s).mem) a ∧
      (rpl (s.seg .cs) = 0#2 → s.reg .esp - a = 80#32) := by
  obtain ⟨b, hPushed⟩ := stub_pushes tss h
  have hb : b = b - 60#32 + 60#32 := (BitVec.sub_add_cancel b 60#32).symm
  have hEsp : (run (irqStub vector) (interrupt tss errcode s)).reg .esp = b - 60#32 + 60#32 := by
    rw [hPushed.reg, Function.update_self]
    exact hb
  have hSaved := trap_saves ret hEsp
  have hArg : b - 60#32 = a := hSaved.arg.symm.trans ha
  rw [hArg] at hSaved hb
  rw [hb] at hPushed
  refine ⟨irqSave_holds hPushed hSaved, ?_⟩
  intro hMode
  rw [← hPushed.kernel hMode, add_add_lit, BitVec.add_comm, BitVec.add_sub_cancel]
  decide

/-- **A trap is invisible to the interrupted program.**  When the handler
returns the context it was given, `__am_iret` puts back every register; and
the frame of a kernel context survives its move to the new stack, however the
two places overlap. -/
theorem trap_iret :
    (∀ (s s' : State) (vector : Fin 256) (errcode : Option Word) (tss : Tss) (ret cr3 tf : Word),
      Interrupted s vector errcode →
      (enterHandle tss vector errcode ret s).arg = tf →
      s'.arg = tf →
      (∀ x, InBlock tf sizeofContext x →
        s'.mem x = irqSave tss cr3 tf (enterHandle tss vector errcode ret s).mem x) →
      Resumes s (runIret s')) ∧
    (∀ (s : State) (a : Word), s.arg = a →
      (field s.mem a .cs).setWidth 16 = kselKcode →
      a.toNat + sizeofContext ≤ (field s.mem a .esp).toNat →
      Installed (runIret s) s.mem a) := by
  constructor
  · intro s s' vector errcode tss ret cr3 tf hTrap hTf hArg hMem
    obtain ⟨hHolds, hFar⟩ := enterHandle_holds hTrap ret cr3 hTf
    have hHolds' := hHolds.congr hMem
    apply hHolds'.resumes (runIret_installs hArg ?_) hTrap.dsEs
    rw [hHolds'.cs, hHolds'.esp]
    cases hTrap.mode with
    | inl hKernel =>
        left
        rw [hFar (by rw [hKernel]; decide)]
        exact ⟨hKernel, by decide⟩
    | inr hUser =>
        right
        rw [hUser]
        decide
  · intro s a hArg hCs hFar
    apply runIret_installs hArg
    left
    refine ⟨hCs, ?_⟩
    unfold sizeofContext at hFar ⊢
    bv_omega

/-- A page fault in the kernel, and a context directly below its stack. -/
theorem trap_iret_page_fault :
    let mem : ByteMem 32 := fun _ => 0
    let s : State :=
      { reg := fun _ => 0x8000
        seg := fun r => if r = .cs then kselKcode else kselKdata
        eip := 0x100000
        eflags := 0x202
        mem := mem }
    let e := enterHandle ⟨0, 0⟩ 14 (some 2) 0x100100 s
    let k : State := { s with mem := st (kcontext 0x100200 0x9000 1 2 mem) 0x8004 0x8fc4 }
    Resumes s (runIret { e with mem := irqSave ⟨0, 0⟩ 0 e.arg e.mem }) ∧
      Installed (runIret k) k.mem 0x8fc4 := by
  intro mem s e k
  have hArg : ({ e with mem := irqSave ⟨0, 0⟩ 0 e.arg e.mem } : State).arg = e.arg := by
    decide
  exact ⟨trap_iret.1 s _ 14 (some 2) ⟨0, 0⟩ 0x100100 0 e.arg ⟨.inl rfl, rfl, rfl⟩ rfl hArg
    (fun _ _ => rfl), trap_iret.2 k 0x8fc4 (by decide) (by decide)
    (by decide)⟩

/-! ## Kernel threads -/

/-- The members of the context of a new kernel thread. -/
def newThread (start kend entry arg : Word) : Field → Word
  | .ds => kselKdata.setWidth 32
  | .cs => kselKcode.setWidth 32
  | .eip => start
  | .eflags => eflagsIF
  | .esp => kend
  | .eax => arg
  | .ebx => entry
  | _ => 0

/-- `kcontext` fills in seven members and zeroes the others. -/
theorem kcontext_field {f : Field} (start kend entry arg : Word) (hf : f.ctorIdx < 15) :
    field (kcontext start kend entry arg m) (kend - BitVec.ofNat 32 sizeofContext) f =
      newThread start kend entry arg f := by
  have hLoad : ∀ b : Word, ld (fun _ => 0) b = 0#32 := by
    intro b
    apply BitVec.eq_of_getLsbD_eq
    intro i hi
    rw [ld, getLsbD_load]
    simp
  have hZero : ∀ a : Word, field (fun x => if InBlock a sizeofContext x then 0#8 else m x) a f =
      0#32 := by
    intro a
    rw [← hLoad (a + f.offset)]
    apply field_congr _ hf
    intro x hx
    exact if_pos hx
  cases f <;> simp [kcontext, field_setField, hZero, newThread]

/-- **A kernel thread starts** in `__am_kcontext_start`, with its entry and
argument in registers and interrupts enabled, on its empty stack. -/
theorem kcontext_starts {start kend entry arg : Word}
    (hArg : s.arg = kend - BitVec.ofNat 32 sizeofContext)
    (hMem : ∀ x, InBlock s.arg sizeofContext x → s.mem x = kcontext start kend entry arg m x) :
    let s' := runIret s
    s'.eip = start ∧ s'.reg .eax = arg ∧ s'.reg .ebx = entry ∧ s'.reg .esp = kend ∧
      s'.eflags = eflagsIF ∧ s'.seg .cs = kselKcode ∧ s'.seg .ds = kselKdata := by
  have hField : ∀ f : Field, f.ctorIdx < 15 →
      field s.mem s.arg f = newThread start kend entry arg f := by
    intro f hf
    rw [field_congr hMem hf, hArg]
    exact kcontext_field start kend entry arg hf
  have hCs : (field s.mem s.arg .cs).setWidth 16 = kselKcode := by
    rw [hField .cs (by decide), newThread]
    decide
  have hFar : sizeofContext ≤ (field s.mem s.arg .esp - s.arg).toNat := by
    have hDist : kend - (kend - BitVec.ofNat 32 sizeofContext) = 60#32 := by
      unfold sizeofContext
      bv_omega
    rw [hField .esp (by decide), hArg, newThread, hDist]
    decide
  have hInst := runIret_installs rfl (.inl ⟨hCs, hFar⟩)
  intro s'
  refine ⟨?_, ?_, ?_, ?_, ?_, ?_, ?_⟩
  · rw [hInst.eip, hField .eip (by decide), newThread]
  · rw [hInst.eax, hField .eax (by decide), newThread]
  · rw [hInst.ebx, hField .ebx (by decide), newThread]
  · rw [hInst.esp, hField .esp (by decide), newThread]
  · rw [hInst.eflags, hField .eflags (by decide), newThread]
  · rw [hInst.cs, hCs]
  · rw [hInst.ds, hField .ds (by decide), newThread]
    decide

end

end AbstractMachine.X86.Trap32
