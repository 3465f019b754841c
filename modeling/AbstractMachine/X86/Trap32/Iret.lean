import AbstractMachine.X86.Trap32.Stack

/-!
# Returning from a trap

`__am_iret` installs the context it is given.  A user context is popped where
it lies; of a kernel context the hardware would not pop `esp`, so the six
words from `esi` to `eflags` are first moved to the end of the stack that the
context was saved from.  The new place may overlap the old one, but it never
lies below it, and the words are moved from the end down.
-/

namespace AbstractMachine.X86.Trap32

open AbstractMachine.Lib
open AbstractMachine.Lib.ByteMem

section

variable {s : State} {m : ByteMem 32} {a v : Word}

/-! ## Registers -/

theorem run_append (is js : List Instr) : run (is ++ js) s = run js (run is s) :=
  List.foldl_append

/-! ## Flags -/

/-- The other flags are not at the place of ZF. -/
theorem flag_zf (b : Bool) : (flag 0 b).getLsbD 6 = false ∧ (flag 2 b).getLsbD 6 = false ∧
    (flag 4 b).getLsbD 6 = false ∧ (flag 6 b).getLsbD 6 = b ∧
    (flag 7 b).getLsbD 6 = false ∧ (flag 11 b).getLsbD 6 = false := by
  revert b
  decide

@[simp] theorem subFlags_zf {w : Nat} (eflags : Word) (x y : BitVec w) :
    (subFlags eflags x y)[6] = decide (x = y) := by
  rw [← BitVec.getLsbD_eq_getElem]
  have hMask : (~~~0x8d5#32).getLsbD 6 = false := by decide
  have hZero : (x - y == 0) = decide (x = y) := by
    rw [Bool.eq_iff_iff, beq_iff_eq, decide_eq_true_eq]
    rw [BitVec.sub_eq_iff_eq_add, show (0 : BitVec w) + y = y from BitVec.zero_add y]
  unfold subFlags status
  simp only [BitVec.getLsbD_or, BitVec.getLsbD_and, hMask, Bool.and_false, flag_zf,
    Bool.false_or, Bool.or_false, hZero]

/-- A 16-bit load reads the low half of the word. -/
theorem load_two : ByteMem.load m a 2 = (ld m a).setWidth 16 := by
  apply BitVec.eq_of_getLsbD_eq
  intro i hi
  have hi' : i < 16 := hi
  have hBits : i < 8 * 4 := by omega
  rw [getLsbD_load, BitVec.getLsbD_setWidth, ld, getLsbD_load]
  simp [hi', hBits]

/-! ## The exit code -/

/-- `__am_iret` up to the branch: the stack pointer is past `ds`. -/
theorem run_amIret (hArg : s.arg = a) :
    (run amIret s).reg .esp = a + 8#32 ∧ (run amIret s).mem = s.mem ∧
      (run amIret s).seg .ds = (ld s.mem (a + 4#32)).setWidth 16 ∧
      (run amIret s).seg .es = (ld s.mem (a + 4#32)).setWidth 16 ∧
      (run amIret s).zf = decide ((ld s.mem (a + 44#32)).setWidth 16 = kselKcode) := by
  have hTop : ld s.mem (s.reg .esp + 4#32) = a := hArg
  simp [run, amIret, exec, State.set, State.setSeg, State.drop, State.top, State.zf,
    Function.update, hTop, load_two, add_add_lit]

/-- The context at `a` has been installed. -/
structure Installed (s : State) (m : ByteMem 32) (a : Word) : Prop where
  eax : s.reg .eax = field m a .eax
  ebx : s.reg .ebx = field m a .ebx
  ecx : s.reg .ecx = field m a .ecx
  edx : s.reg .edx = field m a .edx
  esi : s.reg .esi = field m a .esi
  edi : s.reg .edi = field m a .edi
  ebp : s.reg .ebp = field m a .ebp
  esp : s.reg .esp = field m a .esp
  eip : s.eip = field m a .eip
  eflags : s.eflags = field m a .eflags
  cs : s.seg .cs = (field m a .cs).setWidth 16
  ds : s.seg .ds = (field m a .ds).setWidth 16
  es : s.seg .es = (field m a .ds).setWidth 16

/-- User contexts are popped. -/
theorem userIret_installs (hEsp : s.reg .esp = a + 8#32)
    (hDs : s.seg .ds = (ld s.mem (a + 4#32)).setWidth 16)
    (hEs : s.seg .es = (ld s.mem (a + 4#32)).setWidth 16)
    (hUser : rpl ((ld s.mem (a + 44#32)).setWidth 16) ≠ 0#2) :
    Installed (iret (run userIret s)) s.mem a := by
  constructor <;>
  simp [run, userIret, exec, iret, State.set, State.setSeg, State.drop, State.top,
    Function.update, field, Field.offset, Field.ctorIdx, hEsp, hDs, hEs, hUser, add_add_lit]

/-- The first part of `.kernel_iret`: the stack pointer is at `esi`. -/
theorem run_kernelPops (hEsp : s.reg .esp = a + 8#32) :
    (run kernelPops s).reg .eax = ld s.mem (a + 8#32) ∧
      (run kernelPops s).reg .ebx = ld s.mem (a + 12#32) ∧
      (run kernelPops s).reg .ecx = ld s.mem (a + 16#32) ∧
      (run kernelPops s).reg .edx = ld s.mem (a + 20#32) ∧
      (run kernelPops s).reg .esp = a + 28#32 ∧
      (run kernelPops s).seg = s.seg ∧ (run kernelPops s).mem = s.mem := by
  simp [run, kernelPops, exec, State.set, State.drop, State.top, Function.update, hEsp,
    add_add_lit]

/-- **The overlapping move.**  `.kernel_iret` and `iret` install the words from
`esi` to `eflags`, when the new stack pointer `e` lies at least a context
above `a`. -/
theorem kernelMove_installs {e : Word} (hEsp : s.reg .esp = a + 28#32)
    (he : ld s.mem (a + 52#32) = e) (hFar : 60 ≤ (e - a).toNat)
    (hKernel : rpl ((ld s.mem (a + 44#32)).setWidth 16) = 0#2) :
    let s' := iret (run kernelMove s)
    s'.reg .esi = ld s.mem (a + 28#32) ∧ s'.reg .edi = ld s.mem (a + 32#32) ∧
      s'.reg .ebp = ld s.mem (a + 36#32) ∧ s'.reg .esp = e ∧
      s'.eip = ld s.mem (a + 40#32) ∧ s'.eflags = ld s.mem (a + 48#32) ∧
      s'.seg .cs = (ld s.mem (a + 44#32)).setWidth 16 ∧
      s'.reg .eax = s.reg .eax ∧ s'.reg .ebx = s.reg .ebx ∧ s'.reg .ecx = s.reg .ecx ∧
      s'.reg .edx = s.reg .edx ∧ s'.seg .ds = s.seg .ds ∧ s'.seg .es = s.seg .es := by
  intro s'
  simp (disch := decide) [s', run, kernelMove, exec, iret, State.set, State.setSeg, State.drop,
    State.top, Function.update, hEsp, he, add_add_lit, ld_st_far hFar, ld_st_add, hKernel]

/-- Kernel contexts are moved to their stack first. -/
theorem kernelIret_installs (hEsp : s.reg .esp = a + 8#32)
    (hDs : s.seg .ds = (ld s.mem (a + 4#32)).setWidth 16)
    (hEs : s.seg .es = (ld s.mem (a + 4#32)).setWidth 16)
    (hKernel : rpl ((ld s.mem (a + 44#32)).setWidth 16) = 0#2)
    (hFar : 60 ≤ (ld s.mem (a + 52#32) - a).toNat) :
    Installed (iret (run (kernelPops ++ kernelMove) s)) s.mem a := by
  obtain ⟨hEax, hEbx, hEcx, hEdx, hEsp', hSeg, hMem⟩ := run_kernelPops hEsp
  rw [run_append]
  rw [← hMem] at hKernel hFar
  obtain ⟨hEsi, hEdi, hEbp, hEsp'', hEip, hEflags, hCs, hEax', hEbx', hEcx', hEdx', hDs', hEs'⟩ :=
    kernelMove_installs hEsp' rfl hFar hKernel
  rw [hMem] at hEsi hEdi hEbp hEsp'' hEip hEflags hCs
  exact
    { eax := hEax'.trans hEax
      ebx := hEbx'.trans hEbx
      ecx := hEcx'.trans hEcx
      edx := hEdx'.trans hEdx
      esi := hEsi
      edi := hEdi
      ebp := hEbp
      esp := hEsp''
      eip := hEip
      eflags := hEflags
      cs := hCs
      ds := hDs'.trans (by rw [hSeg, hDs]; rfl)
      es := hEs'.trans (by rw [hSeg, hEs]; rfl) }

/-- **`__am_iret`** installs the context at `a`: one of user mode, or one of
kernel mode whose stack pointer lies at least a context above it. -/
theorem runIret_installs (hArg : s.arg = a)
    (hMode : (field s.mem a .cs).setWidth 16 = kselKcode ∧
        sizeofContext ≤ (field s.mem a .esp - a).toNat ∨
      rpl ((field s.mem a .cs).setWidth 16) ≠ 0#2) :
    Installed (runIret s) s.mem a := by
  obtain ⟨hEsp, hMem, hDs, hEs, hZf⟩ := run_amIret hArg
  have hRpl : rpl kselKcode = 0#2 := by decide
  rw [← hMem] at hMode hDs hEs hZf ⊢
  unfold runIret
  dsimp only
  rw [hZf]
  rcases hMode with ⟨hCs, hFar⟩ | hUser
  · have hCs' : (ld (run amIret s).mem (a + 44#32)).setWidth 16 = kselKcode := hCs
    rw [if_pos (decide_eq_true hCs')]
    exact kernelIret_installs hEsp hDs hEs (by rw [hCs', hRpl]) hFar
  · have hNot : (ld (run amIret s).mem (a + 44#32)).setWidth 16 ≠ kselKcode := by
      intro hCs
      apply hUser
      show rpl ((ld (run amIret s).mem (a + 44#32)).setWidth 16) = _
      rw [hCs, hRpl]
    rw [if_neg (by simp [hNot])]
    exact userIret_installs hEsp hDs hEs hUser

end

end AbstractMachine.X86.Trap32
