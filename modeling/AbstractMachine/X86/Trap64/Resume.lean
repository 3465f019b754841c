import AbstractMachine.X86.Cte.KernelStack
import AbstractMachine.X86.Trap64.System

/-!
# What a task resumes with

A context in use keeps its bytes whatever the CPUs do, so the CPU that resumes it, the
one that was interrupted or another, gets what was saved there.

## Main results

* `task_continues` -- an interrupted task goes on where it was.
* `thread_starts` -- a kernel thread enters its function.
* `process_starts` -- a process enters its program, with nothing else in the registers.
-/

namespace AbstractMachine.X86.Trap64

open AbstractMachine.Lib
open AbstractMachine.Lib.ByteMem
open AbstractMachine.X86.Vme (Pager)
open AbstractMachine.X86.Cte (Gpr)
open AbstractMachine.X86.Trap32 (pushesErrorCode kselKcode)

/-- The context at `a` is not given up. -/
def Retains (a : Word) (m : Machine) : Op → Prop
  | .drop _ k => (m.contexts[k]?).map Saved.addr ≠ some a
  | _ => True

instance (a : Word) (m : Machine) (op : Op) : Decidable (Retains a m op) := by
  cases op <;> (unfold Retains; infer_instance)

/-- The context at `a` is in use, for the task, with its bytes as in `mem`. -/
structure Kept (mem : Mem) (a : Word) (task : Cte.Task) (m : Machine) : Prop where
  used : ⟨a, task⟩ ∈ m.contexts
  only : ∀ s ∈ m.contexts, s.addr = a → s.task = task
  bytes : ∀ x, InBlock a sizeofContext x → m.mem x = mem x

section

variable {env : Pager} {start ret : Word} {ncpu i j k n : Nat} {m m' : Machine} {op : Op}
  {mem mem' : Mem} {a b : Word} {task : Cte.Task} {s : Saved}

/-! ## Contexts in use -/

/-- A context that is put in the clear is none of those in use. -/
theorem Machine.Clear.ne (h : m.Clear b n) (hs : s ∈ m.contexts) (ha : InBlock b n a) :
    s.addr ≠ a := by
  intro hEq
  have hAbove := (h s hs).1
  rw [hEq] at hAbove
  exact absurd ha (Nat.not_lt.mpr hAbove)

private theorem inBlock_self (hn : 0 < n) : InBlock a n a := by
  unfold InBlock
  rw [BitVec.sub_self]
  exact hn

private theorem frame_inBlock (f : Word) : InBlock (f - 8) (8 + sizeofTrapFrame) f := by
  have hGrown := inBlock_grown (k := 8) (inBlock_self (a := f) (n := sizeofTrapFrame) (by decide))
    (by decide)
  exact hGrown

theorem Kept.save (h : Kept mem a task m) (hSame : m.Same mem') (hNe : s.addr ≠ a) :
    Kept mem a task (m.save s mem') where
  used := List.mem_cons_of_mem _ h.used
  only := by
    intro t ht
    rcases List.mem_cons.mp ht with rfl | ht
    · exact fun hEq => absurd hEq hNe
    · exact h.only t ht
  bytes := fun x hx => (hSame _ h.used x hx).trans (h.bytes x hx)

/-- A fresh context, in the clear. -/
theorem kept_new (hClear : m.Clear b n) (ha : InBlock b n a) :
    Kept mem a task (m.save ⟨a, task⟩ mem) where
  used := List.mem_cons_self
  only := by
    intro t ht hEq
    rcases List.mem_cons.mp ht with rfl | ht
    · rfl
    · exact absurd hEq (hClear.ne ht ha)
  bytes := fun _ _ => rfl

/-- No step changes a context in use. -/
theorem Kept.step (h : Kept mem a task m) (hRetains : Retains a m op)
    (hNext : next env start ret m op = some m') : Kept mem a task m' := by
  cases op with
  | call i op =>
      obtain ⟨-, vme, -, rfl⟩ := next_call.mp hNext
      exact ⟨h.used, h.only, h.bytes⟩
  | kcontext i base kend entry arg =>
      obtain ⟨⟨-, hRoom⟩, rfl⟩ := next_kcontext.mp hNext
      apply h.save (kcontext_same hRoom start entry arg)
      exact (hRoom.2.ne h.used (inBlock_self (by decide))).symm
  | ucontext i as base kend entry =>
      obtain ⟨⟨-, -, -, hRoom⟩, rfl⟩ := next_ucontext.mp hNext
      apply h.save (ucontext_same hRoom _ entry)
      exact (hRoom.2.ne h.used (inBlock_self (by decide))).symm
  | drop i k =>
      cases hNext
      refine ⟨?_, fun s hs => h.only s (List.mem_of_mem_eraseIdx hs), h.bytes⟩
      obtain ⟨l, hl⟩ := List.mem_iff_getElem?.mp h.used
      refine List.mem_eraseIdx_iff_getElem?.mpr ⟨l, ?_, hl⟩
      rintro rfl
      apply hRetains
      rw [hl]
      rfl
  | exec i core mem' =>
      obtain ⟨⟨-, -, -, hSpares⟩, rfl⟩ := next_exec.mp hNext
      exact ⟨h.used, h.only, fun x hx => (hSpares.same _ h.used x hx).trans (h.bytes x hx)⟩
  | trap i vector errcode =>
      obtain ⟨⟨hErr, hClear⟩, rfl⟩ := next_trap.mp hNext
      rw [enterTrap_eq hErr]
      have hNe := (hClear.ne h.used (frame_inBlock _)).symm
      have hSave := h.save (s := ⟨(m.cpu i).core.frame, (m.cpu i).task⟩)
        (trapMem_same ret hErr hClear) hNe
      exact ⟨hSave.used, hSave.only, hSave.bytes⟩
  | resume i k =>
      obtain ⟨-, s, -, -, rfl⟩ := next_resume.mp hNext
      unfold Machine.resume
      rw [leave_eq s.addr (m.state i)]
      exact ⟨h.used, h.only, h.bytes⟩

theorem Kept.run (h : Kept mem a task m)
    (hRun : System.Run ((system env start ret ncpu).restrict (Retains a)) m m') :
    Kept mem a task m' := by
  apply hRun.inv _ h
  intro m op m' hm hNext
  obtain ⟨hRetains, hStep⟩ := System.restrict_next.mp hNext
  exact hm.step hRetains (system_next.mp hStep).2

private theorem loaded_congr {m m' : Mem} (h : ∀ x, InBlock a sizeofContext x → m' x = m x)
    (c : Core) :
    loaded m' a (irqRestore a { core := c, mem := m' }).core =
      loaded m a (irqRestore a { core := c, mem := m }).core := by
  have hWord := word_congr h
  have hCore : (irqRestore a { core := c, mem := m' }).core =
      (irqRestore a { core := c, mem := m }).core := by
    unfold irqRestore
    dsimp only
    rw [hWord .cr3, hWord .rsp0]
    split <;> rfl
  unfold loaded
  rw [hCore, hWord .cs, hWord .ss, hWord .rip, hWord .rflags]
  simp only [hWord]

/-- Whoever resumes the context gets what was in it. -/
theorem Kept.resumed (h : Kept mem a task m) (hk : (m.contexts[k]?).map Saved.addr = some a)
    (hNext : (system env start ret ncpu).next m (.resume j k) = some m') :
    m'.cpu j =
      { core := loaded mem a (irqRestore a { core := (m.cpu j).core, mem := mem }).core
        task := task
        inHandler := false } := by
  obtain ⟨-, s, hs, -, rfl⟩ := next_resume.mp (system_next.mp hNext).2
  have hAddr : s.addr = a := by
    rw [hs] at hk
    exact Option.some.inj hk
  have hTask : s.task = task := h.only s (List.mem_of_getElem? hs) hAddr
  have hCore : loaded m.mem a (irqRestore a (m.state j)).core = _ :=
    loaded_congr h.bytes (m.cpu j).core
  unfold Machine.resume
  rw [leave_eq s.addr (m.state j), hAddr, hTask]
  show Function.update m.cpu j _ j = _
  rw [Function.update_self]
  dsimp only
  rw [← hCore]
  rfl

/-! ## What is in a context -/

/-- A CPU that goes on: the data segments are all loaded with the saved `ss`. -/
def Core.resumed (c : Core) : Core :=
  { c with
    seg := fun
      | .cs => c.seg .cs
      | _ => c.seg .ss }

/-- A CPU that starts a kernel thread, in the address space that it is in. -/
def threadCore (start kend entry arg : Word) (c : Core) : Core where
  reg
    | .gpr r => if r = Gpr.rsi then entry else if r = Gpr.rdi then arg else 0
    | .rsp => kend
  seg
    | .cs => kselKcode
    | _ => 0
  rip := start
  rflags := rflagsIF
  cr3 := c.cr3
  rsp0 := c.rsp0

/-- A CPU that starts a process. -/
def processCore (ptr kend entry : Word) : Core where
  reg
    | .gpr _ => 0
    | .rsp => BitVec.ofNat 64 (Vme.uvmArea .x86_64).stop
  seg
    | .cs => BitVec.ofNat 16 (usel segUcode)
    | _ => BitVec.ofNat 16 (usel segUdata)
  rip := entry
  rflags := rflagsIF
  cr3 := ptr
  rsp0 := kend

/-- The model has all registers but `es`. -/
theorem eq_of_cpu {c d : Core} (h : c.cpu = d.cpu) (hEs : c.seg .es = d.seg .es) : c = d := by
  have hRegs := congrArg Cte.Cpu.regs h
  apply Core.ext
  · funext r
    cases r with
    | gpr r => exact BitVec.eq_of_toNat_eq (congrFun (congrArg Cte.Registers.gpr hRegs) r)
    | rsp => exact BitVec.eq_of_toNat_eq (congrArg Cte.Registers.sp hRegs)
  · funext q
    cases q with
    | cs => exact BitVec.eq_of_toNat_eq (congrArg Cte.Cpu.cs h)
    | ds => exact BitVec.eq_of_toNat_eq (congrArg Cte.Registers.ds hRegs)
    | es => exact hEs
    | ss => exact BitVec.eq_of_toNat_eq (congrArg Cte.Registers.ss hRegs)
  · exact BitVec.eq_of_toNat_eq (congrArg Cte.Registers.ip hRegs)
  · exact BitVec.eq_of_toNat_eq (congrArg Cte.Registers.flags hRegs)
  · exact BitVec.eq_of_toNat_eq (congrArg Cte.Cpu.cr3 h)
  · exact BitVec.eq_of_toNat_eq (congrArg Cte.Cpu.sp0 h)

/-- The CPU that the model says, when the data segments are the same. -/
theorem loaded_eq {c d : Core} {ctx : Cte.Context} (hCtx : contextAt mem a = ctx)
    (hSel : Selectors ctx) (hEs : d.seg .es = d.seg .ds)
    (hCpu : Cte.iret .x86_64 ctx (Cte.irqRestore .x86_64 ctx c.cpu) = d.cpu) :
    loaded mem a (irqRestore a { core := c, mem := mem }).core = d := by
  have hLoaded := @leave_cpu a { core := c, mem := mem } (hCtx ▸ hSel)
  dsimp only at hLoaded
  rw [hCtx, hCpu] at hLoaded
  apply eq_of_cpu hLoaded
  have hDs := BitVec.eq_of_toNat_eq (congrArg (Cte.Registers.ds ∘ Cte.Cpu.regs) hLoaded)
  rw [hEs]
  exact hDs

/-- The model, when the context has a page directory. -/
theorem iret_restored {ctx : Cte.Context} (h : ctx.cr3 ≠ 0) (cpu : Cte.Cpu) :
    Cte.iret .x86_64 ctx (Cte.irqRestore .x86_64 ctx cpu) =
      { regs :=
          { gpr := ctx.gpr, ip := ctx.ip, flags := ctx.flags, sp := ctx.sp, ss := ctx.ss
            ds := ctx.ss % 2 ^ 16 }
        cs := ctx.cs, cr3 := ctx.cr3, sp0 := ctx.sp0, ss0 := cpu.ss0 } := by
  unfold Cte.irqRestore
  rw [if_pos h]
  rfl

private theorem loaded_trap {vector : Fin 256} {errcode : Option Word}
    (hErr : errcode.isSome = pushesErrorCode vector) (hCr3 : (m.cpu i).core.cr3 ≠ 0) (c : Core) :
    let mem := m.trapMem ret i vector errcode
    let a := (m.cpu i).core.frame
    loaded mem a (irqRestore a { core := c, mem := mem }).core = (m.cpu i).core.resumed := by
  intro mem a
  have hCtx := trapMem_context m ret i hErr 0
  have hSel := trapMem_selectors m ret i hErr
  rw [hCtx] at hSel
  apply loaded_eq hCtx hSel rfl
  have hDs : ((m.cpu i).core.seg .ss).toNat % 2 ^ 16 = ((m.cpu i).core.seg .ss).toNat :=
    Nat.mod_eq_of_lt ((m.cpu i).core.seg .ss).isLt
  rw [iret_restored fun hEq => hCr3 (BitVec.eq_of_toNat_eq hEq)]
  unfold Core.cpu Core.resumed Cte.irqSave Cte.Cpu.trapFrame
  simp only [hDs, reduceCtorEq, false_and, if_false]

private theorem loaded_kcontext (start kend entry arg : Word) (m : Mem) (c : Core) :
    let mem := kcontext start kend entry arg m
    let a := contextAddr kend
    loaded mem a (irqRestore a { core := c, mem := mem }).core =
      threadCore start kend entry arg c := by
  intro mem a
  have hCtx := kcontext_context start kend entry arg 0 m
  apply loaded_eq hCtx (kcontext_selectors ..) rfl
  rw [Cte.irqRestore_null (Cte.kcontext_cr3 ..)]
  have hGpr : (fun r => ((threadCore start kend entry arg c).reg (.gpr r)).toNat) =
      Function.update (Function.update (fun _ => 0) Gpr.rdi arg.toNat) Gpr.rsi entry.toNat := by
    funext r
    cases r <;> rfl
  unfold Core.cpu
  rw [hGpr]
  rfl

private theorem loaded_ucontext {ptr : Word} (hPtr : ptr ≠ 0) (kend entry : Word) (m : Mem)
    (c : Core) :
    let mem := ucontext ptr kend entry m
    let a := contextAddr kend
    loaded mem a (irqRestore a { core := c, mem := mem }).core = processCore ptr kend entry := by
  intro mem a
  have hCtx := ucontext_context ptr kend entry 0 m
  apply loaded_eq hCtx (ucontext_selectors ..) rfl
  rw [iret_restored fun hEq => hPtr (BitVec.eq_of_toNat_eq hEq)]
  rfl

end

/--
**An interrupted task goes on.**  A CPU traps; then all CPUs take any steps, as long as
nobody gives the saved context up; then some CPU resumes it.  That CPU runs the task with
all the registers, the flags, the address space and the kernel stack that it had, and the
data segments loaded with its `ss`.
-/
theorem task_continues {env : Pager} {start ret : Word} {ncpu i j k : Nat} {vector : Fin 256}
    {errcode : Option Word} {m m₁ m₂ m₃ : Machine} (hCr3 : (m.cpu i).core.cr3 ≠ 0)
    (hTrap : (system env start ret ncpu).next m (.trap i vector errcode) = some m₁)
    (hRun :
      System.Run ((system env start ret ncpu).restrict (Retains (m.cpu i).core.frame)) m₁ m₂)
    (hk : (m₂.contexts[k]?).map Saved.addr = some (m.cpu i).core.frame)
    (hResume : (system env start ret ncpu).next m₂ (.resume j k) = some m₃) :
    m₃.cpu j = ⟨(m.cpu i).core.resumed, (m.cpu i).task, false⟩ := by
  obtain ⟨⟨hErr, hClear⟩, rfl⟩ := next_trap.mp (system_next.mp hTrap).2
  have hNew : Kept (m.trapMem ret i vector errcode) (m.cpu i).core.frame (m.cpu i).task
      (m.save ⟨(m.cpu i).core.frame, (m.cpu i).task⟩ (m.trapMem ret i vector errcode)) :=
    kept_new hClear (frame_inBlock _)
  have hKept : Kept (m.trapMem ret i vector errcode) (m.cpu i).core.frame (m.cpu i).task
      (m.enterTrap ret i vector errcode) := by
    rw [enterTrap_eq hErr]
    exact ⟨hNew.used, hNew.only, hNew.bytes⟩
  rw [(hKept.run hRun).resumed hk hResume, loaded_trap hErr hCr3]

/-- The boot code of a CPU traps and another CPU goes on with it. -/
theorem task_continues_migrates : ∃ m m₃ : Machine,
    m₃.cpu 1 = ⟨(m.cpu 0).core.resumed, (m.cpu 0).task, false⟩ := by
  let S := system Vme.steadyPager 0x200000 0x200100 2
  have hRuns : ((booted S []).bind fun m =>
      (S.next m (.trap 0 0x81 none)).bind fun m₁ =>
        ((S.restrict (Retains (m.cpu 0).core.frame)).steps m₁ [.trap 1 32 none]).bind fun m₂ =>
          if (m.cpu 0).core.cr3 ≠ 0 ∧
              (m₂.contexts[1]?).map Saved.addr = some (m.cpu 0).core.frame then
            (S.next m₂ (.resume 1 1)).map fun m₃ => (m, m₃)
          else none).isSome = true := by
    decide +kernel
  obtain ⟨⟨m, m₃⟩, hSome⟩ := Option.isSome_iff_exists.mp hRuns
  obtain ⟨m', -, hSome⟩ := Option.bind_eq_some_iff.mp hSome
  obtain ⟨m₁, hTrap, hSome⟩ := Option.bind_eq_some_iff.mp hSome
  obtain ⟨m₂, hSteps, hSome⟩ := Option.bind_eq_some_iff.mp hSome
  obtain ⟨⟨hCr3, hk⟩, hSome⟩ := Option.ite_none_right_eq_some.mp hSome
  obtain ⟨u, hResume, hPair⟩ := Option.map_eq_some_iff.mp hSome
  exact ⟨m', u, task_continues hCr3 hTrap (System.steps_run _ _ hSteps) hk hResume⟩

/--
**A kernel thread enters its function.**  Whenever and wherever a context made by
`kcontext` is resumed, the CPU runs `__am_kcontext_start` in the address space that it is
in, with interrupts on, and that enters `entry` with `arg`, the stack empty but for the
address of `__am_panic_on_return`.
-/
theorem thread_starts {env : Pager} {start ret base kend entry arg : Word} (panic : Word)
    {ncpu i j k : Nat} {m m₁ m₂ m₃ : Machine}
    (hMade : (system env start ret ncpu).next m (.kcontext i base kend entry arg) = some m₁)
    (hRun :
      System.Run ((system env start ret ncpu).restrict (Retains (contextAddr kend))) m₁ m₂)
    (hk : (m₂.contexts[k]?).map Saved.addr = some (contextAddr kend))
    (hResume : (system env start ret ncpu).next m₂ (.resume j k) = some m₃) :
    let s := run (kcontextStart panic) (m₃.state j)
    m₃.cpu j = ⟨threadCore start kend entry arg (m₂.cpu j).core,
        .kthread ⟨base.toNat, kend.toNat⟩, false⟩ ∧
      s.core.rip = entry ∧ s.reg (.gpr .rdi) = arg ∧ s.reg .rsp = kend - 8 ∧
      ld s.mem (kend - 8) = panic := by
  obtain ⟨⟨-, hRoom⟩, rfl⟩ := next_kcontext.mp (system_next.mp hMade).2
  have hKept : Kept (kcontext start kend entry arg m.mem) (contextAddr kend)
      (.kthread ⟨base.toNat, kend.toNat⟩)
      (m.save ⟨contextAddr kend, .kthread ⟨base.toNat, kend.toNat⟩⟩
        (kcontext start kend entry arg m.mem)) := kept_new hRoom.2 (inBlock_self (by decide))
  have hCpu := (hKept.run hRun).resumed hk hResume
  rw [loaded_kcontext] at hCpu
  have hCore : (m₃.state j).core = threadCore start kend entry arg (m₂.cpu j).core :=
    congrArg Cpu.core hCpu
  refine ⟨hCpu, ?_, ?_, ?_, ?_⟩
  · show ((m₃.state j).push [panic]).reg (.gpr .rsi) = entry
    rw [push_gpr, State.reg, hCore]
    rfl
  · show ((m₃.state j).push [panic]).reg (.gpr .rdi) = arg
    rw [push_gpr, State.reg, hCore]
    rfl
  · show ((m₃.state j).push [panic]).reg .rsp = kend - 8
    rw [push_rsp, pushAll_fst, State.reg, hCore]
    rfl
  · show ld ((m₃.state j).push [panic]).mem (kend - 8) = panic
    rw [push_mem, State.reg, hCore]
    exact load_store_same (n := 8) _ _ panic (by decide)

/-- The boot code makes a kernel thread, which another CPU starts. -/
theorem thread_starts_other : ∃ m₂ m₃ : Machine,
    m₃.cpu 1 = ⟨threadCore 0x200000 0x308000 0x201000 7 (m₂.cpu 1).core,
      .kthread ⟨0x300000, 0x308000⟩, false⟩ := by
  let S := system Vme.steadyPager 0x200000 0x200100 2
  have hRuns : ((booted S []).bind fun m =>
      (S.next m (.kcontext 0 0x300000 0x308000 0x201000 7)).bind fun m₁ =>
        ((S.restrict (Retains (contextAddr 0x308000))).steps m₁ [.trap 1 32 none]).bind fun m₂ =>
          if (m₂.contexts[1]?).map Saved.addr = some (contextAddr 0x308000) then
            (S.next m₂ (.resume 1 1)).map fun m₃ => (m₂, m₃)
          else none).isSome = true := by
    decide +kernel
  obtain ⟨⟨u, v⟩, hSome⟩ := Option.isSome_iff_exists.mp hRuns
  obtain ⟨m, -, hSome⟩ := Option.bind_eq_some_iff.mp hSome
  obtain ⟨m₁, hMade, hSome⟩ := Option.bind_eq_some_iff.mp hSome
  obtain ⟨m₂, hSteps, hSome⟩ := Option.bind_eq_some_iff.mp hSome
  obtain ⟨hk, hSome⟩ := Option.ite_none_right_eq_some.mp hSome
  obtain ⟨m₃, hResume, -⟩ := Option.map_eq_some_iff.mp hSome
  exact ⟨m₂, m₃, (thread_starts 0 hMade (System.steps_run _ _ hSteps) hk hResume).1⟩

/-- An address space has a page directory. -/
theorem space_ptr {env : Pager} {start ret : Word} {ncpu as : Nat} {m : Machine}
    (hReach : (system env start ret ncpu).Reachable m) (hAs : as ∈ m.vme.vm.spaces) :
    m.vme.vm.mem as ≠ 0 := by
  obtain ⟨m₀, hInit, hRun⟩ := hReach
  obtain ⟨c, hModels, hRun'⟩ := run_models (Started.fits hInit) hRun
  have hOk : Cte.StacksOk .x86_64 c := by
    apply hRun'.inv _ (Cte.Started.stacksOk hInit)
    intro c op c' hc hNext
    exact hc.step (Cte.system_next.mp hNext).2
  obtain ⟨s₀, hOwned⟩ := hOk.owned
  rw [hModels.vme] at hOwned
  exact hOwned.ptr_ne_zero hAs

/--
**A process enters its program.**  Whenever and wherever a context made by `ucontext` is
resumed, the CPU is in user mode at `entry`, with the address space that `as` had, the
kernel stack of the process for its traps, the user stack at the end of user memory,
interrupts on, and 0 in every other register.
-/
theorem process_starts {env : Pager} {start ret base kend entry : Word} {ncpu i j k as : Nat}
    {m m₁ m₂ m₃ : Machine} (hReach : (system env start ret ncpu).Reachable m)
    (hMade : (system env start ret ncpu).next m (.ucontext i as base kend entry) = some m₁)
    (hRun :
      System.Run ((system env start ret ncpu).restrict (Retains (contextAddr kend))) m₁ m₂)
    (hk : (m₂.contexts[k]?).map Saved.addr = some (contextAddr kend))
    (hResume : (system env start ret ncpu).next m₂ (.resume j k) = some m₃) :
    m₃.cpu j = ⟨processCore (BitVec.ofNat 64 (m.vme.vm.mem as)) kend entry,
      .process as ⟨base.toNat, kend.toNat⟩, false⟩ := by
  obtain ⟨⟨-, hAs, hWord, hRoom⟩, rfl⟩ := next_ucontext.mp (system_next.mp hMade).2
  have hPtr : BitVec.ofNat 64 (m.vme.vm.mem as) ≠ 0 := by
    intro hEq
    have hNat := congrArg BitVec.toNat hEq
    rw [BitVec.toNat_ofNat, Nat.mod_eq_of_lt hWord] at hNat
    exact space_ptr hReach hAs hNat
  have hKept : Kept (ucontext (BitVec.ofNat 64 (m.vme.vm.mem as)) kend entry m.mem)
      (contextAddr kend) (.process as ⟨base.toNat, kend.toNat⟩)
      (m.save ⟨contextAddr kend, .process as ⟨base.toNat, kend.toNat⟩⟩
        (ucontext (BitVec.ofNat 64 (m.vme.vm.mem as)) kend entry m.mem)) :=
    kept_new hRoom.2 (inBlock_self (by decide))
  rw [(hKept.run hRun).resumed hk hResume, loaded_ucontext hPtr]

/-- The boot code makes a process, which another CPU starts. -/
theorem process_starts_other : ∃ m m₃ : Machine,
    m₃.cpu 1 = ⟨processCore (BitVec.ofNat 64 (m.vme.vm.mem 16)) 0x308000 0x100000000000,
      .process 16 ⟨0x300000, 0x308000⟩, false⟩ := by
  let S := system Vme.steadyPager 0x200000 0x200100 2
  have hRuns : ((booted S [.call 0 (.protect 16)]).bind fun m =>
      (S.next m (.ucontext 0 16 0x300000 0x308000 0x100000000000)).bind fun m₁ =>
        ((S.restrict (Retains (contextAddr 0x308000))).steps m₁ [.trap 1 32 none]).bind fun m₂ =>
          if (m₂.contexts[1]?).map Saved.addr = some (contextAddr 0x308000) then
            (S.next m₂ (.resume 1 1)).map fun m₃ => (m, m₃)
          else none).isSome = true := by
    decide +kernel
  obtain ⟨⟨u, v⟩, hSome⟩ := Option.isSome_iff_exists.mp hRuns
  obtain ⟨m, hBooted, hSome⟩ := Option.bind_eq_some_iff.mp hSome
  obtain ⟨m₁, hMade, hSome⟩ := Option.bind_eq_some_iff.mp hSome
  obtain ⟨m₂, hSteps, hSome⟩ := Option.bind_eq_some_iff.mp hSome
  obtain ⟨hk, hSome⟩ := Option.ite_none_right_eq_some.mp hSome
  obtain ⟨m₃, hResume, -⟩ := Option.map_eq_some_iff.mp hSome
  exact ⟨m, m₃,
    process_starts (booted_run hBooted) hMade (System.steps_run _ _ hSteps) hk hResume⟩

end AbstractMachine.X86.Trap64
