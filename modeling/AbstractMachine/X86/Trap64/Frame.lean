import AbstractMachine.X86.Trap32.Entry
import AbstractMachine.X86.Trap64.Model

/-!
# The trap frame

What the hardware, the stub of the vector and `trap` put on the stack is a
`struct trap_frame`.

## Main results

* `enter_frame` -- the frame of a trap.
-/

namespace AbstractMachine.X86.Trap64

open AbstractMachine.Lib
open AbstractMachine.Lib.ByteMem
open AbstractMachine.X86.Cte (Gpr)
open AbstractMachine.X86.Trap32 (IRQS irqOf pushesErrorCode rpl kselKcode irqOf_err)

variable {s : State} {m : Mem} {a v : Word} {vs us : List Word} {errcode : Option Word}
  {vector : Fin 256} {r : Gpr}

/-! ## Pushing -/

private theorem push_nil (s : State) : s.push [] = s := by
  unfold State.push
  rw [pushAll_nil]
  show { s with core := s.core.set .rsp (s.core.reg .rsp) } = s
  unfold Core.set
  rw [Function.update_eq_self]

theorem set_same (c : Core) (r : Reg) (v : Word) : (c.set r v).reg r = v := by
  show Function.update c.reg r v r = v
  exact Function.update_self ..

theorem set_other (c : Core) {r r' : Reg} (h : r' ≠ r) (v : Word) :
    (c.set r v).reg r' = c.reg r' := by
  show Function.update c.reg r v r' = c.reg r'
  exact Function.update_of_ne h ..

theorem push_rsp (s : State) (vs : List Word) :
    (s.push vs).reg .rsp = (pushAll 8 vs (s.reg .rsp, s.mem)).1 := set_same ..

theorem push_mem (s : State) (vs : List Word) :
    (s.push vs).mem = (pushAll 8 vs (s.reg .rsp, s.mem)).2 := rfl

theorem push_gpr (s : State) (vs : List Word) (r : Gpr) :
    (s.push vs).reg (.gpr r) = s.reg (.gpr r) := @set_other s.core .rsp (.gpr r) nofun _

private theorem push_push (s : State) (vs us : List Word) :
    (s.push vs).push us = s.push (vs ++ us) := by
  have hPair : ((s.push vs).reg .rsp, (s.push vs).mem) = pushAll 8 vs (s.reg .rsp, s.mem) := by
    rw [push_rsp, push_mem]
  have hCore : ∀ sp, (s.push vs).core.set .rsp sp = s.core.set .rsp sp := by
    intro sp
    unfold State.push Core.set
    dsimp only
    rw [Function.update_idem]
  have hAll : pushAll 8 us ((s.push vs).reg .rsp, (s.push vs).mem) =
      pushAll 8 (vs ++ us) (s.reg .rsp, s.mem) := by
    rw [hPair, pushAll_append]
  show State.mk _ _ = State.mk _ _
  rw [hAll, hCore]

/-- A register that has been set before is not in the way. -/
theorem push_set (s : State) (r : Gpr) (v : Word) (vs : List Word) :
    (s.set (.gpr r) v).push vs = (s.push vs).set (.gpr r) v := by
  have hSp : (s.set (.gpr r) v).reg .rsp = s.reg .rsp := @set_other s.core (.gpr r) .rsp nofun v
  have hSwap : ∀ sp, (s.core.set (.gpr r) v).set .rsp sp = (s.core.set .rsp sp).set (.gpr r) v := by
    intro sp
    have hNe : Reg.rsp ≠ Reg.gpr r := nofun
    unfold Core.set
    dsimp only
    rw [Function.update_comm hNe]
  unfold State.push
  rw [hSp]
  show State.mk _ _ = State.mk _ _
  rw [← hSwap]
  rfl

/-- `pushq` of one register after another. -/
theorem run_pushq (rs : List Gpr) (s : State) :
    run (rs.map fun r => .pushq (.gpr r)) s = s.push (rs.map fun r => s.reg (.gpr r)) := by
  induction rs generalizing s with
  | nil => exact (push_nil s).symm
  | cons r rs ih =>
      have hTail := ih (s.push [s.reg (.gpr r)])
      simp only [push_gpr] at hTail
      show run _ (s.push [s.reg (.gpr r)]) = _
      rw [hTail, push_push]
      rfl

/-! ## The frame as it grows -/

/-- The stack pointer that a trap starts from. -/
def Core.trapTop (c : Core) : Word :=
  (if rpl (c.seg .cs) = 0 then c.reg .rsp else c.rsp0) &&& ~~~0xf#64

/-- The words `ws` have been put on the stack since the program was interrupted in the
state `s`. -/
structure Growing (s t : State) (ws : List Word) : Prop where
  stack : OnStack 8 t.mem (t.reg .rsp) ws
  rsp : t.reg .rsp = s.core.trapTop - BitVec.ofNat 64 (ws.length * 8)
  gpr : ∀ r, t.reg (.gpr r) = s.reg (.gpr r)
  cs : t.core.seg .cs = kselKcode
  ss : t.core.seg .ss = if rpl (s.core.seg .cs) = 0 then s.core.seg .ss else 0
  ds : t.core.seg .ds = s.core.seg .ds
  cr3 : t.core.cr3 = s.core.cr3
  rsp0 : t.core.rsp0 = s.core.rsp0
  outside : ∀ x, ¬ InBlock (t.reg .rsp) (ws.length * 8) x → t.mem x = s.mem x

section

variable {t : State} {ws : List Word}

theorem Growing.push (h : Growing s t ws) (vs : List Word)
    (hFit : (vs.length + ws.length) * 8 ≤ 2 ^ 64) :
    Growing s (t.push vs) (vs.reverse ++ ws) where
  stack := by
    rw [push_rsp, push_mem]
    exact OnStack.pushAll h.stack hFit
  rsp := by
    have hSum : BitVec.ofNat 64 (ws.length * 8) + BitVec.ofNat 64 (vs.length * 8) =
        BitVec.ofNat 64 ((vs.reverse ++ ws).length * 8) := by
      rw [List.length_append, List.length_reverse, Nat.add_mul, ← BitVec.ofNat_add, Nat.add_comm]
    rw [push_rsp, pushAll_fst]
    show t.reg .rsp - _ = _
    rw [h.rsp, BitVec.sub_sub, hSum]
  gpr := fun r => (push_gpr t vs r).trans (h.gpr r)
  cs := h.cs
  ss := h.ss
  ds := h.ds
  cr3 := h.cr3
  rsp0 := h.rsp0
  outside := by
    intro x hx
    have hLen : (vs.reverse ++ ws).length * 8 = vs.length * 8 + ws.length * 8 := by
      rw [List.length_append, List.length_reverse, Nat.add_mul]
    have hSum : vs.length * 8 + ws.length * 8 ≤ 2 ^ 64 := by omega
    have hFew : vs.length * 8 ≤ 2 ^ 64 := by omega
    rw [push_rsp, pushAll_fst, hLen] at hx
    have hOut := @pushAll_outside 64 8 x vs (t.reg .rsp, t.mem) hFew fun hIn => hx (inBlock_new hIn)
    rw [push_mem, hOut]
    exact h.outside x fun hIn => hx (inBlock_grown hIn hSum)

/-- The flags do not matter. -/
theorem Growing.rflags (h : Growing s t ws) (rflags : Word) :
    Growing s { t with core := { t.core with rflags := rflags } } ws :=
  ⟨h.stack, h.rsp, h.gpr, h.cs, h.ss, h.ds, h.cr3, h.rsp0, h.outside⟩

/-- Room for `j` more words, which are what was there. -/
theorem Growing.sub (h : Growing s t ws) (j : Nat) (hFit : (j + ws.length) * 8 ≤ 2 ^ 64) :
    ∃ us, us.length = j ∧
      Growing s (t.set .rsp (t.reg .rsp - BitVec.ofNat 64 (j * 8))) (us ++ ws) := by
  obtain ⟨us, hLen, hStack⟩ := exists_onStack 8 t.mem (t.reg .rsp - BitVec.ofNat 64 (j * 8)) j
  have hSp : (t.set .rsp (t.reg .rsp - BitVec.ofNat 64 (j * 8))).reg .rsp =
      t.reg .rsp - BitVec.ofNat 64 (j * 8) := set_same ..
  have hSize : (us ++ ws).length * 8 = j * 8 + ws.length * 8 := by
    rw [List.length_append, hLen, Nat.add_mul]
  refine ⟨us, hLen, ?_⟩
  constructor
  case stack =>
    rw [hSp]
    refine onStack_append.mpr ⟨hStack, ?_⟩
    unfold slot
    rw [hLen, BitVec.sub_add_cancel]
    exact h.stack
  case rsp =>
    have hSum : BitVec.ofNat 64 (ws.length * 8) + BitVec.ofNat 64 (j * 8) =
        BitVec.ofNat 64 (j * 8 + ws.length * 8) := by
      rw [← BitVec.ofNat_add, Nat.add_comm]
    rw [hSp, h.rsp, hSize, BitVec.sub_sub, hSum]
  case gpr => exact fun r => (@set_other t.core .rsp (.gpr r) nofun _).trans (h.gpr r)
  case cs => exact h.cs
  case ss => exact h.ss
  case ds => exact h.ds
  case cr3 => exact h.cr3
  case rsp0 => exact h.rsp0
  case outside =>
    intro x hx
    have hSum : j * 8 + ws.length * 8 ≤ 2 ^ 64 := by omega
    rw [hSp, hSize] at hx
    exact h.outside x fun hIn => hx (inBlock_grown hIn hSum)

end

/-! ## The entry -/

/-- The number that the stub pushes. -/
def irqNumber (vector : Fin 256) : Word :=
  match irqOf vector with
  | some irq => BitVec.ofNat 64 irq.id
  | none => -1

/-- What the hardware pushes, the last word first. -/
def hardwareWords (c : Core) (errcode : Option Word) : List Word :=
  errcode.toList ++
    [c.rip, (c.seg .cs).setWidth 64, c.rflags, c.reg .rsp, (c.seg .ss).setWidth 64]

/-- The stack before anything is pushed. -/
theorem aligned_growing (s : State) :
    let s₀ := if rpl (s.core.seg .cs) = 0 then s else (s.set .rsp s.core.rsp0).setSeg .ss 0
    Growing s ((s₀.set .rsp (s₀.reg .rsp &&& ~~~0xf#64)).setSeg .cs kselKcode) [] := by
  intro s₀
  by_cases hMode : rpl (s.core.seg .cs) = 0#2
  · have hBase : s₀ = s := if_pos hMode
    rw [hBase]
    constructor
    case stack => exact OnStack.nil
    all_goals
      simp [State.set, State.setSeg, State.reg, Core.set, Core.setSeg, Core.trapTop, hMode]
  · have hBase : s₀ = (s.set .rsp s.core.rsp0).setSeg .ss 0 := if_neg hMode
    rw [hBase]
    constructor
    case stack => exact OnStack.nil
    all_goals
      simp [State.set, State.setSeg, State.reg, Core.set, Core.setSeg, Core.trapTop, hMode]

private theorem interrupt_growing (s : State) (errcode : Option Word) :
    Growing s (interrupt errcode s) (hardwareWords s.core errcode) := by
  have hBase := (aligned_growing s).rflags (s.core.rflags &&& ~~~0x34100#64)
  have hPush := hBase.push ([(s.core.seg .ss).setWidth 64, s.core.reg .rsp, s.core.rflags,
    (s.core.seg .cs).setWidth 64, s.core.rip] ++ errcode.toList)
  cases errcode with
  | none => exact hPush (by simp)
  | some err => exact hPush (by simp)

private theorem stub_growing (hErr : errcode.isSome = pushesErrorCode vector) (s : State) :
    Growing s (run (irqStub vector) (interrupt errcode s))
      ([irqNumber vector, errcode.getD 0] ++ hardwareWords s.core none) := by
  have hCli := (interrupt_growing s errcode).rflags
    ((interrupt errcode s).core.rflags &&& ~~~rflagsIF)
  have hIrq := irqOf_err vector
  rw [← hErr] at hIrq
  have hTwo : ∀ id : Word, run [.cli, .pushi 0, .pushi id] (interrupt errcode s) =
      (exec (interrupt errcode s) .cli).push [0, id] := fun id => push_push _ [0] [id]
  -- a stub pushes zero in place of an error code
  cases errcode with
  | none =>
      have hPush := hCli.push [0, irqNumber vector] (by simp [hardwareWords])
      unfold irqStub irqNumber at *
      cases hVector : irqOf vector with
      | none =>
          rw [hVector] at hPush
          rw [hTwo]
          exact hPush
      | some irq =>
          rw [hVector] at hPush hIrq
          have hErrNone : irq.err = false := hIrq
          dsimp only
          rw [hErrNone]
          show Growing s (run [.cli, .pushi 0, .pushi _] _) _
          rw [hTwo]
          exact hPush
  | some err =>
      have hPush := hCli.push [irqNumber vector] (by simp [hardwareWords])
      unfold irqStub irqNumber at *
      cases hVector : irqOf vector with
      | none =>
          rw [hVector] at hIrq
          cases hIrq
      | some irq =>
          rw [hVector] at hPush hIrq
          have hErrSome : irq.err = true := hIrq
          dsimp only
          rw [hErrSome]
          exact hPush

/-- The words of the frame that `__am_irq_handle` is called with; it sets the six members
of the context that the stub only makes room for. -/
def frameWords (s : State) (vector : Fin 256) (errcode : Option Word) (us : List Word) :
    List Word :=
  0 :: gprs.map (fun r => s.reg (.gpr r)) ++ us ++ [irqNumber vector, errcode.getD 0] ++
    hardwareWords s.core none

theorem run_append (is js : List Instr) (s : State) : run (is ++ js) s = run js (run is s) :=
  List.foldl_append

/-- `trap`, before the pointer to the frame is moved to `rdi`. -/
theorem trap_growing (hErr : errcode.isSome = pushesErrorCode vector) (s : State) :
    ∃ us t, us.length = 6 ∧ Growing s t (frameWords s vector errcode us) ∧
      run trap (run (irqStub vector) (interrupt errcode s)) = t.set (.gpr .rdi) (t.reg .rsp) := by
  have hStub := stub_growing hErr s
  generalize run (irqStub vector) (interrupt errcode s) = t₀ at hStub ⊢
  obtain ⟨us, hLen, hSub⟩ := (hStub.rflags (t₀.core.rflags &&& ~~~rflagsIF)).sub 6
    (by simp [hardwareWords])
  have hRoom : Growing s (run [.cli, .subq 48 .rsp] t₀)
      (us ++ ([irqNumber vector, errcode.getD 0] ++ hardwareWords s.core none)) :=
    hSub.rflags (subFlags (t₀.core.rflags &&& ~~~rflagsIF) (t₀.reg .rsp) 48)
  have hGprs : gprs.reverse.map (fun r => (run [.cli, .subq 48 .rsp] t₀).reg (.gpr r)) =
      gprs.reverse.map fun r => s.reg (.gpr r) :=
    List.map_congr_left fun r _ => hRoom.gpr r
  have hPushed := (hRoom.push (gprs.reverse.map fun r => s.reg (.gpr r))
    (by simp [hardwareWords, gprs, hLen])).push [0] (by simp [hardwareWords, gprs, hLen])
  have hWords : [0].reverse ++ ((gprs.reverse.map fun r => s.reg (.gpr r)).reverse ++
      (us ++ ([irqNumber vector, errcode.getD 0] ++ hardwareWords s.core none))) =
      frameWords s vector errcode us := by
    rw [← List.map_reverse, List.reverse_reverse]
    unfold frameWords
    simp only [List.reverse_singleton, List.append_assoc, List.cons_append, List.nil_append]
  rw [hWords] at hPushed
  refine ⟨us, _, hLen, hPushed, ?_⟩
  unfold trap
  rw [run_append, run_append, run_pushq, hGprs]
  rfl

/-- Where the frame of a trap is put. -/
def Core.frame (c : Core) : Word := c.trapTop - BitVec.ofNat 64 sizeofTrapFrame

/-- The call of `__am_irq_handle`, when the program has been interrupted in the state
`s`. -/
structure Entered (s t : State) (vector : Fin 256) (errcode : Option Word) : Prop where
  rdi : t.reg (.gpr .rdi) = s.core.frame
  rsp : t.reg .rsp = s.core.frame - 8
  gpr : ∀ r, word t.mem s.core.frame (Field.gpr r).index = s.reg (.gpr r)
  irq : word t.mem s.core.frame Tail.irq.index = irqNumber vector
  errcode : word t.mem s.core.frame Tail.errcode.index = errcode.getD 0
  tfRip : word t.mem s.core.frame Tail.rip.index = s.core.rip
  tfCs : word t.mem s.core.frame Tail.cs.index = (s.core.seg .cs).setWidth 64
  tfRflags : word t.mem s.core.frame Tail.rflags.index = s.core.rflags
  tfRsp : word t.mem s.core.frame Tail.rsp.index = s.reg .rsp
  tfSs : word t.mem s.core.frame Tail.ss.index = (s.core.seg .ss).setWidth 64
  cs : t.core.seg .cs = kselKcode
  ss : t.core.seg .ss = if rpl (s.core.seg .cs) = 0 then s.core.seg .ss else 0
  ds : t.core.seg .ds = s.core.seg .ds
  cr3 : t.core.cr3 = s.core.cr3
  rsp0 : t.core.rsp0 = s.core.rsp0
  outside : ∀ x, ¬ InBlock (s.core.frame - 8) (8 + sizeofTrapFrame) x → t.mem x = s.mem x

/-- **The trap frame.** -/
theorem enter_frame (hErr : errcode.isSome = pushesErrorCode vector) (ret : Word) (s : State) :
    Entered s (enterHandle vector errcode ret s) vector errcode := by
  obtain ⟨us, t, hLen, hGrowing, hTrap⟩ := trap_growing hErr s
  have hSize : (frameWords s vector errcode us).length = 29 := by
    simp [frameWords, hardwareWords, gprs, hLen]
  have hRet := hGrowing.push [ret] (by simp [hSize])
  have hAll : ([ret].reverse ++ frameWords s vector errcode us).length * 8 =
      8 + sizeofTrapFrame := by
    simp [hSize, sizeofTrapFrame]
  have hFrame : t.reg .rsp = s.core.frame := by
    rw [hGrowing.rsp, hSize]
    rfl
  have hRsp : (t.push [ret]).reg .rsp = s.core.frame - 8 := by
    rw [push_rsp, hFrame]
    rfl
  -- the call only adds the return address
  have hCall : (t.set (.gpr .rdi) (t.reg .rsp)).push [ret] =
      (t.push [ret]).set (.gpr .rdi) s.core.frame := by
    rw [push_set, hFrame]
  have hStack : OnStack 8 (t.push [ret]).mem s.core.frame (frameWords s vector errcode us) := by
    have hBoth := hRet.stack
    rw [hRsp] at hBoth
    have hRest := (onStack_cons.mp hBoth).2
    have hUp : s.core.frame - 8 + BitVec.ofNat 64 8 = s.core.frame := BitVec.sub_add_cancel ..
    rw [hUp] at hRest
    exact hRest
  have hWord : ∀ k v, (frameWords s vector errcode us)[k]? = some v →
      word (t.push [ret]).mem s.core.frame k = v := hStack
  unfold enterHandle
  rw [hTrap, hCall]
  match us, hLen with
  | [u₀, u₁, u₂, u₃, u₄, u₅], _ =>
      constructor
      case rdi => exact set_same ..
      case rsp => exact (@set_other (t.push [ret]).core (.gpr .rdi) .rsp nofun _).trans hRsp
      case gpr =>
        intro r
        apply hWord
        cases r <;> rfl
      case irq => exact hWord 22 _ rfl
      case errcode => exact hWord 23 _ rfl
      case tfRip => exact hWord 24 _ rfl
      case tfCs => exact hWord 25 _ rfl
      case tfRflags => exact hWord 26 _ rfl
      case tfRsp => exact hWord 27 _ rfl
      case tfSs => exact hWord 28 _ rfl
      case cs => exact hRet.cs
      case ss => exact hRet.ss
      case ds => exact hRet.ds
      case cr3 => exact hRet.cr3
      case rsp0 => exact hRet.rsp0
      case outside =>
        intro x hx
        apply hRet.outside
        rw [hRsp, hAll]
        exact hx

end AbstractMachine.X86.Trap64
