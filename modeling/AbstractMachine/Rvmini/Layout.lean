import AbstractMachine.Lib.Simulation
import AbstractMachine.Rvmini.Assembly

/-!
# The image of a program

The base instructions of instruction `i` are where the label `i` says, and the
machine runs through them as through a list, up to a jump at the end.
-/

namespace AbstractMachine.Rvmini

open AbstractMachine.Lib

section

variable {rodata : Word} {code : List Inst} {inst : Inst} {i j : Nat}

private theorem offsetOf_succ (h : code[i]? = some inst) :
    offsetOf rodata code (i + 1) = offsetOf rodata code i + inst.size rodata := by
  unfold offsetOf
  rw [List.take_add_one, h, List.map_append, List.sum_append]
  simp

private theorem offsetOf_le (h : i ≤ j) : offsetOf rodata code i ≤ offsetOf rodata code j := by
  unfold offsetOf
  rw [← Nat.add_sub_cancel' h, List.take_add, List.map_append, List.sum_append]
  exact Nat.le_add_right _ _

end

namespace Program

variable {p : Program} {inst : Inst} {i k : Nat} {pre is dead : List Instr} {ops : List Op}
  {t t' : State}

theorem length_block : (p.block i inst).length = inst.size p.rodata := inst.length_expand _ _ _

/-- The instructions of a block end before the end of the address space. -/
theorem block_fits (h : p.code[i]? = some inst) :
    p.base.toNat + 4 * (offsetOf p.rodata p.code i + inst.size p.rodata) ≤ 2 ^ 32 := by
  have hLt : i < p.code.length := (List.getElem?_eq_some_iff.mp h).1
  have hEnd : offsetOf p.rodata p.code (i + 1) ≤ offsetOf p.rodata p.code p.code.length :=
    offsetOf_le (Nat.succ_le_of_lt hLt)
  rw [offsetOf_succ h] at hEnd
  have hFits := p.fits
  omega

private theorem map_length_blocks :
    (p.code.mapIdx p.block).map List.length = p.code.map (Inst.size p.rodata) := by
  apply List.ext_getElem?
  intro n
  simp only [List.getElem?_map, List.getElem?_mapIdx, Option.map_map]
  cases p.code[n]? with
  | none => rw [Option.map_none, Option.map_none]
  | some inst => exact congrArg some length_block

private theorem image_block (h : p.code[i]? = some inst) (hk : k < inst.size p.rodata) :
    p.image[offsetOf p.rodata p.code i + k]? = (p.block i inst)[k]? := by
  obtain ⟨hLt, hGet⟩ := List.getElem?_eq_some_iff.mp h
  have hLt' : i < (p.code.mapIdx p.block).length := by rwa [List.length_mapIdx]
  have hSlice := List.drop_take_succ_flatten_eq_getElem (p.code.mapIdx p.block) i hLt'
  have hSum : ∀ n, (((p.code.mapIdx p.block).map List.length).take n).sum =
      offsetOf p.rodata p.code n := by
    intro n
    rw [map_length_blocks, ← List.map_take]
    rfl
  rw [hSum, hSum, offsetOf_succ h, List.getElem_mapIdx, hGet] at hSlice
  rw [← hSlice, List.getElem?_drop, List.getElem?_take, if_pos (Nat.add_lt_add_left hk _)]
  rfl

private theorem fetch_block (h : p.code[i]? = some inst) (hk : k < inst.size p.rodata) :
    p.fetch (p.addr i + BitVec.ofNat 32 (4 * k)) = (p.block i inst)[k]? := by
  have hFits := block_fits h
  have hDist : (p.addr i + BitVec.ofNat 32 (4 * k) - p.base).toNat =
      4 * (offsetOf p.rodata p.code i + k) := by
    unfold addr
    rw [BitVec.add_assoc, ← BitVec.ofNat_add, ← Nat.mul_add, ByteMem.toNat_offset (by omega)]
  unfold fetch
  rw [hDist, if_pos (Nat.mul_mod_right 4 _), Nat.mul_div_cancel_left _ (by decide),
    image_block h hk]

theorem addr_succ (h : p.code[i]? = some inst) :
    p.addr (i + 1) = p.addr i + BitVec.ofNat 32 (4 * inst.size p.rodata) := by
  unfold addr
  rw [offsetOf_succ h, Nat.mul_add, BitVec.ofNat_add, BitVec.add_assoc]

/-- The next instruction of a block. -/
theorem step_block (h : p.code[i]? = some inst) {x : Instr}
    (hBlock : p.block i inst = pre ++ x :: dead)
    (hPc : t.pc = p.addr i + BitVec.ofNat 32 (4 * pre.length)) :
    p.step t = Rvmini.step t x := by
  have hLength : (p.block i inst).length = inst.size p.rodata := length_block
  rw [hBlock, List.length_append, List.length_cons] at hLength
  unfold step
  rw [hPc, fetch_block h (by omega), hBlock, List.getElem?_append_right (Nat.le_refl _),
    Nat.sub_self, List.getElem?_cons_zero]
  rfl

/-- The machine goes through a block, up to a jump. -/
theorem iterate_block (pre dead : List Instr) (h : p.code[i]? = some inst)
    (hLast : is.length ≤ 1)
    (hBlock : p.block i inst = pre ++ (ops.map .op ++ (is ++ dead)))
    (hPc : t.pc = p.addr i + BitVec.ofNat 32 (4 * pre.length))
    (hRun : run (ops.map .op ++ is) t = some t') :
    iterate p.step (ops.length + is.length) t = some t' := by
  induction ops generalizing pre t with
  | nil =>
      match is with
      | [] => exact hRun
      | [x] =>
          obtain ⟨u, hStep, hEnd⟩ := Option.bind_eq_some_iff.mp hRun
          cases hEnd
          exact iterate_succ ((step_block h hBlock hPc).trans hStep)
      | _ :: _ :: _ => exact absurd hLast (by simp)
  | cons op ops ih =>
      obtain ⟨u, hStep, hRest⟩ := Option.bind_eq_some_iff.mp hRun
      have hNext : u.pc = t.pc + 4 := by
        obtain ⟨c, -, rfl⟩ := Option.map_eq_some_iff.mp hStep
        rfl
      have hIter := ih (t := u) (pre ++ [.op op]) (by simpa using hBlock)
        (by
          rw [hNext, hPc, List.length_append, Nat.mul_add, BitVec.ofNat_add, BitVec.add_assoc]
          rfl) hRest
      have hFirst : p.step t = some u := (step_block h hBlock hPc).trans hStep
      rw [List.length_cons, Nat.succ_add, iterate_succ hFirst, hIter]

end Program

end AbstractMachine.Rvmini
