import AbstractMachine.Lib.ByteMem

/-!
# Stacks of words

A stack in byte-addressed memory grows down; what is on it is the list of words of
`n` bytes from its pointer on.  Pushing puts words in front of the list, and leaves
all memory alone but the words it makes room for.

## Main results

* `OnStack.pushAll` -- what is on the stack after a row of pushes.
* `pushAll_outside` -- a row of pushes changes nothing else.
-/

namespace AbstractMachine.Lib.ByteMem

variable {w : Nat}

/-- The words from `sp` on. -/
def OnStack (n : Nat) (m : ByteMem w) (sp : BitVec w) (ws : List (BitVec (8 * n))) : Prop :=
  ∀ k v, ws[k]? = some v → load m (slot n sp k) n = v

/-- A word is pushed: the new pointer and the memory. -/
def push (n : Nat) (s : BitVec w × ByteMem w) (v : BitVec (8 * n)) : BitVec w × ByteMem w :=
  (s.1 - BitVec.ofNat w n, store s.2 (s.1 - BitVec.ofNat w n) v)

/-- The words are pushed in the order of the list. -/
def pushAll (n : Nat) (vs : List (BitVec (8 * n))) (s : BitVec w × ByteMem w) :
    BitVec w × ByteMem w :=
  vs.foldl (push n) s

section

variable {n k : Nat} {m m' : ByteMem w} {sp x : BitVec w} {v : BitVec (8 * n)}
  {vs ws : List (BitVec (8 * n))} {s : BitVec w × ByteMem w}

/-! ## Pointers -/

theorem slot_zero : slot n sp 0 = sp := by
  unfold slot
  rw [Nat.zero_mul, BitVec.add_zero]

theorem slot_succ : slot n (sp + BitVec.ofNat w n) k = slot n sp (k + 1) := by
  unfold slot
  rw [BitVec.add_assoc, ← BitVec.ofNat_add, Nat.succ_mul, Nat.add_comm n]

theorem slot_push : slot n (sp - BitVec.ofNat w n) (k + 1) = slot n sp k := by
  rw [← slot_succ, BitVec.sub_add_cancel]

/-- One word less, and the others. -/
theorem sub_succ (a : BitVec w) (n k : Nat) :
    a - BitVec.ofNat w ((k + 1) * n) = a - BitVec.ofNat w n - BitVec.ofNat w (k * n) := by
  rw [BitVec.sub_sub, Nat.succ_mul, BitVec.ofNat_add, BitVec.add_comm]

/-- What was on the stack is still on it when it has grown. -/
theorem inBlock_grown (hx : InBlock sp n x) (hFit : k + n ≤ 2 ^ w) :
    InBlock (sp - BitVec.ofNat w k) (k + n) x := by
  apply inBlock_sub (i := k) _ (Nat.le_refl _) hFit
  rw [BitVec.sub_add_cancel]
  exact hx

/-- The words that have been put on the stack. -/
theorem inBlock_new (hx : InBlock sp k x) : InBlock sp (k + n) x :=
  Nat.lt_of_lt_of_le hx (Nat.le_add_right k n)

theorem pushAll_nil : pushAll n [] s = s := rfl

theorem pushAll_cons : pushAll n (v :: vs) s = pushAll n vs (push n s v) := rfl

theorem pushAll_append : pushAll n (vs ++ ws) s = pushAll n ws (pushAll n vs s) :=
  List.foldl_append

/-- The pointer only depends on how many words there are. -/
theorem pushAll_fst : (pushAll n vs s).1 = s.1 - BitVec.ofNat w (vs.length * n) := by
  induction vs generalizing s with
  | nil => simp [pushAll]
  | cons v vs ih =>
      rw [pushAll_cons, ih]
      exact (sub_succ s.1 n vs.length).symm

/-! ## What is on the stack -/

theorem OnStack.nil : OnStack n m sp [] := fun _ _ h => nomatch h

/-- The word on top, and the rest. -/
theorem onStack_cons :
    OnStack n m sp (v :: ws) ↔
      load m sp n = v ∧ OnStack n m (sp + BitVec.ofNat w n) ws := by
  constructor
  · intro h
    refine ⟨?_, fun k u hk => ?_⟩
    · have hTop := h 0 v rfl
      rw [slot_zero] at hTop
      exact hTop
    · rw [slot_succ]
      exact h (k + 1) u hk
  · rintro ⟨hTop, hRest⟩ k u hk
    cases k with
    | zero =>
        cases hk
        rw [slot_zero]
        exact hTop
    | succ k =>
        rw [← slot_succ]
        exact hRest k u hk

theorem slot_add (j : Nat) : slot n (slot n sp j) k = slot n sp (j + k) := by
  unfold slot
  rw [BitVec.add_assoc, ← BitVec.ofNat_add, Nat.add_mul]

theorem onStack_append {us : List (BitVec (8 * n))} :
    OnStack n m sp (us ++ ws) ↔ OnStack n m sp us ∧ OnStack n m (slot n sp us.length) ws := by
  constructor
  · intro h
    refine ⟨fun k u hk => ?_, fun k u hk => ?_⟩
    · apply h k u
      rw [List.getElem?_append_left (List.getElem?_eq_some_iff.mp hk).1]
      exact hk
    · rw [slot_add]
      apply h _ u
      rw [List.getElem?_append_right (Nat.le_add_right _ _), Nat.add_sub_cancel_left]
      exact hk
  · rintro ⟨hUs, hWs⟩ k u hk
    by_cases hLt : k < us.length
    · rw [List.getElem?_append_left hLt] at hk
      exact hUs k u hk
    · rw [List.getElem?_append_right (Nat.le_of_not_lt hLt)] at hk
      have hSlot := hWs _ u hk
      rw [slot_add, Nat.add_sub_cancel' (Nat.le_of_not_lt hLt)] at hSlot
      exact hSlot

/-- Whatever `j` words are there. -/
theorem exists_onStack (n : Nat) (m : ByteMem w) (sp : BitVec w) (j : Nat) :
    ∃ us : List (BitVec (8 * n)), us.length = j ∧ OnStack n m sp us := by
  refine ⟨(List.range j).map fun k => load m (slot n sp k) n, ?_, ?_⟩
  · rw [List.length_map, List.length_range]
  · intro k v hk
    rw [List.getElem?_map] at hk
    obtain ⟨i, hi, hLoad⟩ := Option.map_eq_some_iff.mp hk
    obtain ⟨_, hGet⟩ := List.getElem?_eq_some_iff.mp hi
    rw [List.getElem_range] at hGet
    rw [hGet]
    exact hLoad

theorem OnStack.push (h : OnStack n m sp ws) (hFit : (ws.length + 1) * n ≤ 2 ^ w)
    (v : BitVec (8 * n)) :
    OnStack n (push n (sp, m) v).2 (push n (sp, m) v).1 (v :: ws) := by
  have hn : n ≤ 2 ^ w := by
    have hOne : 1 * n ≤ (ws.length + 1) * n := Nat.mul_le_mul_right n (by omega)
    omega
  intro k u hk
  have hLt : k < ws.length + 1 := (List.getElem?_eq_some_iff.mp hk).1
  have hStore := load_store_slot (m := m) (f := sp - BitVec.ofNat w n) v (Nat.succ_pos _) hLt hFit
  unfold ByteMem.push
  rw [slot_zero] at hStore
  rw [hStore]
  cases k with
  | zero =>
      cases hk
      exact if_pos rfl
  | succ k =>
      rw [if_neg (Nat.succ_ne_zero k).symm, slot_push]
      exact h k u hk

theorem OnStack.pushAll (h : OnStack n s.2 s.1 ws) (hFit : (vs.length + ws.length) * n ≤ 2 ^ w) :
    OnStack n (pushAll n vs s).2 (pushAll n vs s).1 (vs.reverse ++ ws) := by
  induction vs generalizing s ws with
  | nil => exact h
  | cons v vs ih =>
      have hLen : vs.length + (v :: ws).length = (v :: vs).length + ws.length := by
        rw [List.length_cons, List.length_cons]
        omega
      have hOne : (ws.length + 1) * n ≤ 2 ^ w := by
        apply Nat.le_trans _ hFit
        apply Nat.mul_le_mul_right
        rw [List.length_cons]
        omega
      rw [List.reverse_cons, List.append_assoc, pushAll_cons]
      exact ih (h.push hOne v) (hLen ▸ hFit)

/-- Only the words that are pushed change. -/
theorem pushAll_outside (hFit : vs.length * n ≤ 2 ^ w)
    (hx : ¬ InBlock (s.1 - BitVec.ofNat w (vs.length * n)) (vs.length * n) x) :
    (pushAll n vs s).2 x = s.2 x := by
  induction vs generalizing s with
  | nil => rfl
  | cons v vs ih =>
      have hBase : s.1 - BitVec.ofNat w ((v :: vs).length * n) =
          (push n s v).1 - BitVec.ofNat w (vs.length * n) := sub_succ s.1 n vs.length
      have hSize : (v :: vs).length * n = vs.length * n + n := Nat.succ_mul _ _
      rw [hBase, hSize] at hx
      rw [hSize] at hFit
      have hTop : ¬ InBlock (push n s v).1 n x := fun hIn => hx (inBlock_grown hIn hFit)
      rw [pushAll_cons, ih (by omega) fun hIn => hx (inBlock_new hIn)]
      exact store_outside _ _ hTop

end

end AbstractMachine.Lib.ByteMem
