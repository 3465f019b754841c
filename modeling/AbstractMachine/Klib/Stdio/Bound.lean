import AbstractMachine.Klib.Stdio.Vsnprintf

/-!
# Where `vsnprintf` writes

As long as `n - 1` does not wrap around, every write of every turn lies below
it, whatever the format and the arguments are, and the terminator is the last
byte of the buffer at most.  For `n = 0` the bound is the largest number there
is, and at least the terminator is written behind a buffer of no bytes.
-/

namespace AbstractMachine.Klib

open AbstractMachine.Lib

variable {w : Nat} {n out fmt a : BitVec w} {s s' : State w} {l tail : List (BitVec 8)}
  {m : ByteMem w} {ap : List (Arg w)} {ps : List Piece} {vs : List Value}
  {text : List (BitVec 8)} {fuel : Nat}

/-- `a` is written by some turn of a call, or at its end. -/
def Writes (out n fmt : BitVec w) (ap : List (Arg w)) (m : ByteMem w) (a : BitVec w) : Prop :=
  ∃ fuel, a ∈ (turns n fuel (enter out fmt ap m)).store.written ∨
    ∃ r s, snprintf fuel out n fmt ap m = some (r, s) ∧ a ∈ s.written

/-! ## With a size -/

private theorem inBlock_add {x : BitVec w} {k : Nat} (h : x.toNat < k) :
    ByteMem.InBlock out k (out + x) := by
  unfold ByteMem.InBlock
  rw [ByteMem.add_sub_self]
  exact h

/-- What every turn keeps. -/
structure Bounded (out n : BitVec w) (s : State w) : Prop where
  place : s.out = out + s.count
  count : s.count ≤ n - 1
  written : ∀ a ∈ s.store.written, ByteMem.InBlock out n.toNat a

private theorem running_lt (h : running n s = true) : s.count < n - 1 :=
  of_decide_eq_true (Bool.and_eq_true_iff.mp h).1

private theorem running_room (h : running n s = true) : n - 1 - s.count ≠ 0 := by
  intro hZero
  have hEq : n - 1 - s.count + s.count = 0#w + s.count := congrArg (· + s.count) hZero
  have hLess := running_lt h
  rw [BitVec.sub_add_cancel, BitVec.zero_add] at hEq
  rw [hEq] at hLess
  exact absurd hLess (BitVec.lt_irrefl _)

theorem Bounded.next (hn : n ≠ 0) (h : Bounded out n s) (hRunning : running n s = true)
    (hBody : body n s = some s') : Bounded out n s' := by
  have hPred := toNat_pred hn
  have hPos := toNat_pos hn
  have hLess := BitVec.lt_def.mp (running_lt hRunning)
  obtain ⟨l, tail, hLen, hEmitted⟩ := body_emitted (running_room hRunning) hBody
  rw [List.length_append] at hLen
  constructor
  · rw [hEmitted.out, hEmitted.count, h.place, BitVec.add_assoc]
  · rw [hEmitted.count]
    exact (room_next h.count (Nat.le_of_add_right_le hLen)).1
  · intro a ha
    rw [hEmitted.store, Store.mem_put_written] at ha
    rcases ha with ha | ⟨i, hi, rfl⟩
    · exact h.written a ha
    · rw [List.length_append] at hi
      have hUsed := (room_next h.count (Nat.le_of_lt (Nat.lt_of_lt_of_le hi hLen))).1
      rw [h.place, BitVec.add_assoc]
      apply inBlock_add
      have hLe := BitVec.le_def.mp hUsed
      omega

theorem Bounded.turns (hn : n ≠ 0) (h : Bounded out n s) (fuel : Nat) :
    Bounded out n (turns n fuel s) := by
  induction fuel generalizing s with
  | zero => exact h
  | succ fuel ih =>
      rw [Klib.turns]
      by_cases hRunning : running n s = true
      · rw [if_pos hRunning]
        cases hBody : body n s with
        | none => exact h
        | some s' => exact ih (h.next hn hRunning hBody)
      · rw [if_neg hRunning]
        exact h

private theorem bounded_enter (out n fmt : BitVec w) (ap : List (Arg w)) (m : ByteMem w) :
    Bounded out n (enter out fmt ap m) :=
  ⟨(BitVec.add_zero _).symm, enter_count, fun _ ha => absurd ha List.not_mem_nil⟩

/-- The format and the arguments do not matter. -/
theorem writes_bounded (hn : n ≠ 0) (h : Writes out n fmt ap m a) :
    ByteMem.InBlock out n.toNat a := by
  have hPred := toNat_pred hn
  have hPos := toNat_pos hn
  obtain ⟨fuel, h⟩ := h
  have hBounded := (bounded_enter out n fmt ap m).turns hn fuel
  rcases h with hTurn | ⟨r, s, hCall, hEnd⟩
  · exact hBounded.written a hTurn
  · unfold snprintf vsnprintf at hCall
    dsimp only at hCall
    obtain ⟨-, hEq⟩ := Option.ite_none_left_eq_some.mp hCall
    cases hEq
    rcases List.mem_cons.mp hEnd with rfl | hTurn
    · have hLe := BitVec.le_def.mp hBounded.count
      rw [hBounded.place]
      apply inBlock_add
      omega
    · exact hBounded.written a hTurn

/-! ## Without -/

/-- With a format and arguments that match, a call ends or writes. -/
theorem ends_or_writes (hFmt : Stored (fun _ => False) m s.fmt (bytes ps))
    (hArgs : List.Forall₂ (Holds (fun _ => False) m) s.ap vs) (hText : expand ps vs = some text)
    (hStore : s.store = { mem := m, written := [] }) :
    ∃ fuel, (∃ a, a ∈ (turns n fuel s).store.written) ∨ running n (turns n fuel s) = false := by
  induction ps generalizing s vs text with
  | nil =>
      refine ⟨0, Or.inr ?_⟩
      show running n s = false
      have hEnd : s.store.mem s.fmt = 0 := by
        rw [hStore]
        exact hFmt.2
      unfold running
      rw [hEnd]
      simp
  | cons P ps ih =>
      cases hRunning : running n s with
      | false => exact ⟨0, Or.inr hRunning⟩
      | true =>
          obtain ⟨l, vs', rest, hPiece, hRest, -⟩ := expand_cons hText
          have hMem : s.store.mem = m := by rw [hStore]
          obtain ⟨s', hBody, hTurn⟩ :=
            body_piece (n := n) (hMem ▸ hFmt) (hMem ▸ hArgs) hPiece
          obtain ⟨l', tail, -, hEmitted⟩ := body_emitted (running_room hRunning) hBody
          have hNext : ∀ fuel, turns n (fuel + 1) s = turns n fuel s' := by
            intro fuel
            rw [turns, if_pos hRunning, hBody]
          by_cases hNone : l' ++ tail = []
          · have hSame : s'.store = { mem := m, written := [] } := by
              rw [hEmitted.store, hNone, Store.put_nil, hStore]
            have hArgs' := hTurn.args
            have hFmt' : Stored (fun _ => False) m s'.fmt (bytes ps) := by
              rw [hTurn.fmt]
              exact hFmt.append
            rw [hMem] at hArgs'
            obtain ⟨fuel, hEnd⟩ := ih hFmt' hArgs' hRest hSame
            refine ⟨fuel + 1, ?_⟩
            rw [hNext]
            exact hEnd
          · refine ⟨1, Or.inl ⟨s.out, ?_⟩⟩
            rw [hNext]
            show s.out ∈ s'.store.written
            rw [hEmitted.store, Store.mem_put_written]
            exact Or.inr ⟨0, List.length_pos_iff.mpr hNone, (BitVec.add_zero _).symm⟩

/-- At the latest, the terminator is written. -/
theorem writes_some (out n : BitVec w) (hFmt : Stored (fun _ => False) m fmt (bytes ps))
    (hArgs : List.Forall₂ (Holds (fun _ => False) m) ap vs) (hText : expand ps vs = some text) :
    ∃ a, Writes out n fmt ap m a := by
  obtain ⟨fuel, ⟨a, hTurn⟩ | hStopped⟩ :=
    ends_or_writes (n := n) (s := enter out fmt ap m) hFmt hArgs hText rfl
  · exact ⟨a, fuel, Or.inl hTurn⟩
  · refine ⟨(turns n fuel (enter out fmt ap m)).out, fuel, Or.inr
      ⟨(turns n fuel (enter out fmt ap m)).count.setWidth 32,
        (turns n fuel (enter out fmt ap m)).store.set (turns n fuel (enter out fmt ap m)).out 0,
        ?_, List.mem_cons_self⟩⟩
    unfold snprintf vsnprintf
    dsimp only
    rw [hStopped, if_neg Bool.false_ne_true]

/--
**The bound of `snprintf`.** For a format and arguments that match, wherever
they and the buffer lie, no byte outside of the `n` bytes at `out` is written,
if and only if `n` is not 0.
-/
theorem snprintf_bound_iff (out n fmt : BitVec w) (ap : List (Arg w)) (m : ByteMem w)
    (ps : List Piece) (vs : List Value) (text : List (BitVec 8))
    (hFmt : Stored (fun _ => False) m fmt (bytes ps))
    (hArgs : List.Forall₂ (Holds (fun _ => False) m) ap vs) (hText : expand ps vs = some text) :
    (∀ a, Writes out n fmt ap m a → ByteMem.InBlock out n.toNat a) ↔ n ≠ 0 := by
  constructor
  · intro hAll hZero
    obtain ⟨a, ha⟩ := writes_some out n hFmt hArgs hText
    have hIn := hAll a ha
    rw [hZero, toNat_zero] at hIn
    exact absurd hIn (Nat.not_lt_zero _)
  · intro hn a ha
    exact writes_bounded hn ha

/-- `snprintf(out, 4, "%d%s", -12, "s")`. -/
theorem snprintf_bound_iff_cut :
    (∀ a, Writes 0x2000#32 4 0x1000 [.int (-12), .ptr 0x1003] numberMem a →
      ByteMem.InBlock 0x2000#32 4 a) ↔ (4 : BitVec 32) ≠ 0 := by
  have hFmt : Stored (fun _ => False) numberMem 0x1000 (bytes numberString) :=
    numberMem_stored.mono fun _ h => h.elim
  have hString : Stored (fun _ => False) numberMem 0x1003 [chr 's'] :=
    Stored.append (l := [chr '%', chr 'd', chr '%']) hFmt
  exact snprintf_bound_iff 0x2000#32 4 0x1000 [.int (-12), .ptr 0x1003] numberMem numberString
    [.int (-12), .str [chr 's']] _ hFmt (.cons rfl (.cons hString .nil)) numberString_text

/-- `snprintf(out, 0, "%d%s", -12, "s")` writes all five bytes. -/
theorem snprintf_unbounded :
    Stored (fun _ => False) numberMem 0x1000 (bytes numberString) ∧
      numberMem 0x2000 = 0 ∧
      ∃ r s, snprintf 2 0x2000#32 0 0x1000 [.int (-12), .ptr 0x1003] numberMem = some (r, s) ∧
        s.written = [0x2004, 0x2003, 0x2002, 0x2001, 0x2000] ∧ s.mem 0x2000 = chr '-' ∧
        ¬ ByteMem.InBlock 0x2000#32 0 0x2000 := by
  refine ⟨numberMem_stored.mono fun _ h => h.elim, by decide, _, _, rfl, ?_, ?_, ?_⟩
  · decide
  · decide
  · decide

end AbstractMachine.Klib
