import AbstractMachine.Klib.Stdio.Int2str

/-!
# One turn of `vsnprintf`

A turn puts some text at `out`, at most as much as there is room for, and moves
on by its length.  For a piece of a format the text is what the piece stands
for, as far as there is room.
-/

namespace AbstractMachine.Klib

open AbstractMachine.Lib

variable {w : Nat} {n p : BitVec w} {s s' t : State w} {l tail : List (BitVec 8)} {room j : Nat}
  {R : BitVec w → Prop}

/-- `l` is put at `out`, and `tail` after it, where it will be overwritten. -/
structure Emitted (s s' : State w) (l tail : List (BitVec 8)) : Prop where
  store : s'.store = s.store.put s.out (l ++ tail)
  out : s'.out = s.out + BitVec.ofNat w l.length
  count : s'.count = s.count + BitVec.ofNat w l.length

private theorem emitted_nil (s : State w) : Emitted s s [] [] :=
  ⟨rfl, (BitVec.add_zero _).symm, (BitVec.add_zero _).symm⟩

/-- Character by character. -/
theorem Emitted.cons {c : BitVec 8} (h : Emitted (s.putc c) s' l tail) :
    Emitted s s' (c :: l) tail := by
  refine ⟨h.store, ?_, ?_⟩
  · rw [h.out, List.length_cons, ← Store.add_one_ofNat]
    rfl
  · rw [h.count, List.length_cons, ← Store.add_one_ofNat]
    rfl

/-! ## Any turn -/

private theorem copyString_emitted (room : Nat) (p : BitVec w) (s : State w) :
    ∃ l, l.length ≤ room ∧ Emitted s (copyString room p s) l [] := by
  induction room generalizing p s with
  | zero => exact ⟨[], Nat.le_refl _, emitted_nil s⟩
  | succ room ih =>
      rw [copyString]
      by_cases hEnd : s.store.mem p = 0
      · rw [if_pos hEnd]
        exact ⟨[], Nat.zero_le _, emitted_nil s⟩
      · rw [if_neg hEnd]
        obtain ⟨l, hLen, hl⟩ := ih (p + 1) (s.putc (s.store.mem p))
        exact ⟨_ :: l, Nat.succ_le_succ hLen, hl.cons⟩

/-- A numeral, or nothing at the null pointer. -/
theorem int2str_emitted (v : BitVec 32) (hRoom : n ≠ 0)
    (hStore : s'.store = (int2str s.out v n s.store).2)
    (hOut : s'.out = s.out + (int2str s.out v n s.store).1)
    (hCount : s'.count = s.count + (int2str s.out v n s.store).1) :
    ∃ l tail, (l ++ tail).length ≤ n.toNat ∧ Emitted s s' l tail := by
  by_cases hNull : s.out = 0
  · have hNone : int2str s.out v n s.store = (0, s.store) := by
      unfold int2str
      rw [if_pos (Or.inr hNull)]
    rw [hNone] at hStore hOut hCount
    exact ⟨[], [], Nat.zero_le _, hStore, hOut, hCount⟩
  · obtain ⟨tail, -, hLen, hPut⟩ := int2str_put s.store v hRoom hNull
    rw [hPut] at hStore hOut hCount
    exact ⟨_, tail, hLen, hStore, hOut, hCount⟩

/-- What a turn does to memory. -/
theorem body_emitted (hRoom : n - 1 - s.count ≠ 0) (h : body n s = some s') :
    ∃ l tail, (l ++ tail).length ≤ (n - 1 - s.count).toNat ∧ Emitted s s' l tail := by
  have hPos := toNat_pos hRoom
  unfold body at h
  dsimp only at h
  split at h
  · split at h
    · cases h
      exact ⟨[_], [], hPos, rfl, rfl, rfl⟩
    · split at h
      · split at h
        · cases h
          obtain ⟨l, hLen, hl⟩ := copyString_emitted (n - 1 - s.count).toNat ‹_› s
          exact ⟨l, [], by rwa [List.append_nil], hl.store, hl.out, hl.count⟩
        · cases h
      · split at h
        · split at h
          · cases h
            exact int2str_emitted _ hRoom rfl rfl rfl
          · cases h
        · split at h
          · split at h
            · cases h
              exact ⟨[_], [], hPos, rfl, rfl, rfl⟩
            · cases h
          · cases h
            exact ⟨[], [], Nat.zero_le _, rfl, (BitVec.add_zero _).symm, (BitVec.add_zero _).symm⟩
  · cases h
    exact ⟨[_], [], hPos, rfl, rfl, rfl⟩

/-! ## A turn for a piece -/

/-- An argument is what a value says. -/
def Holds (R : BitVec w → Prop) (m : ByteMem w) : Arg w → Value → Prop
  | .int v, .int v' => v = v'
  | .ptr p, .str l => Stored R m p l
  | _, _ => False

private theorem args_str {m : ByteMem w} {ap : List (Arg w)} {vs : List Value}
    (h : List.Forall₂ (Holds R m) ap (.str l :: vs)) :
    ∃ p ap', ap = .ptr p :: ap' ∧ Stored R m p l ∧ List.Forall₂ (Holds R m) ap' vs := by
  obtain _ | ⟨hArg, hRest⟩ := h
  rename_i a ap'
  cases a with
  | int v => exact absurd hArg id
  | ptr p => exact ⟨p, ap', rfl, hArg, hRest⟩

private theorem args_int {m : ByteMem w} {ap : List (Arg w)} {v : BitVec 32} {vs : List Value}
    (h : List.Forall₂ (Holds R m) ap (.int v :: vs)) :
    ∃ ap', ap = .int v :: ap' ∧ List.Forall₂ (Holds R m) ap' vs := by
  obtain _ | ⟨hArg, hRest⟩ := h
  rename_i a ap'
  cases a with
  | int v' =>
      cases hArg
      exact ⟨ap', rfl, hRest⟩
  | ptr p => exact absurd hArg id

private theorem copyString_stored (hl : Stored R s.store.mem p l)
    (hR : ∀ i, i < (l.take room).length → R (s.out + BitVec.ofNat w i)) :
    Emitted s (copyString room p s) (l.take room) [] := by
  induction room generalizing p s l with
  | zero =>
      rw [List.take_zero]
      exact emitted_nil s
  | succ room ih =>
      rw [copyString]
      cases l with
      | nil =>
          rw [if_pos hl.2, List.take_nil]
          exact emitted_nil s
      | cons c l =>
          obtain ⟨-, hAt, hNonzero, hRest⟩ := hl
          rw [List.take_succ_cons, List.length_cons] at hR
          obtain ⟨hFirst, hLater⟩ := Store.forall_offset_succ.mp hR
          rw [hAt, if_neg hNonzero, List.take_succ_cons]
          apply Emitted.cons
          exact ih (hRest.set hFirst) hLater

/-- A turn for a piece that becomes `l`, with the values `vs` left: the next piece
comes, and if there is room and nothing read lies where the text goes, the text
is put, as far as there is room. -/
structure Turned (R : BitVec w → Prop) (n : BitVec w) (s s' : State w) (l : List (BitVec 8))
    (len : Nat) (vs : List Value) : Prop where
  fmt : s'.fmt = s.fmt + BitVec.ofNat w len
  args : List.Forall₂ (Holds R s.store.mem) s'.ap vs
  text : n - 1 - s.count ≠ 0 → s.out ≠ 0 →
    (∀ i, i < (l.take (n - 1 - s.count).toNat).length → R (s.out + BitVec.ofNat w i)) →
    ∃ tail, (tail = [] ∨ tail = [0]) ∧
      (l.take (n - 1 - s.count).toNat ++ tail).length ≤ (n - 1 - s.count).toNat ∧
      Emitted s s' (l.take (n - 1 - s.count).toNat) tail

theorem add_one_one (p : BitVec w) : p + 1 + 1 = p + BitVec.ofNat w 2 := Store.add_one_ofNat p 1

/-- There is room for one character. -/
theorem text_one {c : BitVec 8} (hStore : s'.store = s.store.set s.out c)
    (hOut : s'.out = s.out + 1) (hCount : s'.count = s.count + 1) (hRoom : n ≠ 0) :
    ∃ tail, (tail = [] ∨ tail = [0]) ∧ ([c].take n.toNat ++ tail).length ≤ n.toNat ∧
      Emitted s s' ([c].take n.toNat) tail := by
  have hTake : [c].take n.toNat = [c] := List.take_of_length_le (toNat_pos hRoom)
  rw [hTake]
  exact ⟨[], Or.inl rfl, toNat_pos hRoom, hStore, hOut, hCount⟩

/-- A character after `'%'` that is no directive is skipped, even a zero byte. -/
theorem body_unknown {d : BitVec 8} (hPercent : s.store.mem s.fmt = chr '%')
    (hAt : s.store.mem (s.fmt + 1) = d)
    (hd : d ≠ chr '%' ∧ d ≠ chr 's' ∧ d ≠ chr 'd' ∧ d ≠ chr 'c') :
    body n s = some { s with fmt := s.fmt + 1 + 1 } := by
  obtain ⟨hNotPercent, hNotString, hNotNumber, hNotChar⟩ := hd
  unfold body
  dsimp only
  rw [if_pos hPercent, hAt, if_neg hNotPercent, if_neg hNotString, if_neg hNotNumber,
    if_neg hNotChar]

theorem body_piece {P : Piece} {rest : List (BitVec 8)} {vs vs' : List Value}
    (hFmt : Stored R s.store.mem s.fmt (P.bytes ++ rest))
    (hArgs : List.Forall₂ (Holds R s.store.mem) s.ap vs) (hText : P.expand vs = some (l, vs')) :
    ∃ s', body n s = some s' ∧ Turned R n s s' l P.bytes.length vs' := by
  cases P with
  | ordinary c h =>
      cases hText
      obtain ⟨-, hAt, -, -⟩ := hFmt
      refine ⟨{ s.putc c with fmt := s.fmt + 1 }, ?_, rfl, hArgs, ?_⟩
      · unfold body
        dsimp only
        rw [hAt, if_neg h.2]
      · intro hRoom _ _
        exact text_one rfl rfl rfl hRoom
  | directive d h =>
      obtain ⟨-, hPercent, -, -, hAt, -, -⟩ := hFmt
      unfold body
      unfold Piece.expand at hText
      dsimp only at hText ⊢
      rw [hPercent, if_pos rfl, hAt]
      by_cases hd : d = chr '%'
      · rw [if_pos hd] at hText ⊢
        cases hText
        refine ⟨_, rfl, add_one_one _, hArgs, ?_⟩
        intro hRoom _ _
        exact text_one (by rw [hd]; rfl) rfl rfl hRoom
      rw [if_neg hd] at hText ⊢
      by_cases hs : d = chr 's'
      · rw [if_pos hs] at hText ⊢
        rcases vs with _ | ⟨_ | text, vs⟩
        · cases hText
        · cases hText
        · cases hText
          obtain ⟨p, ap, hAp, hStored, hRest⟩ := args_str hArgs
          rw [hAp]
          refine ⟨_, rfl, add_one_one _, hRest, ?_⟩
          intro _ _ hR
          have hCopy := copyString_stored hStored hR
          refine ⟨[], Or.inl rfl, ?_, hCopy.store, hCopy.out, hCopy.count⟩
          rw [List.append_nil]
          exact List.length_take_le _ _
      rw [if_neg hs] at hText ⊢
      by_cases hdd : d = chr 'd'
      · rw [if_pos hdd] at hText ⊢
        rcases vs with _ | ⟨v | _, vs⟩
        · cases hText
        · cases hText
          obtain ⟨ap, hAp, hRest⟩ := args_int hArgs
          rw [hAp]
          refine ⟨_, rfl, add_one_one _, hRest, ?_⟩
          intro hRoom hOut _
          obtain ⟨tail, hNul, hLen, hPut⟩ := int2str_put s.store v hRoom hOut
          exact ⟨tail, hNul, hLen, congrArg Prod.snd hPut, congrArg (s.out + Prod.fst ·) hPut,
            congrArg (s.count + Prod.fst ·) hPut⟩
        · cases hText
      rw [if_neg hdd] at hText ⊢
      by_cases hc : d = chr 'c'
      · rw [if_pos hc] at hText ⊢
        rcases vs with _ | ⟨v | _, vs⟩
        · cases hText
        · cases hText
          obtain ⟨ap, hAp, hRest⟩ := args_int hArgs
          rw [hAp]
          refine ⟨_, rfl, add_one_one _, hRest, ?_⟩
          intro hRoom _ _
          exact text_one rfl rfl rfl hRoom
        · cases hText
      · rw [if_neg hc] at hText ⊢
        cases hText
        refine ⟨_, rfl, add_one_one _, hArgs, ?_⟩
        intro _ _ _
        rw [List.take_nil]
        exact ⟨[], Or.inl rfl, Nat.zero_le _, rfl, (BitVec.add_zero _).symm,
          (BitVec.add_zero _).symm⟩

end AbstractMachine.Klib
