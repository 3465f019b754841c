import AbstractMachine.Klib.Stdio.Vsnprintf

/-!
# Where `vsnprintf` reads the format

A turn looks at the current character, and after a `'%'` at the next one, which
it then skips, whatever it is.  Behind a `'%'` at the end of the format that is
the terminator: the scan goes on with what follows it in memory.
-/

namespace AbstractMachine.Klib

open AbstractMachine.Lib

/-! ## Formats -/

/-- A format: complete pieces, and maybe a lone `'%'` at the end. -/
structure Format where
  pieces : List Piece
  lone : Bool

/-- What a format ends with before its NUL: a lone `%`, or nothing. -/
def Format.tail (f : Format) : List (BitVec 8) := if f.lone then [chr '%'] else []

/-- The whole text of a format, its NUL left out. -/
def Format.text (f : Format) : List (BitVec 8) := bytes f.pieces ++ f.tail

/-- Every string is one. -/
theorem exists_format : ∀ l : List (BitVec 8), (∀ c ∈ l, c ≠ 0) → ∃ f : Format, f.text = l
  | [], _ => ⟨⟨[], false⟩, rfl⟩
  | [c], h => by
      by_cases hc : c = chr '%'
      · exact ⟨⟨[], true⟩, congrArg (fun c => [c]) hc.symm⟩
      · exact ⟨⟨[.ordinary c ⟨h c List.mem_cons_self, hc⟩], false⟩, rfl⟩
  | c :: d :: l, h => by
      have hl : ∀ c ∈ l, c ≠ 0 :=
        fun c hc => h c (List.mem_cons_of_mem _ (List.mem_cons_of_mem _ hc))
      have hd : d ≠ 0 := h d (List.mem_cons_of_mem _ List.mem_cons_self)
      by_cases hc : c = chr '%'
      · obtain ⟨f, hf⟩ := exists_format l hl
        refine ⟨⟨.directive d hd :: f.pieces, f.lone⟩, ?_⟩
        show chr '%' :: d :: f.text = _
        rw [hf, hc]
      · obtain ⟨f, hf⟩ := exists_format (d :: l) fun c hc => h c (List.mem_cons_of_mem _ hc)
        refine ⟨⟨.ordinary c ⟨h c List.mem_cons_self, hc⟩ :: f.pieces, f.lone⟩, ?_⟩
        show c :: f.text = _
        rw [hf]

/-! ## Reads -/

variable {w : Nat} {n out fmt p : BitVec w} {s s' : State w} {text : List (BitVec 8)}
  {R : BitVec w → Prop} {m : ByteMem w} {ap : List (Arg w)} {ps : List Piece} {vs : List Value}
  {fuel : Nat}

/-- Where the test of the loop and the turn after it read the format. -/
def fmtReads (n : BitVec w) (s : State w) : List (BitVec w) :=
  if s.count < n - 1 then
    s.fmt :: if s.store.mem s.fmt = chr '%' then [s.fmt + 1] else []
  else []

/-- The scan reads no more of the format than `len` characters and the terminator,
and the call ends. -/
structure ScanEnds (out n fmt : BitVec w) (ap : List (Arg w)) (m : ByteMem w) (len : Nat) :
    Prop where
  reads : ∀ fuel p, p ∈ fmtReads n (turns n fuel (enter out fmt ap m)) →
    ∃ i, i ≤ len ∧ p = fmt + BitVec.ofNat w i
  ends : ∃ fuel r, vsnprintf fuel out n fmt ap m = some r

private theorem mem_fmtReads (h : p ∈ fmtReads n s) :
    s.count < n - 1 ∧ (p = s.fmt ∨ s.store.mem s.fmt = chr '%' ∧ p = s.fmt + 1) := by
  unfold fmtReads at h
  by_cases hCount : s.count < n - 1
  · refine ⟨hCount, ?_⟩
    rw [if_pos hCount, List.mem_cons] at h
    rcases h with h | h
    · exact Or.inl h
    · by_cases hPercent : s.store.mem s.fmt = chr '%'
      · rw [if_pos hPercent, List.mem_singleton] at h
        exact Or.inr ⟨hPercent, h⟩
      · rw [if_neg hPercent] at h
        cases h
  · rw [if_neg hCount] at h
    cases h

/-- The turn for a piece reads the piece. -/
theorem piece_reads {P : Piece} {rest : List (BitVec 8)}
    (hFmt : Stored R s.store.mem s.fmt (P.bytes ++ rest)) (h : p ∈ fmtReads n s) :
    ∃ i, i < P.bytes.length ∧ p = s.fmt + BitVec.ofNat w i := by
  obtain ⟨-, rfl | ⟨hPercent, rfl⟩⟩ := mem_fmtReads h
  · refine ⟨0, ?_, (BitVec.add_zero _).symm⟩
    cases P <;> exact Nat.succ_pos _
  · cases P with
    | ordinary c hc =>
        obtain ⟨-, hAt, -⟩ := hFmt
        exact absurd (hAt.symm.trans hPercent) hc.2
    | directive d hd => exact ⟨1, Nat.lt_succ_self 1, rfl⟩

/-! ## Formats that are read to their end at most -/

variable {lone : Bool}

private theorem text_cons (P : Piece) (ps : List Piece) (lone : Bool) :
    Format.text ⟨P :: ps, lone⟩ = P.bytes ++ Format.text ⟨ps, lone⟩ := by
  unfold Format.text bytes
  rw [List.flatMap_cons, List.append_assoc]
  rfl

/-- The room left after a piece, when the text of the whole does not fit. -/
theorem room_le {l rest : List (BitVec 8)} {room : Nat} (h : room ≤ (l ++ rest).length) :
    room - (l.take room).length ≤ rest.length := by
  rw [List.length_append] at h
  rw [List.length_take]
  omega

/-- No character is read when there is no room for one. -/
theorem full_reads (hCount : s.count ≤ n - 1) (hRoom : n - 1 - s.count = 0) (fuel : Nat) :
    p ∉ fmtReads n (turns n fuel s) := by
  obtain ⟨hFull, hStopped⟩ := full_stopped hCount hRoom
  rw [turns_stopped hStopped]
  intro h
  exact hFull (mem_fmtReads h).1

/-- From any piece on. -/
theorem turns_scan (hFmt : Stored R s.store.mem s.fmt (Format.text ⟨ps, lone⟩))
    (hArgs : List.Forall₂ (Holds R s.store.mem) s.ap vs) (hText : expand ps vs = some text)
    (hCount : s.count ≤ n - 1) (hFits : Fits R n s text)
    (hEnd : lone = false ∨ (n - 1 - s.count).toNat ≤ text.length) :
    (∀ fuel p, p ∈ fmtReads n (turns n fuel s) →
      ∃ i, i ≤ (Format.text ⟨ps, lone⟩).length ∧ p = s.fmt + BitVec.ofNat w i) ∧
      running n (turns n ps.length s) = false := by
  induction ps generalizing vs text s with
  | nil =>
      cases hText
      by_cases hRoom : n - 1 - s.count = 0
      · refine ⟨fun fuel p hp => absurd hp (full_reads hCount hRoom fuel), ?_⟩
        exact (full_stopped hCount hRoom).2
      · have hPos := toNat_pos hRoom
        have hWhole : lone = false := hEnd.resolve_right (Nat.not_le_of_gt hPos)
        subst hWhole
        have hNul : s.store.mem s.fmt = 0 := hFmt.2
        have hStopped : running n s = false := end_stopped hNul
        refine ⟨?_, hStopped⟩
        intro fuel p hp
        rw [turns_stopped hStopped] at hp
        obtain ⟨-, rfl | ⟨hPercent, -⟩⟩ := mem_fmtReads hp
        · exact ⟨0, Nat.zero_le _, (BitVec.add_zero _).symm⟩
        · rw [hNul] at hPercent
          exact absurd hPercent (by decide)
  | cons P ps ih =>
      rw [text_cons] at hFmt ⊢
      rw [List.length_append]
      by_cases hRoom : n - 1 - s.count = 0
      · refine ⟨fun fuel p hp => absurd hp (full_reads hCount hRoom fuel), ?_⟩
        rw [turns_stopped (full_stopped hCount hRoom).2]
        exact (full_stopped hCount hRoom).2
      · obtain ⟨l, vs', rest, hPiece, hRest, rfl⟩ := expand_cons hText
        obtain ⟨s', tail, hTurn⟩ := piece_turn hFmt hArgs hPiece hCount hRoom hFits
        have hNext : ∀ fuel, turns n (fuel + 1) s = turns n fuel s' := by
          intro fuel
          rw [turns, if_pos (running_piece hFmt hCount hRoom), hTurn.body]
        have hEnd' : lone = false ∨ (n - 1 - s'.count).toNat ≤ rest.length := by
          rw [hTurn.room]
          exact hEnd.imp_right room_le
        obtain ⟨hReads, hStopped⟩ :=
          ih hTurn.format hTurn.args hRest hTurn.count hTurn.fits hEnd'
        constructor
        · intro fuel p hp
          cases fuel with
          | zero =>
              obtain ⟨i, hi, rfl⟩ := piece_reads hFmt hp
              exact ⟨i, by omega, rfl⟩
          | succ fuel =>
              rw [hNext] at hp
              obtain ⟨i, hi, rfl⟩ := hReads fuel p hp
              refine ⟨P.bytes.length + i, by omega, ?_⟩
              rw [hTurn.fmt, BitVec.add_assoc, ← BitVec.ofNat_add]
        · rw [List.length_cons, hNext]
          exact hStopped

/-! ## Formats that are not -/

/-- Behind a lone `'%'`, with room left, the scan goes on after the terminator. -/
theorem turns_past (hFmt : Stored R s.store.mem s.fmt (Format.text ⟨ps, true⟩))
    (hArgs : List.Forall₂ (Holds R s.store.mem) s.ap vs) (hText : expand ps vs = some text)
    (hCount : s.count ≤ n - 1) (hFits : Fits R n s text)
    (hRoom : text.length < (n - 1 - s.count).toNat) :
    ∃ fuel, s.fmt + BitVec.ofNat w ((Format.text ⟨ps, true⟩).length + 1) ∈
      fmtReads n (turns n fuel s) := by
  have hSome : n - 1 - s.count ≠ 0 := by
    intro hZero
    rw [hZero] at hRoom
    simp at hRoom
  induction ps generalizing vs text s with
  | nil =>
      cases hText
      obtain ⟨-, hPercent, -, -, hNul⟩ := hFmt
      have hLess := room_lt hCount hSome
      have hRunning : running n s = true := by
        unfold running
        rw [hPercent, decide_eq_true hLess]
        decide
      have hBody : body n s = some { s with fmt := s.fmt + 1 + 1 } :=
        body_unknown hPercent hNul (by decide)
      refine ⟨1, ?_⟩
      rw [turns, if_pos hRunning, hBody]
      show _ ∈ fmtReads n { s with fmt := s.fmt + 1 + 1 }
      unfold fmtReads
      rw [if_pos hLess, add_one_one]
      exact List.mem_cons_self
  | cons P ps ih =>
      rw [text_cons] at hFmt ⊢
      obtain ⟨l, vs', rest, hPiece, hRest, rfl⟩ := expand_cons hText
      obtain ⟨s', tail, hTurn⟩ := piece_turn hFmt hArgs hPiece hCount hSome hFits
      have hLeft : rest.length < (n - 1 - s'.count).toNat := by
        rw [hTurn.room, List.length_take]
        rw [List.length_append] at hRoom
        omega
      have hSome' : n - 1 - s'.count ≠ 0 := by
        intro hZero
        rw [hZero] at hLeft
        simp at hLeft
      obtain ⟨fuel, hPast⟩ := ih hTurn.format hTurn.args hRest hTurn.count hTurn.fits hLeft hSome'
      refine ⟨fuel + 1, ?_⟩
      rw [turns, if_pos (running_piece hFmt hCount hSome), hTurn.body, List.length_append]
      rwa [hTurn.fmt, BitVec.add_assoc, ← BitVec.ofNat_add, ← Nat.add_assoc] at hPast

/-! ## The call -/

/-- With a lone `'%'` and room behind it, the scan leaves the format. -/
theorem not_scanEnds (f : Format) (vs : List Value) (text : List (BitVec 8)) (hn : n ≠ 0)
    (hOut : out ≠ 0)
    (hObject : out.toNat + (text.take (n.toNat - 1)).length < 2 ^ w)
    (hFmt : Stored (ByteMem.InBlock out ((text.take (n.toNat - 1)).length + 1)) m fmt f.text)
    (hArgs : List.Forall₂ (Holds (ByteMem.InBlock out ((text.take (n.toNat - 1)).length + 1)) m)
      ap vs)
    (hText : expand f.pieces vs = some text) (hLone : f.lone = true)
    (hRoom : text.length < n.toNat - 1) : ¬ ScanEnds out n fmt ap m f.text.length := by
  intro hEnds
  obtain ⟨pieces, lone⟩ := f
  cases hLone
  have hFits := enter_fits fmt ap m hn hOut hObject
  obtain ⟨fuel, hPast⟩ := turns_past (s := enter out fmt ap m) hFmt hArgs hText enter_count hFits
    (by rwa [enter_room hn])
  obtain ⟨i, hi, hEq⟩ := hEnds.reads fuel _ hPast
  -- the format is apart from the buffer, so it does not reach round to itself
  have hSelf : ByteMem.InBlock out ((text.take (n.toNat - 1)).length + 1) out := by
    unfold ByteMem.InBlock
    rw [BitVec.sub_self]
    exact Nat.succ_pos _
  have hShort := hFmt.short hSelf
  have hPlace : fmt + BitVec.ofNat w ((Format.text ⟨pieces, true⟩).length + 1) =
      fmt + BitVec.ofNat w i := hEq
  have hSame := ByteMem.eq_of_offset hShort (by omega) hPlace
  omega

/--
**The scan of the format.** For a buffer that is not empty and arguments that
match, the scan stays in the format and the call ends, if and only if the format
does not end with a lone `'%'`, or there is no room behind what precedes it.
-/
theorem scan_ends_iff (out n fmt : BitVec w) (ap : List (Arg w)) (m : ByteMem w) (f : Format)
    (vs : List Value) (text : List (BitVec 8)) (hn : n ≠ 0) (hOut : out ≠ 0)
    (hObject : out.toNat + (text.take (n.toNat - 1)).length < 2 ^ w)
    (hFmt : Stored (ByteMem.InBlock out ((text.take (n.toNat - 1)).length + 1)) m fmt f.text)
    (hArgs : List.Forall₂ (Holds (ByteMem.InBlock out ((text.take (n.toNat - 1)).length + 1)) m)
      ap vs)
    (hText : expand f.pieces vs = some text) :
    ScanEnds out n fmt ap m f.text.length ↔ f.lone = false ∨ n.toNat - 1 ≤ text.length := by
  constructor
  · intro hEnds
    by_contra hNot
    rw [not_or, Nat.not_le, Bool.not_eq_false] at hNot
    exact not_scanEnds f vs text hn hOut hObject hFmt hArgs hText hNot.1 hNot.2 hEnds
  · intro hCond
    have hFits := enter_fits fmt ap m hn hOut hObject
    obtain ⟨hReads, hStopped⟩ := turns_scan (s := enter out fmt ap m) hFmt hArgs hText
      enter_count hFits (by rwa [enter_room hn])
    refine ⟨hReads, f.pieces.length, ?_⟩
    unfold vsnprintf
    dsimp only
    rw [hStopped, if_neg Bool.false_ne_true]
    exact ⟨_, rfl⟩

/-- `snprintf(out, 4, "%d%s", -12, "s")`. -/
theorem scan_ends_iff_cut :
    ScanEnds 0x2000#32 4 0x1000 [.int (-12), .ptr 0x1003] numberMem 4 ↔
      false = false ∨ (4 : BitVec 32).toNat - 1 ≤ 4 := by
  have hString : Stored (ByteMem.InBlock 0x2000#32 4) numberMem 0x1003 [chr 's'] :=
    Stored.append (l := [chr '%', chr 'd', chr '%']) numberMem_stored
  exact scan_ends_iff 0x2000#32 4 0x1000 [.int (-12), .ptr 0x1003] numberMem ⟨numberString, false⟩
    [.int (-12), .str [chr 's']] [chr '-', chr '1', chr '2', chr 's'] (by decide) (by decide)
    (by decide) numberMem_stored (.cons rfl (.cons hString .nil)) numberString_text

/-- The format `"%"` at 0x1000. -/
def loneMem : ByteMem 32 := fun x => [chr '%'].getD (x - 0x1000).toNat 0

private theorem loneMem_stored : Stored (ByteMem.InBlock 0x2000#32 1) loneMem 0x1000 [chr '%'] := by
  apply stored_getD
  · decide
  · decide
  · decide

/-- `snprintf(out, 2, "%")` reads what stands behind the format. -/
theorem scan_past_lone :
    Stored (ByteMem.InBlock 0x2000#32 1) loneMem 0x1000 [chr '%'] ∧
      ¬ ScanEnds 0x2000#32 2 0x1000 [] loneMem 1 :=
  ⟨loneMem_stored, not_scanEnds ⟨[], true⟩ [] [] (by decide) (by decide)
    (by decide) loneMem_stored .nil rfl rfl (by decide)⟩

end AbstractMachine.Klib
