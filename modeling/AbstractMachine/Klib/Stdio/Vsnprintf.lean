import AbstractMachine.Klib.Stdio.Turn
import AbstractMachine.Lib.SignedWord

/-!
# What `vsnprintf` prints

From its start on, the loop puts at `out` as much of the text of the format as
there is room for, whatever pieces the end of the room falls into.  The zero
byte that `int2str` may have put after `INT_MIN` is overwritten by what follows,
at the latest by the last one.
-/

namespace AbstractMachine.Klib

open AbstractMachine.Lib

variable {w : Nat} {n out fmt : BitVec w} {s s' t : State w} {l rest tail text : List (BitVec 8)}
  {R : BitVec w → Prop} {m : ByteMem w} {ap : List (Arg w)} {ps : List Piece} {vs : List Value}
  {fuel j : Nat}

/-! ## Room -/

theorem room_next (hCount : s.count ≤ n - 1) (hj : j ≤ (n - 1 - s.count).toNat) :
    s.count + BitVec.ofNat w j ≤ n - 1 ∧
      (n - 1 - (s.count + BitVec.ofNat w j)).toNat = (n - 1 - s.count).toNat - j := by
  have hLt := (n - 1).isLt
  rw [BitVec.toNat_sub_of_le hCount] at hj ⊢
  have hSum : (s.count + BitVec.ofNat w j).toNat = s.count.toNat + j := by
    rw [BitVec.toNat_add, BitVec.toNat_ofNat, Nat.add_mod_mod]
    exact Nat.mod_eq_of_lt (by omega)
  have hNext : s.count + BitVec.ofNat w j ≤ n - 1 := by
    rw [BitVec.le_def, hSum]
    rw [BitVec.le_def] at hCount
    omega
  refine ⟨hNext, ?_⟩
  rw [BitVec.toNat_sub_of_le hNext, hSum]
  omega

theorem room_lt (hCount : s.count ≤ n - 1) (hRoom : n - 1 - s.count ≠ 0) : s.count < n - 1 := by
  have hPos := toNat_pos hRoom
  rw [BitVec.toNat_sub_of_le hCount] at hPos
  rw [BitVec.lt_def]
  omega

/-! ## The loop -/

theorem turns_stopped (h : running n s = false) : turns n fuel s = s := by
  cases fuel with
  | zero => rfl
  | succ fuel =>
      rw [turns, h]
      rfl

/-- The loop has ended with `l` printed, but for the terminator. -/
structure Printed (n : BitVec w) (s s' : State w) (l : List (BitVec 8)) : Prop where
  stopped : running n s' = false
  count : s'.count = s.count + BitVec.ofNat w l.length
  content : (s'.store.set s'.out 0).mem = (s.store.put s.out (l ++ [0])).mem

theorem printed_nil (h : running n s = false) : Printed n s s [] :=
  ⟨h, (BitVec.add_zero _).symm, rfl⟩

/-- What is printed after a turn is printed after its text. -/
theorem Printed.cons (hTurn : Emitted s s' l tail) (hNul : tail = [] ∨ tail = [0])
    (h : Printed n s' t rest) : Printed n s t (l ++ rest) := by
  refine ⟨h.stopped, ?_, ?_⟩
  · rw [h.count, hTurn.count, List.length_append, BitVec.add_assoc, BitVec.ofNat_add_ofNat]
  · rw [h.content, hTurn.store, hTurn.out, List.append_assoc, Store.put_append _ _ l tail,
      Store.put_append _ _ l (rest ++ [0])]
    apply Store.put_first
    · exact List.append_ne_nil_of_right_ne_nil _ (List.cons_ne_nil _ _)
    · intro x hx
      rcases hNul with rfl | rfl
      · rfl
      · exact Function.update_of_ne hx ..

/-- A turn writes nothing outside of the region. -/
theorem Emitted.frame (hTurn : Emitted s s' l tail)
    (hR : ∀ i, i < (l ++ tail).length → R (s.out + BitVec.ofNat w i)) :
    ∀ x, ¬ R x → s'.store.mem x = s.store.mem x := by
  intro x hx
  rw [hTurn.store]
  apply Store.put_outside
  rintro i hi rfl
  exact hx (hR i hi)

/-- The part of a text that there is room for. -/
theorem take_append_room (l rest : List (BitVec 8)) (room : Nat) :
    (l ++ rest).take room = l.take room ++ rest.take (room - (l.take room).length) := by
  rw [List.take_append, List.length_take]
  congr 2
  omega

theorem holds_frame {m' : ByteMem w} (h : ∀ x, ¬ R x → m' x = m x)
    (hArgs : List.Forall₂ (Holds R m) ap vs) : List.Forall₂ (Holds R m') ap vs := by
  refine hArgs.imp ?_
  intro a v hHolds
  cases a <;> cases v
  · exact hHolds
  · exact hHolds
  · exact hHolds
  · exact Stored.frame h hHolds

theorem expand_cons {P : Piece} (h : expand (P :: ps) vs = some text) :
    ∃ l vs' rest, P.expand vs = some (l, vs') ∧ expand ps vs' = some rest ∧ text = l ++ rest := by
  unfold expand at h
  cases hPiece : P.expand vs with
  | none =>
      rw [hPiece] at h
      cases h
  | some r =>
      rw [hPiece] at h
      obtain ⟨rest, hRest, rfl⟩ := Option.map_eq_some_iff.mp h
      exact ⟨r.1, r.2, rest, rfl, hRest, rfl⟩

/-- A piece does not start with a zero byte. -/
theorem piece_start {P : Piece} {fmt : BitVec w} (h : Stored R m fmt (P.bytes ++ rest)) :
    m fmt ≠ 0 := by
  cases P with
  | ordinary c hc =>
      obtain ⟨-, hAt, hNonzero, -⟩ := h
      rwa [hAt]
  | directive d hd =>
      obtain ⟨-, hAt, hNonzero, -⟩ := h
      rwa [hAt]

/-- There is room for the text and the terminator, apart from what is read. -/
def Fits (R : BitVec w → Prop) (n : BitVec w) (s : State w) (text : List (BitVec 8)) : Prop :=
  ∀ i, i ≤ (text.take (n - 1 - s.count).toNat).length →
    R (s.out + BitVec.ofNat w i) ∧ s.out + BitVec.ofNat w i ≠ 0

/-- A turn for a piece that becomes `l`, as long as there is room: everything is
ready for the pieces that follow, which become `more`. -/
structure PieceTurn (R : BitVec w → Prop) (n : BitVec w) (s s' : State w) (P : Piece)
    (l more tail rest : List (BitVec 8)) (vs : List Value) : Prop where
  body : body n s = some s'
  nul : tail = [] ∨ tail = [0]
  emitted : Emitted s s' (l.take (n - 1 - s.count).toNat) tail
  frame : ∀ x, ¬ R x → s'.store.mem x = s.store.mem x
  fmt : s'.fmt = s.fmt + BitVec.ofNat w P.bytes.length
  format : Stored R s'.store.mem s'.fmt rest
  args : List.Forall₂ (Holds R s'.store.mem) s'.ap vs
  count : s'.count ≤ n - 1
  room : (n - 1 - s'.count).toNat =
    (n - 1 - s.count).toNat - (l.take (n - 1 - s.count).toNat).length
  fits : Fits R n s' more

theorem piece_turn {P : Piece} {more : List (BitVec 8)} {vs' : List Value}
    (hFmt : Stored R s.store.mem s.fmt (P.bytes ++ rest))
    (hArgs : List.Forall₂ (Holds R s.store.mem) s.ap vs) (hPiece : P.expand vs = some (l, vs'))
    (hCount : s.count ≤ n - 1) (hRoom : n - 1 - s.count ≠ 0) (hFits : Fits R n s (l ++ more)) :
    ∃ s' tail, PieceTurn R n s s' P l more tail rest vs' := by
  unfold Fits at hFits
  rw [take_append_room, List.length_append] at hFits
  have hOut : s.out ≠ 0 := by
    have hFirst := (hFits 0 (Nat.zero_le _)).2
    rwa [BitVec.add_zero] at hFirst
  obtain ⟨s', hBody, hTurn⟩ := body_piece hFmt hArgs hPiece
  obtain ⟨tail, hNul, hShort, hEmitted⟩ :=
    hTurn.text hRoom hOut fun i hi => (hFits i (by omega)).1
  have hTail : tail.length ≤ 1 := by
    rcases hNul with rfl | rfl <;> decide
  have hFrame := hEmitted.frame fun i hi => (hFits i (by
    rw [List.length_append] at hi
    omega)).1
  rw [List.length_append] at hShort
  obtain ⟨hNextCount, hNextRoom⟩ := room_next hCount (Nat.le_of_add_right_le hShort)
  rw [← hEmitted.count] at hNextCount hNextRoom
  exact ⟨s', tail,
    { body := hBody
      nul := hNul
      emitted := hEmitted
      frame := hFrame
      fmt := hTurn.fmt
      format := by
        rw [hTurn.fmt]
        exact (hFmt.append).frame hFrame
      args := holds_frame hFrame hTurn.args
      count := hNextCount
      room := hNextRoom
      fits := by
        intro i hi
        rw [hNextRoom] at hi
        rw [hEmitted.out, BitVec.add_assoc, ← BitVec.ofNat_add]
        exact hFits _ (by omega) }⟩

theorem running_piece {P : Piece} (hFmt : Stored R s.store.mem s.fmt (P.bytes ++ rest))
    (hCount : s.count ≤ n - 1) (hRoom : n - 1 - s.count ≠ 0) : running n s = true := by
  unfold running
  rw [decide_eq_true (room_lt hCount hRoom), decide_eq_true (piece_start hFmt)]
  rfl

/-- The loop ends when there is no more room. -/
theorem full_stopped (hCount : s.count ≤ n - 1) (hRoom : n - 1 - s.count = 0) :
    ¬ s.count < n - 1 ∧ running n s = false := by
  have hZero : (n - 1 - s.count).toNat = 0 := by
    rw [hRoom]
    simp
  have hFull : ¬ s.count < n - 1 := by
    rw [BitVec.toNat_sub_of_le hCount] at hZero
    rw [BitVec.lt_def]
    omega
  refine ⟨hFull, ?_⟩
  unfold running
  rw [decide_eq_false hFull]
  rfl

theorem end_stopped (h : s.store.mem s.fmt = 0) : running n s = false := by
  unfold running
  rw [h]
  simp

private theorem turns_printed (hFuel : ps.length ≤ fuel)
    (hFmt : Stored R s.store.mem s.fmt (bytes ps))
    (hArgs : List.Forall₂ (Holds R s.store.mem) s.ap vs) (hText : expand ps vs = some text)
    (hCount : s.count ≤ n - 1) (hFits : Fits R n s text) :
    Printed n s (turns n fuel s) (text.take (n - 1 - s.count).toNat) := by
  induction ps generalizing vs text s fuel with
  | nil =>
      cases hText
      have hStopped : running n s = false := end_stopped hFmt.2
      rw [List.take_nil, turns_stopped hStopped]
      exact printed_nil hStopped
  | cons P ps ih =>
      by_cases hRoom : n - 1 - s.count = 0
      · have hZero : (n - 1 - s.count).toNat = 0 := by
          rw [hRoom]
          simp
        have hStopped := (full_stopped hCount hRoom).2
        rw [hZero, List.take_zero, turns_stopped hStopped]
        exact printed_nil hStopped
      · obtain ⟨l, vs', rest, hPiece, hRest, rfl⟩ := expand_cons hText
        obtain ⟨f, rfl⟩ : ∃ f, fuel = f + 1 := Nat.exists_eq_add_one_of_ne_zero (by
          rw [List.length_cons] at hFuel
          omega)
        rw [List.length_cons] at hFuel
        obtain ⟨s', tail, hTurn⟩ := piece_turn hFmt hArgs hPiece hCount hRoom hFits
        have hNext := ih (Nat.le_of_succ_le_succ hFuel) hTurn.format hTurn.args hRest hTurn.count
          hTurn.fits
        rw [turns, if_pos (running_piece hFmt hCount hRoom), hTurn.body, take_append_room,
          ← hTurn.room]
        exact hNext.cons hTurn.emitted hTurn.nul

/-! ## The call -/

theorem toNat_zero : (0 : BitVec w).toNat = 0 := by simp

/-- The text `l` with a terminator stands at `out`; every other byte is as before. -/
structure Content (m m' : ByteMem w) (out : BitVec w) (l : List (BitVec 8)) : Prop where
  text : ∀ i (hi : i < l.length), m' (out + BitVec.ofNat w i) = l[i]
  nul : m' (out + BitVec.ofNat w l.length) = 0
  others : ∀ x, ¬ ByteMem.InBlock out (l.length + 1) x → m' x = m x

private theorem content_put {s : Store w} (hFit : l.length < 2 ^ w) :
    Content s.mem (s.put out (l ++ [0])).mem out l := by
  have hLen : (l ++ [(0 : BitVec 8)]).length = l.length + 1 := List.length_append
  have hAll : (l ++ [(0 : BitVec 8)]).length ≤ 2 ^ w := by
    rw [hLen]
    exact hFit
  constructor
  · intro i hi
    rw [Store.put_inside hAll (by rw [hLen]; exact Nat.lt_succ_of_lt hi), List.getElem_append_left]
  · rw [Store.put_inside hAll (by rw [hLen]; exact Nat.lt_succ_self _),
      List.getElem_append_right (Nat.le_refl _)]
    simp
  · intro x hx
    apply Store.put_outside
    rintro i hi rfl
    exact hx (ByteMem.inBlock_offset (hLen ▸ hi) (hLen ▸ hAll))

theorem enter_room (hn : n ≠ 0) :
    (n - 1 - (enter out fmt ap m).count).toNat = n.toNat - 1 := by
  show (n - 1 - 0#w).toNat = _
  rw [BitVec.sub_zero, toNat_pred hn]

theorem enter_count : (enter out fmt ap m).count ≤ n - 1 := by
  show (0 : BitVec w) ≤ n - 1
  rw [BitVec.le_def, toNat_zero]
  exact Nat.zero_le _

/-- A buffer with room for what is printed. -/
theorem enter_fits (fmt : BitVec w) (ap : List (Arg w)) (m : ByteMem w) (hn : n ≠ 0)
    (hOut : out ≠ 0)
    (hObject : out.toNat + (text.take (n.toNat - 1)).length < 2 ^ w) :
    Fits (ByteMem.InBlock out ((text.take (n.toNat - 1)).length + 1)) n (enter out fmt ap m)
      text := by
  intro i hi
  rw [enter_room hn] at hi
  refine ⟨ByteMem.inBlock_offset (by omega) (by omega), ?_⟩
  intro hNull
  have hNat : (out + BitVec.ofNat w i).toNat = (0 : BitVec w).toNat := congrArg BitVec.toNat hNull
  have hPos := toNat_pos hOut
  rw [BitVec.toNat_add, BitVec.toNat_ofNat, Nat.add_mod_mod, Nat.mod_eq_of_lt (by omega),
    toNat_zero] at hNat
  omega

/-- A call whose loop has ended. -/
theorem vsnprintf_printed
    (hPrinted : Printed n (enter out fmt ap m) (turns n fuel (enter out fmt ap m)) l)
    (hFit : l.length < 2 ^ w) :
    ∃ s, vsnprintf fuel out n fmt ap m = some (BitVec.ofNat 32 l.length, s) ∧
      Content m s.mem out l := by
  have hRet : (turns n fuel (enter out fmt ap m)).count.setWidth 32 =
      BitVec.ofNat 32 l.length := by
    rw [hPrinted.count]
    show (0#w + BitVec.ofNat w _).setWidth 32 = _
    apply BitVec.eq_of_toNat_eq
    rw [BitVec.zero_add, BitVec.toNat_setWidth, BitVec.toNat_ofNat, BitVec.toNat_ofNat,
      Nat.mod_eq_of_lt hFit]
  refine ⟨(turns n fuel (enter out fmt ap m)).store.set
    (turns n fuel (enter out fmt ap m)).out 0, ?_, ?_⟩
  · unfold vsnprintf
    dsimp only
    rw [hPrinted.stopped, if_neg Bool.false_ne_true, hRet]
  · rw [hPrinted.content]
    exact content_put (s := (enter out fmt ap m).store) hFit

/--
**The output of `vsnprintf`.** For a buffer that is not empty, the call ends,
and leaves as much of the text of the format as there is room for, a terminator
after it, and nothing else changed; it returns the length as an `int`.
-/
theorem vsnprintf_content (fuel : Nat) (out n fmt : BitVec w) (ap : List (Arg w)) (m : ByteMem w)
    (ps : List Piece) (vs : List Value) (text : List (BitVec 8)) (hn : n ≠ 0) (hOut : out ≠ 0)
    (hObject : out.toNat + (text.take (n.toNat - 1)).length < 2 ^ w)
    (hFmt : Stored (ByteMem.InBlock out ((text.take (n.toNat - 1)).length + 1)) m fmt (bytes ps))
    (hArgs : List.Forall₂ (Holds (ByteMem.InBlock out ((text.take (n.toNat - 1)).length + 1)) m)
      ap vs)
    (hText : expand ps vs = some text) (hFuel : ps.length ≤ fuel) :
    ∃ r s, vsnprintf fuel out n fmt ap m = some (r, s) ∧
      Content m s.mem out (text.take (n.toNat - 1)) ∧
      r = BitVec.ofNat 32 (text.take (n.toNat - 1)).length ∧
      ((text.take (n.toNat - 1)).length < 2 ^ 31 →
        r.toInt = (text.take (n.toNat - 1)).length) := by
  have hPrinted : Printed n (enter out fmt ap m) (turns n fuel (enter out fmt ap m))
      (text.take (n - 1 - (enter out fmt ap m).count).toNat) :=
    turns_printed hFuel hFmt hArgs hText enter_count (enter_fits fmt ap m hn hOut hObject)
  rw [enter_room hn] at hPrinted
  have hFit : (text.take (n.toNat - 1)).length < 2 ^ w := by omega
  obtain ⟨s, hRun, hContent⟩ := vsnprintf_printed hPrinted hFit
  exact ⟨_, s, hRun, hContent, rfl, fun hInt => SignedWord.toInt_ofNat (by omega)⟩

/-- The format `%d%s`. -/
def numberString : List Piece :=
  [.directive (chr 'd') (by decide), .directive (chr 's') (by decide)]

/-- The format `"%d%s"` at 0x1000, whose last character is a string of its own. -/
def numberMem : ByteMem 32 := fun x => (bytes numberString).getD (x - 0x1000).toNat 0

theorem numberString_text :
    expand numberString [.int (-12), .str [chr 's']] =
      some [chr '-', chr '1', chr '2', chr 's'] := by
  have hNumeral : decimal (-12) = [chr '-', chr '1', chr '2'] := by
    have hDigits : Nat.digits 10 12 = [2, 1] := by norm_num
    unfold decimal
    show _ ++ List.reverse (List.map _ (Nat.digits 10 12)) = _
    rw [hDigits]
    decide
  show some (decimal (-12) ++ [chr 's']) = _
  rw [hNumeral]
  rfl

theorem numberMem_stored : Stored (ByteMem.InBlock 0x2000#32 4) numberMem 0x1000
    (bytes numberString) := by
  apply stored_getD
  · decide
  · decide
  · decide

/-- `snprintf(out, 4, "%d%s", -12, "s")` is cut off before the string. -/
theorem vsnprintf_content_cut :
    ∃ r s, vsnprintf 2 0x2000#32 4 0x1000 [.int (-12), .ptr 0x1003] numberMem = some (r, s) ∧
      Content numberMem s.mem 0x2000 [chr '-', chr '1', chr '2'] ∧ r.toInt = 3 := by
  have hString : Stored (ByteMem.InBlock 0x2000#32 4) numberMem 0x1003 [chr 's'] :=
    Stored.append (l := [chr '%', chr 'd', chr '%']) numberMem_stored
  obtain ⟨r, s, hRun, hContent, -, hRet⟩ :=
    vsnprintf_content 2 0x2000#32 4 0x1000 [.int (-12), .ptr 0x1003] numberMem numberString
      [.int (-12), .str [chr 's']] [chr '-', chr '1', chr '2', chr 's'] (by decide) (by decide)
      (by decide) numberMem_stored (.cons rfl (.cons hString .nil)) numberString_text (by decide)
  exact ⟨r, s, hRun, hContent, hRet (by decide)⟩

/-! ## Where the length is no `int` -/

theorem expand_ordinary (c : BitVec 8) (h : c ≠ 0 ∧ c ≠ chr '%') (k : Nat) :
    expand (List.replicate k (.ordinary c h)) [] = some (List.replicate k c) := by
  induction k with
  | zero => rfl
  | succ k ih =>
      rw [List.replicate_succ, List.replicate_succ]
      show (expand (List.replicate k _) []).map ([c] ++ ·) = _
      rw [ih]
      rfl

private theorem bytes_ordinary (c : BitVec 8) (h : c ≠ 0 ∧ c ≠ chr '%') (k : Nat) :
    bytes (List.replicate k (.ordinary c h)) = List.replicate k c := by
  induction k with
  | zero => rfl
  | succ k ih =>
      rw [List.replicate_succ, List.replicate_succ, ← ih]
      rfl

theorem letter : chr 'a' ≠ 0 ∧ chr 'a' ≠ chr '%' := by decide

/-- A format of `k` letters, high up. -/
def letters (k : Nat) : ByteMem 64 := fun x =>
  (List.replicate k (chr 'a')).getD (x - 0x100000000000).toNat 0

/-- Nothing of it lies low down. -/
theorem letters_low {R : BitVec 64 → Prop} (k : Nat) (hk : k < 2 ^ 40)
    (hR : ∀ x, R x → x.toNat < 2 ^ 44) :
    Stored R (letters k) 0x100000000000
      (bytes (List.replicate k (.ordinary (chr 'a') letter))) := by
  rw [bytes_ordinary]
  apply stored_getD
  · intro c hc
    rw [List.eq_of_mem_replicate hc]
    exact letter.1
  · rw [List.length_replicate]
    omega
  · intro i hi hIn
    rw [List.length_replicate] at hi
    have hLow := hR _ hIn
    bv_omega

private theorem letters_stored (k : Nat) (hk : k < 2 ^ 40) :
    Stored (ByteMem.InBlock 0x1000#64 (k + 1)) (letters k) 0x100000000000
      (bytes (List.replicate k (.ordinary (chr 'a') letter))) := by
  apply letters_low k hk
  intro x hx
  unfold ByteMem.InBlock at hx
  bv_omega

/-- It is printed into a buffer of just the right size, low down. -/
theorem letters_printed (k : Nat) (hk : k < 2 ^ 40) :
    ∃ s, vsnprintf k 0x1000#64 (BitVec.ofNat 64 (k + 1)) 0x100000000000 [] (letters k) =
      some (BitVec.ofNat 32 k, s) := by
  have hRoom : (BitVec.ofNat 64 (k + 1)).toNat - 1 = k := by
    rw [BitVec.toNat_ofNat, Nat.mod_eq_of_lt (by omega), Nat.add_sub_cancel]
  have hTake : ((List.replicate k (chr 'a')).take ((BitVec.ofNat 64 (k + 1)).toNat - 1)).length =
      k := by
    rw [hRoom, List.take_replicate, Nat.min_self, List.length_replicate]
  have hSome : BitVec.ofNat 64 (k + 1) ≠ 0 := by
    intro hZero
    have hNat := congrArg BitVec.toNat hZero
    rw [BitVec.toNat_ofNat, Nat.mod_eq_of_lt (by omega)] at hNat
    exact absurd hNat (Nat.succ_ne_zero k)
  obtain ⟨r, s, hRun, -, hr, -⟩ :=
    vsnprintf_content k 0x1000#64 (BitVec.ofNat 64 (k + 1)) 0x100000000000 [] (letters k)
      (List.replicate k (.ordinary (chr 'a') letter)) [] (List.replicate k (chr 'a')) hSome
      (by decide) (by rw [hTake]; show 0x1000 + k < 2 ^ 64; omega)
      (by rw [hTake]; exact letters_stored k hk) .nil
      (expand_ordinary _ _ _) (by rw [List.length_replicate])
  rw [hTake] at hr
  exact ⟨s, hr ▸ hRun⟩

/-- 2 ^ 31 letters are printed, but the result is negative. -/
theorem vsnprintf_negative :
    Stored (ByteMem.InBlock 0x1000#64 (2 ^ 31 + 1)) (letters (2 ^ 31)) 0x100000000000
        (bytes (List.replicate (2 ^ 31) (.ordinary (chr 'a') letter))) ∧
      expand (List.replicate (2 ^ 31) (.ordinary (chr 'a') letter)) [] =
        some (List.replicate (2 ^ 31) (chr 'a')) ∧
      ∃ r s, vsnprintf (2 ^ 31) 0x1000#64 (BitVec.ofNat 64 (2 ^ 31 + 1)) 0x100000000000 []
          (letters (2 ^ 31)) = some (r, s) ∧
        r.toInt ≠ min (2 ^ 31) (2 ^ 31 + 1 - 1) := by
  obtain ⟨s, hRun⟩ := letters_printed (2 ^ 31) (by norm_num)
  exact ⟨letters_stored _ (by norm_num), expand_ordinary _ _ _, _, s, hRun, by decide⟩

end AbstractMachine.Klib
