import AbstractMachine.Klib.Stdio.Return

/-!
# `printf` and `sprintf`

`printf` prints into a buffer of its own and passes what stands there to
`putch`; `sprintf` prints without a bound.  The text is the same up to the 1023
characters that the buffer has room for.

The text is that of the pieces which the scan finds.  Behind a `'%'` at the end
of the format it goes on after the terminator, in both calls alike.
-/

namespace AbstractMachine.Klib

open AbstractMachine.Lib

variable {w : Nat}

/-- `char buf[1024] = {0}`. -/
def zeroed (buf : BitVec w) (m : ByteMem w) : ByteMem w := fun x =>
  if ByteMem.InBlock buf 1024 x then 0 else m x

/-- The result, and the characters passed to `putch`, for a buffer at `buf`. -/
def printf (fuel : Nat) (buf fmt : BitVec w) (args : List (Arg w)) (m : ByteMem w) :
    Option (BitVec 32 × List (BitVec 8)) :=
  (vsnprintf fuel buf 1024 fmt args (zeroed buf m)).map fun (n, s) =>
    (n, (List.range (n.signExtend w).toNat).map fun i => s.mem (buf + BitVec.ofNat w i))

/-! ## What the scan finds -/

/-- The pieces that the scan finds from `fmt` on. -/
inductive Scanned (R : BitVec w → Prop) (m : ByteMem w) : BitVec w → List Piece → Prop where
  | nul {fmt : BitVec w} (h : Stored R m fmt []) : Scanned R m fmt []
  | piece {fmt : BitVec w} {ps : List Piece} (P : Piece) (rest : List (BitVec 8))
      (h : Stored R m fmt (P.bytes ++ rest))
      (hNext : Scanned R m (fmt + BitVec.ofNat w P.bytes.length) ps) : Scanned R m fmt (P :: ps)
  /-- The terminator behind a `'%'` is skipped. -/
  | lone {fmt : BitVec w} {ps : List Piece} (h : Stored R m fmt [chr '%'])
      (hNext : Scanned R m (fmt + 1 + 1) ps) : Scanned R m fmt ps

variable {n out fmt buf : BitVec w} {s s' : State w} {text : List (BitVec 8)}
  {R R' : BitVec w → Prop} {m m' : ByteMem w} {ap : List (Arg w)} {ps : List Piece}
  {vs : List Value}

/-- A format of complete pieces. -/
theorem Scanned.of_stored (h : Stored R m fmt (bytes ps)) : Scanned R m fmt ps := by
  induction ps generalizing fmt with
  | nil => exact .nul h
  | cons P ps ih => exact .piece P (bytes ps) h (ih h.append)

theorem Scanned.frame (hSame : ∀ x, ¬ R x → m' x = m x) (h : Scanned R m fmt ps) :
    Scanned R m' fmt ps := by
  induction h with
  | nul h => exact .nul (h.frame hSame)
  | piece P rest h _ ih => exact .piece P rest (h.frame hSame) ih
  | lone h _ ih => exact .lone (h.frame hSame) ih

theorem Scanned.mono (hR : ∀ x, R' x → R x) (h : Scanned R m fmt ps) : Scanned R' m fmt ps := by
  induction h with
  | nul h => exact .nul (h.mono hR)
  | piece P rest h _ ih => exact .piece P rest (h.mono hR) ih
  | lone h _ ih => exact .lone (h.mono hR) ih

/-! ## What is printed -/

/-- From `fmt` on, the loop prints the text of `ps`, as far as there is room, as
long as memory outside of `R` is `m`. -/
def Prints (R : BitVec w → Prop) (n : BitVec w) (m : ByteMem w) (fmt : BitVec w)
    (ps : List Piece) : Prop :=
  ∀ (s : State w) (vs : List Value) (text : List (BitVec 8)), s.fmt = fmt →
    (∀ x, ¬ R x → s.store.mem x = m x) → List.Forall₂ (Holds R m) s.ap vs →
    expand ps vs = some text → s.count ≤ n - 1 → Fits R n s text →
    ∃ k, ∀ fuel, k ≤ fuel → Printed n s (turns n fuel s) (text.take (n - 1 - s.count).toNat)

private theorem printed_full (hCount : s.count ≤ n - 1) (hRoom : n - 1 - s.count = 0) (fuel : Nat) :
    Printed n s (turns n fuel s) (text.take (n - 1 - s.count).toNat) := by
  have hStopped := (full_stopped hCount hRoom).2
  rw [hRoom, toNat_zero, List.take_zero, turns_stopped hStopped]
  exact printed_nil hStopped

/-- After a first turn. -/
theorem turns_step {k : Nat} {t : List (BitVec 8)} (hRunning : running n s = true)
    (hBody : body n s = some s')
    (h : ∀ fuel, k ≤ fuel → Printed n s (turns n fuel s') t) :
    ∀ fuel, k + 1 ≤ fuel → Printed n s (turns n fuel s) t := by
  intro fuel hFuel
  obtain ⟨f, rfl⟩ : ∃ f, fuel = f + 1 := Nat.exists_eq_add_one_of_ne_zero (by omega)
  rw [turns, if_pos hRunning, hBody]
  exact h f (Nat.le_of_succ_le_succ hFuel)

private theorem prints_nul (h : Stored R m fmt []) : Prints R n m fmt [] := by
  intro s vs text hFmt hSame _ hText _ _
  cases hText
  have hNul : s.store.mem s.fmt = 0 := by
    rw [hFmt, hSame fmt h.1]
    exact h.2
  have hStopped : running n s = false := end_stopped hNul
  refine ⟨0, fun fuel _ => ?_⟩
  rw [List.take_nil, turns_stopped hStopped]
  exact printed_nil hStopped

private theorem prints_piece {P : Piece} {rest : List (BitVec 8)}
    (h : Stored R m fmt (P.bytes ++ rest))
    (hNext : Prints R n m (fmt + BitVec.ofNat w P.bytes.length) ps) :
    Prints R n m fmt (P :: ps) := by
  intro s vs text hFmt hSame hArgs hText hCount hFits
  by_cases hRoom : n - 1 - s.count = 0
  · exact ⟨0, fun fuel _ => printed_full hCount hRoom fuel⟩
  · obtain ⟨l, vs', more, hPiece, hMore, rfl⟩ := expand_cons hText
    have hHere : Stored R s.store.mem s.fmt (P.bytes ++ rest) := hFmt ▸ h.frame hSame
    obtain ⟨s', tail, hTurn⟩ :=
      piece_turn hHere (holds_frame hSame hArgs) hPiece hCount hRoom hFits
    have hSame' : ∀ x, ¬ R x → s'.store.mem x = m x := fun x hx =>
      (hTurn.frame x hx).trans (hSame x hx)
    have hArgs' : List.Forall₂ (Holds R m) s'.ap vs' :=
      holds_frame (fun x hx => (hSame' x hx).symm) hTurn.args
    obtain ⟨k, hPrinted⟩ := hNext s' vs' more (hTurn.fmt.trans (by rw [hFmt])) hSame' hArgs'
      hMore hTurn.count hTurn.fits
    refine ⟨k + 1, turns_step (running_piece hHere hCount hRoom) hTurn.body ?_⟩
    intro fuel hFuel
    rw [take_append_room, ← hTurn.room]
    exact (hPrinted fuel hFuel).cons hTurn.emitted hTurn.nul

private theorem prints_lone (h : Stored R m fmt [chr '%']) (hNext : Prints R n m (fmt + 1 + 1) ps) :
    Prints R n m fmt ps := by
  intro s vs text hFmt hSame hArgs hText hCount hFits
  by_cases hRoom : n - 1 - s.count = 0
  · exact ⟨0, fun fuel _ => printed_full hCount hRoom fuel⟩
  · obtain ⟨-, hPercent, -, -, hNul⟩ : Stored R s.store.mem s.fmt [chr '%'] :=
      hFmt ▸ h.frame hSame
    have hRunning : running n s = true := by
      unfold running
      rw [hPercent, decide_eq_true (room_lt hCount hRoom)]
      decide
    have hBody : body n s = some { s with fmt := s.fmt + 1 + 1 } :=
      body_unknown hPercent hNul (by decide)
    obtain ⟨k, hPrinted⟩ := hNext { s with fmt := s.fmt + 1 + 1 } vs text (by rw [hFmt]) hSame
      hArgs hText hCount hFits
    refine ⟨k + 1, turns_step hRunning hBody ?_⟩
    intro fuel hFuel
    have hLast := hPrinted fuel hFuel
    exact ⟨hLast.stopped, hLast.count, hLast.content⟩

theorem Scanned.prints (h : Scanned R m fmt ps) : Prints R n m fmt ps := by
  induction h with
  | nul h => exact prints_nul h
  | piece P rest h _ ih => exact prints_piece h ih
  | lone h _ ih => exact prints_lone h ih

/-! ## The calls -/

/-- A buffer at `out` with room for `len` characters and the terminator, with what
the scan finds and the arguments apart from it. -/
structure ScanCall (out fmt : BitVec w) (ap : List (Arg w)) (m : ByteMem w) (ps : List Piece)
    (vs : List Value) (len : Nat) : Prop where
  nonnull : out ≠ 0
  object : out.toNat + len < 2 ^ w
  scanned : Scanned (ByteMem.InBlock out (len + 1)) m fmt ps
  args : List.Forall₂ (Holds (ByteMem.InBlock out (len + 1)) m) ap vs

variable {len : Nat}

private theorem holds_mono (hR : ∀ x, R' x → R x) (hArgs : List.Forall₂ (Holds R m) ap vs) :
    List.Forall₂ (Holds R' m) ap vs := by
  refine hArgs.imp ?_
  intro a v hHolds
  cases a <;> cases v
  · exact hHolds
  · exact hHolds
  · exact hHolds
  · exact Stored.mono hR hHolds

/-- A part of the buffer. -/
theorem ScanCall.shorten {k : Nat} (h : ScanCall out fmt ap m ps vs len) (hk : k ≤ len) :
    ScanCall out fmt ap m ps vs k := by
  have hObject := h.object
  have hSub : ∀ x, ByteMem.InBlock out (k + 1) x → ByteMem.InBlock out (len + 1) x :=
    fun x hx => Nat.lt_of_lt_of_le hx (Nat.succ_le_succ hk)
  exact ⟨h.nonnull, by omega, h.scanned.mono hSub, holds_mono hSub h.args⟩

/-- Memory changes in the buffer only. -/
theorem ScanCall.frame (hSame : ∀ x, ¬ ByteMem.InBlock out (len + 1) x → m' x = m x)
    (h : ScanCall out fmt ap m ps vs len) : ScanCall out fmt ap m' ps vs len :=
  ⟨h.nonnull, h.object, h.scanned.frame hSame, holds_frame hSame h.args⟩

private theorem vsnprintf_scanned (hn : n ≠ 0) (hText : expand ps vs = some text)
    (hCall : ScanCall out fmt ap m ps vs (text.take (n.toNat - 1)).length) :
    ∃ k, ∀ fuel, k ≤ fuel → ∃ s,
      vsnprintf fuel out n fmt ap m =
        some (BitVec.ofNat 32 (text.take (n.toNat - 1)).length, s) ∧
      Content m s.mem out (text.take (n.toNat - 1)) := by
  have hFits := enter_fits fmt ap m hn hCall.nonnull hCall.object
  obtain ⟨k, hPrinted⟩ := hCall.scanned.prints (enter out fmt ap m) vs text rfl
    (fun _ _ => rfl) hCall.args hText enter_count hFits
  rw [enter_room hn] at hPrinted
  refine ⟨k, fun fuel hFuel => vsnprintf_printed (hPrinted fuel hFuel) ?_⟩
  have hObject := hCall.object
  omega

theorem sprintf_scanned (hText : expand ps vs = some text)
    (hCall : ScanCall out fmt ap m ps vs text.length) :
    ∃ k, ∀ fuel, k ≤ fuel → ∃ s,
      sprintf fuel out fmt ap m = some (BitVec.ofNat 32 text.length, s) ∧
      Content m s.mem out text := by
  obtain ⟨hSome, hLe⟩ := neg_one_unbounded hCall.nonnull hCall.object
  have hTake : text.take ((-1 : BitVec w).toNat - 1) = text := List.take_of_length_le hLe
  have hWhole := vsnprintf_scanned (n := -1) hSome hText (by rw [hTake]; exact hCall)
  rwa [hTake] at hWhole

/-! ## What `putch` gets -/

theorem toNat_signExtend {k : Nat} (hInt : k < 2 ^ 31) (hk : k < 2 ^ w) :
    ((BitVec.ofNat 32 k).signExtend w).toNat = k := by
  have hMsb : (BitVec.ofNat 32 k).msb = false := by
    rw [BitVec.msb_eq_false_iff_two_mul_lt, BitVec.toNat_ofNat]
    omega
  have hLow : k % 2 ^ 32 = k := Nat.mod_eq_of_lt (by omega)
  rw [BitVec.signExtend_eq_setWidth_of_msb_false hMsb, BitVec.toNat_setWidth, BitVec.toNat_ofNat,
    hLow, Nat.mod_eq_of_lt hk]

/-- The characters that stand in a buffer. -/
theorem Content.map_range {l : List (BitVec 8)} (h : Content m m' out l) :
    ((List.range l.length).map fun i => m' (out + BitVec.ofNat w i)) = l := by
  apply List.ext_getElem
  · rw [List.length_map, List.length_range]
  · intro i _ hi
    rw [List.getElem_map, List.getElem_range]
    exact h.text i hi

private theorem printf_scanned (hText : expand ps vs = some text)
    (hCall : ScanCall buf fmt ap m ps vs 1023) :
    ∃ k, ∀ fuel, k ≤ fuel → printf fuel buf fmt ap m =
      some (BitVec.ofNat 32 (text.take 1023).length, text.take 1023) := by
  have hObject := hCall.object
  have hPos := toNat_pos hCall.nonnull
  have hSize : (1024 : BitVec w).toNat = 1024 := by
    show (BitVec.ofNat w 1024).toNat = 1024
    rw [BitVec.toNat_ofNat]
    exact Nat.mod_eq_of_lt (by omega)
  have hSome : (1024 : BitVec w) ≠ 0 := by
    intro hZero
    rw [hZero, toNat_zero] at hSize
    cases hSize
  have hLen : (text.take 1023).length ≤ 1023 := List.length_take_le _ _
  have hZeroed : ScanCall buf fmt ap (zeroed buf m) ps vs 1023 := by
    apply hCall.frame
    intro x hx
    exact if_neg hx
  have hPart := vsnprintf_scanned hSome hText (by
    rw [hSize]
    exact hZeroed.shorten hLen)
  rw [hSize] at hPart
  obtain ⟨k, hRun⟩ := hPart
  refine ⟨k, fun fuel hFuel => ?_⟩
  obtain ⟨s, hEq, hContent⟩ := hRun fuel hFuel
  unfold printf
  rw [hEq]
  show some (_, List.map _ (List.range
    ((BitVec.ofNat 32 (text.take 1023).length).signExtend w).toNat)) = _
  rw [toNat_signExtend (by omega) (by omega), hContent.map_range]

/--
**`printf` and `sprintf`.** For any format, with arguments that match, both calls
end.  `sprintf` stores the text and returns its length; `printf` passes the first
1023 characters of the text to `putch` and returns how many these are.  So the
two agree exactly when the text has at most 1023 characters.
-/
theorem printf_sprintf_iff (buf out fmt : BitVec w) (ap : List (Arg w)) (m : ByteMem w)
    (ps : List Piece) (vs : List Value) (text : List (BitVec 8))
    (hText : expand ps vs = some text) (hBuf : ScanCall buf fmt ap m ps vs 1023)
    (hOut : ScanCall out fmt ap m ps vs text.length) :
    ∃ k, ∀ fuel, k ≤ fuel → ∃ r chars r' s, printf fuel buf fmt ap m = some (r, chars) ∧
      sprintf fuel out fmt ap m = some (r', s) ∧
      chars = text.take 1023 ∧ r = BitVec.ofNat 32 (min 1023 text.length) ∧
      Content m s.mem out text ∧ r' = BitVec.ofNat 32 text.length ∧
      (chars = text ∧ r = r' ↔ text.length ≤ 1023) := by
  obtain ⟨k, hPrint⟩ := printf_scanned hText hBuf
  obtain ⟨k', hStore⟩ := sprintf_scanned hText hOut
  refine ⟨max k k', fun fuel hFuel => ?_⟩
  have hRun := hPrint fuel (by omega)
  obtain ⟨s, hRun', hContent⟩ := hStore fuel (by omega)
  rw [List.length_take] at hRun
  refine ⟨_, _, _, s, hRun, hRun', rfl, rfl, hContent, rfl, ?_⟩
  rw [List.take_eq_self_iff]
  constructor
  · exact And.left
  · intro hLe
    exact ⟨hLe, by rw [Nat.min_eq_right hLe]⟩

/-- `"%d%s"` at 0x1000 with -12 and `"s"`, for a buffer further up. -/
theorem number_scanCall {out : BitVec 32} (hOut : 0x1005 ≤ out.toNat)
    (hObject : out.toNat + len < 2 ^ 32) :
    ScanCall out 0x1000 [.int (-12), .ptr 0x1003] numberMem numberString
      [.int (-12), .str [chr 's']] len := by
  have hFmt : Stored (ByteMem.InBlock out (len + 1)) numberMem 0x1000 (bytes numberString) := by
    apply stored_getD
    · decide
    · decide
    · intro i hi hIn
      have hShort : i ≤ 4 := hi
      rw [ByteMem.inBlock_iff (by omega)] at hIn
      bv_omega
  have hString : Stored (ByteMem.InBlock out (len + 1)) numberMem 0x1003 [chr 's'] :=
    Stored.append (l := [chr '%', chr 'd', chr '%']) hFmt
  refine ⟨?_, hObject, .of_stored hFmt, .cons rfl (.cons hString .nil)⟩
  rintro rfl
  exact absurd hOut (by decide)

theorem printf_sprintf_iff_number :
    ∃ fuel r chars s,
      printf fuel 0x2000#32 0x1000 [.int (-12), .ptr 0x1003] numberMem = some (r, chars) ∧
      sprintf fuel 0x3000#32 0x1000 [.int (-12), .ptr 0x1003] numberMem = some (r, s) ∧
      chars = [chr '-', chr '1', chr '2', chr 's'] := by
  obtain ⟨k, hRuns⟩ := printf_sprintf_iff 0x2000#32 0x3000 0x1000 [.int (-12), .ptr 0x1003]
    numberMem numberString [.int (-12), .str [chr 's']] [chr '-', chr '1', chr '2', chr 's']
    numberString_text (number_scanCall (by decide) (by decide))
    (number_scanCall (by decide) (by decide))
  obtain ⟨r, chars, r', s, hPrint, hStore, -, -, -, -, hAgree⟩ := hRuns k (Nat.le_refl k)
  obtain ⟨hChars, hRet⟩ := hAgree.mpr (by decide)
  exact ⟨k, r, chars, s, hPrint, hRet ▸ hStore, hChars⟩

/-- The format `"aa...a"`, for a buffer low down. -/
theorem letters_scanCall {out : BitVec 64} (k : Nat) (hk : k < 2 ^ 40) (hOut : out ≠ 0)
    (hLow : out.toNat + len < 2 ^ 44) :
    ScanCall out 0x100000000000 [] (letters k)
      (List.replicate k (.ordinary (chr 'a') letter)) [] len := by
  refine ⟨hOut, by omega, .of_stored (letters_low k hk ?_), .nil⟩
  intro x hx
  rw [ByteMem.inBlock_iff (by omega)] at hx
  omega

/-- Of 1024 letters `printf` puts out 1023. -/
theorem printf_cut :
    ¬ ∀ (w : Nat) (buf out fmt : BitVec w) (ap : List (Arg w)) (m : ByteMem w) (ps : List Piece)
      (vs : List Value) (text : List (BitVec 8)), expand ps vs = some text →
      ScanCall buf fmt ap m ps vs 1023 → ScanCall out fmt ap m ps vs text.length →
      ∃ k, ∀ fuel, k ≤ fuel → ∃ r chars s, printf fuel buf fmt ap m = some (r, chars) ∧
        sprintf fuel out fmt ap m = some (r, s) ∧ Content m s.mem out chars := by
  intro hAll
  have hText := expand_ordinary (chr 'a') letter 1024
  have hBuf : ScanCall 0x1000#64 0x100000000000 [] (letters 1024)
      (List.replicate 1024 (.ordinary (chr 'a') letter)) [] 1023 :=
    letters_scanCall 1024 (by norm_num) (by decide) (by decide)
  have hOut : ScanCall 0x2000#64 0x100000000000 [] (letters 1024)
      (List.replicate 1024 (.ordinary (chr 'a') letter)) [] 1024 :=
    letters_scanCall 1024 (by norm_num) (by decide) (by decide)
  have hWhole : (List.replicate 1024 (chr 'a')).length = 1024 := List.length_replicate
  obtain ⟨k, hPrint⟩ := printf_scanned hText hBuf
  obtain ⟨k', hStore⟩ := sprintf_scanned hText (by rw [hWhole]; exact hOut)
  obtain ⟨j, hBoth⟩ := hAll _ _ _ _ _ _ _ _ _ hText hBuf (by rw [hWhole]; exact hOut)
  obtain ⟨r, chars, s, hRun, hRun', -⟩ := hBoth (max j (max k k')) (by omega)
  obtain ⟨s', hEnd, -⟩ := hStore (max j (max k k')) (by omega)
  rw [hPrint _ (by omega), List.length_take, hWhole] at hRun
  rw [hEnd, hWhole] at hRun'
  have hRet := (Prod.mk.inj (Option.some.inj hRun)).1
  rw [← (Prod.mk.inj (Option.some.inj hRun')).1] at hRet
  have hLe : BitVec.ofNat 32 (min 1023 1024) = BitVec.ofNat 32 1024 ↔ 1024 ≤ 1023 :=
    result_eq_iff (by norm_num)
  exact absurd (hLe.mp hRet) (by norm_num)

end AbstractMachine.Klib
