import AbstractMachine.Lib.SignedWord
import AbstractMachine.Klib.Stdio.Printf

/-!
# `atoi` of klib

`atoi` adds the code of a character before it subtracts that of `'0'`, so that
what is computed on the way is 48 more than what comes out.  There is no sign,
though `int2str` prints one.
-/

namespace AbstractMachine.Klib

open AbstractMachine.Lib

variable {w : Nat}

/-! ## The function -/

/-- The test of the loop.  Characters from 128 on fail it, whether `char` is signed
or not. -/
def isDigit (c : BitVec 8) : Bool := decide (chr '0' ≤ c) && decide (c ≤ chr '9')

/-- `while (*nptr == ' ') nptr++;` -/
def skipSpaces (m : ByteMem w) : Nat → BitVec w → Option (BitVec w)
  | 0, _ => none
  | fuel + 1, nptr => if m nptr = chr ' ' then skipSpaces m fuel (nptr + 1) else some nptr

/-- The results of `*`, `+` and `-` in `x * 10 + *nptr - '0'`, as integers. -/
def intResults (x : BitVec 32) (c : BitVec 8) : List Int :=
  [x.toInt * 10, x.toInt * 10 + c.toNat, x.toInt * 10 + c.toNat - (chr '0').toNat]

/-- The second loop: `x` as the machine computes it, and the integers that it has to
hold on the way. -/
def atoiLoop (m : ByteMem w) : Nat → BitVec w → BitVec 32 → Option (BitVec 32 × List Int)
  | 0, _, _ => none
  | fuel + 1, nptr, x =>
      let c := m nptr
      if isDigit c then
        (atoiLoop m fuel (nptr + 1) (x * 10 + c.setWidth 32 - (chr '0').setWidth 32)).map
          fun (r, is) => (r, intResults x c ++ is)
      else some (x, [])

/-- `atoi`, with the values of the products and sums it forms on the way. -/
def atoi (fuel : Nat) (nptr : BitVec w) (m : ByteMem w) : Option (BitVec 32 × List Int) :=
  (skipSpaces m fuel nptr).bind fun nptr => atoiLoop m fuel nptr 0

/-! ## Digits -/

/-- `v`, with the digits of `l` behind it. -/
def numeralFrom (v : Nat) (l : List (BitVec 8)) : Nat :=
  l.foldl (fun v c => 10 * v + (c.toNat - 48)) v

/-- What a row of digits stands for. -/
def numeral (l : List (BitVec 8)) : Nat := numeralFrom 0 l

/-- The integers that an `int` has. -/
def InInt (i : Int) : Prop := -2147483648 ≤ i ∧ i ≤ 2147483647

variable {m : ByteMem w} {p : BitVec w} {l : List (BitVec 8)} {c : BitVec 8} {x : BitVec 32}
  {k v fuel : Nat} {R : BitVec w → Prop}

private theorem numeralFrom_cons :
    numeralFrom v (c :: l) = numeralFrom (10 * v + (c.toNat - 48)) l := by
  unfold numeralFrom
  rw [List.foldl_cons]

private theorem le_numeralFrom : v ≤ numeralFrom v l := by
  induction l generalizing v with
  | nil => exact Nat.le_refl v
  | cons c l ih =>
      rw [numeralFrom_cons]
      exact Nat.le_trans (by omega) ih

private theorem isDigit_iff : isDigit c = true ↔ 48 ≤ c.toNat ∧ c.toNat ≤ 57 := by
  unfold isDigit
  rw [Bool.and_eq_true, decide_eq_true_eq, decide_eq_true_eq, BitVec.le_def, BitVec.le_def]
  rfl

/-! ## Decimal numerals -/

private theorem numeral_concat : numeral (l ++ [c]) = 10 * numeral l + (c.toNat - 48) := by
  unfold numeral numeralFrom
  rw [List.foldl_append, List.foldl_cons, List.foldl_nil]

private theorem toNat_digit {d : Nat} (hd : d < 10) :
    (BitVec.ofNat 8 d + chr '0').toNat = d + 48 := by
  have hZero : (chr '0').toNat = 48 := rfl
  have hSmall : d < 2 ^ 8 := by omega
  rw [BitVec.toNat_add, BitVec.toNat_ofNat, Nat.mod_eq_of_lt hSmall, hZero]
  exact Nat.mod_eq_of_lt (by omega)

/-- The digits of a number, from the last one on. -/
theorem numeral_digits {ds : List Nat} (hDigits : ∀ d ∈ ds, d < 10) :
    numeral (ds.map fun d => BitVec.ofNat 8 d + chr '0').reverse = Nat.ofDigits 10 ds := by
  induction ds with
  | nil => rfl
  | cons d ds ih =>
      have hRest := ih fun e hMem => hDigits e (List.mem_cons_of_mem d hMem)
      rw [List.map_cons, List.reverse_cons, numeral_concat, hRest,
        toNat_digit (hDigits d List.mem_cons_self), Nat.ofDigits_cons, Nat.add_sub_cancel,
        Nat.add_comm]

private theorem isDigit_magnitude {n : Int} (hMem : c ∈ magnitude n) : isDigit c = true := by
  obtain ⟨d, hd, rfl⟩ := List.mem_map.mp (List.mem_reverse.mp hMem)
  have hLt : d < 10 := Nat.digits_lt_base (by decide) hd
  rw [isDigit_iff, toNat_digit hLt]
  omega

private theorem numeral_magnitude (n : Int) : numeral (magnitude n) = n.natAbs := by
  unfold magnitude
  rw [numeral_digits fun d hd => Nat.digits_lt_base (by decide) hd, Nat.ofDigits_digits]

/-- The numeral of a number that is not negative. -/
theorem decimal_digits {n : Int} (hn : 0 ≤ n) :
    (∀ c ∈ decimal n, isDigit c = true) ∧ numeral (decimal n) = n.natAbs := by
  rcases Int.lt_or_eq_of_le hn with hPos | rfl
  · rw [decimal_pos hPos]
    exact ⟨fun c hMem => isDigit_magnitude hMem, numeral_magnitude n⟩
  · exact ⟨by decide, by decide⟩

private theorem decimal_chars (n : Int) : ∀ c ∈ decimal n, c ≠ 0 := by
  have hDigit : ∀ c, isDigit c = true → c ≠ 0 := by
    rintro c hc rfl
    revert hc
    decide
  intro c hMem
  by_cases hn : 0 ≤ n
  · exact hDigit c ((decimal_digits hn).1 c hMem)
  · rw [decimal_neg (by omega)] at hMem
    rcases List.mem_cons.mp hMem with rfl | hMag
    · decide
    · exact hDigit c (isDigit_magnitude hMag)

/-- A sign and ten digits. -/
theorem length_decimal (v : BitVec 32) : (decimal v.toInt).length ≤ 11 := by
  have hLow := BitVec.le_two_mul_toInt (x := v)
  have hHigh := BitVec.two_mul_toInt_lt (x := v)
  have hMagnitude : (magnitude v.toInt).length ≤ 10 := by
    unfold magnitude
    rw [List.length_reverse, List.length_map]
    apply (Nat.digits_length_le_iff (by decide) _).mpr
    omega
  rcases Int.lt_trichotomy v.toInt 0 with hNeg | hZero | hPos
  · rw [decimal_neg hNeg, List.length_cons]
    omega
  · rw [hZero]
    decide
  · rw [decimal_pos hPos]
    omega

/-! ## The loops -/

/-- What does not begin with a space is left. -/
theorem skipSpaces_stored (hHead : l.head? ≠ some (chr ' '))
    (h : Stored R m p (List.replicate k (chr ' ') ++ l)) (hFuel : k < fuel) :
    skipSpaces m fuel p = some (p + BitVec.ofNat w k) := by
  induction k generalizing p fuel with
  | zero =>
      obtain ⟨fuel, rfl⟩ : ∃ f, fuel = f + 1 := Nat.exists_eq_add_one_of_ne_zero (by omega)
      have hStop : m p ≠ chr ' ' := by
        cases l with
        | nil =>
            rw [h.2]
            decide
        | cons c l =>
            rw [h.2.1]
            exact fun hSpace => hHead (congrArg some hSpace)
      rw [skipSpaces, if_neg hStop, BitVec.add_zero]
  | succ k ih =>
      obtain ⟨fuel, rfl⟩ : ∃ f, fuel = f + 1 := Nat.exists_eq_add_one_of_ne_zero (by omega)
      obtain ⟨-, hSpace, -, hRest⟩ := h
      rw [skipSpaces, if_pos hSpace, ih hRest (by omega), Store.add_one_ofNat]

/-- One turn, as long as the number stays small enough. -/
theorem atoi_turn (hc : isDigit c = true) (hFit : 10 * v + (c.toNat - 48) ≤ 2147483647) :
    BitVec.ofNat 32 v * 10 + c.setWidth 32 - (chr '0').setWidth 32 =
        BitVec.ofNat 32 (10 * v + (c.toNat - 48)) ∧
      ((∀ i ∈ intResults (BitVec.ofNat 32 v) c, InInt i) ↔
        10 * v + (c.toNat - 48) + 48 ≤ 2147483647) := by
  obtain ⟨hLow, hHigh⟩ := isDigit_iff.mp hc
  have hZero : (chr '0').toNat = 48 := rfl
  constructor
  · have hCode : (c.setWidth 32).toNat = c.toNat := by
      rw [BitVec.toNat_setWidth]
      exact Nat.mod_eq_of_lt (by omega)
    have hTen : (BitVec.ofNat 32 v * 10).toNat = 10 * v := by
      have hFactor : (10 : BitVec 32).toNat = 10 := rfl
      rw [BitVec.toNat_mul, SignedWord.toNat_ofNat (by omega), hFactor, Nat.mul_comm]
      exact Nat.mod_eq_of_lt (by omega)
    have hSum : (BitVec.ofNat 32 v * 10 + c.setWidth 32).toNat = 10 * v + c.toNat := by
      rw [BitVec.toNat_add, hTen, hCode]
      exact Nat.mod_eq_of_lt (by omega)
    have hLe : (chr '0').setWidth 32 ≤ BitVec.ofNat 32 v * 10 + c.setWidth 32 := by
      rw [BitVec.le_def, hSum]
      show 48 ≤ 10 * v + c.toNat
      omega
    apply BitVec.eq_of_toNat_eq
    rw [BitVec.toNat_sub_of_le hLe, hSum, SignedWord.toNat_ofNat (by omega)]
    show 10 * v + c.toNat - 48 = 10 * v + (c.toNat - 48)
    omega
  · have hInt : (BitVec.ofNat 32 v).toInt = v := SignedWord.toInt_ofNat (by omega)
    unfold intResults
    simp only [List.forall_mem_cons, List.not_mem_nil, hInt, hZero, InInt]
    constructor
    · rintro ⟨-, ⟨-, hPlus⟩, -⟩
      omega
    · intro hLe
      refine ⟨by omega, by omega, by omega, nofun⟩

/-- The loop on a row of digits: what it returns, and when all of it fits. -/
theorem atoiLoop_digits (h : Stored R m p l) (hl : ∀ c ∈ l, isDigit c = true)
    (hFit : numeralFrom v l ≤ 2147483647) (hFuel : l.length < fuel) :
    ∃ is, atoiLoop m fuel p (BitVec.ofNat 32 v) = some (BitVec.ofNat 32 (numeralFrom v l), is) ∧
      ((∀ i ∈ is, InInt i) ↔ l = [] ∨ numeralFrom v l + 48 ≤ 2147483647) := by
  induction l generalizing p v fuel with
  | nil =>
      obtain ⟨fuel, rfl⟩ : ∃ f, fuel = f + 1 := Nat.exists_eq_add_one_of_ne_zero (by omega)
      have hNul : m p = 0 := h.2
      refine ⟨[], ?_, iff_of_true nofun (Or.inl rfl)⟩
      rw [atoiLoop, hNul, if_neg (by decide)]
      rfl
  | cons c l ih =>
      obtain ⟨fuel, rfl⟩ : ∃ f, fuel = f + 1 := Nat.exists_eq_add_one_of_ne_zero (by omega)
      obtain ⟨-, hChar, -, hRest⟩ := h
      have hc : isDigit c = true := hl c List.mem_cons_self
      rw [numeralFrom_cons] at hFit ⊢
      have hSmall : 10 * v + (c.toNat - 48) ≤ numeralFrom (10 * v + (c.toNat - 48)) l :=
        le_numeralFrom
      obtain ⟨hStep, hRange⟩ := atoi_turn (v := v) hc (Nat.le_trans hSmall hFit)
      obtain ⟨is, hLoop, hLater⟩ := ih hRest (fun c' hMem => hl c' (List.mem_cons_of_mem c hMem))
        hFit (Nat.lt_of_succ_lt_succ hFuel)
      refine ⟨intResults (BitVec.ofNat 32 v) c ++ is, ?_, ?_⟩
      · rw [atoiLoop, hChar, if_pos hc, hStep, hLoop]
        rfl
      · rw [List.forall_mem_append, hRange, hLater]
        constructor
        · rintro ⟨hHere, rfl | hEnd⟩
          · exact Or.inr hHere
          · exact Or.inr hEnd
        · rintro (hNil | hEnd)
          · cases hNil
          · exact ⟨by omega, Or.inr hEnd⟩

/-! ## Numbers in a string -/

/-- The call ends with `v`, and no `int` on the way is out of range. -/
def Returns (nptr : BitVec w) (m : ByteMem w) (v : Int) : Prop :=
  ∃ k, ∀ fuel, k ≤ fuel → ∃ x is, atoi fuel nptr m = some (x, is) ∧ x.toInt = v ∧
    ∀ i ∈ is, InInt i

private theorem space_not_digit (hl : ∀ c ∈ l, isDigit c = true) : l.head? ≠ some (chr ' ') := by
  intro hSpace
  have hDigit := hl _ (List.mem_of_mem_head? hSpace)
  revert hDigit
  decide

private theorem atoi_digits (k : Nat) (h : Stored R m p (List.replicate k (chr ' ') ++ l))
    (hl : ∀ c ∈ l, isDigit c = true) (hMax : numeral l ≤ 2147483647)
    (hFuel : k + l.length < fuel) :
    ∃ is, atoi fuel p m = some (BitVec.ofNat 32 (numeral l), is) ∧
      ((∀ i ∈ is, InInt i) ↔ numeral l ≤ 2147483599) := by
  have hRest : Stored R m (p + BitVec.ofNat w k) l := by
    have hAppend := h.append
    rwa [List.length_replicate] at hAppend
  have hDigits : l.length < fuel := by omega
  obtain ⟨is, hLoop, hRange⟩ := atoiLoop_digits (v := 0) hRest hl hMax hDigits
  refine ⟨is, ?_, ?_⟩
  · unfold atoi
    rw [skipSpaces_stored (space_not_digit hl) h (by omega)]
    exact hLoop
  · rw [hRange]
    constructor
    · rintro (rfl | hEnd)
      · exact Nat.zero_le _
      · exact Nat.le_of_add_le_add_right hEnd
    · intro hLe
      exact Or.inr (Nat.add_le_add_right hLe 48)

private theorem returns_bound (k : Nat) (h : Stored R m p (List.replicate k (chr ' ') ++ l))
    (hl : ∀ c ∈ l, isDigit c = true) (hMax : numeral l ≤ 2147483647)
    (hReturns : Returns p m (numeral l)) : numeral l ≤ 2147483599 := by
  obtain ⟨j, hRuns⟩ := hReturns
  have hFuel : k + l.length < max j (k + l.length + 1) := by omega
  obtain ⟨x, is, hRun, -, hIn⟩ := hRuns (max j (k + l.length + 1)) (Nat.le_max_left _ _)
  obtain ⟨is', hRun', hRange⟩ := atoi_digits k h hl hMax hFuel
  cases hRun.symm.trans hRun'
  exact hRange.mp hIn

/--
**`atoi`.** Any number of spaces and any number of digits, for a number that `int`
holds.  The sum with the code of the last digit is 48 above the number, so that
all results are in range exactly for the numbers up to `INT_MAX - '0'`.
-/
theorem atoi_in_range_iff (k : Nat)
    (h : Stored (fun _ => False) m p (List.replicate k (chr ' ') ++ l))
    (hl : ∀ c ∈ l, isDigit c = true) (hMax : numeral l ≤ 2147483647) :
    Returns p m (numeral l) ↔ numeral l ≤ 2147483599 := by
  constructor
  · exact returns_bound k h hl hMax
  · intro hLe
    refine ⟨k + l.length + 1, fun fuel hFuel => ?_⟩
    obtain ⟨is, hRun, hRange⟩ := atoi_digits k h hl hMax hFuel
    exact ⟨_, is, hRun, SignedWord.toInt_ofNat (by omega), hRange.mpr hLe⟩

theorem atoi_in_range_iff_padded :
    Returns 0x1000#32 (fun x => [chr ' ', chr '0', chr '4', chr '2'].getD (x - 0x1000).toNat 0)
      42 := by
  have hText : Stored (fun _ => False)
      (fun x => [chr ' ', chr '0', chr '4', chr '2'].getD (x - 0x1000#32).toNat 0) 0x1000
      (List.replicate 1 (chr ' ') ++ [chr '0', chr '4', chr '2']) :=
    stored_getD (by decide) (by decide) fun _ _ => not_false
  exact (atoi_in_range_iff 1 hText (by decide) (by decide)).mpr (by decide)

/-- The largest `int`. -/
def INT_MAX : BitVec 32 := 0x7fffffff

/-- `"2147483647"`. -/
theorem atoi_out_of_range :
    ¬ ∀ (p : BitVec 32) (m : ByteMem 32) (k : Nat) (l : List (BitVec 8)),
      Stored (fun _ => False) m p (List.replicate k (chr ' ') ++ l) →
      (∀ c ∈ l, isDigit c = true) → numeral l ≤ 2147483647 → Returns p m (numeral l) := by
  intro hAll
  obtain ⟨hDigits, hNumeral⟩ := decimal_digits (n := INT_MAX.toInt) (by decide)
  have hLen := length_decimal INT_MAX
  have hText : Stored (fun _ => False)
      (fun x => (decimal INT_MAX.toInt).getD (x - 0x1000#32).toNat 0) 0x1000
      (List.replicate 0 (chr ' ') ++ decimal INT_MAX.toInt) :=
    stored_getD (decimal_chars _) (by omega) fun _ _ => not_false
  have hMax : numeral (decimal INT_MAX.toInt) ≤ 2147483647 := by
    rw [hNumeral]
    decide
  have hBound := returns_bound 0 hText hDigits hMax (hAll 0x1000 _ 0 _ hText hDigits hMax)
  rw [hNumeral] at hBound
  exact absurd hBound (by decide)

/-! ## Printing and reading -/

theorem Content.stored {m' : ByteMem w} {out : BitVec w} (h : Content m m' out l)
    (hl : ∀ c ∈ l, c ≠ 0) : Stored (fun _ => False) m' out l :=
  stored_of_bytes hl h.text h.nul fun _ _ => not_false

private theorem letter_d : chr 'd' ≠ 0 := by decide

/-- `"%d"`. -/
def percentD : Piece := .directive (chr 'd') letter_d

private theorem expand_percentD (x : BitVec 32) :
    expand [percentD] [.int x] = some (decimal x.toInt) := by
  show some (decimal x.toInt ++ []) = _
  rw [List.append_nil]

/-- Behind a sign `atoi` finds no digit. -/
theorem atoi_minus (h : Stored R m p (chr '-' :: l)) (hFuel : 0 < fuel) :
    atoi fuel p m = some (0, []) := by
  obtain ⟨fuel, rfl⟩ : ∃ f, fuel = f + 1 := Nat.exists_eq_add_one_of_ne_zero (by omega)
  obtain ⟨-, hSign, -⟩ := h
  have hSpaces : skipSpaces m (fuel + 1) p = some p := by
    rw [skipSpaces, if_neg]
    rw [hSign]
    decide
  unfold atoi
  rw [hSpaces, Option.bind_some, atoiLoop, hSign, if_neg (by decide)]

/-- What `atoi` makes of a numeral: the number, or zero for a negative one. -/
theorem atoi_decimal (h : Stored R m p (decimal x.toInt))
    (hFuel : (decimal x.toInt).length < fuel) :
    ∃ r is, atoi fuel p m = some (r, is) ∧ (r = x ↔ 0 ≤ x.toInt) ∧
      ((∀ i ∈ is, InInt i) ↔ x.toInt ≤ 2147483599) := by
  by_cases hSign : 0 ≤ x.toInt
  · obtain ⟨hDigits, hNumeral⟩ := decimal_digits hSign
    have hInt : 2 * x.toInt < 2 ^ 32 := BitVec.two_mul_toInt_lt
    have hMax : numeral (decimal x.toInt) ≤ 2147483647 := by
      rw [hNumeral]
      omega
    obtain ⟨is, hRun, hRange⟩ := atoi_digits (l := decimal x.toInt) 0 h hDigits hMax
      (by rwa [Nat.zero_add])
    refine ⟨_, is, hRun, iff_of_true ?_ hSign, ?_⟩
    · apply BitVec.eq_of_toInt_eq
      rw [SignedWord.toInt_ofNat (by omega), hNumeral]
      omega
    · rw [hRange, hNumeral]
      omega
  · rw [decimal_neg (by omega)] at h
    refine ⟨0, [], atoi_minus h (Nat.lt_of_le_of_lt (Nat.zero_le _) hFuel), ?_, ?_⟩
    · apply iff_of_false _ hSign
      rintro rfl
      exact hSign (Int.le_refl 0)
    · exact iff_of_true nofun (by omega)

private theorem sprintf_decimal {out fmt : BitVec w} (v : BitVec 32)
    (hCall : ScanCall out fmt [.int v] m [percentD] [.int v] (decimal v.toInt).length) :
    ∃ k, ∀ fuel, k ≤ fuel → (decimal v.toInt).length < fuel ∧ ∃ n s,
      sprintf fuel out fmt [.int v] m = some (n, s) ∧
      Stored (fun _ => False) s.mem out (decimal v.toInt) := by
  obtain ⟨k, hRuns⟩ := sprintf_scanned (expand_percentD v) hCall
  refine ⟨max k ((decimal v.toInt).length + 1), fun fuel hFuel => ⟨by omega, ?_⟩⟩
  obtain ⟨s, hPrint, hContent⟩ := hRuns fuel (by omega)
  exact ⟨_, s, hPrint, hContent.stored (decimal_chars v.toInt)⟩

/--
**`sprintf("%d")` and `atoi`.** For every `int` both calls end.  `atoi` returns the
number that was printed exactly when it is not negative, and without an `int` out
of range on the way when it is also at most `INT_MAX - '0'`.
-/
theorem sprintf_atoi_iff {out fmt : BitVec w} (v : BitVec 32)
    (hCall : ScanCall out fmt [.int v] m [percentD] [.int v] (decimal v.toInt).length) :
    ∃ k, ∀ fuel, k ≤ fuel → ∃ n s x is, sprintf fuel out fmt [.int v] m = some (n, s) ∧
      atoi fuel out s.mem = some (x, is) ∧ (x = v ↔ 0 ≤ v.toInt) ∧
      ((x = v ∧ ∀ i ∈ is, InInt i) ↔ 0 ≤ v.toInt ∧ v.toInt ≤ 2147483599) := by
  obtain ⟨k, hRuns⟩ := sprintf_decimal v hCall
  refine ⟨k, fun fuel hFuel => ?_⟩
  obtain ⟨hEnough, n, s, hPrint, hText⟩ := hRuns fuel hFuel
  obtain ⟨x, is, hRead, hValue, hRange⟩ := atoi_decimal hText hEnough
  exact ⟨n, s, x, is, hPrint, hRead, hValue, by rw [hValue, hRange]⟩

/-- `"%d"` at 0x1000. -/
def percentMem : ByteMem 32 := fun x => (bytes [percentD]).getD (x - 0x1000).toNat 0

private theorem percentMem_scanCall (v : BitVec 32) :
    ScanCall 0x2000#32 0x1000 [.int v] percentMem [percentD] [.int v]
      (decimal v.toInt).length := by
  have hLen := length_decimal v
  have hObject : (0x2000#32).toNat + ((decimal v.toInt).length + 1) ≤ 2 ^ 32 := by
    show 0x2000 + ((decimal v.toInt).length + 1) ≤ 2 ^ 32
    omega
  have hFmt : Stored (ByteMem.InBlock 0x2000#32 ((decimal v.toInt).length + 1)) percentMem 0x1000
      (bytes [percentD]) := by
    apply stored_getD
    · decide
    · decide
    · intro i hi hIn
      have hShort : i ≤ 2 := hi
      rw [ByteMem.inBlock_iff hObject] at hIn
      bv_omega
  exact ⟨by decide, hObject, .of_stored hFmt, .cons rfl .nil⟩

theorem sprintf_atoi_iff_percentMem :
    ∃ fuel n s x is, sprintf fuel 0x2000#32 0x1000 [.int 42] percentMem = some (n, s) ∧
      atoi fuel 0x2000#32 s.mem = some (x, is) ∧ x = 42 := by
  obtain ⟨k, hRuns⟩ := sprintf_atoi_iff 42 (percentMem_scanCall 42)
  obtain ⟨n, s, x, is, hPrint, hRead, hValue, -⟩ := hRuns k (Nat.le_refl k)
  exact ⟨k, n, s, x, is, hPrint, hRead, hValue.mpr (by decide)⟩

/-- `-1` is not read back. -/
theorem atoi_unsigned :
    ¬ ∀ (out fmt : BitVec 32) (v : BitVec 32) (m : ByteMem 32),
      ScanCall out fmt [.int v] m [percentD] [.int v] (decimal v.toInt).length →
      ∃ k, ∀ fuel, k ≤ fuel → ∃ n s x is, sprintf fuel out fmt [.int v] m = some (n, s) ∧
        atoi fuel out s.mem = some (x, is) ∧ x = v := by
  intro hAll
  have hCall := percentMem_scanCall (-1)
  obtain ⟨k, hRuns⟩ := hAll 0x2000 0x1000 (-1) percentMem hCall
  obtain ⟨j, hTexts⟩ := sprintf_decimal (-1) hCall
  obtain ⟨n, s, x, is, hPrint, hRead, hValue⟩ := hRuns (max k j) (Nat.le_max_left k j)
  obtain ⟨hEnough, n', s', hPrint', hText⟩ := hTexts (max k j) (Nat.le_max_right k j)
  obtain ⟨x', is', hRead', hIff, -⟩ := atoi_decimal hText hEnough
  cases hPrint.symm.trans hPrint'
  cases hRead.symm.trans hRead'
  exact absurd (hIff.mp hValue) (by decide)

end AbstractMachine.Klib
