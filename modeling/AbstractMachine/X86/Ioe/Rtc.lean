import Mathlib.Algebra.Group.Nat.Defs

/-!
# The clock of x86-qemu

`timer_rtc` reads the six fields of the CMOS clock one after another, and the
clock may go on between any two reads.  It reads the seconds once more at the
end, and starts again when they have changed: if they have not, and no whole
minute has passed, then no second has passed since they were read first.

The six reads are the initializers of one compound literal, and C leaves open in
which order these are evaluated.  What is read before the seconds may have changed
by then, and nothing shows it.
-/

namespace AbstractMachine.X86.Rtc

/-- An `int`. -/
abbrev Word := BitVec 32

/-! ## The clock -/

/-- The fields of the CMOS clock; the year has two digits. -/
inductive Field where
  | second
  | minute
  | hour
  | day
  | month
  | year
  deriving DecidableEq, Repr

/-- A calendar: what the fields show at each second.  Only that minutes have 60
seconds is known of it, and that two digits are enough for a field. -/
structure Calendar where
  field : Nat → Field → Nat
  second : ∀ t, field t .second = t % 60
  digits : ∀ t f, field t f < 100

/-- A number of two digits, as the clock holds it. -/
def bcd (n : Nat) : BitVec 8 := BitVec.ofNat 8 (n / 10 * 16 + n % 10)

/-- The registers of the clock at the second `t`. -/
def Calendar.cmos (cal : Calendar) (t reg : Nat) : BitVec 8 :=
  match reg with
  | 0 => bcd (cal.field t .second)
  | 2 => bcd (cal.field t .minute)
  | 4 => bcd (cal.field t .hour)
  | 7 => bcd (cal.field t .day)
  | 8 => bcd (cal.field t .month)
  | 9 => bcd (cal.field t .year)
  | _ => 0

/-! ## The driver -/

/-- `AM_TIMER_RTC_T`. -/
@[ext] structure AmTimerRtc where
  year : Word
  month : Word
  day : Word
  hour : Word
  minute : Word
  second : Word
  deriving DecidableEq

/-- The order in which the program evaluates the initializers of `read_rtc_async`. -/
structure Order where
  place : Field → Nat
  lt : ∀ f, place f < 6
  inj : ∀ f g, place f = place g → f = g

/-- As the fields are written in the literal. -/
def Order.written : Order where
  place
    | .second => 0
    | .minute => 1
    | .hour => 2
    | .day => 3
    | .month => 4
    | .year => 5
  lt f := by cases f <;> decide
  inj f g h := by cases f <;> cases g <;> first | rfl | cases h

/-- As they are declared in `AM_TIMER_RTC_T`; GCC and clang take this order. -/
def Order.declared : Order where
  place
    | .year => 0
    | .month => 1
    | .day => 2
    | .hour => 3
    | .minute => 4
    | .second => 5
  lt f := by cases f <;> decide
  inj f g h := by cases f <;> cases g <;> first | rfl | cases h

section

variable (order : Order) (cal : Calendar) (now : Nat → Nat)

/-- The `n`th read of port 0x71, at the second `now n`. -/
def readRtc (reg n : Nat) : Word :=
  let ret : Word := (cal.cmos (now n) reg).setWidth 32
  (ret &&& 0xf) + (ret >>> 4) * 10

/-- The reads from the `n`th on. -/
def readRtcAsync (n : Nat) : AmTimerRtc where
  second := readRtc cal now 0 (n + order.place .second)
  minute := readRtc cal now 2 (n + order.place .minute)
  hour := readRtc cal now 4 (n + order.place .hour)
  day := readRtc cal now 7 (n + order.place .day)
  month := readRtc cal now 8 (n + order.place .month)
  year := readRtc cal now 9 (n + order.place .year) + 2000

/-- The result, and how many reads there have been then. -/
def timerRtc : Nat → Nat → Option (AmTimerRtc × Nat)
  | 0, _ => none
  | fuel + 1, n =>
      let rtc := readRtcAsync order cal now n
      let tmp := readRtc cal now 0 (n + 6)
      if tmp ≠ rtc.second then timerRtc fuel (n + 7) else some (rtc, n + 7)

end

/-! ## One instant -/

/-- What the clock shows at the second `t`. -/
def Calendar.rtc (cal : Calendar) (t : Nat) : AmTimerRtc where
  second := BitVec.ofNat 32 (cal.field t .second)
  minute := BitVec.ofNat 32 (cal.field t .minute)
  hour := BitVec.ofNat 32 (cal.field t .hour)
  day := BitVec.ofNat 32 (cal.field t .day)
  month := BitVec.ofNat 32 (cal.field t .month)
  year := BitVec.ofNat 32 (cal.field t .year) + 2000

variable {order : Order} {cal : Calendar} {now : Nat → Nat} {n t fuel i : Nat}
  {r : AmTimerRtc × Nat}

private theorem bcd_value : ∀ v, v < 100 →
    ((bcd v).setWidth 32 &&& 0xf : Word) + ((bcd v).setWidth 32 >>> 4) * 10 =
      BitVec.ofNat 32 v := by
  decide

/-- A field is read as what it is. -/
theorem readRtc_eq {f : Field} (reg : Nat)
    (hReg : cal.cmos (now n) reg = bcd (cal.field (now n) f)) :
    readRtc cal now reg n = BitVec.ofNat 32 (cal.field (now n) f) := by
  unfold readRtc
  rw [hReg]
  exact bcd_value _ (cal.digits _ f)

private theorem readRtc_second (cal : Calendar) (now : Nat → Nat) (n : Nat) :
    readRtc cal now 0 n = BitVec.ofNat 32 (cal.field (now n) .second) := readRtc_eq 0 rfl

/-- Two fields of two digits. -/
private theorem digits_inj {a b : Nat} (ha : a < 100) (hb : b < 100) :
    BitVec.ofNat 32 a = BitVec.ofNat 32 b ↔ a = b := by
  constructor
  · intro hEq
    have hNat := congrArg BitVec.toNat hEq
    rw [BitVec.toNat_ofNat, BitVec.toNat_ofNat] at hNat
    omega
  · exact congrArg _

/-- The reads show one second when each field does. -/
theorem readRtcAsync_eq_iff :
    readRtcAsync order cal now n = cal.rtc t ↔
      ∀ f, cal.field (now (n + order.place f)) f = cal.field t f := by
  have hField : ∀ f, BitVec.ofNat 32 (cal.field (now (n + order.place f)) f) =
      BitVec.ofNat 32 (cal.field t f) ↔ cal.field (now (n + order.place f)) f = cal.field t f :=
    fun f => digits_inj (cal.digits _ f) (cal.digits _ f)
  unfold readRtcAsync Calendar.rtc
  rw [AmTimerRtc.ext_iff]
  dsimp only
  rw [readRtc_second, readRtc_eq (f := .minute) 2 rfl, readRtc_eq (f := .hour) 4 rfl,
    readRtc_eq (f := .day) 7 rfl, readRtc_eq (f := .month) 8 rfl, readRtc_eq (f := .year) 9 rfl,
    BitVec.add_left_inj, hField, hField, hField, hField, hField, hField]
  constructor
  · rintro ⟨hYear, hMonth, hDay, hHour, hMinute, hSecond⟩ f
    cases f <;> assumption
  · intro h
    exact ⟨h .year, h .month, h .day, h .hour, h .minute, h .second⟩

/-! ## One iteration -/

/-- The clock goes on, and by less than a minute in the iteration from read `i` on. -/
structure Steady (now : Nat → Nat) (i : Nat) : Prop where
  mono : ∀ j k, j ≤ k → now j ≤ now k
  slow : now (i + 6) < now i + 60

/-- No second passes between the two reads of the seconds. -/
def Quiet (order : Order) (now : Nat → Nat) (i : Nat) : Prop :=
  now (i + order.place .second) = now (i + 6)

/-- Within less than a minute the seconds do not come round. -/
private theorem same_second {a b : Nat} (hLe : a ≤ b) (hLt : b < a + 60) (hMod : a % 60 = b % 60) :
    a = b := by
  omega

/-- Every read of an iteration is between the first and the last one. -/
theorem Steady.between (h : Steady now i) (order : Order) (f : Field) :
    now i ≤ now (i + order.place f) ∧ now (i + order.place f) ≤ now (i + 6) := by
  have hPlace := order.lt f
  exact ⟨h.mono _ _ (Nat.le_add_right i _), h.mono _ _ (by omega)⟩

/-- The loop ends with an iteration when no second passes between the two reads. -/
theorem Steady.same_iff (h : Steady now i) :
    readRtc cal now 0 (i + 6) = (readRtcAsync order cal now i).second ↔ Quiet order now i := by
  obtain ⟨hFirst, hLast⟩ := h.between order .second
  have hSlow := h.slow
  show _ = readRtc cal now 0 _ ↔ now _ = now _
  rw [readRtc_second, readRtc_second, digits_inj (cal.digits _ _) (cal.digits _ _), cal.second,
    cal.second]
  constructor
  · intro hMod
    exact same_second hLast (by omega) hMod.symm
  · intro hEq
    rw [hEq]

/-- What is read after the seconds is read at the last second; so is the rest, unless it
has changed. -/
theorem Steady.instant_iff (h : Steady now i) (hQuiet : Quiet order now i) :
    (∃ t, now i ≤ t ∧ t ≤ now (i + 6) ∧ readRtcAsync order cal now i = cal.rtc t) ↔
      ∀ f, order.place f < order.place .second →
        cal.field (now (i + order.place f)) f = cal.field (now (i + 6)) f := by
  have hQuiet : now (i + order.place .second) = now (i + 6) := hQuiet
  constructor
  · rintro ⟨t, hFirst, hLast, hRtc⟩ f -
    have hFields := readRtcAsync_eq_iff.mp hRtc
    have hSecond := hFields .second
    have hSlow := h.slow
    rw [hQuiet, cal.second, cal.second] at hSecond
    have hNow : t = now (i + 6) := same_second hLast (by omega) hSecond.symm
    rw [hFields f, hNow]
  · intro hKept
    refine ⟨now (i + 6), h.mono _ _ (Nat.le_add_right i 6), Nat.le_refl _, ?_⟩
    apply readRtcAsync_eq_iff.mpr
    intro f
    by_cases hBefore : order.place f < order.place .second
    · exact hKept f hBefore
    · have hAfter := h.mono (i + order.place .second) (i + order.place f) (by omega)
      have hLast := (h.between order f).2
      have hNow : now (i + order.place f) = now (i + 6) := by omega
      rw [hNow]

/-! ## The loop -/

/-- The iteration `k` is the first quiet one. -/
def FirstQuiet (order : Order) (now : Nat → Nat) (n k : Nat) : Prop :=
  Quiet order now (n + 7 * k) ∧ ∀ j, j < k → ¬ Quiet order now (n + 7 * j)

/-- The iterations behind the first one. -/
private theorem next_iteration (n k : Nat) : n + 7 + 7 * k = n + 7 * (k + 1) := by omega

private theorem timerRtc_next (hSteady : Steady now n) (hQuiet : ¬ Quiet order now n) :
    timerRtc order cal now (fuel + 1) n = timerRtc order cal now fuel (n + 7) := by
  rw [timerRtc]
  exact if_pos (mt hSteady.same_iff.mp hQuiet)

private theorem timerRtc_last (hSteady : Steady now n) (hQuiet : Quiet order now n) :
    timerRtc order cal now (fuel + 1) n = some (readRtcAsync order cal now n, n + 7) := by
  rw [timerRtc]
  exact if_neg (Decidable.not_not.mpr (hSteady.same_iff.mpr hQuiet))

theorem FirstQuiet.next {k : Nat} (h : FirstQuiet order now n (k + 1)) :
    FirstQuiet order now (n + 7) k := by
  refine ⟨?_, fun j hj => ?_⟩
  · rw [next_iteration]
    exact h.1
  · rw [next_iteration]
    exact h.2 (j + 1) (by omega)

/-- The call returns what the first quiet iteration has read. -/
theorem FirstQuiet.timerRtc {k : Nat} (h : FirstQuiet order now n k)
    (hSteady : ∀ j, Steady now (n + 7 * j)) (hFuel : k < fuel) :
    timerRtc order cal now fuel n =
      some (readRtcAsync order cal now (n + 7 * k), n + 7 * k + 7) := by
  induction k generalizing n fuel with
  | zero =>
      obtain ⟨fuel, rfl⟩ := Nat.exists_eq_add_one_of_ne_zero (by omega : fuel ≠ 0)
      exact timerRtc_last (hSteady 0) h.1
  | succ k ih =>
      obtain ⟨fuel, rfl⟩ := Nat.exists_eq_add_one_of_ne_zero (by omega : fuel ≠ 0)
      have hNext : ∀ j, Steady now (n + 7 + 7 * j) := by
        intro j
        rw [next_iteration]
        exact hSteady (j + 1)
      have hHere : Steady now n := hSteady 0
      rw [timerRtc_next hHere (h.2 0 (Nat.succ_pos k)), ih h.next hNext (by omega), next_iteration]

/-- It returns from no other. -/
theorem timerRtc_first (hSteady : ∀ j, Steady now (n + 7 * j))
    (h : timerRtc order cal now fuel n = some r) : ∃ k, k < fuel ∧ FirstQuiet order now n k := by
  induction fuel generalizing n with
  | zero => cases h
  | succ fuel ih =>
      by_cases hQuiet : Quiet order now n
      · exact ⟨0, Nat.succ_pos fuel, hQuiet, fun j hj => absurd hj (Nat.not_lt_zero j)⟩
      · have hNext : ∀ j, Steady now (n + 7 + 7 * j) := by
          intro j
          rw [next_iteration]
          exact hSteady (j + 1)
        have hHere : Steady now n := hSteady 0
        rw [timerRtc_next hHere hQuiet] at h
        obtain ⟨k, hFuel, hFirst, hBefore⟩ := ih hNext h
        refine ⟨k + 1, Nat.succ_lt_succ hFuel, ?_, ?_⟩
        · rw [← next_iteration]
          exact hFirst
        · intro j hj
          cases j with
          | zero => exact hQuiet
          | succ j =>
              rw [← next_iteration]
              exact hBefore j (Nat.lt_of_succ_lt_succ hj)

/-- What is returned is what the clock has shown at one moment of the last iteration. -/
def ReadsInstant (order : Order) (cal : Calendar) (now : Nat → Nat) (n : Nat) : Prop :=
  ∀ fuel rtc n', timerRtc order cal now fuel n = some (rtc, n') →
    ∃ i t, n' = i + 7 ∧ now i ≤ t ∧ t ≤ now (i + 6) ∧ rtc = cal.rtc t

private theorem readsInstant_iff (hSteady : ∀ j, Steady now (n + 7 * j)) :
    ReadsInstant order cal now n ↔
      ∀ k, FirstQuiet order now n k → ∃ t, now (n + 7 * k) ≤ t ∧ t ≤ now (n + 7 * k + 6) ∧
        readRtcAsync order cal now (n + 7 * k) = cal.rtc t := by
  constructor
  · intro hReads k hFirst
    obtain ⟨i, t, hPlace, hInstant⟩ :=
      hReads (k + 1) _ _ (hFirst.timerRtc hSteady (Nat.lt_succ_self k))
    cases Nat.add_right_cancel hPlace
    exact ⟨t, hInstant⟩
  · intro hAll fuel rtc n' h
    obtain ⟨k, hFuel, hFirst⟩ := timerRtc_first hSteady h
    rw [hFirst.timerRtc hSteady hFuel] at h
    obtain ⟨rfl, rfl⟩ := Prod.mk.inj (Option.some.inj h)
    obtain ⟨t, hInstant⟩ := hAll k hFirst
    exact ⟨n + 7 * k, t, rfl, hInstant⟩

/-- If the seconds are read first, nothing is missed. -/
theorem readsInstant_of_first (hFirst : ∀ f, order.place .second ≤ order.place f)
    (hSteady : ∀ j, Steady now (n + 7 * j)) : ReadsInstant order cal now n := by
  rw [readsInstant_iff hSteady]
  intro k hQuiet
  rw [(hSteady k).instant_iff hQuiet.1]
  intro f hBefore
  exact absurd hBefore (Nat.not_lt.mpr (hFirst f))

/-- So it would be in the order in which the fields are written. -/
theorem readsInstant_written (hSteady : ∀ j, Steady now (n + 7 * j)) :
    ReadsInstant .written cal now n :=
  readsInstant_of_first (fun f => Nat.zero_le (Order.written.place f)) hSteady

/--
**Reading the clock.** For every order of the reads, every calendar and however the
clock goes on between the reads, as long as less than a minute passes during an
iteration: what is returned is what the clock has shown at one moment of the last
iteration, exactly when nothing that is read before the seconds changes from then to
the end of that iteration, which is the first one in which no second passes between
the two reads of the seconds.  If there is such an iteration, the call returns.
-/
theorem timer_rtc_instant_iff (order : Order) (cal : Calendar) (now : Nat → Nat) (n : Nat)
    (hMono : ∀ i j, i ≤ j → now i ≤ now j)
    (hSlow : ∀ k, now (n + 7 * k + 6) < now (n + 7 * k) + 60) :
    (ReadsInstant order cal now n ↔
      ∀ k, FirstQuiet order now n k → ∀ f, order.place f < order.place .second →
        cal.field (now (n + 7 * k + order.place f)) f = cal.field (now (n + 7 * k + 6)) f) ∧
      ∀ k, FirstQuiet order now n k → ∃ fuel r, timerRtc order cal now fuel n = some r := by
  have hSteady : ∀ j, Steady now (n + 7 * j) := fun j => ⟨hMono, hSlow j⟩
  refine ⟨?_, fun k hFirst => ⟨k + 1, _, hFirst.timerRtc hSteady (Nat.lt_succ_self k)⟩⟩
  rw [readsInstant_iff hSteady]
  constructor
  · intro hAll k hFirst
    exact ((hSteady k).instant_iff hFirst.1).mp (hAll k hFirst)
  · intro hKept k hFirst
    exact ((hSteady k).instant_iff hFirst.1).mpr (hKept k hFirst)

/-- A calendar of one month of 28 days. -/
def february : Calendar where
  field t
    | .second => t % 60
    | .minute => t / 60 % 60
    | .hour => t / 3600 % 24
    | .day => t / 86400 % 28 + 1
    | .month => 2
    | .year => 26
  second _ := rfl
  digits t f := by cases f <;> dsimp only <;> omega

/-- The clock goes from one second to the next before the read `i`. -/
def tick (t i n : Nat) : Nat := if n < i then t else t + 1

private theorem tick_mono (t i : Nat) : ∀ j k, j ≤ k → tick t i j ≤ tick t i k := by
  intro j k hjk
  unfold tick
  split <;> split <;> omega

private theorem tick_slow (t i a b : Nat) : tick t i a < tick t i b + 60 := by
  unfold tick
  split <;> split <;> omega

/-- A minute is over before the third read. -/
theorem timer_rtc_instant_iff_minute :
    ReadsInstant .declared february (tick 59 2) 0 ↔
      ∀ k, FirstQuiet .declared (tick 59 2) 0 k →
        ∀ f, Order.declared.place f < Order.declared.place .second →
          february.field (tick 59 2 (0 + 7 * k + Order.declared.place f)) f =
            february.field (tick 59 2 (0 + 7 * k + 6)) f :=
  (timer_rtc_instant_iff .declared february (tick 59 2) 0 (tick_mono 59 2)
    (fun _ => tick_slow 59 2 _ _)).1

/-- A minute is over between the reads of the minute and of the second: at 00:00:59 and
00:01:00 the call returns 00:00:00. -/
theorem timer_rtc_torn :
    (∀ i j, i ≤ j → tick 59 5 i ≤ tick 59 5 j) ∧
      (∀ k, tick 59 5 (0 + 7 * k + 6) < tick 59 5 (0 + 7 * k) + 60) ∧
      ¬ ReadsInstant .declared february (tick 59 5) 0 := by
  refine ⟨tick_mono 59 5, fun _ => tick_slow 59 5 _ _, ?_⟩
  intro hReads
  have hRun : timerRtc .declared february (tick 59 5) 1 0 = some (⟨2026, 2, 1, 0, 0, 0⟩, 7) := by
    decide
  obtain ⟨i, t, hPlace, hFirst, hLast, hRtc⟩ := hReads 1 _ 7 hRun
  have hi : i = 0 := by omega
  subst hi
  have hTime : 59 ≤ t ∧ t ≤ 60 := ⟨hFirst, hLast⟩
  have hCases : t = 59 ∨ t = 60 := by omega
  rcases hCases with rfl | rfl
  · exact absurd hRtc (by decide)
  · exact absurd hRtc (by decide)

end AbstractMachine.X86.Rtc
