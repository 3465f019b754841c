import AbstractMachine.Riscv.Spike.Atomic
import AbstractMachine.Riscv.Spike.Htif

/-!
# The console of `htif.c`

Harts that read and write characters, each call under `htif_lock`.  At any time
there is one character on its way to the harts, or one read that asks for it; that
is why the buffer is never overwritten.

## Main results

* `console_safe` -- no assertion fails and no message is overwritten; what is
  written to the terminal and what is read from it are the harts' characters, in
  the order of their sections.
* `console_live` -- no state is a deadlock.
-/

namespace AbstractMachine.Riscv.Spike

open AbstractMachine.Lib Section

/-! ## The calls -/

/-- The calls of `htif_console_getchar` and `htif_console_putchar`. -/
inductive Console where
  | getchar
  | putchar (ch : BitVec 8)

/-- As calls of `htif.c`. -/
def Console.call : Console → Call
  | .getchar => .getchar
  | .putchar ch => .putchar ch

/-- The console calls of `htif.c` as a section. -/
def console : Section Device Console Point Int HostStep := htif Console.call

/-- What the call puts into `tohost`. -/
def Console.command : Console → Word64
  | .getchar => tohostCmd 1 0 0
  | .putchar ch => tohostCmd 1 1 (ch.setWidth 64)

private theorem command_putchar (ch : BitVec 8) :
    (Console.putchar ch).command = message 1 1 (ch.setWidth 48) := by
  have hWide : (ch.setWidth 48).setWidth 64 = ch.setWidth 64 := by
    have hLt := ch.isLt
    apply BitVec.eq_of_toNat_eq
    rw [BitVec.toNat_setWidth, BitVec.toNat_setWidth, BitVec.toNat_setWidth]
    omega
  unfold message Console.command
  rw [hWide]
  rfl

theorem command_dev (c : Console) : fromhostDev c.command = 1 := by
  cases c with
  | getchar => rfl
  | putchar ch =>
      rw [command_putchar, fromhostDev_message]
      rfl

private theorem command_getchar_cmd : fromhostCmd Console.getchar.command ≠ 1 := by decide

private theorem command_putchar_cmd (ch : BitVec 8) :
    fromhostCmd (Console.putchar ch).command = 1 := by
  rw [command_putchar, fromhostCmd_message]
  rfl

private theorem command_putchar_character (ch : BitVec 8) :
    character (Console.putchar ch).command = ch := by
  rw [command_putchar, character_message]
  exact BitVec.setWidth_setWidth_of_le ch (by decide)

private theorem command_ne_zero (c : Console) : c.command ≠ 0 := by
  intro hZero
  have hDev := command_dev c
  rw [hZero] at hDev
  cases hDev

/-! ## Characters under way -/

/-- The character that a message to a hart carries. -/
def answer (m : Word64) : List Int :=
  if fromhostCmd m = 0 then [((character m).toNat : Int)] else []

namespace Device

/-- The character in `fromhost`. -/
def inFromhost (s : Device) : List Int := if s.fromhost = 0 then [] else answer s.fromhost

/-- The characters that wait for `fromhost`. -/
def inQueue (s : Device) : List Int := s.queue.flatMap answer

/-- The character in the buffer. -/
def inBuf (s : Device) : List Int :=
  if 1 ≤ s.htif_console_buf then [s.htif_console_buf - 1] else []

/-- The character that the host has still to print. -/
def inTohost (s : Device) : List (BitVec 8) :=
  if s.tohost = 0 then [] else if fromhostCmd s.tohost = 1 then [character s.tohost] else []

/-- A read that the host does not know of. -/
def asked (s : Device) : Nat := if s.tohost = Console.getchar.command then 1 else 0

/-- The buffer is as it was at the start. -/
def fresh (s : Device) : Nat := if s.htif_console_buf = 0 then 1 else 0

end Device

/-- Between `fromhost` and the buffer. -/
def Point.taken : Point → List Int
  | .dispatch fh _ => answer fh
  | _ => []

/-- What `__set_tohost` is called for. -/
def Point.setting : Point → Option After
  | .test _ k => some k
  | .store _ k => some k
  | .check (.set _ k) => some k
  | .clear _ (.set _ k) => some k
  | .dispatch _ (.set _ k) => some k
  | _ => none

/-- The result, while the next read has not been asked for. -/
def result : Console → Option After → List Int
  | .getchar, some (.ret r) => if 0 ≤ r then [r] else []
  | _, _ => []

/-- The first read has not been asked for. -/
def owed : Console → Option After → Nat
  | .getchar, some (.ret r) => if 0 ≤ r then 0 else 1
  | _, _ => 0

/-- The characters on the way to the program, the next one first. -/
def flight (t : Serial Device Console Point Int) : List Int :=
  (match t.inside with
    | some (c, p) => result c p.setting
    | none => []) ++
  t.mem.inBuf ++
  (match t.inside with
    | some (_, p) => p.taken
    | none => []) ++
  t.mem.inFromhost ++ t.mem.inQueue

/-- One while the first read has not been asked for. -/
def firstRead (t : Serial Device Console Point Int) : Nat :=
  t.mem.fresh +
    match t.inside with
    | some (c, p) => owed c p.setting
    | none => 0

/-! ## Characters of the harts -/

/-- The character that a call returned. -/
def got : Console × Int → List Int
  | (.getchar, r) => if 0 ≤ r then [r] else []
  | (.putchar _, _) => []

/-- The character that a call printed. -/
def put : Console × Int → List (BitVec 8)
  | (.getchar, _) => []
  | (.putchar ch, _) => [ch]

/-! ## The invariant -/

/-- The console sends these. -/
def Expected (m : Word64) : Prop :=
  fromhostDev m = 1 ∧ (fromhostCmd m = 0 ∨ fromhostCmd m = 1)

/-- The continuations that a console call has. -/
def Cont.fits (c : Console) : Cont → Prop
  | .buf => c = .getchar
  | .set m k => m = c.command ∧ ∃ r, k = .ret r
  | .wait _ _ => False

/-- Where a call can be, and what it knows of the memory there. -/
def Point.fits (c : Console) (s : Device) : Point → Prop
  | .check k => k.fits c
  | .clear fh k => fh = s.fromhost ∧ fh ≠ 0 ∧ k.fits c
  | .dispatch fh k => Expected fh ∧ k.fits c
  | .readBuf => c = .getchar
  | .clearBuf ch => c = .getchar ∧ ch = s.htif_console_buf ∧ 0 ≤ ch
  | .test m k => (Cont.set m k).fits c
  | .store m k => s.tohost = 0 ∧ (Cont.set m k).fits c
  | .wait _ _ => False
  | .accept => False
  | .failed => False

/-- The invariant of the console. -/
structure Inv (t : Serial Device Console Point Int) : Prop where
  fits : ∀ c p, t.inside = some (c, p) → p.fits c t.mem
  queue : ∀ m ∈ t.mem.queue, Expected m
  fromhost : t.mem.fromhost ≠ 0 → Expected t.mem.fromhost
  tohost : t.mem.tohost = 0 ∨ ∃ c : Console, t.mem.tohost = c.command
  calls : t.mem.calls = 0
  one : t.mem.reads + t.mem.asked + firstRead t + (flight t).length = 1
  input : t.mem.typed.map (fun b => (b.toNat : Int)) = t.log.flatMap got ++ flight t
  output : t.mem.shown ++ t.mem.inTohost = t.log.flatMap put

private theorem inv_init {t : Serial Device Console Point Int}
    (h : (console.serial Initial).init t) :
    Inv t := by
  obtain ⟨hInside, hMem, hLog⟩ := h
  obtain ⟨inside, mem, log⟩ := t
  cases hInside
  cases hMem
  cases hLog
  refine ⟨nofun, nofun, fun hNe => absurd rfl hNe, Or.inl rfl, rfl, ?_, rfl, rfl⟩
  decide

/-! ## The harts -/

variable {t : Serial Device Console Point Int} {c : Console} {p : Point}

theorem Inv.enter (h : Inv t) (hNone : t.inside = none) (c : Console) :
    Inv { t with inside := some (c, console.enter c) } := by
  have hFlight : flight { t with inside := some (c, console.enter c) } = flight t := by
    unfold flight
    rw [hNone]
    cases c with
    | getchar => rfl
    | putchar ch => rfl
  have hFirst : firstRead { t with inside := some (c, console.enter c) } = firstRead t := by
    unfold firstRead
    rw [hNone]
    cases c with
    | getchar => rfl
    | putchar ch => rfl
  refine ⟨?_, h.queue, h.fromhost, h.tohost, h.calls, ?_, hFlight ▸ h.input, h.output⟩
  swap
  · rw [hFlight, hFirst]
    exact h.one
  intro c' p hSome
  cases hSome
  cases c with
  | getchar => rfl
  | putchar ch => exact ⟨rfl, 0, rfl⟩

/-- From point to point, with nothing else changed. -/
theorem Inv.move (p' : Point) (h : Inv t) (hInside : t.inside = some (c, p))
    (hFits : p'.fits c t.mem) (hSetting : p'.setting = p.setting) (hTaken : p'.taken = p.taken) :
    Inv { t with inside := some (c, p') } := by
  have hFlight : flight { t with inside := some (c, p') } = flight t := by
    unfold flight
    rw [hInside]
    dsimp only
    rw [hSetting, hTaken]
  have hFirst : firstRead { t with inside := some (c, p') } = firstRead t := by
    unfold firstRead
    rw [hInside]
    dsimp only
    rw [hSetting]
  refine ⟨?_, h.queue, h.fromhost, h.tohost, h.calls, ?_, hFlight ▸ h.input, h.output⟩
  swap
  · rw [hFlight, hFirst]
    exact h.one
  intro c' p'' hSome
  cases hSome
  exact hFits

private theorem fits_resume {k : Cont} {s : Device} (h : k.fits c) : k.resume.fits c s := by
  cases k with
  | buf => exact h
  | set m k => exact h
  | wait dev cmd => exact h.elim

private theorem setting_resume (k : Cont) (fh : Word64) :
    k.resume.setting = (Point.check k).setting ∧
      (Point.clear fh k).setting = (Point.check k).setting ∧
      (Point.dispatch fh k).setting = (Point.check k).setting := by
  cases k <;> exact ⟨rfl, rfl, rfl⟩

private theorem taken_resume (k : Cont) : k.resume.taken = [] := by
  cases k <;> rfl

theorem Inv.clear {k : Cont} (h : Inv t) (hInside : t.inside = some (c, .clear t.mem.fromhost k)) :
    Inv { t with
      inside := some (c, .dispatch t.mem.fromhost k), mem := { t.mem with fromhost := 0 } } := by
  obtain ⟨-, hNe, hFits⟩ := h.fits _ _ hInside
  have hFlight : flight { t with
      inside := some (c, .dispatch t.mem.fromhost k), mem := { t.mem with fromhost := 0 } } =
        flight t := by
    have hSame := (setting_resume k t.mem.fromhost).2
    have hFrom : t.mem.inFromhost = answer t.mem.fromhost := if_neg hNe
    unfold flight
    rw [hInside]
    dsimp only
    rw [hSame.1, hSame.2, hFrom]
    show _ ++ answer t.mem.fromhost ++ [] ++ _ = _ ++ [] ++ answer t.mem.fromhost ++ _
    rw [List.append_nil, List.append_nil]
    rfl
  have hFirst : firstRead { t with
      inside := some (c, .dispatch t.mem.fromhost k), mem := { t.mem with fromhost := 0 } } =
        firstRead t := by
    have hSame := (setting_resume k t.mem.fromhost).2
    unfold firstRead
    rw [hInside]
    dsimp only
    rw [hSame.1, hSame.2]
    rfl
  refine ⟨?_, h.queue, fun hZero => absurd rfl hZero, h.tohost, h.calls, ?_,
    hFlight ▸ h.input, h.output⟩
  swap
  · rw [hFlight, hFirst]
    exact h.one
  intro c' p hSome
  cases hSome
  exact ⟨h.fromhost hNe, hFits⟩

/-- The one character under way goes into the buffer, which is empty. -/
theorem Inv.fill {k : Cont} {fh : Word64} (h : Inv t)
    (hInside : t.inside = some (c, .dispatch fh k)) (hCmd : fromhostCmd fh = 0) :
    Inv { t with
      inside := some (c, k.resume)
      mem := { t.mem with htif_console_buf := 1 + (character fh).toNat } } := by
  obtain ⟨-, hFits⟩ := h.fits _ _ hInside
  have hAnswer : answer fh = [((character fh).toNat : Int)] := if_pos hCmd
  have hBuf : Device.inBuf { t.mem with htif_console_buf := 1 + (character fh).toNat } =
      [((character fh).toNat : Int)] := by
    unfold Device.inBuf
    rw [if_pos (by dsimp only; omega)]
    congr 1
    dsimp only
    omega
  have hFresh : Device.fresh { t.mem with htif_console_buf := 1 + (character fh).toNat } = 0 := by
    unfold Device.fresh
    exact if_neg (by dsimp only; omega)
  have hBefore : flight t = result c (Point.dispatch fh k).setting ++ t.mem.inBuf ++
      [((character fh).toNat : Int)] ++ t.mem.inFromhost ++ t.mem.inQueue := by
    unfold flight
    rw [hInside, ← hAnswer]
    rfl
  have hOne := h.one
  rw [hBefore] at hOne
  simp only [List.length_append, List.length_cons, List.length_nil] at hOne
  have hEmpty : t.mem.inBuf = [] := List.length_eq_zero_iff.mp (by omega)
  have hFlight : flight { t with
      inside := some (c, k.resume)
      mem := { t.mem with htif_console_buf := 1 + (character fh).toNat } } = flight t := by
    have hSame := setting_resume k fh
    rw [hBefore, hEmpty, hSame.2.2, ← hSame.1]
    unfold flight
    dsimp only
    rw [hBuf, taken_resume, List.append_nil, List.append_nil]
    rfl
  have hFirst : firstRead { t with
      inside := some (c, k.resume)
      mem := { t.mem with htif_console_buf := 1 + (character fh).toNat } } = firstRead t := by
    have hSame := setting_resume k fh
    have hAfter : t.mem.fresh = 0 := by
      unfold firstRead at hOne
      omega
    unfold firstRead
    rw [hInside, hFresh, hAfter]
    dsimp only
    rw [hSame.2.2, ← hSame.1]
  refine ⟨?_, h.queue, h.fromhost, h.tohost, h.calls, ?_, hFlight ▸ h.input, h.output⟩
  · intro c' p hSome
    cases hSome
    exact fits_resume hFits
  · rw [hFlight, hFirst]
    exact h.one

/-- Nothing is in the buffer. -/
theorem Inv.empty (h : Inv t) (hInside : t.inside = some (.getchar, .readBuf))
    (hBuf : t.mem.htif_console_buf < 0) :
    Inv { t with
      inside := none, log := t.log ++ [(.getchar, t.mem.htif_console_buf - 1)] } := by
  have hFlight : flight { t with
      inside := none, log := t.log ++ [(.getchar, t.mem.htif_console_buf - 1)] } = flight t := by
    unfold flight
    rw [hInside]
    rfl
  have hFirst : firstRead { t with
      inside := none, log := t.log ++ [(.getchar, t.mem.htif_console_buf - 1)] } =
        firstRead t := by
    unfold firstRead
    rw [hInside]
    rfl
  have hGot : got (.getchar, t.mem.htif_console_buf - 1) = [] := if_neg (by omega)
  refine ⟨nofun, h.queue, h.fromhost, h.tohost, h.calls, ?_, ?_, ?_⟩
  · rw [hFlight, hFirst]
    exact h.one
  · rw [hFlight, h.input]
    simp [hGot]
  · rw [h.output]
    simp [put]

/-- The character is taken out of the buffer, and the next read is to be asked for. -/
theorem Inv.takeBuf (h : Inv t)
    (hInside : t.inside = some (.getchar, .clearBuf t.mem.htif_console_buf)) :
    Inv { t with
      inside := some (.getchar,
        .test (tohostCmd 1 0 0) (.ret (t.mem.htif_console_buf - 1)))
      mem := { t.mem with htif_console_buf := -1 } } := by
  obtain ⟨-, -, hNonneg⟩ := h.fits _ _ hInside
  have hResult : result .getchar (some (.ret (t.mem.htif_console_buf - 1))) = t.mem.inBuf := by
    unfold result Device.inBuf
    dsimp only
    by_cases hOne : 1 ≤ t.mem.htif_console_buf
    · rw [if_pos hOne, if_pos (by omega)]
    · rw [if_neg hOne, if_neg (by omega)]
  have hOwed : owed .getchar (some (.ret (t.mem.htif_console_buf - 1))) = t.mem.fresh := by
    unfold owed Device.fresh
    dsimp only
    by_cases hZero : t.mem.htif_console_buf = 0
    · rw [if_pos hZero, if_neg (by omega)]
    · rw [if_neg hZero, if_pos (by omega)]
  have hFlight : flight { t with
      inside := some (.getchar,
        .test (tohostCmd 1 0 0) (.ret (t.mem.htif_console_buf - 1)))
      mem := { t.mem with htif_console_buf := -1 } } = flight t := by
    unfold flight
    rw [hInside]
    show result .getchar (some (.ret (t.mem.htif_console_buf - 1))) ++ [] ++ _ ++ _ ++ _ =
      [] ++ t.mem.inBuf ++ _ ++ _ ++ _
    rw [hResult, List.append_nil]
    rfl
  have hFirst : firstRead { t with
      inside := some (.getchar,
        .test (tohostCmd 1 0 0) (.ret (t.mem.htif_console_buf - 1)))
      mem := { t.mem with htif_console_buf := -1 } } = firstRead t := by
    unfold firstRead
    rw [hInside]
    show 0 + owed .getchar (some (.ret (t.mem.htif_console_buf - 1))) = t.mem.fresh + 0
    rw [hOwed, Nat.zero_add, Nat.add_zero]
  refine ⟨?_, h.queue, h.fromhost, h.tohost, h.calls, ?_, hFlight ▸ h.input, h.output⟩
  · intro c' p hSome
    cases hSome
    exact ⟨rfl, _, rfl⟩
  · rw [hFlight, hFirst]
    exact h.one

private theorem inTohost_command (s : Device) (c : Console) (r : Int) :
    Device.inTohost { s with tohost := c.command } = put (c, r) := by
  unfold Device.inTohost
  rw [if_neg (command_ne_zero c)]
  cases c with
  | getchar => exact if_neg command_getchar_cmd
  | putchar ch => rw [if_pos (command_putchar_cmd ch), command_putchar_character, put]

/-- The call is over; `tohost` was 0. -/
theorem Inv.store {m : Word64} {r : Int} (h : Inv t)
    (hInside : t.inside = some (c, .store m (.ret r))) :
    Inv { inside := none, mem := { t.mem with tohost := m }, log := t.log ++ [(c, r)] } := by
  obtain ⟨hTohost, rfl, -⟩ := h.fits _ _ hInside
  have hBefore : t.mem.asked = 0 := by
    unfold Device.asked
    rw [hTohost]
    rfl
  have hNone : t.mem.inTohost = [] := if_pos hTohost
  have hOutput := h.output
  rw [hNone, List.append_nil] at hOutput
  have hOne := h.one
  have hInput := h.input
  have hFlight : flight t = result c (some (.ret r)) ++ flight
      { inside := none, mem := { t.mem with tohost := c.command }, log := t.log ++ [(c, r)] } := by
    unfold flight
    rw [hInside]
    show result c (some (.ret r)) ++ t.mem.inBuf ++ [] ++ _ ++ _ =
      _ ++ ([] ++ t.mem.inBuf ++ [] ++ t.mem.inFromhost ++ t.mem.inQueue)
    simp only [List.append_nil, List.nil_append, List.append_assoc]
  have hFirst : firstRead t = firstRead
      { inside := none, mem := { t.mem with tohost := c.command }, log := t.log ++ [(c, r)] } +
        owed c (some (.ret r)) := by
    unfold firstRead
    rw [hInside]
    rfl
  rw [hFlight, List.length_append, hFirst, hBefore] at hOne
  rw [hFlight, ← List.append_assoc] at hInput
  refine ⟨nofun, h.queue, h.fromhost, Or.inr ⟨c, rfl⟩, h.calls, ?_, ?_, ?_⟩
  · cases c with
    | getchar =>
        have hAsked : Device.asked { t.mem with tohost := Console.getchar.command } = 1 :=
          if_pos rfl
        have hSum :
            owed .getchar (some (.ret r)) + (result .getchar (some (.ret r))).length = 1 := by
          unfold owed result
          dsimp only
          split <;> rfl
        rw [hAsked]
        dsimp only at hOne ⊢
        omega
    | putchar ch =>
        have hAsked : Device.asked { t.mem with tohost := (Console.putchar ch).command } = 0 := by
          refine if_neg fun hEq => ?_
          have hSame : (Console.putchar ch).command = Console.getchar.command := hEq
          have hCmd := command_putchar_cmd ch
          rw [hSame] at hCmd
          cases hCmd
        have hOwed : owed (.putchar ch) (some (.ret r)) = 0 := rfl
        have hResult : result (.putchar ch) (some (.ret r)) = [] := rfl
        rw [hOwed, hResult, List.length_nil, Nat.add_zero, Nat.zero_add] at hOne
        rw [hAsked]
        exact hOne
  · rw [hInput, List.flatMap_append, List.flatMap_singleton]
    cases c with
    | getchar => rfl
    | putchar ch => rfl
  · rw [List.flatMap_append, List.flatMap_singleton, ← hOutput]
    exact congrArg (t.mem.shown ++ ·) (inTohost_command t.mem c r)

theorem next_dispatch_read {fh : Word64} (k : Cont) (s : Device) (hDev : fromhostDev fh = 1)
    (hCmd : fromhostCmd fh = 0) :
    console.next (.dispatch fh k) s =
      (.inl k.resume, { s with htif_console_buf := 1 + (character fh).toNat }) := by
  show (if _ then if _ then _ else _ else _) = _
  rw [if_pos hDev, if_pos hCmd]

theorem next_dispatch_ack {fh : Word64} (k : Cont) (s : Device) (hDev : fromhostDev fh = 1)
    (hCmd : fromhostCmd fh = 1) :
    console.next (.dispatch fh k) s = (.inl k.resume, s) := by
  have hNe : ¬ fromhostCmd fh = 0 := by
    rw [hCmd]
    decide
  show (if _ then if _ then _ else if _ then _ else _ else _) = _
  rw [if_pos hDev, if_neg hNe, if_pos hCmd]

/-- Each point of a call. -/
theorem Inv.run (h : Inv t) (hInside : t.inside = some (c, p)) :
    Inv (t.continue c (console.next p t.mem)) := by
  have hFits := h.fits _ _ hInside
  cases p with
  | check k =>
      by_cases hZero : t.mem.fromhost = 0
      · have hNext : console.next (.check k) t.mem = (.inl k.resume, t.mem) := if_pos hZero
        rw [hNext]
        exact h.move k.resume hInside (fits_resume hFits) (setting_resume k 0).1 (taken_resume k)
      · have hNext : console.next (.check k) t.mem =
            (.inl (.clear t.mem.fromhost k), t.mem) := if_neg hZero
        rw [hNext]
        exact h.move (.clear t.mem.fromhost k) hInside ⟨rfl, hZero, hFits⟩
          (setting_resume k _).2.1 rfl
  | clear fh k =>
      obtain ⟨rfl, -, -⟩ := hFits
      exact h.clear hInside
  | dispatch fh k =>
      obtain ⟨⟨hDev, hCmd⟩, hK⟩ := hFits
      by_cases hZero : fromhostCmd fh = 0
      · rw [next_dispatch_read k t.mem hDev hZero]
        exact h.fill hInside hZero
      · have hOne := hCmd.resolve_left hZero
        have hNothing : answer fh = [] := if_neg hZero
        rw [next_dispatch_ack k t.mem hDev hOne]
        exact h.move k.resume hInside (fits_resume hK)
          ((setting_resume k fh).1.trans (setting_resume k fh).2.2.symm)
          ((taken_resume k).trans hNothing.symm)
  | readBuf =>
      have hGetchar : c = .getchar := hFits
      subst hGetchar
      by_cases hNonneg : 0 ≤ t.mem.htif_console_buf
      · have hNext : console.next .readBuf t.mem =
            (.inl (.clearBuf t.mem.htif_console_buf), t.mem) := if_pos hNonneg
        rw [hNext]
        exact h.move (.clearBuf t.mem.htif_console_buf) hInside ⟨rfl, rfl, hNonneg⟩ rfl rfl
      · have hNext : console.next .readBuf t.mem =
            (.inr (t.mem.htif_console_buf - 1), t.mem) := if_neg hNonneg
        rw [hNext]
        exact h.empty hInside (Int.not_le.mp hNonneg)
  | clearBuf ch =>
      obtain ⟨rfl, rfl, -⟩ := hFits
      exact h.takeBuf hInside
  | test m k =>
      by_cases hFree : t.mem.tohost = 0
      · have hNext : console.next (.test m k) t.mem = (.inl (.store m k), t.mem) := if_pos hFree
        rw [hNext]
        exact h.move (.store m k) hInside ⟨hFree, hFits⟩ rfl rfl
      · have hNext : console.next (.test m k) t.mem = (.inl (.check (.set m k)), t.mem) :=
          if_neg hFree
        rw [hNext]
        exact h.move (.check (.set m k)) hInside hFits rfl rfl
  | store m k =>
      obtain ⟨-, -, r, rfl⟩ := hFits
      exact h.store hInside
  | wait dev cmd | accept | failed => exact hFits.elim

/-! ## The host -/

theorem typed_dev (data : BitVec 48) : fromhostDev (tohostCmd 1 0 (data.setWidth 64)) = 1 :=
  fromhostDev_message (d := 1) (c := 0) (p := data)

theorem typed_cmd (data : BitVec 48) : fromhostCmd (tohostCmd 1 0 (data.setWidth 64)) = 0 :=
  fromhostCmd_message (d := 1) (c := 0) (p := data)

theorem expected_ack : Expected (tohostCmd 1 1 0) := ⟨by decide, Or.inr (by decide)⟩

/-- What a call knows of the memory, the host leaves as it is. -/
theorem fits_host {s s' : Device} (hFrom : s.fromhost ≠ 0 → s'.fromhost = s.fromhost)
    (hTo : s.tohost = 0 → s'.tohost = 0) (hBuf : s'.htif_console_buf = s.htif_console_buf)
    (h : p.fits c s) : p.fits c s' := by
  cases p with
  | clear fh k =>
      obtain ⟨rfl, hNe, hK⟩ := h
      exact ⟨(hFrom hNe).symm, hNe, hK⟩
  | clearBuf ch => exact ⟨h.1, h.2.1.trans hBuf.symm, h.2.2⟩
  | store m k => exact ⟨hTo h.1, h.2⟩
  | _ => exact h

theorem handle_getchar (s : Device) (ack : Bool) :
    Device.handle { s with tohost := 0 } Console.getchar.command ack =
      { s with tohost := 0, reads := s.reads + 1 } := by
  have hCmd : fromhostCmd Console.getchar.command = 0 := by decide
  unfold Device.handle
  rw [if_pos (command_dev _), if_pos hCmd]

theorem handle_putchar (s : Device) (ch : BitVec 8) (ack : Bool) :
    Device.handle { s with tohost := 0 } (Console.putchar ch).command ack =
      { s with
        tohost := 0
        shown := s.shown ++ [ch]
        queue := s.queue ++ if ack then [tohostCmd 1 1 0] else [] } := by
  have hNe : ¬ fromhostCmd (Console.putchar ch).command = 0 := by
    rw [command_putchar_cmd]
    decide
  unfold Device.handle
  rw [if_pos (command_dev _), if_neg hNe, if_pos (command_putchar_cmd ch),
    command_putchar_character]

/-- The read is now the host's. -/
theorem Inv.handleRead (h : Inv t) (hCommand : t.mem.tohost = Console.getchar.command) :
    Inv { t with mem := { t.mem with tohost := 0, reads := t.mem.reads + 1 } } := by
  have hAsked : t.mem.asked = 1 := if_pos hCommand
  have hIn : t.mem.inTohost = [] := by
    unfold Device.inTohost
    rw [hCommand, if_neg (command_ne_zero _), if_neg command_getchar_cmd]
  have hNow : Device.asked { t.mem with tohost := 0, reads := t.mem.reads + 1 } = 0 := rfl
  have hOne := h.one
  have hOutput := h.output
  rw [hIn] at hOutput
  refine ⟨fun c p hInside => ?_, h.queue, h.fromhost, Or.inl rfl, h.calls, ?_, h.input, hOutput⟩
  · exact fits_host (s := t.mem) (fun _ => rfl) (fun _ => rfl) rfl (h.fits c p hInside)
  · rw [hNow]
    show t.mem.reads + 1 + 0 + firstRead t + (flight t).length = 1
    omega

/-- The character is shown. -/
theorem Inv.handleWrite {ch : BitVec 8} (h : Inv t) (ack : Bool)
    (hCommand : t.mem.tohost = (Console.putchar ch).command) :
    Inv { t with
      mem := { t.mem with
        tohost := 0
        shown := t.mem.shown ++ [ch]
        queue := t.mem.queue ++ if ack then [tohostCmd 1 1 0] else [] } } := by
  have hAsked : t.mem.asked = 0 := by
    refine if_neg fun hEq => ?_
    have hCmd := command_putchar_cmd ch
    rw [← hCommand, hEq] at hCmd
    cases hCmd
  have hIn : t.mem.inTohost = [ch] := by
    unfold Device.inTohost
    rw [hCommand, if_neg (command_ne_zero _), if_pos (command_putchar_cmd ch),
      command_putchar_character]
  have hAck : (if ack then [tohostCmd 1 1 0] else []).flatMap answer = [] := by
    cases ack <;> decide
  have hQueue : Device.inQueue { t.mem with
      tohost := 0
      shown := t.mem.shown ++ [ch]
      queue := t.mem.queue ++ if ack then [tohostCmd 1 1 0] else [] } = t.mem.inQueue := by
    unfold Device.inQueue
    rw [List.flatMap_append, hAck, List.append_nil]
  have hFlight : flight { t with
      mem := { t.mem with
        tohost := 0
        shown := t.mem.shown ++ [ch]
        queue := t.mem.queue ++ if ack then [tohostCmd 1 1 0] else [] } } = flight t := by
    unfold flight
    rw [hQueue]
    rfl
  have hOutput := h.output
  rw [hIn] at hOutput
  refine ⟨fun c p hInside => ?_, ?_, h.fromhost, Or.inl rfl, h.calls, ?_, hFlight ▸ h.input, ?_⟩
  · exact fits_host (s := t.mem) (fun _ => rfl) (fun _ => rfl) rfl (h.fits c p hInside)
  · intro m hm
    rcases List.mem_append.mp hm with hOld | hNew
    · exact h.queue m hOld
    · cases ack with
      | false => cases hNew
      | true =>
          rw [List.mem_singleton.mp hNew]
          exact expected_ack
  · have hOne := h.one
    rw [hAsked] at hOne
    rw [hFlight]
    exact hOne
  · rw [← hOutput]
    exact List.append_nil _

/-- A read is answered. -/
theorem Inv.answerRead (h : Inv t) (data : BitVec 48) (hReads : t.mem.reads ≠ 0) :
    Inv { t with
      mem := { t.mem with
        reads := t.mem.reads - 1
        typed := t.mem.typed ++ [character (tohostCmd 1 0 (data.setWidth 64))]
        queue := t.mem.queue ++ [tohostCmd 1 0 (data.setWidth 64)] } } := by
  have hDev := typed_dev data
  have hCmd := typed_cmd data
  generalize tohostCmd 1 0 (data.setWidth 64) = m at hDev hCmd ⊢
  have hAnswer : answer m = [((character m).toNat : Int)] := if_pos hCmd
  have hQueue : Device.inQueue { t.mem with
      reads := t.mem.reads - 1
      typed := t.mem.typed ++ [character m]
      queue := t.mem.queue ++ [m] } = t.mem.inQueue ++ [((character m).toNat : Int)] := by
    unfold Device.inQueue
    rw [List.flatMap_append, List.flatMap_singleton, hAnswer]
  have hFlight : flight { t with
      mem := { t.mem with
        reads := t.mem.reads - 1
        typed := t.mem.typed ++ [character m]
        queue := t.mem.queue ++ [m] } } = flight t ++ [((character m).toNat : Int)] := by
    unfold flight
    rw [hQueue, ← List.append_assoc]
    rfl
  refine ⟨fun c p hInside => ?_, ?_, h.fromhost, h.tohost, h.calls, ?_, ?_, h.output⟩
  · exact fits_host (s := t.mem) (fun _ => rfl) id rfl (h.fits c p hInside)
  · intro m' hm
    rcases List.mem_append.mp hm with hOld | hNew
    · exact h.queue m' hOld
    · rw [List.mem_singleton.mp hNew]
      exact ⟨hDev, Or.inl hCmd⟩
  · have hOne := h.one
    rw [hFlight, List.length_append, List.length_singleton]
    show t.mem.reads - 1 + t.mem.asked + firstRead t + ((flight t).length + 1) = 1
    omega
  · rw [hFlight, List.map_append, h.input, List.append_assoc]
    rfl

/-- An answer goes into `fromhost`, which is 0. -/
theorem Inv.send {m : Word64} {queue : List Word64} (h : Inv t) (hQueue : t.mem.queue = m :: queue)
    (hFree : t.mem.fromhost = 0) :
    Inv { t with mem := { t.mem with fromhost := m, queue := queue } } := by
  have hExpected : Expected m := h.queue m (hQueue ▸ List.mem_cons_self)
  have hNe : m ≠ 0 := by
    rintro rfl
    exact absurd hExpected.1 (by decide)
  have hNone : t.mem.inFromhost = [] := if_pos hFree
  have hIn : Device.inFromhost { t.mem with fromhost := m, queue := queue } = answer m := if_neg hNe
  have hOld : t.mem.inQueue =
      answer m ++ Device.inQueue { t.mem with fromhost := m, queue := queue } := by
    unfold Device.inQueue
    rw [hQueue]
    rfl
  have hFlight : flight { t with mem := { t.mem with fromhost := m, queue := queue } } =
      flight t := by
    unfold flight
    rw [hIn, hNone, hOld, List.append_nil, ← List.append_assoc]
    rfl
  refine ⟨fun c p hInside => ?_, ?_, fun _ => hExpected, h.tohost, h.calls, ?_, ?_, h.output⟩
  · exact fits_host (s := t.mem) (fun hFull => absurd hFree hFull) id rfl (h.fits c p hInside)
  · intro m' hm
    exact h.queue m' (hQueue ▸ List.mem_cons_of_mem _ hm)
  · rw [hFlight]
    exact h.one
  · rw [hFlight]
    exact h.input

theorem Inv.host {e : HostStep} {s : Device} (h : Inv t) (hHost : t.mem.host e = some s) :
    Inv { t with mem := s } := by
  cases e with
  | take ack =>
      change (if _ then _ else _) = some s at hHost
      split at hHost
      · cases hHost
      · rename_i hNe
        obtain ⟨c, hCommand⟩ := h.tohost.resolve_left hNe
        cases Option.some.inj hHost
        cases c with
        | getchar =>
            rw [hCommand, handle_getchar]
            exact h.handleRead hCommand
        | putchar ch =>
            rw [hCommand, handle_putchar]
            exact h.handleWrite ack hCommand
  | type data =>
      change (if _ then _ else _) = some s at hHost
      split at hHost
      · cases hHost
      · rename_i hReads
        cases Option.some.inj hHost
        exact h.answerRead data hReads
  | done data =>
      change (if _ then _ else _) = some s at hHost
      rw [if_pos h.calls] at hHost
      cases hHost
  | send =>
      cases hQueue : t.mem.queue with
      | nil =>
          unfold Device.host at hHost
          rw [hQueue] at hHost
          cases hHost
      | cons m queue =>
          unfold Device.host at hHost
          rw [hQueue] at hHost
          dsimp only at hHost
          split at hHost
          · rename_i hFree
            cases Option.some.inj hHost
            exact h.send hQueue hFree
          · cases hHost

private theorem inv_reachable (h : (console.serial Initial).Reachable t) : Inv t := by
  refine h.inv (fun _ => inv_init) ?_
  intro t a t' hInv hStep
  obtain ⟨c, hNone, rfl⟩ | ⟨c, p, hInside, rfl⟩ | ⟨e, m, hEnv, rfl⟩ := serial_cases hStep
  · exact hInv.enter hNone c
  · exact hInv.run hInside
  · exact hInv.host hEnv

/-! ## Ends -/

private theorem ends_goes {p' : Point} {m : Device} (h : Inv t) (hInside : t.inside = some (c, p))
    (hNext : console.next p t.mem = (.inl p', m))
    (hThen : ∀ t', Inv t' → t'.inside = some (c, p') → t'.mem = m → Ends console t') :
    Ends console t := by
  have hInv := h.run hInside
  refine .run t c p hInside (hThen _ hInv ?_ ?_)
  · rw [hNext]
    rfl
  · rw [hNext]
    rfl

private theorem ends_returns {r : Int} {m : Device} (hInside : t.inside = some (c, p))
    (hNext : console.next p t.mem = (.inr r, m)) : Ends console t := by
  refine .run t c p hInside (.done _ ?_)
  rw [hNext]
  rfl

private theorem ends_test_free {m : Word64} {k : After} (h : Inv t)
    (hInside : t.inside = some (c, .test m k)) (hFree : t.mem.tohost = 0) : Ends console t := by
  have hNext : console.next (.test m k) t.mem = (.inl (.store m k), t.mem) := if_pos hFree
  refine ends_goes h hInside hNext fun t' h' hInside' _ => ?_
  obtain ⟨-, -, r, rfl⟩ := h'.fits _ _ hInside'
  exact ends_returns hInside' rfl

/-- The host takes what is in `tohost`. -/
theorem ends_test {m : Word64} {k : After} (h : Inv t)
    (hInside : t.inside = some (c, .test m k)) : Ends console t := by
  by_cases hFree : t.mem.tohost = 0
  · exact ends_test_free h hInside hFree
  · have hTake : console.env t.mem (.take false) =
        some (Device.handle { t.mem with tohost := 0 } t.mem.tohost false) := if_neg hFree
    have hInv := h.host (e := .take false) hTake
    refine .env t (.take false) _ hTake (ends_test_free hInv hInside ?_)
    obtain ⟨d, hCommand⟩ := h.tohost.resolve_left hFree
    cases d with
    | getchar => rw [hCommand, handle_getchar]
    | putchar ch => rw [hCommand, handle_putchar]

private theorem ends_resume {k : Cont} (h : Inv t) (hInside : t.inside = some (c, k.resume)) :
    Ends console t := by
  cases k with
  | buf =>
      by_cases hNonneg : 0 ≤ t.mem.htif_console_buf
      · exact ends_goes h hInside (if_pos hNonneg) fun t' h' hInside' _ =>
          ends_goes h' hInside' rfl fun _ h'' hInside'' _ => ends_test h'' hInside''
      · exact ends_returns hInside (if_neg hNonneg)
  | set m k => exact ends_test h hInside
  | wait dev cmd => exact (h.fits _ _ hInside).elim

private theorem ends_dispatch {fh : Word64} {k : Cont} (h : Inv t)
    (hInside : t.inside = some (c, .dispatch fh k)) : Ends console t := by
  obtain ⟨⟨hDev, hCmd⟩, -⟩ := h.fits _ _ hInside
  by_cases hZero : fromhostCmd fh = 0
  · exact ends_goes h hInside (next_dispatch_read k t.mem hDev hZero) fun _ h' hInside' _ =>
      ends_resume h' hInside'
  · have hOne := hCmd.resolve_left hZero
    exact ends_goes h hInside (next_dispatch_ack k t.mem hDev hOne) fun _ h' hInside' _ =>
      ends_resume h' hInside'

private theorem ends_check {k : Cont} (h : Inv t) (hInside : t.inside = some (c, .check k)) :
    Ends console t := by
  by_cases hZero : t.mem.fromhost = 0
  · exact ends_goes h hInside (if_pos hZero) fun _ h' hInside' _ => ends_resume h' hInside'
  · exact ends_goes h hInside (if_neg hZero) fun _ h' hInside' _ =>
      ends_goes h' hInside' rfl fun _ h'' hInside'' _ => ends_dispatch h'' hInside''

private theorem ends_reachable (h : Inv t) : Ends console t := by
  cases hInside : t.inside with
  | none => exact .done t hInside
  | some cp =>
      obtain ⟨c, p⟩ := cp
      have hFits := h.fits c p hInside
      cases p with
      | check k => exact ends_check h hInside
      | clear fh k => exact ends_goes h hInside rfl fun _ h' hInside' _ => ends_dispatch h' hInside'
      | dispatch fh k => exact ends_dispatch h hInside
      | readBuf => exact ends_resume (k := .buf) h hInside
      | clearBuf ch => exact ends_goes h hInside rfl fun _ h' hInside' _ => ends_test h' hInside'
      | test m k => exact ends_test h hInside
      | store m k =>
          obtain ⟨-, -, r, rfl⟩ := hFits
          exact ends_returns hInside rfl
      | wait dev cmd | accept | failed => exact hFits.elim

/-! ## The harts together -/

variable {ι : Type} [DecidableEq ι] {s : Locked ι Device Console Point Int}

/--
**The console.** Any number of harts read and write characters in any interleaving.
At most one is under the lock, no assertion fails, and `tohost` is stored to only
when it is 0.  The terminal shows the characters of the calls, in their order, but
for one that is still in `tohost`; the calls return the characters of the terminal,
in their order and each once, but for one that is under way.
-/
theorem console_safe (h : (spinlock ι console Initial).Reachable s) :
    (∀ i j, (s.hart i).owns → (s.hart j).owns → i = j) ∧
      (∀ i c, s.hart i ≠ .inside c .failed) ∧
      (∀ i c m k, s.hart i = .inside c (.store m k) → s.mem.tohost = 0) ∧
      s.mem.shown ++ s.mem.inTohost = s.log.flatMap put ∧
      ∃ under : List Int, under.length ≤ 1 ∧
        s.mem.typed.map (fun b => (b.toNat : Int)) = s.log.flatMap got ++ under := by
  obtain ⟨t, ht, hR⟩ := spinlock_refines h
  have hInv := inv_reachable ht
  refine ⟨hR.lock.one, fun i c hFailed => ?_, fun i c m k hStore => ?_, ?_, flight t, ?_, ?_⟩
  · exact hInv.fits c .failed ((hR.inside _ _).mpr ⟨i, hFailed⟩)
  · have hFits := hInv.fits c (.store m k) ((hR.inside _ _).mpr ⟨i, hStore⟩)
    exact hR.mem ▸ hFits.1
  · rw [← hR.mem, ← hR.log]
    exact hInv.output
  · have hOne := hInv.one
    omega
  · rw [← hR.mem, ← hR.log]
    exact hInv.input

/-- Two harts before their first call. -/
def twoHarts : Locked (Fin 2) Device Console Point Int where
  lock := 0
  hart _ := .outside
  mem := Device.initial
  log := []

/-- One hart asks for a character, the other one writes, and the first gets its own. -/
def twoRun : List (LockedStep (Fin 2) Console HostStep) :=
  [.call 0 .getchar, .call 1 (.putchar 65), .run 0, .run 1, .run 0, .run 1,
    .run 0, .run 0, .run 0, .run 0, .run 0, .run 0,
    .env (.take false), .env (.type 0x142), .env .send,
    .run 1, .run 1, .run 1, .run 1, .env (.take true), .run 1,
    .call 0 .getchar, .run 0, .run 0, .run 0, .run 0, .run 0, .run 0, .run 0, .run 0, .run 0]

private theorem twoRun_reachable :
    ∃ s, (spinlock (Fin 2) console Initial).Reachable s ∧ s.lock = -1 ∧
      s.log.flatMap put = [65] ∧ s.log.flatMap got = [66] := by
  obtain ⟨s, hRun, hEnd⟩ :
      ∃ s, (spinlock (Fin 2) console Initial).steps twoHarts twoRun = some s ∧ s.lock = -1 ∧
        s.log.flatMap put = [65] ∧ s.log.flatMap got = [66] := ⟨_, rfl, rfl, rfl, rfl⟩
  exact ⟨s, ⟨twoHarts, ⟨rfl, fun _ => rfl, rfl, rfl⟩, System.steps_run _ _ hRun⟩, hEnd⟩

theorem console_safe_two :
    ∃ s, (spinlock (Fin 2) console Initial).Reachable s ∧
      s.mem.shown ++ s.mem.inTohost = [65] ∧
      ∃ under : List Int, under.length ≤ 1 ∧
        s.mem.typed.map (fun b => (b.toNat : Int)) = [66] ++ under := by
  obtain ⟨s, hReach, -, hPut, hGot⟩ := twoRun_reachable
  obtain ⟨-, -, -, hShown, under, hOne, hTyped⟩ := console_safe hReach
  exact ⟨s, hReach, hPut ▸ hShown, under, hOne, hGot ▸ hTyped⟩

/--
**No deadlock.** Whatever the harts have done, the hart under the lock can come out
of it, if the host takes what is in `tohost`.
-/
theorem console_live (h : (spinlock ι console Initial).Reachable s) :
    ∃ s', System.Run (spinlock ι console Initial) s s' ∧ s'.lock = 0 := by
  obtain ⟨t, ht, hR⟩ := spinlock_refines h
  exact spinlock_ends hR (ends_reachable (inv_reachable ht))

theorem console_live_two :
    ∃ s s', s.lock = -1 ∧ System.Run (spinlock (Fin 2) console Initial) s s' ∧ s'.lock = 0 := by
  obtain ⟨s, hReach, hLock, -, -⟩ := twoRun_reachable
  obtain ⟨s', hRun, hFree⟩ := console_live hReach
  exact ⟨s, s', hLock, hRun, hFree⟩

end AbstractMachine.Riscv.Spike
