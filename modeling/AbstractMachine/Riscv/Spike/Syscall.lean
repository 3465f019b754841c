import AbstractMachine.Riscv.Spike.Console

/-!
# System calls of `htif.c`

A system call is a message of device 0, and `do_tohost_fromhost` waits for the one
that answers it; characters and acknowledgements of the console that come first are
handled on the way.  A hart that does not wait finds no answer of device 0 in
`fromhost`, since such an answer is given while a hart waits, under the lock.

## Main results

* `syscall_answered` -- no assertion fails, each system call that has returned has had
  an answer of its own, and the hart under the lock can always come out of it.
-/

namespace AbstractMachine.Riscv.Spike

open AbstractMachine.Lib Section

/-! ## Calls and answers -/

/-- A call of a hart.  The argument of a system call is an address other than 0, and
leaves the upper bytes of the message to the device and the command. -/
inductive Service where
  | console (c : Console)
  | syscall (arg : BitVec 48) (h : arg ≠ 0)

/-- The function that is called. -/
def Service.call : Service → Call
  | .console c => c.call
  | .syscall arg _ => .syscall (arg.setWidth 64)

/-- What it puts into `tohost`. -/
def Service.command : Service → Word64
  | .console c => c.command
  | .syscall arg _ => message 0 0 arg

/-- A call of `htif_syscall`. -/
def Service.isSyscall : Service → Bool
  | .console _ => false
  | .syscall _ _ => true

/-- The host answers a system call with a payload other than 0. -/
def HostStep.proper : HostStep → Bool
  | .done data => data != 0
  | _ => true

/-- The answers to system calls that the host gives in a step. -/
def HostStep.given : HostStep → Nat
  | .done _ => 1
  | _ => 0

/-- The calls under `htif_lock`, with a count of the answers to system calls. -/
def services : Section (Device × Nat) Service Point Int HostStep where
  enter c := c.call.enter
  next p m := ((p.next m.1).1, (p.next m.1).2, m.2)
  env m e := if e.proper then (m.1.host e).map fun s => (s, m.2 + e.given) else none

/-- The memory at the start, when no answer has been given. -/
def Start (m : Device × Nat) : Prop := m = (Device.initial, 0)

/-! ## Messages of system calls -/

/-- 1 for a message of device 0. -/
def system (m : Word64) : Nat := if m ≠ 0 ∧ fromhostDev m = 0 then 1 else 0

/-- An answer to a system call. -/
def Reply (m : Word64) : Prop := m ≠ 0 ∧ fromhostDev m = 0 ∧ fromhostCmd m = 0

/-- The answers that harts have not had. -/
def Device.replies (s : Device) : Nat := (s.queue.map system).sum + system s.fromhost

/-- The system calls under way, asked for or answered. -/
def Device.asking (s : Device) : Nat := system s.tohost + s.calls + s.replies

private theorem system_reply {m : Word64} (h : Reply m) : system m = 1 := if_pos ⟨h.1, h.2.1⟩

private theorem system_expected {m : Word64} (h : Expected m) : system m = 0 := by
  refine if_neg fun hSystem => ?_
  have hDev := h.1.symm.trans hSystem.2
  cases hDev

private theorem system_zero : system 0 = 0 := if_neg fun h => h.1 rfl

private theorem reply_message {p : BitVec 48} (h : p ≠ 0) : Reply (message 0 0 p) := by
  refine ⟨fun hZero => h ?_, fromhostDev_message, fromhostCmd_message⟩
  have hNat := toNat_message (d := 0) (c := 0) (p := p)
  rw [hZero] at hNat
  apply BitVec.eq_of_toNat_eq
  change 0 = 0 * 2 ^ 56 + 0 * 2 ^ 48 + p.toNat at hNat
  show p.toNat = 0
  omega

private theorem system_command (c : Service) : system c.command = if c.isSyscall then 1 else 0 := by
  cases c with
  | console c =>
      refine if_neg fun hSystem => ?_
      have hDev := (command_dev c).symm.trans hSystem.2
      cases hDev
  | syscall arg h => exact system_reply (reply_message h)

/-! ## The invariant -/

/-- What follows on the command of the call. -/
def Service.ends : Service → After → Prop
  | .console _, k => ∃ r, k = .ret r
  | .syscall _ _, k => k = .wait 0 0

/-- 1 if the call has put its command into `tohost`, and waits. -/
def Cont.sent : Cont → Nat
  | .wait _ _ => 1
  | _ => 0

/-- The same of a point. -/
def Point.sent : Point → Nat
  | .check k => k.sent
  | .clear _ k => k.sent
  | .dispatch _ k => k.sent
  | .wait _ _ => 1
  | .accept => 1
  | _ => 0

/-- What a call goes on with. -/
def Cont.serves (c : Service) : Cont → Prop
  | .buf => c = .console .getchar
  | .set m k => m = c.command ∧ c.ends k
  | .wait dev cmd => c.isSyscall = true ∧ dev = 0 ∧ cmd = 0

/-- Where a call can be, and what it knows of the memory there. -/
def Point.serves (c : Service) (s : Device) : Point → Prop
  | .check k => k.serves c ∧ (k.sent = 1 → s.fromhost ≠ 0 ∧ Expected s.fromhost)
  | .clear fh k => fh = s.fromhost ∧ fh ≠ 0 ∧ Expected fh ∧ k.serves c
  | .dispatch fh k => Expected fh ∧ k.serves c
  | .readBuf => c = .console .getchar
  | .clearBuf _ => c = .console .getchar
  | .test m k => (Cont.set m k).serves c
  | .store m k => s.tohost = 0 ∧ (Cont.set m k).serves c
  | .wait dev cmd => (Cont.wait dev cmd).serves c
  | .accept => c.isSyscall = true ∧ system s.fromhost = 1
  | .failed => False

theorem Cont.sent_le (k : Cont) : k.sent ≤ 1 := by
  cases k with
  | wait dev cmd => exact Nat.le_refl 1
  | buf | set m k => exact Nat.zero_le 1

theorem Point.sent_le (p : Point) : p.sent ≤ 1 := by
  cases p with
  | check k | clear fh k | dispatch fh k => exact k.sent_le
  | wait dev cmd | accept => exact Nat.le_refl 1
  | _ => exact Nat.zero_le 1

/-- Whether the call that is inside waits. -/
def waiting : Option (Service × Point) → Nat
  | some (_, p) => p.sent
  | none => 0

/-- The system calls that have returned. -/
def returned (log : List (Service × Int)) : Nat := log.countP fun e => e.1.isSyscall

/-- All messages are expected, and the answers are those to the calls. -/
structure Tracked (t : Serial (Device × Nat) Service Point Int) : Prop where
  serves : ∀ c p, t.inside = some (c, p) → p.serves c t.mem.1
  queue : ∀ m ∈ t.mem.1.queue, Expected m ∨ Reply m
  fromhost : t.mem.1.fromhost = 0 ∨ Expected t.mem.1.fromhost ∨ Reply t.mem.1.fromhost
  tohost : t.mem.1.tohost = 0 ∨ ∃ c : Service, t.mem.1.tohost = c.command
  one : t.mem.1.asking = waiting t.inside
  given : t.mem.2 = returned t.log + t.mem.1.replies

variable {t : Serial (Device × Nat) Service Point Int} {c : Service} {p : Point} {n : Nat}

private theorem tracked_init (h : (services.serial Start).init t) : Tracked t := by
  obtain ⟨hInside, hMem, hLog⟩ := h
  obtain ⟨inside, mem, log⟩ := t
  cases hInside
  cases hMem
  cases hLog
  exact ⟨nofun, nofun, Or.inl rfl, Or.inl rfl, rfl, rfl⟩

theorem Tracked.enter (h : Tracked t) (hNone : t.inside = none) (c : Service) :
    Tracked { t with inside := some (c, services.enter c) } := by
  have hOne := h.one
  rw [hNone] at hOne
  refine ⟨?_, h.queue, h.fromhost, h.tohost, ?_, h.given⟩
  · intro c' p hSome
    cases hSome
    match c with
    | .console .getchar => exact ⟨rfl, nofun⟩
    | .console (.putchar ch) => exact ⟨rfl, 0, rfl⟩
    | .syscall arg hArg => exact ⟨rfl, rfl⟩
  · match c with
    | .console .getchar => exact hOne
    | .console (.putchar ch) => exact hOne
    | .syscall arg hArg => exact hOne

/-! ## The harts -/

/-- From point to point; all messages stay where they are. -/
theorem Tracked.move {s : Device} (h : Tracked t) (hInside : t.inside = some (c, p)) (p' : Point)
    (hServes : p'.serves c s) (hSent : p'.sent = p.sent)
    (hSame : s.queue = t.mem.1.queue ∧ s.fromhost = t.mem.1.fromhost ∧
      s.tohost = t.mem.1.tohost ∧ s.calls = t.mem.1.calls) :
    Tracked { t with inside := some (c, p'), mem := (s, t.mem.2) } := by
  obtain ⟨hQueue, hFrom, hTo, hCalls⟩ := hSame
  have hReplies : s.replies = t.mem.1.replies := by
    unfold Device.replies
    rw [hQueue, hFrom]
  have hOne := h.one
  rw [hInside] at hOne
  refine ⟨?_, hQueue ▸ h.queue, hFrom ▸ h.fromhost, hTo ▸ h.tohost, ?_, ?_⟩
  · intro c' p'' hSome
    cases hSome
    exact hServes
  · show system s.tohost + s.calls + s.replies = p'.sent
    rw [hTo, hCalls, hReplies, hSent]
    exact hOne
  · rw [hReplies]
    exact h.given

private theorem serves_resume {k : Cont} {s : Device} (h : k.serves c) : k.resume.serves c s := by
  cases k <;> exact h

private theorem sent_resume (k : Cont) : k.resume.sent = k.sent := by cases k <;> rfl

/-- While no system call is under way, `fromhost` holds a message of the console. -/
theorem Tracked.expected {k : Cont} (h : Tracked t) (hInside : t.inside = some (c, .check k))
    (hFull : t.mem.1.fromhost ≠ 0) : Expected t.mem.1.fromhost := by
  have hServes := h.serves _ _ hInside
  have hOne := h.one
  rw [hInside] at hOne
  rcases h.fromhost.resolve_left hFull with hExpected | hReply
  · exact hExpected
  · cases k with
    | wait dev cmd => exact (hServes.2 rfl).2
    | buf | set m k =>
        have hNone : system t.mem.1.tohost + t.mem.1.calls +
            ((t.mem.1.queue.map system).sum + system t.mem.1.fromhost) = 0 := hOne
        rw [system_reply hReply] at hNone
        omega

/-- A message of the console is taken out of `fromhost`. -/
theorem Tracked.clear {k : Cont} (h : Tracked t)
    (hInside : t.inside = some (c, .clear t.mem.1.fromhost k)) :
    Tracked { t with
      inside := some (c, .dispatch t.mem.1.fromhost k)
      mem := ({ t.mem.1 with fromhost := 0 }, t.mem.2) } := by
  obtain ⟨-, -, hExpected, hK⟩ := h.serves _ _ hInside
  have hReplies : Device.replies { t.mem.1 with fromhost := 0 } = t.mem.1.replies := by
    unfold Device.replies
    rw [system_expected hExpected]
    exact congrArg _ system_zero
  have hOne := h.one
  rw [hInside] at hOne
  refine ⟨?_, h.queue, Or.inl rfl, h.tohost, ?_, ?_⟩
  · intro c' p' hSome
    cases hSome
    exact ⟨hExpected, hK⟩
  · show system t.mem.1.tohost + t.mem.1.calls + Device.replies _ = k.sent
    rw [hReplies]
    exact hOne
  · rw [hReplies]
    exact h.given

/-- A command goes into `tohost`, which was 0. -/
theorem Tracked.store {m : Word64} {k : After} (h : Tracked t)
    (hInside : t.inside = some (c, .store m k)) :
    Tracked (t.continue c (services.next (.store m k) t.mem)) := by
  obtain ⟨hTohost, rfl, hEnds⟩ := h.serves _ _ hInside
  have hOne : system t.mem.1.tohost + t.mem.1.calls + t.mem.1.replies = 0 :=
    h.one.trans (congrArg waiting hInside)
  have hCommand := system_command c
  cases c with
  | console c =>
      obtain ⟨r, rfl⟩ := hEnds
      have hGiven : t.mem.2 = returned (t.log ++ [(.console c, r)]) + t.mem.1.replies := by
        unfold returned
        rw [List.countP_append]
        exact h.given
      refine ⟨nofun, h.queue, h.fromhost, Or.inr ⟨.console c, rfl⟩, ?_, hGiven⟩
      show system (Service.console c).command + t.mem.1.calls + t.mem.1.replies = 0
      rw [hCommand]
      simp only [Service.isSyscall, Bool.false_eq_true, if_false]
      omega
  | syscall arg hArg =>
      cases hEnds
      refine ⟨?_, h.queue, h.fromhost, Or.inr ⟨.syscall arg hArg, rfl⟩, ?_, h.given⟩
      · intro c' p' hSome
        cases hSome
        exact ⟨rfl, rfl, rfl⟩
      · show system (Service.syscall arg hArg).command + t.mem.1.calls + t.mem.1.replies = 1
        rw [hCommand]
        simp only [Service.isSyscall, if_true]
        omega

/-- The answer is taken, and the call returns. -/
theorem Tracked.accept (h : Tracked t) (hInside : t.inside = some (c, .accept)) :
    Tracked (t.continue c (services.next .accept t.mem)) := by
  obtain ⟨hSyscall, hSystem⟩ := h.serves _ _ hInside
  have hOne : system t.mem.1.tohost + t.mem.1.calls +
      ((t.mem.1.queue.map system).sum + system t.mem.1.fromhost) = 1 :=
    h.one.trans (congrArg waiting hInside)
  have hGiven : t.mem.2 =
      returned t.log + ((t.mem.1.queue.map system).sum + system t.mem.1.fromhost) := h.given
  refine ⟨nofun, h.queue, Or.inl rfl, h.tohost, ?_, ?_⟩
  · show system t.mem.1.tohost + t.mem.1.calls + ((t.mem.1.queue.map system).sum + system 0) = 0
    rw [system_zero]
    omega
  · show t.mem.2 = returned (t.log ++ [(c, 0)]) + ((t.mem.1.queue.map system).sum + system 0)
    have hLog : returned (t.log ++ [(c, 0)]) = returned t.log + 1 := by
      unfold returned
      rw [List.countP_append, List.countP_singleton]
      exact congrArg _ (if_pos hSyscall)
    rw [hLog, system_zero]
    omega

/-- Each point of a call. -/
theorem Tracked.run (h : Tracked t) (hInside : t.inside = some (c, p)) :
    Tracked (t.continue c (services.next p t.mem)) := by
  have hServes := h.serves _ _ hInside
  have hMove : ∀ p' : Point, p'.serves c t.mem.1 → p'.sent = p.sent →
      Tracked { t with inside := some (c, p'), mem := (t.mem.1, t.mem.2) } :=
    fun p' hServes hSent => h.move hInside p' hServes hSent ⟨rfl, rfl, rfl, rfl⟩
  cases p with
  | check k =>
      by_cases hZero : t.mem.1.fromhost = 0
      · have hNext : (Point.check k).next t.mem.1 = (.inl k.resume, t.mem.1) := if_pos hZero
        unfold services
        dsimp only
        rw [hNext]
        exact hMove k.resume (serves_resume hServes.1) (sent_resume k)
      · have hNext : (Point.check k).next t.mem.1 =
            (.inl (.clear t.mem.1.fromhost k), t.mem.1) := if_neg hZero
        unfold services
        dsimp only
        rw [hNext]
        exact hMove (.clear t.mem.1.fromhost k)
          ⟨rfl, hZero, h.expected hInside hZero, hServes.1⟩ rfl
  | clear fh k =>
      obtain ⟨rfl, -⟩ := hServes
      exact h.clear hInside
  | dispatch fh k =>
      obtain ⟨⟨hDev, hCmd⟩, hK⟩ := hServes
      unfold services
      dsimp only
      by_cases hZero : fromhostCmd fh = 0
      · have hNext : (Point.dispatch fh k).next t.mem.1 = _ :=
          next_dispatch_read k t.mem.1 hDev hZero
        rw [hNext]
        exact h.move hInside k.resume (serves_resume hK) (sent_resume k) ⟨rfl, rfl, rfl, rfl⟩
      · have hNext : (Point.dispatch fh k).next t.mem.1 = _ :=
          next_dispatch_ack k t.mem.1 hDev (hCmd.resolve_left hZero)
        rw [hNext]
        exact hMove k.resume (serves_resume hK) (sent_resume k)
  | readBuf =>
      have hOne := h.one
      rw [hInside] at hOne
      unfold services
      dsimp only
      by_cases hNonneg : 0 ≤ t.mem.1.htif_console_buf
      · have hNext : Point.readBuf.next t.mem.1 =
            (.inl (.clearBuf t.mem.1.htif_console_buf), t.mem.1) := if_pos hNonneg
        rw [hNext]
        exact hMove (.clearBuf t.mem.1.htif_console_buf) hServes rfl
      · have hNext : Point.readBuf.next t.mem.1 =
            (.inr (t.mem.1.htif_console_buf - 1), t.mem.1) := if_neg hNonneg
        have hGetchar : c = .console .getchar := hServes
        have hLog : ∀ r, returned (t.log ++ [(c, r)]) = returned t.log := by
          intro r
          unfold returned
          rw [List.countP_append, hGetchar]
          rfl
        rw [hNext]
        refine ⟨nofun, h.queue, h.fromhost, h.tohost, hOne, ?_⟩
        show t.mem.2 = returned (t.log ++ [(c, _)]) + _
        rw [hLog]
        exact h.given
  | clearBuf ch =>
      have hGetchar : c = .console .getchar := hServes
      subst hGetchar
      exact h.move hInside (.test (tohostCmd 1 0 0) (.ret (ch - 1))) ⟨rfl, _, rfl⟩ rfl
        ⟨rfl, rfl, rfl, rfl⟩
  | test m k =>
      unfold services
      dsimp only
      by_cases hFree : t.mem.1.tohost = 0
      · have hNext : (Point.test m k).next t.mem.1 = (.inl (.store m k), t.mem.1) := if_pos hFree
        rw [hNext]
        exact hMove (.store m k) ⟨hFree, hServes⟩ rfl
      · have hNext : (Point.test m k).next t.mem.1 = (.inl (.check (.set m k)), t.mem.1) :=
          if_neg hFree
        rw [hNext]
        exact hMove (.check (.set m k)) ⟨hServes, nofun⟩ rfl
  | store m k => exact h.store hInside
  | wait dev cmd =>
      obtain ⟨hSyscall, rfl, rfl⟩ := hServes
      unfold services
      dsimp only
      by_cases hZero : t.mem.1.fromhost = 0
      · have hNext : (Point.wait 0 0).next t.mem.1 = (.inl (.wait 0 0), t.mem.1) := if_pos hZero
        rw [hNext]
        exact hMove (.wait 0 0) ⟨hSyscall, rfl, rfl⟩ rfl
      · by_cases hMine : fromhostDev t.mem.1.fromhost = 0 ∧ fromhostCmd t.mem.1.fromhost = 0
        · have hNext : (Point.wait 0 0).next t.mem.1 = (.inl .accept, t.mem.1) :=
            (if_neg hZero).trans (if_pos hMine)
          rw [hNext]
          exact hMove .accept ⟨hSyscall, if_pos ⟨hZero, hMine.1⟩⟩ rfl
        · have hNext : (Point.wait 0 0).next t.mem.1 = (.inl (.check (.wait 0 0)), t.mem.1) :=
            (if_neg hZero).trans (if_neg hMine)
          have hExpected : Expected t.mem.1.fromhost :=
            (h.fromhost.resolve_left hZero).resolve_right fun hReply => hMine hReply.2
          rw [hNext]
          exact hMove (.check (.wait 0 0)) ⟨⟨hSyscall, rfl, rfl⟩, fun _ => ⟨hZero, hExpected⟩⟩ rfl
  | accept => exact h.accept hInside
  | failed => exact hServes.elim

/-! ## The host -/

/-- What a call knows of the memory, the host leaves as it is. -/
theorem serves_host {s s' : Device} (hFrom : s.fromhost ≠ 0 → s'.fromhost = s.fromhost)
    (hTo : s.tohost = 0 → s'.tohost = 0) (h : p.serves c s) : p.serves c s' := by
  cases p with
  | check k =>
      refine ⟨h.1, fun hSent => ?_⟩
      obtain ⟨hNe, hExpected⟩ := h.2 hSent
      rw [hFrom hNe]
      exact ⟨hNe, hExpected⟩
  | clear fh k =>
      obtain ⟨rfl, hNe, hRest⟩ := h
      exact ⟨(hFrom hNe).symm, hNe, hRest⟩
  | store m k => exact ⟨hTo h.1, h.2⟩
  | accept =>
      have hNe : s.fromhost ≠ 0 := by
        intro hZero
        have hOne := h.2
        rw [hZero, system_zero] at hOne
        cases hOne
      exact ⟨h.1, by rw [hFrom hNe]; exact h.2⟩
  | _ => exact h

/-- A step of the host, as far as calls see it. -/
theorem Tracked.host_step {s : Device} (h : Tracked t)
    (hFrom : t.mem.1.fromhost ≠ 0 → s.fromhost = t.mem.1.fromhost)
    (hTo : s.tohost = t.mem.1.tohost ∨ s.tohost = 0)
    (hQueue : ∀ m ∈ s.queue, Expected m ∨ Reply m)
    (hMessage : s.fromhost = 0 ∨ Expected s.fromhost ∨ Reply s.fromhost)
    (hAsking : s.asking = t.mem.1.asking) (hReplies : s.replies = t.mem.1.replies + n) :
    Tracked { t with mem := (s, t.mem.2 + n) } := by
  refine ⟨fun c p hInside => ?_, hQueue, hMessage, ?_, hAsking.trans h.one, ?_⟩
  · refine serves_host hFrom (fun hZero => ?_) (h.serves c p hInside)
    rcases hTo with hSame | hTaken
    · rw [hSame, hZero]
    · exact hTaken
  · rcases hTo with hSame | hTaken
    · show s.tohost = 0 ∨ ∃ c : Service, s.tohost = c.command
      rw [hSame]
      exact h.tohost
    · exact Or.inl hTaken
  · show t.mem.2 + n = returned t.log + s.replies
    rw [hReplies, h.given, Nat.add_assoc]

private theorem replies_append {s : Device} (ms : List Word64) :
    Device.replies { s with queue := s.queue ++ ms } = s.replies + (ms.map system).sum := by
  unfold Device.replies
  rw [List.map_append, List.sum_append]
  dsimp only
  omega

/-- What the host does with a command. -/
theorem handle_syscall (s : Device) {arg : BitVec 48} (ack : Bool) :
    Device.handle { s with tohost := 0 } (message 0 0 arg) ack =
      { s with tohost := 0, calls := s.calls + 1 } := by
  have hDev : fromhostDev (message 0 0 arg) = 0 := fromhostDev_message
  have hNe : ¬ fromhostDev (message 0 0 arg) = 1 := by
    rw [hDev]
    decide
  unfold Device.handle
  rw [if_neg hNe, if_pos hDev]

theorem Tracked.take {ack : Bool} (h : Tracked t) (hCommand : t.mem.1.tohost = c.command) :
    Tracked { t with
      mem := (Device.handle { t.mem.1 with tohost := 0 } t.mem.1.tohost ack, t.mem.2) } := by
  have hSystem := system_command c
  match c with
  | .console .getchar =>
      rw [hCommand, Service.command, handle_getchar]
      refine h.host_step (n := 0) (fun _ => rfl) (Or.inr rfl) h.queue h.fromhost ?_ rfl
      unfold Device.asking
      rw [hCommand, hSystem]
      exact congrArg (· + t.mem.1.calls + t.mem.1.replies) system_zero
  | .console (.putchar ch) =>
      rw [hCommand, Service.command, handle_putchar]
      have hAck : ((if ack then [tohostCmd 1 1 0] else []).map system).sum = 0 := by
        cases ack <;> decide
      have hReplies : ∀ shown, Device.replies { t.mem.1 with
          tohost := 0
          shown := shown
          queue := t.mem.1.queue ++ if ack then [tohostCmd 1 1 0] else [] } = t.mem.1.replies := by
        intro shown
        have hAll := replies_append (s := t.mem.1) (if ack then [tohostCmd 1 1 0] else [])
        rw [hAck] at hAll
        exact hAll
      refine h.host_step (n := 0) (fun _ => rfl) (Or.inr rfl) ?_ h.fromhost ?_ (hReplies _)
      · intro m hm
        rcases List.mem_append.mp hm with hOld | hNew
        · exact h.queue m hOld
        · cases ack with
          | false => cases hNew
          | true =>
              rw [List.mem_singleton.mp hNew]
              exact Or.inl expected_ack
      · unfold Device.asking
        rw [hCommand, hSystem, hReplies]
        exact congrArg (· + t.mem.1.calls + t.mem.1.replies) system_zero
  | .syscall arg hArg =>
      rw [hCommand, Service.command, handle_syscall]
      refine h.host_step (n := 0) (fun _ => rfl) (Or.inr rfl) h.queue h.fromhost ?_ rfl
      unfold Device.asking
      rw [hCommand, hSystem]
      show system 0 + (t.mem.1.calls + 1) + t.mem.1.replies = _
      rw [system_zero, Service.isSyscall, if_pos rfl]
      omega

theorem Tracked.answer {m : Word64} {s : Device} (h : Tracked t) (hMessage : Expected m ∨ Reply m)
    (hAsking : s.calls + system m = t.mem.1.calls)
    (hSame : s.queue = t.mem.1.queue ++ [m] ∧ s.fromhost = t.mem.1.fromhost ∧
      s.tohost = t.mem.1.tohost) :
    Tracked { t with mem := (s, t.mem.2 + system m) } := by
  obtain ⟨hQueue, hFrom, hTo⟩ := hSame
  have hReplies : s.replies = t.mem.1.replies + system m := by
    unfold Device.replies
    rw [hQueue, hFrom, List.map_append, List.sum_append, List.map_singleton, List.sum_singleton]
    omega
  refine h.host_step (fun _ => hFrom) (Or.inl hTo) ?_ (hFrom ▸ h.fromhost) ?_ hReplies
  · intro m' hm
    rw [hQueue] at hm
    rcases List.mem_append.mp hm with hOld | hNew
    · exact h.queue m' hOld
    · rw [List.mem_singleton.mp hNew]
      exact hMessage
  · unfold Device.asking
    rw [hReplies, hTo]
    omega

theorem Tracked.send {m : Word64} {queue : List Word64} (h : Tracked t)
    (hQueue : t.mem.1.queue = m :: queue) (hFree : t.mem.1.fromhost = 0) :
    Tracked { t with mem := ({ t.mem.1 with fromhost := m, queue := queue }, t.mem.2) } := by
  have hReplies : Device.replies { t.mem.1 with fromhost := m, queue := queue } =
      t.mem.1.replies := by
    unfold Device.replies
    rw [hQueue, hFree, List.map_cons, List.sum_cons, system_zero]
    dsimp only
    omega
  refine h.host_step (n := 0) (fun hFull => absurd hFree hFull) (Or.inl rfl) ?_
    (Or.inr (h.queue m (hQueue ▸ List.mem_cons_self))) ?_ hReplies
  · intro m' hm
    exact h.queue m' (hQueue ▸ List.mem_cons_of_mem _ hm)
  · exact congrArg (system t.mem.1.tohost + t.mem.1.calls + ·) hReplies

theorem Tracked.host {e : HostStep} {m : Device × Nat} (h : Tracked t)
    (hEnv : services.env t.mem e = some m) : Tracked { t with mem := m } := by
  change (if e.proper then (t.mem.1.host e).map fun s => (s, t.mem.2 + e.given) else none) =
    some m at hEnv
  split at hEnv
  swap
  · cases hEnv
  rename_i hProper
  obtain ⟨s, hHost, rfl⟩ := Option.map_eq_some_iff.mp hEnv
  cases e with
  | take ack =>
      change (if _ then _ else _) = some s at hHost
      split at hHost
      · cases hHost
      · rename_i hNe
        cases Option.some.inj hHost
        obtain ⟨c, hCommand⟩ := h.tohost.resolve_left hNe
        exact h.take hCommand
  | type data =>
      change (if _ then _ else _) = some s at hHost
      split at hHost
      · cases hHost
      · cases Option.some.inj hHost
        have hExpected : Expected (tohostCmd 1 0 (data.setWidth 64)) :=
          ⟨typed_dev data, Or.inl (typed_cmd data)⟩
        have hNone := system_expected hExpected
        have hAnswer := h.answer (s := { t.mem.1 with
          reads := t.mem.1.reads - 1
          typed := t.mem.1.typed ++ [character (tohostCmd 1 0 (data.setWidth 64))]
          queue := t.mem.1.queue ++ [tohostCmd 1 0 (data.setWidth 64)] }) (Or.inl hExpected)
          (by rw [hNone]; rfl) ⟨rfl, rfl, rfl⟩
        rw [hNone] at hAnswer
        exact hAnswer
  | done data =>
      change (if _ then _ else _) = some s at hHost
      split at hHost
      · cases hHost
      · rename_i hCalls
        cases Option.some.inj hHost
        have hReply : Reply (tohostCmd 0 0 (data.setWidth 64)) :=
          reply_message (bne_iff_ne.mp hProper)
        have hOne := system_reply hReply
        have hAnswer := h.answer (s := { t.mem.1 with
          calls := t.mem.1.calls - 1
          queue := t.mem.1.queue ++ [tohostCmd 0 0 (data.setWidth 64)] }) (Or.inr hReply)
          (by rw [hOne]; dsimp only; omega) ⟨rfl, rfl, rfl⟩
        rw [hOne] at hAnswer
        exact hAnswer
  | send =>
      unfold Device.host at hHost
      cases hQueue : t.mem.1.queue with
      | nil =>
          rw [hQueue] at hHost
          cases hHost
      | cons m queue =>
          rw [hQueue] at hHost
          dsimp only at hHost
          split at hHost
          · rename_i hFree
            cases Option.some.inj hHost
            exact h.send hQueue hFree
          · cases hHost

private theorem tracked_reachable (h : (services.serial Start).Reachable t) : Tracked t := by
  refine h.inv (fun _ => tracked_init) ?_
  intro t a t' hInv hStep
  obtain ⟨c, hNone, rfl⟩ | ⟨c, p, hInside, rfl⟩ | ⟨e, m, hEnv, rfl⟩ := serial_cases hStep
  · exact hInv.enter hNone c
  · exact hInv.run hInside
  · exact hInv.host hEnv

/-! ## Ends -/

private theorem served_goes {p' : Point} {s : Device} (h : Tracked t)
    (hInside : t.inside = some (c, p))
    (hNext : p.next t.mem.1 = (.inl p', s))
    (hThen : ∀ t', Tracked t' → t'.inside = some (c, p') → t'.mem = (s, t.mem.2) →
      Ends services t') : Ends services t := by
  have hSection : services.next p t.mem = (.inl p', s, t.mem.2) := by
    unfold services
    dsimp only
    rw [hNext]
  have hTracked := h.run hInside
  rw [hSection] at hTracked
  refine .run t c p hInside ?_
  rw [hSection]
  exact hThen _ hTracked rfl rfl

private theorem served_returns {r : Int} {s : Device} (hInside : t.inside = some (c, p))
    (hNext : p.next t.mem.1 = (.inr r, s)) : Ends services t := by
  refine .run t c p hInside (.done _ ?_)
  unfold services
  dsimp only
  rw [hNext]
  rfl

private theorem served_host {s : Device} (e : HostStep) (h : Tracked t) (hProper : e.proper = true)
    (hHost : t.mem.1.host e = some s)
    (hThen : Tracked { t with mem := (s, t.mem.2 + e.given) } →
      Ends services { t with mem := (s, t.mem.2 + e.given) }) : Ends services t := by
  have hEnv : services.env t.mem e = some (s, t.mem.2 + e.given) := by
    show (if e.proper then _ else _) = _
    rw [if_pos hProper, hHost]
    rfl
  exact .env t e _ hEnv (hThen (h.host hEnv))

/-- What is still to be done before an answer is in `fromhost`. -/
def Device.ahead (s : Device) : Nat :=
  8 * (if s.tohost = 0 then 0 else 1) + 4 * s.calls + 2 * s.queue.length +
    if s.fromhost = 0 then 0 else 1

/-- A message of the console is handled; what comes then is ahead of the call. -/
theorem served_console (h : Tracked t) (hInside : t.inside = some (c, .check (.wait 0 0)))
    (hFull : t.mem.1.fromhost ≠ 0)
    (hWait : ∀ t', Tracked t' → t'.inside = some (c, .wait 0 0) →
      t'.mem.1.ahead < t.mem.1.ahead → Ends services t') : Ends services t := by
  have hLess : ∀ buf, Device.ahead { t.mem.1 with fromhost := 0, htif_console_buf := buf } <
      t.mem.1.ahead := by
    intro buf
    unfold Device.ahead
    rw [if_pos rfl, if_neg hFull]
    dsimp only
    omega
  refine served_goes h hInside (if_neg hFull) fun t₁ h₁ hInside₁ hMem₁ => ?_
  refine served_goes h₁ hInside₁ rfl fun t₂ h₂ hInside₂ hMem₂ => ?_
  obtain ⟨⟨hDev, hCmd⟩, -⟩ := h₂.serves _ _ hInside₂
  rw [hMem₁] at hMem₂
  by_cases hZero : fromhostCmd t.mem.1.fromhost = 0
  · refine served_goes h₂ hInside₂ (next_dispatch_read _ t₂.mem.1 hDev hZero)
      fun t₃ h₃ hInside₃ hMem₃ => hWait t₃ h₃ hInside₃ ?_
    rw [hMem₃, hMem₂]
    exact hLess _
  · refine served_goes h₂ hInside₂ (next_dispatch_ack _ t₂.mem.1 hDev (hCmd.resolve_left hZero))
      fun t₃ h₃ hInside₃ hMem₃ => hWait t₃ h₃ hInside₃ ?_
    rw [hMem₃, hMem₂]
    exact hLess _

private theorem handle_tohost (s : Device) (m : Word64) (ack : Bool) :
    (Device.handle { s with tohost := 0 } m ack).tohost = 0 := by
  unfold Device.handle
  split
  · split
    · rfl
    · split <;> rfl
  · split <;> rfl

/-- While `fromhost` is 0, the host has something to do for a call that waits. -/
theorem served_nearer (h : Tracked t) (hInside : t.inside = some (c, .wait 0 0))
    (hFrom : t.mem.1.fromhost = 0) :
    ∃ e s, e.proper = true ∧ t.mem.1.host e = some s ∧ s.ahead < t.mem.1.ahead := by
  have hSystem : system t.mem.1.tohost + t.mem.1.calls +
      ((t.mem.1.queue.map system).sum + system t.mem.1.fromhost) = 1 :=
    h.one.trans (congrArg waiting hInside)
  rw [hFrom, system_zero] at hSystem
  cases hQueue : t.mem.1.queue with
  | cons m queue =>
      refine ⟨.send, { t.mem.1 with fromhost := m, queue := queue }, rfl, ?_, ?_⟩
      · unfold Device.host
        rw [hQueue]
        exact if_pos hFrom
      · unfold Device.ahead
        rw [hQueue, List.length_cons]
        dsimp only
        split <;> split <;> omega
  | nil =>
      by_cases hCalls : t.mem.1.calls = 0
      · -- the command is still in `tohost`
        have hTohost : system t.mem.1.tohost = 1 := by
          rw [hQueue, hCalls] at hSystem
          exact hSystem
        have hNe : t.mem.1.tohost ≠ 0 := by
          intro hZero
          rw [hZero, system_zero] at hTohost
          cases hTohost
        obtain ⟨d, hCommand⟩ := h.tohost.resolve_left hNe
        have hSyscall := system_command d
        rw [← hCommand, hTohost] at hSyscall
        cases d with
        | console d => cases hSyscall
        | syscall arg hArg =>
            refine ⟨.take false, _, rfl, if_neg hNe, ?_⟩
            rw [hCommand, Service.command, handle_syscall]
            unfold Device.ahead
            rw [if_neg hNe, if_pos rfl]
            dsimp only
            omega
      · refine ⟨.done 1, _, rfl, if_neg hCalls, ?_⟩
        unfold Device.ahead
        rw [List.length_append, List.length_singleton]
        dsimp only
        omega

/-- The host brings the answer. -/
theorem served_wait (h : Tracked t) (hInside : t.inside = some (c, .wait 0 0)) :
    Ends services t := by
  generalize hMeasure : t.mem.1.ahead = k
  induction k using Nat.strong_induction_on generalizing t with
  | _ k ih =>
    subst hMeasure
    by_cases hFrom : t.mem.1.fromhost = 0
    · obtain ⟨e, s, hProper, hHost, hLess⟩ := served_nearer h hInside hFrom
      exact served_host e h hProper hHost fun h' => ih _ hLess h' hInside rfl
    · by_cases hMine : fromhostDev t.mem.1.fromhost = 0 ∧ fromhostCmd t.mem.1.fromhost = 0
      · refine served_goes h hInside ((if_neg hFrom).trans (if_pos hMine))
          fun t' _ hInside' _ => served_returns hInside' rfl
      · refine served_goes h hInside ((if_neg hFrom).trans (if_neg hMine))
          fun t' h' hInside' hMem => served_console h' hInside' ?_ ?_
        · rw [hMem]
          exact hFrom
        · intro t'' h'' hInside'' hLess
          rw [hMem] at hLess
          exact ih _ hLess h'' hInside'' rfl

/-- The command of the call can be stored. -/
theorem served_free {m : Word64} {k : After} (h : Tracked t)
    (hInside : t.inside = some (c, .test m k)) (hFree : t.mem.1.tohost = 0) : Ends services t := by
  refine served_goes h hInside (if_pos hFree) fun t' h' hInside' _ => ?_
  obtain ⟨-, -, hEnds⟩ := h'.serves _ _ hInside'
  cases c with
  | console c =>
      obtain ⟨r, rfl⟩ := hEnds
      exact served_returns hInside' rfl
  | syscall arg hArg =>
      cases hEnds
      exact served_goes h' hInside' rfl fun _ h'' hInside'' _ => served_wait h'' hInside''

/-- The host takes what is in `tohost`. -/
theorem served_test {m : Word64} {k : After} (h : Tracked t)
    (hInside : t.inside = some (c, .test m k)) : Ends services t := by
  by_cases hFree : t.mem.1.tohost = 0
  · exact served_free h hInside hFree
  · exact served_host (.take false) h rfl (if_neg hFree) fun h' =>
      served_free h' hInside (handle_tohost ..)

private theorem served_resume {k : Cont} (h : Tracked t) (hInside : t.inside = some (c, k.resume)) :
    Ends services t := by
  cases k with
  | buf =>
      by_cases hNonneg : 0 ≤ t.mem.1.htif_console_buf
      · exact served_goes h hInside (if_pos hNonneg) fun _ h' hInside' _ =>
          served_goes h' hInside' rfl fun _ h'' hInside'' _ => served_test h'' hInside''
      · exact served_returns hInside (if_neg hNonneg)
  | set m k => exact served_test h hInside
  | wait dev cmd =>
      obtain ⟨-, rfl, rfl⟩ := h.serves _ _ hInside
      exact served_wait h hInside

private theorem served_dispatch {fh : Word64} {k : Cont} (h : Tracked t)
    (hInside : t.inside = some (c, .dispatch fh k)) : Ends services t := by
  obtain ⟨⟨hDev, hCmd⟩, -⟩ := h.serves _ _ hInside
  by_cases hZero : fromhostCmd fh = 0
  · exact served_goes h hInside (next_dispatch_read k t.mem.1 hDev hZero)
      fun _ h' hInside' _ => served_resume h' hInside'
  · exact served_goes h hInside (next_dispatch_ack k t.mem.1 hDev (hCmd.resolve_left hZero))
      fun _ h' hInside' _ => served_resume h' hInside'

private theorem served_check {k : Cont} (h : Tracked t) (hInside : t.inside = some (c, .check k)) :
    Ends services t := by
  by_cases hZero : t.mem.1.fromhost = 0
  · exact served_goes h hInside (if_pos hZero) fun _ h' hInside' _ => served_resume h' hInside'
  · exact served_goes h hInside (if_neg hZero) fun _ h' hInside' _ =>
      served_goes h' hInside' rfl fun _ h'' hInside'' _ => served_dispatch h'' hInside''

private theorem served_reachable (h : Tracked t) : Ends services t := by
  cases hInside : t.inside with
  | none => exact .done t hInside
  | some cp =>
      obtain ⟨c, p⟩ := cp
      have hServes := h.serves c p hInside
      cases p with
      | check k => exact served_check h hInside
      | clear fh k =>
          exact served_goes h hInside rfl fun _ h' hInside' _ => served_dispatch h' hInside'
      | dispatch fh k => exact served_dispatch h hInside
      | readBuf => exact served_resume (k := .buf) h hInside
      | clearBuf ch =>
          exact served_goes h hInside rfl fun _ h' hInside' _ => served_test h' hInside'
      | test m k => exact served_test h hInside
      | store m k =>
          obtain ⟨-, -, hEnds⟩ := hServes
          cases c with
          | console c =>
              obtain ⟨r, rfl⟩ := hEnds
              exact served_returns hInside rfl
          | syscall arg hArg =>
              cases hEnds
              exact served_goes h hInside rfl fun _ h' hInside' _ => served_wait h' hInside'
      | wait dev cmd => exact served_resume (k := .wait dev cmd) h hInside
      | accept => exact served_returns hInside rfl
      | failed => exact hServes.elim

/-! ## The harts together -/

/--
**System calls.** Any number of harts make console calls and system calls in any
interleaving, and the host answers each system call with a payload other than 0.  At
most one hart is under the lock, no assertion fails, and `tohost` is stored to only when
it is 0.  The host has given as many answers to system calls as system calls have
returned, but for one that is under way.  And the hart under the lock can come out of
it, if the host goes on.
-/
theorem syscall_answered {ι : Type} [DecidableEq ι] {s : Locked ι (Device × Nat) Service Point Int}
    (h : (spinlock ι services Start).Reachable s) :
    (∀ i j, (s.hart i).owns → (s.hart j).owns → i = j) ∧
      (∀ i c, s.hart i ≠ .inside c .failed) ∧
      (∀ i c m k, s.hart i = .inside c (.store m k) → s.mem.1.tohost = 0) ∧
      (∃ under, under ≤ 1 ∧ s.mem.2 = returned s.log + under) ∧
      ∃ s', System.Run (spinlock ι services Start) s s' ∧ s'.lock = 0 := by
  obtain ⟨t, ht, hR⟩ := spinlock_refines h
  have hTracked := tracked_reachable ht
  refine ⟨hR.lock.one, fun i c hFailed => ?_, fun i c m k hStore => ?_, ?_,
    spinlock_ends hR (served_reachable hTracked)⟩
  · exact hTracked.serves c .failed ((hR.inside _ _).mpr ⟨i, hFailed⟩)
  · have hServes := hTracked.serves c (.store m k) ((hR.inside _ _).mpr ⟨i, hStore⟩)
    exact hR.mem ▸ hServes.1
  · refine ⟨t.mem.1.replies, ?_, ?_⟩
    · have hOne := hTracked.one
      have hMost : waiting t.inside ≤ 1 := by
        cases t.inside with
        | none => exact Nat.zero_le 1
        | some cp => exact cp.2.sent_le
      unfold Device.asking at hOne
      omega
    · rw [← hR.mem, ← hR.log]
      exact hTracked.given

/-- Two harts that have not called anything. -/
def callingHarts : Locked Bool (Device × Nat) Service Point Int where
  lock := 0
  hart _ := .outside
  mem := (Device.initial, 0)
  log := []

private theorem args_ne_zero : (0x1000 : BitVec 48) ≠ 0 := by decide

/-- A character is written, and acknowledged while the other hart waits for its answer. -/
def callRun : List (LockedStep Bool Service HostStep) :=
  [.call false (.console (.putchar 65)), .run false, .run false, .run false, .run false,
    .run false, .env (.take true), .call true (.syscall 0x1000 args_ne_zero), .run true,
    .run true, .run true, .run true, .env (.take false), .env (.done 1), .env .send, .run true,
    .run true, .run true, .run true, .env .send, .run true, .run true]

/-- The call has returned, and the host has given one answer. -/
theorem syscall_answered_two :
    ∃ s, (spinlock Bool services Start).Reachable s ∧ returned s.log = 1 ∧
      (∀ i c, s.hart i ≠ .inside c .failed) ∧ ∃ under, under ≤ 1 ∧ s.mem.2 = 1 + under := by
  obtain ⟨s, hRun, hLog⟩ :
      ∃ s, (spinlock Bool services Start).steps callingHarts callRun = some s ∧
        returned s.log = 1 := ⟨_, rfl, rfl⟩
  have hReach : (spinlock Bool services Start).Reachable s :=
    ⟨callingHarts, ⟨rfl, fun _ => rfl, rfl, rfl⟩, System.steps_run _ _ hRun⟩
  obtain ⟨-, hFailed, -, hGiven, -⟩ := syscall_answered hReach
  exact ⟨s, hReach, hLog, hFailed, hLog ▸ hGiven⟩

end AbstractMachine.Riscv.Spike
