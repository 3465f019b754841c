import Mathlib.Data.List.Basic
import AbstractMachine.Lib.ByteMem
import AbstractMachine.X86.Header

/-!
# The table of processors

`__am_lapic_init` looks for the floating pointer of the BIOS, which leads to the
configuration table, and counts the entries for processors in it.  These have 20
bytes and all others 8, so that the step is split between the loop and its body.

The reads through `conf` and `ptr` are recorded.
-/

namespace AbstractMachine.X86.Lapic

open AbstractMachine.Lib
open AbstractMachine.Lib.ByteMem (load InBlock)

/-- An `int`. -/
abbrev Word := BitVec 32

/-- A pointer. -/
abbrev Ptr (arch : Arch) := BitVec (wordBits arch)

def MAX_CPU : Word := 8

/-- `"_MP_"`. -/
def MAGIC : Word := 0x5f504d5f

/-- `sizeof(MPConf)`. -/
def sizeofMPConf : Nat := 44

/-! ## The parser -/

/-- How `__am_lapic_init` ends. -/
inductive Ending where
  | returns
  | panic (msg : String)
  | bug
  deriving DecidableEq

/-- The static variables. -/
structure Trm (arch : Arch) where
  /-- `__am_lapic`. -/
  lapic : Ptr arch
  /-- `__am_ncpu`. -/
  ncpu : Word
  /-- The reads through `conf` and `ptr`: where, and how many bytes. -/
  reads : List (Ptr arch × Nat)
  deriving DecidableEq

variable {arch : Arch}

/-- A read of `n` bytes, recorded. -/
def Trm.read (s : Trm arch) (a : Ptr arch) (n : Nat) : Trm arch :=
  { s with reads := s.reads ++ [(a, n)] }

section

variable (m : ByteMem (wordBits arch))

/-- `conf->length`. -/
def confLength (conf : Ptr arch) : BitVec 16 := load m (conf + 4) 2

/-- The inner loop; `none` when it takes more than `fuel` turns. -/
def parseEntries (conf : Ptr arch) : Nat → Ptr arch → Trm arch → Option (Ending × Trm arch)
  | 0, _, _ => none
  | fuel + 1, ptr, s =>
      let s := s.read (conf + 4) 2
      if ptr < conf + (confLength m conf).setWidth _ then
        let s := s.read ptr 1
        if m ptr = 0 then
          let ptr := ptr + 12
          let s := { s with ncpu := s.ncpu + 1 }
          if MAX_CPU.slt s.ncpu then some (.panic "cannot support > MAX_CPU processors", s)
          else parseEntries conf fuel (ptr + 8) s
        else parseEntries conf fuel (ptr + 8) s
      else some (.returns, s)

/-- What is done with the floating pointer at `st`. -/
def parse (fuel : Nat) (st : Ptr arch) (s : Trm arch) : Option (Ending × Trm arch) :=
  let mpconf_ptr : Word := load m (st + 4) 4
  let conf : Ptr arch := mpconf_ptr.setWidth _
  let lapicaddr : Word := load m (conf + 36) 4
  let s := s.read (conf + 36) 4
  let s := { s with lapic := lapicaddr.setWidth _ }
  parseEntries m conf fuel (conf + BitVec.ofNat _ sizeofMPConf) s

/-- The outer loop, for `n` more places. -/
def scan (fuel : Nat) : Nat → Ptr arch → Trm arch → Option (Ending × Trm arch)
  | 0, _, s => some (.bug, s)
  | n + 1, st, s =>
      if load m st 4 = MAGIC then parse m fuel st s else scan fuel n (st + 1) s

/-- `__am_lapic_init`: a scan of the BIOS area for the floating pointer. -/
def lapicInit (fuel : Nat) (s : Trm arch) : Option (Ending × Trm arch) :=
  scan m fuel (0xffffff - 0xf0000) 0xf0000 s

end

/-! ## Tables -/

/-- The size of an entry, by its type byte. -/
def entrySize (t : BitVec 8) : Nat := if t = 0 then 20 else 8

/-- The bytes of the entries together. -/
def sizes : List (BitVec 8) → Nat
  | [] => 0
  | t :: ts => entrySize t + sizes ts

/-- The number of entries for processors. -/
def processors (ts : List (BitVec 8)) : Nat := ts.count 0

/-- Where the entries begin. -/
def places (p : Ptr arch) : List (BitVec 8) → List (Ptr arch)
  | [] => []
  | t :: ts => p :: places (p + BitVec.ofNat _ (entrySize t)) ts

/-- The entries `ts` follow each other from `p` on. -/
def Laid (m : ByteMem (wordBits arch)) (p : Ptr arch) : List (BitVec 8) → Prop
  | [] => True
  | t :: ts => m p = t ∧ Laid m (p + BitVec.ofNat _ (entrySize t)) ts

/-- A configuration table with the entries `ts`, which fill it. -/
structure Table (m : ByteMem (wordBits arch)) (conf : Ptr arch) (ts : List (BitVec 8)) :
    Prop where
  entries : Laid m (conf + BitVec.ofNat _ sizeofMPConf) ts
  length : (confLength m conf).toNat = sizeofMPConf + sizes ts
  object : conf.toNat + (confLength m conf).toNat < 2 ^ wordBits arch

/-- The first floating pointer leads to the table at `conf`. -/
structure Pointer (m : ByteMem (wordBits arch)) (k : Nat) (conf : Word) : Prop where
  lt : k < 0xffffff - 0xf0000
  magic : load m (0xf0000 + BitVec.ofNat (wordBits arch) k) 4 = MAGIC
  first : ∀ j, j < k → load m (0xf0000 + BitVec.ofNat (wordBits arch) j) 4 ≠ MAGIC
  conf : load m (0xf0000 + BitVec.ofNat (wordBits arch) k + 4) 4 = conf

/-- The type bytes that have been looked at. -/
def Trm.types (s : Trm arch) : List (Ptr arch) :=
  (s.reads.filter fun r => r.2 = 1).map Prod.fst

/-- All reads stay in the table. -/
def Trm.Inside (s : Trm arch) (conf : Ptr arch) (len : Nat) : Prop :=
  ∀ r ∈ s.reads, ∀ x, InBlock r.1 r.2 x → InBlock conf len x

/-! ## The loop -/

variable {m : ByteMem (wordBits arch)} {conf p a : Ptr arch} {s : Trm arch} {t : BitVec 8}
  {ts : List (BitVec 8)} {fuel n k len : Nat}

private theorem types_read (s : Trm arch) (a : Ptr arch) (n : Nat) :
    (s.read a n).types = s.types ++ if n = 1 then [a] else [] := by
  unfold Trm.types Trm.read
  rw [List.filter_append, List.map_append]
  by_cases hn : n = 1
  · simp [hn]
  · simp [hn]

theorem Trm.Inside.read (h : s.Inside conf len) (hIn : ∀ x, InBlock a n x → InBlock conf len x) :
    (s.read a n).Inside conf len := by
  intro r hr
  rcases List.mem_append.mp hr with hr | hr
  · exact h r hr
  · rw [List.mem_singleton.mp hr]
    exact hIn

/-- A field of the header lies in the table. -/
theorem inside_header (hk : k + n ≤ len) (hLen : len ≤ 2 ^ wordBits arch) :
    ∀ x, InBlock (conf + BitVec.ofNat _ k) n x → InBlock conf len x :=
  fun _ hx => ByteMem.inBlock_sub hx hk hLen

private theorem entrySize_pos (t : BitVec 8) : 8 ≤ entrySize t := by
  unfold entrySize
  split <;> decide

/-- The address after an entry, which does not wrap around. -/
theorem toNat_next (h : p.toNat + k < 2 ^ wordBits arch) :
    (p + BitVec.ofNat (wordBits arch) k).toNat = p.toNat + k := by
  rw [BitVec.toNat_add, BitVec.toNat_ofNat, Nat.add_mod_mod]
  exact Nat.mod_eq_of_lt h

private theorem toNat_confEnd (h : conf.toNat + (confLength m conf).toNat < 2 ^ wordBits arch) :
    (conf + (confLength m conf).setWidth (wordBits arch)).toNat =
      conf.toNat + (confLength m conf).toNat := by
  rw [BitVec.toNat_add, BitVec.toNat_setWidth, Nat.add_mod_mod]
  exact Nat.mod_eq_of_lt h

/-- How a run of the loop ends that starts with `c` processors counted. -/
structure Parsed (conf p : Ptr arch) (len c : Nat) (ts : List (BitVec 8)) (s : Trm arch)
    (r : Ending × Trm arch) : Prop where
  lapic : r.2.lapic = s.lapic
  inside : s.Inside conf len → r.2.Inside conf len
  counted : c + processors ts ≤ MAX_CPU.toNat →
    r.1 = .returns ∧ r.2.ncpu.toNat = c + processors ts ∧ r.2.types = s.types ++ places p ts
  panics : MAX_CPU.toNat < c + processors ts →
    r.1 = .panic "cannot support > MAX_CPU processors" ∧
      ∃ seen, seen <+: places p ts ∧ r.2.types = s.types ++ seen

/-- The test of the loop and the look at the type. -/
def Trm.look (s : Trm arch) (conf p : Ptr arch) : Trm arch := (s.read (conf + 4) 2).read p 1

private theorem types_look (s : Trm arch) (conf p : Ptr arch) :
    (s.look conf p).types = s.types ++ [p] := by
  unfold Trm.look
  rw [types_read, types_read, if_neg (by decide), if_pos rfl, List.append_nil]

theorem Trm.Inside.look (h : s.Inside conf len) (hHead : sizeofMPConf ≤ len)
    (hObject : conf.toNat + len < 2 ^ wordBits arch) (hFirst : conf.toNat ≤ p.toNat)
    (hLast : p.toNat < conf.toNat + len) : (s.look conf p).Inside conf len := by
  unfold sizeofMPConf at hHead
  refine (h.read (inside_header (k := 4) (by omega) (by omega))).read ?_
  intro x hx
  rw [ByteMem.inBlock_iff (by omega)] at hx ⊢
  omega

/-- What one turn does with an entry. -/
theorem parseEntries_turn (hMore : p < conf + (confLength m conf).setWidth _) (fuel : Nat) :
    parseEntries m conf (fuel + 1) p s =
      if m p = 0 then
        if MAX_CPU.slt (s.ncpu + 1) then
          some (.panic "cannot support > MAX_CPU processors",
            { s.look conf p with ncpu := s.ncpu + 1 })
        else parseEntries m conf fuel (p + 12 + 8) { s.look conf p with ncpu := s.ncpu + 1 }
      else parseEntries m conf fuel (p + 8) (s.look conf p) := by
  rw [parseEntries]
  dsimp only
  rw [if_pos hMore]
  rfl

/-- The number of processors is compared as an `int`. -/
theorem slt_next {c : Word} (h : c.toNat ≤ MAX_CPU.toNat) :
    (c + 1).toNat = c.toNat + 1 ∧
      MAX_CPU.slt (c + 1) = decide (MAX_CPU.toNat < c.toNat + 1) := by
  have hMax : MAX_CPU.toNat = 8 := rfl
  have hSucc : (c + 1).toNat = c.toNat + 1 := by
    rw [BitVec.toNat_add]
    exact Nat.mod_eq_of_lt (by show c.toNat + 1 < _; omega)
  have hInt : (c + 1).toInt = (c + 1).toNat := by
    rw [BitVec.toInt_eq_toNat_cond, if_pos (by omega)]
  have hMaxInt : MAX_CPU.toInt = MAX_CPU.toNat := by decide
  refine ⟨hSucc, ?_⟩
  rw [BitVec.slt_eq_decide, hInt, hMaxInt, hSucc]
  exact decide_eq_decide.mpr Int.ofNat_lt

/-- A turn, and the turns after it. -/
theorem Parsed.cons {s' : Trm arch} {r : Ending × Trm arch} {q : Ptr arch} {c c' : Nat}
    (h : Parsed conf q len c' ts s' r) (hPlaces : q = p + BitVec.ofNat _ (entrySize t))
    (hLapic : s'.lapic = s.lapic) (hTypes : s'.types = s.types ++ [p])
    (hInside : s.Inside conf len → s'.Inside conf len)
    (hCount : c' + processors ts = c + processors (t :: ts)) :
    Parsed conf p len c (t :: ts) s r := by
  have hSeen : ∀ l, s'.types ++ l = s.types ++ p :: l := by
    intro l
    rw [hTypes, List.append_assoc]
    rfl
  subst hPlaces
  refine ⟨h.lapic.trans hLapic, fun hs => h.inside (hInside hs), ?_, ?_⟩
  · intro hLe
    rw [← hCount] at hLe ⊢
    obtain ⟨hEnding, hNcpu, hAll⟩ := h.counted hLe
    exact ⟨hEnding, hNcpu, hAll.trans (hSeen _)⟩
  · intro hLt
    rw [← hCount] at hLt
    obtain ⟨hEnding, seen, hPrefix, hAll⟩ := h.panics hLt
    exact ⟨hEnding, p :: seen, List.cons_prefix_cons.mpr ⟨rfl, hPrefix⟩, hAll.trans (hSeen _)⟩

/-- From the first of the entries `ts` on. -/
theorem parseEntries_parsed (hLaid : Laid m p ts)
    (hEnd : p.toNat + sizes ts = conf.toNat + (confLength m conf).toNat)
    (hHead : conf.toNat + sizeofMPConf ≤ p.toNat)
    (hObject : conf.toNat + (confLength m conf).toNat < 2 ^ wordBits arch)
    (hCount : s.ncpu.toNat ≤ MAX_CPU.toNat) (hFuel : ts.length < fuel) :
    ∃ r, parseEntries m conf fuel p s = some r ∧
      Parsed conf p (confLength m conf).toNat s.ncpu.toNat ts s r := by
  have hTable : sizeofMPConf ≤ (confLength m conf).toNat := by omega
  induction ts generalizing p s fuel with
  | nil =>
      obtain ⟨f, rfl⟩ := Nat.exists_eq_add_one_of_ne_zero (Nat.ne_of_gt hFuel)
      rw [sizes] at hEnd
      have hStop : ¬ p < conf + (confLength m conf).setWidth _ := by
        rw [BitVec.lt_def, toNat_confEnd hObject]
        omega
      rw [parseEntries]
      dsimp only
      rw [if_neg hStop]
      refine ⟨_, rfl, rfl, ?_, ?_, ?_⟩
      · intro hInside
        unfold sizeofMPConf at hTable
        exact hInside.read (inside_header (k := 4) (by omega) (by omega))
      · intro _
        refine ⟨rfl, rfl, ?_⟩
        rw [types_read, if_neg (by decide)]
        rfl
      · intro hLt
        exact absurd hCount (Nat.not_le_of_gt hLt)
  | cons t ts ih =>
      obtain ⟨f, rfl⟩ := Nat.exists_eq_add_one_of_ne_zero (Nat.ne_of_gt (Nat.zero_lt_of_lt hFuel))
      obtain ⟨hType, hRest⟩ := hLaid
      rw [List.length_cons] at hFuel
      have hFewer : ts.length < f := by omega
      rw [sizes] at hEnd
      have hSize := entrySize_pos t
      have hMore : p < conf + (confLength m conf).setWidth _ := by
        rw [BitVec.lt_def, toNat_confEnd hObject]
        omega
      have hNext := toNat_next (p := p) (k := entrySize t) (by omega)
      have hInside : s.Inside conf (confLength m conf).toNat →
          (s.look conf p).Inside conf (confLength m conf).toNat :=
        fun hs => hs.look hTable hObject (by omega) (by omega)
      rw [parseEntries_turn hMore, hType]
      by_cases hCpu : t = 0
      · obtain ⟨hSucc, hSlt⟩ := slt_next hCount
        have hProcessors : processors (t :: ts) = processors ts + 1 := by
          rw [hCpu]
          exact List.count_cons_self
        rw [if_pos hCpu, hSlt]
        by_cases hMany : MAX_CPU.toNat < s.ncpu.toNat + 1
        · rw [if_pos (decide_eq_true hMany)]
          refine ⟨_, rfl, rfl, hInside, ?_, ?_⟩
          · intro hLe
            omega
          · intro _
            exact ⟨rfl, [p], ⟨_, rfl⟩, types_look s conf p⟩
        · have hStep : p + 12 + 8 = p + BitVec.ofNat _ (entrySize t) := by
            rw [hCpu, BitVec.add_assoc]
            show p + (BitVec.ofNat _ 12 + BitVec.ofNat _ 8) = _
            rw [BitVec.ofNat_add_ofNat]
            rfl
          rw [if_neg (by rw [decide_eq_false hMany]; exact Bool.false_ne_true), hStep]
          obtain ⟨r, hRun, hr⟩ := ih (s := { s.look conf p with ncpu := s.ncpu + 1 })
            hRest (by omega) (by omega) (by show (s.ncpu + 1).toNat ≤ _; omega) hFewer
          have hCounted : (s.ncpu + 1).toNat + processors ts =
              s.ncpu.toNat + processors (t :: ts) := by omega
          exact ⟨r, hRun, hr.cons rfl rfl (types_look s conf p) hInside hCounted⟩
      · have hStep : p + 8 = p + BitVec.ofNat _ (entrySize t) := by
          unfold entrySize
          rw [if_neg hCpu]
          rfl
        have hProcessors : processors (t :: ts) = processors ts := List.count_cons_of_ne hCpu
        rw [if_neg hCpu, hStep]
        obtain ⟨r, hRun, hr⟩ := ih (s := s.look conf p) hRest (by omega) (by omega) hCount hFewer
        exact ⟨r, hRun, hr.cons rfl rfl (types_look s conf p) hInside
          (congrArg (s.ncpu.toNat + ·) hProcessors.symm)⟩

/-! ## The search -/

/-- The search stops at the first floating pointer. -/
theorem scan_first {st : Ptr arch} (hMagic : load m (st + BitVec.ofNat _ k) 4 = MAGIC)
    (hFirst : ∀ j, j < k → load m (st + BitVec.ofNat _ j) 4 ≠ MAGIC) (hk : k < n) :
    scan m fuel n st s = parse m fuel (st + BitVec.ofNat _ k) s := by
  induction k generalizing n st with
  | zero =>
      obtain ⟨n, rfl⟩ := Nat.exists_eq_add_one_of_ne_zero (Nat.ne_of_gt hk)
      rw [BitVec.add_zero] at hMagic ⊢
      rw [scan, if_pos hMagic]
  | succ k ih =>
      obtain ⟨n, rfl⟩ := Nat.exists_eq_add_one_of_ne_zero (Nat.ne_of_gt (Nat.zero_lt_of_lt hk))
      have hNext : ∀ j, st + BitVec.ofNat _ (j + 1) = st + 1 + BitVec.ofNat _ j := by
        intro j
        rw [Nat.add_comm, BitVec.ofNat_add, BitVec.add_assoc]
        rfl
      have hNot := hFirst 0 (Nat.succ_pos k)
      rw [BitVec.add_zero] at hNot
      rw [scan, if_neg hNot, hNext]
      apply ih
      · rwa [← hNext]
      · intro j hj
        rw [← hNext]
        exact hFirst (j + 1) (Nat.succ_lt_succ hj)
      · exact Nat.lt_of_succ_lt_succ hk

/-- Before `__am_lapic_init`. -/
def boot : Trm arch := { lapic := 0, ncpu := 0, reads := [] }

/--
**Counting the processors.** For any sequence of entries that fills the table, the
parser returns with the number of processors if there are at most `MAX_CPU`, after
one look at the type of every entry, and panics otherwise.  It reads nothing
beyond the table.
-/
theorem lapic_init_counts (m : ByteMem (wordBits arch)) (k : Nat) (conf : Word)
    (ts : List (BitVec 8)) (fuel : Nat) (hPointer : Pointer m k conf)
    (hTable : Table m (conf.setWidth _) ts) (hFuel : ts.length < fuel) :
    ∃ ending s, lapicInit m fuel boot = some (ending, s) ∧
      s.Inside (conf.setWidth _) (confLength m (conf.setWidth _)).toNat ∧
      (processors ts ≤ MAX_CPU.toNat → ending = .returns ∧ s.ncpu.toNat = processors ts ∧
        s.types = places (conf.setWidth _ + BitVec.ofNat _ sizeofMPConf) ts) ∧
      (MAX_CPU.toNat < processors ts →
        ending = .panic "cannot support > MAX_CPU processors" ∧
          s.types <+: places (conf.setWidth _ + BitVec.ofNat _ sizeofMPConf) ts) := by
  obtain ⟨hEntries, hLength, hObject⟩ := hTable
  generalize hConf : (conf.setWidth _ : Ptr arch) = c at hEntries hLength hObject ⊢
  have hHead := toNat_next (p := c) (k := sizeofMPConf) (by omega)
  let s : Trm arch :=
    { boot.read (c + 36) 4 with lapic := (load m (c + 36) 4 : Word).setWidth _ }
  obtain ⟨r, hRun, hr⟩ := parseEntries_parsed (s := s) hEntries (by omega) (by omega) hObject
    (Nat.zero_le _) hFuel
  refine ⟨r.1, r.2, ?_, ?_, ?_, ?_⟩
  · unfold lapicInit
    rw [scan_first hPointer.magic hPointer.first hPointer.lt]
    unfold parse
    rw [hPointer.conf]
    dsimp only
    rw [hConf]
    exact hRun
  · apply hr.inside
    have hNone : (boot : Trm arch).Inside c (confLength m c).toNat := by
      intro r hr
      cases hr
    unfold sizeofMPConf at hLength
    exact hNone.read (inside_header (k := 36) (by omega) (by omega))
  · intro hLe
    have hSum : s.ncpu.toNat + processors ts = processors ts := Nat.zero_add _
    obtain ⟨hEnding, hNcpu, hTypes⟩ := hr.counted (by rwa [hSum])
    exact ⟨hEnding, hNcpu.trans hSum, hTypes⟩
  · intro hLt
    have hSum : s.ncpu.toNat + processors ts = processors ts := Nat.zero_add _
    obtain ⟨hEnding, seen, hPrefix, hTypes⟩ := hr.panics (by rwa [hSum])
    refine ⟨hEnding, ?_⟩
    rw [hTypes]
    exact hPrefix

/-- A floating pointer at 0xf0000, and a table with one processor and one bus. -/
def oneCpu : ByteMem (wordBits .i386) := fun x =>
  if x.toNat = 0x1004 then 72
  else if x.toNat = 0x1040 then 1
  else [0x5f, 0x4d, 0x50, 0x5f, 0x00, 0x10, 0x00, 0x00].getD (x - 0xf0000).toNat 0

theorem lapic_init_counts_one :
    ∃ s, lapicInit oneCpu 3 boot = some (.returns, s) ∧ s.ncpu.toNat = 1 ∧
      s.types = [0x102c, 0x1040] := by
  have hPointer : Pointer oneCpu 0 0x1000 :=
    ⟨by decide, by decide, fun _ hj => absurd hj (Nat.not_lt_zero _), by decide⟩
  have hTable : Table oneCpu (BitVec.setWidth _ (0x1000 : Word)) [0, 1] :=
    ⟨⟨by decide, by decide, trivial⟩, by decide, by decide⟩
  obtain ⟨ending, s, hRun, -, hCounted, -⟩ :=
    lapic_init_counts oneCpu 0 0x1000 [0, 1] 3 hPointer hTable (by decide)
  obtain ⟨rfl, hNcpu, hTypes⟩ := hCounted (by decide)
  exact ⟨s, hRun, hNcpu, hTypes⟩

end AbstractMachine.X86.Lapic
