import AbstractMachine.X86.Vme.Entry

/-!
# The hardware page walk

What the processor does with the tables, independently of `vme.c`: the
linear address is cut into fixed digits, each level contributes its
write and user bits, and a walk ends at the last level or at a large page.
The address field of a 64-bit entry ends with bit 51; what stands above it is not
part of the address.

`hwWalk_rep` evaluates the walk on a represented tree and `hwWalk_congr` is
its frame rule on a set of pages that is closed under the walk.
-/

namespace AbstractMachine.X86.Vme

open AbstractMachine.Lib

/-- One level of the processor's walk; at a `large` level an entry with the
page-size bit ends the walk. -/
structure HwLevel where
  shift : Nat
  bits : Nat
  large : Bool
  deriving DecidableEq, Repr

/-- The levels of 32-bit paging (without CR4.PSE) and of 4-level paging. -/
def hwLevels : Arch → List HwLevel
  | .i386 => [⟨22, 10, false⟩, ⟨12, 10, false⟩]
  | .x86_64 => [⟨39, 9, false⟩, ⟨30, 9, true⟩, ⟨21, 9, true⟩, ⟨12, 9, false⟩]

/-- The digit of the linear address that indexes a level. -/
def HwLevel.index (l : HwLevel) (addr : Nat) : Nat := addr / 2 ^ l.shift % 2 ^ l.bits

/-- The outcome of a successful walk. -/
structure Translation where
  paddr : Nat
  writable : Bool
  user : Bool
  deriving DecidableEq, Repr

section

variable (arch : Arch) (mem : Nat → Nat) (addr : Nat)

/-- The walk from the table at `base`, with the access bits so far. -/
def hwWalk : List HwLevel → Nat → Bool → Bool → Option Translation
  | [], _, _, _ => none
  | l :: ls, base, w, u =>
      let entry := mem (base + l.index addr * wordBytes arch)
      if entry &&& pteP = 0 then none
      else if ls = [] ∨ (l.large = true ∧ entry &&& ptePS ≠ 0) then
        some
          { paddr := frameOf arch entry l.shift + addr % 2 ^ l.shift
            writable := w && decide (entry &&& pteW ≠ 0)
            user := u && decide (entry &&& pteU ≠ 0) }
      else
        hwWalk ls (frameOf arch entry 12) (w && decide (entry &&& pteW ≠ 0))
          (u && decide (entry &&& pteU ≠ 0))

/-- The translation of `addr` when CR3 holds `cr3`. -/
def translate (cr3 : Nat) : Option Translation :=
  hwWalk arch mem addr (hwLevels arch) (frameOf arch cr3 12) true true

end

/-- The levels of `mmu` cut the address the way the processor does, down to
4 KiB pages. -/
def HwMatch : List HwLevel → List PtInfo → Prop
  | [], [] => True
  | l :: ls, info :: infos =>
      l.shift = info.shift ∧ l.bits = info.bits ∧
        (infos = [] → info.shift = 12) ∧ HwMatch ls infos
  | _, _ => False

theorem hwMatch (arch : Arch) : HwMatch (hwLevels arch) (tables arch) := by
  cases arch <;> simp [HwMatch, hwLevels, tables, mmu]

theorem HwLevel.index_eq {arch : Arch} {l : HwLevel} {info : PtInfo}
    (h : LevelOk arch info) (hShift : l.shift = info.shift)
    (hBits : l.bits = info.bits) (addr : Nat) :
    l.index addr = indexof addr info := by
  rw [HwLevel.index, indexof_eq h, hShift, hBits]

/--
The walk below a represented slot: the tree's mapping of the address, with
the access bits collected on the way.
-/
theorem hwWalk_rep {arch : Arch} (user : Bool) {mem : Nat → Nat} {addr : Nat} :
    ∀ (infos : List PtInfo) (ls : List HwLevel) (info : PtInfo) (l : HwLevel)
      (base : Nat) (w u : Bool) (t : RadixTree Mapping),
      (∀ i ∈ info :: infos, LevelOk arch i) →
      HwMatch (l :: ls) (info :: infos) →
      (layout arch user).SlotRep mem (infos.map fanout) t
        (base + indexof addr info * wordBytes arch) →
      (∀ q, t.Owns q → Addressable arch q) →
      hwWalk arch mem addr (l :: ls) base w u =
        (t.find (path addr infos)).map fun m =>
          { paddr := physical arch m.pa + addr % 4096
            writable := w && m.writable
            user := u && user } := by
  intro infos
  induction infos with
  | nil =>
      intro ls info l base w u t hOk hMatch hRep _
      obtain ⟨hShift, hBits, hLast, hNil⟩ := hMatch
      have hls : ls = [] := by
        cases ls with
        | nil => rfl
        | cons l' ls => exact absurd hNil id
      have h12 : l.shift = 12 := hShift.trans (hLast rfl)
      have hIndex := HwLevel.index_eq (hOk info (by simp)) hShift hBits addr
      rw [hwWalk, hIndex]
      cases t with
      | empty =>
          rw [(slotRep_empty _ _).mp hRep]
          simp [path]
      | leaf m =>
          have hWord : mem (base + indexof addr info * wordBytes arch) =
            (layout arch user).entry m := hRep
          rw [hWord, if_neg (entry_present m), if_pos (Or.inl hls), h12,
            entry_user, entry_write, entry_frame]
          rfl
      | table p kids => exact absurd hRep id
  | cons next infos ih =>
      intro ls info l base w u t hOk hMatch hRep hBelow
      obtain ⟨hShift, hBits, _, hTail⟩ := hMatch
      cases ls with
      | nil => exact absurd hTail id
      | cons l' ls =>
          have hIndex := HwLevel.index_eq (hOk info (by simp)) hShift hBits addr
          rw [hwWalk, hIndex]
          cases t with
          | empty =>
              rw [(slotRep_empty _ _).mp hRep]
              simp
          | leaf m => exact absurd hRep id
          | table p kids =>
              obtain ⟨hLink, hAligned, _, hKids, _⟩ := hRep
              have hNext : LevelOk arch next := hOk next (by simp)
              have hKid := hKids _ (indexof_lt hNext addr)
              have hWalk := ih ls next l' p w (u && user) _
                (fun i hi => hOk i (List.mem_cons_of_mem info hi)) hTail hKid
                (fun q hq => hBelow q (Or.inr ⟨_, hq⟩))
              have hMore : ¬ ((l' :: ls) = [] ∨ (l.large = true ∧
                  (layout arch user).link p &&& ptePS ≠ 0)) := by
                simp [link_small hAligned]
              rw [hLink, if_neg (link_present hAligned), if_neg hMore,
                link_frame hAligned (hBelow p (Or.inl rfl)), link_user hAligned,
                decide_eq_true (link_write hAligned), Bool.and_true, hWalk,
                Bool.and_assoc, Bool.and_self]
              rfl

/-- Every table a walk can reach from `base` sits in a page of `pages`. -/
def WalkClosed (arch : Arch) (mem : Nat → Nat) (pages : Nat → Prop) :
    List HwLevel → Nat → Prop
  | [], _ => True
  | l :: ls, base =>
      pages base ∧ 2 ^ l.bits * wordBytes arch ≤ 4096 ∧
        ∀ i < 2 ^ l.bits,
          let entry := mem (base + i * wordBytes arch)
          entry &&& pteP = 0 ∨ ls = [] ∨
            (l.large = true ∧ entry &&& ptePS ≠ 0) ∨
            WalkClosed arch mem pages ls (frameOf arch entry 12)

/-- The frame rule of the walk. -/
theorem hwWalk_congr {arch : Arch} {mem mem' : Nat → Nat} {pages : Nat → Prop}
    {addr : Nat} (hSame : ∀ p x, pages p → InPage 4096 p x → mem' x = mem x) :
    ∀ (ls : List HwLevel) (base : Nat) (w u : Bool),
      WalkClosed arch mem pages ls base →
      hwWalk arch mem' addr ls base w u = hwWalk arch mem addr ls base w u := by
  intro ls
  induction ls with
  | nil => intro base w u _; rfl
  | cons l ls ih =>
      intro base w u hClosed
      obtain ⟨hBase, hFits, hEntries⟩ := hClosed
      have hIndex : l.index addr < 2 ^ l.bits := Nat.mod_lt _ (Nat.two_pow_pos _)
      have hIn : InPage 4096 base (base + l.index addr * wordBytes arch) :=
        inPage_slot hIndex (layout arch true).stride_pos hFits
      have hWord := hSame base _ hBase hIn
      rw [hwWalk, hwWalk, hWord]
      rcases hEntries _ hIndex with hAbsent | hLast | hLarge | hNext
      · rw [if_pos hAbsent, if_pos hAbsent]
      · rw [if_pos (Or.inl hLast), if_pos (Or.inl hLast)]
      · rw [if_pos (Or.inr hLarge), if_pos (Or.inr hLarge)]
      · rw [ih _ _ _ hNext]

/-- Closure under the walk only depends on the pages themselves. -/
theorem WalkClosed.congr {arch : Arch} {mem mem' : Nat → Nat} {pages : Nat → Prop}
    (hSame : ∀ p x, pages p → InPage 4096 p x → mem' x = mem x) :
    ∀ (ls : List HwLevel) (base : Nat), WalkClosed arch mem pages ls base →
      WalkClosed arch mem' pages ls base := by
  intro ls
  induction ls with
  | nil => intro base _; trivial
  | cons l ls ih =>
      intro base hClosed
      obtain ⟨hBase, hFits, hEntries⟩ := hClosed
      refine ⟨hBase, hFits, fun i hi => ?_⟩
      have hIn : InPage 4096 base (base + i * wordBytes arch) :=
        inPage_slot hi (layout arch true).stride_pos hFits
      rw [hSame base _ hBase hIn]
      rcases hEntries i hi with hAbsent | hLast | hLarge | hNext
      · exact Or.inl hAbsent
      · exact Or.inr (Or.inl hLast)
      · exact Or.inr (Or.inr (Or.inl hLarge))
      · exact Or.inr (Or.inr (Or.inr (ih _ hNext)))

end AbstractMachine.X86.Vme
