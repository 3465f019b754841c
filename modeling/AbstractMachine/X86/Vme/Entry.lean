import AbstractMachine.X86.Vme.Model
import Mathlib.Tactic.Common

/-!
# Page-table entries and indices

Arithmetic of the words `vme.c` stores in its tables: or-ing flags into an
aligned base, testing them and masking the base out again, and the index of
each level as a digit of the address.
-/

namespace AbstractMachine.X86.Vme

open AbstractMachine.Lib

/-! ## Flags -/

@[simp] theorem mmu_pgsize (arch : Arch) : (mmu arch).pgsize = 4096 := by
  cases arch <;> rfl

private theorem and_4095 (x : Nat) : x &&& 4095 = x % 4096 :=
  Nat.and_two_pow_sub_one_eq_mod x 12

private theorem baseof_eq (arch : Arch) (x : Nat) : baseof arch x = x - x % 4096 := by
  rw [baseof, mmu_pgsize, and_4095]

theorem roundDown_eq (x : Nat) : roundDown x 4096 = x - x % 4096 := by
  rw [roundDown, and_4095]

theorem roundDown_mod (x : Nat) : roundDown x 4096 % 4096 = 0 := by
  rw [roundDown_eq]
  omega

/-- Flags sit in the low twelve bits, where an aligned address is zero. -/
theorem aligned_and {p g : Nat} (hp : p % 4096 = 0) (hg : g < 4096) :
    p &&& g = 0 := by
  have hmask : g &&& 4095 = g := by
    rw [and_4095, Nat.mod_eq_of_lt hg]
  calc p &&& g = p &&& (g &&& 4095) := by rw [hmask]
    _ = (p &&& 4095) &&& g := by
        rw [Nat.and_comm g 4095, Nat.and_assoc]
    _ = 0 := by rw [and_4095, hp, Nat.zero_and]

theorem or_and_flag {p f g : Nat} (hp : p % 4096 = 0) (hg : g < 4096) :
    (p ||| f) &&& g = f &&& g := by
  rw [Nat.and_or_distrib_right, aligned_and hp hg, Nat.zero_or]

theorem or_flags {p f : Nat} (hp : p % 4096 = 0) (hf : f < 4096) :
    p ||| f = p + f := by
  obtain ⟨k, rfl⟩ := Nat.dvd_of_mod_eq_zero hp
  exact (Nat.two_pow_add_eq_or_of_lt (i := 12) hf k).symm

/-- Masking the base out of an entry recovers the page. -/
theorem baseof_or {arch : Arch} {p f : Nat} (hp : p % 4096 = 0)
    (hf : f < 4096) : baseof arch (p ||| f) = p := by
  rw [or_flags hp hf, baseof_eq]
  omega

/-- The address field of a word in a table, for pages of `2 ^ shift` bytes. -/
def frameOf (arch : Arch) (entry shift : Nat) : Nat :=
  physical arch entry / 2 ^ shift * 2 ^ shift

theorem frameOf_add {arch : Arch} {p f : Nat} (hp : p % 4096 = 0) (hf : f < 4096) :
    frameOf arch (p + f) 12 = physical arch p := by
  unfold frameOf
  cases arch <;> simp only [physical] <;> omega

theorem frameOf_page {arch : Arch} {p : Nat} (hp : p % 4096 = 0) (hBelow : Addressable arch p) :
    frameOf arch p 12 = p := by
  have hZero : frameOf arch (p + 0) 12 = physical arch p := frameOf_add hp (by decide)
  rwa [Nat.add_zero, physical_eq hBelow] at hZero

/-! ## What the tables store -/

/-- A user or kernel page mapping. -/
structure Mapping where
  pa : Nat
  writable : Bool
  aligned : pa % 4096 = 0

/-- The flags `ptwalk` gives to the tables it allocates. -/
def linkFlags (user : Bool) : Nat := if user then pteW ||| pteU else pteW

/-- How a tree of user or of kernel mappings is stored: tables are linked
with the walk flags, leaves hold the physical page and the access bits. -/
def layout (arch : Arch) (user : Bool) : Layout Mapping where
  stride := wordBytes arch
  pageBytes := 4096
  link := fun p => p ||| pteP ||| linkFlags user
  entry := fun m =>
    m.pa ||| pteP ||| (if user then pteU else 0) |||
      (if m.writable then pteW else 0)
  stride_pos := by cases arch <;> decide

section Words

variable {arch : Arch} {user : Bool}

private theorem link_eq (p : Nat) :
    (layout arch user).link p = p ||| (pteP ||| linkFlags user) :=
  Nat.or_assoc p pteP (linkFlags user)

private theorem entry_eq (m : Mapping) :
    (layout arch user).entry m =
      m.pa ||| (pteP ||| (if user then pteU else 0) |||
        (if m.writable then pteW else 0)) := by
  show m.pa ||| pteP ||| _ ||| _ = _
  rw [Nat.or_assoc m.pa, Nat.or_assoc m.pa]

private theorem linkFlags_lt (user : Bool) : pteP ||| linkFlags user < 4096 := by
  cases user <;> decide

theorem link_present {p : Nat} (hp : p % 4096 = 0) :
    (layout arch user).link p &&& pteP ≠ 0 := by
  rw [link_eq, or_and_flag hp (by decide)]
  cases user <;> decide

theorem link_user {p : Nat} (hp : p % 4096 = 0) :
    (decide ((layout arch user).link p &&& pteU ≠ 0)) = user := by
  rw [link_eq, or_and_flag hp (by decide)]
  cases user <;> rfl

theorem link_write {p : Nat} (hp : p % 4096 = 0) :
    (layout arch user).link p &&& pteW ≠ 0 := by
  rw [link_eq, or_and_flag hp (by decide)]
  cases user <;> decide

theorem link_small {p : Nat} (hp : p % 4096 = 0) :
    (layout arch user).link p &&& ptePS = 0 := by
  rw [link_eq, or_and_flag hp (by decide)]
  cases user <;> decide

theorem baseof_link {p : Nat} (hp : p % 4096 = 0) :
    baseof arch ((layout arch user).link p) = p := by
  rw [link_eq, baseof_or hp (linkFlags_lt user)]

theorem entry_present (m : Mapping) :
    (layout arch user).entry m &&& pteP ≠ 0 := by
  rw [entry_eq, or_and_flag m.aligned (by decide)]
  cases user <;> cases m.writable <;> decide

theorem entry_user (m : Mapping) :
    (decide ((layout arch user).entry m &&& pteU ≠ 0)) = user := by
  rw [entry_eq, or_and_flag m.aligned (by decide)]
  cases user <;> cases m.writable <;> rfl

theorem entry_write (m : Mapping) :
    (decide ((layout arch user).entry m &&& pteW ≠ 0)) = m.writable := by
  rw [entry_eq, or_and_flag m.aligned (by decide)]
  cases user <;> cases m.writable <;> rfl

/-- The frame field of a leaf entry. -/
theorem entry_frame (m : Mapping) :
    frameOf arch ((layout arch user).entry m) 12 = physical arch m.pa := by
  have hFlags : pteP ||| (if user then pteU else 0) |||
      (if m.writable then pteW else 0) < 4096 := by
    cases user <;> cases m.writable <;> decide
  rw [entry_eq, or_flags m.aligned hFlags, frameOf_add m.aligned hFlags]

/-- And the one of a link. -/
theorem link_frame {p : Nat} (hp : p % 4096 = 0) (hBelow : Addressable arch p) :
    frameOf arch ((layout arch user).link p) 12 = p := by
  rw [link_eq, or_flags hp (linkFlags_lt user), frameOf_add hp (linkFlags_lt user),
    physical_eq hBelow]

end Words

/-! ## Levels -/

/-- The levels below CR3. -/
def tables (arch : Arch) : List PtInfo := (mmu arch).pgtables.tail

/-- The number of entries of a table. -/
def fanout (info : PtInfo) : Nat := 2 ^ info.bits

/-- A level of a walk reads bits `[shift, shift + bits)` of the address, and
its table fills no more than a page. -/
structure LevelOk (arch : Arch) (info : PtInfo) : Prop where
  mask_eq : info.mask = (2 ^ info.bits - 1) <<< info.shift
  fits : fanout info * wordBytes arch ≤ 4096

theorem levelOk (arch : Arch) : ∀ info ∈ (mmu arch).pgtables, LevelOk arch info := by
  cases arch <;>
    · intro info hMem
      simp only [mmu, List.mem_cons, List.not_mem_nil, or_false] at hMem
      rcases hMem with rfl | rfl | rfl | rfl | rfl <;> exact ⟨by decide, by decide⟩

theorem indexof_eq {arch : Arch} {info : PtInfo} (h : LevelOk arch info)
    (addr : Nat) : indexof addr info = addr / 2 ^ info.shift % 2 ^ info.bits := by
  rw [indexof, h.mask_eq, Nat.shiftRight_and_distrib, Nat.shiftLeft_shiftRight,
    Nat.and_two_pow_sub_one_eq_mod, Nat.shiftRight_eq_div_pow]

theorem indexof_lt {arch : Arch} {info : PtInfo} (h : LevelOk arch info)
    (addr : Nat) : indexof addr info < fanout info := by
  rw [indexof_eq h]
  exact Nat.mod_lt _ (Nat.two_pow_pos _)

/-- The indices a walk of `addr` uses on the given levels. -/
def path (addr : Nat) (infos : List PtInfo) : List Nat := infos.map (indexof addr)

theorem path_lt {arch : Arch} (addr : Nat) :
    ∀ infos : List PtInfo, (∀ info ∈ infos, LevelOk arch info) →
      List.Forall₂ (· < ·) (path addr infos) (infos.map fanout)
  | [], _ => List.Forall₂.nil
  | info :: infos, h =>
      List.Forall₂.cons (indexof_lt (h info (by simp)) addr)
        (path_lt addr infos fun i hi => h i (by simp [hi]))

end AbstractMachine.X86.Vme
