import AbstractMachine.X86.Header

/-!
# The `mmu` configuration and the virtual memory areas

`mmu` and `vm_areas` of `vme.c` for the two word sizes, with the index and
base computations.  Words are natural numbers; `x & ~m` clears the bits of
`m`, which on numbers is `x - (x & m)` whatever the word size.
-/

namespace AbstractMachine.X86.Vme

/-- `struct ptinfo` without the name used for debugging. -/
structure PtInfo where
  mask : Nat
  shift : Nat
  bits : Nat
  deriving DecidableEq, Repr

/-- `struct mmu_config`. -/
structure MmuConfig where
  ptlevels : Nat
  pgsize : Nat
  pgtables : List PtInfo
  deriving DecidableEq, Repr

def mmu : Arch → MmuConfig
  | .x86_64 =>
      { ptlevels := 4
        pgsize := 4096
        pgtables :=
          [ ⟨0x000000000000, 0, 0⟩    -- CR3
          , ⟨0xff8000000000, 39, 9⟩   -- PML4
          , ⟨0x007fc0000000, 30, 9⟩   -- PDPT
          , ⟨0x00003fe00000, 21, 9⟩   -- PD
          , ⟨0x0000001ff000, 12, 9⟩ ] -- PT
      }
  | .i386 =>
      { ptlevels := 2
        pgsize := 4096
        pgtables :=
          [ ⟨0x00000000, 0, 0⟩        -- CR3
          , ⟨0xffc00000, 22, 10⟩      -- PD
          , ⟨0x003ff000, 12, 10⟩ ]    -- PT
      }

/-- `struct vm_area`: the area `[start, stop)` and whether it is the kernel's. -/
structure VmArea where
  start : Nat
  stop : Nat
  kernel : Bool
  deriving DecidableEq, Repr

/-- `vm_areas`.  The memory-mapped I/O area ends at the wrapped address 0. -/
def vmAreas : Arch → List VmArea
  | .x86_64 =>
      [ ⟨0x100000000000, 0x108000000000, false⟩
      , ⟨0x000000000000, 0x008000000000, true⟩ ]
  | .i386 =>
      [ ⟨0x40000000, 0x80000000, false⟩
      , ⟨0x00000000, 0x40000000, true⟩
      , ⟨0xfd000000, 0x00000000, true⟩ ]

/-- `uvm_area`, the first entry of `vm_areas`. -/
def uvmArea : Arch → VmArea
  | .x86_64 => ⟨0x100000000000, 0x108000000000, false⟩
  | .i386 => ⟨0x40000000, 0x80000000, false⟩

/-- What the processor makes of a physical address in a word: 4-level paging has 52
bits for it, and a word of i386 has no more than 32. -/
def physical : Arch → Nat → Nat
  | .i386, a => a
  | .x86_64, a => a % 2 ^ 52

/-- An address that it can be told. -/
def Addressable (arch : Arch) (a : Nat) : Prop := arch = .x86_64 → a < 2 ^ 52

instance (arch : Arch) (a : Nat) : Decidable (Addressable arch a) :=
  inferInstanceAs (Decidable (_ → _))

theorem physical_eq {arch : Arch} {a : Nat} (h : Addressable arch a) : physical arch a = a := by
  cases arch with
  | i386 => rfl
  | x86_64 => exact Nat.mod_eq_of_lt (h rfl)

/-- `IN_RANGE`. -/
def inRange (ptr : Nat) (area : VmArea) : Bool :=
  decide (area.start ≤ ptr) && decide (ptr < area.stop)

/-- `ROUNDDOWN`. -/
def roundDown (a sz : Nat) : Nat := a - (a &&& (sz - 1))

def indexof (addr : Nat) (info : PtInfo) : Nat :=
  (addr &&& info.mask) >>> info.shift

def baseof (arch : Arch) (addr : Nat) : Nat :=
  addr - (addr &&& ((mmu arch).pgsize - 1))

end AbstractMachine.X86.Vme
