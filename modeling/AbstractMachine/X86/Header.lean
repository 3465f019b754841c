import Mathlib.Algebra.Group.Nat.Defs

/-!
# Constants of `x86.h` and `x86-qemu.h`

Segment selectors, page-table flags and the other architectural constants
that the x86 sources share.
-/

namespace AbstractMachine.X86

/-! ## Page-table flags -/

/-- Present. -/
def pteP : Nat := 0x001
/-- Writeable. -/
def pteW : Nat := 0x002
/-- User. -/
def pteU : Nat := 0x004
/-- Large page (1 GiB or 2 MiB). -/
def ptePS : Nat := 0x080

/-- Boot-time addresses of the x86_64 kernel tables. -/
def pml4Addr : Nat := 0x1000

/-- The one page of pointers that `pml4Addr` points to. -/
def pdptAddr : Nat := 0x2000

/-- Paging enable bit of CR0. -/
def cr0PG : Nat := 0x80000000

/-! ## Memory protection flags of `am.h` -/

/-- `MMAP_NONE`. -/
def mmapNone : BitVec 32 := 0x0

/-- `MMAP_READ`. -/
def mmapRead : BitVec 32 := 0x1

/-- `MMAP_WRITE`. -/
def mmapWrite : BitVec 32 := 0x2

/-! ## Segment selectors -/

/-- Kernel (ring 0) and user (ring 3). -/
def dplKern : Nat := 0x0

/-- User (ring 3). -/
def dplUser : Nat := 0x3

/-- Kernel code, kernel data/stack, user code, user data/stack. -/
def segKcode : Nat := 1

/-- Kernel data and stack. -/
def segKdata : Nat := 2

/-- User code. -/
def segUcode : Nat := 3

/-- User data and stack. -/
def segUdata : Nat := 4

/-- `KSEL`. -/
def ksel (seg : Nat) : Nat := seg <<< 3 ||| dplKern

/-- `USEL`. -/
def usel (seg : Nat) : Nat := seg <<< 3 ||| dplUser

/-- Interrupt enable flag of EFLAGS. -/
def flIF : Nat := 0x200

/-! ## Word sizes -/

/-- The two targets built from `src/x86/qemu`. -/
inductive Arch where
  | i386
  | x86_64
  deriving DecidableEq, Repr

/-- `sizeof(uintptr_t)`. -/
def wordBytes : Arch → Nat
  | .i386 => 4
  | .x86_64 => 8

/-- Width of `uintptr_t`. -/
def wordBits : Arch → Nat
  | .i386 => 32
  | .x86_64 => 64

end AbstractMachine.X86
