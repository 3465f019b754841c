import AbstractMachine.Lib.ByteMem
import Mathlib.Logic.Function.Basic

/-!
# The boot loader

`x86/qemu/boot/main.c` over byte-addressed memory and a disk of sectors of 512
bytes.  Sector 0 is the boot block, sectors 1 and 2 hold the argument of the
program, and the program, an ELF image, begins with sector 3.

Pointers, `uint32_t` and `int` are words.  Memory is all RAM, and the drive is
always ready.  The loader itself runs in this memory too, from the boot block at
`BOOT_ADDR` with its stack below `STACK_ADDR`; it goes on as it is written while
nothing is loaded there.
-/

namespace AbstractMachine.X86.Boot

open AbstractMachine.Lib

/-- A word of the boot loader, which runs with 32 bits. -/
abbrev Word := BitVec 32

/-- The memory below 4 GiB. -/
abbrev Mem := ByteMem 32

/-- Byte `k` of a sector, as the drive gives it for a sector number. -/
abbrev Disk := Word → Nat → BitVec 8

/-- The bytes of a sector. -/
def SECTSIZE : Word := 512

/-- The bytes of the argument block, which stands before the ELF file. -/
def ARGSIZE : Word := 1024

/-- The boot record, whose `is_ap` tells the boot CPU from the others. -/
def BOOTREC_ADDR : Word := 0x07000

/-- Where the arguments of `main` go. -/
def MAINARG_ADDR : Word := 0x10000

/-- Where the boot block is run, and the stack that `start.S` gives it. -/
def BOOT_ADDR : Word := 0x7c00

/-- The top of the boot stack, which grows down. -/
def STACK_ADDR : Word := 0xa000

/-- Where `load_kernel` puts the headers. -/
def ELF_ADDR : Word := 0x8000

/-- `e_machine` of an x86_64 image. -/
def EM_X86_64 : BitVec 16 := 62

/-- `p_type` of a segment that is loaded. -/
def PT_LOAD : BitVec 32 := 1

/-! ## Reading the disk -/

variable (disk : Disk)

/-- The loop of `read_disk`, for the first `n` words. -/
def readWords (buf sect : Word) : Nat → Mem → Mem
  | 0, m => m
  | n + 1, m => fun x =>
      if ByteMem.InBlock (buf + BitVec.ofNat 32 (4 * n)) 4 x then
        disk sect (4 * n + (x - (buf + BitVec.ofNat 32 (4 * n))).toNat)
      else readWords buf sect n m x

/-- `read_disk`: one sector to `buf`, word by word. -/
def read_disk (buf sect : Word) (m : Mem) : Mem := readWords disk buf sect (SECTSIZE.toNat / 4) m

/-- The loop of `copy_from_disk`; `none` when it takes more than `fuel` turns. -/
def copyLoop (ed : Word) : Nat → Word → Word → Mem → Option Mem
  | 0, _, _, _ => none
  | fuel + 1, cur, sect, m =>
      if cur < ed then
        copyLoop ed fuel (cur + SECTSIZE) (sect + 1) (read_disk disk cur sect m)
      else some m

/-- `copy_from_disk`: whole sectors, from the one that holds `disk_offset`, to `buf`
rounded down. -/
def copy_from_disk (fuel : Nat) (buf nbytes disk_offset : Word) (m : Mem) : Option Mem :=
  let cur := buf &&& ~~~(SECTSIZE - 1)
  let ed := buf + nbytes
  let sect := disk_offset.sdiv SECTSIZE + ARGSIZE.sdiv SECTSIZE + 1
  copyLoop disk ed fuel cur sect m

/-- The loop of `load_program`, for `n` more bytes. -/
def clear : Nat → Word → Mem → Mem
  | 0, _, m => m
  | n + 1, bss, m => clear n (bss + 1) (Function.update m bss 0)

/-- `i` runs from `filesz` up to `memsz`, round the end of the numbers if need
be. -/
def load_program (fuel : Nat) (filesz memsz paddr offset : Word) (m : Mem) : Option Mem :=
  (copy_from_disk disk fuel paddr filesz offset m).map
    (clear (memsz - filesz).toNat (paddr + filesz))

/-! ## ELF -/

/-- The two formats of ELF files. -/
inductive Class where
  | elf32
  | elf64
  deriving DecidableEq

/-- The fields of a program header that the loader reads, and its type. -/
structure Phdr where
  p_type : BitVec 32
  p_offset : BitVec 64
  p_paddr : BitVec 64
  p_filesz : BitVec 64
  p_memsz : BitVec 64
  deriving DecidableEq

open ByteMem (load)

/-- `e_machine`, at the same place in both formats. -/
def e_machine (m : Mem) : BitVec 16 := load m (ELF_ADDR + 18) 2

/-- The byte `EI_CLASS` of `e_ident`. -/
def eiClass (m : Mem) : BitVec 8 := m (ELF_ADDR + 4)

def e_entry (m : Mem) : Class → BitVec 64
  | .elf32 => (load m (ELF_ADDR + 24) 4).setWidth 64
  | .elf64 => load m (ELF_ADDR + 24) 8

def e_phoff (m : Mem) : Class → BitVec 64
  | .elf32 => (load m (ELF_ADDR + 28) 4).setWidth 64
  | .elf64 => load m (ELF_ADDR + 32) 8

def e_phnum (m : Mem) : Class → BitVec 16
  | .elf32 => load m (ELF_ADDR + 44) 2
  | .elf64 => load m (ELF_ADDR + 56) 2

/-- `sizeof(Elf32_Phdr)` and `sizeof(Elf64_Phdr)`. -/
def phdrSize : Class → Nat
  | .elf32 => 32
  | .elf64 => 56

/-- The program header at `ph`. -/
def readPhdr (m : Mem) (ph : Word) : Class → Phdr
  | .elf32 =>
      { p_type := load m ph 4
        p_offset := (load m (ph + 4) 4).setWidth 64
        p_paddr := (load m (ph + 12) 4).setWidth 64
        p_filesz := (load m (ph + 16) 4).setWidth 64
        p_memsz := (load m (ph + 20) 4).setWidth 64 }
  | .elf64 =>
      { p_type := load m ph 4
        p_offset := load m (ph + 8) 8
        p_paddr := load m (ph + 24) 8
        p_filesz := load m (ph + 32) 8
        p_memsz := load m (ph + 40) 8 }

/-- The loop of `load_elf32` and `load_elf64`, from header `i` on, which is at
`ph`; whatever its type, a header is loaded. -/
def loadHeaders (c : Class) : Nat → Nat → Word → Mem → Option Mem
  | 0, _, _, _ => none
  | fuel + 1, i, ph, m =>
      if i < (e_phnum m c).toNat then
        let h := readPhdr m ph c
        (load_program disk fuel (h.p_filesz.setWidth 32) (h.p_memsz.setWidth 32)
          (h.p_paddr.setWidth 32) (h.p_offset.setWidth 32) m).bind
            (loadHeaders c fuel (i + 1) (ph + BitVec.ofNat 32 (phdrSize c)))
      else some m

/-- Both loaders: they differ in the format of the headers only. -/
def load_elf (c : Class) (fuel : Nat) (m : Mem) : Option Mem :=
  loadHeaders disk c fuel 0 (ELF_ADDR + (e_phoff m c).setWidth 32) m

def load_elf64 : Nat → Mem → Option Mem := load_elf disk .elf64

def load_elf32 : Nat → Mem → Option Mem := load_elf disk .elf32

/-- What the first processor does before it jumps. -/
def load_image (fuel : Nat) (m : Mem) : Option Mem := do
  let m ← copy_from_disk disk fuel MAINARG_ADDR 1024 (-1024) m
  let m ← copy_from_disk disk fuel ELF_ADDR 4096 0 m
  if e_machine m = EM_X86_64 then load_elf64 disk fuel m else load_elf32 disk fuel m

/-- Memory, and the address that is called at the end. -/
def load_kernel (fuel : Nat) (m : Mem) : Option (Mem × Word) := do
  let is_ap := load m (BOOTREC_ADDR + 4) 4
  let m ← if is_ap = 0 then load_image disk fuel m else some m
  if e_machine m = EM_X86_64 then some (m, (e_entry m .elf64).setWidth 32)
  else some (m, (e_entry m .elf32).setWidth 32)

/-! ## The image -/

/-- Byte `k` of the image. -/
def fileByte (k : Nat) : BitVec 8 := disk (BitVec.ofNat 32 (k / 512 + 3)) (k % 512)

/-- The image as it would stand at `ELF_ADDR`. -/
def image : Mem := fun x => fileByte disk (x - ELF_ADDR).toNat

/-- Program header `i`, as the image has it. -/
def header (c : Class) (i : Nat) : Phdr :=
  readPhdr (image disk)
    (ELF_ADDR + (e_phoff (image disk) c).setWidth 32 + BitVec.ofNat 32 (i * phdrSize c)) c

/-- The program headers of the image. -/
def phdrs (c : Class) : List Phdr :=
  (List.range (e_phnum (image disk) c).toNat).map (header disk c)

end AbstractMachine.X86.Boot
