import AbstractMachine.X86.Boot.Sectors

/-!
# Loading one segment

Whole sectors are read to where the segment is to be, so its neighbours in the
first and in the last of them change as well.  The bytes behind the file bytes
are cleared afterwards, those of the last sector among them.
-/

namespace AbstractMachine.X86.Boot

open AbstractMachine.Lib

variable {disk : Disk} {filesz memsz paddr offset x : Word} {m m' : Mem} {k : Nat}

/-- No number of 32 bits wraps around: the segment and the sectors of its file
bytes end in the address space. -/
structure NoWrap (filesz memsz paddr : Word) : Prop where
  memory : paddr.toNat + memsz.toNat ≤ 2 ^ 32
  sectors : paddr.toNat + filesz.toNat ≤ 2 ^ 32 - 512

end AbstractMachine.X86.Boot
