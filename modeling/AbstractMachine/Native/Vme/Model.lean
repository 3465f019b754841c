import AbstractMachine.Lib.Chain
import AbstractMachine.Lib.StateExcept
import Mathlib.Algebra.Group.Nat.Defs

/-!
# The virtual memory extension of native

`vme.c` of the native platform, with the two helpers of `platform.c` that
change the host mapping.  `PageMap` and `VMHead` objects live in memory that
all CPUs share; every CPU is a process of its own, with a private
`thiscpu->vm_head` and a private host mapping of the user space.

`hsearch_r` is a finite map from strings to nodes, and the key of a page is
its address as `%x` prints it.  `mmap` with `MAP_FIXED` sets one page of the
host mapping and `munmap` clears it.
-/

namespace AbstractMachine.Native.Vme

open AbstractMachine.Lib

/-! ## Constants -/

/-- The bits of `prot` in `am.h`. -/
def mmapRead : BitVec 32 := 0x1

/-- `MMAP_WRITE`. -/
def mmapWrite : BitVec 32 := 0x2

/-- `PROT_READ`, `PROT_WRITE` and `PROT_EXEC` of `mmap`. -/
def protRead : Nat := 1

/-- `PROT_WRITE`. -/
def protWrite : Nat := 2

/-- `PROT_EXEC`. -/
def protExec : Nat := 4

/-- `PMEM_START`. -/
def pmemStart : Nat := 0x1000000

/-- `IN_RANGE(va, USER_SPACE)`. -/
def inUserSpace (va : Nat) : Bool := decide (0x40000000 ≤ va) && decide (va < 0xc0000000)

/-- `snprintf(buf, 32, "%x", va)`: the low 32 bits in hexadecimal. -/
def key (va : Nat) : String := String.ofList (Nat.toDigits 16 (va % 2 ^ 32))

/-! ## State -/

/-- `PageMap`. -/
structure PageMap where
  va : Nat
  pa : Nat
  next : Nat
  prot : BitVec 32
  isMapped : Bool
  key : String

/-- `VMHead`. -/
structure VMHead where
  head : Nat
  hash : String → Option Nat
  nrPage : Nat

/-- A page of the host mapping: the offset in `pmem_fd` and the protection. -/
structure HostPage where
  offset : Nat
  prot : Nat
  deriving DecidableEq, Repr

/-- A CPU's process: `thiscpu->vm_head` and the host mapping of its user space. -/
structure Cpu where
  vmHead : Nat
  host : Nat → Option HostPage

/-- The shared memory and the CPUs. -/
structure VM where
  /-- The `PageMap` at each address. -/
  node : Nat → PageMap
  /-- The `VMHead` at each address. -/
  vmHead : Nat → VMHead
  /-- The `ptr` field of each `AddrSpace`. -/
  ptr : Nat → Nat
  vmeEnable : Bool
  cpu : Nat → Cpu
  /-- Pages handed out so far, and the number of calls of `pgalloc`. -/
  used : List Nat
  clock : Nat

/-- Why a run stops. -/
inductive Stop where
  /-- A failed `assert`. -/
  | assert
  /-- A write through the null pointer. -/
  | nullDeref
  /-- `pgalloc` or the caller broke its side of the contract. -/
  | contract
  /-- A `list_foreach` that does not come to its end. -/
  | diverge
  deriving DecidableEq, Repr

/-- A computation over the state of `vme.c` that may stop. -/
abbrev Vm := StateT VM (Except Stop)

/-- `__am_pgsize`, and the pages `pgalloc` returns, call by call. -/
structure Env where
  pgsize : Nat
  page : Nat → Nat

/-!
## State updates

They are simp rules: a projection of an updated state unfolds.
-/

/-- The successor of every node. -/
@[simp] def VM.next (s : VM) (p : Nat) : Nat := (s.node p).next

/-- The node at `p` replaced. -/
@[simp] def VM.setNode (s : VM) (p : Nat) (n : PageMap) : VM :=
  { s with node := Function.update s.node p n }

/-- The head at `h` replaced. -/
@[simp] def VM.setHead (s : VM) (h : Nat) (v : VMHead) : VM :=
  { s with vmHead := Function.update s.vmHead h v }

/-- The flag `is_mapped` of the node at `p` set. -/
@[simp] def VM.setMapped (s : VM) (p : Nat) (b : Bool) : VM :=
  s.setNode p { s.node p with isMapped := b }

/-- The host's mapping of one page of a CPU replaced. -/
@[simp] def VM.setHost (s : VM) (cpu va : Nat) (page : Option HostPage) : VM :=
  let c := { s.cpu cpu with host := Function.update (s.cpu cpu).host va page }
  { s with cpu := Function.update s.cpu cpu c }

/-- The node `p` filled in and in front of the list of `h`. -/
@[simp] def VM.push (s : VM) (h p va pa : Nat) (prot : BitVec 32) : VM :=
  let n := { s.node p with
    va := va
    pa := pa
    prot := prot
    isMapped := false
    next := (s.vmHead h).head }
  (s.setNode p n).setHead h { s.vmHead h with head := p }

/-- The address space of a CPU replaced. -/
@[simp] def VM.setCurrent (s : VM) (cpu h : Nat) : VM :=
  { s with cpu := Function.update s.cpu cpu { s.cpu cpu with vmHead := h } }

/-! ## The program -/

def assert (cond : Bool) : Vm Unit := if cond then pure () else throw .assert

/-- The translation of `prot` in `__am_pmem_map`. -/
def mmapProt (prot : BitVec 32) : Nat :=
  (if prot &&& mmapRead ≠ 0 then protRead ||| protExec else 0) |||
    (if prot &&& mmapWrite ≠ 0 then protWrite else 0)

/-- The host page for `pa` and `prot`; the offset is a pointer difference. -/
def hostPage (pa : Nat) (prot : BitVec 32) : HostPage where
  offset := (pa + 2 ^ 64 - pmemStart) % 2 ^ 64
  prot := mmapProt prot

/-- `__am_pmem_map`. -/
def pmemMap (cpu va pa : Nat) (prot : BitVec 32) : Vm Unit :=
  modify fun s => s.setHost cpu va (some (hostPage pa prot))

/-- `__am_pmem_unmap`. -/
def pmemUnmap (cpu va : Nat) : Vm Unit := modify fun s => s.setHost cpu va none

/-- `list_foreach`.  No list that ends has more nodes than pages were handed
out, so a traversal that uses up the fuel never ends. -/
def listForeach (body : Nat → Vm Unit) : Nat → Nat → Vm Unit
  | fuel, p =>
      if p = 0 then pure ()
      else match fuel with
        | 0 => throw .diverge
        | fuel + 1 => do
            body p
            let s ← get
            listForeach body fuel (s.next p)

/-- The first loop of `__am_switch`. -/
def unmapNode (cpu p : Nat) : Vm Unit := do
  let s ← get
  if (s.node p).isMapped then
    pmemUnmap cpu (s.node p).va
    modify fun s => s.setMapped p false

/-- The second loop of `__am_switch`. -/
def mapNode (cpu p : Nat) : Vm Unit := do
  let s ← get
  assert (inUserSpace (s.node p).va)
  pmemMap cpu (s.node p).va (s.node p).pa (s.node p).prot
  modify fun s => s.setMapped p true

/-- "munmap all mappings" of `__am_switch`. -/
def unmapAll (cpu nowHead : Nat) : Vm Unit := do
  let s ← get
  if nowHead ≠ 0 then
    listForeach (unmapNode cpu) s.used.length (s.vmHead nowHead).head

/-- "mmap all mappings" of `__am_switch`. -/
def mapAll (cpu head : Nat) : Vm Unit := do
  let s ← get
  if head ≠ 0 then
    listForeach (mapNode cpu) s.used.length (s.vmHead head).head

/-- `__am_switch`, with `c->vm_head`, on CPU `cpu`. -/
def amSwitch (cpu head : Nat) : Vm Unit := do
  let s ← get
  if s.vmeEnable then
    if head ≠ (s.cpu cpu).vmHead then
      unmapAll cpu (s.cpu cpu).vmHead
      mapAll cpu head
    modify fun s => s.setCurrent cpu head

section

variable (env : Env)

def pgalloc : Vm Nat := do
  let s ← get
  let p := env.page s.clock
  if p = 0 then
    set { s with clock := s.clock + 1 }
    return 0
  else if p ∉ s.used then
    set { s with used := p :: s.used, clock := s.clock + 1 }
    return p
  else throw .contract

/-- `vme_init`. -/
def vmeInit : Vm Unit := modify fun s => { s with vmeEnable := true }

/-- `protect`.  The fields `pgsize` and `area` it also sets are constants. -/
def protect (as : Nat) : Vm Unit := do
  assert (as != 0)
  let h ← pgalloc env
  assert (h != 0)
  modify fun s => s.setHead h { head := 0, hash := fun _ => none, nrPage := 0 }
  modify fun s => { s with ptr := Function.update s.ptr as h }

/-- The node for `va`: found in the hash table, or allocated and entered. -/
def findNode (h va : Nat) : Vm Nat := do
  let s ← get
  match (s.vmHead h).hash (key va) with
  | some p => return p
  | none => do
      let p ← pgalloc env
      if p = 0 then throw .nullDeref
      modify fun s => s.setNode p { s.node p with key := key va }
      modify fun s => s.setHead h { s.vmHead h with
        hash := Function.update (s.vmHead h).hash (key va) (some p)
        nrPage := (s.vmHead h).nrPage + 1 }
      return p

/-- `map` on CPU `cpu`. -/
def map (cpu as va pa : Nat) (prot : BitVec 32) : Vm Unit := do
  assert (inUserSpace va)
  assert (va % env.pgsize == 0)
  assert (pa % env.pgsize == 0)
  assert (as != 0)
  let s ← get
  let vmHead := s.ptr as
  assert (vmHead != 0)
  let pp ← findNode env vmHead va
  modify fun s => s.push vmHead pp va pa prot
  let s ← get
  if vmHead = (s.cpu cpu).vmHead then
    pmemMap cpu va pa prot
    modify fun s => s.setMapped pp true

/-! The key is what `snprintf` prints, and it depends on what `snprintf` is linked. -/

/-- `findNode`, with the two calls that print the key. -/
def findNodeWith (find enter : Vm String) (h : Nat) : Vm Nat := do
  let k ← find
  let s ← get
  match (s.vmHead h).hash k with
  | some p => return p
  | none => do
      let p ← pgalloc env
      if p = 0 then throw .nullDeref
      let k ← enter
      modify fun s => s.setNode p { s.node p with key := k }
      modify fun s => s.setHead h { s.vmHead h with
        hash := Function.update (s.vmHead h).hash k (some p)
        nrPage := (s.vmHead h).nrPage + 1 }
      return p

/-- `map` on CPU `cpu`, with the two calls that print the key. -/
def mapWith (find enter : Vm String) (cpu as va pa : Nat) (prot : BitVec 32) : Vm Unit := do
  assert (inUserSpace va)
  assert (va % env.pgsize == 0)
  assert (pa % env.pgsize == 0)
  assert (as != 0)
  let s ← get
  let vmHead := s.ptr as
  assert (vmHead != 0)
  let pp ← findNodeWith env find enter vmHead
  modify fun s => s.push vmHead pp va pa prot
  let s ← get
  if vmHead = (s.cpu cpu).vmHead then
    pmemMap cpu va pa prot
    modify fun s => s.setMapped pp true

theorem findNode_eq (h va : Nat) :
    findNode env h va = findNodeWith env (pure (key va)) (pure (key va)) h := rfl

theorem map_eq (cpu as va pa : Nat) (prot : BitVec 32) :
    map env cpu as va pa prot = mapWith env (pure (key va)) (pure (key va)) cpu as va pa prot :=
  rfl

end

end AbstractMachine.Native.Vme
