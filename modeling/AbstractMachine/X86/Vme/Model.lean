import AbstractMachine.Lib.StateExcept
import AbstractMachine.Lib.TableMem
import AbstractMachine.X86.Vme.Config

/-!
# The virtual memory extension of x86-qemu

A transcription of `vme.c` (without `ucontext`, which belongs to the context
switch) over word-addressed physical memory.  Memory is a function from the
address of a word to its value, so aliasing between tables is not excluded
by construction: that tables are disjoint is something the proofs establish.

The page allocator is the caller's.  A `Pager` fixes what each call to
`pgalloc` returns and what a page contains when it changes hands; the
bookkeeping fields `live` and `spaces` of the state say which pages and which
`AddrSpace` objects are in use, and `pgalloc` stops with `contract` when the
pager hands out an unaligned page or one that is in use.  Releasing a page
that is not in use and walking a released table are stops of their own, so a
successful run is also a run without these errors.
-/

namespace AbstractMachine.X86.Vme

open AbstractMachine.Lib

/-- Why a run stops. -/
inductive Stop where
  /-- `panic_on(cond, msg)`. -/
  | panic (msg : String)
  /-- `bug()`. -/
  | bug
  /-- The pager or the caller broke its side of the contract. -/
  | contract
  /-- `pgfree` of a page that is not in use. -/
  | doubleFree
  /-- A table is read in a page that is not in use. -/
  | useAfterFree
  /-- A `for` loop that does not come to its end. -/
  | diverge
  deriving DecidableEq, Repr

/-- The pages `pgalloc` returns, call by call, and the contents a page has
when it is handed out or taken back. -/
structure Pager where
  page : Nat → Nat
  junk : Nat → Nat → Nat

/-- The state of `vme.c`, with the boot CPU's control registers. -/
structure VM where
  /-- The word at each (aligned) address. -/
  mem : Nat → Nat
  kpt : Nat
  cr3 : Nat
  cr0 : Nat
  /-- Calls of `pgalloc` and `pgfree` so far. -/
  clock : Nat
  /-- Pages in use: handed out and not taken back. -/
  live : List Nat
  /-- Addresses of the `ptr` fields of the `AddrSpace` objects in use. -/
  spaces : List Nat
  /-- The pages `pgalloc` handed out and those `pgfree` took back, in order. -/
  allocated : List Nat
  freed : List Nat

/-- A computation over the state of `vme.c` that may stop. -/
abbrev Vm := StateT VM (Except Stop)

/-- `panic_on`. -/
def panicOn (cond : Bool) (msg : String) : Vm Unit :=
  if cond then throw (.panic msg) else pure ()

/-- A word of a table. -/
def load (a : Nat) : Vm Nat := do
  let s ← get
  return s.mem a

/-- The state after the word at `a` has been set to `v`. -/
def VM.write (s : VM) (a v : Nat) : VM :=
  { s with mem := Function.update s.mem a v }

/-- A word of a table, replaced. -/
def store (a v : Nat) : Vm Unit := modify fun s => s.write a v

section

variable (arch : Arch) (env : Pager)

/-- The address lies in a page that is in use. -/
def VM.InUse (s : VM) (a : Nat) : Prop :=
  ∃ p ∈ s.live, InPage (mmu arch).pgsize p a

instance (s : VM) (a : Nat) : Decidable (s.InUse arch a) := by
  unfold VM.InUse
  infer_instance

/-- What the caller of `vme_init` promises about a page from `pgalloc`: it is a
page of physical memory, not in use, and no `AddrSpace` object lies in it. -/
def VM.Fresh (s : VM) (p : Nat) : Prop :=
  p % (mmu arch).pgsize = 0 ∧ Addressable arch p ∧ p ∉ s.live ∧
    ∀ as ∈ s.spaces, ¬ InPage (mmu arch).pgsize p as

instance (s : VM) (p : Nat) : Decidable (s.Fresh arch p) := by
  unfold VM.Fresh
  infer_instance

/-- The page `p` now holds whatever its last owner left there. -/
def VM.scribble (s : VM) (p : Nat) : Nat → Nat := fun a =>
  if InPage (mmu arch).pgsize p a then env.junk s.clock a else s.mem a

/-- `pgalloc(mmu.pgsize)`. -/
def pgalloc : Vm Nat := do
  let s ← get
  let p := env.page s.clock
  if p = 0 then
    set { s with clock := s.clock + 1 }
    return 0
  else if s.Fresh arch p then
    set { s with
      mem := s.scribble arch env p
      clock := s.clock + 1
      live := p :: s.live
      allocated := s.allocated ++ [p] }
    return p
  else throw .contract

def pgfree (p : Nat) : Vm Unit := do
  let s ← get
  if p ∈ s.live then
    set { s with
      mem := s.scribble arch env p
      clock := s.clock + 1
      live := s.live.filter (· ≠ p)
      freed := s.freed ++ [p] }
  else throw .doubleFree

/-- The zeroing loop of `pgallocz`. -/
def zeroWords (base n : Nat) (mem : Nat → Nat) : Nat → Nat :=
  (List.range n).foldl
    (fun m i => Function.update m (base + i * wordBytes arch) 0) mem

def pgallocz : Vm Nat := do
  let base ← pgalloc arch env
  panicOn (base == 0) "cannot allocate page"
  modify fun s =>
    { s with mem := zeroWords arch base ((mmu arch).pgsize / wordBytes arch) s.mem }
  return base

/-- `ptwalk`: the loop over `mmu.pgtables`, `pt` being the table of the
current level.  At the last level the slot itself is the result. -/
def ptwalkLoop (addr flags : Nat) : List PtInfo → Nat → Vm Nat
  | [], _ => throw .bug
  | [info], pt => return pt + indexof addr info * wordBytes arch
  | info :: next :: levels, pt => do
      let slot := pt + indexof addr info * wordBytes arch
      let entry ← load slot
      if entry &&& pteP = 0 then
        let nextPage ← pgallocz arch env
        store slot (nextPage ||| pteP ||| flags)
        ptwalkLoop addr flags (next :: levels) nextPage
      else
        ptwalkLoop addr flags (next :: levels) (baseof arch entry)

/-- `ptwalk`, with `as` the address of `as->ptr`. -/
def ptwalk (as addr flags : Nat) : Vm Nat :=
  ptwalkLoop arch env addr flags (mmu arch).pgtables as

/-- Reading `pt[index]` in `teardown`.  Above level 0 the table is a page. -/
def readEntry (level pt index : Nat) : Vm Nat := do
  let s ← get
  if 1 ≤ level ∧ pt ∉ s.live then throw .useAfterFree
  load (pt + index * wordBytes arch)

/-- `teardown`; past the last level there is nothing to do. -/
def teardown : List PtInfo → Nat → Nat → Vm Unit
  | [], _, _ => pure ()
  | info :: levels, level, pt => do
      (List.range (1 <<< info.bits)).forM fun index => do
        let entry ← readEntry arch level pt index
        if entry &&& pteP ≠ 0 ∧ entry &&& pteU ≠ 0 then
          teardown levels (level + 1) (baseof arch entry)
      if 1 ≤ level then pgfree arch env pt

/-- The `for (cur = start; cur != end; cur += stride)` loops over an area. -/
def areaLoop (stop stride : Nat) (body : Nat → Vm Unit) : Nat → Nat → Vm Unit
  | 0, _ => throw .diverge
  | fuel + 1, cur =>
      if cur = stop then pure ()
      else do
        body cur
        areaLoop stop stride body fuel ((cur + stride) % 2 ^ wordBits arch)

/-- The loop over one kernel area; no loop in `w`-bit arithmetic needs more
iterations than there are words. -/
def forArea (area : VmArea) (stride : Nat) (body : Nat → Vm Unit) : Vm Unit :=
  areaLoop arch area.stop stride body (2 ^ wordBits arch + 1) area.start

/-- `mmu.pgtables[1]`, the level-1 page table. -/
def level1 : PtInfo := (mmu arch).pgtables.getD 1 ⟨0, 0, 0⟩

/-- One iteration of the i386 mapping loop of `vme_init`. -/
def mapKernelPage (as cur : Nat) : Vm Unit := do
  let entry ← ptwalk arch env as cur pteW
  store entry (cur ||| pteP ||| pteW)

/-- `vme_init` on CPU `cpu`; `as` is the address of the local `as.ptr`. -/
def vmeInit (cpu as : Nat) : Vm Unit := do
  panicOn (cpu != 0) "init VME in non-bootstrap CPU"
  match arch with
  | .x86_64 => modify fun s => { s with kpt := pml4Addr }
  | .i386 =>
      store as 0
      (vmAreas arch).forM fun vma => do
        if vma.kernel then
          forArea arch vma (mmu arch).pgsize (mapKernelPage arch env as)
      let ptr ← load as
      modify fun s => { s with kpt := baseof arch ptr }
  modify fun s => { s with cr3 := s.kpt, cr0 := s.cr0 ||| cr0PG }

/-- One iteration of the copy loop of `protect`. -/
def copyKernelEntry (upt cur : Nat) : Vm Unit := do
  let index := indexof cur (level1 arch)
  let s ← get
  store (upt + index * wordBytes arch) (s.mem (s.kpt + index * wordBytes arch))

/-- `protect`.  The fields `pgsize` and `area` it also sets are constants. -/
def protect (as : Nat) : Vm Unit := do
  let upt ← pgallocz arch env
  (vmAreas arch).forM fun vma => do
    if vma.kernel then
      forArea arch vma (1 <<< (level1 arch).shift) (copyKernelEntry arch upt)
  store as (upt ||| pteP ||| pteU)

def unprotect (as : Nat) : Vm Unit :=
  teardown arch env (mmu arch).pgtables 0 as

def map (as va pa : Nat) (prot : BitVec 32) : Vm Unit := do
  panicOn (!inRange va (uvmArea arch)) "mapping an invalid address"
  panicOn (va != roundDown va (mmu arch).pgsize || pa != roundDown pa (mmu arch).pgsize)
    "non-page-boundary address"
  let ptentry ← ptwalk arch env as va (pteW ||| pteU)
  let entry ← load ptentry
  if prot = mmapNone then
    panicOn (entry &&& pteP == 0) "unmapping a non-mapped page"
    store ptentry 0
  else
    panicOn (entry &&& pteP != 0) "remapping a mapped page"
    store ptentry
      (pa ||| pteP ||| pteU ||| if prot &&& mmapWrite ≠ 0 then pteW else 0)
  let _ ← ptwalk arch env as va (pteW ||| pteU)
  pure ()

end

end AbstractMachine.X86.Vme
