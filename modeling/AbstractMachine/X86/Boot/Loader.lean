import Mathlib.Data.List.Basic
import AbstractMachine.X86.Boot.Sectors

/-!
# Loading an image

The headers are loaded in order, so a byte has in the end what the last header
that puts something there puts there.  A segment is as it should be if and only
if no later header has put another byte into it.
-/

namespace AbstractMachine.X86.Boot

open AbstractMachine.Lib

variable {disk : Disk} {p m m' : Mem} {c : Class} {fuel i n k depth : Nat} {h : Phdr}
  {hs : List Phdr} {x : Word}

/-! ## The page of headers -/

/-- The first 4096 bytes from `ELF_ADDR` on are those of `p`. -/
def Page (p m : Mem) : Prop :=
  ∀ x, ByteMem.InBlock ELF_ADDR 4096 x → m x = p x

theorem Page.load (hPage : Page p m) (hIn : k + n ≤ 4096) :
    ByteMem.load m (ELF_ADDR + BitVec.ofNat 32 k) n =
      ByteMem.load p (ELF_ADDR + BitVec.ofNat 32 k) n := by
  apply ByteMem.load_congr (by omega)
  intro x hx
  exact hPage x (ByteMem.inBlock_sub hx hIn (by decide))

theorem Page.phnum (hPage : Page p m) (c : Class) : e_phnum m c = e_phnum p c := by
  cases c with
  | elf32 => exact hPage.load (k := 44) (by decide)
  | elf64 => exact hPage.load (k := 56) (by decide)

theorem Page.phoff (hPage : Page p m) (c : Class) : e_phoff m c = e_phoff p c := by
  cases c with
  | elf32 => exact congrArg (BitVec.setWidth 64) (hPage.load (k := 28) (by decide))
  | elf64 => exact hPage.load (k := 32) (by decide)

theorem Page.entry (hPage : Page p m) (c : Class) : e_entry m c = e_entry p c := by
  cases c with
  | elf32 => exact congrArg (BitVec.setWidth 64) (hPage.load (k := 24) (by decide))
  | elf64 => exact hPage.load (k := 24) (by decide)

theorem Page.machine (hPage : Page p m) : e_machine m = e_machine p :=
  hPage.load (k := 18) (by decide)

/-- A header of the page. -/
theorem Page.readPhdr (hPage : Page p m) (hIn : k + phdrSize c ≤ 4096) :
    readPhdr m (ELF_ADDR + BitVec.ofNat 32 k) c = readPhdr p (ELF_ADDR + BitVec.ofNat 32 k) c := by
  have hField : ∀ j n, j + n ≤ phdrSize c →
      ByteMem.load m (ELF_ADDR + BitVec.ofNat 32 k + BitVec.ofNat 32 j) n =
        ByteMem.load p (ELF_ADDR + BitVec.ofNat 32 k + BitVec.ofNat 32 j) n := by
    intro j n hj
    rw [BitVec.add_assoc, ← BitVec.ofNat_add]
    exact hPage.load (by omega)
  have hType : ByteMem.load m (ELF_ADDR + BitVec.ofNat 32 k) 4 =
      ByteMem.load p (ELF_ADDR + BitVec.ofNat 32 k) 4 := by
    apply hPage.load
    cases c <;> simp only [phdrSize] at hIn <;> omega
  generalize ELF_ADDR + BitVec.ofNat 32 k = ph at hField hType
  cases c with
  | elf32 =>
      have hOffset : ByteMem.load m (ph + 4) 4 = ByteMem.load p (ph + 4) 4 :=
        hField 4 4 (by decide)
      have hPaddr : ByteMem.load m (ph + 12) 4 = ByteMem.load p (ph + 12) 4 :=
        hField 12 4 (by decide)
      have hFilesz : ByteMem.load m (ph + 16) 4 = ByteMem.load p (ph + 16) 4 :=
        hField 16 4 (by decide)
      have hMemsz : ByteMem.load m (ph + 20) 4 = ByteMem.load p (ph + 20) 4 :=
        hField 20 4 (by decide)
      unfold Boot.readPhdr
      rw [hType, hOffset, hPaddr, hFilesz, hMemsz]
  | elf64 =>
      have hOffset : ByteMem.load m (ph + 8) 8 = ByteMem.load p (ph + 8) 8 :=
        hField 8 8 (by decide)
      have hPaddr : ByteMem.load m (ph + 24) 8 = ByteMem.load p (ph + 24) 8 :=
        hField 24 8 (by decide)
      have hFilesz : ByteMem.load m (ph + 32) 8 = ByteMem.load p (ph + 32) 8 :=
        hField 32 8 (by decide)
      have hMemsz : ByteMem.load m (ph + 40) 8 = ByteMem.load p (ph + 40) 8 :=
        hField 40 8 (by decide)
      unfold Boot.readPhdr
      rw [hType, hOffset, hPaddr, hFilesz, hMemsz]

theorem Page.overlay (hPage : Page p m) (f : Word → Option (BitVec 8)) :
    Page (overlay f p) (overlay f m) := by
  intro x hx
  exact congrArg (f x).getD (hPage x hx)

/-! ## The loop -/

/-- What the last header puts at `x`. -/
def last (disk : Disk) : List Phdr → Word → Option (BitVec 8)
  | [], _ => none
  | h :: hs, x => (last disk hs x).or (puts disk h x)

private theorem overlay_or (f g : Word → Option (BitVec 8)) (m : Mem) :
    overlay f (overlay g m) = overlay (fun x => (f x).or (g x)) m := by
  funext x
  show (f x).getD ((g x).getD (m x)) = ((f x).or (g x)).getD (m x)
  cases f x with
  | none => rfl
  | some b => rfl

/-- The sectors of a header end before the address space does. -/
def Ends (h : Phdr) : Prop :=
  (h.p_paddr.setWidth 32 + h.p_filesz.setWidth 32 : Word).toNat ≤ 2 ^ 32 - 512

theorem Ends.load (hEnd : Ends h) (hFuel : 2 ^ 23 < fuel) (m : Mem) :
    load_program disk fuel (h.p_filesz.setWidth 32) (h.p_memsz.setWidth 32)
      (h.p_paddr.setWidth 32) (h.p_offset.setWidth 32) m = some (overlay (puts disk h) m) := by
  obtain ⟨m', hLoad⟩ :=
    load_program_some disk (h.p_memsz.setWidth 32) (h.p_offset.setWidth 32) hEnd hFuel m
  rw [hLoad, load_program_eq hLoad]
  rfl

/-- The place of header `i`. -/
def phdrAddr (disk : Disk) (c : Class) (i : Nat) : Word :=
  ELF_ADDR + (e_phoff (image disk) c).setWidth 32 + BitVec.ofNat 32 (i * phdrSize c)

/-- The page of headers once the first `i` of them are loaded. -/
def pageAfter (disk : Disk) (c : Class) (i : Nat) : Mem :=
  overlay (last disk ((phdrs disk c).take i)) (image disk)

/-- What `load_program` takes of a header. -/
@[mk_iff]
structure SameArgs (h h' : Phdr) : Prop where
  filesz : (h.p_filesz.setWidth 32 : Word) = h'.p_filesz.setWidth 32
  memsz : (h.p_memsz.setWidth 32 : Word) = h'.p_memsz.setWidth 32
  paddr : (h.p_paddr.setWidth 32 : Word) = h'.p_paddr.setWidth 32
  offset : (h.p_offset.setWidth 32 : Word) = h'.p_offset.setWidth 32

instance (h h' : Phdr) : Decidable (SameArgs h h') := decidable_of_iff' _ (sameArgs_iff h h')

/-- What the loop reads of the headers is what the image has there, whatever the
headers before have put elsewhere in the page. -/
structure KeepsHeaders (disk : Disk) (c : Class) : Prop where
  more : ∀ i, i < (e_phnum (image disk) c).toNat → i < (e_phnum (pageAfter disk c i) c).toNat
  done : (e_phnum (pageAfter disk c (e_phnum (image disk) c).toNat) c).toNat ≤
    (e_phnum (image disk) c).toNat
  args : ∀ i, i < (e_phnum (image disk) c).toNat →
    SameArgs (Boot.readPhdr (pageAfter disk c i) (phdrAddr disk c i) c) (header disk c i)

/-- The headers lie in the first 4096 bytes. -/
def HeadersFit (disk : Disk) (c : Class) : Prop :=
  (e_phoff (image disk) c).toNat + (e_phnum (image disk) c).toNat * phdrSize c ≤ 4096

theorem Page.header (hPage : Page p m) (hFit : HeadersFit disk c)
    (hi : i < (e_phnum (image disk) c).toNat) :
    Boot.readPhdr m (phdrAddr disk c i) c = Boot.readPhdr p (phdrAddr disk c i) c := by
  have hRow : (i + 1) * phdrSize c ≤ (e_phnum (image disk) c).toNat * phdrSize c :=
    Nat.mul_le_mul_right _ hi
  have hPlace : phdrAddr disk c i =
      ELF_ADDR + BitVec.ofNat 32 ((e_phoff (image disk) c).toNat + i * phdrSize c) := by
    unfold phdrAddr
    rw [BitVec.add_assoc, BitVec.ofNat_add, BitVec.ofNat_toNat]
  unfold HeadersFit at hFit
  rw [Nat.succ_mul] at hRow
  rw [hPlace]
  exact hPage.readPhdr (by omega)

private theorem length_phdrs (disk : Disk) (c : Class) :
    (phdrs disk c).length = (e_phnum (image disk) c).toNat := by
  unfold phdrs
  rw [List.length_map, List.length_range]

private theorem getElem_phdrs (hi : i < (phdrs disk c).length) :
    (phdrs disk c)[i] = header disk c i := by
  simp only [phdrs, List.getElem_map, List.getElem_range]

private theorem drop_phdrs (hi : i < (e_phnum (image disk) c).toNat) :
    (phdrs disk c).drop i = header disk c i :: (phdrs disk c).drop (i + 1) := by
  have hLen : i < (phdrs disk c).length := by rwa [length_phdrs]
  rw [List.drop_eq_getElem_cons hLen, getElem_phdrs hLen]

private theorem drop_phdrs_nil : (phdrs disk c).drop (e_phnum (image disk) c).toNat = [] :=
  List.drop_eq_nil_of_le (Nat.le_of_eq (length_phdrs disk c))

private theorem last_append (pre post : List Phdr) (x : Word) :
    last disk (pre ++ post) x = (last disk post x).or (last disk pre x) := by
  induction pre with
  | nil => exact (Option.or_none).symm
  | cons h pre ih =>
      rw [List.cons_append]
      show (last disk (pre ++ post) x).or (puts disk h x) = _
      rw [ih, Option.or_assoc]
      rfl

private theorem pageAfter_succ (hi : i < (e_phnum (image disk) c).toNat) :
    pageAfter disk c (i + 1) = overlay (puts disk (header disk c i)) (pageAfter disk c i) := by
  have hLen : i < (phdrs disk c).length := by rwa [length_phdrs]
  unfold pageAfter
  rw [List.take_succ_eq_append_getElem hLen, getElem_phdrs hLen, overlay_or]
  congr 1
  funext x
  rw [last_append]
  rfl

private theorem next_phdrAddr (disk : Disk) (c : Class) (i : Nat) :
    phdrAddr disk c i + BitVec.ofNat 32 (phdrSize c) = phdrAddr disk c (i + 1) := by
  unfold phdrAddr
  rw [BitVec.add_assoc, ← BitVec.ofNat_add, Nat.succ_mul]

/-- One turn of the loop: the header that is loaded is that of the image. -/
theorem loadHeaders_step (hFit : HeadersFit disk c) (hKeeps : KeepsHeaders disk c)
    (hPage : Page (pageAfter disk c i) m) (hi : i < (e_phnum (image disk) c).toNat) :
    loadHeaders disk c (fuel + 1) i (phdrAddr disk c i) m =
      (load_program disk fuel ((header disk c i).p_filesz.setWidth 32)
        ((header disk c i).p_memsz.setWidth 32) ((header disk c i).p_paddr.setWidth 32)
        ((header disk c i).p_offset.setWidth 32) m).bind
          (loadHeaders disk c fuel (i + 1) (phdrAddr disk c (i + 1))) := by
  obtain ⟨hFilesz, hMemsz, hPaddr, hOffset⟩ := hKeeps.args i hi
  rw [loadHeaders, hPage.phnum, if_pos (hKeeps.more i hi)]
  dsimp only
  rw [hPage.header hFit hi, hFilesz, hMemsz, hPaddr, hOffset, next_phdrAddr]

/-- And at the end it stops. -/
theorem loadHeaders_done (hKeeps : KeepsHeaders disk c)
    (hPage : Page (pageAfter disk c (e_phnum (image disk) c).toNat) m) (ph : Word) :
    loadHeaders disk c (fuel + 1) (e_phnum (image disk) c).toNat ph m = some m := by
  rw [loadHeaders, hPage.phnum]
  exact if_neg (Nat.not_lt_of_le hKeeps.done)

/-- What the headers from `i` on do to memory, if the loop ends. -/
theorem loadHeaders_eq (hFit : HeadersFit disk c) (hKeeps : KeepsHeaders disk c)
    (hi : i ≤ (e_phnum (image disk) c).toNat) (hPage : Page (pageAfter disk c i) m)
    (hLoad : loadHeaders disk c fuel i (phdrAddr disk c i) m = some m') :
    (∀ h ∈ (phdrs disk c).drop i, Ends h) ∧
      m' = overlay (last disk ((phdrs disk c).drop i)) m := by
  induction fuel generalizing i m with
  | zero => cases hLoad
  | succ fuel ih =>
      rcases Nat.lt_or_eq_of_le hi with hLt | rfl
      · rw [loadHeaders_step hFit hKeeps hPage hLt] at hLoad
        obtain ⟨m₁, hOne, hRest⟩ := Option.bind_eq_some_iff.mp hLoad
        rw [load_program_eq hOne] at hRest
        have hNextPage :
            Page (pageAfter disk c (i + 1)) (overlay (puts disk (header disk c i)) m) := by
          rw [pageAfter_succ hLt]
          exact hPage.overlay _
        obtain ⟨hEnds, hNext⟩ := ih hLt hNextPage hRest
        rw [drop_phdrs hLt]
        refine ⟨List.forall_mem_cons.mpr ⟨load_program_ends hOne, hEnds⟩, ?_⟩
        rw [hNext]
        exact overlay_or _ _ _
      · rw [loadHeaders_done hKeeps hPage] at hLoad
        cases hLoad
        rw [drop_phdrs_nil]
        exact ⟨fun _ hMem => absurd hMem List.not_mem_nil, rfl⟩

private theorem loadHeaders_some (hFit : HeadersFit disk c) (hKeeps : KeepsHeaders disk c)
    (hEnds : ∀ h ∈ (phdrs disk c).drop i, Ends h) (hi : i ≤ (e_phnum (image disk) c).toNat)
    (hPage : Page (pageAfter disk c i) m)
    (hFuel : 2 ^ 23 + 1 + ((phdrs disk c).drop i).length < fuel) :
    ∃ m', loadHeaders disk c fuel i (phdrAddr disk c i) m = some m' := by
  induction fuel generalizing i m with
  | zero => cases hFuel
  | succ fuel ih =>
      rcases Nat.lt_or_eq_of_le hi with hLt | rfl
      · rw [loadHeaders_step hFit hKeeps hPage hLt]
        rw [drop_phdrs hLt] at hEnds hFuel
        rw [List.length_cons] at hFuel
        rw [Ends.load (hEnds _ List.mem_cons_self) (by omega) m]
        have hNextPage :
            Page (pageAfter disk c (i + 1)) (overlay (puts disk (header disk c i)) m) := by
          rw [pageAfter_succ hLt]
          exact hPage.overlay _
        exact ih (fun h hMem => hEnds h (List.mem_cons_of_mem _ hMem)) hLt hNextPage (by omega)
      · exact ⟨m, loadHeaders_done hKeeps hPage _⟩

/-! ## The start -/

/-- The two copies before the program is loaded. -/
theorem load_start (disk : Disk) (hFuel : 2 ^ 23 < fuel) (m : Mem) :
    ∃ m₁ m₂, copy_from_disk disk fuel MAINARG_ADDR 1024 (-1024) m = some m₁ ∧
      copy_from_disk disk fuel ELF_ADDR 4096 0 m₁ = some m₂ := by
  obtain ⟨m₁, hArgs⟩ :=
    copyLoop_some disk (by decide : (MAINARG_ADDR + 1024).toNat ≤ 2 ^ 32 - 512)
      (Nat.lt_of_le_of_lt (sectors_le (firstAddr MAINARG_ADDR) _) hFuel) (firstSector (-1024)) m
  obtain ⟨m₂, hElf⟩ :=
    copyLoop_some disk (by decide : (ELF_ADDR + 4096).toNat ≤ 2 ^ 32 - 512)
      (Nat.lt_of_le_of_lt (sectors_le (firstAddr ELF_ADDR) _) hFuel) (firstSector 0) m₁
  exact ⟨m₁, m₂, hArgs, hElf⟩

private theorem page_start {m₁ m₂ : Mem}
    (hElf : copy_from_disk disk fuel ELF_ADDR 4096 0 m₁ = some m₂) :
    Page (image disk) m₂ := by
  intro x hx
  have hAddr : firstAddr ELF_ADDR = ELF_ADDR := by decide
  have hSector : firstSector 0 = 3 := by decide
  have hCount : 512 * sectors ELF_ADDR (ELF_ADDR + 4096) = 4096 := by decide
  have hCopy : copyLoop disk (ELF_ADDR + 4096) fuel (firstAddr ELF_ADDR) (firstSector 0) m₁ =
      some m₂ := hElf
  rw [hAddr, hSector] at hCopy
  have hByte := copyLoop_eq (x := x) (by decide) hCopy
  have hIn : (x - ELF_ADDR).toNat < 4096 := hx
  rw [hCount, if_pos hIn] at hByte
  rw [hByte]
  unfold image fileByte sectorByte
  rw [BitVec.ofNat_add, BitVec.add_comm]
  rfl

/-! ## Segments -/

/-- A segment in the address space, whose place in the file is an `int`. -/
structure Segment (h : Phdr) : Prop where
  memory : h.p_paddr.toNat + h.p_memsz.toNat < 2 ^ 32
  file : h.p_offset.toNat < 2 ^ 31
  size : h.p_filesz.toNat ≤ h.p_memsz.toNat
  congruent : h.p_offset.toNat % 512 = h.p_paddr.toNat % 512

/-- Byte `k` of a segment. -/
def segmentByte (disk : Disk) (h : Phdr) (k : Nat) : BitVec 8 :=
  if k < h.p_filesz.toNat then fileByte disk (h.p_offset.toNat + k) else 0

/-- The file bytes of a segment, followed by zeros, are in memory. -/
def Loaded (disk : Disk) (m : Mem) (h : Phdr) : Prop :=
  ∀ k, k < h.p_memsz.toNat → m (BitVec.ofNat 32 (h.p_paddr.toNat + k)) = segmentByte disk h k

private theorem toNat_word {v : BitVec 64} (h : v.toNat < 2 ^ 32) :
    (v.setWidth 32 : Word).toNat = v.toNat := by
  rw [BitVec.toNat_setWidth]
  exact Nat.mod_eq_of_lt h

/-- A segment's own header puts there what it should. -/
theorem puts_own (disk : Disk) (hSeg : Segment h) (hk : k < h.p_memsz.toNat) :
    puts disk h (BitVec.ofNat 32 (h.p_paddr.toNat + k)) = some (segmentByte disk h k) := by
  have hMemory := hSeg.memory
  have hFile := hSeg.file
  have hSize := hSeg.size
  have hPaddr := toNat_word (v := h.p_paddr) (by omega)
  have hFilesz := toNat_word (v := h.p_filesz) (by omega)
  have hMemsz := toNat_word (v := h.p_memsz) (by omega)
  have hOffset := toNat_word (v := h.p_offset) (by omega)
  have hCongruent : (h.p_offset.setWidth 32 : Word).toNat % 512 =
      (h.p_paddr.setWidth 32 : Word).toNat % 512 := by
    rw [hOffset, hPaddr]
    exact hSeg.congruent
  have hFit : (h.p_paddr.setWidth 32 : Word).toNat + (h.p_filesz.setWidth 32 : Word).toNat <
      2 ^ 32 := by omega
  have hOwn := putsBytes_own disk (h.p_memsz.setWidth 32) hFit (by omega) (by omega)
    hCongruent (k := k) (by omega)
  rw [hPaddr, hFilesz, hOffset] at hOwn
  exact hOwn

/-! ## The whole image -/

/-- The class that the image itself states. -/
def imageClass (disk : Disk) : Class := if eiClass (image disk) = 2 then .elf64 else .elf32

/-- No address lies in both segments. -/
def Disjoint (h h' : Phdr) : Prop :=
  h.p_paddr.toNat + h.p_memsz.toNat ≤ h'.p_paddr.toNat ∨
    h'.p_paddr.toNat + h'.p_memsz.toNat ≤ h.p_paddr.toNat

/-- An image as the loader takes it: its headers are in the page, and its segments apart
from each other. -/
structure Image (disk : Disk) : Prop where
  headers : HeadersFit disk (imageClass disk)
  segments : ∀ h ∈ phdrs disk (imageClass disk), h.p_type = PT_LOAD → Segment h
  disjoint : (phdrs disk (imageClass disk)).Pairwise fun h h' =>
    h.p_type = PT_LOAD → h'.p_type = PT_LOAD → Disjoint h h'

/-- `e_machine` is that of x86_64 for an ELF64 image, and only for one. -/
def MachineAgrees (disk : Disk) : Prop :=
  e_machine (image disk) = EM_X86_64 ↔ imageClass disk = .elf64

instance (disk : Disk) : Decidable (MachineAgrees disk) := inferInstanceAs (Decidable (_ ↔ _))

/-- The boot block, which holds the loader, and `depth` bytes of its stack. -/
def Own (depth : Nat) (x : Word) : Prop :=
  ByteMem.InBlock BOOT_ADDR 512 x ∨ ByteMem.InBlock (STACK_ADDR - BitVec.ofNat 32 depth) depth x

/-- No header puts anything into the loader itself. -/
def SparesLoader (disk : Disk) (depth : Nat) : Prop :=
  ∀ h ∈ phdrs disk (imageClass disk), ∀ x, Own depth x → puts disk h x = none

/-- The loader ends, and all segments are in memory. -/
def LoadsAll (disk : Disk) (m : Mem) : Prop :=
  ∃ fuel m', load_image disk fuel m = some m' ∧
    ∀ h ∈ phdrs disk (imageClass disk), h.p_type = PT_LOAD → Loaded disk m' h

/-- Where headers after that of a segment put something into it, the last of them
puts the byte that is there already. -/
def Undisturbed (disk : Disk) : Prop :=
  ∀ pre h post, phdrs disk (imageClass disk) = pre ++ h :: post → h.p_type = PT_LOAD →
    ∀ k, k < h.p_memsz.toNat → ∀ b,
      last disk post (BitVec.ofNat 32 (h.p_paddr.toNat + k)) = some b → b = segmentByte disk h k

private theorem page_zero (hPage : Page (image disk) m) : Page (pageAfter disk c 0) m := hPage

/-- What the loader runs after its two copies. -/
theorem load_elf_start (hPage : Page (image disk) m) (hMachine : MachineAgrees disk)
    (fuel : Nat) :
    (if e_machine m = EM_X86_64 then load_elf64 disk fuel m else load_elf32 disk fuel m) =
      loadHeaders disk (imageClass disk) fuel 0 (phdrAddr disk (imageClass disk) 0) m := by
  have hFirst : phdrAddr disk (imageClass disk) 0 =
      ELF_ADDR + (e_phoff (image disk) (imageClass disk)).setWidth 32 := by
    unfold phdrAddr
    rw [Nat.zero_mul]
    exact BitVec.add_zero _
  rw [hFirst, ← hPage.phoff, hPage.machine]
  by_cases h64 : imageClass disk = .elf64
  · rw [if_pos (hMachine.mpr h64), h64]
    rfl
  · have h32 : imageClass disk = .elf32 := by
      cases hClass : imageClass disk with
      | elf32 => rfl
      | elf64 => exact absurd hClass h64
    rw [if_neg (mt hMachine.mp h64), h32]
    rfl

private theorem load_image_eq (hFit : HeadersFit disk (imageClass disk))
    (hMachine : MachineAgrees disk)
    (hKeeps : KeepsHeaders disk (imageClass disk)) (hLoad : load_image disk fuel m = some m') :
    (∀ h ∈ phdrs disk (imageClass disk), Ends h) ∧
      ∃ m₁ m₂, copy_from_disk disk fuel MAINARG_ADDR 1024 (-1024) m = some m₁ ∧
        copy_from_disk disk fuel ELF_ADDR 4096 0 m₁ = some m₂ ∧
        m' = overlay (last disk (phdrs disk (imageClass disk))) m₂ := by
  obtain ⟨m₁, hArgs, hLoad⟩ := Option.bind_eq_some_iff.mp hLoad
  obtain ⟨m₂, hElf, hLoad⟩ := Option.bind_eq_some_iff.mp hLoad
  have hPage := page_start hElf
  rw [load_elf_start hPage hMachine] at hLoad
  obtain ⟨hEnds, hOver⟩ := loadHeaders_eq hFit hKeeps (Nat.zero_le _) (page_zero hPage) hLoad
  exact ⟨hEnds, m₁, m₂, hArgs, hElf, hOver⟩

private theorem load_image_some (hFit : HeadersFit disk (imageClass disk))
    (hMachine : MachineAgrees disk)
    (hKeeps : KeepsHeaders disk (imageClass disk))
    (hEnds : ∀ h ∈ phdrs disk (imageClass disk), Ends h) (m : Mem) :
    ∃ fuel m', load_image disk fuel m = some m' := by
  have hFuel : 2 ^ 23 + 1 + (phdrs disk (imageClass disk)).length <
      2 ^ 23 + 2 + (phdrs disk (imageClass disk)).length := by omega
  generalize 2 ^ 23 + 2 + (phdrs disk (imageClass disk)).length = fuel at hFuel
  obtain ⟨m₁, m₂, hArgs, hElf⟩ := load_start disk (by omega : 2 ^ 23 < fuel) m
  have hPage := page_start hElf
  obtain ⟨m', hHeaders⟩ :=
    loadHeaders_some (i := 0) hFit hKeeps hEnds (Nat.zero_le _) (page_zero hPage) hFuel
  refine ⟨fuel, m', ?_⟩
  unfold load_image
  rw [hArgs]
  show (copy_from_disk disk fuel ELF_ADDR 4096 0 m₁).bind _ = _
  rw [hElf]
  show (if e_machine m₂ = EM_X86_64 then load_elf64 disk fuel m₂ else load_elf32 disk fuel m₂) = _
  rw [load_elf_start hPage hMachine]
  exact hHeaders

/-- The segments are in memory at the end. -/
theorem loaded_of_undisturbed (hImage : Image disk) (hQuiet : Undisturbed disk)
    (hMem : h ∈ phdrs disk (imageClass disk)) (hType : h.p_type = PT_LOAD) (m : Mem) :
    Loaded disk (overlay (last disk (phdrs disk (imageClass disk))) m) h := by
  intro k hk
  obtain ⟨pre, post, hSplit⟩ := List.append_of_mem hMem
  have hOwn := puts_own disk (hImage.segments h hMem hType) hk
  have hLater := hQuiet pre h post hSplit hType k hk
  unfold overlay
  rw [hSplit, last_append]
  unfold last
  cases hLast : last disk post (BitVec.ofNat 32 (h.p_paddr.toNat + k)) with
  | none =>
      rw [hOwn]
      rfl
  | some b => exact hLater b hLast

/-! ## The loader's own memory -/

private theorem last_none (h : ∀ h ∈ hs, puts disk h x = none) : last disk hs x = none := by
  induction hs with
  | nil => rfl
  | cons h₀ hs ih =>
      show (last disk hs x).or (puts disk h₀ x) = none
      rw [ih fun h' hMem => h h' (List.mem_cons_of_mem _ hMem), h h₀ List.mem_cons_self]
      rfl

private theorem own_bounds (hDepth : depth ≤ 0x1000) (hx : Own depth x) :
    (0x7c00 ≤ x.toNat ∧ x.toNat < 0x7e00) ∨ (0x9000 ≤ x.toNat ∧ x.toNat < 0xa000) := by
  rcases hx with hCode | hStack
  · exact Or.inl ((ByteMem.inBlock_iff (by decide)).mp hCode)
  · have hTop : STACK_ADDR.toNat = 0xa000 := rfl
    have hNat : (BitVec.ofNat 32 depth).toNat = depth := by
      rw [BitVec.toNat_ofNat]
      exact Nat.mod_eq_of_lt (Nat.lt_of_le_of_lt hDepth (by decide))
    have hStart : (STACK_ADDR - BitVec.ofNat 32 depth).toNat = 0xa000 - depth := by
      rw [BitVec.toNat_sub_of_le (by rw [BitVec.le_def]; omega), hNat, hTop]
    rw [ByteMem.inBlock_iff (by omega), hStart] at hStack
    omega

/-- The copies before the headers are read reach neither the code nor the stack. -/
theorem copy_own {buf nbytes sect : Word} (hDepth : depth ≤ 0x1000)
    (hx : Own depth x)
    (hBuf : (buf = MAINARG_ADDR ∧ nbytes = 1024) ∨ (buf = ELF_ADDR ∧ nbytes = 4096))
    (hCopy : copy_from_disk disk fuel buf nbytes sect m = some m') : m' x = m x := by
  have hBounds := own_bounds hDepth hx
  have hWhole : firstAddr buf = buf ∧ (buf + nbytes).toNat ≤ 2 ^ 32 - 512 ∧
      512 * sectors (firstAddr buf) (buf + nbytes) = nbytes.toNat := by
    rcases hBuf with ⟨rfl, rfl⟩ | ⟨rfl, rfl⟩
    · decide
    · decide
  have hOut : ¬ (x - buf).toNat < nbytes.toNat := by
    rcases hBuf with ⟨rfl, rfl⟩ | ⟨rfl, rfl⟩
    · have hBase : MAINARG_ADDR.toNat = 0x10000 := rfl
      bv_omega
    · have hBase : ELF_ADDR.toNat = 0x8000 := rfl
      bv_omega
  obtain ⟨hAddr, hEnd, hCount⟩ := hWhole
  have hByte := copyLoop_eq (x := x) hEnd hCopy
  change m' x = if (x - firstAddr buf).toNat <
    512 * sectors (firstAddr buf) (buf + nbytes) then _ else m x at hByte
  rw [hByte, hCount, hAddr, if_neg hOut]

/--
**The boot loader.** For an image whose machine agrees with its class, whose headers
stand in memory as the image has them when they are read, and none of which reaches
the loader itself, the loader ends with every segment in memory at once, whatever was
in memory before, if and only if the sectors of all headers end within the address
space and no segment is disturbed by a later header, of whatever type.  Its own code
and stack stay as they are.
-/
theorem load_image_iff (disk : Disk) (depth : Nat) (m : Mem) (hImage : Image disk)
    (hMachine : MachineAgrees disk) (hKeeps : KeepsHeaders disk (imageClass disk))
    (hDepth : depth ≤ 0x1000) (hSpares : SparesLoader disk depth) :
    (LoadsAll disk m ↔ (∀ h ∈ phdrs disk (imageClass disk), Ends h) ∧ Undisturbed disk) ∧
      ∀ fuel m', load_image disk fuel m = some m' → ∀ x, Own depth x → m' x = m x := by
  refine ⟨⟨?_, ?_⟩, ?_⟩
  · rintro ⟨fuel, m', hLoad, hAll⟩
    obtain ⟨hEnds, _, m₂, -, -, rfl⟩ := load_image_eq hImage.headers hMachine hKeeps hLoad
    refine ⟨hEnds, ?_⟩
    intro pre h post hSplit hType k hk b hLast
    have hMem : h ∈ phdrs disk (imageClass disk) := by
      rw [hSplit]
      exact List.mem_append_right _ List.mem_cons_self
    have hByte := hAll h hMem hType k hk
    unfold overlay at hByte
    rw [hSplit, last_append] at hByte
    unfold last at hByte
    rw [hLast] at hByte
    exact hByte
  · rintro ⟨hEnds, hQuiet⟩
    obtain ⟨fuel, m', hLoad⟩ := load_image_some hImage.headers hMachine hKeeps hEnds m
    refine ⟨fuel, m', hLoad, ?_⟩
    obtain ⟨-, _, m₂, -, -, rfl⟩ := load_image_eq hImage.headers hMachine hKeeps hLoad
    intro h hMem hType
    exact loaded_of_undisturbed hImage hQuiet hMem hType m₂
  · intro fuel m' hLoad x hx
    obtain ⟨-, m₁, m₂, hArgs, hElf, rfl⟩ := load_image_eq hImage.headers hMachine hKeeps hLoad
    have hNone := last_none fun h hMem => hSpares h hMem x hx
    unfold overlay
    rw [hNone, Option.getD_none, copy_own hDepth hx (Or.inr ⟨rfl, rfl⟩) hElf,
      copy_own hDepth hx (Or.inl ⟨rfl, rfl⟩) hArgs]

/-! ## The jump -/

/-- What `load_kernel` reads of the ELF header at the end is what the image has there. -/
structure KeepsEntry (disk : Disk) (p : Mem) : Prop where
  machine : e_machine p = e_machine (image disk)
  entry : e_entry p (imageClass disk) = e_entry (image disk) (imageClass disk)

theorem KeepsEntry.of_page (h : KeepsEntry disk p) (hPage : Page p m) : KeepsEntry disk m :=
  ⟨hPage.machine.trans h.machine, (hPage.entry _).trans h.entry⟩

/-- The end of `load_kernel`. -/
theorem KeepsEntry.jump (h : KeepsEntry disk m) (hMachine : MachineAgrees disk) :
    (if e_machine m = EM_X86_64 then some (m, (e_entry m .elf64).setWidth 32)
      else some (m, (e_entry m .elf32).setWidth 32)) =
      some (m, ((e_entry (image disk) (imageClass disk)).setWidth 32 : Word)) := by
  rw [← h.entry, h.machine]
  unfold MachineAgrees at hMachine
  cases hClass : imageClass disk with
  | elf64 => rw [if_pos (hMachine.mpr hClass)]
  | elf32 =>
      rw [if_neg]
      intro h64
      have h32 := hMachine.mp h64
      rw [hClass] at h32
      cases h32

/-- The first processor loads the image and jumps to its entry, and so does each that is
started later, as long as the headers are still there. -/
theorem load_kernel_jumps (hImage : Image disk) (hMachine : MachineAgrees disk)
    (hKeeps : KeepsHeaders disk (imageClass disk))
    (hEntry : KeepsEntry disk (overlay (last disk (phdrs disk (imageClass disk))) (image disk)))
    (hEnds : ∀ h ∈ phdrs disk (imageClass disk), Ends h) (hQuiet : Undisturbed disk)
    (hFirst : ByteMem.load m (BOOTREC_ADDR + 4) 4 = 0) :
    ∃ fuel m', load_kernel disk fuel m =
        some (m', (e_entry (image disk) (imageClass disk)).setWidth 32) ∧
      (∀ h ∈ phdrs disk (imageClass disk), h.p_type = PT_LOAD → Loaded disk m' h) ∧
      ∀ fuel' m'', Page m' m'' → ByteMem.load m'' (BOOTREC_ADDR + 4) 4 ≠ 0 →
        load_kernel disk fuel' m'' =
          some (m'', (e_entry (image disk) (imageClass disk)).setWidth 32) := by
  obtain ⟨fuel, m', hLoad⟩ := load_image_some hImage.headers hMachine hKeeps hEnds m
  obtain ⟨-, _, m₂, -, hElf, hOver⟩ := load_image_eq hImage.headers hMachine hKeeps hLoad
  have hKept : KeepsEntry disk m' := by
    rw [hOver]
    exact hEntry.of_page ((page_start hElf).overlay _)
  refine ⟨fuel, m', ?_, ?_, ?_⟩
  · unfold load_kernel
    rw [if_pos hFirst, hLoad]
    exact hKept.jump hMachine
  · rw [hOver]
    intro h hMem hType
    exact loaded_of_undisturbed hImage hQuiet hMem hType m₂
  · intro fuel' m'' hPage hLater
    unfold load_kernel
    rw [if_neg hLater]
    exact (hKept.of_page hPage).jump hMachine

/-! ## Images of two headers -/

/-- The bytes of the words `ws` from sector 3 on, then 0xff. -/
def wordsDisk (ws : List Word) : Disk := fun sect k =>
  let n := (sect.toNat - 3) * 512 + k
  if n < 4 * ws.length then (ws.getD (n / 4) 0).extractLsb' (8 * (n % 4)) 8 else 0xff

/-- An ELF32 header for x86 that two program headers follow. -/
def elfWords : List Word :=
  [0x464c457f, 0x00010101, 0, 0, 0x00030002, 1, 0x00100000, 52, 0, 0, 0x00200034, 2, 0]

/-- A program header of an ELF32 file, loaded where it says. -/
def phdrWords (p_type offset paddr filesz memsz : Word) : List Word :=
  [p_type, offset, paddr, paddr, filesz, memsz, 7, 512]

/-- A segment of 4 file bytes and 4 zeros, and the mark of a stack. -/
def stackDisk : Disk :=
  wordsDisk (elfWords ++ phdrWords PT_LOAD 0x1000 0x100000 4 8 ++ phdrWords 0x6474e551 0 0 0 0)

private theorem stackDisk_phdrs :
    phdrs stackDisk (imageClass stackDisk) =
      [⟨PT_LOAD, 0x1000, 0x100000, 4, 8⟩, ⟨0x6474e551, 0, 0, 0, 0⟩] := by
  decide

private theorem stackDisk_image : Image stackDisk := by
  constructor
  · unfold HeadersFit
    decide
  · rw [stackDisk_phdrs]
    intro h hMem hType
    rcases List.mem_cons.mp hMem with rfl | hMem
    · exact ⟨by decide, by decide, by decide, by decide⟩
    · rw [List.mem_singleton.mp hMem] at hType
      exact absurd hType (by decide)
  · rw [stackDisk_phdrs]
    apply List.pairwise_pair.mpr
    intro _ hType
    exact absurd hType (by decide)

/-- A header of nothing puts nothing. -/
theorem puts_empty (disk : Disk) (p_type : BitVec 32) (x : Word) :
    puts disk ⟨p_type, 0, 0, 0, 0⟩ x = none := by
  have hNone : 512 * sectors (firstAddr 0) (0 + 0) = 0 := by decide
  have hEmpty : ((0 : Word) - 0).toNat = 0 := rfl
  show putsBytes disk 0 0 0 0 x = none
  unfold putsBytes
  rw [hNone, hEmpty, if_neg (Nat.not_lt_zero _), if_neg (Nat.not_lt_zero _)]

private theorem last_empty (disk : Disk) (p_type : BitVec 32) (x : Word) :
    last disk [⟨p_type, 0, 0, 0, 0⟩] x = none := by
  show (none : Option (BitVec 8)).or (puts disk ⟨p_type, 0, 0, 0, 0⟩ x) = none
  rw [puts_empty]
  rfl

private theorem toNat_sub_above {a : Word} (h : x.toNat < a.toNat) :
    (x - a).toNat = 2 ^ 32 - a.toNat + x.toNat := by
  bv_omega

/-- A segment puts nothing below the sector that it begins in. -/
theorem puts_below (disk : Disk) (hSeg : Segment h)
    (hx : x.toNat < h.p_paddr.toNat - h.p_paddr.toNat % 512) : puts disk h x = none := by
  have hMemory := hSeg.memory
  have hSize := hSeg.size
  have hPaddr := toNat_word (v := h.p_paddr) (by omega)
  have hFilesz := toNat_word (v := h.p_filesz) (by omega)
  have hMemsz := toNat_word (v := h.p_memsz) (by omega)
  have hStart := toNat_firstAddr (h.p_paddr.setWidth 32)
  unfold puts putsBytes
  generalize (h.p_paddr.setWidth 32 : Word) = a at *
  generalize (h.p_filesz.setWidth 32 : Word) = f at *
  generalize (h.p_memsz.setWidth 32 : Word) = l at *
  have hEnd : (a + f).toNat = a.toNat + f.toNat := by
    rw [BitVec.toNat_add]
    exact Nat.mod_eq_of_lt (by omega)
  have hBss : (l - f).toNat = l.toNat - f.toNat :=
    BitVec.toNat_sub_of_le (by rw [BitVec.le_def]; omega)
  have hZeros : ¬ (x - (a + f)).toNat < (l - f).toNat := by
    rw [toNat_sub_above (by omega), hBss]
    omega
  have hSectors : ¬ (x - firstAddr a).toNat < 512 * sectors (firstAddr a) (a + f) := by
    unfold sectors
    rw [toNat_sub_above (by omega)]
    omega
  rw [if_neg hZeros, if_neg hSectors]

/-- Segments above the loader spare it. -/
theorem puts_own_above (disk : Disk) (hSeg : Segment h) (hAbove : 0xa000 ≤ h.p_paddr.toNat)
    (hx : Own 0x1000 x) : puts disk h x = none := by
  have hBounds := own_bounds (Nat.le_refl _) hx
  exact puts_below disk hSeg (by omega)

private theorem stackDisk_undisturbed : Undisturbed stackDisk := by
  intro pre h post hSplit hType k _ b hLast
  rw [stackDisk_phdrs] at hSplit
  generalize BitVec.ofNat 32 (h.p_paddr.toNat + k) = x at hLast
  rcases pre with _ | ⟨_, _ | ⟨_, pre⟩⟩
  · cases hSplit
    rw [last_empty] at hLast
    cases hLast
  · cases hSplit
    exact absurd hType (by decide)
  · simp at hSplit

private theorem stackDisk_keepsHeaders : KeepsHeaders stackDisk (imageClass stackDisk) :=
  ⟨by decide, by decide +kernel, by decide +kernel⟩

private theorem stackDisk_sparesLoader : SparesLoader stackDisk 0x1000 := by
  intro h hMem x hx
  rw [stackDisk_phdrs] at hMem
  rcases List.mem_cons.mp hMem with rfl | hMem
  · exact puts_own_above _ ⟨by decide, by decide, by decide, by decide⟩ (by decide) hx
  · rw [List.mem_singleton.mp hMem]
    exact puts_empty ..

theorem load_image_iff_stack : LoadsAll stackDisk fun _ => 0 := by
  apply (load_image_iff stackDisk 0x1000 (fun _ => 0) stackDisk_image (by decide)
    stackDisk_keepsHeaders (by decide) stackDisk_sparesLoader).1.mpr
  refine ⟨?_, stackDisk_undisturbed⟩
  rw [stackDisk_phdrs]
  unfold Ends
  decide

/-- Two segments in one sector: 4 file bytes and 4 zeros, and 4 file bytes more. -/
def sectorDisk : Disk :=
  wordsDisk
    (elfWords ++ phdrWords PT_LOAD 0x1000 0x100000 4 8 ++ phdrWords PT_LOAD 0x1008 0x100008 4 4)

private theorem sectorDisk_phdrs :
    phdrs sectorDisk (imageClass sectorDisk) =
      [⟨PT_LOAD, 0x1000, 0x100000, 4, 8⟩, ⟨PT_LOAD, 0x1008, 0x100008, 4, 4⟩] := by
  decide

private theorem sectorDisk_image : Image sectorDisk := by
  constructor
  · unfold HeadersFit
    decide
  · rw [sectorDisk_phdrs]
    intro h hMem _
    rcases List.mem_cons.mp hMem with rfl | hMem
    · exact ⟨by decide, by decide, by decide, by decide⟩
    · rw [List.mem_singleton.mp hMem]
      exact ⟨by decide, by decide, by decide, by decide⟩
  · rw [sectorDisk_phdrs]
    apply List.pairwise_pair.mpr
    intro _ _
    exact Or.inl (by decide)

private theorem sectorDisk_keepsHeaders : KeepsHeaders sectorDisk (imageClass sectorDisk) :=
  ⟨by decide, by decide +kernel, by decide +kernel⟩

private theorem sectorDisk_sparesLoader : SparesLoader sectorDisk 0x1000 := by
  intro h hMem x hx
  have hPhdrs := hMem
  rw [sectorDisk_phdrs] at hPhdrs
  have hBoth : h.p_type = PT_LOAD ∧ 0xa000 ≤ h.p_paddr.toNat := by
    rcases List.mem_cons.mp hPhdrs with rfl | hLast
    · decide
    · rw [List.mem_singleton.mp hLast]
      decide
  exact puts_own_above _ (sectorDisk_image.segments h hMem hBoth.1) hBoth.2 hx

/-- The sector of the second segment brings other bytes to where the first one is
zero. -/
theorem sectorDisk_not_loaded :
    Image sectorDisk ∧ MachineAgrees sectorDisk ∧
      KeepsHeaders sectorDisk (imageClass sectorDisk) ∧ SparesLoader sectorDisk 0x1000 ∧
      ∀ m, ¬ LoadsAll sectorDisk m := by
  have hMachine : MachineAgrees sectorDisk := by decide
  refine ⟨sectorDisk_image, hMachine, sectorDisk_keepsHeaders, sectorDisk_sparesLoader, ?_⟩
  rintro m ⟨fuel, m', hLoad, hAll⟩
  obtain ⟨-, _, m₂, -, -, rfl⟩ :=
    load_image_eq sectorDisk_image.headers hMachine sectorDisk_keepsHeaders hLoad
  rw [sectorDisk_phdrs] at hAll
  have hByte := hAll _ List.mem_cons_self rfl 4 (by decide)
  have hLast : last sectorDisk
      [⟨PT_LOAD, 0x1000, 0x100000, 4, 8⟩, ⟨PT_LOAD, 0x1008, 0x100008, 4, 4⟩] 0x100004 =
        some 0xff := by
    decide
  have hAddr : BitVec.ofNat 32 ((⟨PT_LOAD, 0x1000, 0x100000, 4, 8⟩ : Phdr).p_paddr.toNat + 4) =
      0x100004 := by decide
  have hWanted : segmentByte sectorDisk ⟨PT_LOAD, 0x1000, 0x100000, 4, 8⟩ 4 = 0 := by decide
  rw [hAddr, hWanted] at hByte
  unfold overlay at hByte
  rw [hLast, Option.getD_some] at hByte
  exact absurd hByte (by decide)

end AbstractMachine.X86.Boot
