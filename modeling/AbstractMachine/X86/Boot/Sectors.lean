import AbstractMachine.X86.Boot.Model

/-!
# What a program header puts into memory

Whole sectors from the disk, from the one that the segment begins in to the one
that its file bytes end in, and zeros for the rest of the segment.
-/

namespace AbstractMachine.X86.Boot

open AbstractMachine.Lib

variable {disk : Disk} {buf sect cur ed x bss : Word} {m m' : Mem} {fuel n : Nat} {h : Phdr}

/-! ## Sectors -/

/-- The distance from a later base. -/
theorem sub_offset (x a : Word) (k : Nat) (hk : k ≤ (x - a).toNat) :
    (x - (a + BitVec.ofNat 32 k)).toNat = (x - a).toNat - k := by
  bv_omega

private theorem sub_offset_before (x a : Word) (k : Nat) (hk : (x - a).toNat < k)
    (hLt : k < 2 ^ 32) :
    (x - (a + BitVec.ofNat 32 k)).toNat = 2 ^ 32 - k + (x - a).toNat := by
  bv_omega

private theorem readWords_eq (hn : 4 * n ≤ 2 ^ 32) :
    readWords disk buf sect n m x =
      if (x - buf).toNat < 4 * n then disk sect (x - buf).toNat else m x := by
  induction n with
  | zero => rfl
  | succ n ih =>
      show (if ByteMem.InBlock (buf + BitVec.ofNat 32 (4 * n)) 4 x then
        disk sect (4 * n + (x - (buf + BitVec.ofNat 32 (4 * n))).toNat)
        else readWords disk buf sect n m x) = _
      by_cases hWord : ByteMem.InBlock (buf + BitVec.ofNat 32 (4 * n)) 4 x
      · have hDist := ByteMem.toNat_sub_offset hWord (by omega)
        have hFour : (x - (buf + BitVec.ofNat 32 (4 * n))).toNat < 4 := hWord
        rw [if_pos hWord, hDist, if_pos (by omega)]
      · have hFour : ¬ (x - (buf + BitVec.ofNat 32 (4 * n))).toNat < 4 := hWord
        rw [if_neg hWord, ih (by omega)]
        by_cases hBefore : (x - buf).toNat < 4 * n
        · rw [if_pos hBefore, if_pos (by omega)]
        · have hDist := sub_offset x buf (4 * n) (Nat.le_of_not_lt hBefore)
          rw [if_neg hBefore, if_neg (by omega)]

private theorem read_disk_eq (disk : Disk) (buf sect : Word) (m : Mem) (x : Word) :
    read_disk disk buf sect m x =
      if (x - buf).toNat < 512 then disk sect (x - buf).toNat else m x :=
  readWords_eq (n := 128) (by decide)

/-- How many sectors are read. -/
def sectors (cur ed : Word) : Nat := (ed.toNat - cur.toNat + 511) / 512

/-- The bytes of the sectors from `sect` on, from `cur` on. -/
def sectorByte (disk : Disk) (cur sect x : Word) : BitVec 8 :=
  disk (sect + BitVec.ofNat 32 ((x - cur).toNat / 512)) ((x - cur).toNat % 512)

private theorem toNat_add_SECTSIZE (h : cur.toNat + 512 < 2 ^ 32) :
    (cur + SECTSIZE).toNat = cur.toNat + 512 := by
  rw [BitVec.toNat_add]
  exact Nat.mod_eq_of_lt h

private theorem sectors_next (h : cur < ed) (hEnd : ed.toNat ≤ 2 ^ 32 - 512) :
    sectors cur ed = sectors (cur + SECTSIZE) ed + 1 := by
  have hLt := BitVec.lt_def.mp h
  unfold sectors
  rw [toNat_add_SECTSIZE (by omega)]
  omega

/-- What the loop leaves, if it ends. -/
theorem copyLoop_eq (hEnd : ed.toNat ≤ 2 ^ 32 - 512)
    (h : copyLoop disk ed fuel cur sect m = some m') :
    m' x = if (x - cur).toNat < 512 * sectors cur ed then sectorByte disk cur sect x else m x := by
  induction fuel generalizing cur sect m with
  | zero => cases h
  | succ fuel ih =>
      rw [copyLoop] at h
      by_cases hMore : cur < ed
      · rw [if_pos hMore] at h
        have hLt := BitVec.lt_def.mp hMore
        have hNext : (cur + SECTSIZE).toNat = cur.toNat + 512 := toNat_add_SECTSIZE (by omega)
        have hSectors := sectors_next hMore hEnd
        have hMax : 512 * sectors (cur + SECTSIZE) ed ≤ 2 ^ 32 - 512 := by
          unfold sectors
          omega
        rw [ih h, hSectors, read_disk_eq]
        by_cases hFirst : (x - cur).toNat < 512
        · have hDist : (x - (cur + SECTSIZE)).toNat = 2 ^ 32 - 512 + (x - cur).toNat :=
            sub_offset_before x cur 512 hFirst (by decide)
          rw [if_neg (by omega), if_pos hFirst, if_pos (by omega)]
          unfold sectorByte
          rw [Nat.div_eq_of_lt hFirst, Nat.mod_eq_of_lt hFirst, BitVec.add_zero]
        · have hDist : (x - (cur + SECTSIZE)).toNat = (x - cur).toNat - 512 :=
            sub_offset x cur 512 (Nat.le_of_not_lt hFirst)
          rw [hDist, if_neg hFirst]
          by_cases hIn : (x - cur).toNat - 512 < 512 * sectors (cur + SECTSIZE) ed
          · have hRow : (x - cur).toNat / 512 = ((x - cur).toNat - 512) / 512 + 1 := by omega
            have hByte : ((x - cur).toNat - 512) % 512 = (x - cur).toNat % 512 := by omega
            rw [if_pos hIn, if_pos (by omega)]
            unfold sectorByte
            rw [hDist, hByte, hRow, BitVec.add_assoc, BitVec.add_comm 1, BitVec.ofNat_add]
            rfl
          · rw [if_neg hIn, if_neg (by omega)]
      · rw [if_neg hMore] at h
        cases h
        have hLe := mt BitVec.lt_def.mpr hMore
        have hNone : sectors cur ed = 0 := by
          unfold sectors
          omega
        rw [hNone, if_neg (Nat.not_lt_zero _)]

theorem copyLoop_some (disk : Disk) (hEnd : ed.toNat ≤ 2 ^ 32 - 512) (hFuel : sectors cur ed < fuel)
    (sect : Word) (m : Mem) : ∃ m', copyLoop disk ed fuel cur sect m = some m' := by
  induction fuel generalizing cur sect m with
  | zero => cases hFuel
  | succ fuel ih =>
      rw [copyLoop]
      by_cases hMore : cur < ed
      · rw [if_pos hMore]
        apply ih
        rw [sectors_next hMore hEnd] at hFuel
        omega
      · rw [if_neg hMore]
        exact ⟨m, rfl⟩

/-- Behind the last sector of the address space the loop starts again at 0. -/
theorem copyLoop_none (hEnd : 2 ^ 32 - 512 < ed.toNat) (hAl : cur.toNat % 512 = 0) :
    copyLoop disk ed fuel cur sect m = none := by
  induction fuel generalizing cur sect m with
  | zero => rfl
  | succ fuel ih =>
      have hLt := cur.isLt
      have hMore : cur < ed := by
        rw [BitVec.lt_def]
        omega
      rw [copyLoop, if_pos hMore]
      apply ih
      have hSect : SECTSIZE.toNat = 512 := rfl
      rw [BitVec.toNat_add, hSect]
      omega

/-! ## Zeros -/

private theorem clear_eq (hn : n ≤ 2 ^ 32) :
    clear n bss m x = if (x - bss).toNat < n then 0 else m x := by
  induction n generalizing bss m with
  | zero => rfl
  | succ n ih =>
      rw [clear, ih (by omega)]
      by_cases hFirst : (x - bss).toNat < 1
      · have hEq : x = bss := by bv_omega
        rw [if_pos (Nat.lt_of_lt_of_le hFirst (by omega)), hEq, Function.update_self, ite_self]
      · have hDist : (x - (bss + 1)).toNat = (x - bss).toNat - 1 :=
          sub_offset x bss 1 (Nat.le_of_not_lt hFirst)
        have hNe : x ≠ bss := by
          rintro rfl
          rw [BitVec.sub_self] at hFirst
          exact hFirst Nat.one_pos
        rw [hDist, Function.update_of_ne hNe]
        by_cases hIn : (x - bss).toNat < n + 1
        · rw [if_pos (by omega), if_pos hIn]
        · rw [if_neg (by omega), if_neg hIn]

/-! ## One header -/

/-- Where the first sector goes. -/
def firstAddr (buf : Word) : Word := buf &&& ~~~(SECTSIZE - 1)

/-- The first sector that is read. -/
def firstSector (disk_offset : Word) : Word :=
  disk_offset.sdiv SECTSIZE + ARGSIZE.sdiv SECTSIZE + 1

theorem toNat_firstAddr (buf : Word) : (firstAddr buf).toNat = buf.toNat - buf.toNat % 512 := by
  have hShift : firstAddr buf = (buf >>> 9) <<< 9 := by
    apply BitVec.eq_of_getLsbD_eq
    intro i hi
    have hMask : ∀ j, j < 32 → (~~~(SECTSIZE - 1)).getLsbD j = decide (9 ≤ j) := by decide
    unfold firstAddr
    rw [BitVec.getLsbD_and, hMask i hi, BitVec.getLsbD_shiftLeft, BitVec.getLsbD_ushiftRight]
    by_cases hLow : 9 ≤ i
    · simp [hi, hLow]
    · simp [hLow]
  have hLt := buf.isLt
  rw [hShift, BitVec.toNat_shiftLeft, BitVec.toNat_ushiftRight, Nat.shiftRight_eq_div_pow,
    Nat.shiftLeft_eq, Nat.mod_eq_of_lt (by omega)]
  omega

/-- What loading a segment puts at `x`: a zero behind its file bytes, or a byte of
a sector. -/
def putsBytes (disk : Disk) (filesz memsz paddr offset x : Word) : Option (BitVec 8) :=
  if (x - (paddr + filesz)).toNat < (memsz - filesz).toNat then some 0
  else if (x - firstAddr paddr).toNat < 512 * sectors (firstAddr paddr) (paddr + filesz) then
    some (sectorByte disk (firstAddr paddr) (firstSector offset) x)
  else none

/-- What a header puts at `x`. -/
def puts (disk : Disk) (h : Phdr) (x : Word) : Option (BitVec 8) :=
  putsBytes disk (h.p_filesz.setWidth 32) (h.p_memsz.setWidth 32) (h.p_paddr.setWidth 32)
    (h.p_offset.setWidth 32) x

/-! ## The bytes of a segment -/

private theorem firstSector_eq {offset : Word} (h : offset.toNat < 2 ^ 31) :
    firstSector offset = BitVec.ofNat 32 (offset.toNat / 512 + 3) := by
  have hMsb : offset.msb = false := by
    rw [BitVec.msb_eq_decide, decide_eq_false_iff_not]
    omega
  have hDiv : offset.sdiv SECTSIZE = BitVec.ofNat 32 (offset.toNat / 512) := by
    have hSect : SECTSIZE.msb = false := by decide
    rw [BitVec.sdiv_eq, hMsb, hSect]
    show offset / SECTSIZE = _
    apply BitVec.eq_of_toNat_eq
    rw [BitVec.toNat_udiv, BitVec.toNat_ofNat, Nat.mod_eq_of_lt (by omega)]
    rfl
  have hArgs : ARGSIZE.sdiv SECTSIZE = 2 := by decide
  unfold firstSector
  rw [hDiv, hArgs, BitVec.ofNat_add, BitVec.add_assoc]
  rfl

section

variable {a f : Word} {k : Nat}

/-- Byte `k` of a segment at `a` with `f` file bytes, seen from the end of these. -/
theorem behind_file (hLt : k < 2 ^ 32) (hk : f.toNat ≤ k) :
    (BitVec.ofNat 32 (a.toNat + k) - (a + f)).toNat = k - f.toNat := by
  have hSplit : BitVec.ofNat 32 (a.toNat + k) = a + BitVec.ofNat 32 k := by
    rw [BitVec.ofNat_add, BitVec.ofNat_toNat, BitVec.setWidth_eq]
  rw [hSplit]
  bv_omega

private theorem before_end (hk : k < f.toNat) :
    (BitVec.ofNat 32 (a.toNat + k) - (a + f)).toNat = 2 ^ 32 + k - f.toNat := by
  bv_omega

/-- And from the beginning of its first sector. -/
theorem from_start (hFit : a.toNat + k < 2 ^ 32) :
    (BitVec.ofNat 32 (a.toNat + k) - firstAddr a).toNat = a.toNat % 512 + k := by
  have hStart := toNat_firstAddr a
  have hLow := Nat.mod_le a.toNat 512
  bv_omega

theorem toNat_end (hFit : a.toNat + f.toNat < 2 ^ 32) : (a + f).toNat = a.toNat + f.toNat := by
  rw [BitVec.toNat_add]
  exact Nat.mod_eq_of_lt hFit

private theorem file_read (hFit : a.toNat + f.toNat < 2 ^ 32) (hk : k < f.toNat) :
    a.toNat % 512 + k < 512 * sectors (firstAddr a) (a + f) := by
  unfold sectors
  rw [toNat_firstAddr, toNat_end hFit]
  omega

end

/-- A segment is loaded with its file bytes, followed by zeros. -/
theorem putsBytes_own (disk : Disk) {filesz paddr offset : Word} (memsz : Word) {k : Nat}
    (hFit : paddr.toNat + filesz.toNat < 2 ^ 32) (hSize : filesz.toNat ≤ memsz.toNat)
    (hFile : offset.toNat < 2 ^ 31) (hCongruent : offset.toNat % 512 = paddr.toNat % 512)
    (hk : k < memsz.toNat) :
    putsBytes disk filesz memsz paddr offset (BitVec.ofNat 32 (paddr.toNat + k)) =
      some (if k < filesz.toNat then fileByte disk (offset.toNat + k) else 0) := by
  have hBss : (memsz - filesz).toNat = memsz.toNat - filesz.toNat :=
    BitVec.toNat_sub_of_le (BitVec.le_def.mpr hSize)
  have hLt := memsz.isLt
  unfold putsBytes
  rw [hBss]
  by_cases hFileByte : k < filesz.toNat
  · have hRow : offset.toNat / 512 + 3 + (paddr.toNat % 512 + k) / 512 =
        (offset.toNat + k) / 512 + 3 := by omega
    have hByte : (paddr.toNat % 512 + k) % 512 = (offset.toNat + k) % 512 := by omega
    rw [before_end hFileByte, from_start (by omega), if_neg (by omega),
      if_pos (file_read hFit hFileByte), if_pos hFileByte]
    unfold sectorByte fileByte
    rw [from_start (by omega), firstSector_eq hFile, ← BitVec.ofNat_add, hRow, hByte]
  · rw [behind_file (by omega) (by omega), if_pos (by omega), if_neg hFileByte]

/-! ## Loading a segment -/

/-- Memory with some bytes replaced. -/
def overlay (f : Word → Option (BitVec 8)) (m : Mem) : Mem := fun x => (f x).getD (m x)

theorem load_program_ends {filesz memsz paddr offset : Word}
    (h : load_program disk fuel filesz memsz paddr offset m = some m') :
    (paddr + filesz).toNat ≤ 2 ^ 32 - 512 := by
  obtain ⟨m₁, hCopy, -⟩ := Option.map_eq_some_iff.mp h
  by_contra hNot
  have hAl : (firstAddr paddr).toNat % 512 = 0 := by
    rw [toNat_firstAddr]
    omega
  have hNone : copy_from_disk disk fuel paddr filesz offset m = none :=
    copyLoop_none (Nat.lt_of_not_le hNot) hAl
  rw [hNone] at hCopy
  cases hCopy

theorem load_program_eq {filesz memsz paddr offset : Word}
    (h : load_program disk fuel filesz memsz paddr offset m = some m') :
    m' = overlay (putsBytes disk filesz memsz paddr offset) m := by
  have hEnd := load_program_ends h
  obtain ⟨m₁, hCopy, rfl⟩ := Option.map_eq_some_iff.mp h
  funext x
  rw [clear_eq (Nat.le_of_lt (memsz - filesz).isLt)]
  unfold overlay putsBytes
  by_cases hZero : (x - (paddr + filesz)).toNat < (memsz - filesz).toNat
  · rw [if_pos hZero, if_pos hZero]
    rfl
  · rw [if_neg hZero, if_neg hZero, copyLoop_eq hEnd hCopy]
    by_cases hSector :
        (x - firstAddr paddr).toNat < 512 * sectors (firstAddr paddr) (paddr + filesz)
    · rw [if_pos hSector]
      exact if_pos hSector
    · rw [if_neg hSector]
      exact if_neg hSector

/-- The number of sectors there can be. -/
theorem sectors_le (cur ed : Word) : sectors cur ed ≤ 2 ^ 23 := by
  have hLt := ed.isLt
  unfold sectors
  omega

theorem load_program_some (disk : Disk) {filesz paddr : Word} (memsz offset : Word)
    (hEnd : (paddr + filesz).toNat ≤ 2 ^ 32 - 512) (hFuel : 2 ^ 23 < fuel) (m : Mem) :
    ∃ m', load_program disk fuel filesz memsz paddr offset m = some m' := by
  obtain ⟨m₁, hCopy⟩ :=
    copyLoop_some disk hEnd (Nat.lt_of_le_of_lt (sectors_le (firstAddr paddr) _) hFuel)
      (firstSector offset) m
  exact ⟨_, Option.map_eq_some_iff.mpr ⟨m₁, hCopy, rfl⟩⟩

end AbstractMachine.X86.Boot
