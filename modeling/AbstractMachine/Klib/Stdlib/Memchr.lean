import Mathlib.Data.Nat.Find
import AbstractMachine.Lib.CString
import AbstractMachine.Lib.ZeroByte

/-!
# `memchr` of klib

Three loops hand over to each other: single bytes up to an aligned address, words
as long as one fits and the test finds no `c` in it, and single bytes again.  The
last loop alone would find the same byte.
-/

namespace AbstractMachine.Klib

open AbstractMachine.Lib

/-! ## The function

`SS` is `sizeof(size_t)`, and pointers have as many bytes. -/

/-- `sizeof(size_t) - 1`. -/
def ALIGN (SS : Nat) : BitVec (8 * SS) := BitVec.ofNat (8 * SS) (SS - 1)

/-- `(size_t)-1/UCHAR_MAX`. -/
def ONES (SS : Nat) : BitVec (8 * SS) := -1 / 255

/-- `ONES * (UCHAR_MAX/2+1)`. -/
def HIGHS (SS : Nat) : BitVec (8 * SS) := ONES SS * (0x80#8).setWidth (8 * SS)

variable {SS : Nat}

/-- Nonzero exactly where a byte of `x` is zero. -/
def HASZERO (x : BitVec (8 * SS)) : BitVec (8 * SS) := (x - ONES SS) &&& ~~~x &&& HIGHS SS

/-- The loop up to an aligned address; `s` and `n` when it ends. -/
def headLoop (m : ByteMem (8 * SS)) (c : BitVec 8) :
    Nat → BitVec (8 * SS) → BitVec (8 * SS) × Nat
  | 0, s => (s, 0)
  | n + 1, s =>
      if s &&& ALIGN SS ≠ 0 ∧ m s ≠ c then headLoop m c n (s + 1) else (s, n + 1)

/-- Where the loop over words ends, and the words that it has loaded. -/
structure WordScan (SS : Nat) where
  s : BitVec (8 * SS)
  n : Nat
  loads : List (BitVec (8 * SS))

/-- The loop over words.  As `n` falls in every turn, `n` turns are enough. -/
def wordLoop (m : ByteMem (8 * SS)) (k : BitVec (8 * SS)) :
    Nat → Nat → BitVec (8 * SS) → WordScan SS
  | 0, n, s => ⟨s, n, []⟩
  | fuel + 1, n, s =>
      if SS ≤ n then
        if HASZERO (ByteMem.load m s SS ^^^ k) = 0 then
          let scan := wordLoop m k fuel (n - SS) (s + BitVec.ofNat (8 * SS) SS)
          { scan with loads := s :: scan.loads }
        else ⟨s, n, [s]⟩
      else ⟨s, n, []⟩

/-- The loop over what is left. -/
def tailLoop (m : ByteMem (8 * SS)) (c : BitVec 8) :
    Nat → BitVec (8 * SS) → BitVec (8 * SS) × Nat
  | 0, s => (s, 0)
  | n + 1, s => if m s ≠ c then tailLoop m c n (s + 1) else (s, n + 1)

/-- `n ? (void *)s : 0`. -/
def found (r : BitVec (8 * SS) × Nat) : BitVec (8 * SS) := if r.2 ≠ 0 then r.1 else 0

/-- What stands between the two loops of bytes. -/
def scanWords (m : ByteMem (8 * SS)) (c : BitVec 8) (n : Nat) (s : BitVec (8 * SS)) :
    WordScan SS :=
  if n ≠ 0 ∧ m s ≠ c then wordLoop m (ONES SS * c.setWidth (8 * SS)) n n s else ⟨s, n, []⟩

/-- The result, and the words loaded.  `c` stays below 256 once it has become an
`unsigned char`. -/
def memchr (m : ByteMem (8 * SS)) (src : BitVec (8 * SS)) (c : BitVec 32) (n : BitVec (8 * SS)) :
    BitVec (8 * SS) × List (BitVec (8 * SS)) :=
  let c := c.setWidth 8
  let (s, n) := headLoop m c n.toNat src
  let scan := scanWords m c n s
  (found (tailLoop m c scan.n scan.s), scan.loads)

/-- `memchr` without its `__GNUC__` part. -/
def memchrBytes (m : ByteMem (8 * SS)) (src : BitVec (8 * SS)) (c : BitVec 32)
    (n : BitVec (8 * SS)) : BitVec (8 * SS) :=
  found (tailLoop m (c.setWidth 8) n.toNat src)

/-! ## The test of a word -/

variable {m : ByteMem (8 * SS)} {c : BitVec 8} {s src : BitVec (8 * SS)} {k n N fuel : Nat}

private theorem HASZERO_eq (hSS : SS ≠ 0) (x : BitVec (8 * SS)) : HASZERO x = zeroMask x := by
  unfold HASZERO HIGHS ONES
  rw [neg_one_div hSS, lanes_one_mul]
  rfl

private theorem word_clean_iff (hSS : SS ≠ 0) :
    HASZERO (ByteMem.load m s SS ^^^ (ONES SS * c.setWidth (8 * SS))) = 0 ↔
      ∀ i, i < SS → m (s + BitVec.ofNat (8 * SS) i) ≠ c := by
  rw [HASZERO_eq hSS, ONES, neg_one_div hSS, lanes_one_mul, zeroMask_load]

/-! ## The search -/

/-- `n` bytes from `s` on are left of `N` from `src` on, and `c` is in none of those
before them. -/
structure Passed (m : ByteMem (8 * SS)) (c : BitVec 8) (src : BitVec (8 * SS)) (N : Nat)
    (s : BitVec (8 * SS)) (n : Nat) : Prop where
  rest : n ≤ N
  addr : s = src + BitVec.ofNat (8 * SS) (N - n)
  before : ∀ j, j < N - n → m (src + BitVec.ofNat (8 * SS) j) ≠ c

theorem Passed.start : Passed m c src N src N where
  rest := Nat.le_refl N
  addr := by rw [Nat.sub_self, BitVec.add_zero]
  before := by
    rw [Nat.sub_self]
    exact fun j hj => absurd hj (Nat.not_lt_zero j)

theorem Passed.skip (h : Passed m c src N s n) (hk : k ≤ n)
    (hNe : ∀ j, j < k → m (s + BitVec.ofNat (8 * SS) j) ≠ c) :
    Passed m c src N (s + BitVec.ofNat (8 * SS) k) (n - k) := by
  have hRest := h.rest
  have hSplit : N - (n - k) = (N - n) + k := by omega
  refine ⟨by omega, ?_, ?_⟩
  · rw [h.addr, hSplit, BitVec.add_assoc, BitVec.ofNat_add_ofNat]
  · intro j hj
    by_cases hOld : j < N - n
    · exact h.before j hOld
    · have hNew := hNe (j - (N - n)) (by omega)
      rwa [h.addr, BitVec.add_assoc, BitVec.ofNat_add_ofNat,
        Nat.add_sub_cancel' (Nat.le_of_not_lt hOld)] at hNew

theorem Passed.next (h : Passed m c src N s (n + 1)) (hNe : m s ≠ c) :
    Passed m c src N (s + 1) n := by
  apply h.skip (k := 1) (Nat.succ_le_succ (Nat.zero_le n))
  intro j hj
  rw [Nat.lt_one_iff.mp hj, BitVec.add_zero]
  exact hNe

/-- The last loop goes over bytes that are not `c`. -/
theorem tailLoop_skip (hNe : ∀ j, j < k → m (s + BitVec.ofNat (8 * SS) j) ≠ c) :
    tailLoop m c (k + n) s = tailLoop m c n (s + BitVec.ofNat (8 * SS) k) := by
  induction k generalizing s with
  | zero => rw [Nat.zero_add, BitVec.add_zero]
  | succ k ih =>
      obtain ⟨hFirst, hRest⟩ := Store.forall_offset_succ (P := fun a => m a ≠ c).mp hNe
      rw [Nat.succ_add, tailLoop, if_pos hFirst, ih hRest, Store.add_one_ofNat]

/-- Whatever was passed before, the last loop ends where it would have ended alone. -/
theorem Passed.tailLoop_eq (h : Passed m c src N s n) :
    tailLoop m c n s = tailLoop m c N src := by
  have hSplit : N = (N - n) + n := (Nat.sub_add_cancel h.rest).symm
  rw [h.addr, ← tailLoop_skip h.before, ← hSplit]

/-- The first of `n` bytes that is `c`, or the null pointer. -/
def FirstByte (m : ByteMem (8 * SS)) (c : BitVec 8) (src : BitVec (8 * SS)) (n : Nat)
    (r : BitVec (8 * SS)) : Prop :=
  (∃ i, i < n ∧ m (src + BitVec.ofNat (8 * SS) i) = c ∧
      (∀ j, j < i → m (src + BitVec.ofNat (8 * SS) j) ≠ c) ∧
      r = src + BitVec.ofNat (8 * SS) i) ∨
    (∀ i, i < n → m (src + BitVec.ofNat (8 * SS) i) ≠ c) ∧ r = 0

private theorem tailLoop_first : FirstByte m c src n (found (tailLoop m c n src)) := by
  by_cases hSome : ∃ i, i < n ∧ m (src + BitVec.ofNat (8 * SS) i) = c
  · obtain ⟨i, ⟨hLt, hByte⟩, hLeast⟩ : ∃ i, (i < n ∧ m (src + BitVec.ofNat (8 * SS) i) = c) ∧
        ∀ j, j < i → ¬ (j < n ∧ m (src + BitVec.ofNat (8 * SS) j) = c) :=
      ⟨Nat.find hSome, Nat.find_spec hSome, fun j hj => Nat.find_min hSome hj⟩
    have hBefore : ∀ j, j < i → m (src + BitVec.ofNat (8 * SS) j) ≠ c :=
      fun j hj hEq => hLeast j hj ⟨Nat.lt_trans hj hLt, hEq⟩
    refine Or.inl ⟨i, hLt, hByte, hBefore, ?_⟩
    obtain ⟨k, rfl⟩ := Nat.exists_eq_add_of_lt hLt
    rw [Nat.add_assoc, tailLoop_skip hBefore, tailLoop, if_neg (not_not_intro hByte)]
    rfl
  · have hNone : ∀ i, i < n → m (src + BitVec.ofNat (8 * SS) i) ≠ c :=
      fun i hi hEq => hSome ⟨i, hi, hEq⟩
    refine Or.inr ⟨hNone, ?_⟩
    have hAll := tailLoop_skip (n := 0) hNone
    rw [Nat.add_zero] at hAll
    rw [hAll]
    rfl

private theorem headLoop_passed (h : Passed m c src N s n) :
    Passed m c src N (headLoop m c n s).1 (headLoop m c n s).2 ∧
      ((headLoop m c n s).2 = 0 ∨ (headLoop m c n s).1 &&& ALIGN SS = 0 ∨
        m (headLoop m c n s).1 = c) := by
  induction n generalizing s with
  | zero => exact ⟨h, Or.inl rfl⟩
  | succ n ih =>
      rw [headLoop]
      split
      · rename_i hGo
        exact ih (h.next hGo.2)
      · rename_i hStop
        refine ⟨h, Or.inr ?_⟩
        rwa [not_and_or, not_not, not_not] at hStop

/-! ## The words -/

private theorem aligned_iff {e : Nat} (hSS : SS = 2 ^ e) :
    s &&& ALIGN SS = 0 ↔ s.toNat % SS = 0 := by
  have hFit : SS - 1 < 2 ^ (8 * SS) := by
    have hLt : SS < 2 ^ SS := Nat.lt_two_pow_self
    have hLe : 2 ^ SS ≤ 2 ^ (8 * SS) := Nat.pow_le_pow_right (by decide) (by omega)
    omega
  have hAnd : ∀ x, x &&& (SS - 1) = x % SS := by
    rw [hSS]
    exact fun x => Nat.and_two_pow_sub_one_eq_mod x e
  have hMask : (s &&& ALIGN SS).toNat = s.toNat % SS := by
    unfold ALIGN
    rw [BitVec.toNat_and, BitVec.toNat_ofNat, Nat.mod_eq_of_lt hFit, hAnd]
  rw [← hMask]
  exact ⟨fun h => congrArg BitVec.toNat h, fun h => BitVec.eq_of_toNat_eq h⟩

/-- Addresses wrap around at a multiple of the word size. -/
theorem aligned_next {e : Nat} (hSS : SS = 2 ^ e) (h : s.toNat % SS = 0) :
    (s + BitVec.ofNat (8 * SS) SS).toNat % SS = 0 := by
  have hDvd : SS ∣ 2 ^ (8 * SS) := by
    have hLt : e < 2 ^ e := Nat.lt_two_pow_self
    have hPow : 2 ^ e ∣ 2 ^ (8 * SS) := Nat.pow_dvd_pow 2 (by omega)
    rwa [← hSS] at hPow
  rw [BitVec.toNat_add, BitVec.toNat_ofNat, Nat.mod_mod_of_dvd _ hDvd, Nat.add_mod, h,
    Nat.mod_mod_of_dvd _ hDvd, Nat.mod_self]
  rfl

/-- `n` bytes from `s` on are in the buffer. -/
theorem Passed.inside (h : Passed m c src N s n) (hk : k ≤ n) (hN : N ≤ 2 ^ (8 * SS))
    {x : BitVec (8 * SS)} (hx : ByteMem.InBlock s k x) : ByteMem.InBlock src N x := by
  have hRest := h.rest
  rw [h.addr] at hx
  exact ByteMem.inBlock_sub hx (by omega) hN

/-- What was passed when the loop over words has ended, with aligned loads from the
buffer only. -/
structure WordScan.Sound (scan : WordScan SS) (m : ByteMem (8 * SS)) (c : BitVec 8)
    (src : BitVec (8 * SS)) (N : Nat) : Prop where
  passed : Passed m c src N scan.s scan.n
  loads : ∀ a ∈ scan.loads, a.toNat % SS = 0 ∧
    ∀ x, ByteMem.InBlock a SS x → ByteMem.InBlock src N x

/-- Every turn keeps what was passed, and the alignment. -/
theorem wordLoop_sound {e : Nat} (hSS : SS = 2 ^ e) (hAligned : s.toNat % SS = 0)
    (hN : N ≤ 2 ^ (8 * SS)) (h : Passed m c src N s n) :
    (wordLoop m (ONES SS * c.setWidth (8 * SS)) fuel n s).Sound m c src N := by
  have hSome : SS ≠ 0 := by
    rw [hSS]
    exact Nat.ne_of_gt (Nat.two_pow_pos e)
  induction fuel generalizing s n with
  | zero => exact ⟨h, nofun⟩
  | succ fuel ih =>
      rw [wordLoop]
      by_cases hFit : SS ≤ n
      · have hHere : s.toNat % SS = 0 ∧ ∀ x, ByteMem.InBlock s SS x → ByteMem.InBlock src N x :=
          ⟨hAligned, fun x hx => h.inside hFit hN hx⟩
        rw [if_pos hFit]
        split
        · rename_i hClean
          obtain ⟨hLater, hLoads⟩ := ih (aligned_next hSS hAligned)
            (h.skip hFit ((word_clean_iff hSome).mp hClean))
          refine ⟨hLater, fun a hMem => ?_⟩
          rcases List.mem_cons.mp hMem with rfl | hRest
          · exact hHere
          · exact hLoads a hRest
        · refine ⟨h, fun a hMem => ?_⟩
          rw [List.mem_singleton.mp hMem]
          exact hHere
      · rw [if_neg hFit]
        exact ⟨h, nofun⟩

private theorem scanWords_sound {e : Nat} (hSS : SS = 2 ^ e) (hN : N ≤ 2 ^ (8 * SS))
    (h : Passed m c src N s n) (hExit : n = 0 ∨ s &&& ALIGN SS = 0 ∨ m s = c) :
    (scanWords m c n s).Sound m c src N := by
  unfold scanWords
  split
  · rename_i hGo
    apply wordLoop_sound hSS _ hN h
    rcases hExit with hEnd | hAligned | hFound
    · exact absurd hEnd hGo.1
    · exact (aligned_iff hSS).mp hAligned
    · exact absurd hFound hGo.2
  · exact ⟨h, nofun⟩

/-! ## The call -/

/--
**`memchr`.** For every alignment of the buffer, every length and every `c`, the
result is the first byte that is `(unsigned char)c`, as it is without words; and
every word that is loaded is aligned and lies in the buffer.
-/
theorem memchr_first (hSS : SS = 4 ∨ SS = 8) (m : ByteMem (8 * SS)) (src : BitVec (8 * SS))
    (c : BitVec 32) (n : BitVec (8 * SS)) :
    FirstByte m (c.setWidth 8) src n.toNat (memchr m src c n).1 ∧
      (memchr m src c n).1 = memchrBytes m src c n ∧
      ∀ a ∈ (memchr m src c n).2, a.toNat % SS = 0 ∧
        ∀ x, ByteMem.InBlock a SS x → ByteMem.InBlock src n.toNat x := by
  obtain ⟨e, hPow⟩ : ∃ e, SS = 2 ^ e := by
    rcases hSS with rfl | rfl
    · exact ⟨2, rfl⟩
    · exact ⟨3, rfl⟩
  obtain ⟨hHead, hExit⟩ :=
    headLoop_passed (m := m) (c := c.setWidth 8) (Passed.start (N := n.toNat))
  rcases hEnd : headLoop m (c.setWidth 8) n.toNat src with ⟨s, k⟩
  rw [hEnd] at hHead hExit
  have hSound := scanWords_sound hPow (Nat.le_of_lt n.isLt) hHead hExit
  have hCall : memchr m src c n =
      (memchrBytes m src c n, (scanWords m (c.setWidth 8) k s).loads) := by
    unfold memchr memchrBytes
    rw [← hSound.passed.tailLoop_eq]
    simp only [hEnd]
  rw [hCall]
  exact ⟨tailLoop_first, rfl, hSound.loads⟩

/-- One byte of 255, between bytes of 254. -/
def oneByte : ByteMem (8 * 4) := fun x => if x = 0x100b then 0xff else 0xfe

/-- The last of eleven bytes, from an address that is not aligned. -/
theorem memchr_first_unaligned : (memchr oneByte 0x1001 (-1) 11).1 = 0x100b := by
  obtain ⟨hFirst, -, -⟩ := memchr_first (Or.inl rfl) oneByte 0x1001 (-1) 11
  rcases hFirst with ⟨i, -, hByte, -, hResult⟩ | ⟨hNone, -⟩
  · rw [hResult]
    by_contra hOther
    have hAt : oneByte (0x1001 + BitVec.ofNat (8 * 4) i) = 0xfe := if_neg hOther
    rw [hAt] at hByte
    exact absurd hByte (by decide)
  · exact absurd (by decide) (hNone 10 (by decide))

end AbstractMachine.Klib
