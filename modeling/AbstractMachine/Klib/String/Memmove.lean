import AbstractMachine.Klib.String.Memcpy

/-!
# What `memmove` does

`memmove` cuts ranges that overlap into two calls of `memcpy`.  When the
destination lies above the source both calls copy the right bytes, as long as
the part that overlaps is not itself longer than the distance.  When it lies
below, the arguments of the second call are the wrong way round.
-/

namespace AbstractMachine.Klib

open AbstractMachine.Lib
open AbstractMachine.Lib.ByteMem

section

variable {w : Nat} {dst src n : BitVec w} {m : ByteMem w}

/-! ## The three branches -/

/-- Ranges that do not overlap, unless one of them is empty at address 0. -/
theorem memmove_apart (hDst : dst.toNat + n.toNat ≤ 2 ^ w) (hSrc : src.toNat + n.toNat ≤ 2 ^ w)
    (hNe : dst ≠ src) (hPos : 0 < n.toNat ∨ 0 < dst.toNat ∧ 0 < src.toNat)
    (hLe : dst.toNat + n.toNat ≤ src.toNat ∨ src.toNat + n.toNat ≤ dst.toNat) :
    (memmove dst src n m).2 = copied dst src n.toNat m := by
  have hCopy := memcpy_copies (m := m) hDst hSrc hLe
  unfold memmove
  rw [if_neg hNe]
  dsimp only
  rw [if_neg, if_neg]
  · exact hCopy
  · simp only [GT.gt, GE.ge, BitVec.lt_def, BitVec.le_def, toNat_last hSrc (by omega)]
    omega
  · simp only [GT.gt, GE.ge, BitVec.lt_def, BitVec.le_def, toNat_last hDst (by omega)]
    omega

/-- The destination overlaps the source and lies above it. -/
theorem memmove_above (hSrc : src.toNat + n.toNat ≤ 2 ^ w) (hLt : src.toNat < dst.toNat)
    (hOver : dst.toNat < src.toNat + n.toNat) :
    (memmove dst src n m).2 =
      (memcpy dst src (dst - src) (memcpy (dst + (dst - src)) dst (n - (dst - src)) m).2).2 := by
  have hNe : dst ≠ src := by
    rintro rfl
    omega
  have hRest : src + n - dst = n - (dst - src) := by grind
  have hTail : dst + n - (n - (dst - src)) = dst + (dst - src) := by grind
  have hHead : n - (n - (dst - src)) = dst - src := by grind
  unfold memmove
  rw [if_neg hNe]
  dsimp only
  rw [if_neg, if_pos, hRest, hTail, hHead]
  · simp only [GT.gt, GE.ge, BitVec.lt_def, BitVec.le_def, toNat_last hSrc (by omega)]
    omega
  · simp only [GT.gt, BitVec.lt_def]
    omega

/-- The destination overlaps the source and lies below it. -/
theorem memmove_below (hDst : dst.toNat + n.toNat ≤ 2 ^ w) (hLt : dst.toNat < src.toNat)
    (hOver : src.toNat < dst.toNat + n.toNat) :
    (memmove dst src n m).2 =
      (memcpy (dst + n) (dst + (n - (src - dst))) (src - dst)
        (memcpy dst src (n - (src - dst)) m).2).2 := by
  have hNe : dst ≠ src := by
    rintro rfl
    omega
  have hRest : dst + n - src = n - (src - dst) := by grind
  have hOut : src + (n - (src - dst)) = dst + n := by grind
  have hHead : n - (n - (src - dst)) = src - dst := by grind
  unfold memmove
  rw [if_neg hNe]
  dsimp only
  rw [if_pos, hRest, hOut, hHead]
  simp only [GT.gt, GE.ge, BitVec.lt_def, BitVec.le_def, toNat_last hDst (by omega)]
  omega

/-! ## Up -/

/-- Numbers of a move up by `dst - src`. -/
theorem toNat_above (hDst : dst.toNat + n.toNat ≤ 2 ^ w)
    (hLt : src.toNat < dst.toNat) (hOver : dst.toNat < src.toNat + n.toNat) :
    (dst - src).toNat = dst.toNat - src.toNat ∧
      (n - (dst - src)).toNat = n.toNat - (dst.toNat - src.toNat) ∧
      (dst + (dst - src)).toNat = dst.toNat + (dst.toNat - src.toNat) := by
  have hDiff : (dst - src).toNat = dst.toNat - src.toNat :=
    BitVec.toNat_sub_of_le (Nat.le_of_lt hLt)
  refine ⟨hDiff, ?_, ?_⟩
  · rw [BitVec.toNat_sub_of_le, hDiff]
    rw [BitVec.le_def, hDiff]
    omega
  · rw [BitVec.toNat_add_of_lt, hDiff]
    rw [hDiff]
    omega

/-- A move up, with the part that overlaps no longer than the distance. -/
theorem memmove_up (hSrc : src.toNat + n.toNat ≤ 2 ^ w) (hDst : dst.toNat + n.toNat ≤ 2 ^ w)
    (hLt : src.toNat < dst.toNat) (hOver : dst.toNat < src.toNat + n.toNat)
    (hHalf : n.toNat ≤ 2 * (dst.toNat - src.toNat)) :
    (memmove dst src n m).2 = copied dst src n.toNat m := by
  obtain ⟨hDiff, hRest, hMid⟩ := toNat_above hDst hLt hOver
  rw [memmove_above hSrc hLt hOver,
    memcpy_copies (m := m) (by omega) (by omega) (by omega),
    memcpy_copies (by omega) (by omega) (by omega)]
  funext x
  have hx := x.isLt
  by_cases hLow : InBlock dst (dst - src).toNat x
  · -- the lower part comes from below the destination
    have hIn := (inBlock_iff (by omega)).mp hLow
    have hRead : (src + (x - dst)).toNat = src.toNat + (x.toNat - dst.toNat) := by
      have hSub : (x - dst).toNat = x.toNat - dst.toNat := BitVec.toNat_sub_of_le hIn.1
      rw [BitVec.toNat_add_of_lt, hSub]
      rw [hSub]
      omega
    rw [copied_in hLow, copied_in ((inBlock_iff hDst).mpr (by omega)), copied_out]
    rw [inBlock_iff (by omega)]
    omega
  · rw [copied_out hLow]
    rw [inBlock_iff (by omega)] at hLow
    by_cases hHigh : InBlock (dst + (dst - src)) (n - (dst - src)).toNat x
    · have hRead : dst + (x - (dst + (dst - src))) = src + (x - dst) := by grind
      rw [copied_in hHigh, hRead]
      rw [inBlock_iff (by omega)] at hHigh
      rw [copied_in ((inBlock_iff hDst).mpr (by omega))]
    · rw [copied_out hHigh, copied_out]
      rw [inBlock_iff (by omega)] at hHigh ⊢
      omega

/-- Otherwise the first byte of the upper part is not written. -/
theorem memmove_up_fails (hSrc : src.toNat + n.toNat ≤ 2 ^ w)
    (hDst : dst.toNat + n.toNat ≤ 2 ^ w) (hLt : src.toNat < dst.toNat)
    (hHalf : 2 * (dst.toNat - src.toNat) < n.toNat) :
    ∃ m, ¬ Moved dst src n.toNat m (memmove dst src n m).2 := by
  obtain ⟨hDiff, hRest, hMid⟩ := toNat_above hDst hLt (by omega)
  let m : ByteMem w := fun x => if x = dst then 1 else 0
  refine ⟨m, ?_⟩
  intro hMoved
  have hByte := hMoved.bytes (dst - src).toNat (by omega)
  have hLow : ¬ InBlock dst (dst - src).toNat (dst + (dst - src)) := by
    rw [inBlock_iff (by omega)]
    omega
  have hNe : dst + (dst - src) ≠ dst := by
    intro hEq
    rw [hEq] at hMid
    omega
  have hBack : src + (dst - src) = dst := by grind
  rw [memmove_above hSrc hLt (by omega),
    memcpy_refuses (m := m) (by omega) (by omega) (by omega),
    memcpy_copies (by omega) (by omega) (by omega), BitVec.ofNat_toNat, BitVec.setWidth_eq,
    copied_out hLow, hBack] at hByte
  simp [m, hNe] at hByte

/-! ## Down -/

/-- The byte after the destination is overwritten. -/
theorem memmove_down_fails (hSrc : src.toNat + n.toNat ≤ 2 ^ w)
    (hDst : dst.toNat + n.toNat ≤ 2 ^ w) (hLt : dst.toNat < src.toNat)
    (hOver : src.toNat < dst.toNat + n.toNat) :
    ∃ m, ¬ Moved dst src n.toNat m (memmove dst src n m).2 := by
  have hDiff : (src - dst).toNat = src.toNat - dst.toNat :=
    BitVec.toNat_sub_of_le (Nat.le_of_lt hLt)
  have hRest : (n - (src - dst)).toNat = n.toNat - (src.toNat - dst.toNat) := by
    rw [BitVec.toNat_sub_of_le, hDiff]
    rw [BitVec.le_def, hDiff]
    omega
  have hEnd : (dst + n).toNat = dst.toNat + n.toNat := BitVec.toNat_add_of_lt (by omega)
  have hMid : (dst + (n - (src - dst))).toNat =
      dst.toNat + (n.toNat - (src.toNat - dst.toNat)) := by
    rw [BitVec.toNat_add_of_lt, hRest]
    rw [hRest]
    omega
  let m : ByteMem w := fun x => if x = dst + n then 1 else 0
  -- below the end of the destination the first call moves zeros only
  have hZero : ∀ x, x.toNat < dst.toNat + n.toNat →
      (memcpy dst src (n - (src - dst)) m).2 x = 0 := by
    have hBelow : ∀ x : BitVec w, x.toNat < dst.toNat + n.toNat → m x = 0 := by
      intro x hx
      apply if_neg
      rintro rfl
      omega
    intro x hx
    by_cases hHalf : n.toNat ≤ 2 * (src.toNat - dst.toNat)
    · rw [memcpy_copies (by omega) (by omega) (by omega)]
      by_cases hIn : InBlock dst (n - (src - dst)).toNat x
      · have hIn' := (inBlock_iff (by omega)).mp hIn
        rw [copied_in hIn]
        apply hBelow
        have hSub : (x - dst).toNat = x.toNat - dst.toNat := BitVec.toNat_sub_of_le hIn'.1
        rw [BitVec.toNat_add_of_lt, hSub]
        · omega
        · rw [hSub]
          omega
      · rw [copied_out hIn]
        exact hBelow x hx
    · rw [memcpy_refuses (by omega) (by omega) (by omega)]
      exact hBelow x hx
  refine ⟨m, ?_⟩
  intro hMoved
  have hByte := hMoved.outside (dst + n) (by rw [inBlock_iff hDst]; omega)
  have hIn : InBlock (dst + n) (src - dst).toNat (dst + n) := by
    rw [inBlock_iff (by omega)]
    omega
  have hRead : dst + (n - (src - dst)) + (dst + n - (dst + n)) = dst + (n - (src - dst)) := by
    grind
  rw [memmove_below hDst hLt hOver, memcpy_copies (by omega) (by omega) (by omega),
    copied_in hIn, hRead, hZero _ (by omega)] at hByte
  simp [m] at hByte

/-! ## Nothing to move -/

/-- The loop ends with the first byte. -/
theorem memcpyLoop_first {dest src : BitVec w} (hNe : dest ≠ src) (k : Nat) :
    memcpyLoop dest src (k + 1) m dest = memcpyLoop dest src (k + 1) m src := by
  induction k generalizing m with
  | zero =>
      rw [memcpyLoop, memcpyLoop, add_succ_sub_one, add_succ_sub_one, BitVec.add_zero,
        BitVec.add_zero, Function.update_self, Function.update_of_ne (Ne.symm hNe)]
  | succ k ih =>
      rw [memcpyLoop]
      exact ih

/-- So does the call, if it copies at all. -/
theorem memcpy_first {out src n : BitVec w} (hNe : out ≠ src) :
    (memcpy out src n m).2 = m ∨ (memcpy out src n m).2 out = (memcpy out src n m).2 src := by
  unfold memcpy
  rw [if_neg hNe]
  split
  · cases n.toNat with
    | zero => exact .inl rfl
    | succ k => exact .inr (memcpyLoop_first hNe k)
  · exact .inl rfl

theorem pos_of_ne_zero {a : BitVec w} (h : a ≠ 0#w) : 0 < a.toNat := by
  apply Nat.pos_of_ne_zero
  intro h0
  exact h (BitVec.eq_of_toNat_eq h0)

/-- Where an empty range at address 0 seems to end. -/
theorem le_last_of_empty (a : BitVec w) : a.toNat ≤ (0#w + 0#w - 1#w).toNat := by
  have ha := a.isLt
  rw [BitVec.zero_add, BitVec.zero_sub, BitVec.neg_one_eq_allOnes, BitVec.toNat_allOnes]
  omega

/-- An empty move down to address 0 does not stop. -/
theorem memmove_to_null (hs : src ≠ 0#w) :
    (memmove 0#w src 0#w m).2 = (memcpy 0#w (-src) src (memcpy 0#w src (-src) m).2).2 := by
  have hPos := pos_of_ne_zero hs
  have hRest : 0#w + 0#w - src = -src := by grind
  have hOut : src + -src = 0#w := by grind
  have hIn : 0#w + -src = -src := by grind
  have hHead : 0#w - -src = src := by grind
  unfold memmove
  rw [if_neg (Ne.symm hs)]
  dsimp only
  rw [if_pos, hRest, hOut, hIn, hHead]
  refine ⟨?_, le_last_of_empty src⟩
  show (0#w).toNat < src.toNat
  rw [BitVec.toNat_zero]
  exact hPos

/-- An empty move up from address 0 does not stop either. -/
theorem memmove_from_null (hd : dst ≠ 0#w) :
    (memmove dst 0#w 0#w m).2 = (memcpy dst 0#w dst (memcpy (dst + dst) dst (-dst) m).2).2 := by
  have hPos := pos_of_ne_zero hd
  have hRest : 0#w + 0#w - dst = -dst := by grind
  have hTail : dst + 0#w - -dst = dst + dst := by grind
  have hHead : 0#w - -dst = dst := by grind
  unfold memmove
  rw [if_neg hd]
  dsimp only
  rw [if_neg, if_pos, hRest, hTail, hHead]
  · refine ⟨?_, le_last_of_empty dst⟩
    show (0#w).toNat < dst.toNat
    rw [BitVec.toNat_zero]
    exact hPos
  · rintro ⟨hLt, _⟩
    exact Nat.not_lt_zero _ hLt

/-- An empty range at address 0 ends at the last address, so that it seems to
overlap whatever lies above. -/
theorem memmove_empty_fails (hNe : dst ≠ src) (hNull : dst = 0#w ∨ src = 0#w) :
    ∃ m, ¬ Moved dst src 0 m (memmove dst src 0#w m).2 := by
  let m : ByteMem w := fun x => if x = 0#w then 1 else 0
  have hZero : ∀ x, x ≠ 0#w → m x = 0 := fun x hx => if_neg hx
  have hOne : m 0#w = 1 := if_pos rfl
  refine ⟨m, ?_⟩
  intro hMoved
  have hSame : (memmove dst src 0#w m).2 = m := by
    funext x
    exact hMoved.outside x (Nat.not_lt_zero _)
  by_cases hDst : dst = 0#w
  · subst hDst
    have hs : src ≠ 0#w := Ne.symm hNe
    have hPos := pos_of_ne_zero hs
    have hLt := src.isLt
    have hNeg : (-src).toNat = 2 ^ w - src.toNat := by
      rw [BitVec.toNat_neg]
      exact Nat.mod_eq_of_lt (by omega)
    have hNeg' : -src ≠ 0#w := by
      intro hEq
      rw [hEq, BitVec.toNat_zero] at hNeg
      omega
    have hNull' : (0#w).toNat = 0 := BitVec.toNat_zero
    rw [memmove_to_null hs] at hSame
    by_cases hHalf : 2 ^ w - src.toNat ≤ src.toNat
    · -- the first call clears address 0
      have hFirst : (memcpy 0#w src (-src) m).2 = copied 0#w src (-src).toNat m :=
        memcpy_copies (by omega) (by omega) (by omega)
      cases memcpy_first (m := (memcpy 0#w src (-src) m).2) (n := src) (Ne.symm hNeg') with
      | inl hNothing =>
          have hByte := congrFun (hNothing.symm.trans hSame) 0#w
          have hIn : InBlock 0#w (-src).toNat 0#w := by
            rw [inBlock_iff (by omega)]
            omega
          rw [hFirst, copied_in hIn, BitVec.sub_self, BitVec.add_zero, hZero _ hs, hOne] at hByte
          cases hByte
      | inr hEq =>
          rw [hSame, hOne, hZero _ hNeg'] at hEq
          cases hEq
    · -- the first call does nothing, and the second clears address 0
      rw [memcpy_refuses (m := m) (by omega) (by omega) (by omega),
        memcpy_copies (by omega) (by omega) (by omega)] at hSame
      have hByte := congrFun hSame 0#w
      have hIn : InBlock 0#w src.toNat 0#w := by
        rw [inBlock_iff (by omega)]
        omega
      rw [copied_in hIn, BitVec.sub_self, BitVec.add_zero, hZero _ hNeg', hOne] at hByte
      cases hByte
  · have hSrc : src = 0#w := hNull.resolve_left hDst
    subst hSrc
    have hPos := pos_of_ne_zero hDst
    have hFit : (0#w).toNat + dst.toNat ≤ 2 ^ w := by
      have hLt := dst.isLt
      rw [BitVec.toNat_zero]
      omega
    -- the second call ends by copying address 0
    obtain ⟨k, hk⟩ : ∃ k, dst.toNat = k + 1 := ⟨dst.toNat - 1, by omega⟩
    rw [memmove_from_null hDst, memcpy, if_neg hDst, if_pos, hk] at hSame
    · dsimp only at hSame
      have hEq := memcpyLoop_first (m := (memcpy (dst + dst) dst (-dst) m).2) hDst k
      rw [hSame, hOne, hZero _ hDst] at hEq
      cases hEq
    · left
      simp only [GT.gt, BitVec.lt_def, toNat_last hFit (by omega), BitVec.toNat_zero]
      omega

/-! ## All calls -/

/-- The calls that `memmove` carries out. -/
def Supported (dst src n : BitVec w) : Prop :=
  dst = src ∨
    (n ≠ 0#w ∨ dst ≠ 0#w ∧ src ≠ 0#w) ∧
      (dst.toNat < src.toNat → dst.toNat + n.toNat ≤ src.toNat) ∧
      (src.toNat < dst.toNat → n.toNat ≤ 2 * (dst.toNat - src.toNat))

private theorem moved_self : Moved dst dst n.toNat m (memmove dst dst n m).2 := by
  have hMem : (memmove dst dst n m).2 = m := by
    unfold memmove
    rw [if_pos rfl]
  rw [hMem]
  exact ⟨fun _ _ => rfl, fun _ _ => rfl⟩

theorem Supported.moves (hDst : dst.toNat + n.toNat ≤ 2 ^ w) (hSrc : src.toNat + n.toNat ≤ 2 ^ w)
    (h : Supported dst src n) : Moved dst src n.toNat m (memmove dst src n m).2 := by
  have hCopied : Moved dst src n.toNat m (copied dst src n.toNat m) := moved_copied (by omega)
  by_cases hNe : dst = src
  · subst hNe
    exact moved_self
  · obtain ⟨hNull, hDown, hUp⟩ := h.resolve_left hNe
    have hNe' : dst.toNat ≠ src.toNat := fun hEq => hNe (BitVec.eq_of_toNat_eq hEq)
    by_cases hOver : src.toNat < dst.toNat ∧ dst.toNat < src.toNat + n.toNat
    · rw [memmove_up hSrc hDst hOver.1 hOver.2 (hUp hOver.1)]
      exact hCopied
    · rw [memmove_apart hDst hSrc hNe _ (by omega)]
      · exact hCopied
      · cases hNull with
        | inl hn => exact .inl (pos_of_ne_zero hn)
        | inr h => exact .inr ⟨pos_of_ne_zero h.1, pos_of_ne_zero h.2⟩

/--
**`memmove`** moves every memory right if and only if the ranges do not
overlap, or the destination lies above the source by at least half the
length; and an empty range does not start at address 0.
-/
theorem memmove_iff (w : Nat) (dst src n : BitVec w) (hDst : dst.toNat + n.toNat ≤ 2 ^ w)
    (hSrc : src.toNat + n.toNat ≤ 2 ^ w) :
    (∀ m, Moved dst src n.toNat m (memmove dst src n m).2) ↔ Supported dst src n := by
  constructor
  · intro h
    by_cases hNe : dst = src
    · exact .inl hNe
    · right
      refine ⟨?_, ?_, ?_⟩
      · by_contra hNot
        simp only [not_or, not_not, not_and_or] at hNot
        obtain ⟨hn, hNull⟩ := hNot
        subst hn
        obtain ⟨m, hm⟩ := memmove_empty_fails hNe hNull
        exact hm (h m)
      · intro hLt
        by_contra hOver
        obtain ⟨m, hm⟩ := memmove_down_fails hSrc hDst hLt (by omega)
        exact hm (h m)
      · intro hLt
        by_contra hHalf
        obtain ⟨m, hm⟩ := memmove_up_fails hSrc hDst hLt (by omega)
        exact hm (h m)
  · intro h m
    exact h.moves hDst hSrc

/-- Four bytes, two up. -/
theorem memmove_iff_up :
    Moved 0x102#32 0x100#32 4 (fun x => x.setWidth 8)
      (memmove 0x102#32 0x100#32 4#32 fun x => x.setWidth 8).2 :=
  (memmove_iff 32 0x102#32 0x100#32 4#32 (by decide) (by decide)).mpr
    (.inr ⟨.inl (by decide), by decide, by decide⟩) fun x => x.setWidth 8

/-- Four bytes, two down: the two after the destination are overwritten, and
two of the four are not written. -/
theorem memmove_two_down : ¬ ∀ m : ByteMem 32,
    Moved 0x100#32 0x102#32 4 m (memmove 0x100#32 0x102#32 4#32 m).2 := by
  intro h
  have hByte := (h fun x => x.setWidth 8).outside 0x104#32 (by decide)
  revert hByte
  decide

end

end AbstractMachine.Klib
