import Mathlib.Algebra.Group.Nat.Defs

/-!
# Byte-addressed memory

Memory with `w`-bit addresses, and words of `n` bytes stored in it, lowest
byte first.  Nothing is aligned: a word may start at any address and wraps
around at the end of memory.  Two words whose blocks of bytes are apart do not
disturb each other; the offsets of a frame give most of the cases.
-/

namespace AbstractMachine.Lib

/-- A memory of bytes under addresses of `w` bits. -/
abbrev ByteMem (w : Nat) := BitVec w → BitVec 8

namespace ByteMem

variable {w : Nat}

/-- `x` is one of the `n` bytes from `a` on. -/
def InBlock (a : BitVec w) (n : Nat) (x : BitVec w) : Prop := (x - a).toNat < n

instance (a : BitVec w) (n : Nat) (x : BitVec w) : Decidable (InBlock a n x) := by
  unfold InBlock
  infer_instance

/-- No byte is in both blocks. -/
def Apart (a : BitVec w) (n : Nat) (b : BitVec w) (k : Nat) : Prop :=
  ∀ x, InBlock a n x → ¬ InBlock b k x

/-- The word of `n` bytes at `a`. -/
def load (m : ByteMem w) (a : BitVec w) : (n : Nat) → BitVec (8 * n)
  | 0 => 0#0
  | n + 1 => (m (a + BitVec.ofNat w n) ++ load m a n).cast (by omega)

/-- The memory after the word `v` has been stored at `a`. -/
def store (m : ByteMem w) (a : BitVec w) {n : Nat} (v : BitVec (8 * n)) : ByteMem w := fun x =>
  if InBlock a n x then v.extractLsb' (8 * (x - a).toNat) 8 else m x

/-! ## Blocks -/

theorem inBlock_offset {a : BitVec w} {n i : Nat} (hi : i < n) (hn : n ≤ 2 ^ w) :
    InBlock a n (a + BitVec.ofNat w i) := by
  unfold InBlock
  rw [BitVec.add_comm, BitVec.add_sub_cancel, BitVec.toNat_ofNat,
    Nat.mod_eq_of_lt (Nat.lt_of_lt_of_le hi hn)]
  exact hi

/-- The distance from a base to a byte, when the block starts at an offset. -/
theorem toNat_sub_offset {a x : BitVec w} {i n : Nat}
    (hx : InBlock (a + BitVec.ofNat w i) n x) (hFit : i + n ≤ 2 ^ w) :
    (x - a).toNat = i + (x - (a + BitVec.ofNat w i)).toNat := by
  unfold InBlock at hx
  have hSplit : x - a = BitVec.ofNat w i + (x - (a + BitVec.ofNat w i)) := by
    rw [← BitVec.sub_sub, BitVec.add_comm, BitVec.sub_add_cancel]
  have hi : i < 2 ^ w := by omega
  rw [hSplit, BitVec.toNat_add, BitVec.toNat_ofNat, Nat.mod_eq_of_lt hi]
  apply Nat.mod_eq_of_lt
  omega

/-- A block inside a larger one. -/
theorem inBlock_sub {a x : BitVec w} {i n k : Nat}
    (hx : InBlock (a + BitVec.ofNat w i) n x) (hIn : i + n ≤ k) (hk : k ≤ 2 ^ w) :
    InBlock a k x := by
  have hEq := toNat_sub_offset hx (Nat.le_trans hIn hk)
  unfold InBlock at hx ⊢
  omega

theorem Apart.symm {a b : BitVec w} {n k : Nat} (h : Apart a n b k) : Apart b k a n :=
  fun x hx hx' => h x hx' hx

/-- Two blocks of a frame, one below the other. -/
theorem apart_offset {a : BitVec w} {i j n k : Nat} (hij : i + n ≤ j) (hFit : j + k ≤ 2 ^ w) :
    Apart (a + BitVec.ofNat w i) n (a + BitVec.ofNat w j) k := by
  intro x hx hx'
  have hi := toNat_sub_offset hx (by omega)
  have hj := toNat_sub_offset hx' hFit
  unfold InBlock at hx
  omega

theorem add_sub_self (a b : BitVec w) : a + b - a = b := by
  rw [BitVec.add_comm, BitVec.add_sub_cancel]

theorem toNat_offset {a : BitVec w} {i : Nat} (hi : i < 2 ^ w) :
    (a + BitVec.ofNat w i - a).toNat = i := by
  rw [add_sub_self, BitVec.toNat_ofNat, Nat.mod_eq_of_lt hi]

/-- Different offsets are different addresses. -/
theorem eq_of_offset {a : BitVec w} {i j : Nat} (hi : i < 2 ^ w) (hj : j < 2 ^ w)
    (h : a + BitVec.ofNat w i = a + BitVec.ofNat w j) : i = j := by
  rw [← toNat_offset hi, h, toNat_offset hj]

/-- A byte, by its distance from the base. -/
theorem offset_toNat {a x : BitVec w} : a + BitVec.ofNat w (x - a).toNat = x := by
  rw [BitVec.ofNat_toNat, BitVec.setWidth_eq, BitVec.add_comm, BitVec.sub_add_cancel]

/-- The bytes of a range that does not wrap. -/
theorem inBlock_iff {a x : BitVec w} {n : Nat} (hFit : a.toNat + n ≤ 2 ^ w) :
    InBlock a n x ↔ a.toNat ≤ x.toNat ∧ x.toNat < a.toNat + n := by
  have ha := a.isLt
  have hx := x.isLt
  unfold InBlock
  by_cases hLe : a.toNat ≤ x.toNat
  · rw [BitVec.toNat_sub_of_le hLe]
    omega
  · have hSub : (x - a).toNat = 2 ^ w - a.toNat + x.toNat := by
      rw [BitVec.toNat_sub]
      exact Nat.mod_eq_of_lt (by omega)
    rw [hSub]
    omega

/-- Ranges that do not wrap, one below the other. -/
theorem apart_of_le {a b : BitVec w} {n k : Nat} (ha : a.toNat + n ≤ 2 ^ w)
    (hb : b.toNat + k ≤ 2 ^ w) (hLe : a.toNat + n ≤ b.toNat ∨ b.toNat + k ≤ a.toNat) :
    Apart a n b k := by
  intro x hx hx'
  rw [inBlock_iff ha] at hx
  rw [inBlock_iff hb] at hx'
  omega

theorem apart_iff {a b : BitVec w} {n k : Nat} (ha : a.toNat + n ≤ 2 ^ w)
    (hb : b.toNat + k ≤ 2 ^ w) :
    Apart a n b k ↔ n = 0 ∨ k = 0 ∨ a.toNat + n ≤ b.toNat ∨ b.toNat + k ≤ a.toNat := by
  constructor
  · intro hApart
    apply Decidable.byContradiction
    intro hNot
    simp only [not_or] at hNot
    -- the higher one of the two first bytes
    by_cases hLe : a.toNat ≤ b.toNat
    · exact hApart b ((inBlock_iff ha).mpr (by omega)) ((inBlock_iff hb).mpr (by omega))
    · exact hApart a ((inBlock_iff ha).mpr (by omega)) ((inBlock_iff hb).mpr (by omega))
  · rintro (rfl | rfl | hLe)
    · intro x hx
      exact absurd hx (Nat.not_lt_zero _)
    · intro x _
      exact Nat.not_lt_zero _
    · exact apart_of_le ha hb hLe

/-- Blocks whose first bytes are far enough from each other, both ways around. -/
theorem apart_of_sub {a b : BitVec w} {n k : Nat} (hAb : n ≤ (b - a).toNat)
    (hBa : k ≤ (a - b).toNat) : Apart a n b k := by
  intro x hx hx'
  unfold InBlock at hx hx'
  by_cases hLe : (x - b).toNat ≤ (x - a).toNat
  · have hDist : b - a = (x - a) - (x - b) := by grind
    rw [hDist, BitVec.toNat_sub_of_le hLe] at hAb
    omega
  · have hDist : a - b = (x - b) - (x - a) := by grind
    rw [hDist, BitVec.toNat_sub_of_le (Nat.le_of_not_le hLe)] at hBa
    omega

/-! ## Loads and stores -/

/-- The bits of a loaded word. -/
theorem getLsbD_load (m : ByteMem w) (a : BitVec w) (n i : Nat) :
    (load m a n).getLsbD i =
      (decide (i < 8 * n) && (m (a + BitVec.ofNat w (i / 8))).getLsbD (i % 8)) := by
  induction n with
  | zero => simp [load]
  | succ n ih =>
      rw [load, BitVec.getLsbD_cast, BitVec.getLsbD_append]
      by_cases hLow : i < 8 * n
      · rw [if_pos hLow, ih]
        have hLt : i < 8 * (n + 1) := by omega
        simp [hLow, hLt]
      · rw [if_neg hLow]
        by_cases hLt : i < 8 * (n + 1)
        · have hDiv : i / 8 = n := by omega
          have hMod : i % 8 = i - 8 * n := by omega
          simp [hLt, hDiv, hMod]
        · have hHigh : 8 ≤ i - 8 * n := by omega
          rw [BitVec.getLsbD_of_ge _ _ hHigh]
          simp [hLt]

/-- A word only depends on its block. -/
theorem load_congr {m m' : ByteMem w} {a : BitVec w} {n : Nat} (hn : n ≤ 2 ^ w)
    (h : ∀ x, InBlock a n x → m' x = m x) : load m' a n = load m a n := by
  apply BitVec.eq_of_getLsbD_eq
  intro i hi
  have hByte : i / 8 < n := by omega
  rw [getLsbD_load, getLsbD_load, h _ (inBlock_offset hByte hn)]

/-- A word tells every byte of its block. -/
theorem load_inj {m m' : ByteMem w} {a x : BitVec w} {n : Nat} (h : load m' a n = load m a n)
    (hx : InBlock a n x) : m' x = m x := by
  unfold InBlock at hx
  apply BitVec.eq_of_getLsbD_eq
  intro i hi
  have hDiv : (8 * (x - a).toNat + i) / 8 = (x - a).toNat := by omega
  have hMod : (8 * (x - a).toNat + i) % 8 = i := by omega
  have hBit := congrArg (fun v => v.getLsbD (8 * (x - a).toNat + i)) h
  simp only [getLsbD_load, hDiv, hMod, offset_toNat] at hBit
  rwa [decide_eq_true (by omega), Bool.true_and, Bool.true_and] at hBit

/-- What was stored. -/
theorem load_store_same (m : ByteMem w) (a : BitVec w) {n : Nat} (v : BitVec (8 * n))
    (hn : n ≤ 2 ^ w) : load (store m a v) a n = v := by
  apply BitVec.eq_of_getLsbD_eq
  intro i hi
  have hByte : i / 8 < n := by omega
  have hWord : i / 8 < 2 ^ w := by omega
  have hDist : (a + BitVec.ofNat w (i / 8) - a).toNat = i / 8 := by
    rw [BitVec.add_comm, BitVec.add_sub_cancel, BitVec.toNat_ofNat, Nat.mod_eq_of_lt hWord]
  have hLow : i % 8 < 8 := Nat.mod_lt i (by decide)
  have hSplit : 8 * (i / 8) + i % 8 = i := Nat.div_add_mod i 8
  rw [getLsbD_load, store, if_pos (inBlock_offset hByte hn), hDist,
    BitVec.getLsbD_extractLsb', hSplit]
  simp [hi, hLow]

/-- Outside its block a store changes nothing. -/
theorem store_outside (m : ByteMem w) {a x : BitVec w} {n : Nat} (v : BitVec (8 * n))
    (hx : ¬ InBlock a n x) : store m a v x = m x := if_neg hx

theorem load_store_apart (m : ByteMem w) {a b : BitVec w} {n k : Nat} (v : BitVec (8 * k))
    (hn : n ≤ 2 ^ w) (h : Apart a n b k) : load (store m b v) a n = load m a n := by
  apply load_congr hn
  intro x hx
  exact store_outside m v (h x hx)

/-! ## Frames

A frame is a row of words; `slot n f k` is the address of its word `k`. -/

/-- The `k`th of the `n`-byte slots that start at `f`. -/
def slot (n : Nat) (f : BitVec w) (k : Nat) : BitVec w := f + BitVec.ofNat w (k * n)

variable {m : ByteMem w} {f x : BitVec w} {n i j k : Nat}

/-- The words of a frame lie in it. -/
theorem inBlock_slot (hx : InBlock (slot n f i) n x) (hi : i < k) (hk : k * n ≤ 2 ^ w) :
    InBlock f (k * n) x := by
  apply inBlock_sub hx _ hk
  rw [← Nat.succ_mul]
  exact Nat.mul_le_mul_right n hi

theorem apart_slot (hij : i ≠ j) (hi : i < k) (hj : j < k) (hk : k * n ≤ 2 ^ w) :
    Apart (slot n f i) n (slot n f j) n := by
  have hEnd : ∀ l, l < k → l * n + n ≤ 2 ^ w := by
    intro l hl
    rw [← Nat.succ_mul]
    exact Nat.le_trans (Nat.mul_le_mul_right n hl) hk
  rcases Nat.lt_or_gt_of_ne hij with hLt | hGt
  · apply apart_offset _ (hEnd j hj)
    rw [← Nat.succ_mul]
    exact Nat.mul_le_mul_right n hLt
  · apply Apart.symm
    apply apart_offset _ (hEnd i hi)
    rw [← Nat.succ_mul]
    exact Nat.mul_le_mul_right n hGt

/-- The words of a frame do not disturb each other. -/
theorem load_store_slot (v : BitVec (8 * n)) (hi : i < k) (hj : j < k) (hk : k * n ≤ 2 ^ w) :
    load (store m (slot n f i) v) (slot n f j) n =
      if i = j then v else load m (slot n f j) n := by
  have hn : n ≤ 2 ^ w := by
    have hOne : 1 * n ≤ k * n := Nat.mul_le_mul_right n (by omega)
    omega
  by_cases hij : i = j
  · rw [if_pos hij, hij]
    exact load_store_same m _ v hn
  · rw [if_neg hij]
    exact load_store_apart m v hn (apart_slot (Ne.symm hij) hj hi hk)

end ByteMem

/-! ## Counts -/

variable {w : Nat} {n : BitVec w}

theorem toNat_pos (hn : n ≠ 0) : 0 < n.toNat := by
  rw [Nat.pos_iff_ne_zero]
  intro hZero
  exact hn (BitVec.eq_of_toNat_eq hZero)

theorem toNat_pred (hn : n ≠ 0) : (n - 1).toNat = n.toNat - 1 := by
  have hPos := toNat_pos hn
  have hLt := n.isLt
  have hOne : (1 : BitVec w).toNat = 1 := by
    show (BitVec.ofNat w 1).toNat = 1
    rw [BitVec.toNat_ofNat]
    exact Nat.mod_eq_of_lt (by omega)
  rw [BitVec.toNat_sub_of_le (by rw [BitVec.le_def, hOne]; exact hPos), hOne]

theorem toNat_neg_one (w : Nat) : (-1 : BitVec w).toNat = 2 ^ w - 1 := by
  show (-1#w).toNat = _
  rw [BitVec.neg_one_eq_allOnes, BitVec.toNat_allOnes]

end AbstractMachine.Lib
