import AbstractMachine.Lib.CString

/-!
# `strncmp` and `strcmp` of klib

The scan counts down from `n - 1` and stops at a NUL, at a difference or at the
last byte that may be read; what it returns is the difference of the two bytes
it has stopped at.
-/

namespace AbstractMachine.Klib

open AbstractMachine.Lib

variable {w : Nat}

/-! ## The functions -/

/-- The result, and the addresses read in either string. -/
structure Compared (w : Nat) where
  result : BitVec 32
  readL : List (BitVec w)
  readR : List (BitVec w)

/-- `*l - *r`, as `int`. -/
def byteDiff (l r : BitVec 8) : BitVec 32 := l.setWidth 32 - r.setWidth 32

/-- The loop of `strncmp` and the difference behind it.  Whichever test ends the
loop, both bytes are read. -/
def strncmpLoop (m : ByteMem w) : Nat → BitVec w → BitVec w → Compared w
  | 0, l, r => ⟨byteDiff (m l) (m r), [l], [r]⟩
  | n + 1, l, r =>
      if m l ≠ 0 ∧ m r ≠ 0 ∧ m l = m r then
        let c := strncmpLoop m n (l + 1) (r + 1)
        ⟨c.result, l :: c.readL, r :: c.readR⟩
      else ⟨byteDiff (m l) (m r), [l], [r]⟩

/-- `strncmp`: nothing is read where `n` is zero. -/
def strncmp (s1 s2 n : BitVec w) (m : ByteMem w) : Compared w :=
  if n = 0 then ⟨0, [], []⟩
  else strncmpLoop m (n - 1).toNat s1 s2

/-- `strcmp` is `strncmp` with the largest bound. -/
def strcmp (s1 s2 : BitVec w) (m : ByteMem w) : Compared w := strncmp s1 s2 (-1) m

/-! ## The order of strings

A proper prefix comes first, and bytes are compared as unsigned numbers. -/

variable {m : ByteMem w} {s1 s2 s3 n : BitVec w} {l1 l2 l3 : List (BitVec 8)} {c d : BitVec 8}
  {v v' : BitVec 32} {k i : Nat}

/-- `v` has the sign of the comparison of `l1` and `l2`. -/
structure Compares (v : BitVec 32) (l1 l2 : List (BitVec 8)) : Prop where
  lt : v.toInt < 0 ↔ l1 < l2
  eq : v.toInt = 0 ↔ l1 = l2
  gt : 0 < v.toInt ↔ l2 < l1

private theorem toInt_byteDiff : (byteDiff c d).toInt = c.toNat - d.toNat := by
  have hc := c.isLt
  have hd := d.isLt
  have hSmall : ∀ x : BitVec 8, (x.setWidth 32).toInt = x.toNat := by
    intro x
    have hx := x.isLt
    rw [BitVec.toInt_setWidth]
    exact Int.bmod_eq_of_le (by omega) (by omega)
  unfold byteDiff
  rw [BitVec.toInt_sub, hSmall, hSmall]
  exact Int.bmod_eq_of_le (by omega) (by omega)

theorem Compares.nil : Compares 0 [] [] where
  lt := by simp
  eq := by simp
  gt := by simp

theorem Compares.cons (h : Compares v l1 l2) : Compares v (c :: l1) (c :: l2) where
  lt := by rw [h.lt, List.cons_lt_cons_self]
  eq := by rw [h.eq, List.cons_inj_right]
  gt := by rw [h.gt, List.cons_lt_cons_self]

theorem Compares.of_lt (hv : v.toInt < 0) (h : l1 < l2) : Compares v l1 l2 where
  lt := iff_of_true hv h
  eq := by
    apply iff_of_false (Int.ne_of_lt hv)
    rintro rfl
    exact List.lt_irrefl _ h
  gt := iff_of_false (Int.not_lt.mpr (Int.le_of_lt hv)) (List.lt_asymm h)

theorem Compares.of_gt (hv : 0 < v.toInt) (h : l2 < l1) : Compares v l1 l2 where
  lt := iff_of_false (Int.not_lt.mpr (Int.le_of_lt hv)) (List.lt_asymm h)
  eq := by
    apply iff_of_false (Int.ne_of_gt hv)
    rintro rfl
    exact List.lt_irrefl _ h
  gt := iff_of_true hv h

/-- At the first difference the bytes decide. -/
theorem Compares.of_ne (hcd : c ≠ d) : Compares (byteDiff c d) (c :: l1) (d :: l2) := by
  have hNe : c.toNat ≠ d.toNat := fun hEq => hcd (BitVec.eq_of_toNat_eq hEq)
  rcases Nat.lt_or_gt_of_ne hNe with hLt | hGt
  · apply Compares.of_lt
    · rw [toInt_byteDiff]
      omega
    · exact List.cons_lt_cons_iff.mpr (Or.inl hLt)
  · apply Compares.of_gt
    · rw [toInt_byteDiff]
      omega
    · exact List.cons_lt_cons_iff.mpr (Or.inl hGt)

theorem Compares.nil_cons (hd : d ≠ 0) : Compares (byteDiff 0 d) [] (d :: l2) := by
  have hPos : d.toNat ≠ 0 := fun hEq => hd (BitVec.eq_of_toNat_eq hEq)
  apply Compares.of_lt _ (List.nil_lt_cons d l2)
  rw [toInt_byteDiff]
  show (0 : Int) - d.toNat < 0
  omega

theorem Compares.cons_nil (hc : c ≠ 0) : Compares (byteDiff c 0) (c :: l1) [] := by
  have hPos : c.toNat ≠ 0 := fun hEq => hc (BitVec.eq_of_toNat_eq hEq)
  apply Compares.of_gt _ (List.nil_lt_cons c l1)
  rw [toInt_byteDiff]
  show 0 < (c.toNat : Int) - 0
  omega

private theorem byteDiff_self : byteDiff c c = 0 := BitVec.sub_self _

/-! ## What is read -/

/-- `xs` are addresses of the string at `p`, each one at an index below `n` before
which both strings go on with the same characters. -/
def ReadsShared (xs : List (BitVec w)) (p : BitVec w) (l1 l2 : List (BitVec 8)) (n : Nat) :
    Prop :=
  ∀ x ∈ xs, ∃ i, i < n ∧ i ≤ l1.length ∧ i ≤ l2.length ∧ l1.take i = l2.take i ∧
    x = p + BitVec.ofNat w i

private theorem readsShared_first {p : BitVec w} : ReadsShared [p] p l1 l2 (k + 1) := by
  intro x hx
  refine ⟨0, Nat.succ_pos k, Nat.zero_le _, Nat.zero_le _, rfl, ?_⟩
  rw [List.mem_singleton.mp hx, BitVec.add_zero]

theorem ReadsShared.cons {xs : List (BitVec w)} {p : BitVec w}
    (h : ReadsShared xs (p + 1) l1 l2 k) :
    ReadsShared (p :: xs) p (c :: l1) (c :: l2) (k + 1) := by
  intro x hx
  rcases List.mem_cons.mp hx with rfl | hMem
  · exact readsShared_first x (List.mem_singleton.mpr rfl)
  · obtain ⟨i, hi, hLeft, hRight, hTake, rfl⟩ := h x hMem
    refine ⟨i + 1, Nat.succ_lt_succ hi, Nat.succ_le_succ hLeft, Nat.succ_le_succ hRight, ?_, ?_⟩
    · rw [List.take_succ_cons, List.take_succ_cons, hTake]
    · exact Store.add_one_ofNat p i

/-! ## The scan -/

/-- A comparison of the first `n` bytes that reads no further than it has to. -/
structure ComparesUpTo (c : Compared w) (s1 s2 : BitVec w) (l1 l2 : List (BitVec 8)) (n : Nat) :
    Prop where
  order : Compares c.result (l1.take n) (l2.take n)
  left : ReadsShared c.readL s1 l1 l2 n
  right : ReadsShared c.readR s2 l1 l2 n

/-- Where the scan stops. -/
theorem ComparesUpTo.stop (h : Compares v (l1.take (k + 1)) (l2.take (k + 1))) :
    ComparesUpTo ⟨v, [s1], [s2]⟩ s1 s2 l1 l2 (k + 1) where
  order := h
  left := readsShared_first
  right := readsShared_first

/-- The loop reads at most `k + 1` bytes of either string. -/
theorem strncmpLoop_upTo (h1 : Stored (fun _ => False) m s1 l1)
    (h2 : Stored (fun _ => False) m s2 l2) (k : Nat) :
    ComparesUpTo (strncmpLoop m k s1 s2) s1 s2 l1 l2 (k + 1) := by
  induction l1 generalizing l2 s1 s2 k with
  | nil =>
      have hNul : m s1 = 0 := h1.2
      have hStop : strncmpLoop m k s1 s2 = ⟨byteDiff 0 (m s2), [s1], [s2]⟩ := by
        cases k <;> simp [strncmpLoop, hNul]
      rw [hStop]
      apply ComparesUpTo.stop
      cases l2 with
      | nil =>
          rw [h2.2, byteDiff_self]
          exact Compares.nil
      | cons d l2 =>
          obtain ⟨-, hChar, hd, -⟩ := h2
          rw [hChar, List.take_succ_cons]
          exact Compares.nil_cons hd
  | cons c l1 ih =>
      obtain ⟨-, hc, hcNul, hRest1⟩ := h1
      cases l2 with
      | nil =>
          have hNul : m s2 = 0 := h2.2
          have hStop : strncmpLoop m k s1 s2 = ⟨byteDiff c 0, [s1], [s2]⟩ := by
            cases k <;> simp [strncmpLoop, hNul, hc]
          rw [hStop]
          apply ComparesUpTo.stop
          rw [List.take_succ_cons]
          exact Compares.cons_nil hcNul
      | cons d l2 =>
          obtain ⟨-, hd, hdNul, hRest2⟩ := h2
          by_cases hcd : c = d
          · subst hcd
            cases k with
            | zero =>
                show ComparesUpTo ⟨byteDiff (m s1) (m s2), [s1], [s2]⟩ s1 s2 _ _ 1
                rw [hc, hd, byteDiff_self]
                exact ComparesUpTo.stop Compares.nil.cons
            | succ k =>
                have hGo := ih hRest1 hRest2 k
                rw [strncmpLoop, hc, hd, if_pos ⟨hcNul, hcNul, rfl⟩]
                exact ⟨hGo.order.cons, hGo.left.cons, hGo.right.cons⟩
          · have hStop : strncmpLoop m k s1 s2 = ⟨byteDiff c d, [s1], [s2]⟩ := by
              cases k <;> simp [strncmpLoop, hc, hd, hcd]
            rw [hStop]
            apply ComparesUpTo.stop
            rw [List.take_succ_cons, List.take_succ_cons]
            exact Compares.of_ne hcd

private theorem strncmp_upTo (h1 : Stored (fun _ => False) m s1 l1)
    (h2 : Stored (fun _ => False) m s2 l2) (n : BitVec w) :
    ComparesUpTo (strncmp s1 s2 n m) s1 s2 l1 l2 n.toNat := by
  unfold strncmp
  by_cases hn : n = 0
  · subst hn
    rw [if_pos rfl]
    exact ⟨Compares.nil, nofun, nofun⟩
  · have hLast : (n - 1).toNat + 1 = n.toNat := by
      rw [toNat_pred hn]
      exact Nat.sub_add_cancel (toNat_pos hn)
    rw [if_neg hn, ← hLast]
    exact strncmpLoop_upTo h1 h2 _

private theorem strcmp_compares (h1 : Stored (fun _ => False) m s1 l1)
    (h2 : Stored (fun _ => False) m s2 l2) : Compares (strcmp s1 s2 m).result l1 l2 := by
  have hOrder := (strncmp_upTo h1 h2 (-1)).order
  have hLen1 := h1.length_lt
  have hLen2 := h2.length_lt
  rwa [toNat_neg_one, List.take_of_length_le (by omega), List.take_of_length_le (by omega)]
    at hOrder

theorem Compares.sign_neg (h : Compares v l1 l2) (h' : Compares v' l2 l1) :
    v'.toInt.sign = -v.toInt.sign := by
  rcases Int.lt_trichotomy v.toInt 0 with hNeg | hZero | hPos
  · rw [Int.sign_eq_neg_one_of_neg hNeg, Int.sign_eq_one_of_pos (h'.gt.mpr (h.lt.mp hNeg))]
    rfl
  · rw [hZero, h'.eq.mpr (h.eq.mp hZero).symm]
    rfl
  · rw [Int.sign_eq_one_of_pos hPos, Int.sign_eq_neg_one_of_neg (h'.lt.mpr (h.gt.mp hPos))]

theorem Compares.le_iff (h : Compares v l1 l2) : v.toInt ≤ 0 ↔ ¬ l2 < l1 := by
  rw [← Int.not_lt, h.gt]

/--
**`strncmp` and `strcmp`.** The sign of `strncmp` is that of the comparison of
the first `n` bytes, and no byte is read behind them, behind a NUL or behind a
difference.  `strcmp` compares whole strings, a total order of them.
-/
theorem strncmp_strcmp_order (h1 : Stored (fun _ => False) m s1 l1)
    (h2 : Stored (fun _ => False) m s2 l2) (h3 : Stored (fun _ => False) m s3 l3)
    (n : BitVec w) :
    ComparesUpTo (strncmp s1 s2 n m) s1 s2 l1 l2 n.toNat ∧
      ComparesUpTo (strcmp s1 s2 m) s1 s2 l1 l2 (2 ^ w - 1) ∧
      Compares (strcmp s1 s2 m).result l1 l2 ∧
      (strcmp s2 s1 m).result.toInt.sign = -(strcmp s1 s2 m).result.toInt.sign ∧
      ((strcmp s1 s2 m).result.toInt ≤ 0 → (strcmp s2 s3 m).result.toInt ≤ 0 →
        (strcmp s1 s3 m).result.toInt ≤ 0) := by
  have h12 := strcmp_compares h1 h2
  have h21 := strcmp_compares h2 h1
  have h13 := strcmp_compares h1 h3
  have h23 := strcmp_compares h2 h3
  have hLast := strncmp_upTo h1 h2 (-1)
  rw [toNat_neg_one] at hLast
  refine ⟨strncmp_upTo h1 h2 n, hLast, h12, h12.sign_neg h21, ?_⟩
  rw [h12.le_iff, h23.le_iff, h13.le_iff]
  exact List.le_trans

/-- Two strings of two characters, the second character of one above 127. -/
def twoStrings : ByteMem 32 := fun x =>
  if x = 0x1000 ∨ x = 0x2000 then 0x61 else
    if x = 0x1001 then 0x62 else
      if x = 0x2001 then 0xe9 else 0

private theorem twoStrings_first : Stored (fun _ => False) twoStrings 0x1000 [0x61, 0x62] :=
  ⟨not_false, rfl, by decide, not_false, rfl, by decide, not_false, rfl⟩

private theorem twoStrings_second : Stored (fun _ => False) twoStrings 0x2000 [0x61, 0xe9] :=
  ⟨not_false, rfl, by decide, not_false, rfl, by decide, not_false, rfl⟩

theorem strncmp_strcmp_order_twoStrings :
    (strncmp 0x1000 0x2000 2 twoStrings).result.toInt < 0 ∧
      (strcmp 0x1000 0x2000 twoStrings).result.toInt < 0 := by
  obtain ⟨hScan, -, hAll, -, -⟩ := strncmp_strcmp_order twoStrings_first twoStrings_second
    twoStrings_first 2
  exact ⟨hScan.order.lt.mpr (by decide), hAll.lt.mpr (by decide)⟩

end AbstractMachine.Klib
