import AbstractMachine.Klib.Stdio.Turn
import AbstractMachine.Native.Vme.MapList

/-!
# Native with klib

`map` prints the address of a page with `snprintf(buf, 32, "%x", va)`, and looks
the node up under what stands in `buf`.  When native is linked with klib, that
is `vsnprintf` of klib, which knows no `%x` and leaves it out: every page has the
empty key, and shares one node with all others.
-/

namespace AbstractMachine.Native.Vme

open AbstractMachine.Lib AbstractMachine.Klib

/-! ## The program -/

/-- The string at `p`, of at most `n` characters. -/
def cString {w : Nat} (m : ByteMem w) : Nat → BitVec w → List (BitVec 8)
  | 0, _ => []
  | n + 1, p => if m p = 0 then [] else m p :: cString m n (p + 1)

/-- Memory when `snprintf(out, 32, "%x", va)` is called, with the format at `fmt`. -/
structure Print where
  mem : ByteMem 64
  out : BitVec 64
  fmt : BitVec 64
  format : Stored (ByteMem.InBlock out 32) mem fmt [chr '%', chr 'x']

/-- The string in the buffer afterwards. -/
def Print.text (b : Print) (va : Nat) : Option String :=
  (snprintf 2 b.out 32 b.fmt [.ptr (BitVec.ofNat 64 va)] b.mem).map fun r =>
    String.ofList ((cString r.2.mem 32 b.out).map fun c => Char.ofNat c.toNat)

/-- The key that a call of `snprintf` leaves, as a step of `map`. -/
def Print.run (b : Print) (va : Nat) : Vm String :=
  match b.text va with
  | some k => pure k
  | none => throw .diverge

/-- A call of `map`, with its two calls of `snprintf`. -/
structure KlibCall extends MapCall where
  buf : Print
  ppKey : Print

/-- The calls, in order. -/
def klibMaps (env : Env) (as : Nat) (calls : List KlibCall) : Vm Unit :=
  calls.forM fun c =>
    mapWith env (c.buf.run c.va) (c.ppKey.run c.va) c.cpu as c.va c.pa c.prot

/-! ## The key -/

/-- The directive is skipped, and nothing is printed but the terminator. -/
theorem Print.snprintf_eq (b : Print) (va : Nat) :
    ∃ r s, snprintf 2 b.out 32 b.fmt [.ptr (BitVec.ofNat 64 va)] b.mem = some (r, s) ∧
      s.mem b.out = 0 := by
  obtain ⟨-, hPercent, -, -, hX, -, -, hNul⟩ := b.format
  let s := enter b.out b.fmt [.ptr (BitVec.ofNat 64 va)] b.mem
  have hFirst : running 32 s = true := by
    show (decide ((0 : BitVec 64) < 32 - 1) && decide (b.mem b.fmt ≠ 0)) = true
    rw [hPercent]
    decide
  have hBody : body 32 s = some { s with fmt := b.fmt + 1 + 1 } :=
    body_unknown hPercent hX (by decide)
  have hLast : running 32 { s with fmt := b.fmt + 1 + 1 } = false := by
    show (decide ((0 : BitVec 64) < 32 - 1) && decide (b.mem (b.fmt + 1 + 1) ≠ 0)) = false
    rw [hNul]
    decide
  have hTurns : turns 32 2 s = { s with fmt := b.fmt + 1 + 1 } := by
    rw [turns, if_pos hFirst, hBody]
    dsimp only
    rw [turns, if_neg (by rw [hLast]; decide)]
  refine ⟨0, s.store.set b.out 0, ?_, Function.update_self ..⟩
  unfold snprintf vsnprintf
  dsimp only
  rw [hTurns, if_neg (by rw [hLast]; decide)]
  rfl

theorem Print.text_eq (b : Print) (va : Nat) : b.text va = some "" := by
  obtain ⟨r, s, hRun, hNul⟩ := b.snprintf_eq va
  unfold Print.text
  rw [hRun, Option.map_some, cString, if_pos hNul]
  rfl

theorem Print.run_eq (b : Print) (va : Nat) : b.run va = pure "" := by
  unfold Print.run
  rw [b.text_eq va]

/-! ## The nodes -/

variable {env : Env} {s s' : VM} {as h p : Nat}

/-- A node was found or entered under `k` in the address space `h`. -/
structure Entered (s s' : VM) (h : Nat) (k : String) : Prop where
  hash : ∃ p, (s'.vmHead h).hash = Function.update (s.vmHead h).hash k (some p)
  ptr : s'.ptr = s.ptr

private theorem findNodeWith_ok {k : String}
    (hRun : (findNodeWith env (pure k) (pure k) h).run s = .ok (p, s')) : Entered s s' h k := by
  rcases findNodeWith_ran hRun with ⟨hHash, rfl⟩ | ⟨hHash, -, t, hAlloc, rfl⟩
  · exact ⟨⟨p, by rw [← hHash, Function.update_eq_self]⟩, rfl⟩
  · obtain ⟨-, hHead, hPtr, -⟩ := pgalloc_ok hAlloc
    exact ⟨⟨p, by simp [hHead]⟩, hPtr⟩

private theorem mapWith_ok {k : String} {cpu va pa : Nat} {prot : BitVec 32} {u : Unit}
    (hRun : (mapWith env (pure k) (pure k) cpu as va pa prot).run s = .ok (u, s')) :
    Entered s s' (s.ptr as) k := by
  obtain ⟨-, -, p, t, hFind, rfl⟩ := mapWith_ran hRun
  obtain ⟨⟨q, hHash⟩, hPtr⟩ := findNodeWith_ok hFind
  -- nothing after the lookup changes the table
  split
  · exact ⟨⟨q, by simp [hHash]⟩, hPtr⟩
  · exact ⟨⟨q, by simp [hHash]⟩, hPtr⟩

/-- One node for all pages, from the first call on. -/
theorem klibMaps_ok (calls : List KlibCall) (hPtr : s.ptr as = h)
    (hRun : (klibMaps env as calls).run s = .ok ((), s')) :
    s'.ptr as = h ∧
      ((s'.vmHead h).hash "" ≠ none ↔ (s.vmHead h).hash "" ≠ none ∨ calls ≠ []) := by
  induction calls generalizing s with
  | nil =>
      cases forM_nil_eq_ok.mp hRun
      simp [hPtr]
  | cons c calls ih =>
      obtain ⟨t, hCall, hRest⟩ := forM_cons_eq_ok.mp hRun
      rw [c.buf.run_eq, c.ppKey.run_eq] at hCall
      obtain ⟨⟨p, hHash⟩, hSame⟩ := mapWith_ok hCall
      rw [hPtr] at hHash
      have hNext := ih ((congrFun hSame as).trans hPtr) hRest
      refine ⟨hNext.1, ?_⟩
      rw [hNext.2, hHash, Function.update_self]
      simp

/-! ## The lookup -/

/-- The lookup of `va` in the address space `h`, with the key printed to `b`. -/
def Finds (s : VM) (h : Nat) (b : Print) (va : Nat) : Prop :=
  ∃ k p, b.text va = some k ∧ (s.vmHead h).hash k = some p

/-- After the calls, no other page that was mapped has the key of `va`, and the
lookup of `va` finds a node if and only if `va` was mapped. -/
structure LookupRight (s : VM) (h : Nat) (b : Print) (calls : List KlibCall) (va : Nat) : Prop where
  keys : ∀ c ∈ calls, c.va ≠ va → c.buf.text c.va ≠ b.text va
  finds : Finds s h b va ↔ ∃ c ∈ calls, c.va = va

private theorem finds_iff (b : Print) (va : Nat) :
    Finds s h b va ↔ (s.vmHead h).hash "" ≠ none := by
  unfold Finds
  rw [b.text_eq, Option.ne_none_iff_exists']
  constructor
  · rintro ⟨k, p, hKey, hHash⟩
    cases hKey
    exact ⟨p, hHash⟩
  · rintro ⟨p, hHash⟩
    exact ⟨"", p, rfl, hHash⟩

/--
**The index of the pages.** After `protect` and any accepted calls, the lookup of
a page is right, if and only if no other page was mapped.
-/
theorem klib_lookup_iff (env : Env) (s₀ s₁ s₂ : VM) (as : Nat) (calls : List KlibCall)
    (hProtect : (protect env as).run s₀ = .ok ((), s₁))
    (hMaps : (klibMaps env as calls).run s₁ = .ok ((), s₂)) (b : Print) (va : Nat) :
    LookupRight s₂ (s₂.ptr as) b calls va ↔ ∀ c ∈ calls, c.va = va := by
  obtain ⟨h, hP⟩ := protect_ok hProtect
  have hPtr : s₁.ptr as = h := by rw [hP.ptr, Function.update_self]
  have hEmpty : (s₁.vmHead h).hash "" = none := by rw [hP.vmHead, Function.update_self]
  obtain ⟨hPtr', hHash⟩ := klibMaps_ok calls hPtr hMaps
  rw [hPtr']
  constructor
  · intro hRight c hc
    by_contra hNe
    apply hRight.keys c hc hNe
    rw [c.buf.text_eq, b.text_eq]
  · intro hSame
    refine ⟨fun c hc hNe => absurd (hSame c hc) hNe, ?_⟩
    rw [finds_iff, hHash, hEmpty]
    cases calls with
    | nil => simp
    | cons c calls => simp [hSame c]

/-- The format at 0x1000, the buffer at 0x2000. -/
def lowPrint : Print where
  mem x := [chr '%', chr 'x'].getD (x - 0x1000).toNat 0
  out := 0x2000
  fmt := 0x1000
  format := by
    apply stored_getD
    · decide
    · decide
    · decide

/-- A page mapped on CPU 0. -/
def lowCall (va : Nat) : KlibCall where
  cpu := 0
  va := va
  pa := 0x3000000
  prot := mmapRead
  buf := lowPrint
  ppKey := lowPrint

/-- `map` for one page after `protect`. -/
theorem lowCall_runs :
    ∃ s₁ s₂, (protect smallPages 8).run freshVM = .ok ((), s₁) ∧
      (klibMaps smallPages 8 [lowCall 0x40000000]).run s₁ = .ok ((), s₂) := by
  obtain ⟨_, s₂, hRun⟩ := exists_of_succeeds
    (x := do
      protect smallPages 8
      klibMaps smallPages 8 [lowCall 0x40000000])
    (s := freshVM) (by decide)
  obtain ⟨_, s₁, hProtect, hMaps⟩ := bind_eq_ok.mp hRun
  exact ⟨s₁, s₂, hProtect, hMaps⟩

theorem klib_lookup_iff_one :
    ∃ s₁ s₂, (protect smallPages 8).run freshVM = .ok ((), s₁) ∧
      (klibMaps smallPages 8 [lowCall 0x40000000]).run s₁ = .ok ((), s₂) ∧
      LookupRight s₂ (s₂.ptr 8) lowPrint [lowCall 0x40000000] 0x40000000 := by
  obtain ⟨s₁, s₂, hProtect, hMaps⟩ := lowCall_runs
  refine ⟨s₁, s₂, hProtect, hMaps, ?_⟩
  apply (klib_lookup_iff smallPages freshVM s₁ s₂ 8 _ hProtect hMaps lowPrint _).mpr
  intro c hc
  rw [List.mem_singleton.mp hc]
  rfl

/-- The next page has the same key, and is found although it was never mapped. -/
theorem klib_lookup_next_page :
    inUserSpace 0x40000000 ∧ inUserSpace 0x40001000 ∧
      lowPrint.text 0x40000000 = lowPrint.text 0x40001000 ∧
      ∃ s₁ s₂, (protect smallPages 8).run freshVM = .ok ((), s₁) ∧
        (klibMaps smallPages 8 [lowCall 0x40000000]).run s₁ = .ok ((), s₂) ∧
        Finds s₂ (s₂.ptr 8) lowPrint 0x40001000 ∧
        ¬ LookupRight s₂ (s₂.ptr 8) lowPrint [lowCall 0x40000000] 0x40001000 := by
  obtain ⟨s₁, s₂, hProtect, hMaps⟩ := lowCall_runs
  obtain ⟨h, hP⟩ := protect_ok hProtect
  have hPtr : s₁.ptr 8 = h := by rw [hP.ptr, Function.update_self]
  obtain ⟨hPtr', hHash⟩ := klibMaps_ok _ hPtr hMaps
  have hFinds : Finds s₂ (s₂.ptr 8) lowPrint 0x40001000 := by
    rw [hPtr', finds_iff, hHash]
    exact Or.inr (List.cons_ne_nil _ _)
  refine ⟨by decide, by decide, ?_, s₁, s₂, hProtect, hMaps, hFinds, ?_⟩
  · rw [lowPrint.text_eq, lowPrint.text_eq]
  · intro hRight
    obtain ⟨c, hc, hVa⟩ := hRight.finds.mp hFinds
    rw [List.mem_singleton.mp hc] at hVa
    exact absurd hVa (by decide)

end AbstractMachine.Native.Vme
