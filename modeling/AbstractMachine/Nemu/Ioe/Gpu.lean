import AbstractMachine.Lib.Picture
import AbstractMachine.Lib.SignedWord
import AbstractMachine.Nemu.Ioe.Model

/-!
# Drawing

`__am_gpu_fbdraw` steps from one row of the block to the next by the width that
is cached in `cfg_now`.  With the width of the screen there, it draws the block;
after `ioe_init` the width there is 0, and every row lands on the first row of
the screen.
-/

namespace AbstractMachine.Nemu

open AbstractMachine.Lib

/-! ## The frame buffer -/

/-- The address of word `n` of the frame buffer. -/
def fbWord (n : Nat) : Word := FB_ADDR + 4 * BitVec.ofNat 32 n

variable {dev : Device} {ctl : AmGpuFbdraw} {pixels : Word → Word} {d : Draw} {s : Ioe}
  {n k p b w i r j stride : Nat} {a : Word}

private theorem toNat_fbWord (h : FB_ADDR.toNat + 4 * n < 2 ^ 32) :
    (fbWord n).toNat = FB_ADDR.toNat + 4 * n := by
  unfold fbWord
  have hFour : (4 : Word).toNat = 4 := rfl
  rw [BitVec.toNat_add, BitVec.toNat_mul, BitVec.toNat_ofNat, hFour]
  omega

/-- Within 2 ^ 30 words no two have the same address. -/
theorem fbWord_inj (hn : n < 2 ^ 30) (hk : k < 2 ^ 30) (h : fbWord n = fbWord k) : n = k := by
  have hMul := (BitVec.add_right_inj _).mp h
  have hNat := congrArg BitVec.toNat hMul
  have hFour : (4 : Word).toNat = 4 := rfl
  rw [BitVec.toNat_mul, BitVec.toNat_mul, BitVec.toNat_ofNat, BitVec.toNat_ofNat, hFour] at hNat
  omega

theorem ofNat_next (n : Nat) : BitVec.ofNat 32 n + 1 = BitVec.ofNat 32 (n + 1) :=
  (BitVec.ofNat_add n 1).symm

/-! ## One row -/

theorem drawRow_idx (pixels : Word → Word) (n : Nat) (d : Draw) :
    (drawRow pixels n d).pixelIdx = d.pixelIdx + BitVec.ofNat 32 n ∧
      (drawRow pixels n d).bufferIdx = d.bufferIdx + BitVec.ofNat 32 n := by
  have hNext : ∀ v : Word, ∀ n, v + 1 + BitVec.ofNat 32 n = v + BitVec.ofNat 32 (n + 1) := by
    intro v n
    rw [BitVec.add_assoc, BitVec.add_comm 1, ofNat_next]
  induction n generalizing d with
  | zero => exact ⟨(BitVec.add_zero _).symm, (BitVec.add_zero _).symm⟩
  | succ n ih =>
      rw [drawRow, (ih _).1, (ih _).2]
      exact ⟨hNext _ _, hNext _ _⟩

private theorem drawRow_outside (hd : d.bufferIdx = BitVec.ofNat 32 b)
    (ha : ∀ j, j < n → a ≠ fbWord (b + j)) : (drawRow pixels n d).io a = d.io a := by
  induction n generalizing d b with
  | zero => rfl
  | succ n ih =>
      have hFirst : a ≠ FB_ADDR + 4 * d.bufferIdx := by
        rw [hd]
        exact ha 0 (by omega)
      rw [drawRow, ih (b := b + 1)]
      · exact Function.update_of_ne hFirst _ _
      · exact (congrArg (· + 1) hd).trans (ofNat_next _)
      · intro j hj
        rw [Nat.add_assoc, Nat.add_comm 1 j]
        exact ha (j + 1) (by omega)

/-- Pixel after pixel. -/
theorem drawRow_at (pixels : Word → Word) (hd : d.bufferIdx = BitVec.ofNat 32 b)
    (hp : d.pixelIdx = BitVec.ofNat 32 p)
    (hFit : b + n ≤ 2 ^ 30) (hj : j < n) :
    (drawRow pixels n d).io (fbWord (b + j)) = pixels (BitVec.ofNat 32 (p + j)) := by
  induction n generalizing d b p j with
  | zero => omega
  | succ n ih =>
      rw [drawRow]
      cases j with
      | zero =>
          rw [drawRow_outside (b := b + 1)]
          · rw [hd, hp]
            exact Function.update_self _ _ _
          · exact (congrArg (· + 1) hd).trans (ofNat_next _)
          · intro j hj hEq
            have hInj := fbWord_inj (by omega) (by omega) hEq
            omega
      | succ j =>
          have hb : b + (j + 1) = b + 1 + j := by omega
          have hp' : p + (j + 1) = p + 1 + j := by omega
          rw [hb, hp']
          apply ih _ _ (by omega) (by omega)
          · exact (congrArg (· + 1) hd).trans (ofNat_next _)
          · exact (congrArg (· + 1) hp).trans (ofNat_next _)

/-! ## All rows -/

/-- From the end of a row to the start of the next. -/
theorem row_start (b w stride : Nat) :
    BitVec.ofNat 32 b + BitVec.ofNat 32 w + (BitVec.ofNat 32 stride - BitVec.ofNat 32 w) =
      BitVec.ofNat 32 (b + stride) := by
  rw [BitVec.ofNat_add]
  grind

/-- The variables before row `i + 1`. -/
theorem drawRow_next (pixels : Word → Word) {width w : Word} (hd : d.bufferIdx = BitVec.ofNat 32 b)
    (hp : d.pixelIdx = BitVec.ofNat 32 p) (hWidth : width = BitVec.ofNat 32 stride)
    (hw : w = BitVec.ofNat 32 k) :
    (drawRow pixels k d).bufferIdx + (width - w) = BitVec.ofNat 32 (b + stride) ∧
      (drawRow pixels k d).pixelIdx = BitVec.ofNat 32 (p + k) := by
  obtain ⟨hPixel, hBuffer⟩ := drawRow_idx pixels k d
  rw [hPixel, hBuffer, hd, hp, hWidth, hw, BitVec.ofNat_add p k]
  exact ⟨row_start b k stride, rfl⟩

theorem drawRows_outside {width w : Word} (hd : d.bufferIdx = BitVec.ofNat 32 b)
    (hWidth : width = BitVec.ofNat 32 stride) (hw : w = BitVec.ofNat 32 k) (hk : w.toInt.toNat = k)
    (ha : ∀ r j, r < i → j < k → a ≠ fbWord (b + r * stride + j)) :
    (drawRows pixels width w i d).io a = d.io a := by
  induction i generalizing d b with
  | zero => rfl
  | succ i ih =>
      have hRow : (drawRow pixels k d).io a = d.io a := by
        apply drawRow_outside hd
        intro j hj
        have hFirst := ha 0 j (by omega) hj
        rwa [Nat.zero_mul, Nat.add_zero] at hFirst
      have hp : d.pixelIdx = BitVec.ofNat 32 d.pixelIdx.toNat := by simp
      have hNext := (drawRow_next pixels hd hp hWidth hw).1
      rw [drawRows, hk]
      refine (ih (b := b + stride) hNext ?_).trans hRow
      intro r j hr hj
      have hLater := ha (r + 1) j (by omega) hj
      rwa [Nat.succ_mul, Nat.add_comm (r * stride), ← Nat.add_assoc] at hLater

/-- Row after row, when the rows do not run into each other. -/
theorem drawRows_at (pixels : Word → Word) {width w : Word}
    (hd : d.bufferIdx = BitVec.ofNat 32 b) (hp : d.pixelIdx = BitVec.ofNat 32 p)
    (hWidth : width = BitVec.ofNat 32 stride)
    (hw : w = BitVec.ofNat 32 k) (hk : w.toInt.toNat = k) (hLe : i = 1 ∨ k ≤ stride)
    (hFit : b + (i - 1) * stride + k ≤ 2 ^ 30) (hr : r < i) (hj : j < k) :
    (drawRows pixels width w i d).io (fbWord (b + r * stride + j)) =
      pixels (BitVec.ofNat 32 (p + r * k + j)) := by
  induction i generalizing d b p r with
  | zero => omega
  | succ i ih =>
      have hNext := drawRow_next pixels hd hp hWidth hw
      rw [Nat.add_sub_cancel] at hFit
      rw [drawRows, hk]
      cases r with
      | zero =>
          have hFirst := drawRow_at pixels hd hp (by omega) hj
          rw [Nat.zero_mul, Nat.zero_mul, Nat.add_zero, Nat.add_zero, ← hFirst]
          apply drawRows_outside hNext.1 hWidth hw hk
          intro r j' hr hj' hEq
          have hLast : r * stride + stride ≤ i * stride := by
            rw [← Nat.succ_mul]
            exact Nat.mul_le_mul_right stride hr
          have hInj := fbWord_inj (by omega) (by omega) hEq
          omega
      | succ r =>
          have hSplit : i * stride = (i - 1) * stride + stride := by
            rw [← Nat.succ_mul]
            congr 1
            omega
          have hB : b + (r + 1) * stride + j = b + stride + r * stride + j := by
            rw [Nat.succ_mul]
            omega
          have hP : p + (r + 1) * k + j = p + k + r * k + j := by
            rw [Nat.succ_mul]
            omega
          rw [hB, hP]
          exact ih hNext.1 hNext.2 (by omega) (by omega) (by omega)

/-! ## Drawing -/

/-- Width and height of the screen that `AM_GPU_CONFIG` reports. -/
def Device.width (dev : Device) : Nat := (amGpuConfig dev).width.toNat

/-- The height of the screen in rows. -/
def Device.height (dev : Device) : Nat := (amGpuConfig dev).height.toNat

/-- The frame buffer ends before the address space does. -/
def FbFits (dev : Device) : Prop := FB_ADDR.toNat + 4 * (dev.width * dev.height) ≤ 2 ^ 32

instance (dev : Device) : Decidable (FbFits dev) := by
  unfold FbFits
  infer_instance

/-- The block lies inside the screen. -/
structure InScreen (dev : Device) (ctl : AmGpuFbdraw) : Prop where
  x : 0 ≤ ctl.x.toInt
  y : 0 ≤ ctl.y.toInt
  w : 0 ≤ ctl.w.toInt
  h : 0 ≤ ctl.h.toInt
  right : ctl.x.toInt + ctl.w.toInt ≤ dev.width
  bottom : ctl.y.toInt + ctl.h.toInt ≤ dev.height

/-- The word of the pixel `(x, y)`. -/
def pixelWord (dev : Device) (x y : Nat) : Word := fbWord (y * dev.width + x)

/-- The words of the block are its pixels, and the others are as they were. -/
structure Drawn (dev : Device) (ctl : AmGpuFbdraw) (s s' : Ioe) : Prop where
  block : ∀ i j, i < ctl.h.toNat → j < ctl.w.toNat →
    s'.io (pixelWord dev (ctl.x.toNat + j) (ctl.y.toNat + i)) =
      ctl.pixels (BitVec.ofNat 32 (i * ctl.w.toNat + j))
  rest : ∀ x y, x < dev.width → y < dev.height →
    ¬ (ctl.x.toNat ≤ x ∧ x < ctl.x.toNat + ctl.w.toNat ∧
      ctl.y.toNat ≤ y ∧ y < ctl.y.toNat + ctl.h.toNat) →
    s'.io (pixelWord dev x y) = s.io (pixelWord dev x y)

/-- The block, in natural numbers. -/
theorem InScreen.toNat (h : InScreen dev ctl) :
    ctl.x.toNat + ctl.w.toNat ≤ dev.width ∧ ctl.y.toNat + ctl.h.toNat ≤ dev.height ∧
      ctl.w.toInt.toNat = ctl.w.toNat ∧ ctl.h.toInt.toNat = ctl.h.toNat := by
  have hx := SignedWord.toInt_of_nonneg h.x
  have hy := SignedWord.toInt_of_nonneg h.y
  have hw := SignedWord.toInt_of_nonneg h.w
  have hh := SignedWord.toInt_of_nonneg h.h
  have hRight := h.right
  have hBottom := h.bottom
  omega

/-- A pixel of the screen, by its place in the frame buffer. -/
theorem place_lt {x y : Nat} (hx : x < dev.width) (hy : y < dev.height) :
    y * dev.width + x < dev.width * dev.height :=
  Picture.index_lt hx hy

theorem FbFits.lt (h : FbFits dev) {n : Nat} (hn : n < dev.width * dev.height) : n < 2 ^ 30 := by
  unfold FbFits at h
  omega

/-- The registers below are not in the frame buffer. -/
theorem FbFits.ne (h : FbFits dev) (hn : n < dev.width * dev.height)
    (ha : a.toNat < FB_ADDR.toNat) : fbWord n ≠ a := by
  unfold FbFits at h
  have hWord : (fbWord n).toNat = _ := toNat_fbWord (by omega)
  intro hEq
  rw [hEq] at hWord
  omega

/-- What the loops leave in a word of the frame buffer. -/
theorem amGpuFbdraw_io (h : FbFits dev) (hn : n < dev.width * dev.height) :
    (amGpuFbdraw ctl s).io (fbWord n) =
      (drawRows ctl.pixels s.gpu.width ctl.w ctl.h.toInt.toNat
        { pixelIdx := 0, bufferIdx := ctl.y * s.gpu.width + ctl.x, io := s.io }).io (fbWord n) := by
  unfold amGpuFbdraw
  cases ctl.sync with
  | false => rfl
  | true => exact Function.update_of_ne (h.ne hn (by decide)) _ _

theorem word_toNat (v : Word) : v = BitVec.ofNat 32 v.toNat := by simp

/-- The cached width, once `__am_gpu_init` has run. -/
theorem cfg_width (hInit : s.gpu = amGpuConfig dev) :
    s.gpu.width = BitVec.ofNat 32 dev.width := by
  rw [hInit]
  exact word_toNat _

theorem start_idx {width : Word} (hWidth : width = BitVec.ofNat 32 stride) :
    ctl.y * width + ctl.x = BitVec.ofNat 32 (ctl.y.toNat * stride + ctl.x.toNat) := by
  rw [hWidth, BitVec.ofNat_add, BitVec.ofNat_mul]
  simp

/-- With a cached width that puts every row of the block where it belongs. -/
theorem drawn_of_stride (stride : Nat) (hFits : FbFits dev) (hIn : InScreen dev ctl)
    (hWidth : s.gpu.width = BitVec.ofNat 32 stride)
    (hRows : ∀ i, i < ctl.h.toNat → 0 < ctl.w.toNat →
      (ctl.y.toNat + i) * stride = (ctl.y.toNat + i) * dev.width)
    (hLe : ctl.h.toNat ≤ 1 ∨ ctl.w.toNat ≤ stride) : Drawn dev ctl s (amGpuFbdraw ctl s) := by
  obtain ⟨hRight, hBottom, hw, hh⟩ := hIn.toNat
  -- the place of pixel `(j, i)` of the block
  have hPlace : ∀ i j, i < ctl.h.toNat → 0 < ctl.w.toNat →
      ctl.y.toNat * stride + ctl.x.toNat + i * stride + j =
        (ctl.y.toNat + i) * dev.width + (ctl.x.toNat + j) := by
    intro i j hi hw
    rw [← hRows i hi hw, Nat.add_mul]
    omega
  constructor
  · intro i j hi hj
    have hLast : (ctl.y.toNat + (ctl.h.toNat - 1)) * dev.width + (ctl.x.toNat + (ctl.w.toNat - 1)) <
        dev.width * dev.height := place_lt (by omega) (by omega)
    have hFit := hFits.lt hLast
    have hEnd := hPlace (ctl.h.toNat - 1) (ctl.w.toNat - 1) (by omega) (by omega)
    have hAt := drawRows_at ctl.pixels (i := ctl.h.toNat) (r := i) (j := j)
      (d := { pixelIdx := 0, bufferIdx := ctl.y * s.gpu.width + ctl.x, io := s.io })
      (start_idx hWidth) (p := 0) rfl hWidth (word_toNat ctl.w) hw
      (by omega) (by omega) hi hj
    unfold pixelWord
    rw [amGpuFbdraw_io hFits (place_lt (by omega) (by omega)), hh, ← hPlace i j hi (by omega), hAt,
      Nat.zero_add]
  · intro x y hx hy hOut
    unfold pixelWord
    rw [amGpuFbdraw_io hFits (place_lt hx hy), hh]
    apply drawRows_outside (start_idx hWidth) hWidth (word_toNat ctl.w) hw
    intro r j hr hj hEq
    rw [hPlace r j hr (by omega)] at hEq
    have hSame := fbWord_inj (hFits.lt (place_lt hx hy))
      (hFits.lt (place_lt (by omega) (by omega))) hEq
    obtain ⟨rfl, rfl⟩ := Picture.index_inj hx (by omega) hSame
    exact hOut (by omega)

/-- After `__am_gpu_init` every block is drawn. -/
theorem drawn_initialised (hFits : FbFits dev) (hIn : InScreen dev ctl)
    (hInit : s.gpu = amGpuConfig dev) : Drawn dev ctl s (amGpuFbdraw ctl s) := by
  have hRight := hIn.toNat.1
  apply drawn_of_stride dev.width hFits hIn
  · exact cfg_width hInit
  · exact fun _ _ _ => rfl
  · exact Or.inr (by omega)

/-- With width 0 cached, the last row of the block is not drawn, unless it is the
first row of the screen. -/
theorem last_row_kept (ctl : AmGpuFbdraw) (hFits : FbFits dev) (hIn : InScreen dev ctl)
    (hWidth : s.gpu.width = 0)
    (hw : 0 < ctl.w.toNat) (hLast : 0 < ctl.y.toNat + (ctl.h.toNat - 1)) (hh : 0 < ctl.h.toNat) :
    (amGpuFbdraw ctl s).io (pixelWord dev ctl.x.toNat (ctl.y.toNat + (ctl.h.toNat - 1))) =
      s.io (pixelWord dev ctl.x.toNat (ctl.y.toNat + (ctl.h.toNat - 1))) := by
  obtain ⟨hRight, hBottom, hw', hh'⟩ := hIn.toNat
  have hPlace : (ctl.y.toNat + (ctl.h.toNat - 1)) * dev.width + ctl.x.toNat <
      dev.width * dev.height := place_lt (by omega) (by omega)
  have hBelow : 1 * dev.width ≤ (ctl.y.toNat + (ctl.h.toNat - 1)) * dev.width :=
    Nat.mul_le_mul_right _ hLast
  have hFit := hFits.lt hPlace
  unfold pixelWord
  rw [amGpuFbdraw_io hFits hPlace]
  have hZero : s.gpu.width = BitVec.ofNat 32 0 := hWidth
  apply drawRows_outside (start_idx hZero) hZero (word_toNat ctl.w) hw'
  intro r j hr hj hEq
  rw [Nat.mul_zero, Nat.mul_zero] at hEq
  have hSame := fbWord_inj hFit (by omega) hEq
  omega

/--
**Drawing after start-up.** Whatever ran since `ioe_init` and whatever is on the
screen, the block is drawn, if and only if it has no pixels or is a part of the
first row of the screen.
-/
theorem fbdraw_iff (dev : Device) (ctl : AmGpuFbdraw) (hFits : FbFits dev)
    (hIn : InScreen dev ctl) :
    (∀ s, programs.Reachable s → Drawn dev ctl s (amGpuFbdraw ctl s)) ↔
      ctl.w = 0 ∨ ctl.h = 0 ∨ ctl.y = 0 ∧ ctl.h = 1 := by
  obtain ⟨hRight, hBottom, -, -⟩ := hIn.toNat
  constructor
  · intro hAll
    by_contra hNot
    simp only [not_or, not_and, ← BitVec.toNat_inj] at hNot
    obtain ⟨hw, hh, hTop⟩ := hNot
    have hOne : (1 : Word).toNat = 1 := rfl
    have hNone : (0 : Word).toNat = 0 := rfl
    rw [hNone] at hw hh hTop
    rw [hOne] at hTop
    -- the screen shows another colour than the first pixel of the last row
    let v := ctl.pixels (BitVec.ofNat 32 ((ctl.h.toNat - 1) * ctl.w.toNat + 0))
    let s := ioeInit (loaded (fun _ => 0) 0 (fun _ => v + 1))
    have hReach : programs.Reachable s :=
      ⟨s, ⟨_, _, _, rfl⟩, System.Run.refl s⟩
    have hDrawn := (hAll s hReach).block (ctl.h.toNat - 1) 0 (by omega) (by omega)
    have hKept := last_row_kept ctl hFits hIn (unset_reachable hReach).width (by omega)
      (by omega) (by omega)
    have hPlace : (ctl.y.toNat + (ctl.h.toNat - 1)) * dev.width + ctl.x.toNat <
        dev.width * dev.height := place_lt (by omega) (by omega)
    have hOld : s.io (pixelWord dev ctl.x.toNat (ctl.y.toNat + (ctl.h.toNat - 1))) = v + 1 := by
      have hRtc := hFits.ne (a := RTC_ADDR) hPlace (by decide)
      have hRtc' := hFits.ne (a := RTC_ADDR + 4) hPlace (by decide)
      exact (Function.update_of_ne hRtc' _ _).trans (Function.update_of_ne hRtc _ _)
    rw [Nat.add_zero, hKept, hOld] at hDrawn
    have hNe : v + 1 ≠ v := by
      intro hEq
      have hNat := congrArg BitVec.toNat hEq
      rw [BitVec.toNat_add, hOne] at hNat
      omega
    exact hNe hDrawn
  · intro hCond s hReach
    apply drawn_of_stride 0 hFits hIn (unset_reachable hReach).width
    · intro i hi hw
      rcases hCond with h0 | h0 | ⟨hy, hh⟩
      · rw [h0] at hw
        cases hw
      · rw [h0] at hi
        cases hi
      · rw [hh] at hi
        have hFirst : i = 0 := Nat.lt_one_iff.mp hi
        simp [hy, hFirst]
    · rcases hCond with h0 | h0 | ⟨-, hh⟩
      · exact Or.inr (by rw [h0]; exact Nat.le_refl 0)
      · exact Or.inl (by rw [h0]; exact Nat.zero_le 1)
      · exact Or.inl (by rw [hh]; exact Nat.le_refl 1)

/-- A screen of 400 x 300. -/
def screen : Device := { vgactl := 0x0190012c, sbufSize := 0x10000 }

/-- Two pixels of one colour, one above the other or side by side. -/
def twoPixels (w h : Word) : AmGpuFbdraw :=
  { x := 10, y := 0, pixels := fun _ => 0xff, w := w, h := h, sync := true }

theorem fbdraw_iff_row :
    (∀ s, programs.Reachable s →
        Drawn screen (twoPixels 2 1) s (amGpuFbdraw (twoPixels 2 1) s)) ↔
      (twoPixels 2 1).w = 0 ∨ (twoPixels 2 1).h = 0 ∨
        (twoPixels 2 1).y = 0 ∧ (twoPixels 2 1).h = 1 :=
  fbdraw_iff screen (twoPixels 2 1) (by decide) ⟨by decide, by decide, by decide, by decide,
    by decide, by decide⟩

/-- The second pixel of a column is not drawn. -/
theorem fbdraw_column :
    InScreen screen (twoPixels 1 2) ∧
      ∃ s, programs.Reachable s ∧
        ¬ Drawn screen (twoPixels 1 2) s (amGpuFbdraw (twoPixels 1 2) s) := by
  have hIn : InScreen screen (twoPixels 1 2) :=
    ⟨by decide, by decide, by decide, by decide, by decide, by decide⟩
  have hReach : programs.Reachable (ioeInit (loaded (fun _ => 0) 0 (fun _ => 0))) :=
    ⟨_, ⟨_, _, _, rfl⟩, System.Run.refl _⟩
  have hFits : FbFits screen := by decide
  refine ⟨hIn, _, hReach, ?_⟩
  intro hDrawn
  have hPixel := hDrawn.block 1 0 (by decide) (by decide)
  have hKept := last_row_kept (twoPixels 1 2) hFits hIn
    (unset_reachable hReach).width (by decide) (by decide) (by decide)
  have hBlack : (0xff : Word) = 0 := hPixel.symm.trans hKept
  revert hBlack
  decide

end AbstractMachine.Nemu
