import KushOs.Foundation.BlockMemory
import KushOs.Kernel.Console.Termination

/-!
# Scrolling

A newline on the last character row moves the rows below the first five to the top, with one
`memcpy`, and clears the five rows behind them. `memcpy` copies forward and in words where it can,
and it panics when the two blocks overlap, so that a screen with more than ten character rows cannot
be scrolled.

## Main definitions

* `copyForward`: the loops of `memcpy`.
* `Console.screen`: the content of memory after the stores of the console.

## Main results

* `copyForward_eq`: blocks that are apart are copied.
* `scrolling`: the screens that are scrolled.
-/

namespace KushOs.FbCons

open BlockMemory

/-! ## The loops of `memcpy` -/

/-- `wsize`. -/
def wsize : BitVec 64 := 8

/-- `wmask`. -/
def wmask : BitVec 64 := wsize - 1

/-- The turns of a loop that counts down to zero and tests after each turn. -/
def turns (t : BitVec 64) : ℕ := if t = 0 then 2 ^ 64 else t.toNat

/-- The end of `memcpy`: whole words, and the bytes behind them. -/
def copyWords (dst src length : BitVec 64) (m : BitVec 64 → BitVec 8) : BitVec 64 → BitVec 8 :=
  let (dst, src, m) := copyLoop 8 (length / wsize).toNat dst src m
  (copyLoop 1 (length &&& wmask).toNat dst src m).2.2

/-- The part of `memcpy` behind its tests, on memory. The bytes up to an aligned address are copied
first, or all bytes if the addresses cannot both be aligned. -/
def copyForward (dst src length : BitVec 64) (m : BitVec 64 → BitVec 8) : BitVec 64 → BitVec 8 :=
  if (src ||| dst) &&& wmask ≠ 0 then
    let t :=
      if (src ^^^ dst) &&& wmask ≠ 0 ∨ length < wsize then length else wsize - (src &&& wmask)
    let (dst, src, m) := copyLoop 1 (turns t) dst src m
    copyWords dst src (length - t) m
  else copyWords dst src length m

/-- The low bits of a size are what whole words leave. -/
theorem toNat_and_wmask (size : BitVec 64) : (size &&& wmask).toNat = size.toNat % 8 := by
  rw [BitVec.toNat_and]
  exact Nat.and_two_pow_sub_one_eq_mod _ 3

/-- Whole words, and the rest. -/
theorem copyWords_eq {dst src length : BitVec 64} (m : BitVec 64 → BitVec 8)
    (h : Apart length.toNat dst src) :
    copyWords dst src length m = copy length.toNat dst src m := by
  have hlt : length.toNat < 2 ^ 64 := length.isLt
  have hwords : (length / wsize).toNat = length.toNat / 8 := BitVec.toNat_udiv
  have hrest := toNat_and_wmask length
  have hsplit : (length / wsize).toNat * 8 + (length &&& wmask).toNat * 1 = length.toNat := by
    omega
  rw [← hsplit] at h
  rw [copyWords, copyLoop_eq m (h.of_le (by omega)) (by omega)]
  dsimp only
  rw [copyLoop_eq _ ((h.of_le (by omega)).shift _) (by omega), copy_copy m h (by omega), hsplit]

/-- Blocks that are apart are copied. -/
theorem copyForward_eq {dst src length : BitVec 64} (m : BitVec 64 → BitVec 8)
    (hlength : length ≠ 0) (h : Apart length.toNat dst src) :
    copyForward dst src length m = copy length.toNat dst src m := by
  have hlt : length.toNat < 2 ^ 64 := length.isLt
  by_cases hlow : (src ||| dst) &&& wmask ≠ 0
  · rw [copyForward, if_pos hlow]
    generalize ht : (if (src ^^^ dst) &&& wmask ≠ 0 ∨ length < wsize then length
      else wsize - (src &&& wmask)) = t
    -- the bytes before the words: at least one, and not more than there are
    have hbytes : 0 < t.toNat ∧ t.toNat ≤ length.toNat := by
      have hpos : length.toNat ≠ 0 := fun h0 => hlength (BitVec.eq_of_toNat_eq h0)
      have hwsize : wsize.toNat = 8 := rfl
      have hlowBits := toNat_and_wmask src
      rw [← ht]
      split
      · omega
      · rename_i haligned
        have hlong : wsize.toNat ≤ length.toNat :=
          BitVec.le_def.mp (BitVec.not_lt.mp (not_or.mp haligned).2)
        rw [BitVec.toNat_sub_of_le (BitVec.le_def.mpr (by omega))]
        omega
    have hturns : turns t = t.toNat := by
      rw [turns, if_neg (by rintro rfl; simp at hbytes)]
    have hlength' : (length - t).toNat = length.toNat - t.toNat :=
      BitVec.toNat_sub_of_le (BitVec.le_def.mpr hbytes.2)
    have hsplit : t.toNat * 1 + (length - t).toNat = length.toNat := by omega
    rw [← hsplit] at h
    dsimp only
    rw [hturns, copyLoop_eq m (h.of_le (by omega)) (by omega)]
    dsimp only
    rw [copyWords_eq _ ((h.of_le (by omega)).shift _), copy_copy m h (by omega), hsplit]
  · rw [copyForward, if_neg hlow]
    exact copyWords_eq m h

/-! ## The content of the screen -/

/-- Byte `j` of a pixel value in memory. -/
def pixelByte (value : BitVec 32) (j : ℕ) : BitVec 8 := value.extractLsb' (8 * j) 8

/-- What an access to the framebuffer does to memory. -/
def FbWrite.apply (m : BitVec 64 → BitVec 8) : FbWrite → BitVec 64 → BitVec 8
  | .pixel addr value => store 4 (pixelByte value) addr m
  | .copy dst src length => copyForward dst src length m

/-- A pixel of memory has a value. -/
def HasPixel (m : BitVec 64 → BitVec 8) (addr : BitVec 64) (value : BitVec 32) : Prop :=
  ∀ j < 4, m (addr + BitVec.ofNat 64 j) = pixelByte value j

/-- A row of pixels of one colour is a block. -/
theorem apply_fillRow (value : BitVec 32) {n : ℕ} (hn : 4 * n ≤ 2 ^ 64) (ptr : BitVec 64)
    (m : BitVec 64 → BitVec 8) :
    (fillRow value n ptr).foldl FbWrite.apply m =
      store (4 * n) (fun i => pixelByte value (i % 4)) ptr m := by
  induction n generalizing ptr m with
  | zero => exact (store_zero _ _ _).symm
  | succ n ih =>
      rw [fillRow, List.foldl_cons, ih (by omega), Nat.mul_succ, Nat.add_comm (4 * n),
        ← store_store _ ptr m (by omega)]
      have hfirst : store 4 (pixelByte value) ptr m =
          store 4 (fun i => pixelByte value (i % 4)) ptr m :=
        store_congr (fun i hi => by rw [Nat.mod_eq_of_lt hi]) _ _
      have hrest : (fun i => pixelByte value (i % 4)) = fun i => pixelByte value ((4 + i) % 4) := by
        ext i
        rw [Nat.add_mod_left]
      rw [FbWrite.apply, hfirst]
      exact congrArg (fun f => store (4 * n) f (ptr + 4) _) hrest

section FillRows

variable (value : BitVec 32) {width stride rows : ℕ} (base : BitVec 64) {p i : ℕ}
variable (m : BitVec 64 → BitVec 8)

/-- Rows of pixels change nothing before and behind them. -/
theorem apply_fillRows_of_outside (hwidth : 4 * width ≤ stride)
    (hspace : p + rows * stride ≤ 2 ^ 64) (hi : i < 2 ^ 64)
    (hout : i < p ∨ p + rows * stride ≤ i) :
    (fillRows value width stride rows (base + BitVec.ofNat 64 p)).foldl FbWrite.apply m
      (base + BitVec.ofNat 64 i) = m (base + BitVec.ofNat 64 i) := by
  induction rows generalizing p m with
  | zero => rfl
  | succ rows ih =>
      rw [Nat.succ_mul] at hspace hout
      rw [fillRows, List.foldl_append, BitVec.add_assoc, ← BitVec.ofNat_add,
        ih _ (by omega) (by omega), apply_fillRow value (by omega),
        store_offset _ base m (by omega) hi, if_neg (by omega)]

/-- The pixels of a row hold the colour. -/
theorem apply_fillRows (hwidth : 4 * width ≤ stride) (hspace : p + rows * stride ≤ 2 ^ 64)
    {r k : ℕ} (hr : r < rows) (hk : k < 4 * width) :
    (fillRows value width stride rows (base + BitVec.ofNat 64 p)).foldl FbWrite.apply m
      (base + BitVec.ofNat 64 (p + r * stride + k)) = pixelByte value (k % 4) := by
  induction rows generalizing p r m with
  | zero => exact absurd hr (Nat.not_lt_zero r)
  | succ rows ih =>
      rw [Nat.succ_mul] at hspace
      rw [fillRows, List.foldl_append, BitVec.add_assoc, ← BitVec.ofNat_add]
      cases r with
      | zero =>
          -- the rows below leave the first row alone
          rw [apply_fillRows_of_outside value base _ hwidth (by omega) (by omega) (by omega),
            apply_fillRow value (by omega), store_offset _ base m (by omega) (by omega),
            if_pos (by omega)]
          congr 1
          omega
      | succ r =>
          have hoffset : p + (r + 1) * stride + k = p + stride + r * stride + k := by
            rw [Nat.succ_mul]
            omega
          rw [hoffset]
          exact ih _ (by omega) (Nat.lt_of_succ_lt_succ hr)

end FillRows

namespace Console

variable (fb : Framebuffer) {s t : Console}

/-- The content of memory after the stores of the console. -/
def screen (s : Console) (m : BitVec 64 → BitVec 8) : BitVec 64 → BitVec 8 :=
  s.stores.foldl FbWrite.apply m

/-- The screen has been scrolled by `kScrollAmount` character rows, whatever was on it. -/
structure Scrolled (s t : Console) : Prop where
  /-- The remaining rows hold what stood below. -/
  moved : ∀ m, ∀ y < fb.font.height * (fb.charRows - kScrollAmount), ∀ k < fb.bufferStride,
    t.screen m (fb.rowAddr y + BitVec.ofNat 64 k) =
      s.screen m (fb.rowAddr (y + fb.font.height * kScrollAmount) + BitVec.ofNat 64 k)
  /-- The last rows are filled with the background colour. -/
  cleared : ∀ m, ∀ y < fb.font.height * fb.charRows,
    fb.font.height * (fb.charRows - kScrollAmount) ≤ y → ∀ x < fb.width,
    HasPixel (t.screen m) (fb.rowAddr y + BitVec.ofNat 64 (4 * x)) s.colors.background
  /-- The pixel rows below the last character row are as before. -/
  below : ∀ m, ∀ y < fb.height, fb.font.height * fb.charRows ≤ y → ∀ k < fb.bufferStride,
    t.screen m (fb.rowAddr y + BitVec.ofNat 64 k) = s.screen m (fb.rowAddr y + BitVec.ofNat 64 k)
  cursorCol : t.cursorCol = 0
  cursorRow : t.cursorRow = fb.charRows - kScrollAmount

/-- A newline scrolls the screen. -/
def Scrolls (s : Console) : Prop := ∃ t, s.newLine fb = .ok t ∧ Scrolled fb s t

/-- Moving a block down in memory that does not wrap around: it must not be longer than the
distance. -/
theorem memcpy_down {base : BitVec 64} {distance length : ℕ} (hdistance : 0 < distance)
    (hlength : 0 < length) (hspace : base.toNat + distance + length ≤ 2 ^ 64) :
    memcpy base (base + BitVec.ofNat 64 distance) (BitVec.ofNat 64 length) =
      if length ≤ distance then
        .ok [.copy base (base + BitVec.ofNat 64 distance) (BitVec.ofNat 64 length)]
      else .error .panic := by
  have hsrc : (base + BitVec.ofNat 64 distance).toNat = base.toNat + distance := by
    rw [BitVec.toNat_add, BitVec.toNat_ofNat]
    omega
  have hend : (base + BitVec.ofNat 64 length).toNat = base.toNat + length := by
    rw [BitVec.toNat_add, BitVec.toNat_ofNat]
    omega
  have hwork : ¬(BitVec.ofNat 64 length = 0 ∨ base = base + BitVec.ofNat 64 distance) := by
    rintro (hzero | heq)
    · have h := congrArg BitVec.toNat hzero
      rw [BitVec.toNat_ofNat, Nat.mod_eq_of_lt (by omega)] at h
      exact absurd h (by simpa using hlength.ne')
    · have h := congrArg BitVec.toNat heq
      omega
  rw [memcpy, if_neg hwork]
  -- the destination is below the source, so the blocks overlap if it ends above it
  simp only [BitVec.lt_def, hsrc, hend]
  by_cases hle : length ≤ distance
  · rw [if_neg (by omega), if_pos hle]
  · rw [if_pos (by omega), if_neg hle]

/-- A newline on the last character row, in terms of the position where the cleared rows start. -/
theorem newLine_last (hrows : kScrollAmount < fb.charRows) (hlast : s.cursorRow + 1 = fb.charRows) :
    s.newLine fb = (do
      let moved ← memcpy fb.buffer
        (fb.buffer + BitVec.ofNat 64 (fb.font.height * kScrollAmount * fb.bufferStride))
        (BitVec.ofNat 64 (fb.font.height * (fb.charRows - kScrollAmount) * fb.bufferStride))
      return { s with
        stores := s.stores ++ moved ++
          fillRows s.colors.background fb.width fb.bufferStride (fb.font.height * kScrollAmount)
            (fb.buffer +
              BitVec.ofNat 64 (fb.font.height * (fb.charRows - kScrollAmount) * fb.bufferStride))
        cursorCol := 0
        cursorRow := fb.charRows - kScrollAmount }) := by
  have hheight := fb.height_lt
  have hgrid : 16 * fb.charRows ≤ fb.height := fb.grid_le.2
  have hmod : (s.cursorRow + 1) % 2 ^ 64 = fb.charRows := by
    rw [hlast, Nat.mod_eq_of_lt (by omega)]
  have hsub : sizeSub fb.charRows kScrollAmount = fb.charRows - kScrollAmount :=
    sizeSub_of_le hrows.le (by omega)
  have hmoved : fb.bufferStride * (fb.charRows - kScrollAmount) * fb.font.height =
      fb.font.height * (fb.charRows - kScrollAmount) * fb.bufferStride := by ring
  unfold newLine
  simp only [hmod, hsub, hmoved, if_true, Nat.mul_comm kScrollAmount]

/-- A screen without bytes has nothing to scroll. -/
theorem scrolls_of_stride_eq_zero (hrows : kScrollAmount < fb.charRows)
    (hwidth : 4 * fb.width ≤ fb.bufferStride) (hlast : s.cursorRow + 1 = fb.charRows)
    (hstride : fb.bufferStride = 0) : Scrolls fb s := by
  have hnothing : fb.width = 0 := by omega
  unfold Scrolls
  rw [newLine_last fb hrows hlast, hstride]
  refine ⟨_, rfl, ?_, ?_, ?_, rfl, rfl⟩
  · intro m y hy k hk
    omega
  · intro m y hy hle x hx
    omega
  · intro m y hy hle k hk
    omega

/-- A byte of a row of pixels. -/
theorem rowAddr_add (y k : ℕ) :
    fb.rowAddr y + BitVec.ofNat 64 k = fb.buffer + BitVec.ofNat 64 (y * fb.bufferStride + k) := by
  rw [Framebuffer.rowAddr, BitVec.add_assoc, ← BitVec.ofNat_add]

/-- The rows that stay, and the rows that are cleared behind them. -/
theorem scroll_rows (hrows : kScrollAmount < fb.charRows) :
    fb.font.height * (fb.charRows - kScrollAmount) + fb.font.height * kScrollAmount =
      fb.font.height * fb.charRows := by
  rw [← Nat.mul_add, Nat.sub_add_cancel hrows.le]

/-- Where they end in memory. -/
theorem scroll_ends (hrows : kScrollAmount < fb.charRows) :
    fb.font.height * (fb.charRows - kScrollAmount) * fb.bufferStride +
        fb.font.height * kScrollAmount * fb.bufferStride =
      fb.font.height * fb.charRows * fb.bufferStride ∧
    fb.font.height * fb.charRows * fb.bufferStride ≤ fb.bufferStride * fb.height := by
  rw [← Nat.add_mul, scroll_rows fb hrows, Nat.mul_comm fb.bufferStride]
  exact ⟨rfl, Nat.mul_le_mul_right _ fb.grid_le.2⟩

/-- The move of the rows that stay: its two blocks do not overlap on a screen with at most ten
character rows. -/
theorem memcpy_scroll (hrows : kScrollAmount < fb.charRows)
    (hspace : fb.buffer.toNat + fb.bufferStride * fb.height ≤ 2 ^ 64)
    (hstride : 0 < fb.bufferStride) :
    memcpy fb.buffer
        (fb.buffer + BitVec.ofNat 64 (fb.font.height * kScrollAmount * fb.bufferStride))
        (BitVec.ofNat 64 (fb.font.height * (fb.charRows - kScrollAmount) * fb.bufferStride)) =
      if fb.charRows ≤ 2 * kScrollAmount then
        .ok [.copy fb.buffer
          (fb.buffer + BitVec.ofNat 64 (fb.font.height * kScrollAmount * fb.bufferStride))
          (BitVec.ofNat 64 (fb.font.height * (fb.charRows - kScrollAmount) * fb.bufferStride))]
      else .error .panic := by
  have hscroll : kScrollAmount = 5 := rfl
  have hfont : fb.font.height = 16 := rfl
  obtain ⟨hends, hlast⟩ := scroll_ends fb hrows
  have hdistance : 0 < fb.font.height * kScrollAmount := by
    rw [hfont]
    omega
  have hmoved : 0 < fb.font.height * (fb.charRows - kScrollAmount) := by
    rw [hfont]
    omega
  rw [memcpy_down (Nat.mul_pos hdistance hstride) (Nat.mul_pos hmoved hstride) (by omega)]
  -- the rows that stay are at most as many as the ones that are scrolled off
  congr 1
  rw [eq_iff_iff, Nat.mul_le_mul_right_iff hstride, hfont]
  omega

/-- The console after scrolling. -/
def scrolled (s : Console) : Console :=
  { s with
    stores := s.stores ++
      [.copy fb.buffer
        (fb.buffer + BitVec.ofNat 64 (fb.font.height * kScrollAmount * fb.bufferStride))
        (BitVec.ofNat 64 (fb.font.height * (fb.charRows - kScrollAmount) * fb.bufferStride))] ++
      fillRows s.colors.background fb.width fb.bufferStride (fb.font.height * kScrollAmount)
        (fb.buffer +
          BitVec.ofNat 64 (fb.font.height * (fb.charRows - kScrollAmount) * fb.bufferStride))
    cursorCol := 0
    cursorRow := fb.charRows - kScrollAmount }

/-- The content of memory after scrolling: a block that was copied, and cleared rows. -/
theorem screen_scrolled (hrows : kScrollAmount < fb.charRows)
    (hspace : fb.bufferStride * fb.height ≤ 2 ^ 64) (hstride : 0 < fb.bufferStride)
    (hle : fb.charRows ≤ 2 * kScrollAmount) (m : BitVec 64 → BitVec 8) :
    (s.scrolled fb).screen m =
      (fillRows s.colors.background fb.width fb.bufferStride (fb.font.height * kScrollAmount)
        (fb.buffer + BitVec.ofNat 64
          (fb.font.height * (fb.charRows - kScrollAmount) * fb.bufferStride))).foldl FbWrite.apply
        (copy (fb.font.height * (fb.charRows - kScrollAmount) * fb.bufferStride) fb.buffer
          (fb.buffer + BitVec.ofNat 64 (fb.font.height * kScrollAmount * fb.bufferStride))
          (s.screen m)) := by
  have hscroll : kScrollAmount = 5 := rfl
  have hfont : fb.font.height = 16 := rfl
  obtain ⟨hends, hlast⟩ := scroll_ends fb hrows
  have hmoved : 0 < fb.font.height * (fb.charRows - kScrollAmount) * fb.bufferStride :=
    Nat.mul_pos (by rw [hfont]; omega) hstride
  have hdistance : fb.font.height * (fb.charRows - kScrollAmount) * fb.bufferStride ≤
      fb.font.height * kScrollAmount * fb.bufferStride :=
    Nat.mul_le_mul_right _ (by rw [hfont]; omega)
  -- no byte is read that was written before
  have hapart : ∀ i < fb.font.height * (fb.charRows - kScrollAmount) * fb.bufferStride,
      fb.font.height * (fb.charRows - kScrollAmount) * fb.bufferStride ≤
        (fb.buffer + BitVec.ofNat 64 (fb.font.height * kScrollAmount * fb.bufferStride) +
          BitVec.ofNat 64 i - fb.buffer).toNat := by
    intro i hi
    rw [BitVec.add_assoc, ← BitVec.ofNat_add, add_sub_cancel_left, BitVec.toNat_ofNat,
      Nat.mod_eq_of_lt (by omega)]
    omega
  have hlength : (BitVec.ofNat 64
      (fb.font.height * (fb.charRows - kScrollAmount) * fb.bufferStride)).toNat =
        fb.font.height * (fb.charRows - kScrollAmount) * fb.bufferStride := by
    rw [BitVec.toNat_ofNat, Nat.mod_eq_of_lt (by omega)]
  have hne : BitVec.ofNat 64
      (fb.font.height * (fb.charRows - kScrollAmount) * fb.bufferStride) ≠ 0 := by
    intro hzero
    rw [hzero] at hlength
    exact hmoved.ne hlength
  unfold screen scrolled
  rw [List.foldl_append, List.foldl_append]
  show List.foldl _ (copyForward _ _ _ _) _ = _
  rw [copyForward_eq _ hne (by rw [hlength]; exact hapart), hlength]

/-- A screen with at most ten character rows is scrolled. -/
theorem scrolled_spec (hrows : kScrollAmount < fb.charRows)
    (hwidth : 4 * fb.width ≤ fb.bufferStride)
    (hspace : fb.bufferStride * fb.height ≤ 2 ^ 64) (hstride : 0 < fb.bufferStride)
    (hle : fb.charRows ≤ 2 * kScrollAmount) : Scrolled fb s (s.scrolled fb) := by
  obtain ⟨hends, hlast⟩ := scroll_ends fb hrows
  have hheight : fb.height * fb.bufferStride ≤ 2 ^ 64 := by rwa [Nat.mul_comm]
  have hrow : ∀ {y n : ℕ}, y < n → ∀ k < fb.bufferStride,
      y * fb.bufferStride + k < n * fb.bufferStride := by
    intro y n hy k hk
    calc y * fb.bufferStride + k < (y + 1) * fb.bufferStride := by
          rw [Nat.succ_mul]
          omega
      _ ≤ n * fb.bufferStride := Nat.mul_le_mul_right _ hy
  refine ⟨?_, ?_, ?_, rfl, rfl⟩
  · -- rows that stay
    intro m y hy k hk
    have hinside := hrow hy k hk
    rw [screen_scrolled fb hrows hspace hstride hle, rowAddr_add, rowAddr_add,
      apply_fillRows_of_outside _ _ _ hwidth (by omega) (by omega) (.inl hinside),
      copy_add _ _ _ (by omega) (by omega), if_pos hinside, BitVec.add_assoc, ← BitVec.ofNat_add]
    congr 3
    ring
  · -- rows that are cleared
    intro m y hy hmoved x hx j hj
    obtain ⟨r, rfl⟩ := Nat.exists_eq_add_of_le hmoved
    have hr : r < fb.font.height * kScrollAmount := by
      have hsum := scroll_rows fb hrows
      omega
    have hpixel : 4 * x + j < 4 * fb.width := by omega
    have hspace' : fb.font.height * (fb.charRows - kScrollAmount) * fb.bufferStride +
        fb.font.height * kScrollAmount * fb.bufferStride ≤ 2 ^ 64 := by omega
    rw [screen_scrolled fb hrows hspace hstride hle, rowAddr_add, BitVec.add_assoc,
      ← BitVec.ofNat_add, Nat.add_mul, Nat.add_assoc _ (4 * x),
      apply_fillRows _ _ _ hwidth hspace' hr hpixel]
    congr 1
    omega
  · -- rows below the grid
    intro m y hy hbelow k hk
    have hinside := hrow hy k hk
    have hbehind := Nat.mul_le_mul_right fb.bufferStride hbelow
    rw [screen_scrolled fb hrows hspace hstride hle, rowAddr_add,
      apply_fillRows_of_outside _ _ _ hwidth (by omega) (by omega) (.inr (by omega)),
      copy_add _ _ _ (by omega) (by omega), if_neg (by omega)]

/-- A screen with at most ten character rows is scrolled. -/
theorem scrolls_of_le (hrows : kScrollAmount < fb.charRows)
    (hwidth : 4 * fb.width ≤ fb.bufferStride)
    (hspace : fb.buffer.toNat + fb.bufferStride * fb.height ≤ 2 ^ 64)
    (hlast : s.cursorRow + 1 = fb.charRows) (hstride : 0 < fb.bufferStride)
    (hle : fb.charRows ≤ 2 * kScrollAmount) : Scrolls fb s := by
  refine ⟨s.scrolled fb, ?_, scrolled_spec fb hrows hwidth (by omega) hstride hle⟩
  rw [newLine_last fb hrows hlast, memcpy_scroll fb hrows hspace hstride, if_pos hle]
  rfl

end Console

open Console

/-- For every screen with more than five character rows and rows of pixels that do not overlap, and
every content: a newline on the last character row scrolls the screen exactly if the screen has at
most ten character rows, or no bytes at all. -/
theorem scrolling (fb : Framebuffer) (hrows : kScrollAmount < fb.charRows)
    (hwidth : 4 * fb.width ≤ fb.bufferStride)
    (hspace : fb.buffer.toNat + fb.bufferStride * fb.height ≤ 2 ^ 64) {s : Console}
    (hlast : s.cursorRow + 1 = fb.charRows) :
    Scrolls fb s ↔ fb.charRows ≤ 2 * kScrollAmount ∨ fb.bufferStride = 0 := by
  rcases Nat.eq_zero_or_pos fb.bufferStride with hzero | hpos
  · exact ⟨fun _ => .inr hzero, fun _ => scrolls_of_stride_eq_zero fb hrows hwidth hlast hzero⟩
  · refine ⟨fun hscrolls => .inl ?_, ?_⟩
    · -- longer blocks overlap, and `memcpy` panics
      by_contra hmany
      obtain ⟨t, ht, -⟩ := hscrolls
      rw [newLine_last fb hrows hlast, memcpy_scroll fb hrows hspace hpos, if_neg hmany] at ht
      cases ht
    · rintro (hle | hzero)
      · exact scrolls_of_le fb hrows hwidth hspace hlast hpos hle
      · exact absurd hzero hpos.ne'

/-- A screen of six character rows is scrolled. -/
theorem scrolling_small : Scrolls smallScreen { Console.new smallScreen with cursorRow := 5 } :=
  (scrolling smallScreen (by decide) (by decide) (by decide) rfl).mpr (.inl (by decide))

/-- A framebuffer of 1024 by 768 pixels, which has 48 character rows. -/
def largeScreen : Framebuffer where
  buffer := 0xffffa00000000000#64
  bufferFormat := .argb
  width := 1024
  height := 768
  stride := 0
  kFontDataBizcat := Vector.replicate 4096 0xFF#8
  width_lt := by decide
  height_lt := by decide

/-- A newline on its last row panics. -/
theorem not_scrolling : ¬Scrolls largeScreen { Console.new largeScreen with cursorRow := 47 } := by
  rintro ⟨t, ht, -⟩
  rw [newLine_last largeScreen (by decide) rfl,
    memcpy_scroll largeScreen (by decide) (by decide) (by decide), if_neg (by decide)] at ht
  cases ht

end KushOs.FbCons
