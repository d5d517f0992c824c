import KushOs.Kernel.Console.FbCons
import Mathlib.Tactic.Ring

/-!
# Where the framebuffer console draws

Every loop of the drawing code walks over rows of pixels. Each store is described by the row and
the column that it is in, relative to where the loop starts; all arithmetic on addresses is that
of `size_t`, so the addresses of pixels are taken modulo `2 ^ 64` as the code does.

## Main definitions

* `Framebuffer.OnPixels`: an access to the framebuffer that stays on its pixels.
* `Console.InGrid`: the cursor is on the character grid.

## Main results

* `Console.newLine_cases`, `Console.print_cases`: what drawing keeps, whatever the state.
* `Console.OnScreen.print`: from a cursor on the grid, drawing stays on the screen.
-/

namespace KushOs.FbCons

/-! ## Rows of pixels -/

/-- The stores of `writes` cover at most the first `width` pixels of `rows` rows from `ptr` on. -/
def Covers (writes : List FbWrite) (ptr : BitVec 64) (stride rows width : ℕ) : Prop :=
  ∀ w ∈ writes, ∃ r < rows, ∃ k < width, ∃ value,
    w = .pixel (ptr + BitVec.ofNat 64 (r * stride + 4 * k)) value

theorem Covers.nil (ptr : BitVec 64) (stride rows width : ℕ) : Covers [] ptr stride rows width := by
  intro w hw
  cases hw

/-- A row of pixels from one column on, as part of a row that starts one column before. -/
theorem Covers.cons_pixel {writes : List FbWrite} {ptr : BitVec 64} {stride n : ℕ}
    (h : Covers writes (ptr + 4) stride 1 n) (value : BitVec 32) :
    Covers (.pixel ptr value :: writes) ptr stride 1 (n + 1) := by
  intro w hw
  rcases List.mem_cons.mp hw with rfl | hw
  · refine ⟨0, by omega, 0, by omega, value, ?_⟩
    simp
  · obtain ⟨r, hr, k, hk, v, rfl⟩ := h w hw
    refine ⟨0, by omega, k + 1, by omega, v, ?_⟩
    obtain rfl : r = 0 := by omega
    rw [BitVec.add_assoc, show (4 : BitVec 64) = BitVec.ofNat 64 4 from rfl, ← BitVec.ofNat_add]
    congr 3
    omega

/-- A row, and the rows below it. -/
theorem Covers.append_rows {row below : List FbWrite} {ptr : BitVec 64} {stride rows width : ℕ}
    (hrow : Covers row ptr stride 1 width)
    (hbelow : Covers below (ptr + BitVec.ofNat 64 stride) stride rows width) :
    Covers (row ++ below) ptr stride (rows + 1) width := by
  intro w hw
  rcases List.mem_append.mp hw with hw | hw
  · obtain ⟨r, hr, k, hk, v, rfl⟩ := hrow w hw
    exact ⟨r, by omega, k, hk, v, rfl⟩
  -- row `r` below the first one is row `r + 1`
  · obtain ⟨r, hr, k, hk, v, rfl⟩ := hbelow w hw
    refine ⟨r + 1, by omega, k, hk, v, ?_⟩
    rw [BitVec.add_assoc, ← BitVec.ofNat_add]
    congr 3
    ring

theorem covers_fillRow (value : BitVec 32) (stride n : ℕ) (ptr : BitVec 64) :
    Covers (fillRow value n ptr) ptr stride 1 n := by
  induction n generalizing ptr with
  | zero => exact Covers.nil _ _ _ _
  | succ n ih => exact (ih (ptr + 4)).cons_pixel value

theorem covers_fillRows (value : BitVec 32) (width stride rows : ℕ) (ptr : BitVec 64) :
    Covers (fillRows value width stride rows ptr) ptr stride rows width := by
  induction rows generalizing ptr with
  | zero => exact Covers.nil _ _ _ _
  | succ rows ih => exact (covers_fillRow value stride width ptr).append_rows (ih _)

section Glyph

variable (font : BitmapFont) (colors : PerColor (BitVec 32)) (stride : ℕ)

/-- Within the eight columns of a font's byte, a row of a glyph is drawn from that byte. -/
theorem drawRow_ok (n x : ℕ) (rowPtr : BitVec 64) (fontData : ℕ) (hx : x + n ≤ 8)
    (hdata : fontData < font.data.size) :
    ∃ row, drawRow font colors n x rowPtr fontData = .ok (row, fontData) ∧
      Covers row rowPtr stride 1 n := by
  induction n generalizing x rowPtr with
  | zero => exact ⟨[], rfl, Covers.nil _ _ _ _⟩
  | succ n ih =>
      obtain ⟨row, hrow, hcovers⟩ := ih (x + 1) (rowPtr + 4) (by omega)
      -- the pointer into the font moves on only at a multiple of eight columns
      have hnext : ¬(x ≠ 0 ∧ x % 8 = 0) := by omega
      rw [drawRow, Array.getElem?_eq_getElem hdata]
      simp only [if_neg hnext]
      rw [hrow]
      exact ⟨_, rfl, hcovers.cons_pixel _⟩

/-- A glyph of at most eight columns whose bytes are inside the font's data is drawn. -/
theorem drawRows_ok (hwidth : font.width ≤ 8) (n : ℕ) (ptr : BitVec 64) (fontData : ℕ)
    (hdata : fontData + n ≤ font.data.size) :
    ∃ pixels, drawRows font colors stride n ptr fontData = .ok pixels ∧
      Covers pixels ptr stride n font.width := by
  induction n generalizing ptr fontData with
  | zero => exact ⟨[], rfl, Covers.nil _ _ _ _⟩
  | succ n ih =>
      obtain ⟨row, hrow, hcovers⟩ :=
        drawRow_ok font colors stride font.width 0 ptr fontData (by omega) (by omega)
      obtain ⟨below, hbelow, hrest⟩ :=
        ih (ptr + BitVec.ofNat 64 stride) (fontData + 1) (by omega)
      refine ⟨row ++ below, ?_, hcovers.append_rows hrest⟩
      rw [drawRows, hrow]
      show (do
        let rest ← drawRows font colors stride n (ptr + BitVec.ofNat 64 stride) (fontData + 1)
        pure (row ++ rest)) = Except.ok (row ++ below)
      rw [hbelow]
      rfl

end Glyph

/-! ## The screen -/

namespace Framebuffer

variable (fb : Framebuffer)

/-- Address of the first pixel of row `y`. -/
def rowAddr (y : ℕ) : BitVec 64 := fb.buffer + BitVec.ofNat 64 (y * fb.bufferStride)

/-- The access stays on the framebuffer: a store is to one of the first `width` pixels of one of
the `height` rows, and a block that is moved consists of whole rows. -/
def OnPixels : FbWrite → Prop
  | .pixel addr _ => ∃ y < fb.height, ∃ x < fb.width, addr = fb.rowAddr y + BitVec.ofNat 64 (4 * x)
  | .copy dst src length => ∃ target source n, target + n ≤ fb.height ∧ source + n ≤ fb.height ∧
      dst = fb.rowAddr target ∧ src = fb.rowAddr source ∧
      length = BitVec.ofNat 64 (n * fb.bufferStride)

/-- Pixels from column `x` of row `y` on that reach neither the right nor the lower edge. -/
theorem onPixels_of_covers {writes : List FbWrite} {ptr : BitVec 64} {rows width x y : ℕ}
    (h : Covers writes ptr fb.bufferStride rows width)
    (hptr : ptr = fb.rowAddr y + BitVec.ofNat 64 (4 * x)) (hy : y + rows ≤ fb.height)
    (hx : x + width ≤ fb.width) : ∀ w ∈ writes, fb.OnPixels w := by
  intro w hw
  obtain ⟨r, hr, k, hk, v, rfl⟩ := h w hw
  refine ⟨y + r, by omega, x + k, by omega, ?_⟩
  rw [hptr, rowAddr, rowAddr, BitVec.add_assoc, BitVec.add_assoc, BitVec.add_assoc,
    ← BitVec.ofNat_add, ← BitVec.ofNat_add, ← BitVec.ofNat_add]
  congr 2
  ring

end Framebuffer

/-- Subtraction of sizes that does not go below zero. -/
theorem sizeSub_of_le {a b : ℕ} (h : b ≤ a) (ha : a < 2 ^ 64) : sizeSub a b = a - b := by
  unfold sizeSub
  omega

/-- `memcpy` panics, or it moves the block or has nothing to do. -/
theorem memcpy_cases (dst src length : BitVec 64) :
    memcpy dst src length = .error .panic ∨
      ∃ moved, memcpy dst src length = .ok moved ∧ ∀ w ∈ moved, w = .copy dst src length := by
  unfold memcpy
  split
  · exact .inr ⟨[], rfl, by simp⟩
  · split
    · exact .inl rfl
    · exact .inr ⟨_, rfl, by simp⟩

namespace Console

variable (fb : Framebuffer) {s t : Console}

/-- What drawing never changes: the machine that reads escape sequences, and the log. -/
structure SameMachine (s t : Console) : Prop where
  writeState : t.writeState = s.writeState
  ansiBufUsed : t.ansiBufUsed = s.ansiBufUsed
  logged : t.logged = s.logged

/-- A character of the font is drawn. -/
theorem drawChar_ok (s : Console) {ch : BitVec 8} (hch : (ch.signExtend 64).toNat ≤ 0xFF)
    (x y : ℕ) :
    ∃ pixels, s.drawChar fb ch x y = .ok { s with stores := s.stores ++ pixels } ∧
      Covers pixels (fb.rowAddr (fb.font.height * y) + BitVec.ofNat 64 (4 * (x * fb.font.width)))
        fb.bufferStride fb.font.height fb.font.width := by
  have hsize : fb.font.data.size = 4096 := Vector.size_toArray _
  obtain ⟨pixels, hpixels, hcovers⟩ := drawRows_ok fb.font s.colors fb.bufferStride
    (by decide : (8 : ℕ) ≤ 8) fb.font.height
    (fb.buffer + BitVec.ofNat 64 (4 * (x * fb.font.width)) +
      BitVec.ofNat 64 (fb.font.height * y * fb.bufferStride))
    ((ch.signExtend 64).toNat * fb.font.stride)
    (by rw [hsize]; show _ * 16 + 16 ≤ 4096; omega)
  refine ⟨pixels, ?_, ?_⟩
  · unfold drawChar
    dsimp only
    rw [hpixels]
    rfl
  · rw [Framebuffer.rowAddr, BitVec.add_assoc, BitVec.add_comm (BitVec.ofNat 64 _)]
    rw [BitVec.add_assoc] at hcovers
    exact hcovers

/-- A newline panics when `memcpy` refuses to scroll, or it returns. -/
theorem newLine_cases (s : Console) :
    s.newLine fb = .error .panic ∨ ∃ t, s.newLine fb = .ok t ∧ SameMachine s t := by
  unfold newLine
  dsimp only
  split
  · -- the last row of the grid: everything scrolls
    rcases memcpy_cases fb.buffer
      (fb.buffer + BitVec.ofNat 64 (fb.font.height * kScrollAmount * fb.bufferStride))
      (BitVec.ofNat 64 (fb.bufferStride * sizeSub fb.charRows kScrollAmount * fb.font.height))
      with hpanic | ⟨moved, hmoved, -⟩
    · left
      rw [hpanic]
      rfl
    · right
      rw [hmoved]
      exact ⟨_, rfl, rfl, rfl, rfl⟩
  · exact .inr ⟨_, rfl, rfl, rfl, rfl⟩

/-- The glyph that `print` looks up is in the font. -/
theorem glyph_le (ch : BitVec 8) :
    ((if (ch.signExtend 64).toNat > fb.font.maxGlyph then ascii '?' else ch).signExtend 64).toNat
      ≤ 0xFF := by
  split
  · decide
  · rename_i h
    exact Nat.le_of_not_lt h

/-- The state after a glyph is drawn and the cursor has moved on. -/
def printed (s : Console) (pixels : List FbWrite) : Console :=
  { s with stores := s.stores ++ pixels, cursorCol := (s.cursorCol + 1) % 2 ^ 64 }

/-- A character other than a newline is drawn at the cursor; at the right edge the line ends. -/
theorem print_of_ne (s : Console) {ch : BitVec 8} (hch : ch ≠ ascii '\n') :
    ∃ pixels,
      s.print fb ch = (if (s.cursorCol + 1) % 2 ^ 64 = fb.charColumns
        then (s.printed pixels).newLine fb else .ok (s.printed pixels)) ∧
      Covers pixels
        (fb.rowAddr (fb.font.height * s.cursorRow) +
          BitVec.ofNat 64 (4 * (s.cursorCol * fb.font.width)))
        fb.bufferStride fb.font.height fb.font.width := by
  obtain ⟨pixels, hpixels, hcovers⟩ :=
    s.drawChar_ok fb (glyph_le fb ch) s.cursorCol s.cursorRow
  refine ⟨pixels, ?_, hcovers⟩
  unfold print
  rw [if_neg hch]
  dsimp only
  rw [hpixels]
  rfl

/-- Printing panics when `memcpy` refuses to scroll, or it returns. -/
theorem print_cases (s : Console) (ch : BitVec 8) :
    s.print fb ch = .error .panic ∨ ∃ t, s.print fb ch = .ok t ∧ SameMachine s t := by
  by_cases hch : ch = ascii '\n'
  · rw [print, if_pos hch]
    exact s.newLine_cases fb
  · obtain ⟨pixels, hprint, -⟩ := s.print_of_ne fb hch
    rw [hprint]
    split
    · rcases (s.printed pixels).newLine_cases fb with hpanic | ⟨t, ht, hsame⟩
      · exact .inl hpanic
      · exact .inr ⟨t, ht, hsame.writeState, hsame.ansiBufUsed, hsame.logged⟩
    · exact .inr ⟨_, rfl, rfl, rfl, rfl⟩

/-! ## On the screen -/

/-- The cursor is on the character grid, and everything was stored to pixels. -/
structure OnScreen (s : Console) : Prop where
  col_lt : s.cursorCol < fb.charColumns
  row_lt : s.cursorRow < fb.charRows
  stores : ∀ w ∈ s.stores, fb.OnPixels w

end Console

/-- The character rows and columns fit the framebuffer. -/
theorem Framebuffer.grid_le (fb : Framebuffer) :
    fb.charColumns * fb.font.width ≤ fb.width ∧ fb.font.height * fb.charRows ≤ fb.height :=
  ⟨Nat.div_mul_le_self _ _, Nat.mul_div_le _ _⟩

namespace Console

section OnScreen

variable (fb : Framebuffer) {s t : Console}

/-- The constructor clears exactly the screen. -/
theorem OnScreen.new (hcols : 1 ≤ fb.charColumns) (hrows : kScrollAmount < fb.charRows) :
    OnScreen fb (Console.new fb) := by
  refine ⟨hcols, Nat.zero_lt_of_lt hrows, ?_⟩
  intro w hw
  have hfill : w ∈ fillRows (Console.new fb).colors.background fb.width fb.bufferStride fb.height
      fb.buffer := by
    simpa [Console.new, Console.clear, Console.updateColors] using hw
  refine fb.onPixels_of_covers (covers_fillRows _ _ _ _ _) (x := 0) (y := 0) ?_
    (by omega) (by omega) w hfill
  simp [Framebuffer.rowAddr]

/-- Scrolling moves the lower rows of the grid to the top and clears the rows behind them. -/
theorem onPixels_scroll (hrows : kScrollAmount < fb.charRows) {moved : List FbWrite}
    (hmoved : ∀ w ∈ moved, w = .copy fb.buffer
      (fb.buffer + BitVec.ofNat 64 (16 * kScrollAmount * fb.bufferStride))
      (BitVec.ofNat 64 ((fb.charRows - kScrollAmount) * 16 * fb.bufferStride)))
    (value : BitVec 32) :
    ∀ w ∈ moved ++ fillRows value fb.width fb.bufferStride (16 * kScrollAmount)
      (fb.buffer + BitVec.ofNat 64 ((fb.charRows - kScrollAmount) * 16 * fb.bufferStride)),
      fb.OnPixels w := by
  have hgrid : _ ∧ 16 * fb.charRows ≤ fb.height := fb.grid_le
  have hscroll : kScrollAmount = 5 := rfl
  intro w hw
  rcases List.mem_append.mp hw with hw | hw
  · rw [hmoved w hw]
    refine ⟨0, 16 * kScrollAmount, (fb.charRows - kScrollAmount) * 16, by omega, by omega,
      ?_, rfl, rfl⟩
    simp [Framebuffer.rowAddr]
  · refine fb.onPixels_of_covers (covers_fillRows _ _ _ _ _)
      (x := 0) (y := (fb.charRows - kScrollAmount) * 16) ?_ (by omega) (by omega) w hw
    simp [Framebuffer.rowAddr]

/-- From a row of the grid, a newline that returns stays on the screen. -/
theorem OnScreen.newLine (hcols : 1 ≤ fb.charColumns) (hrows : kScrollAmount < fb.charRows)
    (hrow : s.cursorRow < fb.charRows) (hstores : ∀ w ∈ s.stores, fb.OnPixels w)
    (h : s.newLine fb = .ok t) : OnScreen fb t := by
  have hgrid : _ ∧ 16 * fb.charRows ≤ fb.height := fb.grid_le
  have hheight := fb.height_lt
  have hfont : fb.font.height = 16 := rfl
  have hmod : (s.cursorRow + 1) % 2 ^ 64 = s.cursorRow + 1 := Nat.mod_eq_of_lt (by omega)
  unfold Console.newLine at h
  simp only [hmod, hfont] at h
  split at h
  · rename_i hlast
    -- the rows that are moved, and the rows that are cleared, end with the last character row
    have hsub : sizeSub fb.charRows kScrollAmount = fb.charRows - kScrollAmount :=
      sizeSub_of_le (by omega) (by omega)
    have hsub' : sizeSub (s.cursorRow + 1) kScrollAmount = s.cursorRow + 1 - kScrollAmount :=
      sizeSub_of_le (by omega) (by omega)
    have hscroll : kScrollAmount = 5 := rfl
    have hmoved : fb.bufferStride * (fb.charRows - kScrollAmount) * 16 =
        ((fb.charRows - kScrollAmount) * 16) * fb.bufferStride := by ring
    rw [hsub, hsub', hmoved] at h
    rcases memcpy_cases fb.buffer
      (fb.buffer + BitVec.ofNat 64 (16 * kScrollAmount * fb.bufferStride))
      (BitVec.ofNat 64 ((fb.charRows - kScrollAmount) * 16 * fb.bufferStride))
      with hpanic | ⟨moved, hcopy, hmem⟩
    · rw [hpanic] at h
      cases h
    · rw [hcopy] at h
      cases h
      refine ⟨hcols, by show s.cursorRow + 1 - kScrollAmount < _; omega, ?_⟩
      intro w hw
      -- the stores made before the newline, and those of scrolling
      rw [List.append_assoc] at hw
      rcases List.mem_append.mp hw with hw | hw
      · exact hstores w hw
      · exact onPixels_scroll fb hrows hmem _ w hw
  · rename_i hlast
    cases h
    exact ⟨hcols, by show s.cursorRow + 1 < _; omega, hstores⟩

/-- From a cursor on the grid, printing that returns stays on the screen. -/
theorem OnScreen.print (hcols : 1 ≤ fb.charColumns) (hrows : kScrollAmount < fb.charRows)
    (hs : OnScreen fb s) {ch : BitVec 8} (h : s.print fb ch = .ok t) : OnScreen fb t := by
  by_cases hch : ch = ascii '\n'
  · rw [Console.print, if_pos hch] at h
    exact OnScreen.newLine fb hcols hrows hs.row_lt hs.stores h
  · obtain ⟨pixels, hprint, hcovers⟩ := s.print_of_ne fb hch
    have hgrid : fb.charColumns * 8 ≤ fb.width ∧ 16 * fb.charRows ≤ fb.height := fb.grid_le
    have hwidth := fb.width_lt
    have hcol := hs.col_lt
    have hrow := hs.row_lt
    have hmod : (s.cursorCol + 1) % 2 ^ 64 = s.cursorCol + 1 := Nat.mod_eq_of_lt (by omega)
    have hstores : ∀ w ∈ (s.printed pixels).stores, fb.OnPixels w := by
      intro w hw
      rcases List.mem_append.mp hw with hw | hw
      · exact hs.stores w hw
      · -- the character cell ends inside the grid
        have hbottom : 16 * s.cursorRow + 16 ≤ fb.height := by omega
        have hright : s.cursorCol * 8 + 8 ≤ fb.width := by omega
        exact fb.onPixels_of_covers hcovers rfl hbottom hright w hw
    rw [hprint, hmod] at h
    split at h
    · exact OnScreen.newLine fb (s := s.printed pixels) hcols hrows hrow hstores h
    · cases h
      refine ⟨?_, hrow, hstores⟩
      show (s.cursorCol + 1) % 2 ^ 64 < fb.charColumns
      omega

end OnScreen

end Console

end KushOs.FbCons
