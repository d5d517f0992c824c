import KushOs.Kernel.Console.Termination

/-!
# Drawing stays on the screen

The cursor moves by printing, at the right edge, by scrolling and by cursor position sequences.
The first three keep it on the character grid, but wrap and scroll are triggered by equality, and a
cursor position is taken as it is: one outside the grid sends the cursor off the screen, and what
is printed then is stored outside the framebuffer.

## Main results

* `Console.OnScreen.writes_iff`: what one character does to a console that is on the screen.
* `drawing_stays_on_screen`: the runs in which every cursor position names a cell of the grid.
-/

namespace KushOs.FbCons

open NestedCall Logging Transition

namespace Console

variable (fb : Framebuffer) {vsnprintf : Printf} {s t : Console} {ch : BitVec 8}

/-- If `ch` completes a cursor position, the row and the column that it names, counted from 1,
are on the grid. The last number of each kind counts. -/
def CupInGrid (s : Console) (ch : BitVec 8) : Prop :=
  s.writeState = .ansiReadingCSI → ch = ascii 'H' →
    (∀ row ∈ (everyOther true (numbers s.pending)).getLast?, numberValue row ≤ fb.charRows) ∧
    (∀ col ∈ (everyOther false (numbers s.pending)).getLast?, numberValue col ≤ fb.charColumns)

instance (s : Console) (ch : BitVec 8) : Decidable (s.CupInGrid fb ch) :=
  inferInstanceAs (Decidable (_ → _ → _ ∧ _))

/-- The new coordinate of a cursor position is on the grid exactly when the number is. -/
theorem coordinate_lt_iff (number : Option (List (BitVec 8))) {old size : ℕ} (hold : old < size) :
    (number.map (numberValue · - 1)).getD old < size ↔
      ∀ n ∈ number, numberValue n ≤ size := by
  cases number with
  | none => simpa using hold
  | some n =>
      simp only [Option.map_some, Option.getD_some, Option.mem_def, Option.some.injEq,
        forall_eq']
      omega

/-- After a character that returns, a console that was on the screen is still there exactly when
no cursor position left the grid. -/
theorem OnScreen.writes_iff (hprintf : vsnprintf.Conforms) (hcols : 1 ≤ fb.charColumns)
    (hrows : kScrollAmount < fb.charRows) (hinv : s.Inv) (hs : OnScreen fb s)
    (h : Writes fb vsnprintf s ch t) : OnScreen fb t ↔ s.CupInGrid fb ch := by
  rcases h.cases fb hprintf hinv with ⟨hstate, hprint⟩ | ⟨hstate, hch, rfl⟩ | ⟨hsame, -, hnot⟩
  · -- printing
    have hidle : s.CupInGrid fb ch := fun hreading => by
      rw [hstate] at hreading
      cases hreading
    exact ⟨fun _ => hidle, fun _ => OnScreen.print fb hcols hrows hs hprint⟩
  · -- a cursor position
    have hrow := coordinate_lt_iff (everyOther true (numbers s.pending)).getLast? hs.row_lt
    have hcol := coordinate_lt_iff (everyOther false (numbers s.pending)).getLast? hs.col_lt
    constructor
    · intro hon _ _
      exact ⟨hrow.mp hon.row_lt, hcol.mp hon.col_lt⟩
    · intro hgrid
      obtain ⟨hr, hc⟩ := hgrid hstate hch
      exact ⟨hcol.mpr hc, hrow.mpr hr, hs.stores⟩
  · -- neither the cursor nor the screen changes
    constructor
    · exact fun _ hreading hch => absurd hch (hnot hreading)
    · intro _
      refine ⟨?_, ?_, ?_⟩
      · rw [hsame.cursorCol]
        exact hs.col_lt
      · rw [hsame.cursorRow]
        exact hs.row_lt
      · rw [hsame.stores]
        exact hs.stores

end Console

open Console

/-- Drawing stays on the screen in every run, from the constructor on, in which each cursor
position names a cell of the grid: the cursor is on the grid, and every store made so far is to a
pixel of the framebuffer. -/
theorem drawing_stays_on_screen (fb : Framebuffer) {vsnprintf : Printf}
    (hprintf : vsnprintf.Conforms) (hcols : 1 ≤ fb.charColumns)
    (hrows : kScrollAmount < fb.charRows) {text : List (BitVec 8)} {t : Console}
    (hrun : RunWhere (Writes fb vsnprintf) (CupInGrid fb) (Console.new fb) text t) :
    t.cursorCol < fb.charColumns ∧ t.cursorRow < fb.charRows ∧
      ∀ w ∈ t.stores, fb.OnPixels w := by
  have hstep : ∀ s ch u, (s.Inv ∧ OnScreen fb s) → s.CupInGrid fb ch →
      Writes fb vsnprintf s ch u → u.Inv ∧ OnScreen fb u := by
    rintro s ch u ⟨hinv, hs⟩ hgrid hwrite
    exact ⟨hinv.writes fb hprintf hwrite,
      (hs.writes_iff fb hprintf hcols hrows hinv hwrite).mpr hgrid⟩
  obtain ⟨-, hon⟩ := hrun.preserves_of hstep ⟨Inv.new fb, OnScreen.new fb hcols hrows⟩
  exact ⟨hon.col_lt, hon.row_lt, hon.stores⟩

/-! ### Cursor positions on the screen of two columns and six rows -/

/-- The console has read `ESC [` and one more character. -/
def readingPosition (ch : BitVec 8) : Console :=
  { Console.new smallScreen with
    writeState := .ansiReadingCSI
    ansiBufUsed := 1
    ansiBuf := (Vector.replicate kAnsiBufSize 0#8).setIfInBounds 0 ch }

/-- Reading the start of a cursor position with a row of one digit. -/
theorem run_readingPosition {ch : BitVec 8} (hch : isFinalByte ch = false) :
    RunWhere (Writes smallScreen printf) (CupInGrid smallScreen) (Console.new smallScreen)
      [ascii '\x1b', ascii '[', ch] (readingPosition ch) := by
  have hescape : Writes smallScreen printf (Console.new smallScreen) (ascii '\x1b')
      { Console.new smallScreen with writeState := .ansiEscapeStart } := ⟨1, rfl⟩
  have hbracket : Writes smallScreen printf
      { Console.new smallScreen with writeState := .ansiEscapeStart } (ascii '[')
      { Console.new smallScreen with writeState := .ansiReadingCSI } := ⟨1, rfl⟩
  have hread : Writes smallScreen printf
      { Console.new smallScreen with writeState := .ansiReadingCSI } ch (readingPosition ch) := by
    refine ⟨1, ?_⟩
    rw [write, writeWith]
    dsimp only
    rw [pushAnsi_eq (by decide)]
    show (if isFinalByte ch = true then _ else _) = _
    rw [hch]
    rfl
  refine .cons ⟨hescape, by decide⟩ (.cons ⟨hbracket, by decide⟩ (.cons ⟨hread, ?_⟩ (.nil _)))
  rintro - rfl
  exact absurd hch (by decide)

/-- The console has moved the cursor to the row that the digit names. -/
def movedTo (ch : BitVec 8) : Console :=
  { ((readingPosition ch).completed (ascii 'H')).terminate.moveCursors true
      (numbers (readingPosition ch).pending) with
    writeState := .idle }

theorem writes_movedTo {ch : BitVec 8}
    (hfits : ∀ g ∈ numbers (readingPosition ch).pending, Fits g) :
    Writes smallScreen printf (readingPosition ch) (ascii 'H') (movedTo ch) :=
  ⟨1, write_cup smallScreen {} rfl (by decide : 1 < kAnsiBufSize) hfits 0⟩

/-- Moving to the second row and printing there. -/
theorem drawing_stays_on_screen_second_row :
    ∃ t, RunWhere (Writes smallScreen printf) (CupInGrid smallScreen) (Console.new smallScreen)
        ([ascii '\x1b', ascii '[', ascii '2'] ++ [ascii 'H', ascii 'A']) t ∧
      t.cursorCol < smallScreen.charColumns ∧ t.cursorRow < smallScreen.charRows ∧
      ∀ w ∈ t.stores, smallScreen.OnPixels w := by
  have hread := run_readingPosition (show isFinalByte (ascii '2') = false by decide)
  have hcup := writes_movedTo (show ∀ g ∈ numbers (readingPosition (ascii '2')).pending, Fits g by
    decide +kernel)
  obtain ⟨pixels, hprint, -⟩ := (movedTo (ascii '2')).print_of_ne smallScreen
    (show ascii 'A' ≠ ascii '\n' by decide)
  rw [if_neg (by decide +kernel)] at hprint
  have hwrite : Writes smallScreen printf (movedTo (ascii '2')) (ascii 'A')
      ((movedTo (ascii '2')).printed pixels) := by
    refine ⟨1, ?_⟩
    rw [write_idle smallScreen {} rfl (by decide), hprint]
    rfl
  have hrun := hread.append (.cons ⟨hcup, by decide +kernel⟩
    (.cons ⟨hwrite, by decide +kernel⟩ (.nil _)))
  exact ⟨_, hrun, drawing_stays_on_screen smallScreen printf_conforms (by decide) (by decide) hrun⟩

/-- A cursor position below the last row takes the cursor off the grid. -/
theorem drawing_leaves_screen :
    ∃ t, Run (Writes smallScreen printf) (Console.new smallScreen)
        ([ascii '\x1b', ascii '[', ascii '9'] ++ [ascii 'H']) t ∧
      ¬(t.cursorCol < smallScreen.charColumns ∧ t.cursorRow < smallScreen.charRows ∧
        ∀ w ∈ t.stores, smallScreen.OnPixels w) := by
  have hread := run_readingPosition (show isFinalByte (ascii '9') = false by decide)
  have hcup := writes_movedTo (show ∀ g ∈ numbers (readingPosition (ascii '9')).pending, Fits g by
    decide +kernel)
  refine ⟨movedTo (ascii '9'), hread.run.append (.cons hcup (.nil _)), ?_⟩
  rintro ⟨-, hrow, -⟩
  revert hrow
  decide +kernel

end KushOs.FbCons
