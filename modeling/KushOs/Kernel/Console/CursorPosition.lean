import KushOs.Kernel.Console.Sequence

/-!
# The cursor position

The sequence `ESC [ n ; m H` moves the cursor to row `n` and column `m`, which are 1 based and
default to 1. `processAnsiCup` stores a coordinate at every semicolon and one more at the end, so a
sequence without a semicolon leaves the column as it is.

## Main results

* `Console.writeString_cup`: where the cursor is after the sequence.
* `cursor_position`: the sequences after which it is at the position that they name.
-/

namespace KushOs.FbCons

open NestedCall Logging

namespace Console

variable (fb : Framebuffer) {g : Logger} {vsnprintf : Printf} {s : Console}
variable {row : List (BitVec 8)} {col : Option (List (BitVec 8))}

/-- A sequence that names a row, and a column if there is a semicolon. -/
def cupSequence (row : List (BitVec 8)) (col : Option (List (BitVec 8))) : List (BitVec 8) :=
  [ascii '\x1b', ascii '['] ++ parameterBytes (row :: col.toList) ++ [ascii 'H']

/-- The 0 based position of a 1 based coordinate; 0 and an omitted coordinate count as 1. -/
def coordinate (number : List (BitVec 8)) : ℕ := max 1 (numberValue number) - 1

/-- After the sequence, the cursor is at the position that it names. -/
def PositionsCursor (g : Logger) (vsnprintf : Printf) (s : Console) (row : List (BitVec 8))
    (col : Option (List (BitVec 8))) : Prop :=
  ∃ t, (∀ depth, s.writeString fb g vsnprintf (depth + 1) (cupSequence row col) = .returned t) ∧
    t.cursorRow = coordinate row ∧ t.cursorCol = coordinate (col.getD [])

/-- Two coordinates of seven digits fit the buffer. -/
theorem length_parameterBytes_cup (hrow : ShortDigits row) (hcol : ∀ m ∈ col, ShortDigits m) :
    (parameterBytes (row :: col.toList)).length < kAnsiBufSize := by
  have hsize : kAnsiBufSize = 32 := rfl
  have hlength := hrow.1
  cases col with
  | none =>
      rw [parameterBytes, Option.toList_none, List.intercalate_singleton]
      omega
  | some m =>
      have hlength' := (hcol m rfl).1
      rw [parameterBytes, Option.toList_some, List.intercalate_cons_cons,
        List.intercalate_singleton, List.length_append, List.length_append, List.length_singleton]
      omega

/-- The cursor after the sequence: a column that it does not name stays. -/
theorem writeString_cup (g : Logger) (vsnprintf : Printf) (hidle : s.writeState = .idle)
    (hrow : ShortDigits row) (hcol : ∀ m ∈ col, ShortDigits m) :
    ∃ t, (∀ depth, s.writeString fb g vsnprintf (depth + 1) (cupSequence row col) =
        .returned t) ∧
      t.cursorRow = coordinate row ∧ t.cursorCol = (col.map coordinate).getD s.cursorCol := by
  have hparams : ∀ param ∈ row :: col.toList, ShortDigits param := by
    rw [List.forall_mem_cons]
    exact ⟨hrow, fun m hm => hcol m (Option.mem_toList.mp hm)⟩
  have hroom := length_parameterBytes_cup hrow hcol
  obtain ⟨hsame, hstate, -, -, hused, hpending⟩ := s.beforeFinal_fields hroom
  have hbytes : ∀ ch ∈ parameterBytes (row :: col.toList), isFinalByte ch = false :=
    forall_parameterBytes hparams (by decide) (by decide)
  have hnumbers : numbers (s.beforeFinal (parameterBytes (row :: col.toList))).pending =
      row :: col.toList := by
    rw [hpending, numbers_parameterBytes (by simp) hparams]
  have hfits : ∀ number ∈ numbers (s.beforeFinal (parameterBytes (row :: col.toList))).pending,
      Fits number := by
    rw [hnumbers]
    exact fun param hparam => (hparams param hparam).fits
  have hwrite := @write_cup fb vsnprintf _ g hstate (by rw [hused]; exact hroom) hfits
  rw [hnumbers] at hwrite
  -- an empty parameter is 1, and so is 0
  have hcoordinate : ∀ number, coordinate number = numberValue number - 1 := by
    intro number
    unfold coordinate
    omega
  refine ⟨{ ((s.beforeFinal (parameterBytes (row :: col.toList))).completed
      (ascii 'H')).terminate.moveCursors true (row :: col.toList) with writeState := .idle },
    fun depth => ?_, ?_⟩
  · rw [cupSequence, writeString_sequence fb hidle hroom hbytes]
    exact hwrite depth
  · cases col with
    | none => exact ⟨(hcoordinate row).symm, hsame.cursorCol⟩
    | some m => exact ⟨(hcoordinate row).symm, (hcoordinate m).symm⟩

end Console

open Console

/-- For every state outside escape sequences: the sequence moves the cursor to the position that
it names exactly if it has a semicolon or the cursor is in the first column already. -/
theorem cursor_position (fb : Framebuffer) (g : Logger) (vsnprintf : Printf) {s : Console}
    (hidle : s.writeState = .idle) {row : List (BitVec 8)} {col : Option (List (BitVec 8))}
    (hrow : ShortDigits row) (hcol : ∀ m ∈ col, ShortDigits m) :
    PositionsCursor fb g vsnprintf s row col ↔ col.isSome = true ∨ s.cursorCol = 0 := by
  obtain ⟨t, hwrite, htrow, htcol⟩ := writeString_cup fb g vsnprintf hidle hrow hcol
  have hpositions : PositionsCursor fb g vsnprintf s row col ↔
      t.cursorCol = coordinate (col.getD []) := by
    constructor
    · rintro ⟨u, hu, -, hucol⟩
      obtain rfl : t = u := Outcome.returned.inj ((hwrite 0).symm.trans (hu 0))
      exact hucol
    · exact fun heq => ⟨t, hwrite, htrow, heq⟩
  rw [hpositions, htcol]
  cases col with
  | none =>
      have hzero : coordinate [] = 0 := rfl
      simp [hzero]
  | some m => simp

/-- The sequence `ESC [ 2 ; 2 H` on a new console. -/
theorem cursor_position_second :
    PositionsCursor smallScreen {} printf (Console.new smallScreen) [ascii '2']
      (some [ascii '2']) := by
  have hdigits : ShortDigits [ascii '2'] := by
    simpa [ShortDigits] using (by decide : isDigit (ascii '2') = true)
  refine (cursor_position smallScreen {} printf rfl hdigits ?_).mpr (.inl rfl)
  rintro m ⟨rfl⟩
  exact hdigits

/-- The sequence `ESC [ H` leaves a cursor in the second column where it is. -/
theorem cursor_not_position :
    ¬PositionsCursor smallScreen {} printf { Console.new smallScreen with cursorCol := 1 } []
      none := by
  rintro ⟨t, hwrite, -, hcol⟩
  have hempty : ShortDigits [] := by simp [ShortDigits]
  have hnone : ∀ m ∈ (none : Option (List (BitVec 8))), ShortDigits m := by simp
  obtain ⟨u, hwrite', -, hcol'⟩ :=
    writeString_cup smallScreen {} printf
      (s := { Console.new smallScreen with cursorCol := 1 }) rfl hempty hnone
  obtain rfl : t = u := Outcome.returned.inj ((hwrite 0).symm.trans (hwrite' 0))
  exact absurd (hcol.symm.trans hcol') (by decide)

end KushOs.FbCons
