import KushOs.Foundation.Run
import KushOs.Kernel.Console.Drawing
import KushOs.Kernel.Console.Escape

/-!
# Termination of the console's output

An escape sequence that the console does not know makes it log a warning, and the logger writes
the warning to the console while the machine is still reading the sequence. The first character of
the warning is a final byte itself, so it completes another unknown sequence, and so on until the
buffer of the sequence is full and overrun. Every other character is processed without a nested
call.

## Main results

* `Console.write_cases`: what a character does that completes no unhandled sequence.
* `Console.write_of_not_handles`: a character that completes an unhandled one never gets done.
* `console_terminates`: the output of a text terminates exactly when no character that the console
  gets to completes an unhandled sequence.
-/

namespace KushOs.FbCons

open NestedCall Logging Transition

namespace Console

variable (fb : Framebuffer) {vsnprintf : Printf} {s t : Console} {ch : BitVec 8} {depth : ℕ}

/-- While a sequence is being read, its buffer has room. -/
def Inv (s : Console) : Prop := s.writeState = .ansiReadingCSI → s.ansiBufUsed < kAnsiBufSize

/-- If `ch` completes a sequence, it is one that has a handler, and the handler's array holds each
of its numbers. -/
def Handles (s : Console) (ch : BitVec 8) : Prop :=
  s.writeState = .ansiReadingCSI → isFinalByte ch = true →
    (ch = ascii 'm' ∨ ch = ascii 'H') ∧ ∀ number ∈ numbers s.pending, Fits number

instance (s : Console) (ch : BitVec 8) : Decidable (s.Handles ch) :=
  inferInstanceAs (Decidable (_ → _ → _ ∧ ∀ number ∈ _, Fits number))

theorem Inv.new : (Console.new fb).Inv := fun h => by cases h

/-- The formatter's read of the buffer finds the terminator or overruns it. -/
theorem cString_cases (bytes : List (BitVec 8)) :
    cString bytes = .error .overrun ∨ ∃ text, cString bytes = .ok text := by
  induction bytes with
  | nil => exact .inl rfl
  | cons ch rest ih =>
      rw [cString]
      split
      · exact .inr ⟨_, rfl⟩
      · rcases ih with hrest | ⟨text, hrest⟩ <;> rw [hrest]
        · exact .inl rfl
        · exact .inr ⟨_, rfl⟩

/-- The choice of a handler by the final byte. -/
theorem processAnsi_eq (g : Logger)
    (platformWrite : Console → List (BitVec 8) → Outcome Fault Console)
    (hroom : s.ansiBufUsed < kAnsiBufSize) (ch : BitVec 8) :
    (s.completed ch).processAnsi fb g vsnprintf platformWrite =
      if ch = ascii 'm' then .ofExcept ((s.completed ch).processAnsiSgr fb)
      else if ch = ascii 'H' then .ofExcept (s.completed ch).processAnsiCup
      else (do
        let text ← .ofExcept (cString (s.completed ch).ansiBuf.toList)
        warning g vsnprintf platformWrite (s.completed ch) unhandledFormat
          [.str text, .ulong (s.completed ch).ansiBufUsed, .char ch]) := by
  have hused : (s.completed ch).ansiBufUsed ≠ 0 := Nat.succ_ne_zero _
  unfold processAnsi
  rw [if_neg hused, finalByte_completed hroom]

/-- Processing an unknown sequence: a text that starts with `U` is written to the console, which
is still reading the sequence. -/
theorem processAnsi_other (hprintf : vsnprintf.Conforms)
    (platformWrite : Console → List (BitVec 8) → Outcome Fault Console)
    (hroom : s.ansiBufUsed < kAnsiBufSize) (hm : ch ≠ ascii 'm') (hH : ch ≠ ascii 'H') :
    (s.completed ch).processAnsi fb {} vsnprintf platformWrite = .failed .overrun ∨
      ∃ rest, (s.completed ch).processAnsi fb {} vsnprintf platformWrite =
        platformWrite (s.completed ch) (ascii 'U' :: rest) := by
  rw [processAnsi_eq fb {} platformWrite hroom, if_neg hm, if_neg hH]
  rcases cString_cases (s.completed ch).ansiBuf.toList with htext | ⟨text, htext⟩
  · left
    rw [htext]
    rfl
  · rw [htext]
    exact warning_cases hprintf _ _ _ _ _ (by decide)

/-- A final byte completes the sequence that is being read. -/
theorem write_completing (g : Logger) (hstate : s.writeState = .ansiReadingCSI)
    (hroom : s.ansiBufUsed < kAnsiBufSize) (hfinal : isFinalByte ch = true) (depth : ℕ) :
    s.write fb g vsnprintf (depth + 1) ch = (do
      let t ← (s.completed ch).processAnsi fb g vsnprintf fun s string =>
        string.foldlM (writeLogged (write fb g vsnprintf depth)) s
      .returned { t with writeState := .idle }) := by
  rw [write, writeWith, hstate]
  dsimp only
  rw [pushAnsi_eq hroom]
  show (if isFinalByte ch = true then _ else _) = _
  rw [if_pos hfinal]
  rfl

/-- A final byte of an unknown sequence never gets done: each activation of the code starts
another one, until the buffer is overrun. -/
theorem write_of_unknown (hprintf : vsnprintf.Conforms) (hstate : s.writeState = .ansiReadingCSI)
    (hfinal : isFinalByte ch = true) (hm : ch ≠ ascii 'm') (hH : ch ≠ ascii 'H') (depth : ℕ) :
    (s.write fb {} vsnprintf depth ch).Stuck .overrun := by
  induction depth generalizing s ch with
  | zero => exact .inr rfl
  | succ depth ih =>
      by_cases hroom : s.ansiBufUsed < kAnsiBufSize
      · rw [write_completing fb {} hstate hroom hfinal]
        refine Outcome.Stuck.bind ?_ _
        rcases processAnsi_other fb hprintf
          (fun s string => string.foldlM (writeLogged (write fb {} vsnprintf depth)) s)
          hroom hm hH with hfail | ⟨rest, hlog⟩
        · exact .inl hfail
        · -- the first character of the message is taken into the sequence and completes it
          rw [hlog, List.foldlM_cons]
          refine Outcome.Stuck.bind ?_ _
          exact ih hstate (by decide) (by decide) (by decide)
      · -- the nested calls have filled the buffer
        left
        rw [write, writeWith, hstate]
        dsimp only
        rw [pushAnsi, if_neg hroom]
        rfl

/-- A character that completes a sequence the console cannot handle never gets done. -/
theorem write_of_not_handles (hprintf : vsnprintf.Conforms) (hs : s.Inv) (h : ¬s.Handles ch)
    (depth : ℕ) : (s.write fb {} vsnprintf depth ch).Stuck .overrun := by
  obtain ⟨hstate, hfinal, hbad⟩ : s.writeState = .ansiReadingCSI ∧ isFinalByte ch = true ∧
      ¬((ch = ascii 'm' ∨ ch = ascii 'H') ∧ ∀ number ∈ numbers s.pending, Fits number) := by
    simpa only [Handles, Classical.not_imp] using h
  by_cases hknown : ch = ascii 'm' ∨ ch = ascii 'H'
  · -- there is a handler, and one of the numbers overruns its array
    have hfits : ∃ number ∈ numbers s.pending, ¬Fits number := by
      simpa [hknown] using hbad
    cases depth with
    | zero => exact .inr rfl
    | succ depth =>
        left
        rw [write_completing fb {} hstate (hs hstate) hfinal, processAnsi_eq fb {} _ (hs hstate)]
        rcases hknown with rfl | rfl
        · rw [if_pos rfl, processAnsiSgr_of_not_fits fb (hs hstate) _ hfits]
          rfl
        · rw [if_neg (by decide), if_pos rfl, processAnsiCup_of_not_fits (hs hstate) _ hfits]
          rfl
  · obtain ⟨hm, hH⟩ := not_or.mp hknown
    exact write_of_unknown fb hprintf hstate hfinal hm hH depth

/-- Outside escape sequences, a character is printed. -/
theorem write_idle (g : Logger) (hstate : s.writeState = .idle) (hch : ch ≠ ascii '\x1b')
    (depth : ℕ) : s.write fb g vsnprintf (depth + 1) ch = .ofExcept (s.print fb ch) := by
  rw [write, writeWith, hstate]
  exact if_pos hch

/-- The final byte of a cursor position whose numbers fit. -/
theorem write_cup (g : Logger) (hstate : s.writeState = .ansiReadingCSI)
    (hroom : s.ansiBufUsed < kAnsiBufSize) (hfits : ∀ number ∈ numbers s.pending, Fits number)
    (depth : ℕ) :
    s.write fb g vsnprintf (depth + 1) (ascii 'H') = .returned
      { (s.completed (ascii 'H')).terminate.moveCursors true (numbers s.pending) with
        writeState := .idle } := by
  rw [write_completing fb g hstate hroom (by decide), processAnsi_eq fb g _ hroom,
    if_neg (by decide), if_pos rfl, processAnsiCup_of_fits hroom _ hfits]
  rfl

/-- The character that starts an escape sequence. -/
theorem write_escape (g : Logger) (hstate : s.writeState = .idle) (hch : ch = ascii '\x1b') :
    ∃ t, SameScreen s t ∧ t.Inv ∧
      ∀ depth, s.write fb g vsnprintf (depth + 1) ch = .returned t := by
  refine ⟨{ s with writeState := .ansiEscapeStart }, ⟨rfl, rfl, rfl, rfl⟩,
    (fun hne => by cases hne), fun depth => ?_⟩
  rw [write, writeWith, hstate]
  exact if_neg (not_not.mpr hch)

/-- The character behind it, which starts a control sequence or ends the escape sequence. -/
theorem write_escapeStart (g : Logger) (hstate : s.writeState = .ansiEscapeStart) :
    ∃ t, SameScreen s t ∧ t.Inv ∧
      ∀ depth, s.write fb g vsnprintf (depth + 1) ch = .returned t := by
  by_cases hbracket : ch = ascii '['
  · refine ⟨{ s with
        writeState := .ansiReadingCSI
        ansiBufUsed := 0
        ansiBuf := Vector.replicate kAnsiBufSize 0#8 }, ⟨rfl, rfl, rfl, rfl⟩,
      (fun _ => (by decide : 0 < kAnsiBufSize)), fun depth => ?_⟩
    rw [write, writeWith, hstate]
    exact if_pos hbracket
  · refine ⟨{ s with writeState := .idle }, ⟨rfl, rfl, rfl, rfl⟩, (fun hne => by cases hne),
      fun depth => ?_⟩
    rw [write, writeWith, hstate]
    exact if_neg hbracket

/-- A parameter byte: the machine goes on, unless the buffer is full. -/
theorem write_parameter (g : Logger) (hstate : s.writeState = .ansiReadingCSI)
    (hroom : s.ansiBufUsed < kAnsiBufSize) (hfinal : isFinalByte ch = false) :
    ∃ t, SameScreen s t ∧ t.Inv ∧
      ∀ depth, s.write fb g vsnprintf (depth + 1) ch = .returned t := by
  by_cases hfull : (s.completed ch).ansiBufUsed = kAnsiBufSize
  · -- the sequence is given up, and the machine prints again
    refine ⟨{ s.completed ch with writeState := .idle }, ⟨rfl, rfl, rfl, rfl⟩,
      (fun hne => by cases hne), fun depth => ?_⟩
    rw [write, writeWith, hstate]
    dsimp only
    rw [pushAnsi_eq hroom]
    show (if isFinalByte ch = true then _ else if _ then _ else _) = _
    rw [hfinal, if_neg Bool.false_ne_true, if_pos hfull]
    rfl
  · refine ⟨s.completed ch, ⟨rfl, rfl, rfl, rfl⟩, fun _ => ?_, fun depth => ?_⟩
    · have hle : (s.completed ch).ansiBufUsed ≤ kAnsiBufSize := hroom
      exact Nat.lt_of_le_of_ne hle hfull
    · rw [write, writeWith, hstate]
      dsimp only
      rw [pushAnsi_eq hroom]
      show (if isFinalByte ch = true then _ else if _ then _ else _) = _
      rw [hfinal, if_neg Bool.false_ne_true, if_neg hfull]
      rfl

/-- The final byte of attributes whose numbers fit. -/
theorem write_sgr (g : Logger) (hstate : s.writeState = .ansiReadingCSI)
    (hroom : s.ansiBufUsed < kAnsiBufSize) (hfits : ∀ number ∈ numbers s.pending, Fits number) :
    ∃ t, SameScreen s t ∧ t.Inv ∧
      ∀ depth, s.write fb g vsnprintf (depth + 1) (ascii 'm') = .returned t := by
  obtain ⟨t, ht, hsame⟩ := processAnsiSgr_of_fits fb hroom (ascii 'm') hfits
  refine ⟨{ t with writeState := .idle },
    ⟨hsame.stores, hsame.logged, hsame.cursorCol, hsame.cursorRow⟩, (fun hne => by cases hne),
    fun depth => ?_⟩
  rw [write_completing fb g hstate hroom (by decide), processAnsi_eq fb g _ hroom, if_pos rfl, ht]
  rfl

/-- A character that completes no unhandled sequence needs no nested call: it is printed, it moves
the cursor, or it changes nothing but the machine and the colours. -/
theorem write_cases (g : Logger) (hs : s.Inv) (h : s.Handles ch) :
    (s.writeState = .idle ∧
      ∀ depth, s.write fb g vsnprintf (depth + 1) ch = .ofExcept (s.print fb ch)) ∨
    (s.writeState = .ansiReadingCSI ∧ ch = ascii 'H' ∧
      ∀ depth, s.write fb g vsnprintf (depth + 1) ch = .returned
        { (s.completed ch).terminate.moveCursors true (numbers s.pending) with
          writeState := .idle }) ∨
    ∃ t, SameScreen s t ∧ t.Inv ∧ (s.writeState = .ansiReadingCSI → ch ≠ ascii 'H') ∧
      ∀ depth, s.write fb g vsnprintf (depth + 1) ch = .returned t := by
  -- in each state of the parser; only printing and moving the cursor go further
  cases hstate : s.writeState with
  | idle =>
      by_cases hescape : ch = ascii '\x1b'
      · obtain ⟨t, hsame, hinv, hwrite⟩ := write_escape fb g hstate hescape
        exact .inr (.inr ⟨t, hsame, hinv, (fun hne => by cases hne), hwrite⟩)
      · exact .inl ⟨rfl, write_idle fb g hstate hescape⟩
  | ansiEscapeStart =>
      obtain ⟨t, hsame, hinv, hwrite⟩ := write_escapeStart fb g hstate
      exact .inr (.inr ⟨t, hsame, hinv, (fun hne => by cases hne), hwrite⟩)
  | ansiReadingCSI =>
      have hroom := hs hstate
      cases hfinal : isFinalByte ch with
      | false =>
          have hnot : ch ≠ ascii 'H' := by
            rintro rfl
            exact absurd hfinal (by decide)
          obtain ⟨t, hsame, hinv, hwrite⟩ := write_parameter fb g hstate hroom hfinal
          exact .inr (.inr ⟨t, hsame, hinv, fun _ => hnot, hwrite⟩)
      | true =>
          obtain ⟨hknown, hfits⟩ := h hstate hfinal
          rcases hknown with rfl | rfl
          · obtain ⟨t, hsame, hinv, hwrite⟩ := write_sgr fb g hstate hroom hfits
            exact .inr (.inr ⟨t, hsame, hinv, (fun _ => by decide), hwrite⟩)
          · exact .inr (.inl ⟨rfl, rfl, write_cup fb g hstate hroom hfits⟩)

/-- One character written to the console with the logger's default filter, as a step. -/
def Writes (vsnprintf : Printf) (s : Console) (ch : BitVec 8) (t : Console) : Prop :=
  ∃ depth, s.write fb {} vsnprintf depth ch = .returned t

/-- What a character does when it returns. -/
theorem Writes.cases (hprintf : vsnprintf.Conforms) (hs : s.Inv)
    (h : Writes fb vsnprintf s ch t) :
    (s.writeState = .idle ∧ s.print fb ch = .ok t) ∨
    (s.writeState = .ansiReadingCSI ∧ ch = ascii 'H' ∧
      t = { (s.completed ch).terminate.moveCursors true (numbers s.pending) with
        writeState := .idle }) ∨
    SameScreen s t ∧ t.Inv ∧ (s.writeState = .ansiReadingCSI → ch ≠ ascii 'H') := by
  obtain ⟨depth, hwrite⟩ := h
  have hhandles : s.Handles ch := by
    by_contra hbad
    exact (write_of_not_handles fb hprintf hs hbad depth).ne_returned t hwrite
  cases depth with
  | zero => cases hwrite
  | succ depth =>
      -- the depth was enough to return, so what is returned does not depend on it
      rcases write_cases fb {} hs hhandles with ⟨hstate, hprint⟩ | ⟨hstate, hch, hcup⟩ |
        ⟨u, hsame, hinv, hnot, hother⟩
      · rw [hprint] at hwrite
        exact .inl ⟨hstate, Outcome.ofExcept_eq_returned.mp hwrite⟩
      · rw [hcup] at hwrite
        exact .inr (.inl ⟨hstate, hch, (Outcome.returned.inj hwrite).symm⟩)
      · rw [hother] at hwrite
        cases hwrite
        exact .inr (.inr ⟨hsame, hinv, hnot⟩)

/-- The buffer has room whenever a sequence is being read. -/
theorem Inv.writes (hprintf : vsnprintf.Conforms) (hs : s.Inv) (h : Writes fb vsnprintf s ch t) :
    t.Inv := by
  rcases h.cases fb hprintf hs with ⟨hstate, hprint⟩ | ⟨-, -, rfl⟩ | ⟨-, hinv, -⟩
  · rcases s.print_cases fb ch with hpanic | ⟨u, hu, hsame⟩
    · rw [hpanic] at hprint
      cases hprint
    · rw [hu] at hprint
      cases hprint
      intro hreading
      rw [hsame.writeState, hstate] at hreading
      cases hreading
  · intro hreading
    cases hreading
  · exact hinv

/-- A character is processed to the end: some bound on the depth of the calls is enough for `write`
to return or for the kernel to stop with a panic, and no character of a log message was taken into
a sequence. -/
def ProcessesCleanly (vsnprintf : Printf) (s : Console) (ch : BitVec 8) : Prop :=
  ∃ depth, s.write fb {} vsnprintf depth ch = .failed .panic ∨
    ∃ t new, s.write fb {} vsnprintf depth ch = .returned t ∧ t.logged = s.logged ++ new ∧
      ∀ entry ∈ new, entry.1 ≠ .ansiReadingCSI

theorem processesCleanly_iff (hprintf : vsnprintf.Conforms) (hs : s.Inv) (ch : BitVec 8) :
    ProcessesCleanly fb vsnprintf s ch ↔ s.Handles ch := by
  constructor
  · -- a character that is not handled runs into the end of the buffer at every depth
    rintro ⟨depth, hdone⟩
    by_contra hbad
    have hstuck := write_of_not_handles fb hprintf hs hbad depth
    rcases hdone with hpanic | ⟨t, -, hreturned, -⟩
    · exact hstuck.ne_failed (by decide) hpanic
    · exact hstuck.ne_returned t hreturned
  · -- one activation is enough for any other
    intro hhandles
    refine ⟨1, ?_⟩
    rcases write_cases fb {} hs hhandles with ⟨-, hprint⟩ | ⟨-, -, hcup⟩ | ⟨t, hsame, -, -, hother⟩
    · rw [hprint 0]
      rcases s.print_cases fb ch with hpanic | ⟨t, ht, hsame⟩
      · left
        rw [hpanic]
        rfl
      · right
        rw [ht]
        exact ⟨t, [], rfl, by rw [hsame.logged, List.append_nil], by simp⟩
    · exact .inr ⟨_, [], hcup 0, (List.append_nil _).symm, by simp⟩
    · exact .inr ⟨t, [], hother 0, by rw [hsame.logged, List.append_nil], by simp⟩

end Console

open Console

/-- The output of a text terminates exactly when every character that the console gets to is
handled: if it completes an escape sequence, the sequence ends in `m` or `H` and its numbers fit
the handler's array. A panic of `memcpy` on the way, which refuses to scroll some screens, counts as
an end. -/
theorem console_terminates (fb : Framebuffer) {vsnprintf : Printf} (hprintf : vsnprintf.Conforms)
    {s : Console} (hs : s.Inv) (text : List (BitVec 8)) :
    Along (Writes fb vsnprintf) (ProcessesCleanly fb vsnprintf) s text ↔
      Along (Writes fb vsnprintf) Handles s text :=
  Along.congr (fun _ _ _ hinv hwrite => hinv.writes fb hprintf hwrite) hs
    fun _ ch hinv => processesCleanly_iff fb hprintf hinv ch

/-! ### A screen of two columns and six rows -/

/-- A framebuffer of 16 by 96 pixels. -/
def smallScreen : Framebuffer where
  buffer := 0xffffa00000000000#64
  bufferFormat := .argb
  width := 16
  height := 96
  stride := 0
  kFontDataBizcat := Vector.replicate 4096 0xFF#8
  width_lt := by decide
  height_lt := by decide

/-- The console has read the start of the colour sequence `ESC [ 31 m`. -/
def readingRed : Console :=
  { Console.new smallScreen with
    writeState := .ansiReadingCSI
    ansiBufUsed := 2
    ansiBuf := (Vector.replicate kAnsiBufSize 0#8).set 0 (ascii '3') |>.set 1 (ascii '1') }

/-- The final byte of the colour sequence is processed. -/
theorem console_terminates_red :
    readingRed.Inv ∧
      Along (Writes smallScreen printf) (ProcessesCleanly smallScreen printf) readingRed
        [ascii 'm'] := by
  have hinv : readingRed.Inv := fun _ => (by decide : 2 < kAnsiBufSize)
  have hhandles : readingRed.Handles (ascii 'm') := by decide +kernel
  exact ⟨hinv, (console_terminates smallScreen printf_conforms hinv _).mpr (Along.single hhandles)⟩

/-- Moving the cursor up, `ESC [ A`, on a console that was just constructed: the `A` is never
processed to the end. -/
theorem console_not_terminates :
    ¬Along (Writes smallScreen printf) (ProcessesCleanly smallScreen printf)
      (Console.new smallScreen) [ascii '\x1b', ascii '[', ascii 'A'] := by
  intro hclean
  have hescape : Writes smallScreen printf (Console.new smallScreen) (ascii '\x1b')
      { Console.new smallScreen with writeState := .ansiEscapeStart } := ⟨1, rfl⟩
  have hbracket : Writes smallScreen printf
      { Console.new smallScreen with writeState := .ansiEscapeStart } (ascii '[')
      { Console.new smallScreen with writeState := .ansiReadingCSI } := ⟨1, rfl⟩
  have hprocessed := hclean [ascii '\x1b', ascii '['] (ascii 'A') [] _ rfl
    (.cons hescape (.cons hbracket (.nil _)))
  have hhandles := (processesCleanly_iff smallScreen printf_conforms
    (fun _ => (by decide : 0 < kAnsiBufSize)) _).mp hprocessed
  exact absurd (hhandles rfl (by decide)).1 (by decide)

end KushOs.FbCons
