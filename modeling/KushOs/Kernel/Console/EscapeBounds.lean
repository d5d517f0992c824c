import KushOs.Kernel.Console.Sequence

/-!
# The buffers of escape sequences

The machine stores the bytes of a sequence in an array of 32 characters, and the handlers store each
number in one of eight, which `StrToInt` reads up to the first character that is not a digit. No
access leaves these arrays as long as every sequence that is completed has a handler and its numbers
fit. The warning about a sequence without a handler fills the array of the sequence.

## Main results

* `Console.write_unknown_overruns`: a sequence without a handler overruns its array.
* `escape_buffers`: the texts that stay inside the arrays.
-/

namespace KushOs.FbCons

open NestedCall Logging Transition

namespace Console

variable (fb : Framebuffer) {vsnprintf : Printf} {s : Console} {ch : BitVec 8} {depth : ℕ}

/-- However deeply the calls nest, no access is outside of the array that it is made to. -/
def StaysInBuffers (vsnprintf : Printf) (s : Console) (ch : BitVec 8) : Prop :=
  ∀ depth, s.write fb {} vsnprintf depth ch ≠ .failed .overrun

/-- The final byte of a sequence without a handler: when the calls may nest as deeply as the array
has room, the array is overrun. -/
theorem write_unknown_overruns (hprintf : vsnprintf.Conforms)
    (hstate : s.writeState = .ansiReadingCSI) (hused : s.ansiBufUsed ≤ kAnsiBufSize)
    (hfinal : isFinalByte ch = true) (hm : ch ≠ ascii 'm') (hH : ch ≠ ascii 'H')
    (hdepth : kAnsiBufSize < depth + s.ansiBufUsed) :
    s.write fb {} vsnprintf depth ch = .failed .overrun := by
  -- each nested activation takes one more byte of the array
  induction depth generalizing s ch with
  | zero => omega
  | succ depth ih =>
      by_cases hroom : s.ansiBufUsed < kAnsiBufSize
      · rw [write_completing fb {} hstate hroom hfinal]
        rcases processAnsi_other fb hprintf
          (fun s string => string.foldlM (writeLogged (write fb {} vsnprintf depth)) s)
          hroom hm hH with hfail | ⟨rest, hlog⟩
        · rw [hfail]
          rfl
        · -- the first character of the warning is the final byte of a longer sequence
          have hnext : (writeLogged (write fb {} vsnprintf depth) (s.completed ch) (ascii 'U')) =
              .failed .overrun := by
            refine ih hstate hroom (by decide) (by decide) (by decide) ?_
            show kAnsiBufSize < depth + (s.ansiBufUsed + 1)
            omega
          rw [hlog, List.foldlM_cons, hnext]
          rfl
      · rw [write, writeWith, hstate]
        dsimp only
        rw [pushAnsi, if_neg hroom]
        rfl

/-- A character that completes a sequence the console cannot handle overruns an array. -/
theorem exists_overrun (hprintf : vsnprintf.Conforms) (hs : s.Inv) (h : ¬s.Handles ch) :
    ∃ depth, s.write fb {} vsnprintf depth ch = .failed .overrun := by
  obtain ⟨hstate, hfinal, hbad⟩ : s.writeState = .ansiReadingCSI ∧ isFinalByte ch = true ∧
      ¬((ch = ascii 'm' ∨ ch = ascii 'H') ∧ ∀ number ∈ numbers s.pending, Fits number) := by
    simpa only [Handles, Classical.not_imp] using h
  by_cases hknown : ch = ascii 'm' ∨ ch = ascii 'H'
  · -- the array of the handler is overrun in the first activation
    have hroom := hs hstate
    have hfits : ∃ number ∈ numbers s.pending, ¬Fits number := by
      simpa [hknown] using hbad
    refine ⟨1, ?_⟩
    rw [write_completing fb {} hstate hroom hfinal, processAnsi_eq fb {} _ hroom]
    rcases hknown with rfl | rfl
    · rw [if_pos rfl, processAnsiSgr_of_not_fits fb hroom _ hfits]
      rfl
    · rw [if_neg (by decide), if_pos rfl, processAnsiCup_of_not_fits hroom _ hfits]
      rfl
  · obtain ⟨hm, hH⟩ := not_or.mp hknown
    exact ⟨kAnsiBufSize + 1, write_unknown_overruns fb hprintf hstate (hs hstate).le hfinal hm hH
      (by omega)⟩

/-- A character stays inside the arrays exactly if it is handled. -/
theorem staysInBuffers_iff (hprintf : vsnprintf.Conforms) (hs : s.Inv) (ch : BitVec 8) :
    StaysInBuffers fb vsnprintf s ch ↔ s.Handles ch := by
  constructor
  · intro hstays
    by_contra hbad
    obtain ⟨depth, hoverrun⟩ := exists_overrun fb hprintf hs hbad
    exact hstays depth hoverrun
  · intro hhandles depth
    cases depth with
    | zero => simp [write]
    | succ depth =>
        rcases write_cases fb {} hs hhandles with ⟨-, hprint⟩ | ⟨-, -, hcup⟩ | ⟨t, -, -, -, hother⟩
        · rw [hprint depth]
          rcases s.print_cases fb ch with hpanic | ⟨t, ht, -⟩
          · simp [hpanic]
          · simp [ht]
        · simp [hcup depth]
        · simp [hother depth]

end Console

open Console

/-- For every state in which the array has room while a sequence is read, as in every state that
the console gets to, and every text: all accesses stay inside their arrays exactly if every
character that the console gets to is handled, that is, if it completes a sequence, the sequence
ends in `m` or `H` and its numbers fit. -/
theorem escape_buffers (fb : Framebuffer) {vsnprintf : Printf} (hprintf : vsnprintf.Conforms)
    {s : Console} (hs : s.Inv) (text : List (BitVec 8)) :
    Along (Writes fb vsnprintf) (StaysInBuffers fb vsnprintf) s text ↔
      Along (Writes fb vsnprintf) Handles s text :=
  Along.congr (fun _ _ _ hinv hwrite => hinv.writes fb hprintf hwrite) hs
    fun _ ch hinv => staysInBuffers_iff fb hprintf hinv ch

/-- The final byte of the colour sequence `ESC [ 31 m`. -/
theorem escape_buffers_red :
    Along (Writes smallScreen printf) (StaysInBuffers smallScreen printf) readingRed
      [ascii 'm'] := by
  have hinv : readingRed.Inv := fun _ => (by decide : 2 < kAnsiBufSize)
  have hhandles : readingRed.Handles (ascii 'm') := by decide +kernel
  exact (escape_buffers smallScreen printf_conforms hinv _).mpr (Along.single hhandles)

/-- Eight digits fill the array of the handler, so that `StrToInt` finds no end. -/
theorem escape_buffers_overrun :
    ¬Along (Writes smallScreen printf) (StaysInBuffers smallScreen printf)
      (Console.new smallScreen)
      ([ascii '\x1b', ascii '['] ++ List.replicate 8 (ascii '9') ++ [ascii 'm']) := by
  intro hstays
  have hread : (Console.new smallScreen).writeString smallScreen {} printf 1
      ([ascii '\x1b', ascii '['] ++ List.replicate 8 (ascii '9')) =
        .returned ((Console.new smallScreen).beforeFinal (List.replicate 8 (ascii '9'))) :=
    writeString_beforeFinal smallScreen rfl (by decide) (by decide)
  obtain ⟨-, hstate, -, -, hused, hpending⟩ :=
    (Console.new smallScreen).beforeFinal_fields
      (show (List.replicate 8 (ascii '9')).length < kAnsiBufSize by decide)
  have hinv : ((Console.new smallScreen).beforeFinal (List.replicate 8 (ascii '9'))).Inv := by
    intro _
    rw [hused]
    decide
  have hfinal := hstays _ _ [] _ rfl (run_of_writeString smallScreen hread)
  obtain ⟨-, hfits⟩ := (staysInBuffers_iff smallScreen printf_conforms hinv _).mp hfinal hstate
    (by decide)
  rw [hpending] at hfits
  revert hfits
  decide +kernel

end KushOs.FbCons
