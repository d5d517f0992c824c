import KushOs.Kernel.Console.Log

/-!
# Log messages of any length

`Console::Log` formats into a buffer of 1024 characters of which the formatter may use 1023, and
stores a newline behind the text. It takes the length that the formatter returns for the position of
the newline, and that is the length of the whole text, so a message that was cut comes with a
terminator in the middle or has its newline stored outside of the buffer. `Console::Panic` logs two
messages, with texts that may fill a buffer of the same size.

## Main definitions

* `panic`: `Console::Panic` up to the halt.
* `handOver`: what is to become of a message.

## Main results

* `log_of_fits`, `log_record_of_not_fits`: what becomes of it.
* `console_log`: the messages that are handed over as they are stored.
-/

namespace KushOs.Logging

open NestedCall

variable {σ : Type} {g : Logger} {vsnprintf : Printf} {fmt : List (BitVec 8)} {args : List Arg}

/-- `kMsgBufChars`: size of the buffer of `Console::Panic`. -/
def kMsgBufChars : ℕ := 1024

/-- The format of the message of `Console::Panic`. -/
def panicFormat : List (BitVec 8) :=
  "\n\x1b[101;97mPANIC: %s\x1b[0m\nPC = %p\n".toList.map ascii

/-- The format of its second message. -/
def backtraceFormat : List (BitVec 8) := "Backtrace:%s".toList.map ascii

/-- `Console::Error`. -/
def error (g : Logger) (vsnprintf : Printf)
    (platformWrite : σ → List (BitVec 8) → Outcome Fault σ) (s : σ) (fmt : List (BitVec 8))
    (args : List Arg) : Outcome Fault σ :=
  log g vsnprintf platformWrite s fmt args

/-- `Console::Panic` up to the halt. The program counter is passed on as the integer that it is;
`backtrace` is the text that `Backtrace::Print` leaves in the buffer. -/
def panic (g : Logger) (vsnprintf : Printf)
    (platformWrite : σ → List (BitVec 8) → Outcome Fault σ) (backtrace : List (BitVec 8))
    (pc : BitVec 64) (s : σ) (fmt : List (BitVec 8)) (args : List Arg) : Outcome Fault σ := do
  let panicMsgBuf := (vsnprintf kMsgBufChars fmt args).1
  let s ← error g vsnprintf platformWrite s panicFormat
    [.str (panicMsgBuf.takeWhile (· ≠ 0#8)), .ulong pc.toNat]
  error g vsnprintf platformWrite s backtraceFormat [.str backtrace]

/-! ## What becomes of a message -/

/-- The characters that the formatter stores in the buffer for a message. -/
def stored (vsnprintf : Printf) (fmt : List (BitVec 8)) (args : List Arg) : List (BitVec 8) :=
  (vsnprintf (kBufChars - 1) fmt args).1

/-- The length of the whole text. -/
def fullLength (vsnprintf : Printf) (fmt : List (BitVec 8)) (args : List Arg) : ℕ :=
  (vsnprintf (kBufChars - 1) fmt args).2

/-- What is to become of a stored text: it is handed over with one newline. -/
def handOver (g : Logger) (platformWrite : σ → List (BitVec 8) → Outcome Fault σ) (s : σ)
    (text : List (BitVec 8)) : Outcome Fault σ :=
  if g.gPlatformConsoleEnabled then platformWrite s (text ++ [ascii '\n']) else .returned s

/-- The text and its newline fit the buffer, and the text was not cut if it is handed over. -/
def FitsBuffer (g : Logger) (length : ℕ) : Prop :=
  length < if g.gPlatformConsoleEnabled then kBufChars - 1 else kBufChars

/-- A message that fits is handed over as it was stored. -/
theorem log_of_fits (hprintf : vsnprintf.Conforms)
    (platformWrite : σ → List (BitVec 8) → Outcome Fault σ) (s : σ)
    (hfits : FitsBuffer g (fullLength vsnprintf fmt args)) :
    log g vsnprintf platformWrite s fmt args =
      handOver g platformWrite s (stored vsnprintf fmt args) := by
  have hlength : (stored vsnprintf fmt args).length =
      min (fullLength vsnprintf fmt args) (kBufChars - 1 - 1) :=
    hprintf.stored (kBufChars - 1) fmt args (by decide)
  have hsize : kBufChars = 1024 := rfl
  show (if fullLength vsnprintf fmt args < kBufChars then
    if g.gPlatformConsoleEnabled then
      platformWrite s ((stored vsnprintf fmt args ++ [0#8]).take (fullLength vsnprintf fmt args) ++
        [ascii '\n'])
    else .returned s
    else .failed .overrun) = _
  unfold FitsBuffer at hfits
  unfold handOver
  split at hfits
  · rw [if_pos (by omega), List.take_append_of_le_length (by omega),
      List.take_of_length_le (by omega)]
  · rename_i hdisabled
    rw [if_pos hfits, if_neg hdisabled, if_neg hdisabled]

/-- A platform console that records what it is handed. -/
def record (s : List (List (BitVec 8))) (string : List (BitVec 8)) :
    Outcome Fault (List (List (BitVec 8))) := .returned (s ++ [string])

/-- A message that does not fit overruns the buffer, or its terminator is handed over, too. -/
theorem log_record_of_not_fits (hprintf : vsnprintf.Conforms) (s : List (List (BitVec 8)))
    (hfits : ¬FitsBuffer g (fullLength vsnprintf fmt args)) :
    log g vsnprintf record s fmt args = .failed .overrun ∨
      g.gPlatformConsoleEnabled = true ∧ log g vsnprintf record s fmt args =
        .returned (s ++ [stored vsnprintf fmt args ++ [0#8] ++ [ascii '\n']]) := by
  have hlength : (stored vsnprintf fmt args).length =
      min (fullLength vsnprintf fmt args) (kBufChars - 1 - 1) :=
    hprintf.stored (kBufChars - 1) fmt args (by decide)
  have hsize : kBufChars = 1024 := rfl
  have hlog : log g vsnprintf record s fmt args = if fullLength vsnprintf fmt args < kBufChars then
    if g.gPlatformConsoleEnabled then
      record s ((stored vsnprintf fmt args ++ [0#8]).take (fullLength vsnprintf fmt args) ++
        [ascii '\n'])
    else .returned s
    else .failed .overrun := rfl
  by_cases hroom : fullLength vsnprintf fmt args < kBufChars
  · right
    unfold FitsBuffer at hfits
    split at hfits
    · -- exactly one character was cut
      rename_i henabled
      refine ⟨henabled, ?_⟩
      rw [hlog, if_pos hroom, if_pos henabled, List.take_of_length_le]
      · rfl
      · rw [List.length_append, List.length_singleton]
        omega
    · exact absurd hroom hfits
  · left
    rw [hlog, if_neg hroom]

/-- A recorder that is handed a text. -/
theorem handOver_record (g : Logger) (s : List (List (BitVec 8))) (text : List (BitVec 8)) :
    handOver g record s text =
      .returned (s ++ if g.gPlatformConsoleEnabled then [text ++ [ascii '\n']] else []) := by
  unfold handOver
  split
  · rfl
  · rw [List.append_nil]

/-- What was recorded before stays recorded. -/
theorem log_record_cases (hprintf : vsnprintf.Conforms) (s : List (List (BitVec 8))) :
    log g vsnprintf record s fmt args = .failed .overrun ∨
      ∃ new, log g vsnprintf record s fmt args = .returned (s ++ new) := by
  by_cases hfits : FitsBuffer g (fullLength vsnprintf fmt args)
  · right
    rw [log_of_fits hprintf record s hfits, handOver_record]
    exact ⟨_, rfl⟩
  · exact (log_record_of_not_fits hprintf s hfits).imp_right fun h => ⟨_, h.2⟩

/-- A message that does not fit is not handed over as it was stored. -/
theorem log_record_ne (hprintf : vsnprintf.Conforms) (s : List (List (BitVec 8)))
    (hfits : ¬FitsBuffer g (fullLength vsnprintf fmt args)) :
    log g vsnprintf record s fmt args ≠
      handOver g record s (stored vsnprintf fmt args) := by
  rw [handOver_record]
  rcases log_record_of_not_fits hprintf s hfits with hoverrun | ⟨henabled, hcut⟩
  · rw [hoverrun]
    intro heq
    cases heq
  · rw [hcut, if_pos henabled]
    intro heq
    have htexts := List.singleton_inj.mp (List.append_cancel_left (Outcome.returned.inj heq))
    simpa using congrArg List.length htexts

/-! ## Messages that are handed over exactly -/

/-- Whatever the platform's console does with it, it is handed the stored text of a message and one
newline. -/
def LogsExactly (g : Logger) (vsnprintf : Printf) (fmt : List (BitVec 8)) (args : List Arg) :
    Prop :=
  ∀ (σ : Type) (platformWrite : σ → List (BitVec 8) → Outcome Fault σ) (s : σ),
    log g vsnprintf platformWrite s fmt args =
      handOver g platformWrite s (stored vsnprintf fmt args)

theorem logsExactly_iff (hprintf : vsnprintf.Conforms) (fmt : List (BitVec 8)) (args : List Arg) :
    LogsExactly g vsnprintf fmt args ↔ FitsBuffer g (fullLength vsnprintf fmt args) := by
  refine ⟨fun hexact => ?_,
    fun hfits σ platformWrite s => log_of_fits hprintf platformWrite s hfits⟩
  by_contra hfits
  exact log_record_ne hprintf [] hfits (hexact _ record [])

/-- The arguments of the first message of a panic. -/
def panicArgs (vsnprintf : Printf) (fmt : List (BitVec 8)) (args : List Arg) (pc : BitVec 64) :
    List Arg :=
  [.str ((vsnprintf kMsgBufChars fmt args).1.takeWhile (· ≠ 0#8)), .ulong pc.toNat]

/-- A panic hands over the stored text of both of its messages, with one newline each. -/
def PanicsExactly (g : Logger) (vsnprintf : Printf) (backtrace : List (BitVec 8)) (pc : BitVec 64)
    (fmt : List (BitVec 8)) (args : List Arg) : Prop :=
  ∀ (σ : Type) (platformWrite : σ → List (BitVec 8) → Outcome Fault σ) (s : σ),
    panic g vsnprintf platformWrite backtrace pc s fmt args = (do
      let s ← handOver g platformWrite s
        (stored vsnprintf panicFormat (panicArgs vsnprintf fmt args pc))
      handOver g platformWrite s (stored vsnprintf backtraceFormat [.str backtrace]))

theorem panicsExactly_iff (hprintf : vsnprintf.Conforms) (backtrace : List (BitVec 8))
    (pc : BitVec 64) (fmt : List (BitVec 8)) (args : List Arg) :
    PanicsExactly g vsnprintf backtrace pc fmt args ↔
      FitsBuffer g (fullLength vsnprintf panicFormat (panicArgs vsnprintf fmt args pc)) ∧
        FitsBuffer g (fullLength vsnprintf backtraceFormat [.str backtrace]) := by
  constructor
  · intro hexact
    -- a platform console that records what it is handed tells the texts apart
    have hpanic : (log g vsnprintf record [] panicFormat (panicArgs vsnprintf fmt args pc) >>=
        fun s => log g vsnprintf record s backtraceFormat [.str backtrace]) = (do
          let s ← handOver g record []
            (stored vsnprintf panicFormat (panicArgs vsnprintf fmt args pc))
          handOver g record s (stored vsnprintf backtraceFormat [.str backtrace])) :=
      hexact _ record []
    have hfirst :
        FitsBuffer g (fullLength vsnprintf panicFormat (panicArgs vsnprintf fmt args pc)) := by
      by_contra hfits
      rw [handOver_record, Outcome.returned_bind, handOver_record] at hpanic
      rcases log_record_of_not_fits hprintf [] hfits with hoverrun | ⟨henabled, hcut⟩
      · rw [hoverrun] at hpanic
        cases hpanic
      · -- the first text that is recorded is too long, whatever comes behind it
        rw [hcut, Outcome.returned_bind, if_pos henabled] at hpanic
        rcases @log_record_cases g vsnprintf backtraceFormat [.str backtrace] hprintf
          ([] ++ [stored vsnprintf panicFormat (panicArgs vsnprintf fmt args pc) ++ [0#8] ++
            [ascii '\n']]) with hlog | ⟨new, hlog⟩
        · rw [hlog] at hpanic
          cases hpanic
        · rw [hlog] at hpanic
          have htexts := (List.cons.inj (Outcome.returned.inj hpanic)).1
          simpa using congrArg List.length htexts
    refine ⟨hfirst, ?_⟩
    by_contra hfits
    rw [log_of_fits hprintf record [] hfirst, handOver_record] at hpanic
    exact log_record_ne hprintf _ hfits hpanic
  · rintro ⟨hfirst, hsecond⟩ σ platformWrite s
    show (log g vsnprintf platformWrite s panicFormat (panicArgs vsnprintf fmt args pc) >>= fun s =>
      log g vsnprintf platformWrite s backtraceFormat [.str backtrace]) = _
    rw [log_of_fits hprintf platformWrite s hfirst]
    exact congrArg _ (funext fun s => log_of_fits hprintf platformWrite s hsecond)

/-- For every setting of the logger and every formatter that cuts texts as documented: a message is
handed over exactly as it is stored if and only if its whole text has at most 1022 characters, or
1023 if the platform's console is switched off, and a panic is if and only if both of its messages
have at most so many. -/
theorem console_log {vsnprintf : Printf} (hprintf : vsnprintf.Conforms) (g : Logger) :
    (∀ fmt args, LogsExactly g vsnprintf fmt args ↔
      FitsBuffer g (fullLength vsnprintf fmt args)) ∧
    ∀ backtrace pc fmt args, PanicsExactly g vsnprintf backtrace pc fmt args ↔
      FitsBuffer g (fullLength vsnprintf panicFormat (panicArgs vsnprintf fmt args pc)) ∧
        FitsBuffer g (fullLength vsnprintf backtraceFormat [.str backtrace]) :=
  ⟨logsExactly_iff hprintf, panicsExactly_iff hprintf⟩

/-- A format that prints one string. -/
def stringFormat : List (BitVec 8) := "%s".toList.map ascii

/-- A message of 16 characters, and a panic with it and a backtrace of one line. -/
theorem console_log_short :
    LogsExactly {} printf stringFormat [.str (List.replicate 16 (ascii 'A'))] ∧
      PanicsExactly {} printf ("\n0: _osentry".toList.map ascii) 0xffffffff80001234#64 stringFormat
        [.str (List.replicate 16 (ascii 'A'))] := by
  obtain ⟨hlog, hpanic⟩ := console_log printf_conforms {}
  exact ⟨(hlog _ _).mpr (by unfold FitsBuffer; decide +kernel),
    (hpanic _ _ _ _).mpr (by unfold FitsBuffer; decide +kernel)⟩

/-- Of a message of 1023 characters, 1022 are handed over with a terminator and the newline. -/
theorem not_console_log :
    ¬LogsExactly {} printf stringFormat [.str (List.replicate 1023 (ascii 'A'))] := by
  intro hexact
  have hfits := (logsExactly_iff printf_conforms _ _).mp hexact
  revert hfits
  unfold FitsBuffer
  decide +kernel

end KushOs.Logging
