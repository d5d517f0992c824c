import KushOs.Foundation.NestedCall
import KushOs.Kernel.Platform

/-!
# The kernel's log

`Kernel::Logging::Console` formats a message into a static buffer, appends a newline and hands it
to the platform's console. The formatter is the external printf library, so it is a parameter;
`Printf.Conforms` is what the kernel relies on.

Every byte that is handed on was stored by the same call, so the earlier content of the static
buffer is not modelled.
-/

namespace KushOs

/-- The code of a character in a C string. -/
def ascii (c : Char) : BitVec 8 := BitVec.ofNat 8 c.toNat

namespace Logging

open NestedCall

/-- `Console::Priority`. -/
inductive Priority
  | trace
  | debug
  | notice
  | warning
  | error
  deriving DecidableEq, Repr

/-- The value of a priority. -/
def Priority.toNat : Priority → ℕ
  | trace => 1
  | debug => 2
  | notice => 3
  | warning => 4
  | error => 5

/-- The static variables of the logger, with their initial values. -/
structure Logger where
  /-- `gPriority`: messages of this priority and up are let through. -/
  gPriority : Priority := .notice
  /-- `gPlatformConsoleEnabled`. -/
  gPlatformConsoleEnabled : Bool := true

/-- A variadic argument, as its conversion reads it. -/
inductive Arg
  /-- `%s`: the characters up to the terminator. -/
  | str (s : List (BitVec 8))
  /-- `%lu`. -/
  | ulong (n : ℕ)
  /-- `%x` of a character. -/
  | char (c : BitVec 8)

/-- `vsnprintf_` of the external library: from the bound `count`, the format and the arguments,
the characters it stores before the terminator, and the length it returns. -/
abbrev Printf := ℕ → List (BitVec 8) → List Arg → List (BitVec 8) × ℕ

/-- The documented behaviour that the logger relies on. -/
structure Printf.Conforms (vsnprintf : Printf) : Prop where
  /-- The text is cut to leave room for the terminator; its full length is returned. -/
  stored : ∀ count fmt args, 0 < count →
    (vsnprintf count fmt args).1.length = min (vsnprintf count fmt args).2 (count - 1)
  /-- A character of the format that starts no conversion is copied. -/
  literal : ∀ count c fmt args, 1 < count → c ≠ ascii '%' →
    ∃ rest, (vsnprintf count (c :: fmt) args).1 = c :: rest

/-- The text of an argument. -/
def Arg.text : Arg → List (BitVec 8)
  | str s => s
  | ulong n => (Nat.toDigits 10 n).map ascii
  | char c => [Nat.digitChar (c.toNat / 16), Nat.digitChar (c.toNat % 16)].map ascii

/-- A format with its arguments filled in; the flag is set inside a conversion. -/
def expand : Bool → List (BitVec 8) → List Arg → List (BitVec 8)
  | _, [], _ => []
  | false, c :: fmt, args =>
      if c = ascii '%' then expand true fmt args else c :: expand false fmt args
  | true, c :: fmt, args =>
      if c = ascii 's' ∨ c = ascii 'u' ∨ c = ascii 'x' then
        (args.head?.map Arg.text).getD [] ++ expand false fmt args.tail
      else expand true fmt args

/-- A formatter for the conversions of `Arg`. -/
def printf : Printf := fun count fmt args =>
  ((expand false fmt args).take (count - 1), (expand false fmt args).length)

theorem printf_conforms : Printf.Conforms printf where
  stored count fmt args _ := by
    rw [printf, List.length_take, Nat.min_comm]
  literal count c fmt args hcount hc := by
    obtain ⟨n, hn⟩ : ∃ n, count - 1 = n + 1 := ⟨count - 2, by omega⟩
    refine ⟨(expand false fmt args).take n, ?_⟩
    rw [printf, hn, expand, if_neg hc, List.take_succ_cons]

/-- `kBufChars`: size of the message buffer. -/
def kBufChars : ℕ := 1024

/-- `Console::Log`: the message and a newline go to the platform's console. -/
def log {σ : Type} (g : Logger) (vsnprintf : Printf)
    (platformWrite : σ → List (BitVec 8) → Outcome Fault σ) (s : σ) (fmt : List (BitVec 8))
    (args : List Arg) : Outcome Fault σ :=
  let (stored, chars) := vsnprintf (kBufChars - 1) fmt args
  -- `buf[chars++] = '\n'`
  if chars < kBufChars then
    if g.gPlatformConsoleEnabled then
      platformWrite s ((stored ++ [0#8]).take chars ++ [ascii '\n'])
    else .returned s
  else .failed .overrun

/-- `Console::Warning`. -/
def warning {σ : Type} (g : Logger) (vsnprintf : Printf)
    (platformWrite : σ → List (BitVec 8) → Outcome Fault σ) (s : σ) (fmt : List (BitVec 8))
    (args : List Arg) : Outcome Fault σ :=
  if g.gPriority.toNat > Priority.warning.toNat then .returned s
  else log g vsnprintf platformWrite s fmt args

/-- With the default filter, a warning reaches the console as a text that starts with the format's
first character, unless it is too long for the buffer. -/
theorem warning_cases {σ : Type} {vsnprintf : Printf} (hprintf : vsnprintf.Conforms)
    (platformWrite : σ → List (BitVec 8) → Outcome Fault σ) (s : σ) (c : BitVec 8)
    (fmt : List (BitVec 8)) (args : List Arg) (hc : c ≠ ascii '%') :
    warning {} vsnprintf platformWrite s (c :: fmt) args = .failed .overrun ∨
      ∃ rest, warning {} vsnprintf platformWrite s (c :: fmt) args =
        platformWrite s (c :: rest) := by
  obtain ⟨rest, hrest⟩ := hprintf.literal (kBufChars - 1) c fmt args (by decide) hc
  have hlength := hprintf.stored (kBufChars - 1) (c :: fmt) args (by decide)
  simp only [warning, log]
  rw [if_neg (by decide)]
  split
  · -- one character is stored, so the returned length is positive
    right
    obtain ⟨n, hn⟩ : ∃ n, (vsnprintf (kBufChars - 1) (c :: fmt) args).2 = n + 1 := by
      refine Nat.exists_eq_succ_of_ne_zero fun hzero => ?_
      rw [hrest, hzero] at hlength
      simp at hlength
    rw [hrest, hn]
    exact ⟨_, rfl⟩
  · exact .inl rfl

end Logging

end KushOs
