import KushOs.Kernel.Console.Log
import Mathlib.Algebra.Order.BigOperators.Group.List
import Mathlib.Algebra.Order.Ring.Nat
import Mathlib.Data.BitVec

/-!
# Printing a backtrace

`Backtrace::Print` follows the chain of stack frames and appends a line for each to the caller's
buffer. It moves its write position on by the length that the formatter returns, which is that of
the whole line even if the line was cut, and it stops only when the position is exactly the end of
the buffer. Behind it, the space that is left is a difference of sizes below zero and so very large.

## Main definitions

* `Call`: what a call of `Print` is given, and what it reads.
* `print`: the function. `Call.lines`: the lines that it would print without a bound.

## Main results

* `print_eq`: the lines are printed one after the other, up to a full buffer.
* `backtrace_print`: the calls that store inside the buffer only.
-/

namespace KushOs.Backtrace

open Logging

/-! ## The function -/

/-- `stackframe`. -/
structure StackFrame where
  rbp : BitVec 64
  rip : BitVec 64

/-- What a call of `Print` is given beside the buffer, and what it reads. -/
structure Call where
  /-- `stack`: the frame to start at, or null. -/
  stack : BitVec 64
  /-- The current frame, for a null `stack`. -/
  rbp : BitVec 64
  symbolicate : Bool
  /-- Frames to skip at the top. -/
  skip : ℕ
  /-- If not zero, a program counter to show first. -/
  bonusFrame : BitVec 64
  /-- The stack frame at an address. -/
  stackframe : BitVec 64 → StackFrame
  /-- `Symbolicate`: its result for a program counter, and the name that it stores. -/
  Symbolicate : BitVec 64 → ℤ × List (BitVec 8)

/-- A format and its arguments. -/
structure Line where
  fmt : List (BitVec 8)
  args : List Arg

/-- The format of a line with a symbol. -/
def symbolFormat : List (BitVec 8) := "\n%2zu %016llx %s".toList.map ascii

/-- The format of a line with an address. -/
def addressFormat : List (BitVec 8) := "\n%2zu %016llx".toList.map ascii

/-- The output buffer: where the next line goes, as an offset, and what has been stored where. -/
structure OutBuf where
  /-- `writePtr - outBuf`. -/
  writePtr : BitVec 64
  stores : List (BitVec 64 × BitVec 8)

/-- Bytes that are stored one after the other. -/
def storeBytes : BitVec 64 → List (BitVec 8) → List (BitVec 64 × BitVec 8)
  | _, [] => []
  | pos, b :: bytes => (pos, b) :: storeBytes (pos + 1) bytes

/-- `writePtr += snprintf_(writePtr, bufAvail, ...)`: the text and a terminator are stored if there
is any space. -/
def printLine (snprintf : Printf) (outBufLen : BitVec 64) (line : Line) (out : OutBuf) : OutBuf :=
  let bufAvail := outBufLen - out.writePtr
  let (text, written) := snprintf bufAvail.toNat line.fmt line.args
  { writePtr := out.writePtr + BitVec.ofNat 64 written
    stores := out.stores ++
      if bufAvail = 0 then [] else storeBytes out.writePtr (text ++ [0#8]) }

namespace Call

variable (c : Call)

/-- The line for a program counter: its symbol if it is to be looked up and is found. -/
def line (number : ℕ) (pc : BitVec 64) : Line :=
  let address : Line := ⟨addressFormat, [.ulong number, .ulong pc.toNat]⟩
  if c.symbolicate then
    let (written, symbolNameBuf) := c.Symbolicate pc
    if written = 1 then ⟨symbolFormat, [.ulong number, .ulong pc.toNat, .str symbolNameBuf]⟩
    else address
  else address

/-- A frame without a return address, or one that is to be skipped. -/
def Skips (frame : ℕ) (rip : BitVec 64) : Prop :=
  rip = 0 ∨ c.skip ≠ 0 ∧ frame < c.skip

instance (frame : ℕ) (rip : BitVec 64) : Decidable (c.Skips frame rip) :=
  inferInstanceAs (Decidable (_ ∨ _))

/-- The next frame is not one of the kernel. -/
def Ends (stk : BitVec 64) : Prop := stk = 0 ∨ stk.msb = false

instance (stk : BitVec 64) : Decidable (Ends stk) := inferInstanceAs (Decidable (_ ∨ _))

/-- The loop over the frames, which has a number of turns left: how many frames there were, and the
buffer. -/
def walk (snprintf : Printf) (outBufLen : BitVec 64) :
    ℕ → ℕ → BitVec 64 → ℕ → OutBuf → ℕ × OutBuf
  | 0, _, _, numFrames, out => (numFrames, out)
  | n + 1, frame, stk, numFrames, out =>
      if stk = 0 then (numFrames, out)
      else if outBufLen - out.writePtr = 0 then (numFrames, out)
      else
        let rip := (c.stackframe stk).rip
        let out :=
          if c.Skips frame rip then out
          else printLine snprintf outBufLen (c.line numFrames rip) out
        let stk := (c.stackframe stk).rbp
        if Ends stk then (numFrames + 1, out)
        else walk snprintf outBufLen n (frame + 1) stk (numFrames + 1) out

/-- The frame to start at. -/
def start : BitVec 64 := if c.stack = 0 then c.rbp else c.stack

/-- `Backtrace::Print`: the number of frames, and the buffer. -/
def print (snprintf : Printf) (outBufLen : BitVec 64) : ℕ × OutBuf :=
  let out : OutBuf := ⟨0, []⟩
  if c.start = 0 then (0, out)
  else if c.bonusFrame ≠ 0 then
    c.walk snprintf outBufLen 50 0 c.start 1
      (printLine snprintf outBufLen (c.line 0 c.bonusFrame) out)
  else c.walk snprintf outBufLen 50 0 c.start 0 out

/-! ## The lines -/

/-- The lines for the frames from one on, without regard to the buffer. -/
def walkLines : ℕ → ℕ → BitVec 64 → ℕ → List Line
  | 0, _, _, _ => []
  | n + 1, frame, stk, numFrames =>
      if stk = 0 then []
      else
        let rip := (c.stackframe stk).rip
        let rbp := (c.stackframe stk).rbp
        (if c.Skips frame rip then [] else [c.line numFrames rip]) ++
          if Ends rbp then [] else walkLines n (frame + 1) rbp (numFrames + 1)

/-- The lines of a backtrace, without regard to the buffer. -/
def lines : List Line :=
  if c.start = 0 then []
  else if c.bonusFrame ≠ 0 then c.line 0 c.bonusFrame :: c.walkLines 50 0 c.start 1
  else c.walkLines 50 0 c.start 0

end Call

/-- Lines that are printed up to a full buffer. -/
def printLines (snprintf : Printf) (outBufLen : BitVec 64) : List Line → OutBuf → OutBuf
  | [], out => out
  | line :: rest, out =>
      if outBufLen - out.writePtr = 0 then out
      else printLines snprintf outBufLen rest (printLine snprintf outBufLen line out)

section Lines

variable {snprintf : Printf} {outBufLen : BitVec 64} {out : OutBuf}

theorem printLines_full (h : outBufLen - out.writePtr = 0) (lines : List Line) :
    printLines snprintf outBufLen lines out = out := by
  cases lines with
  | nil => rfl
  | cons line rest => exact if_pos h

/-- The loop prints its lines. -/
theorem Call.walk_eq (c : Call) (n frame : ℕ) (stk : BitVec 64) (numFrames : ℕ) :
    (c.walk snprintf outBufLen n frame stk numFrames out).2 =
      printLines snprintf outBufLen (c.walkLines n frame stk numFrames) out := by
  induction n generalizing frame stk numFrames out with
  | zero => rfl
  | succ n ih =>
      rw [walk, walkLines]
      by_cases hnull : stk = 0
      · rw [if_pos hnull, if_pos hnull]
        rfl
      rw [if_neg hnull, if_neg hnull]
      by_cases hfull : outBufLen - out.writePtr = 0
      · rw [if_pos hfull, printLines_full hfull]
      rw [if_neg hfull]
      by_cases hskips : c.Skips frame (c.stackframe stk).rip
      · -- a frame that is skipped has no line
        simp only [if_pos hskips, List.nil_append]
        split
        · rfl
        · exact ih _ _ _
      · simp only [if_neg hskips, List.singleton_append]
        rw [printLines, if_neg hfull]
        split
        · rfl
        · exact ih _ _ _

/-- The lines of a backtrace are printed one after the other, up to a full buffer. -/
theorem print_eq (c : Call) (hlen : outBufLen ≠ 0) :
    (c.print snprintf outBufLen).2 = printLines snprintf outBufLen c.lines ⟨0, []⟩ := by
  have hempty : ¬outBufLen - 0 = 0 := by simpa using hlen
  unfold Call.print Call.lines
  split
  · rfl
  · split
    · -- the bonus line is printed without a test, but the buffer is empty then
      rw [c.walk_eq, printLines, if_neg hempty]
    · exact c.walk_eq _ _ _ _

/-- There are no more lines than turns of the loop. -/
theorem Call.length_walkLines_le (c : Call) (n frame : ℕ) (stk : BitVec 64) (numFrames : ℕ) :
    (c.walkLines n frame stk numFrames).length ≤ n := by
  induction n generalizing frame stk numFrames with
  | zero => exact Nat.le_refl 0
  | succ n ih =>
      have hrest := ih (frame + 1) (c.stackframe stk).rbp (numFrames + 1)
      rw [walkLines]
      split
      · exact Nat.zero_le _
      · simp only [List.length_append]
        split <;> split <;> simp only [List.length_nil, List.length_singleton] <;> omega

theorem Call.length_lines_le (c : Call) : c.lines.length ≤ 51 := by
  unfold lines
  split
  · exact Nat.zero_le _
  · split
    · exact Nat.succ_le_succ (c.length_walkLines_le _ _ _ _)
    · exact (c.length_walkLines_le _ _ _ _).trans (by omega)

end Lines

/-! ## Where the lines go -/

/-- The documented behaviour that `Print` relies on. -/
structure Formats (snprintf : Printf) : Prop where
  /-- The text is cut to leave room for the terminator. -/
  stored : ∀ count fmt args, 0 < count →
    (snprintf count fmt args).1.length = min (snprintf count fmt args).2 (count - 1)
  /-- The length that is returned is that of the whole text, whatever the bound. -/
  full : ∀ count fmt args, (snprintf count fmt args).2 = (snprintf 0 fmt args).2

/-- The length of a whole line. -/
def Line.length (snprintf : Printf) (line : Line) : ℕ := (snprintf 0 line.fmt line.args).2

/-- Every store is inside the buffer. -/
def Inside (outBufLen : BitVec 64) (out : OutBuf) : Prop :=
  ∀ store ∈ out.stores, store.1 < outBufLen

theorem mem_storeBytes {pos : BitVec 64} {bytes : List (BitVec 8)} {store : BitVec 64 × BitVec 8}
    (h : store ∈ storeBytes pos bytes) :
    ∃ i < bytes.length, store.1 = pos + BitVec.ofNat 64 i := by
  induction bytes generalizing pos with
  | nil => cases h
  | cons b bytes ih =>
      rcases List.mem_cons.mp h with rfl | h
      · exact ⟨0, Nat.succ_pos _, (BitVec.add_zero pos).symm⟩
      · obtain ⟨i, hi, heq⟩ := ih h
        refine ⟨i + 1, Nat.succ_lt_succ hi, ?_⟩
        rw [heq, Nat.add_comm i, BitVec.ofNat_add, BitVec.add_assoc]
        rfl

section Stores

variable {snprintf : Printf} {outBufLen : BitVec 64} {out : OutBuf} {line : Line}

/-- What is stored for a line. -/
theorem stores_printLine (hpos : outBufLen ≠ out.writePtr) :
    (printLine snprintf outBufLen line out).stores = out.stores ++
      storeBytes out.writePtr
        ((snprintf (outBufLen - out.writePtr).toNat line.fmt line.args).1 ++ [0#8]) := by
  have havail : ¬outBufLen - out.writePtr = 0 := by
    rw [sub_eq_zero]
    exact hpos
  rw [printLine]
  simp only [if_neg havail]

/-- A line that starts inside the buffer stays there. -/
theorem inside_printLine (hformats : Formats snprintf) (hpos : out.writePtr < outBufLen) :
    Inside outBufLen (printLine snprintf outBufLen line out) ↔ Inside outBufLen out := by
  have havail : (outBufLen - out.writePtr).toNat = outBufLen.toNat - out.writePtr.toNat :=
    BitVec.toNat_sub_of_le (BitVec.le_of_lt hpos)
  have hlt := BitVec.lt_def.mp hpos
  have hne : outBufLen ≠ out.writePtr := (BitVec.ne_of_lt hpos).symm
  have hstored := hformats.stored (outBufLen - out.writePtr).toNat line.fmt line.args (by omega)
  have hline : ∀ store ∈ storeBytes out.writePtr
      ((snprintf (outBufLen - out.writePtr).toNat line.fmt line.args).1 ++ [0#8]),
      store.1 < outBufLen := by
    intro store hstore
    obtain ⟨i, hi, heq⟩ := mem_storeBytes hstore
    have hbound := outBufLen.isLt
    -- the terminator is in the last place at most
    rw [List.length_append, List.length_singleton] at hi
    rw [heq, BitVec.lt_def, BitVec.toNat_add, BitVec.toNat_ofNat]
    omega
  unfold Inside
  rw [stores_printLine hne, List.forall_mem_append]
  exact and_iff_left hline

/-- A line that starts behind the buffer does not. -/
theorem not_inside_printLine (hpos : outBufLen < out.writePtr) :
    ¬Inside outBufLen (printLine snprintf outBufLen line out) := by
  intro hinside
  have hne : outBufLen ≠ out.writePtr := BitVec.ne_of_lt hpos
  unfold Inside at hinside
  rw [stores_printLine hne, List.forall_mem_append] at hinside
  -- there is a first byte, be it the terminator
  have hfirst : ∀ bytes : List (BitVec 8), ∃ b, (out.writePtr, b) ∈
      storeBytes out.writePtr (bytes ++ [0#8]) := by
    rintro (_ | ⟨b, bytes⟩)
    · exact ⟨0#8, List.mem_cons_self⟩
    · exact ⟨b, List.mem_cons_self⟩
  obtain ⟨b, hb⟩ := hfirst _
  exact absurd (hinside.2 _ hb) (BitVec.not_lt.mpr (BitVec.le_of_lt hpos))

end Stores

/-- From a position on, every line starts at the end of the buffer at the latest, or some lines
before it end exactly there, so that it is not printed. -/
def StartInside (outBufLen pos : ℕ) (lengths : List ℕ) : Prop :=
  ∀ k < lengths.length,
    pos + (lengths.take k).sum ≤ outBufLen ∨ ∃ j ≤ k, pos + (lengths.take j).sum = outBufLen

instance (outBufLen pos : ℕ) (lengths : List ℕ) : Decidable (StartInside outBufLen pos lengths) :=
  inferInstanceAs (Decidable (∀ k < _, _ ∨ ∃ j ≤ k, _))

section StartInside

variable {outBufLen pos length : ℕ} {lengths : List ℕ}

theorem startInside_cons (h : pos < outBufLen) :
    StartInside outBufLen pos (length :: lengths) ↔
      StartInside outBufLen (pos + length) lengths := by
  have hsum : ∀ k, pos + ((length :: lengths).take (k + 1)).sum =
      pos + length + (lengths.take k).sum := by
    intro k
    rw [List.take_succ_cons, List.sum_cons, Nat.add_assoc]
  constructor
  · intro hstart k hk
    rcases hstart (k + 1) (Nat.succ_lt_succ hk) with hle | ⟨j, hj, heq⟩
    · exact .inl (hsum k ▸ hle)
    · cases j with
      | zero => exact absurd heq (by simpa using h.ne)
      | succ j => exact .inr ⟨j, Nat.le_of_succ_le_succ hj, hsum j ▸ heq⟩
  · intro hstart k hk
    cases k with
    | zero => exact .inl (by simpa using h.le)
    | succ k =>
        rcases hstart k (Nat.lt_of_succ_lt_succ hk) with hle | ⟨j, hj, heq⟩
        · exact .inl ((hsum k).trans_le hle)
        · exact .inr ⟨j + 1, Nat.succ_le_succ hj, (hsum j).trans heq⟩

theorem startInside_of_eq (h : pos = outBufLen) : StartInside outBufLen pos lengths :=
  fun _ _ => .inr ⟨0, Nat.zero_le _, by simpa using h⟩

theorem not_startInside (h : outBufLen < pos) : ¬StartInside outBufLen pos (length :: lengths) := by
  intro hstart
  rcases hstart 0 (Nat.succ_pos _) with hle | ⟨j, hj, heq⟩
  · exact absurd hle (by simpa using h)
  · omega

end StartInside

/-- The lines stay inside the buffer exactly if each of them starts there. -/
theorem inside_printLines_iff {snprintf : Printf} (hformats : Formats snprintf)
    {outBufLen : BitVec 64} {lines : List Line} {out : OutBuf}
    (hsum : out.writePtr.toNat + (lines.map (Line.length snprintf)).sum < 2 ^ 64) :
    Inside outBufLen (printLines snprintf outBufLen lines out) ↔
      Inside outBufLen out ∧
        StartInside outBufLen.toNat out.writePtr.toNat (lines.map (Line.length snprintf)) := by
  induction lines generalizing out with
  | nil => simp [printLines, StartInside]
  | cons line rest ih =>
      rw [List.map_cons, List.sum_cons] at hsum
      rw [printLines, List.map_cons]
      have hnext : (printLine snprintf outBufLen line out).writePtr.toNat =
          out.writePtr.toNat + line.length snprintf := by
        have hlength := hformats.full (outBufLen - out.writePtr).toNat line.fmt line.args
        show (out.writePtr + BitVec.ofNat 64 _).toNat = _
        rw [hlength, BitVec.toNat_add, BitVec.toNat_ofNat]
        show (out.writePtr.toNat + line.length snprintf % 2 ^ 64) % 2 ^ 64 = _
        omega
      have hih := @ih (printLine snprintf outBufLen line out) (by omega)
      rw [hnext] at hih
      rcases Nat.lt_trichotomy out.writePtr.toNat outBufLen.toNat with hpos | hpos | hpos
      · have hne : ¬outBufLen - out.writePtr = 0 := by
          rw [sub_eq_zero]
          rintro rfl
          omega
        rw [if_neg hne, hih, inside_printLine hformats (BitVec.lt_def.mpr hpos),
          startInside_cons hpos]
      · -- the buffer is full
        have heq : outBufLen - out.writePtr = 0 := by
          rw [sub_eq_zero]
          exact BitVec.eq_of_toNat_eq hpos.symm
        rw [if_pos heq]
        exact (and_iff_left (startInside_of_eq hpos)).symm
      · have hne : ¬outBufLen - out.writePtr = 0 := by
          rw [sub_eq_zero]
          rintro rfl
          omega
        rw [if_neg hne, hih]
        refine iff_of_false (fun h => ?_) (fun h => not_startInside hpos h.2)
        exact not_inside_printLine (BitVec.lt_def.mpr hpos) h.1

/-- For every chain of frames and all other parameters, and every buffer that is not empty: the
function, whose loop is bounded, stores inside the buffer only if and only if every line starts
there, counting the whole length of the lines before it. -/
theorem backtrace_print {snprintf : Printf} (hformats : Formats snprintf) (c : Call)
    {outBufLen : BitVec 64} (hlen : outBufLen ≠ 0)
    (hint : ∀ line ∈ c.lines, line.length snprintf < 2 ^ 31) :
    Inside outBufLen (c.print snprintf outBufLen).2 ↔
      StartInside outBufLen.toNat 0 (c.lines.map (Line.length snprintf)) := by
  -- the lengths are values of type `int`, and there are few lines
  have hsum : (c.lines.map (Line.length snprintf)).sum ≤ 51 * 2 ^ 31 := by
    calc (c.lines.map (Line.length snprintf)).sum
        ≤ (c.lines.map (Line.length snprintf)).length • 2 ^ 31 := by
          refine List.sum_le_card_nsmul _ _ fun length hlength => ?_
          obtain ⟨line, hline, rfl⟩ := List.mem_map.mp hlength
          exact (hint line hline).le
      _ ≤ 51 * 2 ^ 31 := by
          rw [List.length_map, Nat.nsmul_eq_mul]
          exact Nat.mul_le_mul_right _ c.length_lines_le
  have hempty : Inside outBufLen ⟨0, []⟩ := fun store hstore => by cases hstore
  rw [print_eq c hlen, inside_printLines_iff hformats (by
    show 0 + _ < _
    omega)]
  exact and_iff_right hempty

/-! ### Calls with a formatter for the conversions of a backtrace -/

/-- A text that is filled up to the width of its conversion. -/
def pad (zero : Bool) (width : ℕ) (text : List (BitVec 8)) : List (BitVec 8) :=
  List.replicate (width - text.length) (ascii (if zero then '0' else ' ')) ++ text

/-- The text of an argument for a conversion. -/
def convert (conversion : BitVec 8) : Arg → List (BitVec 8)
  | .ulong n => (Nat.toDigits (if conversion = ascii 'x' then 16 else 10) n).map ascii
  | arg => arg.text

/-- A format with its arguments filled in; inside a conversion, its flag and its width so far. -/
def expandPadded : Option (Bool × ℕ) → List (BitVec 8) → List Arg → List (BitVec 8)
  | _, [], _ => []
  | none, ch :: fmt, args =>
      if ch = ascii '%' then expandPadded (some (false, 0)) fmt args
      else ch :: expandPadded none fmt args
  | some (zero, width), ch :: fmt, args =>
      if ch = ascii 's' ∨ ch = ascii 'u' ∨ ch = ascii 'x' then
        pad zero width ((args.head?.map (convert ch)).getD []) ++ expandPadded none fmt args.tail
      else if ch = ascii '0' ∧ width = 0 then expandPadded (some (true, 0)) fmt args
      else if 48 ≤ ch.toNat ∧ ch.toNat ≤ 57 then
        expandPadded (some (zero, 10 * width + (ch.toNat - 48))) fmt args
      else expandPadded (some (zero, width)) fmt args

/-- A formatter with the conversions of a backtrace. -/
def snprintf : Printf := fun count fmt args =>
  ((expandPadded none fmt args).take (count - 1), (expandPadded none fmt args).length)

theorem snprintf_formats : Formats snprintf where
  stored count fmt args _ := by
    rw [snprintf, List.length_take, Nat.min_comm]
  full _ _ _ := rfl

/-- A call in which every frame is `frame`, and every name has 99 characters. -/
def repeating (frame : StackFrame) (symbolicate : Bool) : Call where
  stack := 0xffff800000001000#64
  rbp := 0
  symbolicate := symbolicate
  skip := 0
  bonusFrame := 0
  stackframe := fun _ => frame
  Symbolicate := fun _ => (1, List.replicate 99 (ascii 'f'))

/-- A chain of three frames behind a bonus frame; the function of the second one has no symbol. -/
def chained : Call :=
  { repeating ⟨0, 0xffffffff80001234#64⟩ true with
    bonusFrame := 0xffffffff80001800#64
    stackframe := fun addr =>
      if addr = 0xffff800000001000#64 then ⟨0xffff800000001040#64, 0xffffffff80001234#64⟩
      else if addr = 0xffff800000001040#64 then ⟨0xffff800000001080#64, 0xffffffff80005678#64⟩
      else ⟨0, 0xffffffff80009abc#64⟩
    Symbolicate := fun pc =>
      if pc = 0xffffffff80005678#64 then (0, []) else (1, List.replicate 99 (ascii 'f')) }

/-- Its four lines are stored inside the buffer. -/
theorem backtrace_print_chain :
    chained.lines.length = 4 ∧ Inside 1024 (chained.print snprintf 1024).2 :=
  ⟨by decide +kernel,
    (backtrace_print snprintf_formats _ (by decide) (by decide +kernel)).mpr (by decide +kernel)⟩

/-- Frames in a circle, with names of 99 characters: the ninth line is cut, and the tenth starts
behind the buffer. -/
theorem not_backtrace_print :
    ¬Inside 1024 ((repeating ⟨0xffff800000001000#64, 0xffffffff80001234#64⟩ true).print
      snprintf 1024).2 := by
  rw [print_eq _ (by decide), inside_printLines_iff snprintf_formats (by decide +kernel)]
  rintro ⟨-, hstart⟩
  revert hstart
  decide +kernel

end KushOs.Backtrace
