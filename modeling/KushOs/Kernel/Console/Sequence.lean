import KushOs.Kernel.Console.Termination
import Mathlib.Data.List.TakeWhile

/-!
# Whole escape sequences

A control sequence is written character by character: the introducer `ESC [`, the parameter bytes,
which are collected in the buffer, and the final byte. This module says what the console is like
when the final byte arrives.

## Main definitions

* `Console.writeString`: a string written to the console.
* `Console.reading`: the console after the introducer and some parameter bytes.
* `Console.parameterBytes`: the bytes of parameters that semicolons separate.

## Main results

* `Console.writeString_params`: the parameter bytes are collected.
* `Console.writeString_sequence`: a whole sequence, up to the final byte.
* `Console.numbers_parameterBytes`: the handlers find the parameters again.
-/

namespace KushOs.FbCons

open NestedCall Logging Transition

namespace Console

variable (fb : Framebuffer) {g : Logger} {vsnprintf : Printf} {s t : Console} {ch : BitVec 8}
variable {params : List (BitVec 8)} {depth : ℕ}

/-- `Console::write` for a string of a given length, with a bound on how deeply calls nest. -/
def writeString (g : Logger) (vsnprintf : Printf) (depth : ℕ) (s : Console)
    (str : List (BitVec 8)) : Outcome Fault Console :=
  str.foldlM (write fb g vsnprintf depth) s

theorem writeString_append (str str' : List (BitVec 8)) :
    s.writeString fb g vsnprintf depth (str ++ str') =
      (s.writeString fb g vsnprintf depth str >>= fun t =>
        t.writeString fb g vsnprintf depth str') := List.foldlM_append

/-- A string that is written is a run over its characters. -/
theorem run_of_writeString {str : List (BitVec 8)}
    (h : s.writeString fb {} vsnprintf depth str = .returned t) :
    Run (Writes fb vsnprintf) s str t := by
  induction str generalizing s with
  | nil =>
      obtain rfl : s = t := Outcome.returned.inj h
      exact .nil s
  | cons ch str ih =>
      rw [writeString, List.foldlM_cons] at h
      rcases hwrite : s.write fb {} vsnprintf depth ch with u | e | _
      · rw [hwrite] at h
        exact .cons ⟨depth, hwrite⟩ (ih h)
      · rw [hwrite] at h
        cases h
      · rw [hwrite] at h
        cases h

/-- The console after the introducer. -/
def introduced (s : Console) : Console :=
  { s with
    writeState := .ansiReadingCSI
    ansiBufUsed := 0
    ansiBuf := Vector.replicate kAnsiBufSize 0#8 }

theorem writeString_introducer (hidle : s.writeState = .idle) :
    s.writeString fb g vsnprintf (depth + 1) [ascii '\x1b', ascii '['] =
      .returned s.introduced := by
  have hescape : s.write fb g vsnprintf (depth + 1) (ascii '\x1b') =
      .returned { s with writeState := .ansiEscapeStart } := by
    rw [write, writeWith, hidle]
    exact if_neg (by decide)
  rw [writeString, List.foldlM_cons, hescape]
  rfl

/-- The console after some parameter bytes. -/
def reading (s : Console) (params : List (BitVec 8)) : Console := params.foldl completed s

theorem reading_cons (s : Console) (ch : BitVec 8) :
    s.reading (ch :: params) = (s.completed ch).reading params := rfl

/-- Only the buffer changes. -/
theorem reading_fields (s : Console) (params : List (BitVec 8)) :
    SameScreen s (s.reading params) ∧ (s.reading params).writeState = s.writeState ∧
      (s.reading params).colorIndices = s.colorIndices ∧ (s.reading params).colors = s.colors ∧
      (s.reading params).ansiBufUsed = s.ansiBufUsed + params.length := by
  induction params generalizing s with
  | nil => exact ⟨⟨rfl, rfl, rfl, rfl⟩, rfl, rfl, rfl, rfl⟩
  | cons ch params ih =>
      obtain ⟨hsame, hstate, hindices, hcolors, hused⟩ := ih (s.completed ch)
      refine ⟨⟨hsame.stores, hsame.logged, hsame.cursorCol, hsame.cursorRow⟩, hstate, hindices,
        hcolors, ?_⟩
      rw [reading_cons, hused, List.length_cons]
      show s.ansiBufUsed + 1 + params.length = _
      omega

/-- A byte is appended to those that were read. -/
theorem pending_completed (hroom : s.ansiBufUsed < kAnsiBufSize) (ch : BitVec 8) :
    (s.completed ch).pending = s.pending ++ [ch] := by
  have hlength : s.ansiBuf.toList.length = kAnsiBufSize := Vector.length_toList
  simp only [pending, completed, Vector.toList_setIfInBounds]
  rw [List.take_succ_eq_append_getElem (by simpa using hroom), List.take_set_of_le le_rfl,
    List.getElem_set_self]

/-- The buffer holds the parameter bytes. -/
theorem pending_reading (hroom : s.ansiBufUsed + params.length ≤ kAnsiBufSize) :
    (s.reading params).pending = s.pending ++ params := by
  induction params generalizing s with
  | nil => exact (List.append_nil _).symm
  | cons ch params ih =>
      rw [List.length_cons] at hroom
      have hroom' : (s.completed ch).ansiBufUsed + params.length ≤ kAnsiBufSize := by
        show s.ansiBufUsed + 1 + params.length ≤ _
        omega
      rw [reading_cons, ih hroom', pending_completed (by omega), List.append_assoc,
        List.singleton_append]

/-- Parameter bytes are collected as long as there is room for a final byte. -/
theorem writeString_params (hstate : s.writeState = .ansiReadingCSI)
    (hroom : s.ansiBufUsed + params.length < kAnsiBufSize)
    (hparams : ∀ ch ∈ params, isFinalByte ch = false) :
    s.writeString fb g vsnprintf (depth + 1) params = .returned (s.reading params) := by
  induction params generalizing s with
  | nil => rfl
  | cons ch params ih =>
      rw [List.length_cons] at hroom
      obtain ⟨hch, hparams⟩ := List.forall_mem_cons.mp hparams
      have hwrite : s.write fb g vsnprintf (depth + 1) ch = .returned (s.completed ch) := by
        -- the machine gives a sequence up when its array is full
        have hfull : (s.completed ch).ansiBufUsed ≠ kAnsiBufSize := by
          show s.ansiBufUsed + 1 ≠ _
          omega
        rw [write, writeWith, hstate]
        dsimp only
        rw [pushAnsi_eq (by omega)]
        show (if isFinalByte ch = true then _ else if _ then _ else _) = _
        rw [hch, if_neg Bool.false_ne_true, if_neg hfull]
        rfl
      have hroom' : (s.completed ch).ansiBufUsed + params.length < kAnsiBufSize := by
        show s.ansiBufUsed + 1 + params.length < _
        omega
      rw [writeString, List.foldlM_cons, hwrite]
      exact ih hstate hroom' hparams

/-- The console when the final byte of a sequence arrives. -/
def beforeFinal (s : Console) (params : List (BitVec 8)) : Console := s.introduced.reading params

theorem beforeFinal_fields (s : Console) (hlength : params.length < kAnsiBufSize) :
    SameScreen s (s.beforeFinal params) ∧ (s.beforeFinal params).writeState = .ansiReadingCSI ∧
      (s.beforeFinal params).colorIndices = s.colorIndices ∧
      (s.beforeFinal params).colors = s.colors ∧
      (s.beforeFinal params).ansiBufUsed = params.length ∧
      (s.beforeFinal params).pending = params := by
  obtain ⟨hsame, hstate, hindices, hcolors, hused⟩ := s.introduced.reading_fields params
  refine ⟨⟨hsame.stores, hsame.logged, hsame.cursorCol, hsame.cursorRow⟩, hstate, hindices,
    hcolors, ?_, ?_⟩
  · rw [beforeFinal, hused]
    exact Nat.zero_add _
  · have hzero : s.introduced.ansiBufUsed = 0 := rfl
    rw [beforeFinal, pending_reading (by omega), pending, hzero]
    rfl

/-- The parameter bytes are read. -/
theorem writeString_beforeFinal (hidle : s.writeState = .idle)
    (hlength : params.length < kAnsiBufSize) (hparams : ∀ ch ∈ params, isFinalByte ch = false) :
    s.writeString fb g vsnprintf (depth + 1) ([ascii '\x1b', ascii '['] ++ params) =
      .returned (s.beforeFinal params) := by
  have hzero : s.introduced.ansiBufUsed = 0 := rfl
  rw [writeString_append, writeString_introducer fb hidle]
  exact writeString_params fb rfl (by omega) hparams

/-- A sequence is processed when its final byte arrives. -/
theorem writeString_sequence (hidle : s.writeState = .idle) (hlength : params.length < kAnsiBufSize)
    (hparams : ∀ ch ∈ params, isFinalByte ch = false) (final : BitVec 8) :
    s.writeString fb g vsnprintf (depth + 1)
        ([ascii '\x1b', ascii '['] ++ params ++ [final]) =
      (s.beforeFinal params).write fb g vsnprintf (depth + 1) final := by
  rw [writeString_append, writeString_beforeFinal fb hidle hlength hparams]
  show ((s.beforeFinal params).write fb g vsnprintf (depth + 1) final >>= pure) = _
  rw [bind_pure]

/-! ## Decimal parameters -/

/-- The bytes between `ESC [` and the final byte. -/
def parameterBytes (params : List (List (BitVec 8))) : List (BitVec 8) :=
  [ascii ';'].intercalate params

/-- A possibly empty string of at most seven decimal digits. -/
def ShortDigits (param : List (BitVec 8)) : Prop :=
  param.length ≤ 7 ∧ ∀ ch ∈ param, isDigit ch = true

theorem ShortDigits.fits {param : List (BitVec 8)} (h : ShortDigits param) : Fits param :=
  ⟨h.1.trans (by decide), fun hfull => absurd h.1 (by rw [hfull]; decide)⟩

/-- A property of digits and semicolons holds of all parameter bytes. -/
theorem forall_parameterBytes {P : BitVec 8 → Prop} {params : List (List (BitVec 8))}
    (hparams : ∀ param ∈ params, ShortDigits param) (hdigit : ∀ ch, isDigit ch = true → P ch)
    (hsemi : P (ascii ';')) : ∀ ch ∈ parameterBytes params, P ch := by
  induction params with
  | nil => simp [parameterBytes]
  | cons param params ih =>
      obtain ⟨hparam, hrest⟩ := List.forall_mem_cons.mp hparams
      have hfirst : ∀ ch ∈ param, P ch := fun ch hch => hdigit ch (hparam.2 ch hch)
      by_cases hne : params = []
      · simpa [hne, parameterBytes] using hfirst
      · intro ch hch
        rw [parameterBytes, List.intercalate_cons_of_ne_nil hne, List.mem_append,
          List.mem_append, List.mem_singleton] at hch
        rcases hch with (hch | rfl) | hch
        · exact hfirst ch hch
        · exact hsemi
        · exact ih hrest ch hch

/-- The handlers find the parameters again. -/
theorem numbers_parameterBytes {params : List (List (BitVec 8))} (hne : params ≠ [])
    (hparams : ∀ param ∈ params, ShortDigits param) : numbers (parameterBytes params) = params := by
  have hnonzero : ∀ ch ∈ parameterBytes params, (decide (ch ≠ 0#8)) = true :=
    forall_parameterBytes hparams (by decide) (by decide)
  have hsemi : ∀ param ∈ params, ascii ';' ∉ param := by
    intro param hparam hmem
    exact absurd ((hparams param hparam).2 _ hmem) (by decide)
  have htake : (parameterBytes params).takeWhile (· ≠ 0#8) = parameterBytes params :=
    List.takeWhile_eq_self_iff.mpr hnonzero
  rw [numbers, htake]
  exact List.splitOn_intercalate _ hsemi hne

end Console

end KushOs.FbCons
