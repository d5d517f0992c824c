import KushOs.Kernel.Console.FbCons
import Mathlib.Data.List.Basic

/-!
# Escape sequences of the framebuffer console

The handlers of `m` and `H` split the bytes of a sequence at semicolons into numbers. A number is
collected in an array of eight characters and converted by `StrToInt`, which reads up to the first
character that is not a digit; `Fits` says when both stay inside the array.

## Main results

* `scanNumbers_eq`: the loop of the handlers is a recursion over the numbers of the sequence.
* `Console.processAnsiSgr_of_fits`, `Console.processAnsiCup_of_fits`: the handlers return when
  every number fits; otherwise they overrun the array.
-/

namespace KushOs.FbCons

open NestedCall Logging

/-! ## Numbers -/

/-- A number of an escape sequence that the array of the handlers holds, and in which `StrToInt`
finds the end. -/
def Fits (number : List (BitVec 8)) : Prop :=
  number.length ≤ numberSize ∧
    (number.length = numberSize → ∃ ch ∈ number, isDigit ch = false)

instance (number : List (BitVec 8)) : Decidable (Fits number) :=
  inferInstanceAs (Decidable (_ ∧ _))

/-- The value of the digits that a number starts with. -/
def numberValue (number : List (BitVec 8)) : ℕ :=
  (number.takeWhile isDigit).foldl (fun n ch => 10 * n + (ch.toNat - 48)) 0

/-- The numbers of a sequence: its bytes up to the first terminator, split at semicolons. -/
def numbers (bytes : List (BitVec 8)) : List (List (BitVec 8)) :=
  (bytes.takeWhile (· ≠ 0#8)).splitOn (ascii ';')

/-- A sequence has at least one number, which may be empty. -/
theorem exists_numbers (bytes : List (BitVec 8)) :
    ∃ number rest, numbers bytes = number :: rest :=
  List.exists_cons_of_ne_nil (List.splitOn_ne_nil _ _)

/-- A digit is one of the ten characters from `'0'` on. -/
theorem toNat_of_isDigit {ch : BitVec 8} (h : isDigit ch = true) :
    48 ≤ ch.toNat ∧ ch.toNat ≤ 57 := by
  revert ch
  decide

/-- `StrToInt` runs off the end of an array that holds digits only. -/
theorem strToIntLoop_of_digits {i : BitVec 32} {str : List (BitVec 8)}
    (h : ∀ ch ∈ str, isDigit ch = true) : strToIntLoop i str = .error .overrun := by
  induction str generalizing i with
  | nil => rfl
  | cons ch rest ih =>
      rw [strToIntLoop, if_pos (h ch List.mem_cons_self)]
      exact ih fun c hc => h c (List.mem_cons_of_mem _ hc)

/-- `StrToInt` stops at the first character that is not a digit. -/
theorem strToIntLoop_of_end {n : ℕ} {str : List (BitVec 8)} (h : ∃ ch ∈ str, isDigit ch = false) :
    strToIntLoop (BitVec.ofNat 32 n) str =
      .ok (BitVec.ofNat 32
        ((str.takeWhile isDigit).foldl (fun n ch => 10 * n + (ch.toNat - 48)) n)) := by
  induction str generalizing n with
  | nil => simp at h
  | cons ch rest ih =>
      rw [strToIntLoop, List.takeWhile_cons]
      cases hdigit : isDigit ch with
      | false => rfl
      | true =>
          have hrest : ∃ c ∈ rest, isDigit c = false := by
            obtain ⟨c, hc, hend⟩ := h
            rcases List.mem_cons.mp hc with rfl | hc
            · rw [hdigit] at hend
              cases hend
            · exact ⟨c, hc, hend⟩
          -- the sum wraps at 32 bits on both sides
          have hnext : BitVec.ofNat 32 n * 10 + (ch.setWidth 32 - (ascii '0').setWidth 32) =
              BitVec.ofNat 32 (10 * n + (ch.toNat - 48)) := by
            obtain ⟨hlo, hhi⟩ := toNat_of_isDigit hdigit
            apply BitVec.eq_of_toNat_eq
            have hzero : ((ascii '0').setWidth 32).toNat = 48 := by decide
            have hten : (10 : BitVec 32).toNat = 10 := rfl
            rw [BitVec.toNat_add, BitVec.toNat_mul, BitVec.toNat_sub, hzero, hten]
            simp only [BitVec.toNat_ofNat, BitVec.toNat_setWidth]
            omega
          rw [if_pos rfl, hnext, ih hrest]
          rfl

/-- The conversion of a number that fits. -/
theorem strToInt_of_fits {number : List (BitVec 8)} (h : Fits number) :
    strToInt (numberArray number) = .ok (BitVec.ofNat 32 (numberValue number)) := by
  have hzero : isDigit 0#8 = false := by decide
  have hend : ∃ ch ∈ numberArray number, isDigit ch = false := by
    obtain ⟨hle, hfull⟩ := h
    rcases Nat.lt_or_eq_of_le hle with hlt | heq
    · -- the array is zeroed, so what the number leaves of it ends the conversion
      refine ⟨0#8, List.mem_append_right _ ?_, hzero⟩
      exact List.mem_replicate.mpr ⟨by omega, rfl⟩
    · obtain ⟨ch, hch, hdigit⟩ := hfull heq
      exact ⟨ch, List.mem_append_left _ hch, hdigit⟩
  have htake : (numberArray number).takeWhile isDigit = number.takeWhile isDigit := by
    have hpad : (List.replicate (numberSize - number.length) 0#8).takeWhile isDigit = [] := by
      rw [List.takeWhile_replicate, hzero]
      rfl
    unfold numberArray
    rw [List.takeWhile_append, hpad]
    split
    · rename_i hall
      rw [List.append_nil]
      exact ((List.takeWhile_prefix _).eq_of_length hall).symm
    · rfl
  exact (strToIntLoop_of_end hend).trans (by rw [htake]; rfl)

/-- A number that does not fit although the array holds it has no end. -/
theorem strToInt_of_not_fits {number : List (BitVec 8)} (hle : number.length ≤ numberSize)
    (h : ¬Fits number) : strToInt (numberArray number) = .error .overrun := by
  have hall : number.length = numberSize ∧ ∀ ch ∈ number, isDigit ch = true := by
    simpa [Fits, hle] using h
  have harray : numberArray number = number := by
    simp [numberArray, hall.1]
  rw [harray]
  exact strToIntLoop_of_digits hall.2

/-! ## The loop over the numbers -/

variable {σ τ : Type}

/-- What the handlers do with the numbers of a sequence: `use` for each but the last, and `last`
for that one. -/
def useNumbers (use : σ → List (BitVec 8) → Except Fault σ)
    (last : σ → List (BitVec 8) → Except Fault τ) (s : σ) :
    List (List (BitVec 8)) → Except Fault τ
  | [] => .error .overrun
  | [number] => if number.length ≤ numberSize then last s number else .error .overrun
  | number :: next :: rest =>
      if number.length ≤ numberSize then do
        useNumbers use last (← use s number) (next :: rest)
      else .error .overrun

/-- A first number that is too long overruns the array. -/
theorem useNumbers_of_long {use : σ → List (BitVec 8) → Except Fault σ}
    {last : σ → List (BitVec 8) → Except Fault τ} {s : σ} {number : List (BitVec 8)}
    {rest : List (List (BitVec 8))} (h : numberSize < number.length) :
    useNumbers use last s (number :: rest) = .error .overrun := by
  cases rest with
  | nil => rw [useNumbers, if_neg (by omega)]
  | cons next rest => rw [useNumbers, if_neg (by omega)]

/-- The loop of the handlers up to a terminator, with what follows it, while the characters
`number` of the current number have been stored. -/
theorem scanNumbers_eq (use : σ → List (BitVec 8) → Except Fault σ)
    (last : σ → List (BitVec 8) → Except Fault τ) (s : σ) (number bytes rest : List (BitVec 8))
    (hnumber : number.length ≤ numberSize) :
    (do
        let (s, number) ← scanNumbers use s number (bytes ++ 0#8 :: rest)
        last s number) =
      useNumbers use last s ((numbers bytes).modifyHead (number ++ ·)) := by
  induction bytes generalizing s number with
  | nil =>
      have hnumbers : numbers [] = [[]] := List.splitOn_nil _
      rw [hnumbers, List.nil_append, scanNumbers, if_pos rfl, List.modifyHead_cons,
        List.append_nil, useNumbers, if_pos hnumber]
      rfl
  | cons ch bytes ih =>
      rw [List.cons_append, scanNumbers]
      by_cases hzero : ch = 0#8
      · -- a terminator inside the sequence ends the loop as well
        have hnumbers : numbers (ch :: bytes) = [[]] := by
          simp [numbers, hzero]
        rw [if_pos hzero, hnumbers, List.modifyHead_cons, List.append_nil, useNumbers,
          if_pos hnumber]
        rfl
      rw [if_neg hzero]
      have htake : (ch :: bytes).takeWhile (· ≠ 0#8) = ch :: bytes.takeWhile (· ≠ 0#8) := by
        rw [List.takeWhile_cons, if_pos (by simpa using hzero)]
      by_cases hsemi : ch = ascii ';'
      · -- a semicolon ends the current number, and the next one is empty so far
        have hnumbers : numbers (ch :: bytes) = [] :: numbers bytes := by
          rw [numbers, htake, List.splitOn_cons_eq_if_modifyHead, if_pos (by simpa using hsemi)]
          rfl
        obtain ⟨first, others, hsplit⟩ := exists_numbers bytes
        rw [if_pos hsemi, hnumbers, hsplit, List.modifyHead_cons, List.append_nil, useNumbers,
          if_pos hnumber]
        cases use s number with
        | error e => rfl
        | ok t =>
            have hnext := ih t [] (by simp)
            rw [hsplit] at hnext
            exact hnext
      · have hnumbers : numbers (ch :: bytes) = (numbers bytes).modifyHead (ch :: ·) := by
          rw [numbers, htake, List.splitOn_cons_eq_if_modifyHead, if_neg (by simpa using hsemi)]
          rfl
        obtain ⟨first, others, hsplit⟩ := exists_numbers bytes
        rw [if_neg hsemi, hnumbers, hsplit, List.modifyHead_cons, List.modifyHead_cons]
        -- any other character is stored, if the array has room for it
        by_cases hroom : number.length < numberSize
        · have hnext := ih s (number ++ [ch]) (by simp; omega)
          rw [if_pos hroom, hnext, hsplit, List.modifyHead_cons, List.append_assoc]
          rfl
        · rw [if_neg hroom, useNumbers_of_long (by simp; omega)]
          rfl

section UseNumbers

variable {use : σ → List (BitVec 8) → Except Fault σ}
  {last : σ → List (BitVec 8) → Except Fault τ}

/-- When every number fits, the handlers return; what each of their steps keeps, they keep. -/
theorem useNumbers_of_fits {P : σ → Prop} {Q : τ → Prop}
    (huse : ∀ s number, P s → Fits number → ∃ t, use s number = .ok t ∧ P t)
    (hlast : ∀ s number, P s → Fits number → ∃ t, last s number = .ok t ∧ Q t)
    {s : σ} {number : List (BitVec 8)} {rest : List (List (BitVec 8))} (hs : P s)
    (hfits : ∀ g ∈ number :: rest, Fits g) :
    ∃ t, useNumbers use last s (number :: rest) = .ok t ∧ Q t := by
  induction rest generalizing s number with
  | nil =>
      have hnumber := hfits number List.mem_cons_self
      rw [useNumbers, if_pos hnumber.1]
      exact hlast s number hs hnumber
  | cons next rest ih =>
      have hnumber := hfits number List.mem_cons_self
      obtain ⟨t, ht, hkeep⟩ := huse s number hs hnumber
      rw [useNumbers, if_pos hnumber.1, ht]
      exact ih hkeep fun g hg => hfits g (List.mem_cons_of_mem _ hg)

/-- When a number does not fit, the handlers overrun the array. -/
theorem useNumbers_of_not_fits
    (huse : ∀ s number, Fits number → ∃ t, use s number = .ok t)
    (hbad : ∀ s number, number.length ≤ numberSize → ¬Fits number →
      use s number = .error .overrun)
    (hlast : ∀ s number, number.length ≤ numberSize → ¬Fits number →
      last s number = .error .overrun)
    {s : σ} {number : List (BitVec 8)} {rest : List (List (BitVec 8))}
    (hfits : ∃ g ∈ number :: rest, ¬Fits g) :
    useNumbers use last s (number :: rest) = .error .overrun := by
  induction rest generalizing s number with
  | nil =>
      have hnumber : ¬Fits number := by simpa using hfits
      rw [useNumbers]
      split
      · rename_i hle
        exact hlast s number hle hnumber
      · rfl
  | cons next rest ih =>
      rw [useNumbers]
      split
      · rename_i hle
        -- the first number is handled, and a later one does not fit
        by_cases hnumber : Fits number
        · obtain ⟨t, ht⟩ := huse s number hnumber
          rw [ht]
          refine ih ?_
          obtain ⟨g, hg, hbad⟩ := hfits
          rcases List.mem_cons.mp hg with rfl | hg
          · exact absurd hnumber hbad
          · exact ⟨g, hg, hbad⟩
        · rw [hbad s number hle hnumber]
          rfl
      · rfl

end UseNumbers

/-! ## The handlers -/

/-- Every other element of a list, from the first one on or from the second one on. -/
def everyOther {α : Type} : Bool → List α → List α
  | _, [] => []
  | true, a :: l => a :: everyOther false l
  | false, _ :: l => everyOther true l

/-- The digits of a number that the array holds have a value far below the range of an `int`. -/
theorem numberValue_lt {number : List (BitVec 8)} (h : number.length ≤ numberSize) :
    numberValue number < 10 ^ 8 := by
  -- the accumulator of the fold is general: each digit multiplies the bound by ten
  have hfold : ∀ (l : List (BitVec 8)) (n : ℕ), (∀ ch ∈ l, isDigit ch = true) →
      l.foldl (fun n ch => 10 * n + (ch.toNat - 48)) n < (n + 1) * 10 ^ l.length := by
    intro l
    induction l with
    | nil => simp
    | cons ch l ih =>
        intro n hl
        have hdigit := toNat_of_isDigit (hl ch List.mem_cons_self)
        have hrest := ih (10 * n + (ch.toNat - 48)) fun c hc => hl c (List.mem_cons_of_mem _ hc)
        calc _ < (10 * n + (ch.toNat - 48) + 1) * 10 ^ l.length := hrest
          _ ≤ ((n + 1) * 10) * 10 ^ l.length := Nat.mul_le_mul_right _ (by omega)
          _ = (n + 1) * 10 ^ (ch :: l).length := by
            rw [List.length_cons, pow_succ, Nat.mul_assoc, Nat.mul_comm 10]
  have hlength := (List.takeWhile_prefix isDigit (l := number)).length_le
  calc numberValue number
      < (0 + 1) * 10 ^ (number.takeWhile isDigit).length :=
        hfold _ 0 (List.all_eq_true.mp List.all_takeWhile)
    _ ≤ 10 ^ 8 := by
      rw [Nat.zero_add, Nat.one_mul]
      exact Nat.pow_le_pow_right (by omega) (hlength.trans h)

namespace Console

variable (fb : Framebuffer) {s t : Console} {ch : BitVec 8}

/-- What one number of a cursor position does. -/
def moveCursor (s : Console) (isRow : Bool) (number : List (BitVec 8)) : Console :=
  if isRow then { s with cursorRow := numberValue number - 1 }
  else { s with cursorCol := numberValue number - 1 }

/-- The numbers of a cursor position alternate between row and column, and the last one of each
kind counts. They are 1 based; 0 and an omitted number stand for 1. -/
def moveCursors (s : Console) (isRow : Bool) (params : List (List (BitVec 8))) : Console :=
  { s with
    cursorRow :=
      ((everyOther isRow params).getLast?.map (numberValue · - 1)).getD s.cursorRow
    cursorCol :=
      ((everyOther (!isRow) params).getLast?.map (numberValue · - 1)).getD s.cursorCol }

theorem moveCursors_cons (isRow : Bool) (number : List (BitVec 8))
    (params : List (List (BitVec 8))) :
    (s.moveCursor isRow number).moveCursors (!isRow) params =
      s.moveCursors isRow (number :: params) := by
  cases isRow <;> simp [moveCursor, moveCursors, everyOther, List.getLast?_cons]

/-- One number of a cursor position. -/
theorem cupPosition_of_fits (s : Console) (isRow : Bool) {number : List (BitVec 8)}
    (h : Fits number) :
    cupPosition (s, isRow) number = .ok (s.moveCursor isRow number, !isRow) := by
  have hlt := numberValue_lt h.1
  -- the subtraction of `unsigned int`s does not wrap, because zero is excluded
  have hpos : (if BitVec.ofNat 32 (numberValue number) ≠ 0
      then (BitVec.ofNat 32 (numberValue number) - 1).toNat else 0) = numberValue number - 1 := by
    have hval : (BitVec.ofNat 32 (numberValue number)).toNat = numberValue number := by
      rw [BitVec.toNat_ofNat]
      omega
    split
    · rename_i hne
      have hpositive : numberValue number ≠ 0 := fun h0 => hne (by rw [h0]; rfl)
      have hone : (1 : BitVec 32).toNat = 1 := rfl
      rw [BitVec.toNat_sub, hval, hone]
      omega
    · rename_i heq
      have hzero : numberValue number = 0 := by
        rw [← hval, not_not.mp heq]
        rfl
      rw [hzero]
  rw [cupPosition, strToInt_of_fits h]
  show Except.ok _ = _
  rw [hpos]
  rfl

/-- `Console::processAnsiCup` over the numbers of the sequence. -/
theorem useNumbers_cup {number : List (BitVec 8)} {rest : List (List (BitVec 8))}
    (s : Console) (isRow : Bool) (hfits : ∀ g ∈ number :: rest, Fits g) :
    useNumbers cupPosition (fun p number => do return (← cupPosition p number).1) (s, isRow)
      (number :: rest) = .ok (s.moveCursors isRow (number :: rest)) := by
  induction rest generalizing s isRow number with
  | nil =>
      have hnumber := hfits number List.mem_cons_self
      rw [useNumbers, if_pos hnumber.1, cupPosition_of_fits s isRow hnumber, ← moveCursors_cons]
      cases isRow <;> rfl
  | cons next rest ih =>
      have hnumber := hfits number List.mem_cons_self
      rw [useNumbers, if_pos hnumber.1, cupPosition_of_fits s isRow hnumber, ← moveCursors_cons]
      exact ih _ _ fun g hg => hfits g (List.mem_cons_of_mem _ hg)

/-- One colour attribute. -/
theorem sgrAttribute_of_fits (s : Console) {number : List (BitVec 8)} (h : Fits number) :
    ∃ c, s.sgrAttribute number = .ok { s with colorIndices := c } := by
  unfold sgrAttribute
  split
  · exact ⟨_, rfl⟩
  · rw [strToInt_of_fits h]
    exact ⟨_, rfl⟩

theorem sgrAttribute_of_not_fits (s : Console) {number : List (BitVec 8)}
    (hle : number.length ≤ numberSize) (h : ¬Fits number) :
    s.sgrAttribute number = .error .overrun := by
  have hne : ¬(number = [] ∨ number = [ascii '0']) := by
    rintro (rfl | rfl)
    · exact h (by decide)
    · exact h (by decide)
  rw [sgrAttribute, if_neg hne, strToInt_of_not_fits hle h]
  rfl

theorem cupPosition_of_not_fits (p : Console × Bool) {number : List (BitVec 8)}
    (hle : number.length ≤ numberSize) (h : ¬Fits number) :
    cupPosition p number = .error .overrun := by
  rw [cupPosition, strToInt_of_not_fits hle h]
  rfl

/-- The bytes of the sequence that is being read. -/
def pending (s : Console) : List (BitVec 8) := s.ansiBuf.toList.take s.ansiBufUsed

/-- The state in which a sequence that `ch` completes is processed. -/
def completed (s : Console) (ch : BitVec 8) : Console :=
  { s with
    ansiBuf := s.ansiBuf.setIfInBounds s.ansiBufUsed ch
    ansiBufUsed := s.ansiBufUsed + 1 }

theorem pushAnsi_eq (hroom : s.ansiBufUsed < kAnsiBufSize) (ch : BitVec 8) :
    s.pushAnsi ch = .ok (s.completed ch) := if_pos hroom

/-- The final byte is the last byte of the buffer. -/
theorem finalByte_completed (hroom : s.ansiBufUsed < kAnsiBufSize) (ch : BitVec 8) :
    (s.completed ch).ansiBuf.toList[(s.completed ch).ansiBufUsed - 1]? = some ch := by
  simp only [completed, Vector.toList_setIfInBounds, Nat.add_sub_cancel]
  rw [List.getElem?_set_self (by simpa using hroom)]

/-- The handlers find the bytes before the final byte, and a terminator in its place. -/
theorem terminate_completed (hroom : s.ansiBufUsed < kAnsiBufSize) (ch : BitVec 8) :
    (s.completed ch).terminate.ansiBuf.toList =
      s.pending ++ 0#8 :: s.ansiBuf.toList.drop (s.ansiBufUsed + 1) := by
  simp only [completed, terminate, Vector.toList_setIfInBounds, Nat.add_sub_cancel, List.set_set]
  rw [List.set_eq_take_append_cons_drop, if_pos (by simpa using hroom)]
  rfl

/-- Nothing is drawn, logged or moved between the two states. -/
structure SameScreen (s t : Console) : Prop where
  stores : t.stores = s.stores
  logged : t.logged = s.logged
  cursorCol : t.cursorCol = s.cursorCol
  cursorRow : t.cursorRow = s.cursorRow

/-- `Console::processAnsiSgr` as a recursion over the numbers of the sequence. -/
theorem processAnsiSgr_eq (hroom : s.ansiBufUsed < kAnsiBufSize) (hused : s.ansiBufUsed ≠ 0)
    (ch : BitVec 8) :
    (s.completed ch).processAnsiSgr fb =
      useNumbers sgrAttribute
        (fun s number => do
          let s ← if number ≠ [] then s.sgrAttribute number else .ok s
          return s.updateColors fb)
        (s.completed ch).terminate (numbers s.pending) := by
  have hscan := scanNumbers_eq sgrAttribute
    (fun s number => do
      let s ← if number ≠ [] then s.sgrAttribute number else .ok s
      return s.updateColors fb)
    (s.completed ch).terminate [] s.pending (s.ansiBuf.toList.drop (s.ansiBufUsed + 1))
    (Nat.zero_le _)
  obtain ⟨number, rest, hsplit⟩ := exists_numbers s.pending
  have hne : (s.completed ch).ansiBufUsed ≠ 1 := by
    simpa [completed] using hused
  rw [processAnsiSgr, if_neg hne]
  simp only [terminate_completed hroom]
  rw [hsplit] at hscan ⊢
  exact hscan

/-- `Console::processAnsiCup` as a recursion over the numbers of the sequence. -/
theorem processAnsiCup_eq (hroom : s.ansiBufUsed < kAnsiBufSize) (ch : BitVec 8) :
    (s.completed ch).processAnsiCup =
      useNumbers cupPosition (fun p number => do return (← cupPosition p number).1)
        ((s.completed ch).terminate, true) (numbers s.pending) := by
  have hscan := scanNumbers_eq cupPosition
    (fun p number => do return (← cupPosition p number).1)
    ((s.completed ch).terminate, true) [] s.pending
    (s.ansiBuf.toList.drop (s.ansiBufUsed + 1)) (Nat.zero_le _)
  obtain ⟨number, rest, hsplit⟩ := exists_numbers s.pending
  rw [processAnsiCup]
  simp only [terminate_completed hroom]
  rw [hsplit] at hscan ⊢
  exact hscan

/-- A colour sequence whose numbers fit is processed, and only the colours change. -/
theorem processAnsiSgr_of_fits (hroom : s.ansiBufUsed < kAnsiBufSize) (ch : BitVec 8)
    (hfits : ∀ g ∈ numbers s.pending, Fits g) :
    ∃ t, (s.completed ch).processAnsiSgr fb = .ok t ∧ SameScreen s t := by
  by_cases hused : s.ansiBufUsed = 0
  · -- the sequence is its final byte
    have hone : (s.completed ch).ansiBufUsed = 1 := by simp [completed, hused]
    have hempty : Fits [] := by decide
    obtain ⟨c, hc⟩ := (s.completed ch).sgrAttribute_of_fits hempty
    refine ⟨updateColors fb { s.completed ch with colorIndices := c }, ?_, ⟨rfl, rfl, rfl, rfl⟩⟩
    rw [processAnsiSgr, if_pos hone, hc]
    rfl
  · obtain ⟨number, rest, hsplit⟩ := exists_numbers s.pending
    rw [processAnsiSgr_eq fb hroom hused, hsplit]
    rw [hsplit] at hfits
    refine useNumbers_of_fits (P := SameScreen s) (Q := SameScreen s) ?_ ?_ ⟨rfl, rfl, rfl, rfl⟩
      hfits
    · intro u g hu hg
      obtain ⟨c, hc⟩ := u.sgrAttribute_of_fits hg
      exact ⟨_, hc, hu.stores, hu.logged, hu.cursorCol, hu.cursorRow⟩
    · -- the last number is ignored when it is empty
      intro u g hu hg
      obtain ⟨c, hc⟩ := u.sgrAttribute_of_fits hg
      by_cases hne : g ≠ []
      · rw [if_pos hne, hc]
        exact ⟨_, rfl, hu.stores, hu.logged, hu.cursorCol, hu.cursorRow⟩
      · rw [if_neg hne]
        exact ⟨_, rfl, hu.stores, hu.logged, hu.cursorCol, hu.cursorRow⟩

/-- A colour sequence with a number that does not fit overruns the array. -/
theorem processAnsiSgr_of_not_fits (hroom : s.ansiBufUsed < kAnsiBufSize) (ch : BitVec 8)
    (hfits : ∃ g ∈ numbers s.pending, ¬Fits g) :
    (s.completed ch).processAnsiSgr fb = .error .overrun := by
  -- a sequence that is its final byte only has one number, the empty one, and that fits
  have hused : s.ansiBufUsed ≠ 0 := by
    intro hzero
    obtain ⟨g, hg, hbad⟩ := hfits
    rw [pending, hzero, List.take_zero] at hg
    have hempty : g = [] := by simpa [numbers] using hg
    exact hbad (hempty ▸ by decide)
  obtain ⟨number, rest, hsplit⟩ := exists_numbers s.pending
  rw [processAnsiSgr_eq fb hroom hused, hsplit]
  rw [hsplit] at hfits
  refine useNumbers_of_not_fits ?_ ?_ ?_ hfits
  · intro u g hg
    obtain ⟨c, hc⟩ := u.sgrAttribute_of_fits hg
    exact ⟨_, hc⟩
  · exact fun u g hle hg => u.sgrAttribute_of_not_fits hle hg
  · intro u g hle hg
    have hne : g ≠ [] := fun hnil => hg (hnil ▸ by decide)
    rw [if_pos hne, u.sgrAttribute_of_not_fits hle hg]
    rfl

/-- A cursor position whose numbers fit moves the cursor there. -/
theorem processAnsiCup_of_fits (hroom : s.ansiBufUsed < kAnsiBufSize) (ch : BitVec 8)
    (hfits : ∀ g ∈ numbers s.pending, Fits g) :
    (s.completed ch).processAnsiCup =
      .ok ((s.completed ch).terminate.moveCursors true (numbers s.pending)) := by
  obtain ⟨number, rest, hsplit⟩ := exists_numbers s.pending
  rw [processAnsiCup_eq hroom, hsplit]
  rw [hsplit] at hfits
  exact useNumbers_cup _ _ hfits

/-- A cursor position with a number that does not fit overruns the array. -/
theorem processAnsiCup_of_not_fits (hroom : s.ansiBufUsed < kAnsiBufSize) (ch : BitVec 8)
    (hfits : ∃ g ∈ numbers s.pending, ¬Fits g) :
    (s.completed ch).processAnsiCup = .error .overrun := by
  obtain ⟨number, rest, hsplit⟩ := exists_numbers s.pending
  rw [processAnsiCup_eq hroom, hsplit]
  rw [hsplit] at hfits
  refine useNumbers_of_not_fits ?_ ?_ ?_ hfits
  · exact fun p g hg => ⟨_, cupPosition_of_fits p.1 p.2 hg⟩
  · exact fun p g hle hg => cupPosition_of_not_fits p hle hg
  · intro p g hle hg
    rw [cupPosition_of_not_fits p hle hg]
    rfl

end Console

end KushOs.FbCons
