import KushOs.Foundation.Numeral
import KushOs.Kernel.Console.Log
import Mathlib.Data.List.TakeWhile
import Mathlib.Tactic.Ring

/-!
# Strings of the platform

The comparison of strings and the conversion of a string to a number that the amd64 platform uses
before there is a C library. A pointer into a string is the list of the characters from there up to
the terminator; where the list ends, the terminator is read.

`strtol` is not told where the text ends that it is to convert. It skips white space, and it ends at
the first character that is no digit.

## Main definitions

* `strncmp`, `strtol`: the functions.
* `number`: the number that a string starts with.

## Main results

* `strncmp_eq_zero_iff`: compared up to its own length, a string is found equal to each string that
  it is a prefix of.
* `strtol_zero`: the conversion with base 0 gives the number that the string starts with.
* `number_append`, `number_append_of_forall_isspace`: how what follows a text matters.
-/

namespace KushOs.Util

/-- `isspace`. -/
def isspace (c : BitVec 8) : Bool :=
  c == ascii ' ' || c.setWidth 32 - (ascii '\t').setWidth 32 < 5#32

/-- `isalpha`. -/
def isalpha (c : BitVec 8) : Bool :=
  (c.setWidth 32 ||| 32#32) - (ascii 'a').setWidth 32 < 26#32

/-- `isdigit`. -/
def isdigit (c : BitVec 8) : Bool := c.setWidth 32 - (ascii '0').setWidth 32 < 10#32

/-- `isupper`. -/
def isupper (c : BitVec 8) : Bool := c.setWidth 32 - (ascii 'A').setWidth 32 < 26#32

/-- `isxdigit`. -/
def isxdigit (c : BitVec 8) : Bool :=
  isdigit c || (c.setWidth 32 ||| 32#32) - (ascii 'a').setWidth 32 < 6#32

/-- `strncmp`. -/
def strncmp : List (BitVec 8) → List (BitVec 8) → ℕ → ℤ
  | _, _, 0 => 0
  | s1, s2, n + 1 =>
      let c1 := s1.headD 0
      let c2 := s2.headD 0
      -- the difference is that of unsigned characters
      if c1 ≠ c2 then c1.toNat - c2.toNat
      else if c1 = 0 then 0
      else strncmp s1.tail s2.tail n

/-! ## Conversion to a number -/

/-- `LONG_MAX`. -/
def LONG_MAX : ℤ := 2 ^ 63 - 1

/-- `LONG_MIN`. -/
def LONG_MIN : ℤ := -2 ^ 63

/-- The sign, and the string after it. -/
def takeSign : List (BitVec 8) → Bool × List (BitVec 8)
  | [] => (false, [])
  | c :: s =>
      if c = ascii '-' then (true, s) else if c = ascii '+' then (false, s) else (false, c :: s)

/-- The string starts with `0x` and a hexadecimal digit. -/
def hexFollows : List (BitVec 8) → Bool
  | c :: x :: d :: _ => c == ascii '0' && (x == ascii 'x' || x == ascii 'X') && isxdigit d
  | _ => false

/-- The base, with 0 for the one that the string shows, and the string after what shows it. -/
def takeBase (base : ℕ) (s : List (BitVec 8)) : ℕ × List (BitVec 8) :=
  if (base = 0 ∨ base = 16) ∧ hexFollows s then (16, s.drop 2)
  else if base = 0 then (if s.head? = some (ascii '0') then 8 else 10, s)
  else (base, s)

/-- `cutoff` and `cutlim`: the test for a number that is too large. -/
def cutoffs (neg : Bool) (base : ℤ) : ℤ × ℤ :=
  let cutoff := if neg then LONG_MIN else LONG_MAX
  let cutlim := cutoff.tmod base
  let cutoff := cutoff.tdiv base
  if neg then
    -- the remainder is not positive where division rounds to zero
    if 0 < cutlim then (cutoff + 1, -(cutlim - base)) else (cutoff, -cutlim)
  else (cutoff, cutlim)

/-- What a character is as a digit. That a character after a sign is sign extended makes no
difference, as those are no digits. -/
def digit (c : BitVec 8) : Option ℕ :=
  if isdigit c then some (c.toNat - (ascii '0').toNat)
  else if isalpha c then
    some (c.toNat - if isupper c then (ascii 'A').toNat - 10 else (ascii 'a').toNat - 10)
  else none

/-- The loop over the digits: the number, `any`, and the string where it stops. -/
def strtolLoop (neg : Bool) (base : ℕ) (cutoff cutlim : ℤ) :
    List (BitVec 8) → ℤ → ℤ → ℤ × ℤ × List (BitVec 8)
  | [], acc, any => (acc, any, [])
  | c :: s, acc, any =>
      match digit c with
      | none => (acc, any, c :: s)
      | some d =>
          if base ≤ d then (acc, any, c :: s)
          -- the limit was passed before
          else if any < 0 then strtolLoop neg base cutoff cutlim s acc any
          else if neg then
            if acc < cutoff ∨ acc = cutoff ∧ cutlim < d then
              strtolLoop neg base cutoff cutlim s LONG_MIN (-1)
            else strtolLoop neg base cutoff cutlim s (acc * base - d) 1
          else
            if cutoff < acc ∨ acc = cutoff ∧ cutlim < d then
              strtolLoop neg base cutoff cutlim s LONG_MAX (-1)
            else strtolLoop neg base cutoff cutlim s (acc * base + d) 1

/-- `strtol`: the number, and what is stored in `*endptr`. -/
def strtol (nptr : List (BitVec 8)) (base : ℤ) : ℤ × List (BitVec 8) :=
  if base < 0 ∨ base = 1 ∨ 36 < base then (0, nptr)
  else
    -- skip white space and pick up the sign
    let signed := takeSign (nptr.dropWhile isspace)
    let based := takeBase base.toNat signed.2
    let cut := cutoffs signed.1 based.1
    let result := strtolLoop signed.1 based.1 cut.1 cut.2 based.2 0 0
    -- `any` is 0 if there were no digits
    (result.1, if result.2.1 ≠ 0 then result.2.2 else nptr)

/-! ## Comparison -/

/-- A string that is compared up to its own length is found equal to those that it is a prefix
of. -/
theorem strncmp_eq_zero_iff {s key : List (BitVec 8)} (hkey : 0 ∉ key) (rest : List (BitVec 8)) :
    strncmp s (key ++ rest) key.length = 0 ↔ key <+: s := by
  induction key generalizing s with
  | nil => simp [strncmp]
  | cons k key ih =>
      rw [List.mem_cons, not_or] at hkey
      obtain ⟨hk, hkey⟩ := hkey
      rw [List.length_cons, List.cons_append, strncmp, List.headD_cons, List.tail_cons]
      cases s with
      | nil =>
          -- the terminator is compared with a character
          have hk_pos : k.toNat ≠ 0 := fun h => hk (BitVec.eq_of_toNat_eq h).symm
          simp only [List.headD_nil, if_pos hk, List.prefix_nil, List.cons_ne_nil, iff_false]
          simpa using hk_pos
      | cons c s =>
          rw [List.headD_cons, List.tail_cons, List.cons_prefix_cons]
          by_cases hc : c = k
          · have hc_ne : c ≠ 0 := fun h => hk (h.symm.trans hc)
            simp only [hc, ne_eq, not_true_eq_false, if_false, if_neg (hc ▸ hc_ne), ih hkey,
              true_and]
          · have hsub : (c.toNat : ℤ) - k.toNat ≠ 0 := fun h =>
              hc (BitVec.eq_of_toNat_eq (by omega))
            rw [if_pos hc]
            exact iff_of_false hsub fun h => hc h.1.symm

/-! ## The number that a string starts with -/

section Number

/-- The digits below a base with which a string starts. -/
def digits (base : ℕ) : List (BitVec 8) → List ℕ
  | [] => []
  | c :: s =>
      match digit c with
      | none => []
      | some d => if base ≤ d then [] else d :: digits base s

/-- The factor that a sign stands for. -/
def signOf (neg : Bool) : ℤ := if neg then -1 else 1

/-- The largest absolute value of a `long` with a sign. -/
def limitOf (neg : Bool) : ℕ := if neg then 2 ^ 63 else 2 ^ 63 - 1

/-- The number that a string starts with, after white space: a sign, a numeral in the base that its
first characters show, and the nearest `long`. It is 0 where there is no digit. -/
def number (s : List (BitVec 8)) : ℤ :=
  let signed := takeSign (s.dropWhile isspace)
  let based := takeBase 0 signed.2
  signOf signed.1 *
    (min (limitOf signed.1) (Numeral.read based.1 0 (digits based.1 based.2)) : ℕ)

variable {neg : Bool} {base : ℕ}

/-- The test for a number that is too large is made with quotient and remainder of the limit. -/
theorem cutoffs_eq (neg : Bool) (base : ℕ) :
    cutoffs neg base =
      (signOf neg * ((limitOf neg / base : ℕ) : ℤ), ((limitOf neg % base : ℕ) : ℤ)) := by
  cases neg with
  | true =>
      have hquot : LONG_MIN.tdiv base = -((2 ^ 63 / base : ℕ) : ℤ) := by
        rw [LONG_MIN, Int.neg_tdiv]
        rfl
      have hrem : LONG_MIN.tmod base = -((2 ^ 63 % base : ℕ) : ℤ) := by
        rw [LONG_MIN, Int.neg_tmod]
        rfl
      have hle : ¬(0 : ℤ) < -((2 ^ 63 % base : ℕ) : ℤ) := by omega
      simp only [cutoffs, if_true, hquot, hrem, if_neg hle, signOf, limitOf, Int.neg_neg,
        Int.neg_one_mul]
  | false =>
      simp only [cutoffs, Bool.false_eq_true, if_false, signOf, limitOf, Int.one_mul]
      rfl

/-- The test of the loop for a number that is too large. -/
def TooLarge (neg : Bool) (cut : ℤ × ℤ) (acc : ℤ) (d : ℕ) : Prop :=
  if neg then acc < cut.1 ∨ acc = cut.1 ∧ cut.2 < d else cut.1 < acc ∨ acc = cut.1 ∧ cut.2 < d

instance (neg : Bool) (cut : ℤ × ℤ) (acc : ℤ) (d : ℕ) : Decidable (TooLarge neg cut acc d) :=
  inferInstanceAs (Decidable (if neg then _ else _))

/-- It finds the numbers whose next absolute value is above the limit. -/
theorem tooLarge_iff {a d : ℕ} (hd : d < base) :
    TooLarge neg (cutoffs neg base) (signOf neg * a) d ↔ limitOf neg < a * base + d := by
  rw [Numeral.lt_mul_add_iff hd, cutoffs_eq, TooLarge]
  cases neg with
  | true =>
      simp only [signOf, if_true]
      omega
  | false =>
      simp only [signOf, Bool.false_eq_true, if_false]
      omega

/-- One turn of the loop at a digit, before the limit is passed. -/
theorem strtolLoop_cons {c : BitVec 8} {d : ℕ} {acc any : ℤ} (cut : ℤ × ℤ)
    (hdigit : digit c = some d) (hd : d < base) (hany : ¬any < 0) (s : List (BitVec 8)) :
    strtolLoop neg base cut.1 cut.2 (c :: s) acc any =
      if TooLarge neg cut acc d then
        strtolLoop neg base cut.1 cut.2 s (signOf neg * limitOf neg) (-1)
      else strtolLoop neg base cut.1 cut.2 s (acc * base + signOf neg * d) 1 := by
  rw [strtolLoop, hdigit]
  dsimp only
  rw [if_neg (not_le.mpr hd), if_neg hany]
  cases neg with
  | true =>
      have hsub : acc * base - d = acc * base + signOf true * d := by
        rw [signOf, if_pos rfl]
        ring
      rw [if_pos rfl, hsub]
      rfl
  | false =>
      have hadd : acc * base + d = acc * base + signOf false * d := by
        rw [signOf, if_neg Bool.false_ne_true, one_mul]
      rw [if_neg Bool.false_ne_true, hadd]
      rfl

/-- The next absolute value is the one up to the limit, and that the limit was passed is kept. -/
theorem strtolLoop_digit {c : BitVec 8} {d a : ℕ} {any : ℤ} (hdigit : digit c = some d)
    (hd : d < base) (hany : ¬any < 0) (s : List (BitVec 8)) :
    strtolLoop neg base (cutoffs neg base).1 (cutoffs neg base).2 (c :: s) (signOf neg * a) any =
      strtolLoop neg base (cutoffs neg base).1 (cutoffs neg base).2 s
        (signOf neg * (Numeral.saturate (limitOf neg) base a d : ℕ))
        (if limitOf neg < a * base + d then -1 else 1) := by
  rw [strtolLoop_cons (cutoffs neg base) hdigit hd hany, Numeral.saturate]
  by_cases hlarge : limitOf neg < a * base + d
  · rw [if_pos ((tooLarge_iff hd).mpr hlarge), if_pos hlarge, min_eq_left hlarge.le]
  · have hnext : signOf neg * (a : ℤ) * base + signOf neg * d =
        signOf neg * ((a * base + d : ℕ) : ℤ) := by
      push_cast
      ring
    rw [if_neg (mt (tooLarge_iff hd).mp hlarge), if_neg hlarge, min_eq_right (not_lt.mp hlarge),
      hnext]

/-- The loop reads the digits, up to the limit. -/
theorem strtolLoop_fst (hbase : 0 < base) (s : List (BitVec 8)) {a : ℕ} {any : ℤ}
    (ha : a ≤ limitOf neg) (hany : any < 0 → a = limitOf neg) :
    (strtolLoop neg base (cutoffs neg base).1 (cutoffs neg base).2 s (signOf neg * a) any).1 =
      signOf neg * ((min (limitOf neg) (Numeral.read base a (digits base s)) : ℕ) : ℤ) := by
  rw [← Numeral.foldl_saturate hbase ha]
  induction s generalizing a any with
  | nil => rfl
  | cons c s ih =>
      cases hdigit : digit c with
      | none =>
          rw [strtolLoop, digits, hdigit]
          rfl
      | some d =>
          by_cases hd : base ≤ d
          · rw [strtolLoop, digits, hdigit]
            dsimp only
            rw [if_pos hd, if_pos hd]
            rfl
          -- a digit of the base
          have hdigits : digits base (c :: s) = d :: digits base s := by
            rw [digits, hdigit]
            exact if_neg hd
          rw [hdigits, List.foldl_cons]
          by_cases hover : any < 0
          · -- the limit was passed before
            rw [strtolLoop, hdigit]
            dsimp only
            rw [if_neg hd, if_pos hover, ih ha hany, hany hover, Numeral.saturate_limit hbase]
          · rw [strtolLoop_digit hdigit (not_le.mp hd) hover]
            refine ih (min_le_left _ _) fun hneg => ?_
            have hlarge : limitOf neg < a * base + d := by
              by_contra hlarge
              rw [if_neg hlarge] at hneg
              exact absurd hneg (by decide)
            exact min_eq_left hlarge.le

/-- The base is positive if the one that is asked for is 0. -/
theorem takeBase_zero_pos (s : List (BitVec 8)) : 0 < (takeBase 0 s).1 := by
  rw [takeBase]
  split
  · exact Nat.zero_lt_succ 15
  · rw [if_pos rfl]
    dsimp only
    split
    · exact Nat.zero_lt_succ 7
    · exact Nat.zero_lt_succ 9

/-- The conversion with base 0 gives the number that the string starts with. -/
theorem strtol_zero (s : List (BitVec 8)) : (strtol s 0).1 = number s := by
  have hloop := @strtolLoop_fst (takeSign (s.dropWhile isspace)).1 _
    (takeBase_zero_pos (takeSign (s.dropWhile isspace)).2)
    (takeBase 0 (takeSign (s.dropWhile isspace)).2).2 0 0 (Nat.zero_le _)
    (fun h => absurd h (lt_irrefl 0))
  rw [Nat.cast_zero, mul_zero] at hloop
  exact hloop

/-! ### What follows a text -/

/-- A string is empty or starts with a space. -/
def StartsWithSpace (rest : List (BitVec 8)) : Prop := rest = [] ∨ ∃ s, rest = ascii ' ' :: s

variable {text rest : List (BitVec 8)}

theorem takeSign_append (htext : text ≠ []) (rest : List (BitVec 8)) :
    takeSign (text ++ rest) = ((takeSign text).1, (takeSign text).2 ++ rest) := by
  obtain ⟨c, s, rfl⟩ := List.exists_cons_of_ne_nil htext
  rw [List.cons_append, takeSign, takeSign]
  by_cases hminus : c = ascii '-'
  · rw [if_pos hminus, if_pos hminus]
  rw [if_neg hminus, if_neg hminus]
  by_cases hplus : c = ascii '+'
  · rw [if_pos hplus, if_pos hplus]
  · rw [if_neg hplus, if_neg hplus, List.cons_append]

/-- A space ends what shows the base. -/
theorem hexFollows_append (hrest : StartsWithSpace rest) :
    hexFollows (text ++ rest) = hexFollows text := by
  obtain rfl | ⟨s, rfl⟩ := hrest
  · rw [List.append_nil]
  -- the space takes the place of one of the three characters
  match text with
  | [] => rcases s with _ | ⟨x, _ | ⟨d, s⟩⟩ <;> rfl
  | [c] =>
      rcases s with _ | ⟨d, s⟩
      · rfl
      · show (c == ascii '0' && (ascii ' ' == ascii 'x' || ascii ' ' == ascii 'X') &&
          isxdigit d) = false
        rw [show (ascii ' ' == ascii 'x' || ascii ' ' == ascii 'X') = false by decide,
          Bool.and_false, Bool.false_and]
  | [c, x] =>
      show (c == ascii '0' && (x == ascii 'x' || x == ascii 'X') && isxdigit (ascii ' ')) = false
      rw [show isxdigit (ascii ' ') = false by decide, Bool.and_false]
  | _ :: _ :: _ :: _ => rfl

/-- What shows the base is three characters long. -/
theorem length_of_hexFollows (h : hexFollows text = true) : 3 ≤ text.length := by
  match text, h with
  | _ :: _ :: _ :: s, _ => exact Nat.le_add_left 3 s.length

theorem takeBase_append (hrest : StartsWithSpace rest) :
    takeBase 0 (text ++ rest) = ((takeBase 0 text).1, (takeBase 0 text).2 ++ rest) := by
  rw [takeBase, takeBase, hexFollows_append hrest]
  by_cases hhex : hexFollows text = true
  · have hlength := length_of_hexFollows hhex
    simp only [true_or, true_and, if_pos hhex]
    rw [List.drop_append_of_le_length (by omega)]
  · have hhead : (text ++ rest).head? = some (ascii '0') ↔ text.head? = some (ascii '0') := by
      cases text with
      | nil =>
          obtain rfl | ⟨s, rfl⟩ := hrest
          · rfl
          · exact iff_of_false (fun h => absurd (Option.some.inj h) (by decide)) (by simp)
      | cons c text => rfl
    simp only [true_or, true_and, if_neg hhex, if_true, hhead]

/-- A space ends the digits. -/
theorem digits_append (hrest : StartsWithSpace rest) (base : ℕ) :
    digits base (text ++ rest) = digits base text := by
  induction text with
  | nil =>
      obtain rfl | ⟨s, rfl⟩ := hrest
      · rfl
      · have hspace : digit (ascii ' ') = none := by decide
        simp only [List.nil_append, digits, hspace]
  | cons c text ih => rw [List.cons_append, digits, digits, ih]

/-- The number of a text with more than white space ends at a space after the text. -/
theorem number_append (htext : ∃ c ∈ text, isspace c = false) (hrest : StartsWithSpace rest) :
    number (text ++ rest) = number text := by
  have hne : text.dropWhile isspace ≠ [] := by
    obtain ⟨c, hc, hspace⟩ := htext
    intro h
    rw [List.dropWhile_eq_nil_iff.mp h c hc] at hspace
    exact absurd hspace (by decide)
  have hskip : (text ++ rest).dropWhile isspace = text.dropWhile isspace ++ rest := by
    rw [List.dropWhile_append, if_neg]
    simpa using hne
  simp only [number, hskip, takeSign_append hne, takeBase_append hrest, digits_append hrest]

/-- White space is skipped, and what follows it is converted. -/
theorem number_append_of_forall_isspace (htext : ∀ c ∈ text, isspace c = true) :
    number (text ++ rest) = number rest := by
  have hskip : (text ++ rest).dropWhile isspace = rest.dropWhile isspace := by
    rw [List.dropWhile_append, if_pos]
    simpa [List.dropWhile_eq_nil_iff] using htext
  rw [number, hskip, number]

/-- There is no number in white space. -/
theorem number_of_forall_isspace (htext : ∀ c ∈ text, isspace c = true) : number text = 0 := by
  have hnil := @number_append_of_forall_isspace text [] htext
  rw [List.append_nil] at hnil
  exact hnil

end Number

end KushOs.Util
