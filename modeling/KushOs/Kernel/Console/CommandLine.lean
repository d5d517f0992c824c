import KushOs.Kernel.Console.Strings

/-!
# The kernel command line

`Console::ParseCmd` looks for tokens of the form `-key=value` in the command line, and
`Console::ParseCmdToken` sets the port for debug output from a value `debugcon,number`. The key and
the type are compared up to their own lengths, so that prefixes are accepted, and the number is
converted from the rest of the command line, so that it may be that of what follows the token. The
trace message with which `ParseCmd` starts is left out.

## Main definitions

* `parseCmd`: the stores in `gDebugconPort`.
* `tokens`: the tokens of a command line.
* `SetsDebugconPort`: what the parser is to do.

## Main results

* `parseCmd_eq`: the parser makes the stores that its tokens ask for.
* `command_line`: the command lines for which it does what it is to do.
-/

namespace KushOs.Cmdline

open Util

/-- A string in memory, without the NUL that ends it. -/
structure CString where
  chars : List (BitVec 8)
  nul_notMem : 0 ∉ chars

/-- A string literal. -/
def CString.literal (s : String) (h : 0 ∉ s.toList.map ascii) : CString := ⟨s.toList.map ascii, h⟩

/-- The key of the tokens that are looked for. -/
def consoleKey : List (BitVec 8) := "console".toList.map ascii

/-- The type of the values that are looked for. -/
def debugconType : List (BitVec 8) := "debugcon".toList.map ascii

/-! ## The parser -/

/-- The loop of `ParseCmdToken`: the length of the type, and the value after it. -/
def extractType : List (BitVec 8) → ℕ → ℕ → ℕ × List (BitVec 8)
  | value, 0, typeLen => (typeLen, value)
  | value, i + 1, typeLen =>
      -- the comma is consumed but not counted
      if value.headD 0 = ascii ',' then (typeLen, value.tail)
      else extractType value.tail i (typeLen + 1)

/-- `Console::ParseCmdToken`: what is stored in `gDebugconPort`, if anything is. -/
def parseCmdToken (value : List (BitVec 8)) (valueLen : ℕ) : Option (BitVec 16) :=
  let extracted := extractType value valueLen 0
  -- `strtol` is not given the end of the value
  if strncmp debugconType value extracted.1 = 0 then
    some (BitVec.ofInt 16 (strtol extracted.2 0).1)
  else none

/-- The states of `ParseCmd`. -/
inductive State
  /-- Not reading anything. -/
  | IDLE
  /-- Reading the key. -/
  | KEY
  /-- Reading the value. -/
  | VALUE
  deriving DecidableEq

/-- The local variables of `ParseCmd`. The pointers are not set before they are used. -/
structure CmdParser where
  state : State := .IDLE
  key : List (BitVec 8) := []
  keyLen : ℕ := 0
  value : List (BitVec 8) := []
  valueLen : ℕ := 0

/-- A token, and what follows it. -/
structure CmdToken where
  key : List (BitVec 8)
  value : List (BitVec 8)
  rest : List (BitVec 8)
  deriving DecidableEq

/-- A store in `gDebugconPort`, and the token that it is made for. -/
structure PortStore where
  token : CmdToken
  port : BitVec 16
  deriving DecidableEq

namespace CmdParser

/-- The token that was read. -/
def token (p : CmdParser) : CmdToken where
  key := p.key.take p.keyLen
  value := p.value.take p.valueLen
  rest := p.value.drop p.valueLen

/-- The end of a value. -/
def endValue (p : CmdParser) : Option PortStore :=
  if strncmp consoleKey p.key p.keyLen = 0 then
    (parseCmdToken p.value p.valueLen).map fun port => ⟨p.token, port⟩
  else none

/-- One turn of the loop of `ParseCmd`, at a character and with the string after it. -/
def step (p : CmdParser) (ch : BitVec 8) (next : List (BitVec 8)) :
    CmdParser × Option PortStore :=
  match p.state with
  | .IDLE =>
      -- a key starts at any dash, also in the middle of a word
      if ch = ascii '-' then ({ p with state := .KEY, key := next, keyLen := 0 }, none)
      else (p, none)
  | .KEY =>
      -- only keys with a value matter
      if ch = ascii '=' then ({ p with state := .VALUE, value := next, valueLen := 0 }, none)
      else if ch = ascii ' ' then ({ p with state := .IDLE }, none)
      else ({ p with keyLen := p.keyLen + 1 }, none)
  | .VALUE =>
      if ch = 0 ∨ ch = ascii ' ' then ({ p with state := .IDLE }, p.endValue)
      else ({ p with valueLen := p.valueLen + 1 }, none)

/-- The loop of `ParseCmd`, which ends with a turn for the NUL: the stores in `gDebugconPort`. -/
def run : List (BitVec 8) → CmdParser → List PortStore
  | [], p => (p.step 0 []).2.toList
  | ch :: next, p => (p.step ch next).2.toList ++ run next (p.step ch next).1

end CmdParser

/-- `Console::ParseCmd`: the stores in `gDebugconPort`, in order. -/
def parseCmd (cmdline : CString) : List PortStore := CmdParser.run cmdline.chars {}

/-! ## Tokens -/

/-- A character of a key. -/
def isKeyChar (c : BitVec 8) : Bool := c != ascii '=' && c != ascii ' '

/-- What is left behind a character at which skipping stops is shorter. -/
theorem length_lt_of_dropWhile {p : BitVec 8 → Bool} {s rest : List (BitVec 8)} {c : BitVec 8}
    (h : s.dropWhile p = c :: rest) : rest.length < s.length := by
  have hle := List.length_dropWhile_le p s
  rw [h, List.length_cons] at hle
  exact hle

/-- The tokens `-key=value` of a string, from the left: a key starts after a dash and ends at an
equals sign, and at a space there is no token; a value ends at a space or where the string ends. -/
def tokens (s : List (BitVec 8)) : List CmdToken :=
  match _hdash : s.dropWhile (· != ascii '-') with
  | [] => []
  | _ :: afterDash =>
      match _hkey : afterDash.dropWhile isKeyChar with
      | [] => []
      | c :: afterKey =>
          if c = ascii '=' then
            { key := afterDash.takeWhile isKeyChar
              value := afterKey.takeWhile (· != ascii ' ')
              rest := afterKey.dropWhile (· != ascii ' ') } ::
              tokens (afterKey.dropWhile (· != ascii ' '))
          else tokens afterKey
termination_by s.length
decreasing_by
  · calc (afterKey.dropWhile (· != ascii ' ')).length
        _ ≤ afterKey.length := List.length_dropWhile_le _ _
        _ < afterDash.length := length_lt_of_dropWhile _hkey
        _ < s.length := length_lt_of_dropWhile _hdash
  · exact (length_lt_of_dropWhile _hkey).trans (length_lt_of_dropWhile _hdash)

section Tokens

variable {s afterDash afterKey : List (BitVec 8)} {c d : BitVec 8}

/-- There is no token without a dash. -/
theorem tokens_of_no_dash (hdash : s.dropWhile (· != ascii '-') = []) : tokens s = [] := by
  rw [tokens, hdash]

/-- There is no token when the string ends in a key. -/
theorem tokens_of_no_end (hdash : s.dropWhile (· != ascii '-') = c :: afterDash)
    (hkey : afterDash.dropWhile isKeyChar = []) : tokens s = [] := by
  rw [tokens, hdash]
  dsimp only
  rw [hkey]

/-- An equals sign ends a key and starts a value. -/
theorem tokens_of_equals (hdash : s.dropWhile (· != ascii '-') = c :: afterDash)
    (hkey : afterDash.dropWhile isKeyChar = ascii '=' :: afterKey) :
    tokens s =
      { key := afterDash.takeWhile isKeyChar
        value := afterKey.takeWhile (· != ascii ' ')
        rest := afterKey.dropWhile (· != ascii ' ') } ::
        tokens (afterKey.dropWhile (· != ascii ' ')) := by
  rw [tokens, hdash]
  dsimp only
  rw [hkey]
  exact if_pos rfl

/-- A space ends a key, and there is no value. -/
theorem tokens_of_space (hdash : s.dropWhile (· != ascii '-') = c :: afterDash)
    (hkey : afterDash.dropWhile isKeyChar = d :: afterKey) (hd : d ≠ ascii '=') :
    tokens s = tokens afterKey := by
  rw [tokens, hdash]
  dsimp only
  rw [hkey]
  exact if_neg hd

end Tokens

namespace CmdToken

variable (t : CmdToken)

/-- The text before the first comma of a value. -/
def type : List (BitVec 8) := t.value.takeWhile (· != ascii ',')

/-- The text after the first comma. -/
def parameters : List (BitVec 8) := (t.value.dropWhile (· != ascii ',')).tail

/-- The code accepts the token. -/
def Accepted : Prop := t.key <+: consoleKey ∧ t.type <+: debugconType

instance : Decidable t.Accepted := inferInstanceAs (Decidable (_ ∧ _))

/-- The store that the code makes for a token. -/
def store? : Option PortStore :=
  if t.Accepted then some ⟨t, BitVec.ofInt 16 (number (t.parameters ++ t.rest))⟩ else none

end CmdToken

/-! ## The parser finds the tokens -/

section Parser

variable {p : CmdParser}

/-- The loop over the type stops behind the comma, or at the end of the value. -/
theorem extractType_append (value rest : List (BitVec 8)) (n : ℕ) :
    extractType (value ++ rest) value.length n =
      (n + (value.takeWhile (· != ascii ',')).length,
        (value.dropWhile (· != ascii ',')).tail ++ rest) := by
  induction value generalizing n with
  | nil => rfl
  | cons c value ih =>
      rw [List.length_cons, List.cons_append, extractType, List.headD_cons, List.tail_cons]
      by_cases hc : c = ascii ','
      · rw [if_pos hc, List.takeWhile_cons_of_neg (by simpa using hc),
          List.dropWhile_cons_of_neg (by simpa using hc)]
        rfl
      · rw [if_neg hc, ih, List.takeWhile_cons_of_pos (by simpa using hc),
          List.dropWhile_cons_of_pos (by simpa using hc), List.length_cons, Nat.add_right_comm,
          Nat.add_assoc]

/-- What the value of a token asks for. -/
theorem parseCmdToken_eq {t : CmdToken} (hvalue : 0 ∉ t.value) :
    parseCmdToken (t.value ++ t.rest) t.value.length =
      if t.type <+: debugconType then
        some (BitVec.ofInt 16 (number (t.parameters ++ t.rest)))
      else none := by
  have htype : 0 ∉ t.type := fun h => hvalue ((List.takeWhile_prefix _).subset h)
  have hcompare := @strncmp_eq_zero_iff debugconType _ htype
    (t.value.dropWhile (· != ascii ',') ++ t.rest)
  rw [← List.append_assoc, CmdToken.type, List.takeWhile_append_dropWhile] at hcompare
  rw [parseCmdToken, extractType_append]
  dsimp only
  rw [Nat.zero_add, strtol_zero]
  exact if_congr hcompare rfl rfl

/-- The end of the value of a token. -/
theorem endValue_eq {t : CmdToken} (hkey : 0 ∉ t.key) (hvalue : 0 ∉ t.value)
    (keyRest : List (BitVec 8)) :
    (CmdParser.mk .VALUE (t.key ++ keyRest) t.key.length (t.value ++ t.rest)
      t.value.length).endValue = t.store? := by
  have hcompare := @strncmp_eq_zero_iff consoleKey _ hkey keyRest
  rw [CmdParser.endValue, parseCmdToken_eq hvalue, CmdParser.token, CmdToken.store?]
  simp only [List.take_left, List.drop_left]
  by_cases hconsole : t.key <+: consoleKey
  · rw [if_pos (hcompare.mpr hconsole)]
    by_cases htype : t.type <+: debugconType
    · rw [if_pos htype, if_pos ⟨hconsole, htype⟩]
      rfl
    · rw [if_neg htype, if_neg fun h : t.Accepted => htype h.2]
      rfl
  · rw [if_neg (mt hcompare.mp hconsole), if_neg fun h : t.Accepted => hconsole h.1]

open CmdParser

/-- Before a dash, nothing happens. -/
theorem run_idle (hp : p.state = .IDLE) (s : List (BitVec 8)) :
    run s p = run (s.dropWhile (· != ascii '-')) p := by
  induction s with
  | nil => rfl
  | cons ch s ih =>
      by_cases hch : ch = ascii '-'
      · rw [List.dropWhile_cons_of_neg (by simpa using hch)]
      · have hstep : p.step ch s = (p, none) := by rw [step, hp, if_neg hch]
        rw [List.dropWhile_cons_of_pos (by simpa using hch), run, hstep]
        exact ih

/-- The characters of a key are counted. -/
theorem run_key (hp : p.state = .KEY) (s : List (BitVec 8)) :
    run s p = run (s.dropWhile isKeyChar)
      { p with keyLen := p.keyLen + (s.takeWhile isKeyChar).length } := by
  induction s generalizing p with
  | nil => rfl
  | cons ch s ih =>
      by_cases hch : isKeyChar ch = true
      · have hne : ch ≠ ascii '=' ∧ ch ≠ ascii ' ' := by simpa [isKeyChar] using hch
        have hstep : p.step ch s = ({ p with keyLen := p.keyLen + 1 }, none) := by
          rw [step, hp]
          dsimp only
          rw [if_neg hne.1, if_neg hne.2]
        rw [List.dropWhile_cons_of_pos hch, List.takeWhile_cons_of_pos hch, run, hstep,
          List.length_cons, Nat.add_comm (List.length _) 1, ← Nat.add_assoc]
        exact ih hp
      · rw [List.dropWhile_cons_of_neg hch, List.takeWhile_cons_of_neg hch]
        rfl

/-- The characters of a value are counted, and at its end the token is complete. -/
theorem run_value (hp : p.state = .VALUE) {s : List (BitVec 8)} (hs : 0 ∉ s) :
    run s p =
      ({ p with valueLen := p.valueLen + (s.takeWhile (· != ascii ' ')).length } :
          CmdParser).endValue.toList ++
        run (s.dropWhile (· != ascii ' ')).tail
          { p with
            state := .IDLE
            valueLen := p.valueLen + (s.takeWhile (· != ascii ' ')).length } := by
  induction s generalizing p with
  | nil =>
      -- the NUL ends the value, as a space does
      have hstep : p.step 0 [] = ({ p with state := .IDLE }, p.endValue) := by
        rw [step, hp]
        exact if_pos (.inl rfl)
      rw [run, hstep]
      exact (List.append_nil _).symm
  | cons ch s ih =>
      rw [List.mem_cons, not_or] at hs
      by_cases hch : ch = ascii ' '
      · have hstep : p.step ch s = ({ p with state := .IDLE }, p.endValue) := by
          rw [step, hp]
          exact if_pos (.inr hch)
        rw [List.dropWhile_cons_of_neg (by simpa using hch),
          List.takeWhile_cons_of_neg (by simpa using hch), run, hstep]
        rfl
      · have hstep : p.step ch s = ({ p with valueLen := p.valueLen + 1 }, none) := by
          rw [step, hp]
          exact if_neg (not_or.mpr ⟨fun h => hs.1 h.symm, hch⟩)
        rw [List.dropWhile_cons_of_pos (by simpa using hch),
          List.takeWhile_cons_of_pos (by simpa using hch), run, hstep, List.length_cons,
          Nat.add_comm (List.length _) 1, ← Nat.add_assoc]
        exact ih hp hs.2

/-- A space before a string makes no difference while no token is being read. -/
theorem run_tail (hp : p.state = .IDLE) {s : List (BitVec 8)} (hs : StartsWithSpace s) :
    run s.tail p = run s p := by
  obtain rfl | ⟨s, rfl⟩ := hs
  · rfl
  · have hskip := run_idle hp (ascii ' ' :: s)
    rw [List.dropWhile_cons_of_pos (by decide), ← run_idle hp s] at hskip
    exact hskip.symm

/-- The character at which skipping stops. -/
theorem eq_false_of_dropWhile {p : BitVec 8 → Bool} {s rest : List (BitVec 8)} {c : BitVec 8}
    (h : s.dropWhile p = c :: rest) : p c = false := by
  have hstop := List.head?_dropWhile_not p s
  rw [h] at hstop
  exact hstop

/-- What follows a value. -/
theorem startsWithSpace_dropWhile (s : List (BitVec 8)) :
    StartsWithSpace (s.dropWhile (· != ascii ' ')) := by
  cases hrest : s.dropWhile (· != ascii ' ') with
  | nil => exact .inl rfl
  | cons c rest =>
      have hc : c = ascii ' ' := by simpa using eq_false_of_dropWhile hrest
      exact .inr ⟨rest, by rw [hc]⟩

/-- What is left after skipping has no NUL if there was none. -/
theorem notMem_of_dropWhile {p : BitVec 8 → Bool} {s rest : List (BitVec 8)} {c : BitVec 8}
    (h : s.dropWhile p = c :: rest) (hs : 0 ∉ s) : 0 ∉ rest := fun hmem =>
  hs ((List.dropWhile_suffix p).subset (h ▸ List.mem_cons_of_mem c hmem))

/-- From the dash on, the key is read. -/
theorem run_dash (hp : p.state = .IDLE) {s afterDash : List (BitVec 8)} {c : BitVec 8}
    (hdash : s.dropWhile (· != ascii '-') = c :: afterDash) :
    run s p = run (afterDash.dropWhile isKeyChar)
      { p with
        state := .KEY
        key := afterDash
        keyLen := (afterDash.takeWhile isKeyChar).length } := by
  have hc : c = ascii '-' := by simpa using eq_false_of_dropWhile hdash
  have hstep : p.step c afterDash =
      ({ p with state := .KEY, key := afterDash, keyLen := 0 }, none) := by
    rw [step, hp]
    exact if_pos hc
  rw [run_idle hp, hdash, run, hstep, run_key rfl, Nat.zero_add]
  rfl

/-- When no token is being read, the parser makes the stores that the tokens ask for. -/
theorem run_eq (s : List (BitVec 8)) (hs : 0 ∉ s) {p : CmdParser} (hp : p.state = .IDLE) :
    run s p = (tokens s).flatMap fun t => t.store?.toList := by
  induction s using tokens.induct generalizing p with
  | case1 s hdash =>
      -- only the NUL is left
      rw [run_idle hp, hdash, tokens_of_no_dash hdash, run, step, hp]
      rfl
  | case2 s c afterDash hdash hkey =>
      -- the NUL is counted as a character of the key, and the loop ends
      rw [run_dash hp hdash, hkey, tokens_of_no_end hdash hkey]
      rfl
  | case3 s c afterDash hdash afterKey hkey ih =>
      have hafterDash : 0 ∉ afterDash := notMem_of_dropWhile hdash hs
      have hafterKey : 0 ∉ afterKey := notMem_of_dropWhile hkey hafterDash
      have hrest : 0 ∉ afterKey.dropWhile (· != ascii ' ') :=
        fun h => hafterKey ((List.dropWhile_suffix _).subset h)
      -- the pointers of the parser are into the string
      have hend := @endValue_eq
        { key := afterDash.takeWhile isKeyChar
          value := afterKey.takeWhile (· != ascii ' ')
          rest := afterKey.dropWhile (· != ascii ' ') }
        (fun h => hafterDash ((List.takeWhile_prefix _).subset h))
        (fun h => hafterKey ((List.takeWhile_prefix _).subset h))
        (afterDash.dropWhile isKeyChar)
      rw [List.takeWhile_append_dropWhile, List.takeWhile_append_dropWhile] at hend
      rw [run_dash hp hdash, hkey, run, step]
      dsimp only
      rw [if_pos rfl, run_value rfl hafterKey, Nat.zero_add, hend,
        run_tail rfl (startsWithSpace_dropWhile afterKey), ih hrest rfl,
        tokens_of_equals hdash hkey, List.flatMap_cons]
      rfl
  | case4 s c afterDash hdash d afterKey hkey hd ih =>
      -- a key without a value
      have hd_space : d = ascii ' ' := by
        have hstop := eq_false_of_dropWhile hkey
        simpa [isKeyChar, hd] using hstop
      have hafterKey : 0 ∉ afterKey :=
        notMem_of_dropWhile hkey (notMem_of_dropWhile hdash hs)
      rw [run_dash hp hdash, hkey, run, step]
      dsimp only
      rw [if_neg hd, if_pos hd_space, ih hafterKey rfl, tokens_of_space hdash hkey hd]
      rfl

/-- The parser makes the stores that the tokens of the command line ask for, in order. -/
theorem parseCmd_eq (cmdline : CString) :
    parseCmd cmdline = (tokens cmdline.chars).flatMap fun t => t.store?.toList :=
  run_eq cmdline.chars cmdline.nul_notMem rfl

/-- The stores of the parser are those of the tokens that it accepts. -/
theorem mem_parseCmd_iff {cmdline : CString} {st : PortStore} :
    st ∈ parseCmd cmdline ↔ ∃ t ∈ tokens cmdline.chars, t.Accepted ∧
      st = ⟨t, BitVec.ofInt 16 (number (t.parameters ++ t.rest))⟩ := by
  rw [parseCmd_eq, List.mem_flatMap]
  refine exists_congr fun t => and_congr_right fun _ => ?_
  rw [Option.mem_toList, CmdToken.store?, Option.ite_none_right_eq_some,
    Option.some.injEq, eq_comm (a := st)]

/-- A token is followed by a space or nothing. -/
theorem startsWithSpace_rest {s : List (BitVec 8)} {t : CmdToken} (ht : t ∈ tokens s) :
    StartsWithSpace t.rest := by
  induction s using tokens.induct with
  | case1 s hdash =>
      rw [tokens_of_no_dash hdash] at ht
      exact absurd ht List.not_mem_nil
  | case2 s c afterDash hdash hkey =>
      rw [tokens_of_no_end hdash hkey] at ht
      exact absurd ht List.not_mem_nil
  | case3 s c afterDash hdash afterKey hkey ih =>
      rw [tokens_of_equals hdash hkey, List.mem_cons] at ht
      obtain rfl | ht := ht
      · exact startsWithSpace_dropWhile afterKey
      · exact ih ht
  | case4 s c afterDash hdash d afterKey hkey hd ih =>
      rw [tokens_of_space hdash hkey hd] at ht
      exact ih ht

end Parser

/-! ## What the parser is to do -/

/-- Every store is made for a token with the key `console` and the type `debugcon`, and is of the
number that the text after the first comma is converted to when it stands alone. -/
def SetsDebugconPort (cmdline : CString) : Prop :=
  ∀ st ∈ parseCmd cmdline, st.token ∈ tokens cmdline.chars ∧ st.token.key = consoleKey ∧
    st.token.type = debugconType ∧ st.port = BitVec.ofInt 16 (strtol st.token.parameters 0).1

/-- The number of a token does not come from what follows it: there is more than white space after
the comma, or what follows does not start with a number that is stored as another one than 0. -/
def CmdToken.NumberInside (t : CmdToken) : Prop :=
  (∃ c ∈ t.parameters, isspace c = false) ∨ (2 ^ 16 : ℤ) ∣ number t.rest

/-- A number is stored as 0 if it is a multiple of `2 ^ 16`. -/
theorem ofInt_eq_zero_iff (n : ℤ) : BitVec.ofInt 16 n = BitVec.ofInt 16 0 ↔ (2 ^ 16 : ℤ) ∣ n := by
  rw [← BitVec.toNat_inj, BitVec.toNat_ofInt, BitVec.toNat_ofInt]
  omega

/-- What follows a token matters for its number unless the number is inside. -/
theorem number_parameters_iff {t : CmdToken} (hrest : StartsWithSpace t.rest) :
    BitVec.ofInt 16 (number (t.parameters ++ t.rest)) =
      BitVec.ofInt 16 (strtol t.parameters 0).1 ↔ t.NumberInside := by
  rw [strtol_zero]
  by_cases hspaces : ∃ c ∈ t.parameters, isspace c = false
  · exact iff_of_true (by rw [number_append hspaces hrest]) (.inl hspaces)
  · have hall : ∀ c ∈ t.parameters, isspace c = true := by simpa using hspaces
    rw [number_append_of_forall_isspace hall, number_of_forall_isspace hall, ofInt_eq_zero_iff,
      CmdToken.NumberInside, or_iff_right hspaces]

/-- The parser does what it is to do for exactly the command lines whose accepted tokens are of the
key `console` and of the type `debugcon` and have their number inside. -/
theorem command_line (cmdline : CString) :
    SetsDebugconPort cmdline ↔ ∀ t ∈ tokens cmdline.chars, t.Accepted →
      t.key = consoleKey ∧ t.type = debugconType ∧ t.NumberInside := by
  constructor
  · intro h t ht haccepted
    obtain ⟨-, hkey, htype, hport⟩ := h _ (mem_parseCmd_iff.mpr ⟨t, ht, haccepted, rfl⟩)
    exact ⟨hkey, htype, (number_parameters_iff (startsWithSpace_rest ht)).mp hport⟩
  · intro h st hst
    obtain ⟨t, ht, haccepted, rfl⟩ := mem_parseCmd_iff.mp hst
    obtain ⟨hkey, htype, hnumber⟩ := h t ht haccepted
    exact ⟨ht, hkey, htype, (number_parameters_iff (startsWithSpace_rest ht)).mpr hnumber⟩

example :
    (parseCmd (.literal "a -console=debugcon,0xe9 -b=c" (by decide))).map PortStore.port =
      [0xe9] := by
  decide +kernel

/-- A token with prefixes of the key and of the type sets the port, and where there is no number,
the port is taken from the text that follows. -/
theorem not_command_line :
    ¬SetsDebugconPort (.literal "-c=d,5" (by decide)) ∧
      ¬SetsDebugconPort (.literal "-console=debugcon 1016" (by decide)) := by
  constructor
  · intro h
    have hstores : parseCmd (.literal "-c=d,5" (by decide)) =
        [⟨⟨[99], [100, 44, 53], []⟩, 5⟩] := by decide +kernel
    have hkey := (h _ (hstores ▸ List.mem_singleton_self _)).2.1
    exact absurd hkey (by decide)
  · intro h
    have hstores : (parseCmd (.literal "-console=debugcon 1016" (by decide))).map
        (fun st => (st.token.parameters, st.port)) = [([], 1016)] := by decide +kernel
    obtain ⟨st, hst, heq⟩ := List.mem_map.mp (hstores ▸ List.mem_singleton_self _)
    obtain ⟨hparameters, hport⟩ := Prod.mk.inj heq
    have hnumber := (h st hst).2.2.2
    rw [hparameters, hport] at hnumber
    exact absurd hnumber (by decide)

end KushOs.Cmdline
