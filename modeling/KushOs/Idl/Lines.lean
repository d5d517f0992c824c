import KushOs.Foundation.PegRounds
import KushOs.Idl.Backtracking
import KushOs.Idl.Parsing

/-!
# Empty lines, comments and includes as functions

The rules that stand between interfaces have no actions, but for the path of an include. What they
leave is a function of the input: `afterEmptyLine` and `afterComment` say what, or that the rule
fails.

## Main definitions

* `behindLine`, `behindClose`: what is behind the end of a line, and of a comment.
* `afterEmptyLine`, `afterComment`: the rules as functions.
* `Ending`, `endingOf`: how an item ends, and what it leaves of the text behind it.

## Main results

* `run_emptyLine`, `run_comment`: the rules are these functions.
* `afterEmptyLine_append`, `afterComment_append`: what is in front of them does not matter to them.
* `afterEmptyLine_leaves`, `afterComment_leaves`, `include_leaves`: they take the same text again
  when something else is behind it, and leave of that what their ending says.
-/

namespace KushOs.Idl

open Peg

namespace Grammar

/-- What is behind the first end of a line. -/
def behindLine (input : List Char) : List Char := (input.dropWhile (· ≠ '\n')).drop 1

/-- What is behind the first end of a comment. -/
def behindClose : List Char → Option (List Char)
  | [] => none
  | ['*'] => none
  | '*' :: '/' :: rest => some rest
  | _ :: rest => behindClose rest

/-- What is behind an end of line. -/
def afterEol : List Char → Option (List Char)
  | '\n' :: rest => some rest
  | '\r' :: '\n' :: rest => some rest
  | _ => none

/-- What an empty line leaves. -/
def afterEmptyLine (input : List Char) : Option (List Char) := afterEol (input.dropWhile isBlank)

/-- What a comment leaves that starts the input. -/
def afterSlash : List Char → Option (List Char)
  | '/' :: '/' :: rest => some (behindLine rest)
  | '/' :: '*' :: rest => behindClose rest
  | _ => none

/-- What a comment leaves. -/
def afterComment (input : List Char) : Option (List Char) := afterSlash (input.dropWhile isWs)

/-- How an item of a text ends, which is what the text behind it can become part of. -/
inductive Ending
  /-- With its last sign, or with an end of line. -/
  | closed
  /-- With white space, of which it takes as much as there is. -/
  | padded
  /-- With the last line of the text, which has no end of line. -/
  | unterminated
  deriving DecidableEq, Repr

/-- What an item leaves of the text behind it. -/
def Ending.leaves : Ending → List Char → List Char
  | .closed, tail => tail
  | .padded, tail => tail.dropWhile isWs
  | .unterminated, tail => behindLine tail

/-- The ending of an item between interfaces: an interface is padded, and an item that is neither an
interface nor a comment with two signs ends with its line. -/
def endingOf (item : List Char) : Ending :=
  match item.dropWhile isWs with
  | 'i' :: _ => .padded
  | '/' :: '*' :: _ => .closed
  | _ => if item.getLast? = some '\n' then .closed else .unterminated

/-- A match without effect, or a failure. -/
def outcome {σ ε : Type} (rest : Option (List Char)) (s : σ) : Result Char ε σ :=
  match rest with
  | some rest => .matched rest s
  | none => .noMatch s

section Runs

variable {σ ε : Type} {apply : Action → List Char → σ → Except ε σ} {s : σ} {c : Char}
  {input rest : List Char}

theorem run_str_cons (c d : Char) (text input : List Char) :
    (Rule.str (c :: text)).run apply (d :: input) s =
      if d = c then (Rule.str text).run apply input s else .noMatch s := by
  rw [Rule.str, Rule.run_seq, Rule.run_one_cons]
  by_cases hd : d = c
  · rw [if_pos hd, if_pos (decide_eq_true hd)]
    rfl
  · rw [if_neg hd, if_neg (by simpa using hd)]
    rfl

/-- A text of two characters that is there. -/
theorem run_pair (c d : Char) (input : List Char) :
    (Rule.str [c, d]).run apply (c :: d :: input) s = .matched input s := by
  rw [run_str_cons, if_pos rfl, run_str_cons, if_pos rfl]
  rfl

/-- A text of two characters that is not there. -/
theorem run_pair_fails {c d : Char} (h : ∀ rest, input ≠ c :: d :: rest) :
    (Rule.str [c, d]).run apply input s = .noMatch s := by
  cases input with
  | nil => rfl
  | cons c' input =>
      rw [run_str_cons]
      split
      · next hc =>
          cases input with
          | nil => rfl
          | cons d' input =>
              have hd : d' ≠ d := fun hd => h input (hc ▸ hd ▸ rfl)
              rw [run_str_cons, if_neg hd]
      · rfl

theorem run_eol (input : List Char) : eol.run apply input s = outcome (afterEol input) s := by
  rw [eol, Rule.run_sor]
  unfold afterEol
  split
  · rw [run_str_cons, if_pos rfl]
    rfl
  · rw [run_str_cons, if_neg (by decide), Result.next, run_pair]
    rfl
  · next hnewline hreturn =>
      have hfails : (Rule.str ['\n']).run apply input s = .noMatch s := by
        cases input with
        | nil => rfl
        | cons c input =>
            have hc : c ≠ '\n' := fun h => hnewline input (h ▸ rfl)
            rw [run_str_cons, if_neg hc]
      rw [hfails, Result.next, run_pair_fails hreturn]
      rfl

theorem behindLine_cons (hc : c ≠ '\n') (input : List Char) :
    behindLine (c :: input) = behindLine input := by
  rw [behindLine, List.dropWhile_cons, if_pos (decide_eq_true hc)]
  rfl

theorem behindLine_newline (input : List Char) : behindLine ('\n' :: input) = input := by
  rw [behindLine, List.dropWhile_cons, if_neg (by decide)]
  rfl

/-- The rest of a line. -/
theorem run_skipTo_eolf (input : List Char) :
    (Rule.skipTo eolf).run apply input s = .matched (behindLine input) s := by
  rw [Rule.run_skipTo]
  induction input with
  | nil => rfl
  | cons c input ih =>
      have hround : eolf.run apply (c :: input) s = outcome (afterEol (c :: input)) s := by
        rw [eolf, Rule.run_sor, run_eol]
        cases afterEol (c :: input) <;> rfl
      rw [skipLoop, hround]
      cases hafter : afterEol (c :: input) with
      | some rest =>
          -- a carriage return is part of the line, and so is the end of line behind it
          unfold afterEol at hafter
          split at hafter
          · next hcons =>
              cases hcons
              cases hafter
              rw [behindLine_newline]
              rfl
          · next hcons =>
              cases hcons
              cases hafter
              rw [behindLine_cons (by decide), behindLine_newline]
              rfl
          · cases hafter
      | none =>
          have hc : c ≠ '\n' := by
            rintro rfl
            cases hafter
          rw [outcome, Result.next, ih, behindLine_cons hc]

/-- A comment, up to its end. -/
theorem run_skipTo_close (input : List Char) :
    (Rule.skipTo (.str ['*', '/'])).run apply input s = outcome (behindClose input) s := by
  rw [Rule.run_skipTo]
  induction input using behindClose.induct with
  | case1 => rfl
  | case2 => rfl
  | case3 rest =>
      rw [skipLoop, run_pair]
      rfl
  | case4 c rest hstar hclose ih =>
      have hround : (Rule.str ['*', '/']).run apply (c :: rest) s = .noMatch s :=
        run_pair_fails fun rest' h => by
          cases h
          exact hclose rest' rfl rfl
      rw [skipLoop, hround, Result.next, ih, behindClose]
      · exact hstar
      · exact hclose

theorem run_emptyLine (input : List Char) :
    emptyLine.run apply input s = outcome (afterEmptyLine input) s := by
  rw [emptyLine, Rule.run_seq, blank, run_star_one, Result.next, run_eol]
  rfl

theorem run_padl (r : G) (input : List Char) :
    (padl r).run apply input s = r.run apply (input.dropWhile isWs) s := by
  rw [padl, Rule.run_seq, ws, run_star_one]
  rfl

theorem run_comment (input : List Char) :
    comment.run apply input s = outcome (afterComment input) s := by
  have hsingle : singleComment.run apply input s =
      (Rule.seq (.str ['/', '/']) singleCommentCont).run apply (input.dropWhile isWs) s :=
    run_padl _ input
  have hmulti : multiComment.run apply input =
      (Rule.seq (.str ['/', '*']) multiCommentCont).run apply (input.dropWhile isWs) :=
    funext fun s => run_padl _ input
  rw [comment, Rule.run_sor, hsingle, afterComment]
  rw [hmulti]
  -- both kinds of comments start behind the same white space
  generalize input.dropWhile isWs = l
  unfold afterSlash
  split
  · next rest =>
      rw [Rule.run_seq, run_pair, Result.next, singleCommentCont, run_skipTo_eolf]
      rfl
  · next rest =>
      rw [Rule.run_seq, run_pair_fails (by simp), Result.next, Result.next, Rule.run_seq, run_pair,
        Result.next, multiCommentCont, run_skipTo_close]
  · next hslash hstar =>
      rw [Rule.run_seq, run_pair_fails hslash, Result.next, Result.next, Rule.run_seq,
        run_pair_fails hstar]
      rfl

end Runs

/-! ## What the functions look at -/

section Functions

variable {c d : Char} {text input rest body : List Char}

theorem afterEmptyLine_append (h : ∀ c ∈ text, isBlank c = true) (input : List Char) :
    afterEmptyLine (text ++ input) = afterEmptyLine input := by
  rw [afterEmptyLine, dropWhile_append h, afterEmptyLine]

theorem afterComment_append (h : ∀ c ∈ text, isWs c = true) (input : List Char) :
    afterComment (text ++ input) = afterComment input := by
  rw [afterComment, dropWhile_append h, afterComment]

/-- White space is blank, or ends a line. -/
theorem isBlank_or_of_isWs (h : isWs c = true) : isBlank c = true ∨ c = '\n' ∨ c = '\r' := by
  simp only [isWs, Bool.decide_or, Bool.or_eq_true, decide_eq_true_eq] at h
  simp only [isBlank, Bool.decide_or, Bool.or_eq_true, decide_eq_true_eq]
  tauto

theorem isBlank_of_not_isWs (h : isWs c = false) : ¬isBlank c = true := by
  intro hblank
  rw [isWs_of_isBlank c hblank] at h
  cases h

/-- An empty line starts with white space. -/
theorem afterEmptyLine_cons (hd : isWs d = false) (rest : List Char) :
    afterEmptyLine (d :: rest) = none := by
  rw [afterEmptyLine, List.dropWhile_cons, if_neg (isBlank_of_not_isWs hd)]
  unfold afterEol
  split
  · next heq =>
      cases heq
      cases hd
  · next heq =>
      cases heq
      cases hd
  · rfl

theorem afterEmptyLine_of_stops (h : Stops isWs input) : afterEmptyLine input = none := by
  cases input with
  | nil => rfl
  | cons d input => exact afterEmptyLine_cons (h d rfl) input

/-- Whether white space starts with an empty line does not depend on what is behind it. -/
theorem afterEmptyLine_eq_none (hws : ∀ c ∈ text, isWs c = true) (hd : isWs d = false)
    (h : afterEmptyLine (text ++ d :: rest) = none) (rest' : List Char) :
    afterEmptyLine (text ++ d :: rest') = none := by
  induction text with
  | nil => exact afterEmptyLine_cons hd rest'
  | cons c text ih =>
      have htext : ∀ c ∈ text, isWs c = true := fun c hc => hws c (List.mem_cons_of_mem _ hc)
      rcases isBlank_or_of_isWs (hws c List.mem_cons_self) with hblank | rfl | rfl
      · -- a blank is skipped
        have hblanks : ∀ d ∈ [c], isBlank d = true := by simpa using hblank
        have hskip : ∀ l, afterEmptyLine (c :: l) = afterEmptyLine l :=
          afterEmptyLine_append hblanks
        rw [List.cons_append, hskip] at h ⊢
        exact ih htext h
      · cases h
      · -- the character behind a carriage return is known
        cases text with
        | nil =>
            have hnewline : d ≠ '\n' := by
              rintro rfl
              cases hd
            simp [afterEmptyLine, afterEol, isBlank, hnewline]
        | cons c' text =>
            have hnewline : c' ≠ '\n' := by
              rintro rfl
              cases h
            simp [afterEmptyLine, afterEol, isBlank, hnewline]

/-- What an empty line takes. -/
theorem exists_of_afterEmptyLine (h : afterEmptyLine input = some rest) :
    ∃ text, input = text ++ rest ∧ (∀ c ∈ text, isWs c = true) ∧ text.getLast? = some '\n' ∧
      ∀ tail, afterEmptyLine (text ++ tail) = some tail := by
  have hblanks : ∀ c ∈ input.takeWhile isBlank, isBlank c = true := fun c hc =>
    List.mem_takeWhile_imp hc
  have hws : ∀ c ∈ input.takeWhile isBlank, isWs c = true := fun c hc =>
    isWs_of_isBlank c (hblanks c hc)
  have hsplit : input.takeWhile isBlank ++ input.dropWhile isBlank = input :=
    List.takeWhile_append_dropWhile
  rw [afterEmptyLine] at h
  unfold afterEol at h
  split at h
  -- the blanks and a newline
  · next heq =>
      cases h
      refine ⟨input.takeWhile isBlank ++ ['\n'], ?_, ?_, by simp, fun tail => ?_⟩
      · rw [List.append_assoc, List.singleton_append, ← heq, hsplit]
      · intro c hc
        rcases List.mem_append.mp hc with hc | hc
        · exact hws c hc
        · rw [List.mem_singleton.mp hc]
          rfl
      · rw [List.append_assoc, afterEmptyLine_append hblanks]
        rfl
  -- the blanks, a carriage return and a newline
  · next heq =>
      cases h
      refine ⟨input.takeWhile isBlank ++ ['\r', '\n'], ?_, ?_, by simp, fun tail => ?_⟩
      · rw [List.append_assoc, List.cons_append, List.singleton_append, ← heq, hsplit]
      · intro c hc
        rcases List.mem_append.mp hc with hc | hc
        · exact hws c hc
        · simp only [List.mem_cons, List.not_mem_nil, or_false] at hc
          rcases hc with rfl | rfl <;> rfl
      · rw [List.append_assoc, afterEmptyLine_append hblanks]
        rfl
  · cases h

/-- A text without an end of line belongs to the line that goes on behind it. -/
theorem behindLine_append (h : '\n' ∉ body) (input : List Char) :
    behindLine (body ++ input) = behindLine input := by
  have hall : ∀ c ∈ body, decide (c ≠ '\n') = true := fun c hc =>
    decide_eq_true fun hnewline => h (hnewline ▸ hc)
  rw [behindLine, dropWhile_append hall, behindLine]

/-- The rest of a line: up to its end, or up to the end of the input. -/
theorem exists_line (input : List Char) :
    ∃ line, input = line ++ behindLine input ∧
      (line.getLast? = some '\n' ∧ (∀ tail, behindLine (line ++ tail) = tail) ∨
        '\n' ∉ line ∧ behindLine input = []) := by
  by_cases hmem : '\n' ∈ input
  · obtain ⟨body, rest, rfl, hbody⟩ := List.eq_append_cons_of_mem hmem
    have hline : ∀ tail, behindLine ((body ++ ['\n']) ++ tail) = tail := by
      intro tail
      rw [List.append_assoc, behindLine_append hbody, List.singleton_append, behindLine_newline]
    refine ⟨body ++ ['\n'], ?_, .inl ⟨by simp, hline⟩⟩
    rw [behindLine_append hbody, behindLine_newline, List.append_assoc, List.singleton_append]
  · have hnil : behindLine input = [] := by
      have happend := behindLine_append hmem []
      rwa [List.append_nil] at happend
    exact ⟨input, by rw [hnil, List.append_nil], .inr ⟨hmem, hnil⟩⟩

theorem behindClose_cons (h : ∀ rest, c = '*' → input ≠ '/' :: rest) :
    behindClose (c :: input) = behindClose input := by
  rw [behindClose.eq_def]
  split
  · next heq => cases heq
  · next heq =>
      cases heq
      rfl
  · next heq =>
      cases heq
      exact absurd rfl (h _ rfl)
  · next heq =>
      cases heq
      rfl

/-- What is in front of the end of a comment has no end in it. -/
theorem exists_of_behindClose (h : behindClose input = some rest) :
    ∃ body, input = body ++ '*' :: '/' :: rest ∧ behindClose body = none := by
  induction input with
  | nil => cases h
  | cons c input ih =>
      by_cases hclose : ∃ rest', c = '*' ∧ input = '/' :: rest'
      · obtain ⟨rest', rfl, rfl⟩ := hclose
        cases h
        exact ⟨[], rfl, rfl⟩
      · have hne : ∀ rest', c = '*' → input ≠ '/' :: rest' := fun rest' hc hinput =>
          hclose ⟨rest', hc, hinput⟩
        rw [behindClose_cons hne] at h
        obtain ⟨body, rfl, hbody⟩ := ih h
        refine ⟨c :: body, rfl, ?_⟩
        rw [behindClose_cons, hbody]
        rintro rest' hc rfl
        exact hne _ hc rfl

theorem behindClose_append (h : behindClose body = none) (input : List Char) :
    behindClose (body ++ '*' :: '/' :: input) = some input := by
  induction body with
  | nil => rfl
  | cons c body ih =>
      have hne : ∀ rest', c = '*' → body ≠ '/' :: rest' := by
        rintro rest' rfl rfl
        cases h
      rw [behindClose_cons hne] at h
      rw [List.cons_append, behindClose_cons, ih h]
      intro rest' hc heq
      -- the sign of the end is not preceded by a star of its own
      cases body with
      | nil => cases heq
      | cons d body =>
          cases heq
          exact hne _ hc rfl

/-- White space in front of something else that does not start a comment. -/
theorem afterComment_eq_none (hws : ∀ c ∈ text, isWs c = true) (hd : isWs d = false)
    (hslash : d ≠ '/') : afterComment (text ++ d :: rest) = none := by
  rw [afterComment_append hws, afterComment, dropWhile_of_stops (stops_cons _ hd)]
  unfold afterSlash
  split
  · next heq =>
      cases heq
      exact absurd rfl hslash
  · next heq =>
      cases heq
      exact absurd rfl hslash
  · rfl

/-! ## Endings -/

/-- An item that is found behind its white space. -/
theorem endingOf_append (hws : ∀ c ∈ text, isWs c = true) (hd : isWs d = false) :
    endingOf (text ++ d :: body) =
      match d :: body with
      | 'i' :: _ => .padded
      | '/' :: '*' :: _ => .closed
      | _ => if (d :: body).getLast? = some '\n' then .closed else .unterminated := by
  rw [endingOf, dropWhile_append hws, dropWhile_of_stops (stops_cons _ hd),
    List.getLast?_append_cons]

/-- A comment is not padded. -/
theorem endingOf_slash (hws : ∀ c ∈ text, isWs c = true) (body : List Char) :
    endingOf (text ++ '/' :: body) ≠ .padded := by
  rw [endingOf_append hws (by decide)]
  split
  · next heq => cases heq
  · simp
  · split <;> simp

/-- Nothing is behind an item that the text ends before its line does. -/
theorem leaves_unterminated (h : Ending.unterminated.leaves rest = rest) : rest = [] := by
  by_contra hne
  have hlength := congrArg List.length h
  have hdrop : (rest.dropWhile (· ≠ '\n')).length ≤ rest.length :=
    (List.dropWhile_sublist _).length_le
  have hpos : 0 < rest.length := List.length_pos_iff.mpr hne
  rw [Ending.leaves, behindLine, List.length_drop] at hlength
  omega

theorem eq_closed_of_leaves {e : Ending} (he : e ≠ .padded) (h : e.leaves rest = rest)
    (hne : rest ≠ []) : e = .closed := by
  cases e with
  | closed => rfl
  | padded => exact absurd rfl he
  | unterminated => exact absurd (leaves_unterminated h) hne

/-- An empty line takes the same text again. -/
theorem afterEmptyLine_leaves (h : afterEmptyLine (text ++ rest) = some rest) :
    endingOf text = .closed ∧ ∀ tail, afterEmptyLine (text ++ tail) = some tail := by
  obtain ⟨text', heq, hws, hlast, htail⟩ := exists_of_afterEmptyLine h
  obtain rfl := List.append_cancel_right heq
  refine ⟨?_, htail⟩
  rw [endingOf, List.dropWhile_eq_nil_iff.mpr hws, if_pos hlast]

/-- The rest of a line, behind something that does not end one. -/
theorem behindLine_leaves {line : List Char} (h : behindLine (line ++ rest) = rest)
    {front : List Char} (hfront : front.getLast? ≠ some '\n') {e : Ending}
    (he : e = if (front ++ line).getLast? = some '\n' then .closed else .unterminated) :
    e.leaves rest = rest ∧ ∀ tail, behindLine (line ++ tail) = e.leaves tail := by
  -- a line without an end goes on in whatever is put behind it
  obtain ⟨line', heq, ⟨hlast, htail⟩ | ⟨hmem, hnil⟩⟩ := exists_line (line ++ rest)
  · rw [h] at heq
    obtain rfl := List.append_cancel_right heq
    rw [List.getLast?_append, hlast, Option.some_or, if_pos rfl] at he
    subst he
    exact ⟨rfl, htail⟩
  · rw [h] at heq hnil
    obtain rfl := List.append_cancel_right heq
    have hlast : (front ++ line).getLast? ≠ some '\n' := by
      rw [List.getLast?_append]
      cases hline : line.getLast? with
      | none => exact hfront
      | some c =>
          rintro hc
          cases hc
          exact hmem (List.mem_of_getLast? hline)
    rw [if_neg hlast] at he
    subst he hnil
    exact ⟨rfl, fun tail => behindLine_append hmem tail⟩

/-- A comment takes the same text again. -/
theorem afterComment_leaves (h : afterComment (text ++ rest) = some rest) :
    (∃ blanks body, text = blanks ++ '/' :: body ∧ ∀ c ∈ blanks, isWs c = true) ∧
      (endingOf text).leaves rest = rest ∧
        ∀ tail, afterComment (text ++ tail) = some ((endingOf text).leaves tail) := by
  have hws : ∀ c ∈ (text ++ rest).takeWhile isWs, isWs c = true := fun c hc =>
    List.mem_takeWhile_imp hc
  have hsplit : (text ++ rest).takeWhile isWs ++ (text ++ rest).dropWhile isWs = text ++ rest :=
    List.takeWhile_append_dropWhile
  generalize (text ++ rest).takeWhile isWs = blanks at hws hsplit
  rw [afterComment] at h
  generalize (text ++ rest).dropWhile isWs = l at h hsplit
  unfold afterSlash at h
  split at h
  -- a comment up to the end of its line
  · next l =>
      have hrest : behindLine l = rest := Option.some.inj h
      obtain ⟨line, hline, -⟩ := exists_line l
      rw [hrest] at hline
      subst hline
      obtain rfl : text = blanks ++ '/' :: '/' :: line := by
        refine List.append_cancel_right (hsplit.symm.trans ?_)
        simp
      have hending : endingOf (blanks ++ '/' :: '/' :: line) =
          if (['/', '/'] ++ line).getLast? = some '\n' then .closed else .unterminated :=
        endingOf_append hws (by decide)
      have hfront : ['/', '/'].getLast? ≠ some '\n' := by decide
      obtain ⟨hleaves, htail⟩ := behindLine_leaves hrest hfront hending
      refine ⟨⟨blanks, _, rfl, hws⟩, hleaves, fun tail => ?_⟩
      rw [List.append_assoc, afterComment_append hws, ← htail]
      rfl
  -- a comment up to its sign, which ends it whatever follows
  · next l =>
      obtain ⟨body, rfl, hbody⟩ := exists_of_behindClose h
      obtain rfl : text = blanks ++ '/' :: '*' :: (body ++ ['*', '/']) := by
        refine List.append_cancel_right (hsplit.symm.trans ?_)
        simp
      rw [endingOf_append hws (by decide)]
      refine ⟨⟨blanks, _, rfl, hws⟩, rfl, fun tail => ?_⟩
      rw [List.append_assoc, afterComment_append hws]
      have hclose := behindClose_append hbody tail
      simpa [afterComment, afterSlash, List.dropWhile_cons, isWs, Ending.leaves] using hclose
  · cases h

end Functions

/-! ## Includes -/

section Includes

variable {σ ε : Type} {apply : Action → List Char → σ → Except ε σ} {s t : σ}
  {text rest : List Char} {a b : G}

variable (apply) in
/-- The rule matches up to a bracket, and then the rest of the line. -/
def EndsWithLine (r : G) : Prop :=
  ∀ text rest s t, r.run apply (text ++ rest) s = .matched rest t →
    ∃ front line, text = front ++ '>' :: line ∧ behindLine (line ++ rest) = rest ∧
      ∀ tail, r.run apply (text ++ tail) s = .matched (behindLine (line ++ tail)) t

theorem EndsWithLine.seq (ha : Local apply SameHead a) (hb : EndsWithLine apply b) :
    EndsWithLine apply (.seq a b) := by
  intro text rest s t h
  obtain ⟨mid, u, hruna, hrunb⟩ := exists_of_seq h
  obtain ⟨texta, textb, rfl, rfl⟩ := exists_parts (a.run_split hruna) (b.run_split hrunb)
  obtain ⟨front, line, rfl, hrest, htail⟩ := hb textb rest u t hrunb
  refine ⟨texta ++ front, line, (List.append_assoc ..).symm, hrest, fun tail => ?_⟩
  have hhead : SameHead (front ++ '>' :: line ++ rest) (front ++ '>' :: line ++ tail) :=
    sameHead_append (by simp) rest tail
  rw [List.append_assoc] at hruna ⊢
  rw [Rule.run_seq, ha texta _ _ s u hhead hruna]
  exact htail tail

theorem endsWithLine_close : EndsWithLine apply (.seq includeClose includeCont) := by
  intro text rest s t h
  cases text with
  | nil =>
      have hlt := ((Rule.seq includeClose includeCont).run_split h).length_lt
      exact absurd hlt (Nat.lt_irrefl _)
  | cons c line =>
      have hclose : ∀ tail, (Rule.seq includeClose includeCont).run apply (c :: line ++ tail) s =
          if c = '>' then .matched (behindLine (line ++ tail)) s else .noMatch s := by
        intro tail
        rw [Rule.run_seq, includeClose, char, List.cons_append, Rule.run_one_cons]
        by_cases hc : c = '>'
        · rw [if_pos hc, if_pos (decide_eq_true hc), Result.next, includeCont, run_skipTo_eolf]
        · rw [if_neg hc, if_neg (by simpa using hc), Result.next]
      rw [hclose] at h
      split at h
      · next hc =>
          injection h with hrest hst
          refine ⟨[], line, by rw [hc]; rfl, hrest, fun tail => ?_⟩
          rw [hclose, if_pos hc, hst]
      · cases h

/-- An include takes the same text again, and leaves what is behind its line. -/
theorem include_leaves (h : «include».run apply (text ++ rest) s = .matched rest t) :
    (endingOf text).leaves rest = rest ∧
      ∀ tail, «include».run apply (text ++ tail) s = .matched ((endingOf text).leaves tail) t := by
  have hpath : EndsWithLine apply (.seq includePath (.seq includeClose includeCont)) :=
    .seq (.act (.star_one fun _ _ h => (stops_iff_of_sameHead h).mp)) endsWithLine_close
  have hends : EndsWithLine apply «include» :=
    .seq ((Local.str _).mono fun _ _ _ => trivial)
      (.seq (.star_one fun _ _ h => (stops_iff_of_sameHead h).mp) (.seq .one hpath))
  obtain ⟨front, line, rfl, hrest, htail⟩ := hends text rest s t h
  -- the text starts with its sign, so it ends with its line
  have hstart : StartsWith (· = '#') (front ++ '>' :: line ++ rest) :=
    startsWith_of_seq (fun _ _ hsign => startsWith_of_seq (fun _ _ => startsWith_of_one) hsign) h
  have hfront : (front ++ ['>']).getLast? ≠ some '\n' := by simp
  have hending : endingOf (front ++ '>' :: line) =
      if (front ++ ['>'] ++ line).getLast? = some '\n' then .closed else .unterminated := by
    cases front with
    | nil =>
        obtain ⟨c, hc, hhash⟩ := hstart
        cases hc
        cases hhash
    | cons c front =>
        obtain ⟨d, hd, hhash⟩ := hstart
        obtain rfl : c = d := Option.some.inj hd
        obtain rfl := of_decide_eq_true hhash
        have hnone : ∀ c ∈ ([] : List Char), isWs c = true := by simp
        rw [List.append_assoc]
        exact endingOf_append hnone (by decide)
  obtain ⟨hleaves, hline⟩ := behindLine_leaves hrest hfront hending
  exact ⟨hleaves, fun tail => by rw [htail, hline]⟩

end Includes

end Grammar

end KushOs.Idl
