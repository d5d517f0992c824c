import KushOs.Idl.Locality

/-!
# Blanks, newlines and comments between items

The rules for the items of a text and for the members of an interface take empty lines and comments
one by one. A run of blanks, newlines and comments leaves the white space behind its last comment;
of that, the empty lines are taken, and what remains has no end of line that a rule would take.

## Main definitions

* `Piece`, `fillerText`: runs of blanks, newlines and comments.
* `SkipsFiller`: rules that take empty lines and comments and do nothing for them.
* `CompleteLines`: texts of whole empty lines and comments.
* `closing`: the rest of an interface.

## Main results

* `SkipsFiller.run_star`: a repetition goes through a filler.
* `closing_filler`, `closing_of_members`: fillers between the members of an interface do not matter.
-/

namespace KushOs.Idl

open Peg Grammar

/-! ## Fillers -/

/-- A blank, a newline or a comment. -/
inductive Piece
  | blank (c : Char) (h : isBlank c = true)
  | newline
  /-- A newline with a carriage return. -/
  | crlf
  /-- A comment up to the end of its line, and that. -/
  | lineComment (body : List Char) (h : '\n' ∉ body)
  /-- A comment up to the sign that closes it. -/
  | blockComment (body : List Char) (h : ¬['*', '/'] <:+: body)

/-- The text of a piece. -/
def Piece.text : Piece → List Char
  | .blank c _ => [c]
  | .newline => ['\n']
  | .crlf => ['\r', '\n']
  | .lineComment body _ => '/' :: '/' :: (body ++ ['\n'])
  | .blockComment body _ => '/' :: '*' :: (body ++ ['*', '/'])

/-- The text of a run of pieces. -/
def fillerText (filler : List Piece) : List Char := filler.flatMap Piece.text

/-- The white space behind the last comment of a filler; all of it, with the white space in front,
if there is no comment. -/
def trailingWs (space : List Char) : List Piece → List Char
  | [] => space
  | .blank c _ :: filler => trailingWs (space ++ [c]) filler
  | .newline :: filler => trailingWs (space ++ ['\n']) filler
  | .crlf :: filler => trailingWs (space ++ ['\r', '\n']) filler
  | .lineComment _ _ :: filler => trailingWs [] filler
  | .blockComment _ _ :: filler => trailingWs [] filler

/-- A whole empty line, or a comment. -/
def lineOrComment : G := .sor emptyLine comment

/-- An interpretation in which actions do nothing. -/
def noActions (_ : Action) (_ : List Char) (u : Unit) : Except Unit Unit := .ok u

/-- The text consists of complete empty lines and comments. -/
def CompleteLines (input : List Char) : Prop :=
  lineOrComment.star.run noActions input () = .matched [] ()

section Fillers

variable {σ ε : Type} {apply : Action → List Char → σ → Except ε σ} {r : G} {s t : σ}
  {input rest space : List Char}

/-- The text of a filler is that of its pieces. -/
theorem fillerText_cons (p : Piece) (filler : List Piece) :
    fillerText (p :: filler) = p.text ++ fillerText filler := List.flatMap_cons

theorem isWs_append {text : List Char} (h : ∀ c ∈ space, isWs c = true)
    (htext : ∀ c ∈ text, isWs c = true) : ∀ c ∈ space ++ text, isWs c = true := by
  intro c hc
  rcases List.mem_append.mp hc with hc | hc
  · exact h c hc
  · exact htext c hc

/-- The text of a piece that is no comment. -/
theorem isWs_blank {c : Char} (h : isBlank c = true) : ∀ d ∈ [c], isWs d = true :=
  fun _ hd => List.mem_singleton.mp hd ▸ isWs_of_isBlank c h

theorem isWs_newline : ∀ c ∈ ['\n'], isWs c = true := by simp [isWs]

theorem isWs_crlf : ∀ c ∈ ['\r', '\n'], isWs c = true := by simp [isWs]

theorem isWs_nil : ∀ c ∈ ([] : List Char), isWs c = true := by simp

/-- What is left of a filler after its last line break is blank. -/
theorem trailingWs_isWs (filler : List Piece) (h : ∀ c ∈ space, isWs c = true) :
    ∀ c ∈ trailingWs space filler, isWs c = true := by
  induction filler generalizing space with
  | nil => exact h
  | cons p filler ih =>
      cases p with
      | blank c hc => exact ih (isWs_append h (isWs_blank hc))
      | newline => exact ih (isWs_append h isWs_newline)
      | crlf => exact ih (isWs_append h isWs_crlf)
      | lineComment body hbody => exact ih isWs_nil
      | blockComment body hbody => exact ih isWs_nil

variable (apply r) in
/-- The rule takes empty lines and comments, and does nothing for them. -/
structure SkipsFiller : Prop where
  consuming : r.consuming = true
  emptyLine : ∀ {input rest} (s : σ), afterEmptyLine input = some rest →
    r.run apply input s = .matched rest s
  comment : ∀ {input rest} (s : σ), afterEmptyLine input = none →
    afterComment input = some rest → r.run apply input s = .matched rest s

/-- The rule for lines and comments matches an empty line or a comment, and has no effect. -/
theorem run_lineOrComment (input : List Char) (s : σ) :
    lineOrComment.run apply input s =
      outcome ((afterEmptyLine input).or (afterComment input)) s := by
  rw [lineOrComment, Rule.run_sor, run_emptyLine]
  cases afterEmptyLine input with
  | some rest => rfl
  | none => exact run_comment input

/-- The rule itself skips fillers. -/
theorem lineOrComment_skipsFiller : SkipsFiller apply lineOrComment where
  consuming := rfl
  emptyLine := fun s h => by
    rw [run_lineOrComment, h]
    rfl
  comment := fun s h h' => by
    rw [run_lineOrComment, h, h']
    rfl

/-- A member of an interface may be a filler. -/
theorem member_skipsFiller : SkipsFiller apply interfaceMember where
  consuming := rfl
  emptyLine := fun _ h => run_member_emptyLine h
  comment := fun _ h h' => run_member_comment h h'

/-- A comment is no include. -/
theorem stops_of_afterComment (h : afterComment input = some rest) : Stops (· = '#') input := by
  intro c hc
  obtain ⟨l, rfl⟩ := List.head?_eq_some_iff.mp hc
  refine decide_eq_false ?_
  rintro rfl
  have hfails : afterComment ([] ++ '#' :: l) = none :=
    afterComment_eq_none isWs_nil (by decide) (by decide)
  exact Option.some_ne_none _ (h.symm.trans hfails)

/-- A declaration may be a filler. -/
theorem topLevel_skipsFiller : SkipsFiller apply topLevel where
  consuming := rfl
  emptyLine := fun _ h => run_topLevel_emptyLine h
  comment := fun _ h h' => run_topLevel_comment h (stops_of_afterComment h') h'

/-- A round of lines is one of any rule that skips them. -/
theorem SkipsFiller.of_lineOrComment {r : G} (h : SkipsFiller apply r) {u v : Unit}
    (hrun : lineOrComment.run noActions input u = .matched rest v) (s : σ) :
    r.run apply input s = .matched rest s := by
  rw [run_lineOrComment] at hrun
  cases hline : afterEmptyLine input with
  | some rest' =>
      rw [hline] at hrun
      cases hrun
      exact h.emptyLine s hline
  | none =>
      rw [hline, Option.none_or] at hrun
      cases hcomment : afterComment input with
      | some rest' =>
          rw [hcomment] at hrun
          cases hrun
          exact h.comment s hline hcomment
      | none =>
          rw [hcomment] at hrun
          cases hrun

/-- Fillers are rounds of every rule that skips them. -/
theorem SkipsFiller.rounds {r : G} (h : SkipsFiller apply r) {u v : Unit}
    (hrounds : Rounds noActions lineOrComment input u rest v) (s : σ) :
    Rounds apply r input s rest s := by
  induction hrounds with
  | none input => exact .none input s
  | next hround _ ih => exact .next (h.of_lineOrComment hround s) ih

/-- White space with no end of line that an empty line would take, in front of something else. -/
theorem afterEmptyLine_eq_none_of_ws (hws : ∀ c ∈ space, isWs c = true)
    (h : afterEmptyLine space = none) {l : List Char} (hl : Stops isWs l) :
    afterEmptyLine (space ++ l) = none := by
  cases hline : afterEmptyLine (space ++ l) with
  | none => rfl
  | some rest =>
      obtain ⟨text, heq, htext, hlast, htail⟩ := exists_of_afterEmptyLine hline
      -- the line would lie in the white space
      obtain ⟨space', rfl⟩ : ∃ space', space = text ++ space' := by
        rcases List.append_eq_append_iff.mp heq with ⟨extra, rfl, hl'⟩ | ⟨space', rfl, -⟩
        · cases extra with
          | nil => exact ⟨[], by simp⟩
          | cons d extra =>
              rw [hl'] at hl
              have hd := htext d (by simp)
              rw [hl d rfl] at hd
              cases hd
        · exact ⟨space', rfl⟩
      rw [htail] at h
      cases h

/-- The empty lines of white space are rounds; they leave white space without one. -/
theorem exists_rounds_of_ws (hws : ∀ c ∈ space, isWs c = true) :
    ∃ space', (∀ c ∈ space', isWs c = true) ∧
      (∀ l, Stops isWs l → afterEmptyLine (space' ++ l) = none) ∧
      ∀ l, Rounds noActions lineOrComment (space ++ l) () (space' ++ l) () := by
  induction hlength : space.length using Nat.strong_induction_on generalizing space with
  | _ n ih =>
      -- one empty line after the other, until there is none
      cases hline : afterEmptyLine space with
      | none =>
          exact ⟨space, hws, fun l => afterEmptyLine_eq_none_of_ws hws hline, fun l =>
            .none _ _⟩
      | some rest =>
          obtain ⟨text, rfl, htext, hlast, htail⟩ := exists_of_afterEmptyLine hline
          have hne : text ≠ [] := by
            rintro rfl
            cases hlast
          have hlt : rest.length < n := by
            have hpos := List.length_pos_iff.mpr hne
            rw [List.length_append] at hlength
            omega
          obtain ⟨space', hspace', hnone, hrounds⟩ :=
            ih rest.length hlt (fun c hc => hws c (List.mem_append_right _ hc)) rfl
          refine ⟨space', hspace', hnone, fun l => .next ?_ (hrounds l)⟩
          rw [List.append_assoc]
          exact lineOrComment_skipsFiller.emptyLine () (htail _)

/-- A repetition takes the empty lines of white space. -/
theorem SkipsFiller.exists_run_star (h : SkipsFiller apply r)
    (hws : ∀ c ∈ space, isWs c = true) :
    ∃ space', (∀ c ∈ space', isWs c = true) ∧
      (∀ l, Stops isWs l → afterEmptyLine (space' ++ l) = none) ∧
      ∀ l s, r.star.run apply (space ++ l) s = r.star.run apply (space' ++ l) s := by
  obtain ⟨space', hspace', hnone, hrounds⟩ := exists_rounds_of_ws hws
  exact ⟨space', hspace', hnone, fun l s => (h.rounds (hrounds l) s).run_star h.consuming⟩

/-- A comment that is not closed has nothing behind it. -/
theorem behindClose_of_unclosed {body : List Char} (h : ¬['*', '/'] <:+: body) :
    behindClose body = none := by
  cases hclose : behindClose body with
  | none => rfl
  | some rest =>
      obtain ⟨front, rfl, -⟩ := exists_of_behindClose hclose
      exact absurd ⟨front, rest, by simp⟩ h

/-- A repetition goes through white space and a comment behind it. -/
theorem SkipsFiller.run_star_comment (h : SkipsFiller apply r) (hws : ∀ c ∈ space, isWs c = true)
    (hcomment : afterSlash ('/' :: input) = some rest) (s : σ) :
    r.star.run apply (space ++ '/' :: input) s = r.star.run apply rest s := by
  obtain ⟨space', hspace', hnone, hstar⟩ := h.exists_run_star hws
  have hstops : Stops isWs ('/' :: input) := stops_cons _ (by decide)
  have hafter : afterComment (space' ++ '/' :: input) = some rest := by
    rw [afterComment_append hspace', afterComment, dropWhile_of_stops hstops, hcomment]
  rw [hstar, run_star_of_matched h.consuming (h.comment s (hnone _ hstops) hafter)]

/-- A repetition goes through a filler, up to the white space at its end. -/
theorem SkipsFiller.run_star (h : SkipsFiller apply r) (filler : List Piece)
    (hws : ∀ c ∈ space, isWs c = true) (input : List Char) (s : σ) :
    r.star.run apply (space ++ (fillerText filler ++ input)) s =
      r.star.run apply (trailingWs space filler ++ input) s := by
  induction filler generalizing space with
  | nil => rfl
  | cons p filler ih =>
      -- white space is put off, and a comment is a round
      have hspace : ∀ text, p.text = text → (∀ c ∈ text, isWs c = true) →
          r.star.run apply (space ++ (fillerText (p :: filler) ++ input)) s =
            r.star.run apply (trailingWs (space ++ text) filler ++ input) s := by
        rintro text rfl htext
        rw [← ih (isWs_append hws htext), fillerText_cons, List.append_assoc, List.append_assoc]
      have hround : ∀ text, p.text ++ (fillerText filler ++ input) = '/' :: text →
          afterSlash ('/' :: text) = some (fillerText filler ++ input) →
            r.star.run apply (space ++ (fillerText (p :: filler) ++ input)) s =
              r.star.run apply (trailingWs [] filler ++ input) s := by
        intro text htext hcomment
        rw [fillerText_cons, List.append_assoc, htext, h.run_star_comment hws hcomment,
          ← ih isWs_nil, List.nil_append]
      cases p with
      | blank c hc => exact hspace _ rfl (isWs_blank hc)
      | newline => exact hspace _ rfl isWs_newline
      | crlf => exact hspace _ rfl isWs_crlf
      | lineComment body hbody =>
          refine hround ('/' :: (body ++ '\n' :: (fillerText filler ++ input)))
            (by simp [Piece.text]) ?_
          rw [afterSlash, behindLine_append hbody, behindLine_newline]
      | blockComment body hbody =>
          refine hround ('*' :: (body ++ '*' :: '/' :: (fillerText filler ++ input)))
            (by simp [Piece.text]) ?_
          rw [afterSlash, behindClose_append (behindClose_of_unclosed hbody)]

end Fillers

/-! ## Complete lines -/

section Complete

variable {space : List Char}

/-- White space without an empty line is no complete line. -/
theorem lineOrComment_fails (hws : ∀ c ∈ space, isWs c = true)
    (h : afterEmptyLine (space ++ []) = none) :
    lineOrComment.run noActions space () = .noMatch () := by
  have hcomment : afterComment (space ++ []) = none := by
    rw [afterComment_append hws]
    rfl
  rw [List.append_nil] at h hcomment
  rw [run_lineOrComment, h, hcomment]
  rfl

/-- Whether a filler is complete is decided by the white space at its end. -/
theorem completeLines_filler (filler : List Piece) {gap : List Char}
    (hws : ∀ c ∈ gap, isWs c = true) (input : List Char) :
    CompleteLines (gap ++ (fillerText filler ++ input)) ↔
      CompleteLines (trailingWs gap filler ++ input) := by
  have hlines : SkipsFiller noActions lineOrComment := lineOrComment_skipsFiller
  rw [CompleteLines, CompleteLines, hlines.run_star filler hws]

end Complete

/-! ## Between members -/

section Members

variable {σ ε : Type} {apply : Action → List Char → σ → Except ε σ}
  {input rest start members space gap : List Char} {s t u : σ}

/-- The members of an interface and its end. -/
def closing : G := .seq (.star interfaceMember) interfaceEnd

/-- Once an interface has started it goes on with its members. -/
theorem run_interface_of_start (h : interfaceStart.run apply input s = .matched rest t) :
    interface.run apply input s = closing.run apply rest t := by
  rw [interface, Rule.run_seq, h, Result.next, Rule.run_seq, interfaceContent,
    interfaceNextMember, run_opt_seq_star rfl, closing, Rule.run_seq]

/-- A member leaves the rest of the interface to be parsed. -/
theorem closing_of_matched (h : interfaceMember.run apply input s = .matched rest t) :
    closing.run apply input s = closing.run apply rest t := by
  rw [closing, Rule.run_seq, run_star_of_matched rfl h, Rule.run_seq]

/-- Blanks before a member make no difference. -/
theorem member_append (hws : ∀ c ∈ space, isWs c = true)
    (h : afterEmptyLine (space ++ input) = none) (h' : afterEmptyLine input = none) :
    interfaceMember.run apply (space ++ input) s = interfaceMember.run apply input s := by
  have hcomment := afterComment_append hws input
  cases hafter : afterComment input with
  | some rest => rw [run_member_comment h' hafter, run_member_comment h (hcomment.trans hafter)]
  | none =>
      rw [run_member_method h' hafter, run_member_method h (hcomment.trans hafter),
        dropWhile_append hws]

variable (hact : ∀ text text' s, apply .interfaceEnd text s = apply .interfaceEnd text' s)

include hact

/-- Blanks before the end of an interface make no difference. -/
theorem interfaceEnd_append (hws : ∀ c ∈ space, isWs c = true) (input : List Char) (s : σ) :
    interfaceEnd.run apply (space ++ input) s = interfaceEnd.run apply input s := by
  have hpad : (pad (char '}')).run apply (space ++ input) s =
      (pad (char '}')).run apply input s := by
    rw [pad, Rule.run_seq, Rule.run_seq, ws, run_star_one, run_star_one, dropWhile_append hws]
  rw [interfaceEnd, Rule.run_act, Rule.run_act, hpad]
  cases (pad (char '}')).run apply input s with
  | matched rest t =>
      rw [Result.next, Result.next]
      rw [hact]
  | noMatch t => rfl
  | raised e => rfl
  | diverged => rfl

/-- White space in front of a member or the end of an interface does not matter. -/
theorem closing_append_of_stops (hws : ∀ c ∈ space, isWs c = true) (hinput : Stops isWs input)
    (s : σ) : closing.run apply (space ++ input) s = closing.run apply input s := by
  have hmember : SkipsFiller apply interfaceMember := member_skipsFiller
  obtain ⟨space', hspace', hnone, hstar⟩ := hmember.exists_run_star hws
  have hline : afterEmptyLine input = none := afterEmptyLine_of_stops hinput
  rw [closing, Rule.run_seq, Rule.run_seq, hstar, run_star_next rfl, run_star_next rfl,
    member_append hspace' (hnone _ hinput) hline]
  cases interfaceMember.run apply input s with
  | matched rest t => rfl
  | noMatch t => exact interfaceEnd_append hact hspace' input t
  | raised e => rfl
  | diverged => rfl

/-- Blanks before the rest of an interface make no difference. -/
theorem closing_append (hws : ∀ c ∈ space, isWs c = true) (input : List Char) (s : σ) :
    closing.run apply (space ++ input) s = closing.run apply input s := by
  have hmore : ∀ c ∈ input.takeWhile isWs, isWs c = true := fun c hc => List.mem_takeWhile_imp hc
  have hsplit : input.takeWhile isWs ++ input.dropWhile isWs = input :=
    List.takeWhile_append_dropWhile
  have hstops : Stops isWs (input.dropWhile isWs) := stops_dropWhile isWs input
  generalize input.takeWhile isWs = space' at hmore hsplit
  generalize input.dropWhile isWs = l at hsplit hstops
  subst hsplit
  rw [← List.append_assoc, closing_append_of_stops hact (isWs_append hws hmore) hstops,
    closing_append_of_stops hact hmore hstops]

/-- Neither does a filler. -/
theorem closing_filler (filler : List Piece) (hws : ∀ c ∈ gap, isWs c = true) (input : List Char)
    (s : σ) : closing.run apply (gap ++ (fillerText filler ++ input)) s =
      closing.run apply input s := by
  have hmember : SkipsFiller apply interfaceMember := member_skipsFiller
  calc closing.run apply (gap ++ (fillerText filler ++ input)) s
      = closing.run apply (trailingWs gap filler ++ input) s := by
        rw [closing, Rule.run_seq, Rule.run_seq, hmember.run_star filler hws]
    _ = closing.run apply input s := closing_append hact (trailingWs_isWs filler hws) input s

/-- Members that something can follow are members in front of anything; the last of them takes the
blanks behind it. -/
theorem closing_of_members (hne : rest ≠ [])
    (h : Rounds apply interfaceMember (members ++ rest) s rest u) (tail : List Char) :
    closing.run apply (members ++ tail) s = closing.run apply tail u := by
  generalize hinput : members ++ rest = input at h
  induction h generalizing members with
  | none rest s =>
      obtain rfl := List.append_left_eq_self.mp hinput
      rfl
  | @next input mid rest s v u hround hrounds ih =>
      subst hinput
      obtain ⟨x, m, rfl, rfl⟩ := exists_parts (interfaceMember.run_split hround) hrounds.splits
      rw [List.append_assoc] at hround ⊢
      have hrest := ih hne rfl
      cases m with
      | nil =>
          -- the last member: a method takes the blanks of what is behind it
          obtain ⟨g, rfl | rfl, -, htail⟩ := member_leaves hround hne
          · exact (closing_of_matched (htail _)).trans hrest
          · have hblanks : ∀ c ∈ tail.takeWhile isBlank, isWs c = true := fun c hc =>
              isWs_of_isBlank c (List.mem_takeWhile_imp hc)
            have hsplit : tail.takeWhile isBlank ++ tail.dropWhile isBlank = tail :=
              List.takeWhile_append_dropWhile
            have hskip := closing_append hact hblanks (tail.dropWhile isBlank) v
            rw [hsplit] at hskip
            rw [List.nil_append] at hrest ⊢
            rw [closing_of_matched (htail _), ← hskip]
            exact hrest
      | cons c m =>
          -- a member in front of another one
          have hhead := sameHead_append (List.cons_ne_nil c m) rest tail
          exact (closing_of_matched (member_local x _ _ s v hhead hround)).trans hrest

/-- A filler behind some members of an interface does not change the interface. -/
theorem interface_filler (filler : List Piece)
    (hstart : interfaceStart.run apply start s = .matched [] t)
    (hmembers : Rounds apply interfaceMember (members ++ ['}']) t ['}'] u)
    (hws : ∀ c ∈ gap, isWs c = true) (after : List Char) :
    interface.run apply (start ++ (members ++ (gap ++ (fillerText filler ++ after)))) s =
      interface.run apply (start ++ (members ++ (gap ++ after))) s := by
  have hrun : ∀ tail, interface.run apply (start ++ (members ++ tail)) s =
      closing.run apply tail u := by
    intro tail
    rw [← List.append_nil start] at hstart
    have hstart' := interfaceStart_local start [] (members ++ tail) s t trivial hstart
    rw [run_interface_of_start hstart']
    exact closing_of_members hact (List.cons_ne_nil _ _) hmembers tail
  rw [hrun, hrun, closing_filler hact filler hws, closing_append hact hws]

end Members

end KushOs.Idl
