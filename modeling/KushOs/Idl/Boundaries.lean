import KushOs.Idl.Readings

/-!
# Where layout matters

What a text is read as does not change when blanks, newlines and comments are put between two
members of an interface. Between the items of a text they can matter. An include has to be at the
start of a line, so there may be no blanks in front of it, and an empty line has to have an end, so
there may be none at the end of the text either. An item whose line the text ends goes on up to the
first end of line of what is put behind it.

## Main definitions

* `Place`, `Boundary`: the places between items and between members.
* `Harmless`: the condition under which a filler does not matter.

## Main results

* `reading_filler_iff`: a filler does not change the reading exactly when it is harmless.
-/

namespace KushOs.Idl

open Peg Grammar

/-! ## Between items -/

/-- The text goes on with something that is not an include. -/
def NotInclude (after : List Char) : Prop := ∃ c ∈ after.head?, c ≠ '#'

section Items

variable {σ ε : Type} {apply : Action → List Char → σ → Except ε σ}
  {input after space gap back : List Char} {b : Builder}

/-- White space in front of a comment or an interface does not matter. -/
theorem items_append (hws : ∀ c ∈ space, isWs c = true) (input : List Char) (s : σ) :
    (Rule.sor comment interface).run apply (space ++ input) s =
      (Rule.sor comment interface).run apply input s := by
  rw [Rule.run_sor, Rule.run_sor, run_comment, run_comment, afterComment_append hws]
  cases afterComment input with
  | some rest => rfl
  | none => exact interface_append hws input s

theorem stops_of_ws (hws : ∀ c ∈ space, isWs c = true) (hback : space = [] → Stops (· = '#') back) :
    Stops (· = '#') (space ++ back) := by
  cases space with
  | nil => exact hback rfl
  | cons c space =>
      refine stops_cons _ (decide_eq_false ?_)
      rintro rfl
      exact absurd (hws '#' List.mem_cons_self) (by decide)

theorem NotInclude.stops (h : NotInclude back) : Stops (· = '#') back := by
  obtain ⟨c, hc, hne⟩ := h
  intro d hd
  obtain rfl : c = d := Option.some.inj ((Option.mem_def.mp hc).symm.trans hd)
  exact decide_eq_false hne

/-- White space without an empty line, in front of an item that is not an include. -/
theorem topLevel_append (hws : ∀ c ∈ space, isWs c = true)
    (h : afterEmptyLine (space ++ back) = none) (hstops : Stops isWs back) (hback : NotInclude back)
    (s : σ) : topLevel.run apply (space ++ back) s = topLevel.run apply back s := by
  rw [run_topLevel_of_stops h (stops_of_ws hws fun _ => hback.stops),
    run_topLevel_of_stops (afterEmptyLine_of_stops hstops) hback.stops, items_append hws]

/-- Neither an include nor the end of the text can come behind such white space. -/
theorem topLevel_fails_ws (hws : ∀ c ∈ space, isWs c = true) (hne : space ≠ [])
    (h : afterEmptyLine (space ++ back) = none) (hback : ¬NotInclude back) (s : σ) :
    topLevel.run apply (space ++ back) s = .noMatch s := by
  rw [run_topLevel_of_stops h (stops_of_ws hws fun hnil => absurd hnil hne), items_append hws]
  cases back with
  | nil => rfl
  | cons c back =>
      refine fails_of_startsWith_hash ⟨c, rfl, decide_eq_true ?_⟩ s
      by_contra hc
      exact hback ⟨c, rfl, hc⟩

/-- White space in front of an item that is not an include. -/
theorem readFrom_append (hws : ∀ c ∈ space, isWs c = true) (hstops : Stops isWs back)
    (hback : NotInclude back) (b : Builder) : readFrom (space ++ back) b = readFrom back b := by
  have hitems : SkipsFiller Builder.apply topLevel := topLevel_skipsFiller
  obtain ⟨space', hspace', hnone, hstar⟩ := hitems.exists_run_star hws
  have hne : back ≠ [] := by
    rintro rfl
    obtain ⟨c, hc, -⟩ := hback
    cases hc
  calc readFrom (space ++ back) b
      = readFrom (space' ++ back) b := by rw [readFrom, readFrom, hstar]
    _ = readFrom back b := readFrom_congr (List.append_ne_nil_of_right_ne_nil _ hne) hne
        (topLevel_append hspace' (hnone back hstops) hstops hback b)

/-- White space in front of an include or the end of the text has to be complete lines. -/
theorem readFrom_append_or (hws : ∀ c ∈ space, isWs c = true) (hstops : Stops isWs back)
    (hback : ¬NotInclude back) (b : Builder) :
    CompleteLines space ∧ readFrom (space ++ back) b = readFrom back b ∨
      ¬CompleteLines space ∧ readFrom (space ++ back) b = none := by
  obtain ⟨space', hspace', hnone, hrounds⟩ := exists_rounds_of_ws hws
  have hread : readFrom (space ++ back) b = readFrom (space' ++ back) b :=
    readFrom_of_rounds (topLevel_skipsFiller.rounds (hrounds back) b)
  have hstar := (hrounds []).run_star rfl
  rw [List.append_nil, List.append_nil] at hstar
  rw [hread, CompleteLines, hstar]
  -- white space that is left over is neither a line nor part of an item
  by_cases hnil : space' = []
  · subst hnil
    exact .inl ⟨rfl, rfl⟩
  · have hfails : topLevel.run Builder.apply (space' ++ back) b = .noMatch b :=
      topLevel_fails_ws hspace' hnil (hnone back hstops) hback b
    refine .inr ⟨?_, readFrom_of_noMatch (List.append_ne_nil_of_left_ne_nil hnil back) hfails⟩
    rw [run_star_of_noMatch (lineOrComment_fails hspace' (hnone [] (stops_nil isWs)))]
    intro h
    injection h with h
    exact hnil h

/-- An accepted text can be read behind its white space. -/
theorem readFrom_of_append (hws : ∀ c ∈ space, isWs c = true) (hstops : Stops isWs back)
    (haccepted : readFrom (space ++ back) b ≠ none) :
    readFrom (space ++ back) b = readFrom back b := by
  by_cases hback : NotInclude back
  · exact readFrom_append hws hstops hback b
  · rcases readFrom_append_or hws hstops hback b with ⟨-, hread⟩ | ⟨-, hnone⟩
    · exact hread
    · exact absurd hnone haccepted

/-- A filler in the white space in front of something. -/
theorem readFrom_filler (filler : List Piece) (hgap : ∀ c ∈ gap, isWs c = true)
    (hspace : ∀ c ∈ space, isWs c = true) (hstops : Stops isWs back)
    (haccepted : readFrom back b ≠ none) :
    readFrom (gap ++ (fillerText filler ++ (space ++ back))) b = readFrom back b ↔
      NotInclude back ∨ CompleteLines (gap ++ (fillerText filler ++ space)) := by
  have hitems : SkipsFiller Builder.apply topLevel := topLevel_skipsFiller
  have hskip : readFrom (gap ++ (fillerText filler ++ (space ++ back))) b =
      readFrom (trailingWs gap filler ++ space ++ back) b := by
    rw [readFrom, readFrom, hitems.run_star filler hgap, List.append_assoc]
  rw [hskip, completeLines_filler filler hgap]
  have hws := isWs_append (trailingWs_isWs filler hgap) hspace
  by_cases hback : NotInclude back
  · exact iff_of_true (readFrom_append hws hstops hback b) (.inl hback)
  · rcases readFrom_append_or hws hstops hback b with ⟨hcomplete, hread⟩ | ⟨hcomplete, hnone⟩
    · exact iff_of_true hread (.inr hcomplete)
    · rw [hnone]
      exact iff_of_false haccepted.symm (not_or.mpr ⟨hback, hcomplete⟩)

/-- White space at the start of a filler, of which an interface takes as much as there is. -/
theorem dropWhile_fillerText (filler : List Piece) (hspace : ∀ c ∈ space, isWs c = true) :
    ∃ filler' space', (∀ c ∈ space', isWs c = true) ∧ ∀ back, Stops isWs back →
      (fillerText filler ++ (space ++ back)).dropWhile isWs =
        fillerText filler' ++ (space' ++ back) := by
  induction filler with
  | nil =>
      refine ⟨[], [], isWs_nil, fun back hback => ?_⟩
      exact (dropWhile_append hspace back).trans (dropWhile_of_stops hback)
  | cons p filler ih =>
      obtain ⟨filler', space', hspace', hfiller⟩ := ih
      have hskip : (∀ c ∈ p.text, isWs c = true) → ∀ back, Stops isWs back →
          (fillerText (p :: filler) ++ (space ++ back)).dropWhile isWs =
            fillerText filler' ++ (space' ++ back) := by
        intro hws back hback
        rw [fillerText_cons, List.append_assoc, dropWhile_append hws]
        exact hfiller back hback
      have hstop : (∃ text, p.text = '/' :: text) → ∀ back, Stops isWs back →
          (fillerText (p :: filler) ++ (space ++ back)).dropWhile isWs =
            fillerText (p :: filler) ++ (space ++ back) := by
        rintro ⟨text, htext⟩ back -
        refine dropWhile_of_stops ?_
        rw [fillerText_cons, htext]
        exact stops_cons _ (by decide)
      -- white space is skipped, and a comment stops
      cases p with
      | blank c hc => exact ⟨_, _, hspace', hskip (isWs_blank hc)⟩
      | newline => exact ⟨_, _, hspace', hskip isWs_newline⟩
      | crlf => exact ⟨_, _, hspace', hskip isWs_crlf⟩
      | lineComment body hbody => exact ⟨_, _, hspace, hstop ⟨_, rfl⟩⟩
      | blockComment body hbody => exact ⟨_, _, hspace, hstop ⟨_, rfl⟩⟩

/-- A filler in the white space behind an item that ends in one way or another. -/
theorem readFrom_leaves (e : Ending) (filler : List Piece) (hgap : ∀ c ∈ gap, isWs c = true)
    (hended : e = .unterminated → gap ++ after = [])
    (haccepted : readFrom (e.leaves (gap ++ after)) b ≠ none) :
    readFrom (e.leaves (gap ++ (fillerText filler ++ after))) b =
        readFrom (e.leaves (gap ++ after)) b ↔
      NotInclude (after.dropWhile isWs) ∨
        CompleteLines (e.leaves (gap ++ (fillerText filler ++ after.takeWhile isWs))) := by
  have hspace : ∀ c ∈ after.takeWhile isWs, isWs c = true := fun c hc => List.mem_takeWhile_imp hc
  have hstops : Stops isWs (after.dropWhile isWs) := stops_dropWhile isWs after
  have hsplit : after.takeWhile isWs ++ after.dropWhile isWs = after :=
    List.takeWhile_append_dropWhile
  generalize after.takeWhile isWs = space at hspace hsplit
  generalize after.dropWhile isWs = back at hstops hsplit
  subst hsplit
  cases e with
  | closed =>
      rw [Ending.leaves, ← List.append_assoc] at haccepted
      have hread := readFrom_of_append (isWs_append hgap hspace) hstops haccepted
      rw [hread] at haccepted
      rw [Ending.leaves, Ending.leaves, Ending.leaves, ← List.append_assoc gap space, hread]
      exact readFrom_filler filler hgap hspace hstops haccepted
  | padded =>
      -- the item takes the white space at the place, and that of the filler
      have hback : Ending.padded.leaves (gap ++ (space ++ back)) = back := by
        rw [Ending.leaves, dropWhile_append hgap, dropWhile_append hspace,
          dropWhile_of_stops hstops]
      obtain ⟨filler', space', hspace', hfiller⟩ := dropWhile_fillerText filler hspace
      have halone := hfiller [] (stops_nil isWs)
      rw [List.append_nil, List.append_nil] at halone
      rw [hback] at haccepted ⊢
      rw [Ending.leaves, Ending.leaves, dropWhile_append hgap, dropWhile_append hgap,
        hfiller back hstops, halone]
      exact readFrom_filler filler' isWs_nil hspace' hstops haccepted
  | unterminated =>
      -- nothing is behind the item, so what it leaves of the filler has to add nothing
      obtain ⟨rfl, hnil⟩ := List.append_eq_nil_iff.mp (hended rfl)
      obtain ⟨rfl, rfl⟩ := List.append_eq_nil_iff.mp hnil
      have hnone : ¬NotInclude [] := by
        rintro ⟨c, hc, -⟩
        cases hc
      rw [or_iff_right hnone]
      exact readFrom_eq_nil_iff _ b

end Items

/-! ## Places -/

/-- The text of an interface is not that of another item. -/
theorem run_topLevel_of_interfaceStart {σ ε : Type} {apply : Action → List Char → σ → Except ε σ}
    {start : List Char} {s t u : σ}
    (hother : (Rule.sor emptyLine (.sor «include» comment)).run apply start s = .noMatch t)
    (hstart : interfaceStart.run apply start s = .matched [] u) (tail : List Char) :
    topLevel.run apply (start ++ tail) s = interface.run apply (start ++ tail) s := by
  rw [← List.append_nil start] at hstart hother
  obtain ⟨space, body, rfl, hws⟩ := exists_of_interfaceStart hstart
  rw [List.append_assoc] at hother ⊢
  have hline : afterEmptyLine (space ++ 'i' :: (body ++ [])) = none := by
    cases hline : afterEmptyLine (space ++ 'i' :: (body ++ [])) with
    | none => rfl
    | some rest =>
        rw [List.cons_append, Rule.run_sor, run_emptyLine, hline] at hother
        cases hother
  refine run_topLevel_interface (afterEmptyLine_eq_none hws (by decide) hline _)
    (stops_of_ws hws fun _ => stops_cons _ (by decide)) ?_
  exact afterComment_eq_none hws (by decide) (by decide)

/-- Where something can be put into a text: the white space in front of the place is kept apart from
the item that comes before it. -/
inductive Place
  /-- In front of the first item. -/
  | first (gap : List Char)
  /-- Behind an item, in front of the next one or at the end of the text. -/
  | behind (last gap : List Char)
  /-- Between the members of an interface. -/
  | member

/-- The text in front of a place and the text behind it. In front of it is white space, and before
that, complete items; or an interface has been started, and members of it that its closing brace can
follow. An item whose line has no end is the last one of the text, and nothing is behind it. -/
inductive Boundary (filename : String) : Place → List Char → List Char → Prop
  | first {gap : List Char} (after : List Char) : (∀ c ∈ gap, isWs c = true) →
      Boundary filename (.first gap) gap after
  | behind {front last gap after : List Char} {b b' : Builder} :
      Rounds Builder.apply topLevel (front ++ last) { filename } last b →
      topLevel.run Builder.apply last b = .matched [] b' →
      (endingOf last = .unterminated → gap ++ after = []) →
      (∀ c ∈ gap, isWs c = true) →
      Boundary filename (.behind last gap) (front ++ (last ++ gap)) after
  | member {front start members gap : List Char} {b b' c : Builder} (after : List Char) :
      Rounds Builder.apply topLevel (front ++ start) { filename } start b →
      (Rule.sor emptyLine (.sor «include» comment)).run Builder.apply start b = .noMatch b →
      interfaceStart.run Builder.apply start b = .matched [] b' →
      Rounds Builder.apply interfaceMember (members ++ ['}']) b' ['}'] c →
      (∀ c ∈ gap, isWs c = true) →
      Boundary filename .member (front ++ (start ++ (members ++ gap))) after

/-- The fillers that do not matter at a place. Between items, behind the white space at the place is
something else than an include; or this white space with the filler in it, without what the item in
front takes of it, is complete lines and comments. -/
def Harmless : Place → List Char → List Char → Prop
  | .first gap, filler, after =>
      NotInclude (after.dropWhile isWs) ∨
        CompleteLines (gap ++ (filler ++ after.takeWhile isWs))
  | .behind last gap, filler, after =>
      NotInclude (after.dropWhile isWs) ∨
        CompleteLines ((endingOf last).leaves (gap ++ (filler ++ after.takeWhile isWs)))
  | .member, _, _ => True

/-- The end of an interface does not depend on its white space. -/
theorem interfaceEnd_text (text text' : List Char) (b : Builder) :
    Builder.apply .interfaceEnd text b = Builder.apply .interfaceEnd text' b := rfl

/-- The rest of a text behind an item of it. -/
theorem reading_behind {filename : String} {front last : List Char} {b b' : Builder}
    (hrounds : Rounds Builder.apply topLevel (front ++ last) { filename } last b)
    (hlast : topLevel.run Builder.apply last b = .matched [] b') (tail : List Char) :
    reading filename (front ++ (last ++ tail)) = readFrom ((endingOf last).leaves tail) b' := by
  rw [← List.append_nil last] at hlast hrounds
  obtain ⟨-, htail⟩ := topLevel_leaves interfaceEnd_text hlast
  have hhead : SameHead (last ++ []) (last ++ tail) :=
    sameHead_append (ne_nil_of_consuming rfl hlast) [] tail
  have hrounds' := (topLevel_local interfaceEnd_text).rounds hrounds hhead
  rw [reading_eq, readFrom_of_rounds hrounds', readFrom_of_matched (htail tail)]

/-- A filler leaves the interfaces and the include paths of a text alone exactly when it is harmless
at its place. -/
theorem reading_filler_iff {filename : String} {place : Place} {before after : List Char}
    {interfaces : List InterfaceDescription} (hplace : Boundary filename place before after)
    (haccepted : parse filename (before ++ after) = .ok interfaces) (filler : List Piece) :
    reading filename (before ++ fillerText filler ++ after) = reading filename (before ++ after) ↔
      Harmless place (fillerText filler) after := by
  obtain ⟨includes, hreading⟩ := reading_of_parse haccepted
  have hsome : reading filename (before ++ after) ≠ none := by
    rw [hreading]
    exact Option.some_ne_none _
  rw [List.append_assoc]
  cases hplace with
  | first _ hgap =>
      rw [reading_eq] at hsome
      rw [reading_eq, reading_eq]
      exact readFrom_leaves .closed filler hgap (by simp) hsome
  | @behind front last gap _ b b' hrounds hlast hended hgap =>
      have hread := reading_behind hrounds hlast
      rw [List.append_assoc, List.append_assoc, hread] at hsome
      rw [List.append_assoc, List.append_assoc, hread, List.append_assoc, List.append_assoc, hread]
      exact readFrom_leaves (endingOf last) filler hgap hended hsome
  | @member front start members gap b b' c _ hrounds hother hstart hmembers hgap =>
      have hne : start ≠ [] := by
        rintro rfl
        cases hstart
      -- the items in front of the interface are read as before
      have hread : ∀ tail, reading filename (front ++ (start ++ (members ++ tail))) =
          readFrom (start ++ (members ++ tail)) b := by
        intro tail
        rw [← List.append_nil start] at hrounds
        have hhead := sameHead_append hne [] (members ++ tail)
        have hrounds' := (topLevel_local interfaceEnd_text).rounds hrounds hhead
        rw [reading_eq, readFrom_of_rounds hrounds']
      have hitem := run_topLevel_of_interfaceStart hother hstart
      have hsame := interface_filler interfaceEnd_text filler hstart hmembers hgap after
      have hnonempty : ∀ tail, start ++ tail ≠ [] := List.append_ne_nil_of_left_ne_nil hne
      refine iff_of_true ?_ trivial
      rw [List.append_assoc, List.append_assoc, List.append_assoc, List.append_assoc,
        List.append_assoc, List.append_assoc, hread, hread]
      exact readFrom_congr (hnonempty _) (hnonempty _)
        ((hitem _).trans (hsame.trans (hitem _).symm))

/-- A place behind the member of an interface. -/
example (after : List Char) : Boundary "hello.idl" .member
    ([] ++ ("interface Hello \x7b".toList ++ ("\n    poke() =|".toList ++ []))) after :=
  .member after (.none _ _) rfl rfl (.next rfl (.next rfl (.none _ _))) isWs_nil

/-- A text with an include, in two parts. -/
def includeLine : String := "#include <string>\n"

/-- The part with the interface. -/
def interfaceLines : String := "\ninterface Hello \x7b\n    poke() =|\n\x7d\n"

/-- The description of the interface. -/
def includingDescription : InterfaceDescription :=
  { InterfaceDescription.new "Hello" "hello.idl" with
    methods := [⟨"poke", true, nameHash "poke", [], []⟩]
    includes := ["string"] }

/-- The place behind the include. -/
theorem includeLine_behind : Boundary "hello.idl" (.behind includeLine.toList [])
    ([] ++ (includeLine.toList ++ [])) interfaceLines.toList :=
  .behind (.none _ _) rfl (by decide +kernel) isWs_nil

theorem parse_including :
    parse "hello.idl" ([] ++ (includeLine.toList ++ []) ++ interfaceLines.toList) =
      .ok [includingDescription] := by
  decide +kernel

/-- A comment and a blank can be put behind the include. -/
theorem reading_filler_behind :
    reading "hello.idl" ([] ++ (includeLine.toList ++ []) ++
        fillerText [.lineComment ['!'] (by decide), .blank ' ' rfl] ++ interfaceLines.toList) =
      reading "hello.idl" ([] ++ (includeLine.toList ++ []) ++ interfaceLines.toList) :=
  (reading_filler_iff includeLine_behind parse_including _).mpr
    (.inl ⟨'i', by decide +kernel, by decide⟩)

/-- With a blank in front of the include, the text is not accepted. -/
theorem reading_blank_include :
    ¬∀ (filename : String) (place : Place) (before after : List Char)
        (interfaces : List InterfaceDescription) (filler : List Piece),
      Boundary filename place before after →
        parse filename (before ++ after) = .ok interfaces →
          reading filename (before ++ fillerText filler ++ after) =
            reading filename (before ++ after) := by
  intro h
  have hsame := h "hello.idl" (.first []) [] ([] ++ (includeLine.toList ++ []) ++
    interfaceLines.toList) _ [.blank ' ' rfl] (.first _ isWs_nil) parse_including
  exact absurd hsame (by decide +kernel)

end KushOs.Idl
