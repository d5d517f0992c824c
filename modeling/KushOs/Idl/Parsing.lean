import KushOs.Idl.Layout

/-!
# Parsing declared methods

The rules of the grammar for a method, from the inside out, on the text that the layout prints for
them: each consumes exactly its text, whatever may follow, and takes the builder to a state that is
written out. No piece of an argument or a decorator is left in it.

## Main results

* `methodArgs_matches`, `methodDecorators_matches`: the groups of a method.
* `method_matches`: a whole method.
-/

namespace KushOs.Idl

open Peg Grammar

/-! ## Characters -/

section Characters

variable {σ : Type} {apply : Action → List Char → σ → Except BuildError σ} {s t : σ}
  {rest : List Char} {c : Char} {p q : Char → Bool}

theorem char_matches : Matches apply (char c) (c :: rest) s rest s :=
  matches_one (decide_eq_true rfl)

theorem char_fails (h : Stops (· = c) rest) : Fails apply (char c) rest s := fails_one h

/-- Repeated classes consume nothing in front of another character. -/
theorem star_one_none (h : Stops p rest) : Matches apply (Rule.one p).star rest s rest s :=
  (fails_one h).star

/-- Repeated classes consume one character in front of another one. -/
theorem star_one_single (hc : p c = true) (h : Stops p rest) :
    Matches apply (Rule.one p).star (c :: rest) s rest s :=
  matches_star_one [c] (by simpa using hc) h

/-- White space other than an end of line is blank. -/
theorem isWs_of_isBlank (c : Char) (h : isBlank c = true) : isWs c = true := by
  simp only [isBlank, Bool.decide_or, Bool.or_eq_true, decide_eq_true_eq] at h
  simp only [isWs, Bool.decide_or, Bool.or_eq_true, decide_eq_true_eq]
  tauto

/-- The first character of an identifier is none that another class or sign starts with. -/
theorem isIdentifierFirst_ne (h : isIdentifierFirst c = true) {d : Char}
    (hd : isIdentifierFirst d = false) : c ≠ d := by
  rintro rfl
  rw [h] at hd
  cases hd

theorem isWs_of_isIdentifierFirst (h : isIdentifierFirst c = true) : isWs c = false := by
  have hspace := isIdentifierFirst_ne (d := ' ') h (by decide)
  have htab := isIdentifierFirst_ne (d := '\t') h (by decide)
  have hlf := isIdentifierFirst_ne (d := '\n') h (by decide)
  have hcr := isIdentifierFirst_ne (d := '\r') h (by decide)
  simp [isWs, hspace, htab, hlf, hcr]

theorem isWs_of_isIdentifierOther (h : isIdentifierOther c = true) : isWs c = false := by
  cases hws : isWs c with
  | false => rfl
  | true =>
      simp only [isWs, Bool.decide_or, Bool.or_eq_true, decide_eq_true_eq] at hws
      obtain rfl | rfl | rfl | rfl := hws <;> cases h

/-- The text of an identifier starts with none of the characters of a class without letters. -/
theorem Identifier.stops (id : Identifier) (h : p id.first = false) (rest : List Char) :
    Stops p (id.text.toList ++ rest) := by
  rw [id.toList_text]
  exact stops_cons _ h

/-- An identifier, in front of something that does not go on with it. -/
theorem identifier_matches (id : Identifier) (hrest : Stops isIdentifierOther rest) :
    Matches apply identifier (id.text.toList ++ rest) s rest s := by
  rw [id.toList_text, List.cons_append]
  exact (matches_one id.isFirst).seq (matches_star_one id.others id.isOther hrest)

/-- An empty line. -/
theorem emptyLine_matches : Matches apply emptyLine ('\n' :: rest) s rest s :=
  (star_one_none (stops_cons _ (by decide))).seq (matches_str ['\n'] rest).sor_left

/-- Behind its blanks, an empty line has an end of line. -/
theorem emptyLine_fails {blanks : List Char} (hblanks : ∀ d ∈ blanks, isBlank d = true)
    (hrest : Stops isWs rest) : Fails apply emptyLine (blanks ++ rest) s := by
  have hblank : Stops isBlank rest := hrest.mono isWs_of_isBlank
  refine (matches_star_one blanks hblanks hblank).seq_fails
    (Fails.sor (fails_str ?_) (fails_str ?_))
  · exact hrest.mono fun c hc => by rw [of_decide_eq_true hc]; decide
  · exact hrest.mono fun c hc => by rw [of_decide_eq_true hc]; decide

/-- Behind its white space, a comment has a slash. -/
theorem comment_fails {blanks : List Char} (hblanks : ∀ d ∈ blanks, isWs d = true)
    (hrest : Stops isWs rest) (hslash : Stops (· = '/') rest) :
    Fails apply comment (blanks ++ rest) s := by
  have hskip : Matches apply (Rule.one isWs).star (blanks ++ rest) s rest s :=
    matches_star_one blanks hblanks hrest
  exact (hskip.seq_fails (fails_str hslash).seq).sor (hskip.seq_fails (fails_str hslash).seq)

end Characters

/-! ## Arguments -/

/-- A builder with the given interface and method, and no piece of an argument or a decorator. -/
def Builder.within (b : Builder) (current : Option InterfaceDescription) (method : Option Method)
    (argContext : ArgContext) (decorators : List (String × String)) : Builder where
  filename := b.filename
  allIds := b.allIds
  includes := b.includes
  current
  currentMethod := method
  argContext
  decorators

/-- The interface after arguments have been counted. -/
def InterfaceDescription.countArgs (i : InterfaceDescription) (args : List Argument) :
    InterfaceDescription :=
  { i with numCustomTypes := i.numCustomTypes + customTypes args }

/-- The method after arguments have been added. -/
def addArgs (args : List Argument) (m : Method) : ArgContext → Method
  | .parameter => { m with params := m.params ++ args }
  | .ret => { m with returns := m.returns ++ args }
  | .none => m

theorem countArgs_append (i : InterfaceDescription) (args args' : List Argument) :
    i.countArgs (args ++ args') = (i.countArgs args).countArgs args' := by
  simp [InterfaceDescription.countArgs, customTypes, List.countP_append, Nat.add_assoc]

theorem addArgs_append (args args' : List Argument) (m : Method) (context : ArgContext) :
    addArgs (args ++ args') m context = addArgs args' (addArgs args m context) context := by
  cases context <;> simp [addArgs]

theorem countArgs_cons (i : InterfaceDescription) (arg : Argument) (args : List Argument) :
    i.countArgs (arg :: args) = (i.countArgs [arg]).countArgs args :=
  countArgs_append i [arg] args

theorem addArgs_cons (arg : Argument) (args : List Argument) (m : Method) (context : ArgContext) :
    addArgs (arg :: args) m context = addArgs args (addArgs [arg] m context) context :=
  addArgs_append [arg] args m context

@[simp]
theorem countArgs_nil (i : InterfaceDescription) : i.countArgs [] = i := rfl

@[simp]
theorem addArgs_nil (m : Method) (context : ArgContext) : addArgs [] m context = m := by
  cases context <;> simp [addArgs]

section Arguments

variable {b : Builder} {i : InterfaceDescription} {m : Method} {context : ArgContext}
  {d : List (String × String)} {rest : List Char}

theorem text_ne {s : String} {c : Char} {l : List Char} (h : s.toList = c :: l) : s ≠ "" := by
  rintro rfl
  cases h

/-- The count of custom types for one more argument. -/
theorem countType_eq {b' : Builder} (hcurrent : b'.current = some i) (arg : Argument) :
    b'.countType arg = .ok (some (i.countArgs [arg])) := by
  unfold Builder.countType
  rw [hcurrent]
  cases hbuiltin : arg.type.isBuiltin with
  | true => simp [InterfaceDescription.countArgs, customTypes, hbuiltin]
  | false => simp [InterfaceDescription.countArgs, customTypes, hbuiltin]

/-- `pushNextArg` after the two pieces of an argument have been set. -/
theorem pushNextArg_eq (a : ArgSpec) (hcontext : context ≠ .none) :
    Builder.pushNextArg (((b.within (some i) (some m) context d).setNextArgName
        a.name.text).setNextArgTypename a.typeName.text) =
      .ok (b.within (some (i.countArgs [a.argument])) (some (addArgs [a.argument] m context))
        context d) := by
  have hargs : Builder.addArg a.argument m context = addArgs [a.argument] m context := by
    cases context <;> rfl
  refine Builder.pushNextArg_eq_ok.mpr ⟨m, some (i.countArgs [a.argument]), rfl, hcontext,
    text_ne a.name.toList_text, text_ne a.typeName.toList_text, countType_eq rfl _, ?_⟩
  rw [← hargs]
  rfl

/-- The rest of the name of a type, in front of something that does not go on with it. -/
theorem typeTail_matches {s : Builder} {tail : List Char} (htail : TypeTail tail)
    (hother : Stops isIdentifierOther rest) (hcolon : Stops (· = ':') rest) :
    Matches Builder.apply (Rule.sor (.one isIdentifierOther) (.str [':', ':'])).star
      (tail ++ rest) s rest s := by
  induction htail with
  | nil => exact ((fails_one hother).sor (fails_str hcolon)).star
  | other hd _ ih => exact (matches_one hd).sor_left.star (Nat.lt_succ_self _) ih
  | @colons l _ ih =>
      have hfails : Fails Builder.apply (.one isIdentifierOther) (':' :: ':' :: (l ++ rest)) s :=
        fails_one (stops_cons _ (by decide))
      have hcolons : Matches Builder.apply (.sor (.one isIdentifierOther) (.str [':', ':']))
          (':' :: ':' :: (l ++ rest)) s (l ++ rest) s :=
        (matches_str [':', ':'] (l ++ rest)).sor_right hfails
      have hlt : (l ++ rest).length < (l ++ rest).length + 2 := Nat.lt_add_of_pos_right (by decide)
      exact hcolons.star hlt ih

/-- What may follow the type of an argument. -/
def EndsArg (rest : List Char) : Prop := Stops isIdentifierOther rest ∧ Stops (· = ':') rest

theorem endsArg_cons {c : Char} (hother : isIdentifierOther c = false) (hcolon : c ≠ ':') :
    EndsArg (c :: rest) :=
  ⟨stops_cons _ hother, stops_cons _ (decide_eq_false hcolon)⟩

/-- One argument. -/
theorem methodArg_matches (a : ArgSpec) (hcontext : context ≠ .none) (hrest : EndsArg rest) :
    Matches Builder.apply methodArg (a.print ++ rest)
      (b.within (some i) (some m) context d) rest
      (b.within (some (i.countArgs [a.argument])) (some (addArgs [a.argument] m context)) context
        d) := by
  have htext : a.print ++ rest =
      a.name.text.toList ++ ':' :: ' ' :: (a.typeName.text.toList ++ rest) := by
    simp [ArgSpec.print]
  -- the pieces are collected in the builder: the name, then the name of the type
  have hname : ∀ s : Builder, Matches Builder.apply methodArgName
      (a.name.text.toList ++ ':' :: ' ' :: (a.typeName.text.toList ++ rest)) s
      (':' :: ' ' :: (a.typeName.text.toList ++ rest)) (s.setNextArgName a.name.text) := by
    intro s
    exact (identifier_matches a.name (stops_cons _ (by decide))).act _
      (Builder.apply_toList .methodArgName a.name.text s)
  have hsep : ∀ s : Builder, Matches Builder.apply methodArgSep
      (':' :: ' ' :: (a.typeName.text.toList ++ rest)) s (a.typeName.text.toList ++ rest) s := by
    intro s
    have hstops : Stops isWs (a.typeName.text.toList ++ rest) := by
      rw [a.typeName.toList_text]
      exact stops_cons _ (isWs_of_isIdentifierFirst a.typeName.isFirst)
    exact (star_one_none (stops_cons _ (by decide))).seq
      (char_matches.seq (star_one_single (by decide) hstops))
  have htype : ∀ s : Builder, Matches Builder.apply methodArgType
      (a.typeName.text.toList ++ rest) s rest (s.setNextArgTypename a.typeName.text) := by
    intro s
    refine Matches.act _ ?_ (Builder.apply_toList .methodArgType a.typeName.text s)
    rw [a.typeName.toList_text]
    exact (matches_one a.typeName.isFirst).seq
      (typeTail_matches a.typeName.isTail hrest.1 hrest.2)
  -- an empty rule at the end takes them out again
  have hend : Matches Builder.apply methodArgEnd rest
      (((b.within (some i) (some m) context d).setNextArgName
        a.name.text).setNextArgTypename a.typeName.text) rest
      (b.within (some (i.countArgs [a.argument])) (some (addArgs [a.argument] m context)) context
        d) :=
    Matches.act [] matches_success (pushNextArg_eq a hcontext)
  rw [htext]
  exact (hname _).seq ((hsep _).seq ((htype _).seq hend))

/-- What comes behind an argument: further ones, and the parenthesis. -/
theorem endsArg_args (args : List ArgSpec) (rest : List Char) :
    EndsArg ((args.flatMap fun a => [',', ' '] ++ a.print) ++ ')' :: rest) := by
  cases args with
  | nil => exact endsArg_cons (by decide) (by decide)
  | cons a args => exact endsArg_cons (by decide) (by decide)

/-- The arguments behind the first one. -/
theorem nextArgs_matches (args : List ArgSpec) (hcontext : context ≠ .none) :
    Matches Builder.apply (Rule.star (.seq methodNextArgSep methodNextArg))
      ((args.flatMap fun a => [',', ' '] ++ a.print) ++ ')' :: rest)
      (b.within (some i) (some m) context d) (')' :: rest)
      (b.within (some (i.countArgs (args.map ArgSpec.argument)))
        (some (addArgs (args.map ArgSpec.argument) m context)) context d) := by
  induction args generalizing i m with
  | nil =>
      rw [List.map_nil, countArgs_nil, addArgs_nil]
      exact (Fails.seq (Fails.seq (char_fails (stops_cons _ (by decide))))).star
  | cons a args ih =>
      have htext : ((a :: args).flatMap fun a => [',', ' '] ++ a.print) ++ ')' :: rest =
          ',' :: ' ' ::
            (a.print ++ ((args.flatMap fun a => [',', ' '] ++ a.print) ++ ')' :: rest)) := by
        simp
      -- one round of the loop: the comma, the blank behind it, the argument
      have hsep : ∀ s : Builder, ∀ rest, Matches Builder.apply methodNextArgSep
          (',' :: ' ' :: (a.print ++ rest)) s (a.print ++ rest) s := by
        intro s rest
        refine char_matches.seq (star_one_single (by decide) ?_)
        simp only [ArgSpec.print, List.append_assoc]
        exact a.name.stops (isWs_of_isIdentifierFirst a.name.isFirst) _
      have harg := methodArg_matches (b := b) (i := i) (m := m) (d := d) a hcontext
        (endsArg_args args rest)
      rw [htext, List.map_cons, countArgs_cons, addArgs_cons]
      exact ((hsep _ _).seq harg).star (by simp; omega) ih

/-- The arguments of a method. -/
theorem methodArgs_matches (args : List ArgSpec) (hcontext : context ≠ .none) :
    Matches Builder.apply methodArgs (printArgs args ++ ')' :: rest)
      (b.within (some i) (some m) context d) (')' :: rest)
      (b.within (some (i.countArgs (args.map ArgSpec.argument)))
        (some (addArgs (args.map ArgSpec.argument) m context)) context d) := by
  cases args with
  | nil =>
      rw [List.map_nil, countArgs_nil, addArgs_nil]
      -- the group is empty, and nothing has been set when its first rule fails
      have hname : ∀ s, Fails Builder.apply methodArgName (')' :: rest) s := fun s =>
        Fails.act (Fails.seq (fails_one (stops_cons _ (by decide))))
      exact (Fails.seq (Fails.seq (hname _))).opt
  | cons a args =>
      have harg := methodArg_matches (b := b) (i := i) (m := m) (d := d) a hcontext
        (endsArg_args args rest)
      rw [printArgs, List.append_assoc, List.map_cons, countArgs_cons, addArgs_cons]
      exact (harg.seq (nextArgs_matches args hcontext)).opt

/-- A group of arguments in parentheses, with the actions that open and close it. -/
theorem argsGroup_matches {opens closes : Action} (args : List ArgSpec)
    (hcontext : context ≠ .none)
    (hopens : ∀ b : Builder, Builder.apply opens ['('] b = b.beginArgs context)
    (hcloses : ∀ b : Builder, Builder.apply closes [')'] b = b.endArgs context) :
    Matches Builder.apply
      (.seq (.must (.act opens (char '('))) (.seq (.must methodArgs)
        (.must (.act closes (char ')')))))
      ('(' :: (printArgs args ++ ')' :: rest)) (b.within (some i) (some m) .none d) rest
      (b.within (some (i.countArgs (args.map ArgSpec.argument)))
        (some (addArgs (args.map ArgSpec.argument) m context)) .none d) := by
  have hopen : Matches Builder.apply (.act opens (char '('))
      ('(' :: (printArgs args ++ ')' :: rest)) (b.within (some i) (some m) .none d)
      (printArgs args ++ ')' :: rest) (b.within (some i) (some m) context d) := by
    refine Matches.act ['('] char_matches ?_
    rw [hopens]
    exact Builder.beginArgs_eq_ok.mpr ⟨rfl, rfl, rfl, rfl⟩
  have hclose : ∀ i m, Matches Builder.apply (.act closes (char ')')) (')' :: rest)
      (b.within (some i) (some m) context d) rest
      (b.within (some i) (some m) .none d) := by
    intro i m
    refine Matches.act [')'] char_matches ?_
    rw [hcloses]
    exact Builder.endArgs_eq_ok.mpr ⟨rfl, rfl, rfl, rfl⟩
  exact hopen.must.seq ((methodArgs_matches args hcontext).must.seq (hclose _ _).must)

end Arguments

/-! ## Decorators -/

section Decorators

variable {b : Builder} {i : InterfaceDescription} {m : Method} {d : List (String × String)}
  {rest : List Char}

/-- The value of a decorator starts with none of the characters of a class without letters and
digits. -/
theorem DecoratorValue.stops_isWs (value : DecoratorValue) (rest : List Char) :
    Stops isWs (value.text.toList ++ rest) := by
  cases htext : value.text.toList with
  | nil => exact absurd (String.toList_eq_nil_iff.mp htext) value.nonempty
  | cons c l =>
      have hother : isIdentifierOther c = true := value.isOther c (htext ▸ List.mem_cons_self)
      exact stops_cons _ (isWs_of_isIdentifierOther hother)

/-- A decorator with a new key, and the blank behind it. -/
theorem methodDecoratorGroup_matches (dec : Identifier × DecoratorValue)
    (hnew : d.lookup dec.1.text = none) (hrest : Stops isBlank rest) :
    Matches Builder.apply methodDecoratorGroup (printDecorator dec ++ rest)
      (b.within (some i) (some m) .none d) rest
      (b.within (some i) (some m) .none (d ++ [(dec.1.text, dec.2.text)])) := by
  obtain ⟨key, value⟩ := dec
  have htext : printDecorator (key, value) ++ rest =
      '[' :: (key.text.toList ++ '=' :: (value.text.toList ++ ']' :: ' ' :: rest)) := by
    simp [printDecorator]
  -- the parts of the decorator, and what their actions record
  have hkey : ∀ (s : Builder) rest, Matches Builder.apply decoratorKey
      (key.text.toList ++ '=' :: rest) s ('=' :: rest) (s.setNextDecoratorKey key.text) := by
    intro s rest
    exact (identifier_matches key (stops_cons _ (by decide))).act _
      (Builder.apply_toList .decoratorKey key.text s)
  have hsep : ∀ (s : Builder) rest, Matches Builder.apply decoratorSep
      ('=' :: (value.text.toList ++ rest)) s (value.text.toList ++ rest) s := by
    intro s rest
    exact (star_one_none (stops_cons _ (by decide))).seq
      (char_matches.seq (star_one_none (value.stops_isWs rest)))
  have hvalue : ∀ (s : Builder) rest, Matches Builder.apply decoratorValue
      (value.text.toList ++ ']' :: rest) s (']' :: rest) (s.setNextDecoratorValue value.text) := by
    intro s rest
    exact (matches_star_one value.text.toList value.isOther (stops_cons _ (by decide))).act _
      (Builder.apply_toList .decoratorValue value.text s)
  have hpush : Builder.pushNextDecorator (((b.within (some i) (some m) .none d).setNextDecoratorKey
        key.text).setNextDecoratorValue value.text) =
      .ok (b.within (some i) (some m) .none (d ++ [(key.text, value.text)])) :=
    Builder.pushNextDecorator_eq_ok.mpr ⟨text_ne key.toList_text, value.nonempty, hnew, rfl⟩
  rw [htext]
  refine char_matches.seq (Matches.seq ((hkey _ _).seq ((hsep _ _).seq (hvalue _ _))) ?_)
  exact (char_matches.act [']'] hpush).seq (star_one_single (by decide) hrest)

/-- The decorators of a method. -/
theorem methodDecorators_matches (todo : List (Identifier × DecoratorValue))
    (hnodup : (d.map Prod.fst ++ todo.map fun dec => dec.1.text).Nodup) :
    Matches Builder.apply methodDecoratorGroup.star (todo.flatMap printDecorator ++ '(' :: rest)
      (b.within (some i) (some m) .none d) ('(' :: rest)
      (b.within (some i) (some m) .none
        (d ++ todo.map fun dec => (dec.1.text, dec.2.text))) := by
  induction todo generalizing d with
  | nil =>
      rw [List.map_nil, List.append_nil]
      exact (Fails.seq (char_fails (stops_cons _ (by decide)))).star
  | cons dec todo ih =>
      -- the key is not among those that have been pushed
      have hnew : d.lookup dec.1.text = none := by
        rw [List.lookup_eq_none_iff]
        intro p hp
        have hdisjoint := (List.nodup_append.mp hnodup).2.2
        have hne : p.1 ≠ dec.1.text :=
          hdisjoint _ (List.mem_map_of_mem hp) _ List.mem_cons_self
        exact bne_iff_ne.mpr hne.symm
      -- a bracket or the parenthesis follows, so only one blank is skipped
      have hstops : Stops isBlank (todo.flatMap printDecorator ++ '(' :: rest) := by
        cases todo with
        | nil => exact stops_cons _ (by decide)
        | cons dec todo => exact stops_cons _ (by decide)
      have hgroup := methodDecoratorGroup_matches (b := b) (i := i) (m := m) (d := d) dec hnew
        hstops
      have hih := ih (d := d ++ [(dec.1.text, dec.2.text)]) (by simpa using hnodup)
      rw [List.flatMap_cons, List.append_assoc]
      rw [List.append_assoc] at hih
      exact hgroup.star (by simp [printDecorator]; omega) hih

end Decorators

/-! ## Methods -/

/-- The interface after a method has been added. -/
def InterfaceDescription.addMethod (i : InterfaceDescription) (m : MethodSpec) :
    InterfaceDescription :=
  { i.countArgs m.arguments with methods := i.methods ++ [m.method] }

section Methods

variable {b : Builder} {i : InterfaceDescription} {m : Method} {d : List (String × String)}
  {rest : List Char}

/-- The name of a new method. -/
theorem methodName_matches (id : Identifier) (hfirst : id.first ≠ '_')
    (hnew : ∀ m ∈ i.methods, m.name ≠ id.text) (hrest : Stops isIdentifierOther rest) :
    Matches Builder.apply methodName (id.text.toList ++ rest)
      (b.within (some i) none .none []) rest
      (b.within (some i) (some (Method.new id.text)) .none []) := by
  have hhead : id.text.toList.head? ≠ some '_' := by
    rw [id.toList_text]
    exact fun h => hfirst (Option.some.inj h)
  have hbegin : Builder.beginMethod (b.within (some i) none .none []) id.text =
      .ok (b.within (some i) (some (Method.new id.text)) .none []) :=
    Builder.beginMethod_eq_ok.mpr ⟨i, rfl, rfl, hhead, hnew, rfl⟩
  exact (identifier_matches id hrest).act _
    ((Builder.apply_toList .methodName id.text _).trans hbegin)

/-- The blank between a name and its decorators. -/
theorem methodWs_decorators_matches (decorators : List (Identifier × DecoratorValue))
    (s : Builder) :
    Matches Builder.apply methodWs (printDecorators decorators ++ '(' :: rest) s
      (decorators.flatMap printDecorator ++ '(' :: rest) s := by
  cases decorators with
  | nil => exact star_one_none (stops_cons _ (by decide))
  | cons dec decorators => exact star_one_single (by decide) (stops_cons _ (by decide))

/-- The marker behind the parameters, and the return values. -/
theorem methodReturnType_matches (returns : Option (List ArgSpec)) :
    Matches Builder.apply methodReturnType (printReturns returns ++ rest)
      (b.within (some i) (some m) .none d) rest
      (b.within (some (i.countArgs ((returns.getD []).map ArgSpec.argument)))
        (some (addArgs ((returns.getD []).map ArgSpec.argument)
          { m with async := returns.isNone } .ret)) .none d) := by
  have hasync : ∀ isAsync, Builder.setMethodAsync (b.within (some i) (some m) .none d) isAsync =
      .ok (b.within (some i) (some { m with async := isAsync }) .none d) := fun _ =>
    Builder.setMethodAsync_eq_ok.mpr ⟨m, rfl, rfl⟩
  cases returns with
  | none =>
      have hmarker : Matches Builder.apply methodAsyncReturnMarker (['=', '|'] ++ rest)
          (b.within (some i) (some m) .none d) rest
          (b.within (some i) (some { m with async := true }) .none d) :=
        (matches_str ['=', '|'] rest).act _ (hasync true)
      rw [Option.getD_none, List.map_nil, countArgs_nil, addArgs_nil]
      exact hmarker.sor_left
  | some returns =>
      have htext : printReturns (some returns) ++ rest =
          '=' :: '>' :: ' ' :: '(' :: (printArgs returns ++ ')' :: rest) := by
        simp [printReturns]
      -- the first marker fails on its second character, before its action runs
      have hnot : ∀ s l, Fails Builder.apply methodAsyncReturnMarker ('=' :: '>' :: l) s := by
        intro s l
        exact Fails.act ((matches_one (by decide)).seq_fails (fails_str (stops_cons _ (by decide))))
      have hmarker : ∀ l, Matches Builder.apply methodSyncReturnMarker (['=', '>'] ++ l)
          (b.within (some i) (some m) .none d) l
          (b.within (some i) (some { m with async := false }) .none d) := fun l =>
        (matches_str ['=', '>'] l).act _ (hasync false)
      have hws : ∀ s : Builder, Matches Builder.apply methodWs
          (' ' :: '(' :: (printArgs returns ++ ')' :: rest)) s
          ('(' :: (printArgs returns ++ ')' :: rest)) s := fun s =>
        star_one_single (by decide) (stops_cons _ (by decide))
      have hreturn : Matches Builder.apply methodReturn ('(' :: (printArgs returns ++ ')' :: rest))
          (b.within (some i) (some { m with async := false }) .none d) rest
          (b.within (some (i.countArgs (returns.map ArgSpec.argument)))
            (some (addArgs (returns.map ArgSpec.argument) { m with async := false } .ret))
            .none d) :=
        argsGroup_matches returns (by decide) (fun _ => rfl) (fun _ => rfl)
      rw [htext]
      exact ((hmarker _).must.seq ((hws _).must.seq hreturn.must)).sor_right (hnot _ _)

/-- The identifier of a declared method, when the builder has given it the hash of its name. -/
theorem decodeIdentifier_eq (spec : MethodSpec) (hhash : m.identifier = nameHash spec.name.text) :
    Builder.decodeIdentifier spec.decoratorTexts m = .ok spec.identifier := by
  unfold Builder.decodeIdentifier MethodSpec.identifier
  cases hlookup : spec.decoratorTexts.lookup "identifier" with
  | none => rw [hhash]
  | some value =>
      -- the decorator is declared, so its value is a literal
      have hmem : ("identifier", value) ∈ spec.decoratorTexts := by
        obtain ⟨l, l', heq, -⟩ := List.lookup_eq_some_iff.mp hlookup
        rw [heq]
        simp
      obtain ⟨dec, hdec, heq⟩ := List.mem_map.mp hmem
      obtain ⟨hkey, rfl⟩ := Prod.ext_iff.mp heq
      obtain ⟨hliteral, hlt⟩ := spec.identifier_literal dec hdec hkey
      exact stoull_of_isLiteral hliteral hlt

/-- One method, up to the end of its line. -/
theorem method_matches (spec : MethodSpec) (hnew : ∀ m ∈ i.methods, m.name ≠ spec.name.text) :
    Matches Builder.apply Grammar.method (spec.print ++ '\n' :: rest)
      (b.within (some i) none .none []) ('\n' :: rest)
      (b.within (some (i.addMethod spec)) none .none []) := by
  have htext : spec.print ++ '\n' :: rest =
      spec.name.text.toList ++ (printDecorators spec.decorators ++ '(' :: (printArgs spec.params ++
        ')' :: ' ' :: (printReturns spec.returns ++ '\n' :: rest))) := by
    simp [MethodSpec.print]
  -- the name, which a blank or the parenthesis ends
  have hname : ∀ l, Matches Builder.apply methodName
      (spec.name.text.toList ++ (printDecorators spec.decorators ++ '(' :: l))
      (b.within (some i) none .none []) (printDecorators spec.decorators ++ '(' :: l)
      (b.within (some i) (some (Method.new spec.name.text)) .none []) := by
    intro l
    refine methodName_matches spec.name spec.name_ne hnew ?_
    cases spec.decorators with
    | nil => exact stops_cons _ (by decide)
    | cons dec decorators => exact stops_cons _ (by decide)
  have hdecorators : ∀ l, Matches Builder.apply (.opt methodDecoratorGroup.star)
      (spec.decorators.flatMap printDecorator ++ '(' :: l)
      (b.within (some i) (some (Method.new spec.name.text)) .none []) ('(' :: l)
      (b.within (some i) (some (Method.new spec.name.text)) .none spec.decoratorTexts) := fun l =>
    (methodDecorators_matches (d := []) spec.decorators spec.keys_nodup).opt
  -- the blank in front of the parenthesis went with the last decorator
  have hnone : ∀ (s : Builder) l, Matches Builder.apply methodWs ('(' :: l) s ('(' :: l) s :=
    fun s l => star_one_none (stops_cons _ (by decide))
  have hparams : ∀ l, Matches Builder.apply methodArgsGroup
      ('(' :: (printArgs spec.params ++ ')' :: l))
      (b.within (some i) (some (Method.new spec.name.text)) .none spec.decoratorTexts) l
      (b.within (some (i.countArgs (spec.params.map ArgSpec.argument)))
        (some (addArgs (spec.params.map ArgSpec.argument) (Method.new spec.name.text) .parameter))
        .none spec.decoratorTexts) := fun l =>
    argsGroup_matches spec.params (by decide) (fun _ => rfl) (fun _ => rfl)
  have hblank : ∀ (s : Builder), Matches Builder.apply methodWs
      (' ' :: (printReturns spec.returns ++ '\n' :: rest)) s
      (printReturns spec.returns ++ '\n' :: rest) s := by
    intro s
    refine star_one_single (by decide) ?_
    cases spec.returns with
    | none => exact stops_cons _ (by decide)
    | some returns => exact stops_cons _ (by decide)
  -- the end of the method decodes the decorators and adds it to the interface
  have hend : Matches Builder.apply (.seq methodWs methodEnd) ('\n' :: rest)
      (b.within (some ((i.countArgs (spec.params.map ArgSpec.argument)).countArgs
          ((spec.returns.getD []).map ArgSpec.argument)))
        (some (addArgs ((spec.returns.getD []).map ArgSpec.argument)
          { addArgs (spec.params.map ArgSpec.argument) (Method.new spec.name.text) .parameter with
            async := spec.returns.isNone } .ret)) .none spec.decoratorTexts)
      ('\n' :: rest) (b.within (some (i.addMethod spec)) none .none []) := by
    refine (star_one_none (stops_cons _ (by decide))).seq (Matches.act [] matches_success ?_)
    have hact : ∀ s : Builder, Builder.apply .methodEnd [] s = s.endMethod := fun _ => rfl
    rw [hact, Builder.endMethod_eq_ok]
    refine ⟨_, _, spec.identifier, rfl, rfl, ?_, ?_⟩
    · exact decodeIdentifier_eq spec rfl
    · rw [InterfaceDescription.addMethod, MethodSpec.arguments, List.map_append, countArgs_append]
      rfl
  rw [htext]
  exact (hname _).seq ((methodWs_decorators_matches _ _).seq ((hdecorators _).seq
    ((hnone _ _).seq ((hparams _).seq ((hblank _).seq
      ((methodReturnType_matches spec.returns).seq hend))))))

end Methods

end KushOs.Idl
