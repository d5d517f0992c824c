import KushOs.Idl.Parsing

/-!
# Parsing recovers what was declared

The members of an interface, interfaces and includes, and then whole files in the canonical layout.

## Main results

* `interface_matches`: an interface, which leaves a builder between two interfaces.
* `parse_print`: the parser yields the descriptions of the declared interfaces.
-/

namespace KushOs.Idl

open Peg Grammar

/-! ## Members of an interface -/

/-- The interface after methods have been added. -/
def InterfaceDescription.addMethods (i : InterfaceDescription) (specs : List MethodSpec) :
    InterfaceDescription :=
  { i.countArgs (specs.flatMap MethodSpec.arguments) with
    methods := i.methods ++ specs.map MethodSpec.method }

theorem addMethods_nil (i : InterfaceDescription) : i.addMethods [] = i := by
  simp [InterfaceDescription.addMethods]

theorem addMethods_cons (i : InterfaceDescription) (spec : MethodSpec) (specs : List MethodSpec) :
    i.addMethods (spec :: specs) = (i.addMethod spec).addMethods specs := by
  simp [InterfaceDescription.addMethods, InterfaceDescription.addMethod,
    InterfaceDescription.countArgs, customTypes, Nat.add_assoc]

section Members

variable {b : Builder} {i : InterfaceDescription} {rest : List Char}

/-- The text of a method starts with its name. -/
theorem MethodSpec.stops (spec : MethodSpec) {p : Char → Bool} (h : p spec.name.first = false)
    (rest : List Char) : Stops p (spec.print ++ rest) := by
  simp only [MethodSpec.print, List.append_assoc]
  exact spec.name.stops h _

/-- No member starts with the brace that ends an interface. -/
theorem interfaceMember_fails (s : Builder) :
    Fails Builder.apply interfaceMember ('}' :: rest) s := by
  have hws : Stops isWs ('}' :: rest) := stops_cons _ (by decide)
  have hempty : Fails Builder.apply emptyLine ([] ++ '}' :: rest) s :=
    emptyLine_fails (by simp) hws
  have hcomment : Fails Builder.apply comment ([] ++ '}' :: rest) s :=
    comment_fails (by simp) hws (stops_cons _ (by decide))
  have hname : Fails Builder.apply methodName ('}' :: rest) s :=
    Fails.act (Fails.seq (fails_one (stops_cons _ (by decide))))
  exact hempty.sor (hcomment.sor ((star_one_none hws).seq_fails hname.seq))

/-- An empty line is a member. -/
theorem interfaceMember_emptyLine (s : Builder) :
    Matches Builder.apply interfaceMember ('\n' :: rest) s rest s :=
  emptyLine_matches.sor_left

/-- A method is a member. -/
theorem interfaceMember_method (spec : MethodSpec)
    (hnew : ∀ m ∈ i.methods, m.name ≠ spec.name.text) :
    Matches Builder.apply interfaceMember ([' ', ' ', ' ', ' '] ++ (spec.print ++ '\n' :: rest))
      (b.within (some i) none .none []) ('\n' :: rest)
      (b.within (some (i.addMethod spec)) none .none []) := by
  have hws : Stops isWs (spec.print ++ '\n' :: rest) :=
    spec.stops (isWs_of_isIdentifierFirst spec.name.isFirst) _
  have hslash : Stops (· = '/') (spec.print ++ '\n' :: rest) :=
    spec.stops (decide_eq_false (isIdentifierFirst_ne spec.name.isFirst (by decide))) _
  have hblank : ∀ d ∈ [' ', ' ', ' ', ' '], d = ' ' := by simp
  -- the indentation is consumed by the last alternative, after the other two have given it back
  refine Matches.sor_right (Matches.sor_right ?_ ?_) ?_
  · refine (matches_star_one _ (fun d hd => ?_) hws).seq (method_matches spec hnew)
    rw [hblank d hd]
    rfl
  · refine comment_fails (fun d hd => ?_) hws hslash
    rw [hblank d hd]
    rfl
  · refine emptyLine_fails (fun d hd => ?_) hws
    rw [hblank d hd]
    rfl

/-- The lines of the methods, up to the brace that ends the interface. -/
theorem interfaceMembers_matches (specs : List MethodSpec)
    (hnodup : (i.methods.map Method.name ++ specs.map fun m => m.name.text).Nodup) :
    Matches Builder.apply interfaceMember.star (specs.flatMap MethodSpec.printLine ++ '}' :: rest)
      (b.within (some i) none .none []) ('}' :: rest)
      (b.within (some (i.addMethods specs)) none .none []) := by
  induction specs generalizing i with
  | nil =>
      rw [addMethods_nil]
      exact (interfaceMember_fails _).star
  | cons spec specs ih =>
      have hnew : ∀ m ∈ i.methods, m.name ≠ spec.name.text := by
        intro m hm
        exact (List.nodup_append.mp hnodup).2.2 _ (List.mem_map_of_mem hm) _ List.mem_cons_self
      -- the added method is one of those whose names are taken
      have hrest : ((i.addMethod spec).methods.map Method.name ++
          specs.map fun m => m.name.text).Nodup := by
        simpa [InterfaceDescription.addMethod, MethodSpec.method] using hnodup
      have htext : (spec :: specs).flatMap MethodSpec.printLine ++ '}' :: rest =
          [' ', ' ', ' ', ' '] ++ (spec.print ++ '\n' ::
            (specs.flatMap MethodSpec.printLine ++ '}' :: rest)) := by
        simp [MethodSpec.printLine]
      rw [htext, addMethods_cons]
      -- two rounds of the loop: the method, and the end of its line
      refine (interfaceMember_method spec hnew).star (by simp; omega) ?_
      exact (interfaceMember_emptyLine _).star (Nat.lt_succ_self _) (ih hrest)

end Members

/-! ## Interfaces and includes -/

/-- A builder between two interfaces. -/
def Builder.between (filename : String) (includes : List String)
    (allIds : List InterfaceDescription) : Builder where
  filename
  includes
  allIds

/-- The description of an interface before the includes are applied. -/
def InterfaceSpec.begun (filename : String) (spec : InterfaceSpec) : InterfaceDescription :=
  (InterfaceDescription.new spec.name.text filename).addMethods spec.methods

section Files

variable {filename : String} {includes : List String} {allIds : List InterfaceDescription}
  {rest : List Char}

/-- An interface starts with its keyword. -/
theorem interfaceStart_matches (id : Identifier) :
    Matches Builder.apply interfaceStart
      ("interface ".toList ++ (id.text.toList ++ ' ' :: '{' :: rest))
      (Builder.between filename includes allIds) rest
      ((Builder.between filename includes allIds).within
        (some (.new id.text filename)) none .none []) := by
  -- the keyword, the blanks, the name and the brace
  have hkeyword : ∀ (s : Builder) l, Matches Builder.apply (padl (keyword "interface"))
      ("interface".toList ++ ' ' :: l) s (' ' :: l) s := by
    intro s l
    have hstart : Stops isWs ("interface".toList ++ ' ' :: l) := stops_cons _ (by decide)
    exact (star_one_none hstart).seq
      ((matches_str _ _).seq (matches_notAt (stops_cons _ (by decide))))
  have hws : ∀ (s : Builder) l, Matches Builder.apply ws.plus (' ' :: (id.text.toList ++ l)) s
      (id.text.toList ++ l) s := fun s l =>
    (matches_one (by decide)).seq
      (star_one_none (id.stops (isWs_of_isIdentifierFirst id.isFirst) l))
  have hbegin : Builder.beginInterface (Builder.between filename includes allIds) id.text =
      .ok ((Builder.between filename includes allIds).within
        (some (.new id.text filename)) none .none []) :=
    Builder.beginInterface_eq_ok.mpr ⟨rfl, rfl⟩
  have hname : ∀ l, Matches Builder.apply interfaceName (id.text.toList ++ ' ' :: l)
      (Builder.between filename includes allIds) (' ' :: l)
      ((Builder.between filename includes allIds).within
        (some (.new id.text filename)) none .none []) := fun l =>
    (identifier_matches id (stops_cons _ (by decide))).act _
      ((Builder.apply_toList .interfaceName id.text _).trans hbegin)
  have hopen : ∀ s : Builder, Matches Builder.apply (.seq (.star ws) (char '{'))
      (' ' :: '{' :: rest) s rest s := fun s =>
    (star_one_single (by decide) (stops_cons _ (by decide))).seq char_matches
  have htext : "interface ".toList = "interface".toList ++ [' '] := rfl
  rw [htext, List.append_assoc]
  exact (hkeyword _ _).seq ((hws _ _).seq ((hname _).seq (hopen _)))

/-- An interface, up to something that is no white space. -/
theorem interface_matches (spec : InterfaceSpec) (hrest : Stops isWs rest) :
    Matches Builder.apply Grammar.interface (spec.print ++ rest)
      (Builder.between filename includes allIds) rest
      (Builder.between filename includes (allIds ++ [spec.begun filename])) := by
  have htext : spec.print ++ rest =
      "interface ".toList ++ (spec.name.text.toList ++ ' ' :: '{' :: '\n' ::
        (spec.methods.flatMap MethodSpec.printLine ++ '}' :: '\n' :: rest)) := by
    unfold InterfaceSpec.print
    simp only [List.append_assoc, List.cons_append, List.nil_append]
  -- the end of the first line is an empty line, and so are the ends of the other ones
  have hcontent : ∀ l, Matches Builder.apply interfaceContent
      ('\n' :: (spec.methods.flatMap MethodSpec.printLine ++ '}' :: l))
      ((Builder.between filename includes allIds).within
        (some (.new spec.name.text filename)) none .none []) ('}' :: l)
      ((Builder.between filename includes allIds).within
        (some (spec.begun filename)) none .none []) := fun l =>
    ((interfaceMember_emptyLine _).seq (interfaceMembers_matches
      (i := .new spec.name.text filename) spec.methods spec.names_nodup)).opt
  -- the padding of the brace takes the end of the last line
  have hend : Matches Builder.apply interfaceEnd (['}', '\n'] ++ rest)
      ((Builder.between filename includes allIds).within
        (some (spec.begun filename)) none .none []) rest
      (Builder.between filename includes (allIds ++ [spec.begun filename])) := by
    have hpad : ∀ s : Builder, Matches Builder.apply (pad (char '}')) ('}' :: '\n' :: rest) s
        rest s := fun s =>
      (star_one_none (stops_cons _ (by decide))).seq
        (char_matches.seq (star_one_single (by decide) hrest))
    have hclose : Builder.endInterface ((Builder.between filename includes allIds).within
        (some (spec.begun filename)) none .none []) =
        .ok (Builder.between filename includes (allIds ++ [spec.begun filename])) :=
      Builder.endInterface_eq_ok.mpr ⟨spec.begun filename, rfl, rfl⟩
    refine Matches.act _ (hpad _) ?_
    exact hclose
  rw [htext]
  exact (interfaceStart_matches spec.name).seq ((hcontent _).seq hend)

/-- The end of a file is no member of it. -/
theorem topLevel_fails (s : Builder) : Fails Builder.apply topLevel [] s := by
  have hempty : Fails Builder.apply emptyLine ([] ++ []) s :=
    emptyLine_fails (by simp) (stops_nil _)
  have hinclude : Fails Builder.apply «include» [] s := Fails.seq (fails_str (stops_nil _))
  have hcomment : Fails Builder.apply comment ([] ++ []) s :=
    comment_fails (by simp) (stops_nil _) (stops_nil _)
  have hstart : Fails Builder.apply (padl (keyword "interface")) [] s :=
    (star_one_none (stops_nil _)).seq_fails (Fails.seq (fails_str (stops_nil _)))
  exact hempty.sor (hinclude.sor (hcomment.sor (Fails.seq hstart.seq)))

/-- An interface is a member of a file. -/
theorem topLevel_interface (spec : InterfaceSpec) (hrest : Stops isWs rest) :
    Matches Builder.apply topLevel (spec.print ++ rest)
      (Builder.between filename includes allIds) rest
      (Builder.between filename includes (allIds ++ [spec.begun filename])) := by
  have hstops : ∀ p : Char → Bool, p 'i' = false → Stops p (spec.print ++ rest) := fun p hp =>
    stops_cons _ hp
  have hempty : ∀ s, Fails Builder.apply emptyLine ([] ++ (spec.print ++ rest)) s := fun s =>
    emptyLine_fails (by simp) (hstops _ (by decide))
  have hinclude : ∀ s, Fails Builder.apply «include» (spec.print ++ rest) s := fun s =>
    Fails.seq (fails_str (hstops _ (by decide)))
  have hcomment : ∀ s, Fails Builder.apply comment ([] ++ (spec.print ++ rest)) s := fun s =>
    comment_fails (by simp) (hstops _ (by decide)) (hstops _ (by decide))
  exact (((interface_matches spec hrest).sor_right (hcomment _)).sor_right (hinclude _)).sor_right
    (hempty _)

/-- An include is a member of a file. -/
theorem topLevel_include (path : IncludePath) :
    Matches Builder.apply topLevel (path.print ++ rest)
      (Builder.between filename includes allIds) rest
      (Builder.between filename (includes ++ [path.text]) allIds) := by
  have htext : path.print ++ rest =
      "#include".toList ++ ' ' :: '<' :: (path.text.toList ++ '>' :: '\n' :: rest) := by
    have hopen : "#include <".toList = "#include".toList ++ [' ', '<'] := rfl
    unfold IncludePath.print
    simp only [hopen, List.append_assoc, List.cons_append, List.nil_append]
  have hempty : ∀ s, Fails Builder.apply emptyLine ([] ++ (path.print ++ rest)) s := fun s =>
    emptyLine_fails (by simp) (stops_cons _ (by decide))
  have hblank : ∀ (s : Builder) l, Matches Builder.apply (.star blank) (' ' :: '<' :: l) s
      ('<' :: l) s := fun s l => star_one_single (by decide) (stops_cons _ (by decide))
  have hpath : ∀ l, Matches Builder.apply includePath (path.text.toList ++ '>' :: l)
      (Builder.between filename includes allIds) ('>' :: l)
      (Builder.between filename (includes ++ [path.text]) allIds) := fun l =>
    (matches_star_one _ path.isPath (stops_cons _ (by decide))).act _
      (Builder.apply_toList .includePath path.text _)
  have hcont : ∀ s : Builder, Matches Builder.apply includeCont ('\n' :: rest) s rest s := fun s =>
    (matches_str ['\n'] rest).sor_left.sor_left.skipTo_here
  refine Matches.sor_right (Matches.sor_left ?_) (hempty _)
  rw [htext]
  exact (matches_str _ _).seq ((hblank _ _).seq (char_matches.seq ((hpath _).seq
    (char_matches.seq (hcont _)))))

/-- The interfaces of a file. -/
theorem interfaces_matches (specs : List InterfaceSpec) :
    Matches Builder.apply topLevel.star (specs.flatMap InterfaceSpec.print)
      (Builder.between filename includes allIds) []
      (Builder.between filename includes (allIds ++ specs.map (InterfaceSpec.begun filename))) := by
  induction specs generalizing allIds with
  | nil =>
      rw [List.map_nil, List.append_nil]
      exact (topLevel_fails _).star
  | cons spec specs ih =>
      -- the next interface starts with its keyword
      have hrest : Stops isWs (specs.flatMap InterfaceSpec.print) := by
        cases specs with
        | nil => exact stops_nil _
        | cons spec specs => exact stops_cons _ (by decide)
      have hpos : 0 < spec.print.length := Nat.succ_pos _
      rw [List.flatMap_cons, List.map_cons, List.append_cons]
      exact (topLevel_interface spec hrest).star (by rw [List.length_append]; omega) ih

/-- The includes of a file, and its interfaces. -/
theorem includes_matches (paths : List IncludePath) (specs : List InterfaceSpec) :
    Matches Builder.apply topLevel.star
      (paths.flatMap IncludePath.print ++ specs.flatMap InterfaceSpec.print)
      (Builder.between filename includes []) []
      (Builder.between filename (includes ++ paths.map IncludePath.text)
        (specs.map (InterfaceSpec.begun filename))) := by
  induction paths generalizing includes with
  | nil =>
      rw [List.map_nil, List.append_nil]
      exact interfaces_matches specs
  | cons path paths ih =>
      have hpos : 0 < path.print.length := Nat.succ_pos _
      rw [List.flatMap_cons, List.append_assoc, List.map_cons, List.append_cons]
      exact (topLevel_include path).star (by simp only [List.length_append]; omega) ih

end Files

/-! ## Files -/

/-- A description whose includes have been applied. -/
theorem begun_includes (filename : String) (paths : List IncludePath) (spec : InterfaceSpec) :
    { spec.begun filename with includes := paths.map IncludePath.text } =
      spec.description filename paths := by
  simp [InterfaceSpec.begun, InterfaceSpec.description, InterfaceDescription.addMethods,
    InterfaceDescription.countArgs, InterfaceDescription.new]

/-- The flag for custom types is set exactly when some argument has one. -/
theorem hasCustomTypes_description (filename : String) (paths : List IncludePath)
    (spec : InterfaceSpec) :
    (spec.description filename paths).hasCustomTypes = true ↔
      ∃ m ∈ spec.methods, ∃ a ∈ m.arguments, a.type.isBuiltin = false := by
  have hcount : (spec.description filename paths).hasCustomTypes = true ↔
      0 < customTypes (spec.methods.flatMap MethodSpec.arguments) := by
    rw [InterfaceDescription.hasCustomTypes, decide_eq_true_iff, Nat.pos_iff_ne_zero]
    rfl
  rw [hcount, customTypes, List.countP_pos_iff]
  constructor
  · rintro ⟨a, ha, htype⟩
    obtain ⟨m, hm, ham⟩ := List.mem_flatMap.mp ha
    exact ⟨m, hm, a, ham, by simpa using htype⟩
  · rintro ⟨m, hm, a, ham, htype⟩
    exact ⟨a, List.mem_flatMap.mpr ⟨m, hm, ham⟩, by simpa using htype⟩

/-- The parser recovers what was declared: the descriptions of the interfaces, in their order, with
all the includes; and their flags for custom types are set where there is a custom type. -/
theorem parse_print (filename : String) (includes : List IncludePath)
    (interfaces : List InterfaceSpec) :
    parse filename (printFile includes interfaces) =
        .ok (interfaces.map (InterfaceSpec.description filename includes)) ∧
      ∀ i ∈ interfaces, ((i.description filename includes).hasCustomTypes = true ↔
        ∃ m ∈ i.methods, ∃ a ∈ m.arguments, a.type.isBuiltin = false) := by
  refine ⟨?_, fun i _ => hasCustomTypes_description filename includes i⟩
  have hfile : Matches Builder.apply topLevel.star (printFile includes interfaces)
      (Builder.between filename [] []) [] (Builder.between filename (includes.map IncludePath.text)
        (interfaces.map (InterfaceSpec.begun filename))) := includes_matches includes interfaces
  have hrun : Grammar.grammar.run Builder.apply (printFile includes interfaces) { filename } =
      .matched [] (Builder.between filename (includes.map IncludePath.text)
        (interfaces.map (InterfaceSpec.begun filename))) := hfile.must.seq matches_eof.must
  rw [parse, hrun]
  show Except.ok (Builder.finalize _) = _
  rw [Builder.finalize]
  simp [Builder.between, begun_includes]

end KushOs.Idl
