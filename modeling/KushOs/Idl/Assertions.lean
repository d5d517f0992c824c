import KushOs.Idl.Backtracking

/-!
# The assertions of the builder

The order in which the grammar fires its actions is the order that the assertions of the builder ask
for: a group of arguments is opened in a method, a method in an interface, and the pieces of an
argument are there when it is pushed. One assertion does not hold for every text, because the value
of a decorator may be empty.

What can be refused is described by a checker, which knows neither interfaces nor arguments, only
names of methods and decorators. The builder and the checker go through a text in step.

## Main definitions

* `Checker`: the checks on names and decorators, with an error of its own for empty values.
* `InPhase`: how far the builder is, and that the checker agrees with it.
* `ParsesSafely`: a parse that ends without an assertion and without traces of rejected
  alternatives.

## Main results

* `grammar_inPhase`: the builder and the checker come to the same end.
* `parsesSafely_iff`: exactly the texts in which no decorator without a value is reached are parsed
  safely.
* `parsesSafely_not_empty`: a text that is not.
-/

namespace KushOs.Idl

open Peg Grammar

/-! ## The checker -/

/-- Why a text is refused. -/
inductive CheckError
  /-- A name, a key or a number is not allowed. -/
  | refused
  /-- A decorator has no value. -/
  | emptyValue
  deriving DecidableEq, Repr

/-- What has been read of an interface: the names of its methods, the method and the decorator that
are being read, and the decorators of the method. -/
structure Checker where
  names : List String := []
  name : String := ""
  key : String := ""
  value : String := ""
  decorators : List (String × String) := []

namespace Checker

/-- Names of methods are new and do not start with an underscore. -/
def checkName (c : Checker) (name : String) : Except CheckError Checker :=
  if name.toList.head? = some '_' ∨ name ∈ c.names then .error .refused
  else .ok { c with name }

/-- The decorator `identifier` is a number. -/
def checkIdentifier (c : Checker) : Except CheckError Checker :=
  match (c.decorators.lookup "identifier").map stoull with
  | some (.error _) => .error .refused
  | _ => .ok { c with names := c.names ++ [c.name], decorators := [] }

/-- Decorators have values, and new keys. -/
def checkDecorator (c : Checker) : Except CheckError Checker :=
  if c.value = "" then .error .emptyValue
  else if (c.decorators.lookup c.key).isSome then .error .refused
  else .ok { c with decorators := c.decorators ++ [(c.key, c.value)], key := "", value := "" }

/-- The checks for the text of a rule. -/
def act (c : Checker) (string : String) : Action → Except CheckError Checker
  | .interfaceName => .ok { c with names := [] }
  | .methodName => c.checkName string
  | .methodEnd => c.checkIdentifier
  | .decoratorKey => .ok { c with key := string }
  | .decoratorValue => .ok { c with value := string }
  | .decoratorClose => c.checkDecorator
  | _ => .ok c

/-- The checks, on characters. -/
def apply (a : Action) (text : List Char) (c : Checker) : Except CheckError Checker :=
  c.act (String.ofList text) a

end Checker

/-- The first thing that is wrong with a text is a decorator without a value. -/
def ReachesEmptyValue (text : List Char) : Prop :=
  Grammar.grammar.run Checker.apply text {} = .raised (.exception .emptyValue)

/-- Exceptions of the builder are refusals of the checker; an assertion fails for an empty value
only. -/
inductive ErrorsMatch : BuildError → CheckError → Prop
  | runtimeError (what : String) : ErrorsMatch (.runtimeError what) .refused
  | invalidArgument : ErrorsMatch .invalidArgument .refused
  | outOfRange : ErrorsMatch .outOfRange .refused
  | assertion : ErrorsMatch .assertion .emptyValue

/-! ## Phases -/

/-- How far the builder is. -/
structure Phase where
  inInterface : Bool
  inMethod : Bool
  context : ArgContext

namespace Phase

def between : Phase := ⟨false, false, .none⟩
def inside : Phase := ⟨true, false, .none⟩
def method : Phase := ⟨true, true, .none⟩
def args (context : ArgContext) : Phase := ⟨true, true, context⟩

end Phase

/-- The builder is in a phase, and the checker has seen the same names and decorators. -/
structure InPhase (p : Phase) (b : Builder) (c : Checker) : Prop where
  interface : b.current.isSome = p.inInterface
  method : b.currentMethod.isSome = p.inMethod
  context : b.argContext = p.context
  names : ∀ i ∈ b.current, i.methods.map Method.name = c.names
  name : ∀ m ∈ b.currentMethod, m.name = c.name
  key : b.nextDecoratorKey = c.key
  value : b.nextDecoratorValue = c.value
  decorators : b.decorators = c.decorators

/-- Nothing is known about the states. -/
def Anything (_ : Builder) (_ : Checker) : Prop := True

/-- From states related by `P`, a rule takes the builder and the checker to states related by `Q`,
or fails in states related by `F`. -/
abbrev Steps (P : Builder → Checker → Prop) (r : G) (Q F : Builder → Checker → Prop) : Prop :=
  Triple Builder.apply Checker.apply ErrorsMatch P r Q F

/-- The outcomes of an action of the builder and of the checker. -/
abbrev ActsAlike (Q : Builder → Checker → Prop) :
    Except BuildError Builder → Except CheckError Checker → Prop :=
  RelatedActions ErrorsMatch Q

section Actions

variable {b : Builder} {c : Checker} {p : Phase} {string : String} {context : ArgContext}

/-- A text with a character is no empty string. -/
theorem ofList_ne_empty {text : List Char} (h : text ≠ []) : String.ofList text ≠ "" := by
  intro hempty
  have hlist := congrArg String.toList hempty
  rw [String.toList_ofList] at hlist
  exact h hlist

/-- The interface that is being built. -/
theorem InPhase.exists_current (h : InPhase p b c) (hp : p.inInterface = true) :
    ∃ i, b.current = some i ∧ i.methods.map Method.name = c.names := by
  obtain ⟨i, hi⟩ := Option.isSome_iff_exists.mp (h.interface.trans hp)
  exact ⟨i, hi, h.names i hi⟩

/-- The method that is being built. -/
theorem InPhase.exists_method (h : InPhase p b c) (hp : p.inMethod = true) :
    ∃ m, b.currentMethod = some m ∧ m.name = c.name := by
  obtain ⟨m, hm⟩ := Option.isSome_iff_exists.mp (h.method.trans hp)
  exact ⟨m, hm, h.name m hm⟩

/-- Outside of an interface the Builder has none. -/
theorem InPhase.current_eq_none (h : InPhase p b c) (hp : p.inInterface = false) :
    b.current = none := by
  rw [← Option.not_isSome_iff_eq_none, h.interface, hp]
  exact Bool.false_ne_true

/-- Outside of a method the Builder has none. -/
theorem InPhase.currentMethod_eq_none (h : InPhase p b c) (hp : p.inMethod = false) :
    b.currentMethod = none := by
  rw [← Option.not_isSome_iff_eq_none, h.method, hp]
  exact Bool.false_ne_true

/-- An interface begins between two of them, for both. -/
theorem beginInterface_alike (h : InPhase .between b c) :
    ActsAlike (InPhase .inside) (b.beginInterface string) (c.act string .interfaceName) := by
  rw [Builder.beginInterface_eq_ok.mpr ⟨h.current_eq_none rfl, rfl⟩]
  refine .ok { h with interface := rfl, names := ?_ }
  rintro i ⟨⟩
  rfl

/-- It ends inside, for both. -/
theorem endInterface_alike (h : InPhase .inside b c) :
    ActsAlike (InPhase .between) b.endInterface (c.act string .interfaceEnd) := by
  obtain ⟨i, hi, -⟩ := h.exists_current rfl
  rw [Builder.endInterface_eq_ok.mpr ⟨i, hi, rfl⟩]
  exact .ok { h with interface := rfl, names := by simp }

/-- A method that is refused is one with an underscore or a known name. -/
theorem beginMethod_refuses {i : InterfaceDescription} (hi : b.current = some i)
    (hnone : b.currentMethod = none)
    (hrefused : string.toList.head? = some '_' ∨ ∃ m ∈ i.methods, m.name = string) :
    ∃ what, b.beginMethod string = .error (.runtimeError what) := by
  unfold Builder.beginMethod
  rw [hi, hnone]
  by_cases hunderscore : string.toList.head? = some '_'
  · exact ⟨_, if_pos hunderscore⟩
  · obtain ⟨m, hm, hname⟩ := hrefused.resolve_left hunderscore
    exact ⟨_, (if_neg hunderscore).trans
      (if_pos (List.any_eq_true.mpr ⟨m, hm, decide_eq_true hname⟩))⟩

/-- The checks of `beginMethod` are those of the checker. -/
theorem beginMethod_alike (h : InPhase .inside b c) :
    ActsAlike (InPhase .method) (b.beginMethod string) (c.act string .methodName) := by
  obtain ⟨i, hi, hnames⟩ := h.exists_current rfl
  have hnone := h.currentMethod_eq_none rfl
  have hmem : string ∈ c.names ↔ ∃ m ∈ i.methods, m.name = string := by
    rw [← hnames, List.mem_map]
  show ActsAlike _ _ (c.checkName string)
  unfold Checker.checkName
  by_cases hrefused : string.toList.head? = some '_' ∨ string ∈ c.names
  · rw [if_pos hrefused]
    obtain ⟨what, hwhat⟩ := beginMethod_refuses hi hnone (hrefused.imp_right hmem.mp)
    rw [hwhat]
    exact .error (.runtimeError what)
  · rw [if_neg hrefused]
    obtain ⟨hunderscore, hnew⟩ := not_or.mp hrefused
    have hnames : ∀ m ∈ i.methods, m.name ≠ string := fun m hm hname =>
      hnew (hmem.mpr ⟨m, hm, hname⟩)
    rw [Builder.beginMethod_eq_ok.mpr ⟨i, hi, hnone, hunderscore, hnames, rfl⟩]
    refine .ok { h with method := rfl, name := ?_ }
    rintro m ⟨⟩
    rfl

/-- Whether a method is asynchronous is set in it. -/
theorem setMethodAsync_alike (h : InPhase .method b c) {isAsync : Bool} :
    ActsAlike (InPhase .method) (b.setMethodAsync isAsync) (.ok c) := by
  obtain ⟨m, hm, hname⟩ := h.exists_method rfl
  rw [Builder.setMethodAsync_eq_ok.mpr ⟨m, hm, rfl⟩]
  refine .ok { h with method := rfl, name := ?_ }
  rintro m' ⟨⟩
  exact hname

/-- The errors of `stoull` are refusals. -/
theorem errorsMatch_stoull {value : String} {e : BuildError} (h : stoull value = .error e) :
    ErrorsMatch e .refused := by
  unfold stoull at h
  dsimp only at h
  split at h
  · cases h
    exact .invalidArgument
  · split at h
    · cases h
    · cases h
      exact .outOfRange

/-- A method whose identifier cannot be decoded does not end. -/
theorem endMethod_of_error {i : InterfaceDescription} {m : Method} {e : BuildError}
    (hi : b.current = some i) (hm : b.currentMethod = some m)
    (he : Builder.decodeIdentifier b.decorators m = .error e) : b.endMethod = .error e := by
  unfold Builder.endMethod
  rw [hi, hm]
  dsimp only
  rw [he]
  rfl

/-- A method ends for both, or for neither. -/
theorem endMethod_alike (h : InPhase .method b c) :
    ActsAlike (InPhase .inside) b.endMethod (c.act string .methodEnd) := by
  obtain ⟨i, hi, hnames⟩ := h.exists_current rfl
  obtain ⟨m, hm, hname⟩ := h.exists_method rfl
  -- whatever the identifier is, the method is added
  have hadded : ∀ identifier, Builder.decodeIdentifier b.decorators m = .ok identifier →
      ActsAlike (InPhase .inside) b.endMethod
        (.ok { c with names := c.names ++ [c.name], decorators := [] }) := by
    intro identifier hid
    rw [Builder.endMethod_eq_ok.mpr ⟨i, m, identifier, hi, hm, hid, rfl⟩]
    refine .ok { h with
      interface := rfl, method := rfl, decorators := rfl, names := ?_, name := by simp }
    rintro i' ⟨⟩
    rw [List.map_append, hnames, List.map_singleton, hname]
  show ActsAlike _ _ c.checkIdentifier
  unfold Checker.checkIdentifier
  rw [← h.decorators]
  cases hlookup : b.decorators.lookup "identifier" with
  | none => exact hadded m.identifier (by rw [Builder.decodeIdentifier, hlookup])
  | some value =>
      have hdecode : Builder.decodeIdentifier b.decorators m = stoull value := by
        rw [Builder.decodeIdentifier, hlookup]
      rw [Option.map_some]
      cases hvalue : stoull value with
      | ok identifier => exact hadded identifier (hdecode.trans hvalue)
      | error e =>
          rw [endMethod_of_error hi hm (hdecode.trans hvalue)]
          exact .error (errorsMatch_stoull hvalue)

/-- A list of arguments begins in a method. -/
theorem beginArgs_alike (h : InPhase .method b c) :
    ActsAlike (InPhase (.args context)) (b.beginArgs context) (.ok c) := by
  rw [Builder.beginArgs_eq_ok.mpr ⟨h.interface, h.method, h.context, rfl⟩]
  exact .ok { h with interface := h.interface, method := h.method, context := rfl }

/-- It ends where it began. -/
theorem endArgs_alike (h : InPhase (.args context) b c) :
    ActsAlike (InPhase .method) (b.endArgs context) (.ok c) := by
  have hend : b.endArgs context = .ok { b with argContext := .none } :=
    Builder.endArgs_eq_ok.mpr ⟨h.interface, h.method, h.context, rfl⟩
  rw [hend]
  exact .ok { h with interface := h.interface, method := h.method, context := rfl }

/-- Only the counter of an interface changes with an argument. -/
theorem countType_ok (h : InPhase (.args context) b c) (arg : Argument) :
    ∃ current, b.countType arg = .ok current ∧ current.isSome = true ∧
      ∀ i ∈ current, i.methods.map Method.name = c.names := by
  obtain ⟨i, hi, hnames⟩ := h.exists_current rfl
  unfold Builder.countType
  rw [hi]
  split
  · refine ⟨_, rfl, rfl, ?_⟩
    rintro i' ⟨⟩
    exact hnames
  · refine ⟨_, rfl, rfl, ?_⟩
    rintro i' ⟨⟩
    exact hnames

/-- An argument with a name and a type can be added to the list. -/
theorem pushNextArg_alike (h : InPhase (.args context) b c) (hcontext : context ≠ .none)
    (hname : b.nextArgName ≠ "") (htype : b.nextArgTypename ≠ "") :
    ActsAlike (InPhase (.args context)) b.pushNextArg (.ok c) := by
  obtain ⟨m, hm, hmname⟩ := h.exists_method rfl
  obtain ⟨current, hcount, hsome, hnames⟩ :=
    countType_ok h (.ofNames b.nextArgName b.nextArgTypename)
  rw [Builder.pushNextArg_eq_ok.mpr
    ⟨m, current, hm, fun hnone => hcontext (h.context.symm.trans hnone), hname, htype, hcount, rfl⟩]
  refine .ok { h with interface := hsome, method := rfl, names := hnames, name := ?_ }
  rintro m' ⟨⟩
  cases b.argContext <;> exact hmname

/-- The assertion on the value is the only one that can fail here. -/
theorem pushNextDecorator_alike (h : InPhase .method b c) (hkey : b.nextDecoratorKey ≠ "") :
    ActsAlike (InPhase .method) b.pushNextDecorator (c.act string .decoratorClose) := by
  show ActsAlike _ _ c.checkDecorator
  unfold Checker.checkDecorator
  rw [← h.value, ← h.key, ← h.decorators]
  by_cases hvalue : b.nextDecoratorValue = ""
  -- the value is what its rule matched, which may be nothing
  · have hassert : b.pushNextDecorator = .error .assertion := by
      unfold Builder.pushNextDecorator
      rw [decide_eq_true hkey, hvalue]
      rfl
    rw [if_pos hvalue, hassert]
    exact .error .assertion
  · rw [if_neg hvalue]
    cases hlookup : b.decorators.lookup b.nextDecoratorKey with
    | none =>
        rw [Builder.pushNextDecorator_eq_ok.mpr ⟨hkey, hvalue, hlookup, rfl⟩]
        exact .ok { h with key := rfl, value := rfl, decorators := rfl }
    | some old =>
        -- a second decorator with the key is reported by both
        have hduplicate : b.pushNextDecorator =
            .error (.runtimeError "Duplicate decorator key") := by
          unfold Builder.pushNextDecorator
          rw [decide_eq_true hkey, decide_eq_true hvalue, hlookup]
          rfl
        rw [hduplicate]
        exact .error (.runtimeError _)

end Actions

/-! ## The rules of the grammar -/

/-- The key of a decorator has been read. -/
def Keyed (b : Builder) (c : Checker) : Prop := InPhase .method b c ∧ b.nextDecoratorKey ≠ ""

/-- The name of an argument has been read. -/
def Named (context : ArgContext) (b : Builder) (c : Checker) : Prop :=
  InPhase (.args context) b c ∧ b.nextArgName ≠ ""

/-- The name and the type of an argument have been read. -/
def Typed (context : ArgContext) (b : Builder) (c : Checker) : Prop :=
  Named context b c ∧ b.nextArgTypename ≠ ""

section Steps

variable {context : ArgContext}

/-- An action whose rule consumes something. -/
theorem steps_act {P Q : Builder → Checker → Prop} {a : Action} {r : G} (hr : r.silent = true)
    (h : ∀ string b c, (r.consuming = true → string ≠ "") → P b c →
      ActsAlike Q (b.act string a) (c.act string a)) : Steps P (.act a r) Q P :=
  Triple.act hr fun text b c htext hP =>
    h (String.ofList text) b c (fun hc => ofList_ne_empty (htext hc)) hP

/-- A rule without actions keeps the phase. -/
theorem silent_steps {P : Builder → Checker → Prop} {r : G} (hr : r.silent = true) :
    Steps P r P Anything :=
  (Triple.silent P hr).fails_imp fun _ _ _ => trivial

/-- The pieces of an argument are there when it is pushed. -/
theorem methodArg_steps (hcontext : context ≠ .none) :
    Steps (InPhase (.args context)) methodArg (InPhase (.args context))
      (InPhase (.args context)) := by
  have hname : Steps (InPhase (.args context)) methodArgName (Named context)
      (InPhase (.args context)) :=
    steps_act rfl fun string b c hne h => .ok ⟨{ h with }, hne rfl⟩
  have htype : Steps (Named context) methodArgType (Typed context) (Named context) :=
    steps_act rfl fun string b c hne h => .ok ⟨⟨{ h.1 with }, h.2⟩, hne rfl⟩
  have hend : Steps (Typed context) methodArgEnd (InPhase (.args context)) (Typed context) :=
    steps_act rfl fun string b c _ h => pushNextArg_alike h.1.1 hcontext h.1.2 h.2
  have hrest : Steps (Named context) (.seq methodArgSep (.seq methodArgType methodArgEnd))
      (InPhase (.args context)) (Named context) :=
    (Triple.silent _ rfl).seq (htype.seq (hend.fails_imp fun _ _ h => h.1))
  exact hname.seq (hrest.fails_imp fun _ _ h => h.1)

/-- A list of arguments stays in its phase. -/
theorem methodArgs_steps (hcontext : context ≠ .none) {F : Builder → Checker → Prop} :
    Steps (InPhase (.args context)) methodArgs (InPhase (.args context)) F := by
  have hnext : Steps (InPhase (.args context)) (.seq methodNextArgSep methodNextArg)
      (InPhase (.args context)) (InPhase (.args context)) :=
    (Triple.silent _ rfl).seq (methodArg_steps hcontext)
  exact ((methodArg_steps hcontext).seq hnext.star).opt

/-- A group of arguments opens its context and closes it again. -/
theorem argsGroup_steps (opens closes : Action) (hcontext : context ≠ .none)
    (hopens : ∀ string b c, InPhase .method b c →
      ActsAlike (InPhase (.args context)) (Builder.act b string opens) (c.act string opens))
    (hcloses : ∀ string b c, InPhase (.args context) b c →
      ActsAlike (InPhase .method) (Builder.act b string closes) (c.act string closes))
    {F : Builder → Checker → Prop} :
    Steps (InPhase .method) (.seq (.must (.act opens (char '('))) (.seq (.must methodArgs)
      (.must (.act closes (char ')'))))) (InPhase .method) F := by
  have hopen : Steps (InPhase .method) (.act opens (char '(')) (InPhase (.args context))
      (InPhase .method) := steps_act rfl fun string b c _ h => hopens string b c h
  have hclose : Steps (InPhase (.args context)) (.act closes (char ')')) (InPhase .method)
      (InPhase (.args context)) := steps_act rfl fun string b c _ h => hcloses string b c h
  have hargs : Steps (InPhase (.args context)) methodArgs (InPhase (.args context)) Anything :=
    methodArgs_steps hcontext
  exact hopen.must.seq (hargs.must.seq hclose.must)

/-- A decorator, which is pushed with a key. -/
theorem methodDecoratorGroup_steps :
    Steps (InPhase .method) methodDecoratorGroup (InPhase .method) (InPhase .method) := by
  have hkey : Steps (InPhase .method) decoratorKey Keyed (InPhase .method) :=
    steps_act rfl fun string b c hne h => .ok ⟨{ h with key := rfl }, hne rfl⟩
  have hvalue : Steps Keyed decoratorValue Keyed Keyed :=
    steps_act rfl fun string b c _ h => .ok ⟨{ h.1 with value := rfl }, h.2⟩
  have hclose : Steps Keyed decoratorClose (InPhase .method) Keyed :=
    steps_act rfl fun string b c _ h => pushNextDecorator_alike h.1 h.2
  have hcontent : Steps (InPhase .method) decoratorContent Keyed (InPhase .method) :=
    hkey.seq (((Triple.silent _ rfl).seq hvalue).fails_imp fun _ _ h => h.1)
  have hrest : Steps Keyed (.seq decoratorClose decoratorWs) (InPhase .method) (InPhase .method) :=
    (hclose.fails_imp fun _ _ h => h.1).seq (Triple.silent _ rfl)
  exact (Triple.silent _ rfl).seq (hcontent.seq hrest)

theorem params_ne_none : ArgContext.parameter ≠ .none := by decide

theorem returns_ne_none : ArgContext.ret ≠ .none := by decide

/-- The returned values come back to the method. -/
theorem methodReturnType_steps :
    Steps (InPhase .method) methodReturnType (InPhase .method) Anything := by
  have hasync : Steps (InPhase .method) methodAsyncReturnMarker (InPhase .method)
      (InPhase .method) := steps_act rfl fun string b c _ h => setMethodAsync_alike h
  have hmarker : Steps (InPhase .method) methodSyncReturnMarker (InPhase .method)
      (InPhase .method) := steps_act rfl fun string b c _ h => setMethodAsync_alike h
  have hws : Steps (InPhase .method) methodWs (InPhase .method) (InPhase .method) :=
    Triple.silent _ rfl
  have hreturn : Steps (InPhase .method) methodReturn (InPhase .method) Anything :=
    argsGroup_steps .methodReturnOpen .methodReturnClose returns_ne_none
      (fun _ _ _ h => beginArgs_alike h) fun _ _ _ h => endArgs_alike h
  exact hasync.sor (hmarker.must.seq (hws.must.seq hreturn.must))

/-- A method fails at its name or not at all. -/
theorem method_steps : Steps (InPhase .inside) method (InPhase .inside) (InPhase .inside) := by
  have hname : Steps (InPhase .inside) methodName (InPhase .method) (InPhase .inside) :=
    steps_act rfl fun string b c _ h => beginMethod_alike h
  have hws : Steps (InPhase .method) methodWs (InPhase .method) Anything := silent_steps rfl
  have hparams : Steps (InPhase .method) methodArgsGroup (InPhase .method) Anything :=
    argsGroup_steps .methodArgsOpen .methodArgsClose params_ne_none
      (fun _ _ _ h => beginArgs_alike h) fun _ _ _ h => endArgs_alike h
  have hend : Steps (InPhase .method) methodEnd (InPhase .inside) (InPhase .method) :=
    steps_act rfl fun string b c _ h => endMethod_alike h
  have hrest := hws.seq (methodDecoratorGroup_steps.star.opt.seq (hws.seq (hparams.seq
    (hws.seq (methodReturnType_steps.seq (hws.seq (hend.fails_imp fun _ _ _ => trivial)))))))
  exact hname.seq (hrest.of_total rfl)

/-- The members of an interface. -/
theorem interfaceContent_steps :
    Steps (InPhase .inside) interfaceContent (InPhase .inside) Anything := by
  have hmember : Steps (InPhase .inside) interfaceMember (InPhase .inside) (InPhase .inside) :=
    (Triple.silent _ rfl).sor ((Triple.silent _ rfl).sor ((Triple.silent _ rfl).seq method_steps))
  exact (hmember.seq hmember.star).opt

/-- An interface comes back to where it began. -/
theorem interface_steps :
    Steps (InPhase .between) Grammar.interface (InPhase .between) Anything := by
  have hname : Steps (InPhase .between) interfaceName (InPhase .inside) (InPhase .between) :=
    steps_act rfl fun string b c _ h => beginInterface_alike h
  have hstart : Steps (InPhase .between) interfaceStart (InPhase .inside) Anything :=
    (silent_steps rfl).seq ((silent_steps rfl).seq ((hname.fails_imp fun _ _ _ => trivial).seq
      (silent_steps rfl)))
  have hend : Steps (InPhase .inside) interfaceEnd (InPhase .between) (InPhase .inside) :=
    steps_act rfl fun string b c _ h => endInterface_alike h
  exact hstart.seq (interfaceContent_steps.seq (hend.fails_imp fun _ _ _ => trivial))

/-- An include stays between the interfaces, even when it fails. -/
theorem include_steps :
    Steps (InPhase .between) «include» (InPhase .between) (InPhase .between) := by
  have hpath : Steps (InPhase .between) includePath (InPhase .between) (InPhase .between) :=
    steps_act rfl fun string b c _ h => .ok { h with }
  exact (Triple.silent _ rfl).seq ((Triple.silent _ rfl).seq ((Triple.silent _ rfl).seq
    (hpath.seq (Triple.silent _ rfl))))

/-- The builder and the checker go through a text in step. -/
theorem grammar_inPhase : Steps (InPhase .between) Grammar.grammar Anything Anything := by
  have hitem : Steps (InPhase .between) topLevel (InPhase .between) Anything :=
    (Triple.silent _ rfl).sor (include_steps.sor ((Triple.silent _ rfl).sor interface_steps))
  have hitems : Steps (InPhase .between) topLevel.star Anything Anything :=
    Triple.star hitem
  exact hitems.must.seq (Triple.silent _ rfl)

end Steps

/-! ## Safe parses -/

/-- The errors that the builder throws, as opposed to the ones that end the program. -/
def BuildError.Thrown : BuildError → Prop
  | .runtimeError _ => True
  | .invalidArgument => True
  | .outOfRange => True
  | .assertion => False
  | .nullPointer => False

/-- A parse ends by accepting, by a parse error or by an exception. -/
def EndsSafely : Result Char BuildError Builder → Prop
  | .matched _ _ => True
  | .raised .parse => True
  | .raised (.exception e) => e.Thrown
  | .noMatch _ => False
  | .diverged => False

/-- No assertion fails while the text is parsed, and what rejected alternatives have done is not in
an accepted result. -/
structure ParsesSafely (filename : String) (text : List Char) : Prop where
  ends : EndsSafely (Grammar.grammar.run Builder.apply text { filename })
  undone : ∀ rest b, Grammar.grammar.run Builder.apply text { filename } = .matched rest b →
    Grammar.grammar.runUndo Builder.apply text { filename } = .matched rest b

/-- An outcome that is related to one of the checker is safe unless the checker has come upon an
empty value. -/
theorem endsSafely_iff {x : Result Char BuildError Builder} {y : Result Char CheckError Checker}
    {Q F : Builder → Checker → Prop} (h : Related ErrorsMatch Q F x y)
    (hmatch : ∀ b, x ≠ .noMatch b) (hends : x ≠ .diverged) :
    EndsSafely x ↔ y ≠ .raised (.exception .emptyValue) := by
  cases h with
  | matched rest hQ => exact iff_of_true trivial fun h => nomatch h
  | noMatch => exact absurd rfl (hmatch _)
  | parse => exact iff_of_true trivial fun h => nomatch h
  | diverged => exact absurd rfl hends
  | exception hE =>
      cases hE with
      | runtimeError what => exact iff_of_true trivial fun h => nomatch h
      | invalidArgument => exact iff_of_true trivial fun h => nomatch h
      | outOfRange => exact iff_of_true trivial fun h => nomatch h
      | assertion => exact iff_of_false id fun h => h rfl

/-- The parse starts between the interfaces. -/
theorem inPhase_initial (filename : String) : InPhase .between { filename } {} where
  interface := rfl
  method := rfl
  context := rfl
  names := by simp
  name := by simp
  key := rfl
  value := rfl
  decorators := rfl

/-- A text is parsed safely exactly when no decorator without a value is reached: none stands in
front of the first place at which the grammar is broken or something is refused. -/
theorem parsesSafely_iff (filename : String) (text : List Char) :
    ParsesSafely filename text ↔ ¬ReachesEmptyValue text := by
  have hrelated := grammar_inPhase text { filename } {} (inPhase_initial filename)
  have hends := endsSafely_iff hrelated (fun b => Rule.run_ne_noMatch _ rfl)
    (Rule.run_ne_diverged _ rfl)
  -- rejected alternatives leave nothing behind, whether or not a value is empty
  have hundone : ∀ rest b,
      Grammar.grammar.run Builder.apply text { filename } = .matched rest b →
        Grammar.grammar.runUndo Builder.apply text { filename } = .matched rest b := by
    intro rest b hrun
    have hbacktracks : Backtracks Builder.apply Grammar.grammar Nowhere Nowhere :=
      grammar_backtracks
    have hboth := hbacktracks text { filename }
    rw [hrun] at hboth
    generalize Grammar.grammar.runUndo Builder.apply text { filename } = y at hboth ⊢
    cases hboth with
    | matched => rfl
    | lostMatch _ _ hlost => exact hlost.elim
  exact ⟨fun h => hends.mp h.ends, fun h => ⟨hends.mpr h, hundone⟩⟩

/-- The error that ends a parse is the one that the grammar has come to. -/
theorem run_of_parse {filename : String} {text : List Char} {e : Peg.Error BuildError}
    (h : parse filename text = .error (.raised e)) :
    Grammar.grammar.run Builder.apply text { filename } = .raised e := by
  unfold parse at h
  generalize Grammar.grammar.run Builder.apply text { filename } = x at h ⊢
  cases x with
  | raised e' =>
      cases h
      rfl
  | matched rest b => cases h
  | noMatch b => cases h
  | diverged => cases h

/-- A method whose decorator has no value. -/
def emptyValueText : String := "interface Hello \x7b\n    poke [identifier=] () =|\n\x7d\n"

/-- The assertion on the value of the decorator fails. -/
theorem parsesSafely_not_empty :
    parse "hello.idl" emptyValueText.toList = .error (.raised (.exception .assertion)) ∧
      ¬ParsesSafely "hello.idl" emptyValueText.toList := by
  have hparse : parse "hello.idl" emptyValueText.toList =
      .error (.raised (.exception .assertion)) := by decide +kernel
  refine ⟨hparse, fun h => ?_⟩
  have hends := h.ends
  rw [run_of_parse hparse] at hends
  exact hends

end KushOs.Idl
