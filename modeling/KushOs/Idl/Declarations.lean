import KushOs.Idl.Grammar
import Mathlib.Data.List.Forall2
import Mathlib.Data.List.Nodup

/-!
# What a file declares

The methods that the interfaces of a file declare, read off the text by the same grammar with
actions that only take notes: the name of each method and the value of its decorator `identifier`.
The descriptions that the builder makes of an accepted text are described by them.

## Main definitions

* `Declaration`, `declarations`: what a text declares.
* `Recorder`: the actions that take notes.

## Main results

* `Records.act`: every action that the builder accepts keeps the notes in step with it.
* `parse_declarations`: the interfaces of an accepted text are the ones that it declares.
-/

namespace KushOs.Idl

open Peg Grammar

/-- A declared method: its name, and the value of its decorator `identifier`, if it has one. -/
structure Declaration where
  name : String
  explicit : Option String
  deriving DecidableEq, Repr

/-- The identifier of a declared method: the number of its decorator, or the hash of its name. -/
def Declaration.identifier (d : Declaration) : Except BuildError UInt64 :=
  match d.explicit with
  | some value => stoull value
  | none => .ok (nameHash d.name)

/-! ## Taking notes -/

/-- Notes on a text. -/
structure Recorder where
  key : String := ""
  value : String := ""
  explicit : Option String := none
  name : String := ""
  methods : List Declaration := []
  interfaces : List (List Declaration) := []

/-- What is noted for the text of a rule. -/
def Recorder.act (r : Recorder) (string : String) : Action → Recorder
  | .interfaceName => { r with methods := [] }
  | .interfaceEnd => { r with interfaces := r.interfaces ++ [r.methods] }
  | .methodName => { r with name := string }
  | .methodEnd => { r with methods := r.methods ++ [⟨r.name, r.explicit⟩], explicit := none }
  | .decoratorKey => { r with key := string }
  | .decoratorValue => { r with value := string }
  | .decoratorClose =>
      { r with
        explicit := if r.key = "identifier" then some r.value else r.explicit
        key := ""
        value := "" }
  | _ => r

/-- The actions, on characters. They never fail. -/
def Recorder.apply (a : Action) (text : List Char) (r : Recorder) : Except Empty Recorder :=
  .ok (r.act (String.ofList text) a)

/-- The methods that the interfaces of a text declare. -/
def declarations (text : List Char) : List (List Declaration) :=
  match Grammar.grammar.run Recorder.apply text {} with
  | .matched _ r => r.interfaces
  | _ => []

/-! ## The builder in step with the notes -/

/-- A method is the one that is declared. -/
def Declares (m : Method) (d : Declaration) : Prop :=
  m.name = d.name ∧ d.identifier = .ok m.identifier

/-- Methods with distinct names are the ones that are declared. -/
structure Described (methods : List Method) (ds : List Declaration) : Prop where
  declares : List.Forall₂ Declares methods ds
  names_nodup : (methods.map Method.name).Nodup

/-- The notes agree with the state of the builder. -/
structure Records (b : Builder) (r : Recorder) : Prop where
  key : r.key = b.nextDecoratorKey
  value : r.value = b.nextDecoratorValue
  explicit : r.explicit = b.decorators.lookup "identifier"
  /-- The method that is being built still has the hash of its name. -/
  method : ∀ m ∈ b.currentMethod, m.name = r.name ∧ m.identifier = nameHash r.name
  /-- Its name is new. -/
  fresh : ∀ i ∈ b.current, ∀ m ∈ b.currentMethod, m.name ∉ i.methods.map Method.name
  current : ∀ i ∈ b.current, Described i.methods r.methods
  interfaces : List.Forall₂ (fun i ds => Described i.methods ds) b.allIds r.interfaces

section Records

variable {b b' : Builder} {r : Recorder}

/-- Nothing is declared before the first action. -/
theorem Records.initial (filename : String) : Records { filename } {} where
  key := rfl
  value := rfl
  explicit := rfl
  method := by simp
  fresh := by simp
  current := by simp
  interfaces := .nil

/-- The Builder and the record begin an interface together. -/
theorem Records.beginInterface (h : Records b r) {name : String}
    (hb : b.beginInterface name = .ok b') : Records b' (r.act name .interfaceName) := by
  obtain ⟨-, rfl⟩ := Builder.beginInterface_eq_ok.mp hb
  refine { h with fresh := ?_, current := ?_ }
  · rintro i ⟨⟩ m -
    exact List.not_mem_nil
  · rintro i ⟨⟩
    exact ⟨.nil, .nil⟩

/-- They end an interface together. -/
theorem Records.endInterface (h : Records b r) {text : String} (hb : b.endInterface = .ok b') :
    Records b' (r.act text .interfaceEnd) := by
  obtain ⟨current, hcurrent, rfl⟩ := Builder.endInterface_eq_ok.mp hb
  refine { h with fresh := by simp, current := by simp, interfaces := ?_ }
  exact List.rel_append h.interfaces (.cons (h.current current hcurrent) .nil)

/-- They begin a method together: the Builder takes its name from the text that is recorded. -/
theorem Records.beginMethod (h : Records b r) {name : String}
    (hb : b.beginMethod name = .ok b') : Records b' (r.act name .methodName) := by
  obtain ⟨current, hcurrent, -, -, hnames, rfl⟩ := Builder.beginMethod_eq_ok.mp hb
  refine { h with method := ?_, fresh := ?_ }
  · rintro m ⟨⟩
    exact ⟨rfl, rfl⟩
  · rintro i hi m ⟨⟩ hmem
    obtain rfl : current = i := Option.some.inj (hcurrent.symm.trans hi)
    obtain ⟨m, hm, hname⟩ := List.mem_map.mp hmem
    exact hnames m hm hname

/-- Whether a method is asynchronous is not recorded. -/
theorem Records.setMethodAsync (h : Records b r) {isAsync : Bool}
    (hb : b.setMethodAsync isAsync = .ok b') : Records b' r := by
  obtain ⟨method, hmethod, rfl⟩ := Builder.setMethodAsync_eq_ok.mp hb
  refine { h with method := ?_, fresh := ?_ }
  · rintro m ⟨⟩
    exact h.method method hmethod
  · rintro i hi m ⟨⟩
    exact h.fresh i hi method hmethod

/-- The decorator decides on the identifier as the declaration says. -/
theorem Records.decodeIdentifier (h : Records b r) {m : Method} (hm : b.currentMethod = some m) :
    Builder.decodeIdentifier b.decorators m = (⟨r.name, r.explicit⟩ : Declaration).identifier := by
  unfold Builder.decodeIdentifier Declaration.identifier
  rw [h.explicit]
  cases b.decorators.lookup "identifier" with
  | none => rw [(h.method m hm).2]
  | some value => rfl

/-- They end a method together, with the identifier that its decorators give it. -/
theorem Records.endMethod (h : Records b r) {text : String} (hb : b.endMethod = .ok b') :
    Records b' (r.act text .methodEnd) := by
  obtain ⟨current, method, identifier, hcurrent, hmethod, hid, rfl⟩ :=
    Builder.endMethod_eq_ok.mp hb
  refine { h with explicit := rfl, method := by simp, fresh := by simp, current := ?_ }
  rintro i ⟨⟩
  -- the method that ends is described by the note on it, and its name is new
  have hdescribed := h.current current hcurrent
  have hdeclares : Declares { method with identifier } ⟨r.name, r.explicit⟩ :=
    ⟨(h.method method hmethod).1, (h.decodeIdentifier hmethod).symm.trans hid⟩
  refine ⟨List.rel_append hdescribed.declares (.cons hdeclares .nil), ?_⟩
  rw [List.map_append, List.nodup_append]
  refine ⟨hdescribed.names_nodup, List.nodup_singleton _, ?_⟩
  rintro name hname _ hnew rfl
  rw [List.map_singleton, List.mem_singleton] at hnew
  exact h.fresh current hcurrent method hmethod (hnew ▸ hname)

/-- The start of a list of arguments is not recorded. -/
theorem Records.beginArgs (h : Records b r) {context : ArgContext}
    (hb : b.beginArgs context = .ok b') : Records b' r := by
  obtain ⟨-, -, -, rfl⟩ := Builder.beginArgs_eq_ok.mp hb
  exact { h with }

/-- The end of a list of arguments is not recorded. -/
theorem Records.endArgs (h : Records b r) {context : ArgContext}
    (hb : b.endArgs context = .ok b') : Records b' r := by
  obtain ⟨-, -, -, rfl⟩ := Builder.endArgs_eq_ok.mp hb
  exact { h with }

/-- Counting a custom type leaves the methods of the interface alone. -/
theorem countType_methods {arg : Argument} {current : Option InterfaceDescription}
    (h : b.countType arg = .ok current) :
    ∀ i ∈ current, ∃ i' ∈ b.current, i.methods = i'.methods := by
  unfold Builder.countType at h
  split at h
  · cases h
    exact fun i hi => ⟨i, hi, rfl⟩
  · split at h
    · next i' hi' =>
        cases h
        rintro i ⟨⟩
        exact ⟨i', hi', rfl⟩
    · cases h

/-- The arguments are not recorded. -/
theorem Records.pushNextArg (h : Records b r) (hb : b.pushNextArg = .ok b') : Records b' r := by
  obtain ⟨method, current, hmethod, -, -, -, hcount, rfl⟩ := Builder.pushNextArg_eq_ok.mp hb
  -- the interface changes in its count, the method in its arguments
  have hmethods := countType_methods hcount
  have hadd : ∀ arg, (Builder.addArg arg method b.argContext).name = method.name ∧
      (Builder.addArg arg method b.argContext).identifier = method.identifier := by
    intro arg
    cases b.argContext <;> exact ⟨rfl, rfl⟩
  refine { h with method := ?_, fresh := ?_, current := ?_ }
  · rintro m ⟨⟩
    rw [(hadd _).1, (hadd _).2]
    exact h.method method hmethod
  · rintro i hi m ⟨⟩
    obtain ⟨i', hi', heq⟩ := hmethods i hi
    rw [(hadd _).1, heq]
    exact h.fresh i' hi' method hmethod
  · intro i hi
    obtain ⟨i', hi', heq⟩ := hmethods i hi
    rw [heq]
    exact h.current i' hi'

/-- The decorators of both are the same. -/
theorem Records.pushNextDecorator (h : Records b r) {text : String}
    (hb : b.pushNextDecorator = .ok b') : Records b' (r.act text .decoratorClose) := by
  obtain ⟨-, -, hnew, rfl⟩ := Builder.pushNextDecorator_eq_ok.mp hb
  refine { h with key := rfl, value := rfl, explicit := ?_ }
  show (if r.key = "identifier" then some r.value else r.explicit) =
    (b.decorators ++ [(b.nextDecoratorKey, b.nextDecoratorValue)]).lookup "identifier"
  rw [List.lookup_append, h.key, h.value, h.explicit]
  split
  · -- the decorator is the one that matters, and it is the first of its key
    next hkey =>
      rw [hkey] at hnew ⊢
      rw [hnew]
      rfl
  · next hkey =>
      have hlast : [(b.nextDecoratorKey, b.nextDecoratorValue)].lookup "identifier" = none := by
        rw [List.lookup_eq_none_iff]
        intro p hp
        rw [List.mem_singleton] at hp
        subst hp
        exact bne_iff_ne.mpr (Ne.symm hkey)
      rw [hlast, Option.or_none]

/-- An action that the builder accepts keeps the notes in step with it. -/
theorem Records.act (h : Records b r) {a : Action} {text : String} (hb : b.act text a = .ok b') :
    Records b' (r.act text a) := by
  cases a with
  | interfaceName => exact h.beginInterface hb
  | interfaceEnd => exact h.endInterface hb
  | methodName => exact h.beginMethod hb
  | methodEnd => exact h.endMethod hb
  | methodAsyncReturnMarker => exact h.setMethodAsync hb
  | methodSyncReturnMarker => exact h.setMethodAsync hb
  | methodArgsOpen => exact h.beginArgs hb
  | methodArgsClose => exact h.endArgs hb
  | methodReturnOpen => exact h.beginArgs hb
  | methodReturnClose => exact h.endArgs hb
  | methodArgEnd => exact h.pushNextArg hb
  | decoratorClose => exact h.pushNextDecorator hb
  -- the builder stores the text of a name or a type, which the notes do not mention
  | methodArgName =>
      cases hb
      exact { h with }
  | methodArgType =>
      cases hb
      exact { h with }
  | decoratorKey =>
      cases hb
      exact { h with key := rfl }
  | decoratorValue =>
      cases hb
      exact { h with value := rfl }
  | includePath =>
      cases hb
      exact { h with }

end Records

/-! ## Accepted texts -/

/-- Only a match of the grammar yields interfaces. -/
theorem matched_of_parse {filename : String} {text : List Char}
    {interfaces : List InterfaceDescription} (h : parse filename text = .ok interfaces) :
    ∃ rest b, Grammar.grammar.run Builder.apply text { filename } = .matched rest b ∧
      interfaces = b.finalize := by
  unfold parse at h
  generalize Grammar.grammar.run Builder.apply text { filename } = x at h
  cases x with
  | matched rest b =>
      cases h
      exact ⟨rest, b, rfl, rfl⟩
  | noMatch b => cases h
  | raised e => cases h
  | diverged => cases h

/-- When each action that the builder accepts is simulated by other actions, an accepted text is
accepted with these, too. -/
theorem parse_simulated {τ ε : Type} {R : Builder → τ → Prop}
    {apply : Action → List Char → τ → Except ε τ} {t : τ} {filename : String} {text : List Char}
    {interfaces : List InterfaceDescription}
    (hact : ∀ a text b b' t, R b t → Builder.apply a text b = .ok b' →
      ∃ t', apply a text t = .ok t' ∧ R b' t')
    (hinit : R { filename } t) (h : parse filename text = .ok interfaces) :
    ∃ rest b t', Grammar.grammar.run apply text t = .matched rest t' ∧ R b t' ∧
      interfaces = b.finalize := by
  have hsim : Simulated R (Grammar.grammar.run Builder.apply text { filename })
      (Grammar.grammar.run apply text t) := Rule.run_sim hact _ _ _ _ hinit
  obtain ⟨rest, b, hrun, rfl⟩ := matched_of_parse h
  rw [hrun] at hsim
  obtain ⟨t', ht', hR⟩ := hsim
  exact ⟨rest, b, t', ht', hR, rfl⟩

/-- The interfaces that the parser makes of an accepted text are the ones that it declares. -/
theorem parse_declarations {filename : String} {text : List Char}
    {interfaces : List InterfaceDescription} (h : parse filename text = .ok interfaces) :
    List.Forall₂ (fun i ds => Described i.methods ds) interfaces (declarations text) := by
  have hact : ∀ a text b b' r, Records b r → Builder.apply a text b = .ok b' →
      ∃ r', Recorder.apply a text r = .ok r' ∧ Records b' r' :=
    fun a text b b' r hrec hb => ⟨_, rfl, hrec.act hb⟩
  obtain ⟨rest, b, r, hr, hrec, rfl⟩ := parse_simulated hact (Records.initial filename) h
  rw [declarations, hr, Builder.finalize, List.forall₂_map_left_iff]
  exact hrec.interfaces

end KushOs.Idl
