import KushOs.Idl.Declarations
import KushOs.Idl.ServerRun

/-!
# Identifiers of methods

The generated server dispatches on the type of a message, which is the identifier of the method
that it is for. The builder keeps names apart, but neither identifiers nor the names that are
generated: this is left to whoever writes the file.

## Main definitions

* `Interface.Selects`: the `switch` of the server tells methods apart.
* `IdentifiersApart`, `NamesApart`: conditions on what a file declares.

## Main results

* `identifiers_unique_iff`: under which conditions the identifiers of an interface are distinct, and
  its server selects the method that a message is for.
* `identifiers_not_unique`: an accepted file with two methods of one identifier.
-/

namespace KushOs.Idl

/-! ## The dispatch of the server -/

namespace Interface

/-- The server selects exactly the method whose stub sent a message. -/
def Selects (i : Interface) : Prop := ∀ m ∈ i.methods, i.target (i.typeId m) = some m

variable {i : Interface} {m : Method}

/-- A method that is selected is the one that its generated name belongs to. -/
theorem Selects.methodNamed (h : i.Selects) (hm : m ∈ i.methods) :
    i.methodNamed m.methodName = some m := by
  obtain ⟨found, -, hfound⟩ := Option.bind_eq_some_iff.mp (h m hm)
  have hname : m.methodName = found.methodName := by
    simpa [Interface.methodNamed] using List.find?_some hfound
  rw [hname]
  exact hfound

theorem Selects.typeId (h : i.Selects) (hm : m ∈ i.methods) : i.typeId m = m.identifier := by
  rw [Interface.typeId, Interface.typeOf, h.methodNamed hm]
  rfl

/-- Methods of distinct names are selected exactly when their identifiers and their generated names
are distinct too. -/
theorem selects_iff_wellNamed (hnames : (i.methods.map Method.name).Nodup) :
    i.Selects ↔ i.WellNamed := by
  have hmethods : i.methods.Nodup := hnames.of_map
  constructor
  · intro h
    constructor
    · -- the types of two methods of one identifier are the same, so one method is selected twice
      rw [List.nodup_map_iff_inj_on hmethods]
      intro x hx y hy heq
      have htype : i.typeId x = i.typeId y := by rw [h.typeId hx, h.typeId hy, heq]
      exact Option.some.inj ((h x hx).symm.trans (htype ▸ h y hy))
    · -- a generated name belongs to one method
      rw [List.nodup_map_iff_inj_on hmethods]
      intro x hx y hy heq
      have hnamed : i.methodNamed x.methodName = i.methodNamed y.methodName := by rw [heq]
      rw [h.methodNamed hx, h.methodNamed hy] at hnamed
      exact Option.some.inj hnamed
  · intro h m hm
    exact h.dispatch hm

end Interface

/-! ## Conditions on declarations -/

/-- Two declared methods have the same identifier: two decorators with one number, a decorator with
the hash of the other name, or two names with one hash. -/
def Declaration.Clash (d e : Declaration) : Prop :=
  match d.explicit, e.explicit with
  | some v, some w => stoull v = stoull w
  | some v, none => stoull v = .ok (nameHash e.name)
  | none, some w => stoull w = .ok (nameHash d.name)
  | none, none => nameHash d.name = nameHash e.name

/-- No two methods of an interface are declared with the same identifier. -/
def IdentifiersApart (ds : List Declaration) : Prop := ds.Pairwise fun d e => ¬d.Clash e

/-- No two names of an interface differ only in the case of their first letter. -/
def NamesApart (ds : List Declaration) : Prop :=
  ds.Pairwise fun d e => d.name.capitalize ≠ e.name.capitalize

theorem Declaration.clash_iff (d e : Declaration) : d.Clash e ↔ d.identifier = e.identifier := by
  obtain ⟨name, explicit⟩ := d
  obtain ⟨name', explicit'⟩ := e
  cases explicit with
  | none =>
      cases explicit' with
      | none =>
          show nameHash name = nameHash name' ↔
            Except.ok (nameHash name) = Except.ok (nameHash name')
          rw [Except.ok.injEq]
      | some w => exact eq_comm
  | some v =>
      cases explicit' with
      | none => exact Iff.rfl
      | some w => exact Iff.rfl

instance (d e : Declaration) : Decidable (d.Clash e) := decidable_of_iff _ (d.clash_iff e).symm

instance (ds : List Declaration) : Decidable (IdentifiersApart ds) :=
  inferInstanceAs (Decidable (ds.Pairwise fun d e => ¬d.Clash e))

instance (ds : List Declaration) : Decidable (NamesApart ds) :=
  inferInstanceAs (Decidable (ds.Pairwise fun d e => d.name.capitalize ≠ e.name.capitalize))

/-- What holds of all members of one list holds of all members of a related one. -/
theorem forall_mem_iff_of_forall₂ {α β : Type} {R : α → β → Prop} {p : α → Prop} {q : β → Prop}
    (hpq : ∀ a b, R a b → (p a ↔ q b)) {l : List α} {l' : List β} (h : List.Forall₂ R l l') :
    (∀ a ∈ l, p a) ↔ ∀ b ∈ l', q b := by
  induction h with
  | nil => simp
  | cons hab _ ih =>
      rw [List.forall_mem_cons, List.forall_mem_cons]
      exact and_congr (hpq _ _ hab) ih

/-- What holds of the pairs of one list holds of the pairs of a related one. -/
theorem pairwise_iff_of_forall₂ {α β : Type} {R : α → β → Prop} {P : α → α → Prop}
    {Q : β → β → Prop} (hPQ : ∀ a b a' b', R a b → R a' b' → (P a a' ↔ Q b b')) {l : List α}
    {l' : List β} (h : List.Forall₂ R l l') : l.Pairwise P ↔ l'.Pairwise Q := by
  induction h with
  | nil => exact iff_of_true .nil .nil
  | cons hab hl ih =>
      rw [List.pairwise_cons, List.pairwise_cons]
      exact and_congr (forall_mem_iff_of_forall₂ (fun a' b' => hPQ _ _ a' b' hab) hl) ih

section Described

variable {methods : List Method} {ds : List Declaration}

/-- The identifiers of methods are distinct exactly when they are declared apart. -/
theorem Described.identifiers_iff (h : Described methods ds) :
    (methods.map Method.identifier).Nodup ↔ IdentifiersApart ds := by
  rw [List.Nodup, List.pairwise_map]
  refine pairwise_iff_of_forall₂ ?_ h.declares
  rintro m d m' d' ⟨-, hd⟩ ⟨-, hd'⟩
  rw [Declaration.clash_iff, hd, hd', Except.ok.injEq]

/-- The generated names of methods are distinct exactly when they are declared apart. -/
theorem Described.methodNames_iff (h : Described methods ds) :
    (methods.map Method.methodName).Nodup ↔ NamesApart ds := by
  rw [List.Nodup, List.pairwise_map]
  refine pairwise_iff_of_forall₂ ?_ h.declares
  rintro m d m' d' ⟨hd, -⟩ ⟨hd', -⟩
  rw [Method.methodName, Method.methodName, hd, hd']

/-- The server selects the right method exactly when identifiers and names are declared apart. -/
theorem Described.selects_iff {i : InterfaceDescription} (h : Described i.methods ds) :
    i.toInterface.Selects ↔ IdentifiersApart ds ∧ NamesApart ds := by
  rw [Interface.selects_iff_wellNamed h.names_nodup, ← h.identifiers_iff, ← h.methodNames_iff]
  exact ⟨fun hw => ⟨hw.identifiers, hw.names⟩, fun hw => ⟨hw.1, hw.2⟩⟩

end Described

/-! ## Accepted files -/

/-- For every accepted text, interface by interface: the identifiers of the methods are distinct
exactly when they are declared apart, and the server selects exactly the method whose stub sent a
message when, besides, no two names differ only in the case of their first letter. -/
theorem identifiers_unique_iff {filename : String} {text : List Char}
    {interfaces : List InterfaceDescription} (h : parse filename text = .ok interfaces) :
    List.Forall₂
      (fun i ds =>
        ((i.methods.map Method.identifier).Nodup ↔ IdentifiersApart ds) ∧
          ((i.methods.map Method.identifier).Nodup ∧ i.toInterface.Selects ↔
            IdentifiersApart ds ∧ NamesApart ds))
      interfaces (declarations text) := by
  refine (parse_declarations h).imp fun i ds hdescribed => ?_
  -- the methods of the interface are the declared ones, in the same order
  have hid := hdescribed.identifiers_iff
  refine ⟨hid, ?_⟩
  rw [hid, hdescribed.selects_iff]
  exact ⟨fun hall => hall.2, fun hall => ⟨hall.1, hall⟩⟩

section Hello

/-- Two methods of the sample file, one with a decorator and one without. -/
def helloText : String :=
  "interface Hello \x7b\n    messageWithFixedId [identifier=0xdeadbeef06969] () =|\n" ++
    "    poke() => ()\n\x7d\n"

/-- The description of their interface. -/
def helloDescription : InterfaceDescription :=
  { InterfaceDescription.new "Hello" "hello.idl" with
    methods := [⟨"messageWithFixedId", true, 0xdeadbeef06969, [], []⟩,
      ⟨"poke", false, nameHash "poke", [], []⟩] }

/-- They have distinct identifiers, and the server tells them apart. -/
theorem identifiers_unique_hello :
    parse "hello.idl" helloText.toList = .ok [helloDescription] ∧
      (helloDescription.methods.map Method.identifier).Nodup ∧
      helloDescription.toInterface.Selects := by
  have hparse : parse "hello.idl" helloText.toList = .ok [helloDescription] := by decide +kernel
  have hdeclared : declarations helloText.toList =
      [[⟨"messageWithFixedId", some "0xdeadbeef06969"⟩, ⟨"poke", none⟩]] := by decide +kernel
  have hall := identifiers_unique_iff hparse
  rw [hdeclared] at hall
  cases hall with
  | cons hiff _ => exact ⟨hparse, hiff.2.mpr (by decide +kernel)⟩

/-- Two methods with the same number in their decorators. -/
def sameIdentifierText : String :=
  "interface Hello \x7b\n    poke [identifier=1] () =|\n    wake [identifier=1] () =|\n\x7d\n"

/-- The description of their interface. -/
def sameIdentifierDescription : InterfaceDescription :=
  { InterfaceDescription.new "Hello" "hello.idl" with
    methods := [⟨"poke", true, 1, [], []⟩, ⟨"wake", true, 1, [], []⟩] }

/-- The file is accepted, and both methods have the identifier 1. The generated switch has two cases
of this value, which C++ refuses; the first of them would take the messages of both methods. -/
theorem identifiers_not_unique :
    parse "hello.idl" sameIdentifierText.toList = .ok [sameIdentifierDescription] ∧
      ¬(sameIdentifierDescription.methods.map Method.identifier).Nodup ∧
      ¬sameIdentifierDescription.toInterface.Selects := by
  refine ⟨by decide +kernel, by decide +kernel, ?_⟩
  -- the second method would have to be selected for the type 1, but the first one is
  intro h
  have hwake := h ⟨"wake", true, 1, [], []⟩ (by decide +kernel)
  have hpoke : sameIdentifierDescription.toInterface.target 1 =
      some ⟨"poke", true, 1, [], []⟩ := by decide +kernel
  rw [h.typeId (by decide +kernel), hpoke] at hwake
  exact absurd hwake (by decide +kernel)

end Hello

end KushOs.Idl
