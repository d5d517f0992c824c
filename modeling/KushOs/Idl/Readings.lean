import KushOs.Idl.Declarations
import KushOs.Idl.Fillers

/-!
# What texts are read as

The reading of a text is what `IDLParser::parse` returns for it, with the include paths that the
builder has collected. It can be taken up behind any round of the items. Includes and interfaces
make it larger, so a text that adds nothing to it consists of empty lines and comments.

## Main definitions

* `reading`: the interfaces and include paths of a text.
* `readFrom`: what the rest of a text makes of a builder.

## Main results

* `readFrom_eq_nil_iff`: the rest of a text adds nothing exactly when it consists of complete empty
  lines and comments.
-/

namespace KushOs.Idl

open Peg Grammar

/-! ## Readings -/

/-- What a text is read as, if it is accepted: the interfaces, and the include paths. -/
def reading (filename : String) (text : List Char) :
    Option (List InterfaceDescription × List String) :=
  match Grammar.grammar.run Builder.apply text { filename } with
  | .matched _ b => some (b.finalize, b.includes)
  | _ => none

/-- What the rest of a text makes of a builder. -/
def readFrom (input : List Char) (b : Builder) : Option (List InterfaceDescription × List String) :=
  match topLevel.star.run Builder.apply input b with
  | .matched [] b => some (b.finalize, b.includes)
  | _ => none

section Readings

variable {b b' : Builder} {input rest text : List Char} {filename : String}

theorem reading_eq (filename : String) (text : List Char) :
    reading filename text = readFrom text { filename } := by
  rw [reading, readFrom, Grammar.grammar, Rule.run_seq, Rule.run_must]
  cases topLevel.star.run Builder.apply text { filename } with
  | matched rest b => cases rest <;> rfl
  | noMatch b => rfl
  | raised e => rfl
  | diverged => rfl

/-- The texts that are accepted are those that have a reading. -/
theorem reading_of_parse {interfaces : List InterfaceDescription}
    (h : parse filename text = .ok interfaces) :
    ∃ includes, reading filename text = some (interfaces, includes) := by
  obtain ⟨rest, b, hrun, rfl⟩ := matched_of_parse h
  exact ⟨b.includes, by rw [reading, hrun]⟩

/-- An item that is there. -/
theorem readFrom_of_matched (h : topLevel.run Builder.apply input b = .matched rest b') :
    readFrom input b = readFrom rest b' := by
  rw [readFrom, run_star_of_matched rfl h, readFrom]

theorem readFrom_of_rounds (h : Rounds Builder.apply topLevel input b rest b') :
    readFrom input b = readFrom rest b' := by
  rw [readFrom, h.run_star rfl, readFrom]

/-- Something that is no item. -/
theorem readFrom_of_noMatch (hne : input ≠ [])
    (h : topLevel.run Builder.apply input b = .noMatch b') : readFrom input b = none := by
  obtain ⟨c, input, rfl⟩ := List.exists_cons_of_ne_nil hne
  rw [readFrom, run_star_of_noMatch h]

/-- Two texts that start with the same item and go on with the same text. -/
theorem readFrom_congr {input' : List Char} (hne : input ≠ []) (hne' : input' ≠ [])
    (h : topLevel.run Builder.apply input b = topLevel.run Builder.apply input' b) :
    readFrom input b = readFrom input' b := by
  cases hrun : topLevel.run Builder.apply input' b with
  | matched rest b' => rw [readFrom_of_matched (h.trans hrun), readFrom_of_matched hrun]
  | noMatch b' => rw [readFrom_of_noMatch hne (h.trans hrun), readFrom_of_noMatch hne' hrun]
  | raised e =>
      rw [readFrom, readFrom, run_star_next rfl, run_star_next rfl, h, hrun]
      rfl
  | diverged =>
      rw [readFrom, readFrom, run_star_next rfl, run_star_next rfl, h, hrun]
      rfl

theorem readFrom_nil (b : Builder) : readFrom [] b = some (b.finalize, b.includes) := rfl

end Readings

/-! ## What adds nothing to a reading -/

/-- The number of include paths and interfaces. -/
def Builder.size (b : Builder) : ℕ := b.includes.length + b.allIds.length

section Growth

variable {b b' : Builder} {a : Action} {input rest text : List Char}

/-- Includes and interfaces are added by their actions, and nothing takes them away. -/
theorem Builder.size_apply (h : Builder.apply a text b = .ok b') :
    b'.size = b.size + if a = .includePath ∨ a = .interfaceEnd then 1 else 0 := by
  cases a with
  | interfaceName =>
      obtain ⟨-, rfl⟩ := Builder.beginInterface_eq_ok.mp h
      rfl
  | interfaceEnd =>
      obtain ⟨current, -, rfl⟩ := Builder.endInterface_eq_ok.mp h
      simp [Builder.size, Nat.add_assoc]
  | methodName =>
      obtain ⟨-, -, -, -, -, rfl⟩ := Builder.beginMethod_eq_ok.mp h
      rfl
  | methodEnd =>
      obtain ⟨-, -, -, -, -, -, rfl⟩ := Builder.endMethod_eq_ok.mp h
      rfl
  | methodAsyncReturnMarker =>
      obtain ⟨-, -, rfl⟩ := Builder.setMethodAsync_eq_ok.mp h
      rfl
  | methodSyncReturnMarker =>
      obtain ⟨-, -, rfl⟩ := Builder.setMethodAsync_eq_ok.mp h
      rfl
  | methodArgsOpen =>
      obtain ⟨-, -, -, rfl⟩ := Builder.beginArgs_eq_ok.mp h
      rfl
  | methodArgsClose =>
      obtain ⟨-, -, -, rfl⟩ := Builder.endArgs_eq_ok.mp h
      rfl
  | methodReturnOpen =>
      obtain ⟨-, -, -, rfl⟩ := Builder.beginArgs_eq_ok.mp h
      rfl
  | methodReturnClose =>
      obtain ⟨-, -, -, rfl⟩ := Builder.endArgs_eq_ok.mp h
      rfl
  | methodArgName =>
      cases h
      rfl
  | methodArgType =>
      cases h
      rfl
  | methodArgEnd =>
      obtain ⟨-, -, -, -, -, -, -, rfl⟩ := Builder.pushNextArg_eq_ok.mp h
      rfl
  | decoratorKey =>
      cases h
      rfl
  | decoratorValue =>
      cases h
      rfl
  | decoratorClose =>
      obtain ⟨-, -, -, rfl⟩ := Builder.pushNextDecorator_eq_ok.mp h
      rfl
  | includePath =>
      cases h
      simp [Builder.size, Builder.addIncludePath, Nat.add_right_comm]

/-- Whatever was tried and given up, nothing is taken away. -/
theorem size_le_of_run {r : G} (h : r.run Builder.apply input b = .matched rest b') :
    b.size ≤ b'.size := by
  -- the simulation carries the bound as an invariant of the builder alone
  have hact : ∀ (a : Action) text (s s' : Builder) (u : Unit), b.size ≤ s.size →
      Builder.apply a text s = .ok s' → ∃ u', noActions a text u = .ok u' ∧ b.size ≤ s'.size :=
    fun a text s s' u hle happly =>
      ⟨u, rfl, (hle.trans (Nat.le_add_right _ _)).trans_eq (Builder.size_apply happly).symm⟩
  have hsim := Rule.run_sim hact r input b () le_rfl
  rw [h] at hsim
  obtain ⟨u, -, hle⟩ := hsim
  exact hle

/-- The rule adds something when it matches. -/
def Grows (r : G) : Prop :=
  ∀ input b rest b', r.run Builder.apply input b = .matched rest b' → b.size < b'.size

theorem grows_act {r : G} (ha : a = .includePath ∨ a = .interfaceEnd) : Grows (.act a r) := by
  intro input b rest b' h
  obtain ⟨c, hrun, happly⟩ := exists_of_act h
  have hsize := Builder.size_apply happly
  rw [if_pos ha] at hsize
  rw [hsize]
  exact Nat.lt_succ_of_le (size_le_of_run hrun)

theorem Grows.seq_left {r r' : G} (h : Grows r) : Grows (.seq r r') := by
  intro input b rest b' hrun
  obtain ⟨mid, c, hleft, hright⟩ := exists_of_seq hrun
  exact (h _ _ _ _ hleft).trans_le (size_le_of_run hright)

theorem Grows.seq_right {r r' : G} (h : Grows r') : Grows (.seq r r') := by
  intro input b rest b' hrun
  obtain ⟨mid, c, hleft, hright⟩ := exists_of_seq hrun
  exact (size_le_of_run hleft).trans_lt (h _ _ _ _ hright)

theorem include_grows : Grows «include» :=
  (Grows.seq_left (grows_act (.inl rfl))).seq_right.seq_right.seq_right

theorem interface_grows : Grows interface := (grows_act (.inr rfl)).seq_right.seq_right

/-- A round of the items is one of lines, or it adds something. -/
theorem lineOrComment_or_size_lt (h : topLevel.run Builder.apply input b = .matched rest b') :
    (lineOrComment.run noActions input () = .matched rest () ∧ b' = b) ∨ b.size < b'.size := by
  by_cases hhash : StartsWith (· = '#') input
  · exact .inr (include_grows _ _ _ _ ((run_topLevel_include hhash).mp h))
  have hsign : Stops (· = '#') input := stops_of_not_startsWith hhash
  cases hline : afterEmptyLine input with
  | some rest' =>
      rw [run_topLevel_emptyLine hline] at h
      cases h
      exact .inl ⟨lineOrComment_skipsFiller.emptyLine () hline, rfl⟩
  | none =>
      cases hcomment : afterComment input with
      | some rest' =>
          rw [run_topLevel_comment hline hsign hcomment] at h
          cases h
          exact .inl ⟨lineOrComment_skipsFiller.comment () hline hcomment, rfl⟩
      | none =>
          rw [run_topLevel_interface hline hsign hcomment] at h
          exact .inr (interface_grows _ _ _ _ h)

/-- Rounds of the items that add nothing are rounds of lines. -/
theorem lineOrComment_of_rounds (h : Rounds Builder.apply topLevel input b rest b')
    (hsize : b'.size ≤ b.size) : Rounds noActions lineOrComment input () rest () ∧ b' = b := by
  have hle : ∀ {input rest : List Char} {b b' : Builder},
      Rounds Builder.apply topLevel input b rest b' → b.size ≤ b'.size := by
    intro input rest b b' h
    induction h with
    | none => exact le_rfl
    | next hround _ ih => exact (size_le_of_run hround).trans ih
  induction h with
  | none input b => exact ⟨.none input (), rfl⟩
  | @next input mid rest b c b' hround hrounds ih =>
      obtain ⟨hlines, rfl⟩ := (lineOrComment_or_size_lt hround).resolve_right
        (Nat.not_lt.mpr ((hle hrounds).trans hsize))
      obtain ⟨hrest, rfl⟩ := ih hsize
      exact ⟨.next hlines hrest, rfl⟩

theorem topLevel_nil (b : Builder) : topLevel.run Builder.apply [] b = .noMatch b := rfl

/-- The rest of a text that adds nothing consists of complete empty lines and comments. -/
theorem readFrom_eq_nil_iff (input : List Char) (b : Builder) :
    readFrom input b = readFrom [] b ↔ CompleteLines input := by
  constructor
  · intro h
    rw [readFrom_nil, readFrom] at h
    split at h
    · next b' hstar =>
        injection h with h
        obtain ⟨hfinal, hincludes⟩ := Prod.mk.inj h
        obtain ⟨c, hrounds, hlast⟩ := rounds_of_run_star hstar
        rw [topLevel_nil] at hlast
        cases hlast
        -- the same lists have the same lengths
        have hsize : b'.size ≤ b.size := by
          have hlength := congrArg List.length hfinal
          rw [Builder.finalize, Builder.finalize, List.length_map, List.length_map] at hlength
          rw [Builder.size, Builder.size, hlength, hincludes]
        exact ((lineOrComment_of_rounds hrounds hsize).1.run_star rfl).trans rfl
    · cases h
  · intro h
    obtain ⟨u, hrounds, -⟩ := rounds_of_run_star h
    exact readFrom_of_rounds (topLevel_skipsFiller.rounds hrounds b)

end Growth

end KushOs.Idl
