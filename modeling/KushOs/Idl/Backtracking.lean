import KushOs.Foundation.PegUndo
import KushOs.Idl.Grammar

/-!
# Rejected alternatives of the grammar

Some rules of the grammar fail after actions have run: an include without `>`, a decorator without
`]`, an argument without a type, an interface without its braces. Each of them leaves an input in
front of which the rest of the grammar is a parse error, so nothing that was done for a rejected
alternative is in the result of an accepted text.

## Main results

* `grammar_backtracks`: a match of the grammar is one where failures are undone, whatever the
  actions do.
-/

namespace KushOs.Idl

open Peg

namespace Grammar

/-- The input starts with a character of a class. -/
def StartsWith (p : Char → Bool) (input : List Char) : Prop := ∃ c ∈ input.head?, p c = true

/-- There is some input. -/
def Nonempty (input : List Char) : Prop := input ≠ []

section Lost

variable {σ ε : Type} {apply : Action → List Char → σ → Except ε σ} {p q : Char → Bool}
  {input : List Char} {s : σ}

/-- An input that starts with a character is not empty. -/
theorem StartsWith.nonempty (h : StartsWith p input) : Nonempty input := by
  rintro rfl
  obtain ⟨c, hc, -⟩ := h
  cases hc

/-- An input that starts with a class starts with a larger one. -/
theorem StartsWith.mono (h : StartsWith p input) (hpq : ∀ c, p c = true → q c = true) :
    StartsWith q input := by
  obtain ⟨c, hc, hp⟩ := h
  exact ⟨c, hc, hpq c hp⟩

/-- An input that starts with a class does not go on with another one. -/
theorem StartsWith.stops (h : StartsWith p input) (hpq : ∀ c, p c = true → q c = false) :
    Stops q input := by
  obtain ⟨c, hc, hp⟩ := h
  intro d hd
  rw [Option.mem_def, Option.mem_def.mp hc] at hd
  exact hpq d (Option.some.inj hd ▸ hp)

/-- A class matches inputs that start with it. -/
theorem startsWith_of_one {rest : List Char} {t : σ}
    (h : (Rule.one p).run apply input s = .matched rest t) : StartsWith p input := by
  cases input with
  | nil => cases h
  | cons c input =>
      rw [Rule.run_one_cons] at h
      split at h
      · next hc => exact ⟨c, rfl, hc⟩
      · cases h

/-- What the first part of a sequence starts with, the sequence starts with. -/
theorem startsWith_of_seq {a b : G} {rest : List Char} {t : σ} {L : List Char → Prop}
    (ha : ∀ mid u, a.run apply input s = .matched mid u → L input)
    (h : (Rule.seq a b).run apply input s = .matched rest t) : L input := by
  obtain ⟨mid, u, hrun, -⟩ := exists_of_seq h
  exact ha mid u hrun

/-- An action matches where its rule does. -/
theorem startsWith_of_act {r : G} {e : Action} {rest : List Char} {t : σ} {L : List Char → Prop}
    (hr : ∀ mid u, r.run apply input s = .matched mid u → L input)
    (h : (Rule.act e r).run apply input s = .matched rest t) : L input := by
  obtain ⟨u, hrun, -⟩ := exists_of_act h
  exact hr rest u hrun

/-- A rule that consumes something matches no empty input. -/
theorem nonempty_of_consuming {r : G} (hr : r.consuming = true) {rest : List Char} {t : σ}
    (h : r.run apply input s = .matched rest t) : Nonempty input := by
  rintro rfl
  have hlt := (hr ▸ r.run_split h).length_lt
  exact absurd hlt (Nat.not_lt_zero _)

/-- A rule under `must` is an error where the rule fails. -/
theorem raisesOn_must {r : G} {L : List Char → Prop}
    (h : ∀ input s, L input → Fails apply r input s) : RaisesOn apply (.must r) L := by
  intro input s hL
  have hfails : r.run apply input s = .noMatch s := h input s hL
  exact ⟨.parse, by rw [Rule.run_must, hfails, Result.next]⟩

/-- A sequence raises where its first rule does. -/
theorem raisesOn_seq {a b : G} {L : List Char → Prop} (h : RaisesOn apply a L) :
    RaisesOn apply (.seq a b) L := by
  intro input s hL
  obtain ⟨e, he⟩ := h input s hL
  exact ⟨e, by rw [Rule.run_seq, he, Result.next]⟩

/-- It also raises where its second rule does, if the first one matches nothing there. -/
theorem raisesOn_seq_right {a b : G} {L : List Char → Prop}
    (ha : ∀ input s, L input → Matches apply a input s input s) (h : RaisesOn apply b L) :
    RaisesOn apply (.seq a b) L := by
  intro input s hL
  have hmatch : a.run apply input s = .matched input s := ha input s hL
  obtain ⟨e, he⟩ := h input s hL
  exact ⟨e, by rw [Rule.run_seq, hmatch, Result.next, he]⟩

end Lost

/-! ## Arguments -/

section Arguments

variable {σ ε : Type} {apply : Action → List Char → σ → Except ε σ}

/-- What an argument that was given up may start with: itself, or the comma in front of it. -/
def startsArg (c : Char) : Bool := isIdentifierFirst c ∨ c = ','

/-- An argument runs as if failures were undone, unless it fails on an identifier. -/
theorem methodArg_backtracks :
    Backtracks apply methodArg (StartsWith isIdentifierFirst) Nowhere := by
  have hend : Backtracks apply (Rule.seq methodArgType methodArgEnd) Nowhere Nowhere :=
    (Backtracks.act rfl).seq (Backtracks.act rfl) raisesOn_nowhere (.inl rfl)
  have hsep : Backtracks apply (Rule.seq methodArgSep (.seq methodArgType methodArgEnd)) Nowhere
      Nowhere := (Backtracks.silent rfl).seq_silent rfl hend
  have hname : Backtracks apply methodArgName (StartsWith isIdentifierFirst) Nowhere :=
    (Backtracks.act rfl).of_nowhere
  refine hname.seq hsep raisesOn_nowhere (.inr fun input s rest t h => ?_)
  exact startsWith_of_act (fun _ _ => startsWith_of_seq fun _ _ => startsWith_of_one) h

/-- Another argument runs as if failures were undone, unless it fails on a comma. -/
theorem methodNextArg_backtracks :
    Backtracks apply (.seq methodNextArgSep methodNextArg) (StartsWith (· = ',')) Nowhere := by
  have hsep : Backtracks apply methodNextArgSep (StartsWith (· = ',')) Nowhere :=
    (Backtracks.silent rfl).of_nowhere
  refine hsep.seq methodArg_backtracks raisesOn_nowhere (.inr fun input s rest t h => ?_)
  exact startsWith_of_seq (fun _ _ => startsWith_of_one) h

/-- So does a list of arguments, unless it leaves something that starts an argument. -/
theorem methodArgs_backtracks : Backtracks apply methodArgs Nowhere (StartsWith startsArg) := by
  have hargs : Backtracks apply (.seq methodArg (.star (.seq methodNextArgSep methodNextArg)))
      (StartsWith isIdentifierFirst) (StartsWith (· = ',')) :=
    methodArg_backtracks.seq methodNextArg_backtracks.star raisesOn_nowhere (.inl rfl)
  refine (hargs.imp (fun input h => h.mono fun c hc => ?_) fun input h => h.mono fun c hc => ?_).opt
  · exact decide_eq_true (.inl hc)
  · exact decide_eq_true (.inr (of_decide_eq_true hc))

/-- No argument that was given up starts with a closing parenthesis. -/
theorem startsArg_ne {c : Char} (h : startsArg c = true) : decide (c = ')') = false := by
  rw [decide_eq_false_iff_not]
  rintro rfl
  revert h
  decide

/-- A group of arguments that was not read up to its end is an error. -/
theorem argsGroup_backtracks (opens closes : Action) :
    Backtracks apply (.seq (.must (.act opens (char '('))) (.seq (.must methodArgs)
      (.must (.act closes (char ')'))))) Nowhere Nowhere := by
  have hcloses : RaisesOn apply (.must (.act closes (char ')'))) (StartsWith startsArg) :=
    raisesOn_must fun input s h => Fails.act (fails_one (h.stops fun _ => startsArg_ne))
  have hargs : Backtracks apply (.seq (.must methodArgs) (.must (.act closes (char ')')))) Nowhere
      Nowhere :=
    methodArgs_backtracks.must.seq (Backtracks.act rfl).must hcloses (.inl rfl)
  exact (Backtracks.act rfl).must.seq hargs raisesOn_nowhere (.inl rfl)

end Arguments

/-! ## Methods -/

section Methods

variable {σ ε : Type} {apply : Action → List Char → σ → Except ε σ}

/-- A group of decorators does, unless it fails on a bracket. -/
theorem methodDecoratorGroup_backtracks :
    Backtracks apply methodDecoratorGroup (StartsWith (· = '[')) Nowhere := by
  have hcontent : Backtracks apply decoratorContent Nonempty Nowhere := by
    have hrest : Backtracks apply (.seq decoratorSep decoratorValue) Nowhere Nowhere :=
      (Backtracks.silent rfl).seq_silent rfl (Backtracks.act rfl)
    have hkey : Backtracks apply decoratorKey Nonempty Nowhere := (Backtracks.act rfl).of_nowhere
    exact hkey.seq hrest raisesOn_nowhere (.inr fun _ _ _ _ => nonempty_of_consuming rfl)
  have hclose : Backtracks apply (.seq decoratorClose decoratorWs) Nonempty Nowhere :=
    ((Backtracks.act rfl).seq (Backtracks.silent rfl) raisesOn_nowhere (.inl rfl)).of_nowhere
  have hrest : Backtracks apply (.seq decoratorContent (.seq decoratorClose decoratorWs)) Nonempty
      Nowhere :=
    hcontent.seq hclose raisesOn_nowhere (.inr fun _ _ _ _ => nonempty_of_consuming rfl)
  have hopen : Backtracks apply decoratorOpen (StartsWith (· = '[')) Nowhere :=
    (Backtracks.silent rfl).of_nowhere
  exact hopen.seq hrest raisesOn_nowhere (.inr fun _ _ _ _ => startsWith_of_one)

/-- The returned values always run as if failures were undone. -/
theorem methodReturnType_backtracks : Backtracks apply methodReturnType Nowhere Nowhere := by
  have hreturn : Backtracks apply methodReturn Nowhere Nowhere :=
    argsGroup_backtracks .methodReturnOpen .methodReturnClose
  have hsync : Backtracks apply methodSyncReturn Nowhere Nowhere :=
    (Backtracks.act rfl).must.seq ((Backtracks.silent rfl).must.seq hreturn.must raisesOn_nowhere
      (.inl rfl)) raisesOn_nowhere (.inl rfl)
  exact (Backtracks.act rfl).sor hsync (fun _ h => h.elim) fun _ _ h => h.elim

/-- Behind its name, a method does not fail. -/
theorem method_backtracks : Backtracks apply method Nowhere Nowhere := by
  have hend : Backtracks apply (.seq methodWs methodEnd) Nowhere Nowhere :=
    (Backtracks.silent rfl).seq_silent rfl (Backtracks.act rfl)
  have hreturn : Backtracks apply (.seq methodWs (.seq methodReturnType (.seq methodWs methodEnd)))
      Nowhere Nowhere :=
    (Backtracks.silent rfl).seq_silent rfl
      (methodReturnType_backtracks.seq hend raisesOn_nowhere (.inl rfl))
  have hargs : Backtracks apply (.seq methodWs (.seq methodArgsGroup (.seq methodWs
      (.seq methodReturnType (.seq methodWs methodEnd))))) Nowhere Nowhere :=
    (Backtracks.silent rfl).seq_silent rfl
      ((argsGroup_backtracks _ _).seq hreturn raisesOn_nowhere (.inl rfl))
  -- in front of a decorator that was given up, there are no parameters
  have hraises : RaisesOn apply (.seq methodWs (.seq methodArgsGroup (.seq methodWs
      (.seq methodReturnType (.seq methodWs methodEnd))))) (StartsWith (· = '[')) := by
    have hne : ∀ {p : Char → Bool}, p '[' = false → ∀ c, decide (c = '[') = true → p c = false :=
      fun hp c hc => of_decide_eq_true hc ▸ hp
    refine raisesOn_seq_right (fun input s h => (fails_one (h.stops (hne rfl))).star) ?_
    refine raisesOn_seq (raisesOn_seq (raisesOn_must fun input s h => ?_))
    exact Fails.act (fails_one (h.stops (hne rfl)))
  have hdecorators : Backtracks apply (.seq (.opt (.star methodDecoratorGroup)) (.seq methodWs
      (.seq methodArgsGroup (.seq methodWs (.seq methodReturnType (.seq methodWs methodEnd))))))
      Nowhere Nowhere :=
    (methodDecoratorGroup_backtracks.star.imp (fun _ h => h.elim) fun _ h => h).opt.seq hargs
      hraises (.inl rfl)
  exact (Backtracks.act rfl).seq ((Backtracks.silent rfl).seq_silent rfl hdecorators)
    raisesOn_nowhere (.inl rfl)

end Methods

/-! ## Interfaces and includes -/

section TopLevel

variable {σ ε : Type} {apply : Action → List Char → σ → Except ε σ}

/-- A member of an interface always does. -/
theorem interfaceMember_backtracks : Backtracks apply interfaceMember Nowhere Nowhere := by
  have hmethod : Backtracks apply (padl method) Nowhere Nowhere :=
    (Backtracks.silent rfl).seq_silent rfl method_backtracks
  have hcomment : Backtracks apply (.sor comment (padl method)) Nowhere Nowhere :=
    (Backtracks.silent rfl).sor hmethod (fun _ h => h.elim) fun _ _ h => h.elim
  exact (Backtracks.silent rfl).sor hcomment (fun _ h => h.elim) fun _ _ h => h.elim

/-- An interface does, unless it fails before the end of the input. -/
theorem interface_backtracks : Backtracks apply interface Nonempty Nowhere := by
  have hstart : Backtracks apply interfaceStart Nonempty Nowhere := by
    have hname : Backtracks apply (.seq interfaceName (.seq (.star ws) (char '{'))) Nonempty
        Nowhere :=
      (Backtracks.act rfl).of_nowhere.seq (Backtracks.silent rfl) raisesOn_nowhere
        (.inr fun _ _ _ _ => nonempty_of_consuming rfl)
    have hws : Backtracks apply (.seq ws.plus (.seq interfaceName (.seq (.star ws) (char '{'))))
        Nonempty Nowhere :=
      (Backtracks.silent rfl).of_nowhere.seq hname raisesOn_nowhere
        (.inr fun _ _ _ _ => nonempty_of_consuming rfl)
    exact (Backtracks.silent rfl).of_nowhere.seq hws raisesOn_nowhere
      (.inr fun _ _ _ _ => nonempty_of_consuming rfl)
  have hcontent : Backtracks apply interfaceContent Nowhere Nowhere :=
    (interfaceMember_backtracks.seq interfaceMember_backtracks.star raisesOn_nowhere (.inl rfl)).opt
  -- the content may be empty, but what starts an interface is not
  have hrest : Backtracks apply (.seq interfaceContent interfaceEnd) (fun _ => True) Nowhere :=
    hcontent.of_nowhere.seq (Backtracks.act rfl) raisesOn_nowhere (.inr fun _ _ _ _ _ => trivial)
  exact hstart.seq hrest raisesOn_nowhere (.inr fun _ _ _ _ => nonempty_of_consuming rfl)

/-- An include does, unless it fails on a hash sign. -/
theorem include_backtracks : Backtracks apply «include» (StartsWith (· = '#')) Nowhere := by
  have hpath : Backtracks apply (.seq includePath (.seq includeClose includeCont)) (fun _ => True)
      Nowhere :=
    (Backtracks.act rfl).of_nowhere.seq (Backtracks.silent rfl) raisesOn_nowhere
      (.inr fun _ _ _ _ _ => trivial)
  have hrest : Backtracks apply (.seq (.star blank) (.seq includeOpen (.seq includePath
      (.seq includeClose includeCont)))) (fun _ => True) Nowhere :=
    (Backtracks.silent rfl).of_nowhere.seq
      ((Backtracks.silent rfl).of_nowhere.seq hpath raisesOn_nowhere
        (.inr fun _ _ _ _ _ => trivial))
      raisesOn_nowhere (.inr fun _ _ _ _ _ => trivial)
  refine (Backtracks.silent rfl).of_nowhere.seq hrest raisesOn_nowhere (.inr fun _ _ _ _ h => ?_)
  exact startsWith_of_seq (fun _ _ => startsWith_of_one) h

/-- Neither a comment nor an interface starts with the sign of an include. -/
theorem fails_of_startsWith_hash {input : List Char} (h : StartsWith (· = '#') input) (s : σ) :
    Fails apply (.sor comment interface) input s := by
  have hne : ∀ {p : Char → Bool}, p '#' = false → Stops p input := fun hp =>
    h.stops fun c hc => of_decide_eq_true hc ▸ hp
  have hws : Matches apply (.star ws) input s input s := (fails_one (hne rfl)).star
  have hcomment : Fails apply comment input s :=
    (hws.seq_fails (fails_str (hne rfl)).seq).sor (hws.seq_fails (fails_str (hne rfl)).seq)
  have hkeyword : Fails apply (keyword "interface") input s := Fails.seq (fails_str (hne rfl))
  have hstart : Fails apply interfaceStart input s := (hws.seq_fails hkeyword).seq
  exact hcomment.sor hstart.seq

/-- A declaration does, unless it fails before the end of the input. -/
theorem topLevel_backtracks : Backtracks apply topLevel Nonempty Nowhere := by
  have hcomment : Backtracks apply (.sor comment interface) Nonempty Nowhere :=
    (Backtracks.silent rfl).sor interface_backtracks (fun _ h => h.elim) fun _ _ h => h.elim
  have hinclude : Backtracks apply (.sor «include» (.sor comment interface)) Nonempty Nowhere :=
    include_backtracks.sor hcomment (fun _ => StartsWith.nonempty) fun _ s h =>
      fails_of_startsWith_hash h s
  exact (Backtracks.silent rfl).sor hinclude (fun _ h => h.elim) fun _ _ h => h.elim

/-- Whatever the actions do, what they did for rejected alternatives is not in a match of the
grammar. -/
theorem grammar_backtracks : Backtracks apply grammar Nowhere Nowhere := by
  have heof : RaisesOn apply (.must .eof) Nonempty := by
    refine raisesOn_must fun input s h => ?_
    rw [Fails, Rule.run_eof, if_neg (mt List.isEmpty_iff.mp h)]
  exact topLevel_backtracks.star.must.seq (Backtracks.silent rfl).must heof (.inl rfl)

end TopLevel

end Grammar

end KushOs.Idl
