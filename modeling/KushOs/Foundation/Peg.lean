import Mathlib.Tactic.Common
import Mathlib.Data.Nat.Notation

/-!
# Parsing expression grammars with actions

The rules of a grammar are data. A rule is run on an input and a state: actions that are attached
to rules change the state as soon as their rule matches, and what they did stays when an enclosing
rule fails afterwards and the input is rewound. A rule under `must` turns a failure into an error
of the whole parse, and so does an action that throws.

## Main definitions

* `Rule`, `Rule.run`: grammars and their meaning.
* `Stops`: an input does not go on with a character of a class.
* `Matches`, `Fails`: a rule matches and leaves an input and a state; it fails without effect.

## Main results

* The rules of inference of `Matches` and `Fails`, one or two for each kind of rule.
* `Rule.run_sim`: two interpretations of the actions, one of which simulates the other, parse the
  same.
-/

namespace Peg

/-- Rules over characters `χ` with actions `α`. -/
inductive Rule (α χ : Type)
  /-- One character of a class. -/
  | one (p : χ → Bool)
  /-- Nothing, successfully. -/
  | success
  /-- The end of the input. -/
  | eof
  /-- The next character, if there is one, is not of the class; nothing is consumed. -/
  | notAt (p : χ → Bool)
  | seq (a b : Rule α χ)
  /-- Ordered choice. -/
  | sor (a b : Rule α χ)
  | star (r : Rule α χ)
  | opt (r : Rule α χ)
  /-- Everything until the rule matches, and that. -/
  | skipTo (r : Rule α χ)
  /-- A failure of the rule is an error. -/
  | must (r : Rule α χ)
  | act (a : α) (r : Rule α χ)

/-- An error that ends the parse. -/
inductive Error (ε : Type)
  /-- A rule under `must` failed. -/
  | parse
  /-- An action threw. -/
  | exception (e : ε)
  deriving DecidableEq, Repr

/-- What running a rule comes to. -/
inductive Result (χ ε σ : Type)
  | matched (rest : List χ) (s : σ)
  | noMatch (s : σ)
  | raised (e : Error ε)
  /-- A repetition goes on for ever. -/
  | diverged

variable {α χ ε σ τ : Type}

/-- Go on after a rule: with `onMatch` if it matched, with `onFail` if it failed. -/
def Result.next (x : Result χ ε σ) (onMatch : List χ → σ → Result χ ε τ)
    (onFail : σ → Result χ ε τ) : Result χ ε τ :=
  match x with
  | .matched rest s => onMatch rest s
  | .noMatch s => onFail s
  | .raised e => .raised e
  | .diverged => .diverged

/-- The loop of `star`, with a bound on the number of rounds. -/
def starLoop (r : List χ → σ → Result χ ε σ) : ℕ → List χ → σ → Result χ ε σ
  | 0, _, _ => .diverged
  | n + 1, input, s => (r input s).next (starLoop r n) (.matched input)

/-- The loop of `skipTo`. -/
def skipLoop (r : List χ → σ → Result χ ε σ) : List χ → σ → Result χ ε σ
  | [], s => r [] s
  | c :: input, s => (r (c :: input) s).next .matched (skipLoop r input)

/-- Run a rule, with the actions interpreted by `apply` from the text that their rule matched.

A repetition whose body matches without consuming anything never ends, so one more round than there
are characters is enough for the others. -/
def Rule.run (apply : α → List χ → σ → Except ε σ) : Rule α χ → List χ → σ → Result χ ε σ
  | .one _, [], s => .noMatch s
  | .one p, c :: input, s => if p c then .matched input s else .noMatch s
  | .success, input, s => .matched input s
  | .eof, input, s => if input.isEmpty then .matched input s else .noMatch s
  | .notAt p, input, s => if input.head?.any p then .noMatch s else .matched input s
  | .seq a b, input, s => (a.run apply input s).next (b.run apply) .noMatch
  | .sor a b, input, s => (a.run apply input s).next .matched (b.run apply input)
  | .star r, input, s => starLoop (r.run apply) (input.length + 1) input s
  | .opt r, input, s => (r.run apply input s).next .matched (.matched input)
  | .skipTo r, input, s => skipLoop (r.run apply) input s
  | .must r, input, s => (r.run apply input s).next .matched fun _ => .raised .parse
  | .act a r, input, s => (r.run apply input s).next
      (fun rest t =>
        match apply a (input.take (input.length - rest.length)) t with
        | .ok u => .matched rest u
        | .error e => .raised (.exception e))
      .noMatch

namespace Rule

section Equations

variable (apply : α → List χ → σ → Except ε σ) (a b r : Rule α χ) (p : χ → Bool) (e : α) (c : χ)
  (input : List χ) (s : σ)

/-- A class looks at the first character only. -/
theorem run_one_cons :
    (one p).run apply (c :: input) s = if p c then .matched input s else .noMatch s := rfl

/-- The end of the input matches the empty input and nothing else. -/
theorem run_eof :
    (eof : Rule α χ).run apply input s =
      if input.isEmpty then .matched input s else .noMatch s := rfl

/-- A negative lookahead consumes nothing, and the end of the input passes it. -/
theorem run_notAt :
    (notAt p).run apply input s =
      if input.head?.any p then .noMatch s else .matched input s := rfl

/-- The second rule of a sequence runs on what the first one left, input and state. -/
theorem run_seq :
    (seq a b).run apply input s = (a.run apply input s).next (b.run apply) .noMatch := rfl

/-- The second alternative sees the input of the first one, but the state that it left. -/
theorem run_sor :
    (sor a b).run apply input s = (a.run apply input s).next .matched (b.run apply input) := rfl

/-- A repetition has one round more than there are characters. -/
theorem run_star :
    (star r).run apply input s = starLoop (r.run apply) (input.length + 1) input s := rfl

/-- An optional rule that fails leaves the input where it was. -/
theorem run_opt :
    (opt r).run apply input s = (r.run apply input s).next .matched (.matched input) := rfl

/-- Skipping tries the rule at one character after the other. -/
theorem run_skipTo : (skipTo r).run apply input s = skipLoop (r.run apply) input s := rfl

/-- A failure under `must` is an error. -/
theorem run_must :
    (must r).run apply input s =
      (r.run apply input s).next .matched fun _ => .raised .parse := rfl

/-- An action runs on the text that its rule consumed, right after the match. -/
theorem run_act :
    (act e r).run apply input s = (r.run apply input s).next
      (fun rest t =>
        match apply e (input.take (input.length - rest.length)) t with
        | .ok u => .matched rest u
        | .error e => .raised (.exception e))
      .noMatch := rfl

end Equations

/-! ### Derived rules -/

/-- A rule, once or more. -/
def plus (r : Rule α χ) : Rule α χ := r.seq r.star

/-- A fixed text. -/
def str [DecidableEq χ] : List χ → Rule α χ
  | [] => .success
  | c :: text => seq (.one (· = c)) (str text)

end Rule

/-! ## Inference -/

/-- The input does not start with a character of the class. -/
def Stops (p : χ → Bool) (input : List χ) : Prop := ∀ c ∈ input.head?, p c = false

/-- The empty input goes on with nothing. -/
theorem stops_nil (p : χ → Bool) : Stops p [] := by
  intro c hc
  cases hc

/-- An input whose first character is not of a class does not go on with the class. -/
theorem stops_cons {p : χ → Bool} {c : χ} (input : List χ) (h : p c = false) :
    Stops p (c :: input) := by
  rintro d ⟨⟩
  exact h

/-- An input that does not go on with a class does not go on with a smaller one either. -/
theorem Stops.mono {p q : χ → Bool} {input : List χ} (h : Stops p input)
    (hpq : ∀ c, q c = true → p c = true) : Stops q input := by
  intro c hc
  cases hq : q c with
  | false => rfl
  | true =>
      have hp : p c = true := hpq c hq
      rw [h c hc] at hp
      cases hp

section Inference

variable (apply : α → List χ → σ → Except ε σ)

/-- The rule matches and leaves the input `rest` and the state `t`. -/
def Matches (r : Rule α χ) (input : List χ) (s : σ) (rest : List χ) (t : σ) : Prop :=
  r.run apply input s = .matched rest t

/-- The rule fails, and no action changed the state. -/
def Fails (r : Rule α χ) (input : List χ) (s : σ) : Prop := r.run apply input s = .noMatch s

variable {apply} {a b r : Rule α χ} {p : χ → Bool} {input mid rest text : List χ} {s t u : σ}

/-- A class matches one of its characters. -/
theorem matches_one {c : χ} (h : p c = true) :
    Matches apply (.one p) (c :: rest) s rest s := by
  rw [Matches, Rule.run_one_cons, if_pos h]

/-- A class fails on an input that starts with none of its characters. -/
theorem fails_one (h : Stops p input) : Fails apply (.one p) input s := by
  cases input with
  | nil => rfl
  | cons c input =>
      have hc : p c = false := h c rfl
      rw [Fails, Rule.run_one_cons, hc]
      rfl

/-- The empty rule matches everywhere. -/
theorem matches_success : Matches apply .success input s input s := rfl

/-- The end of the input matches there. -/
theorem matches_eof : Matches apply .eof [] s [] s := rfl

/-- A negative lookahead matches before an input that does not go on with its class. -/
theorem matches_notAt (h : Stops p input) :
    Matches apply (.notAt p) input s input s := by
  have hany : input.head?.any p = false := by
    cases hhead : input.head? with
    | none => rfl
    | some c => exact h c hhead
  rw [Matches, Rule.run_notAt, hany]
  rfl

/-- Rules match one after the other. -/
theorem Matches.seq (ha : Matches apply a input s mid t) (hb : Matches apply b mid t rest u) :
    Matches apply (a.seq b) input s rest u := by
  rw [Matches] at ha
  rw [Matches, Rule.run_seq, ha]
  exact hb

/-- A sequence fails with its first rule. -/
theorem Fails.seq (ha : Fails apply a input s) : Fails apply (a.seq b) input s := by
  rw [Fails] at ha
  rw [Fails, Rule.run_seq, ha]
  rfl

/-- A sequence fails with its second rule, without effect if the first one had none. -/
theorem Matches.seq_fails (ha : Matches apply a input s mid s) (hb : Fails apply b mid s) :
    Fails apply (a.seq b) input s := by
  rw [Matches] at ha
  rw [Fails, Rule.run_seq, ha]
  exact hb

/-- The first alternative that matches is taken. -/
theorem Matches.sor_left (ha : Matches apply a input s rest t) :
    Matches apply (a.sor b) input s rest t := by
  rw [Matches] at ha
  rw [Matches, Rule.run_sor, ha]
  rfl

/-- The second alternative is tried once the first one has failed. -/
theorem Matches.sor_right (hb : Matches apply b input s rest t) (ha : Fails apply a input s) :
    Matches apply (a.sor b) input s rest t := by
  rw [Fails] at ha
  rw [Matches, Rule.run_sor, ha]
  exact hb

/-- A choice fails if both alternatives do. -/
theorem Fails.sor (ha : Fails apply a input s) (hb : Fails apply b input s) :
    Fails apply (a.sor b) input s := by
  rw [Fails] at ha
  rw [Fails, Rule.run_sor, ha]
  exact hb

/-- An optional rule matches what its rule matches. -/
theorem Matches.opt (h : Matches apply r input s rest t) :
    Matches apply r.opt input s rest t := by
  rw [Matches] at h
  rw [Matches, Rule.run_opt, h]
  rfl

/-- An optional rule matches nothing where its rule fails. -/
theorem Fails.opt (h : Fails apply r input s) : Matches apply r.opt input s input s := by
  rw [Fails] at h
  rw [Matches, Rule.run_opt, h]
  rfl

/-- A rule that matches also does under `must`. -/
theorem Matches.must (h : Matches apply r input s rest t) :
    Matches apply r.must input s rest t := by
  rw [Matches] at h
  rw [Matches, Rule.run_must, h]
  rfl

/-- An action sees the text that its rule consumed. -/
theorem Matches.act {e : α} (text : List χ) (h : Matches apply r (text ++ rest) s rest t)
    (hact : apply e text t = .ok u) : Matches apply (.act e r) (text ++ rest) s rest u := by
  rw [Matches] at h
  rw [Matches, Rule.run_act, h, Result.next]
  -- what is left of the input determines what was consumed
  have htake : (text ++ rest).take ((text ++ rest).length - rest.length) = text := by
    rw [List.length_append, Nat.add_sub_cancel, List.take_left']
    rfl
  rw [htake, hact]

/-- The action of a rule that fails does not run. -/
theorem Fails.act {e : α} (h : Fails apply r input s) : Fails apply (.act e r) input s := by
  rw [Fails] at h
  rw [Fails, Rule.run_act, h]
  rfl

/-- Nothing is skipped where the rule matches. -/
theorem Matches.skipTo_here (h : Matches apply r input s rest t) :
    Matches apply r.skipTo input s rest t := by
  rw [Matches] at h
  cases input with
  | nil => exact h
  | cons c input =>
      rw [Matches, Rule.run_skipTo, skipLoop, h]
      rfl

/-! ### Repetition -/

/-- More rounds do not change a loop that has ended. -/
theorem starLoop_mono {f : List χ → σ → Result χ ε σ} {n m : ℕ} (hle : n ≤ m)
    (h : starLoop f n input s ≠ .diverged) :
    starLoop f m input s = starLoop f n input s := by
  induction n generalizing m input s with
  | zero => exact absurd rfl h
  | succ n ih =>
      obtain ⟨m, rfl⟩ : ∃ k, m = k + 1 := ⟨m - 1, by omega⟩
      rw [starLoop] at h ⊢
      rw [starLoop]
      cases hround : f input s with
      | matched rest t =>
          rw [hround] at h
          exact ih (by omega) h
      | noMatch t => rfl
      | raised e => rfl
      | diverged => rfl

/-- A repetition ends where its rule fails. -/
theorem Fails.star (h : Fails apply r input s) : Matches apply r.star input s input s := by
  rw [Fails] at h
  rw [Matches, Rule.run_star, starLoop, h]
  rfl

/-- One round that consumes something, and the rest of the loop. -/
theorem Matches.star (h : Matches apply r input s mid t) (hlt : mid.length < input.length)
    (hstar : Matches apply r.star mid t rest u) : Matches apply r.star input s rest u := by
  rw [Matches] at h
  rw [Matches, Rule.run_star] at hstar
  have hmono := starLoop_mono (f := r.run apply) (m := input.length)
    (Nat.succ_le_of_lt hlt) (fun hdiv => by rw [hdiv] at hstar; cases hstar)
  -- the rest of the loop has fewer rounds left than it was proved with
  rw [Matches, Rule.run_star, starLoop, h]
  exact hmono.trans hstar

/-- A run of characters of a class, up to one that is not of it. -/
theorem matches_star_one (text : List χ) (htext : ∀ c ∈ text, p c = true) (hrest : Stops p rest) :
    Matches apply (Rule.one p).star (text ++ rest) s rest s := by
  induction text with
  | nil => exact (fails_one hrest).star
  | cons c text ih =>
      have hone : Matches apply (.one p) (c :: (text ++ rest)) s (text ++ rest) s :=
        matches_one (htext c List.mem_cons_self)
      refine hone.star (Nat.lt_succ_self _) ?_
      exact ih fun d hd => htext d (List.mem_cons_of_mem _ hd)

/-- A text matches itself. -/
theorem matches_str [DecidableEq χ] (text rest : List χ) :
    Matches apply (Rule.str text) (text ++ rest) s rest s := by
  induction text with
  | nil => exact matches_success
  | cons c text ih =>
      have hone : Matches apply (.one (· = c)) (c :: (text ++ rest)) s (text ++ rest) s :=
        matches_one (decide_eq_true rfl)
      exact hone.seq ih

/-- A text fails on an input that does not start with its first character. -/
theorem fails_str [DecidableEq χ] {c : χ} (h : Stops (· = c) input) :
    Fails apply (Rule.str (c :: text)) input s :=
  (fails_one h).seq

end Inference

/-! ## Simulation -/

/-- A result that ends the parse is simulated by anything; another one is simulated by a result of
the same kind with a related state. -/
def Simulated {ε' : Type} (R : σ → τ → Prop) : Result χ ε σ → Result χ ε' τ → Prop
  | .matched rest s, y => ∃ t, y = .matched rest t ∧ R s t
  | .noMatch s, y => ∃ t, y = .noMatch t ∧ R s t
  | .raised _, _ => True
  | .diverged, _ => True

section Simulation

variable {ε' : Type} {R : σ → τ → Prop}

/-- Simulated results that go on in simulated ways are simulated. -/
theorem Simulated.next {x : Result χ ε σ} {y : Result χ ε' τ} (h : Simulated R x y)
    {onMatch : List χ → σ → Result χ ε σ} {onMatch' : List χ → τ → Result χ ε' τ}
    {onFail : σ → Result χ ε σ} {onFail' : τ → Result χ ε' τ}
    (hmatch : ∀ rest s t, R s t → Simulated R (onMatch rest s) (onMatch' rest t))
    (hfail : ∀ s t, R s t → Simulated R (onFail s) (onFail' t)) :
    Simulated R (x.next onMatch onFail) (y.next onMatch' onFail') := by
  cases x with
  | matched rest s =>
      obtain ⟨t, rfl, hR⟩ := h
      exact hmatch rest s t hR
  | noMatch s =>
      obtain ⟨t, rfl, hR⟩ := h
      exact hfail s t hR
  | raised e => trivial
  | diverged => trivial

theorem simulated_matched (rest : List χ) (s : σ) (t : τ) (h : R s t) :
    Simulated R (.matched rest s : Result χ ε σ) (.matched rest t : Result χ ε' τ) :=
  ⟨t, rfl, h⟩

theorem simulated_noMatch (s : σ) (t : τ) (h : R s t) :
    Simulated R (.noMatch s : Result χ ε σ) (.noMatch t : Result χ ε' τ) :=
  ⟨t, rfl, h⟩

/-- A repetition is simulated if each of its rounds is. -/
theorem starLoop_sim {f : List χ → σ → Result χ ε σ} {g : List χ → τ → Result χ ε' τ}
    (hfg : ∀ input s t, R s t → Simulated R (f input s) (g input t)) (n : ℕ) (input : List χ)
    (s : σ) (t : τ) (h : R s t) : Simulated R (starLoop f n input s) (starLoop g n input t) := by
  induction n generalizing input s t with
  | zero => trivial
  | succ n ih => exact (hfg input s t h).next ih (simulated_matched input)

/-- Skipping to a rule is simulated if the rule is. -/
theorem skipLoop_sim {f : List χ → σ → Result χ ε σ} {g : List χ → τ → Result χ ε' τ}
    (hfg : ∀ input s t, R s t → Simulated R (f input s) (g input t)) (input : List χ)
    (s : σ) (t : τ) (h : R s t) : Simulated R (skipLoop f input s) (skipLoop g input t) := by
  induction input generalizing s t with
  | nil => exact hfg [] s t h
  | cons c input ih => exact (hfg (c :: input) s t h).next simulated_matched ih

/-- When each action of one interpretation that does not throw is simulated by the other
interpretation, every rule is. -/
theorem Rule.run_sim {apply : α → List χ → σ → Except ε σ} {apply' : α → List χ → τ → Except ε' τ}
    (hact : ∀ a text s s' t, R s t → apply a text s = .ok s' →
      ∃ t', apply' a text t = .ok t' ∧ R s' t')
    (r : Rule α χ) (input : List χ) (s : σ) (t : τ) (h : R s t) :
    Simulated R (r.run apply input s) (r.run apply' input t) := by
  induction r generalizing input s t with
  | one p =>
      cases input with
      | nil => exact simulated_noMatch s t h
      | cons c input =>
          rw [Rule.run_one_cons, Rule.run_one_cons]
          split
          · exact simulated_matched _ s t h
          · exact simulated_noMatch s t h
  | success => exact simulated_matched _ s t h
  | eof =>
      rw [Rule.run_eof, Rule.run_eof]
      split
      · exact simulated_matched _ s t h
      · exact simulated_noMatch s t h
  | notAt p =>
      rw [Rule.run_notAt, Rule.run_notAt]
      split
      · exact simulated_noMatch s t h
      · exact simulated_matched _ s t h
  | seq a b iha ihb => exact (iha input s t h).next ihb simulated_noMatch
  | sor a b iha ihb => exact (iha input s t h).next simulated_matched (ihb input)
  | star r ih => exact starLoop_sim ih _ input s t h
  | opt r ih => exact (ih input s t h).next simulated_matched (simulated_matched input)
  | skipTo r ih => exact skipLoop_sim ih input s t h
  | must r ih => exact (ih input s t h).next simulated_matched fun _ _ _ => trivial
  | act a r ih =>
      refine (ih input s t h).next (fun rest s t hR => ?_) simulated_noMatch
      -- only here do the interpretations differ
      cases happly : apply a (input.take (input.length - rest.length)) s with
      | ok s' =>
          obtain ⟨t', happly', hR'⟩ := hact a _ s s' t hR happly
          rw [happly']
          exact simulated_matched rest s' t' hR'
      | error e => trivial

end Simulation

end Peg
