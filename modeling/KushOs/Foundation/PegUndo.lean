import KushOs.Foundation.PegLogic

/-!
# Actions of rejected alternatives

A rule can fail after some of its actions have run, and what they did stays. A second meaning of
rules takes it back. The two agree on an input unless a rule has failed in this way, and then some
inputs, which the rules of inference keep track of, can be left that the parse gets stuck on.

## Main definitions

* `Rule.runUndo`: rules that take back the actions of a part that failed.
* `Backtracks`: the two meanings agree, up to inputs that are lost.

## Main results

* The rules of inference of `Backtracks`.
-/

namespace Peg

variable {α χ ε σ : Type}

/-- Go back to a state after a failure. -/
def Result.undo (s : σ) : Result χ ε σ → Result χ ε σ
  | .noMatch _ => .noMatch s
  | x => x

/-- Run a rule; when the second part of a sequence fails, the actions of the first part are taken
back. -/
def Rule.runUndo (apply : α → List χ → σ → Except ε σ) : Rule α χ → List χ → σ → Result χ ε σ
  | .one _, [], s => .noMatch s
  | .one p, c :: input, s => if p c then .matched input s else .noMatch s
  | .success, input, s => .matched input s
  | .eof, input, s => if input.isEmpty then .matched input s else .noMatch s
  | .notAt p, input, s => if input.head?.any p then .noMatch s else .matched input s
  | .seq a b, input, s =>
      (a.runUndo apply input s).next (fun mid t => (b.runUndo apply mid t).undo s) .noMatch
  | .sor a b, input, s => (a.runUndo apply input s).next .matched (b.runUndo apply input)
  | .star r, input, s => starLoop (r.runUndo apply) (input.length + 1) input s
  | .opt r, input, s => (r.runUndo apply input s).next .matched (.matched input)
  | .skipTo r, input, s => skipLoop (r.runUndo apply) input s
  | .must r, input, s => (r.runUndo apply input s).next .matched fun _ => .raised .parse
  | .act a r, input, s => (r.runUndo apply input s).next
      (fun rest t =>
        match apply a (input.take (input.length - rest.length)) t with
        | .ok u => .matched rest u
        | .error e => .raised (.exception e))
      .noMatch

/-- How the outcome of a rule compares with the one where failures are undone: they are the same, a
failure leaves the state as it was, an error has come up, or the input is lost. -/
inductive Undone (F M : List χ → Prop) (input : List χ) (s : σ) :
    Result χ ε σ → Result χ ε σ → Prop
  | matched (rest : List χ) (t : σ) : Undone F M input s (.matched rest t) (.matched rest t)
  | noMatch : Undone F M input s (.noMatch s) (.noMatch s)
  | raised (e : Error ε) (y : Result χ ε σ) : Undone F M input s (.raised e) y
  | diverged (y : Result χ ε σ) : Undone F M input s .diverged y
  | lostMatch {rest : List χ} (t : σ) (y : Result χ ε σ) :
      M rest → Undone F M input s (.matched rest t) y
  | lostFail (t : σ) (y : Result χ ε σ) : F input → Undone F M input s (.noMatch t) y

/-- No input is lost. -/
def Nowhere (_ : List χ) : Prop := False

/-- The outcomes of a rule are the ones where failures are undone, unless it fails on an input of
`F`, or matches and leaves an input of `M`. -/
def Backtracks (apply : α → List χ → σ → Except ε σ) (r : Rule α χ) (F M : List χ → Prop) : Prop :=
  ∀ input s, Undone F M input s (r.run apply input s) (r.runUndo apply input s)

/-- On the inputs of `L`, the rule is an error. -/
def RaisesOn (apply : α → List χ → σ → Except ε σ) (r : Rule α χ) (L : List χ → Prop) : Prop :=
  ∀ input s, L input → ∃ e, r.run apply input s = .raised e

section Rules

variable {apply : α → List χ → σ → Except ε σ} {a b r : Rule α χ} {F F' M M' : List χ → Prop}
  {input : List χ} {s : σ}

theorem Undone.imp {x y : Result χ ε σ} (h : Undone F M input s x y)
    (hF : ∀ input, F input → F' input) (hM : ∀ input, M input → M' input) :
    Undone F' M' input s x y := by
  cases h with
  | matched rest t => exact .matched rest t
  | noMatch => exact .noMatch
  | raised e => exact .raised e _
  | diverged => exact .diverged _
  | lostMatch t y hlost => exact .lostMatch t _ (hM _ hlost)
  | lostFail t y hlost => exact .lostFail t _ (hF _ hlost)

/-- Go on after a rule. What follows an input that is lost is not compared with anything. -/
theorem Undone.next {x y : Result χ ε σ} (h : Undone F M input s x y)
    {onMatch onMatch' : List χ → σ → Result χ ε σ} {onFail onFail' : σ → Result χ ε σ}
    (hmatch : ∀ rest t, x = .matched rest t →
      Undone F' M' input s (onMatch rest t) (onMatch' rest t))
    (hfail : Undone F' M' input s (onFail s) (onFail' s))
    (hlostMatch : ∀ rest t z, M rest → Undone F' M' input s (onMatch rest t) z)
    (hlostFail : ∀ t z, F input → Undone F' M' input s (onFail t) z) :
    Undone F' M' input s (x.next onMatch onFail) (y.next onMatch' onFail') := by
  cases h with
  | matched rest t => exact hmatch rest t rfl
  | noMatch => exact hfail
  | raised e => exact .raised e _
  | diverged => exact .diverged _
  | lostMatch t y hlost => exact hlostMatch _ t _ hlost
  | lostFail t y hlost => exact hlostFail t _ hlost

/-- Without lost inputs, an outcome that is no failure does not depend on where the rule started. -/
theorem Undone.rebase {input' : List χ} {s' : σ} {x y : Result χ ε σ}
    (h : Undone Nowhere M input s x y) (hs : s' = s ∨ ∀ t, x ≠ .noMatch t) :
    Undone Nowhere M input' s' x y := by
  cases h with
  | matched rest t => exact .matched rest t
  | raised e => exact .raised e _
  | diverged => exact .diverged _
  | lostMatch t y hlost => exact .lostMatch t _ hlost
  | lostFail _ _ hlost => exact hlost.elim
  | noMatch =>
      rcases hs with rfl | hne
      · exact .noMatch
      · exact absurd rfl (hne s)

theorem raisesOn_nowhere : RaisesOn apply r Nowhere := fun _ _ h => h.elim

namespace Backtracks

theorem imp (h : Backtracks apply r F M) (hF : ∀ input, F input → F' input)
    (hM : ∀ input, M input → M' input) : Backtracks apply r F' M' :=
  fun input s => (h input s).imp hF hM

/-- A rule that loses nothing is a rule that loses inputs of some set at most. -/
theorem of_nowhere (h : Backtracks apply r Nowhere Nowhere) : Backtracks apply r F M :=
  h.imp (fun _ hlost => hlost.elim) fun _ hlost => hlost.elim

/-- A sequence whose second part does not fail, or whose first part matches inputs of `F` only: what
is lost when the second part fails is one of them. -/
theorem seq (ha : Backtracks apply a F M) (hb : Backtracks apply b F' M')
    (hraises : RaisesOn apply b M)
    (hfails : b.total = true ∨ ∀ input s rest t, a.run apply input s = .matched rest t → F input) :
    Backtracks apply (a.seq b) F M' := by
  intro input s
  refine (ha input s).next (fun mid t hrun => ?_) .noMatch (fun mid t z hlost => ?_)
    fun t z hlost => .lostFail t z hlost
  · have hmid := hb mid t
    generalize hx : b.run apply mid t = x at hmid ⊢
    generalize b.runUndo apply mid t = y at hmid ⊢
    -- a failure that loses nothing behind the first part undoes the first part, too
    have hfail : ∀ u z, x = .noMatch u → Undone F M' input s x z := by
      rintro u z rfl
      rcases hfails with htotal | hstarts
      · exact absurd hx (b.run_ne_noMatch htotal)
      · exact .lostFail u z (hstarts input s mid t hrun)
    cases hmid with
    | matched rest u => exact .matched rest u
    | noMatch => exact hfail _ _ rfl
    | raised e => exact .raised e _
    | diverged => exact .diverged _
    | lostMatch u _ hlost => exact .lostMatch u _ hlost
    | lostFail u => exact hfail u _ rfl
  · obtain ⟨e, he⟩ := hraises mid t hlost
    rw [he]
    exact .raised e z

/-- Ordered choice, where the second alternative fails on what the first one loses. -/
theorem sor (ha : Backtracks apply a F M) (hb : Backtracks apply b F' M)
    (hsub : ∀ input, F input → F' input) (hfails : ∀ input s, F input → Fails apply b input s) :
    Backtracks apply (a.sor b) F' M := by
  intro input s
  refine (ha input s).next (fun rest t _ => .matched rest t) (hb input s)
    (fun rest t z hlost => .lostMatch t z hlost) fun t z hlost => ?_
  rw [hfails input t hlost]
  exact .lostFail t z (hsub input hlost)

/-- A repetition stops in front of what its rule loses. -/
theorem star (h : Backtracks apply r F Nowhere) : Backtracks apply r.star Nowhere F := by
  intro input s
  rw [Rule.run_star, Rule.runUndo]
  generalize input.length + 1 = n
  induction n generalizing input s with
  | zero => exact .diverged _
  | succ n ih =>
      refine (h input s).next (fun rest t _ => ?_) (.matched input s)
        (fun _ _ _ hlost => hlost.elim) fun t z hlost => .lostMatch t z hlost
      exact (ih rest t).rebase (.inr fun _ => starLoop_ne_noMatch n)

theorem opt (h : Backtracks apply r F F) : Backtracks apply r.opt Nowhere F :=
  fun input s => (h input s).next (fun rest t _ => .matched rest t) (.matched input s)
    (fun _ t z hlost => .lostMatch t z hlost) fun t z hlost => .lostMatch t z hlost

theorem must (h : Backtracks apply r F M) : Backtracks apply r.must Nowhere M :=
  fun input s => (h input s).next (fun rest t _ => .matched rest t) (.raised .parse _)
    (fun _ t z hlost => .lostMatch t z hlost) fun _ z _ => .raised .parse z

theorem skipTo (h : Backtracks apply r Nowhere Nowhere) :
    Backtracks apply r.skipTo Nowhere Nowhere := by
  intro input s
  rw [Rule.run_skipTo, Rule.runUndo]
  induction input with
  | nil => exact h [] s
  | cons c input ih =>
      exact (h (c :: input) s).next (fun rest t _ => .matched rest t) (ih.rebase (.inl rfl))
        (fun _ _ _ hlost => hlost.elim) fun _ _ hlost => hlost.elim

/-- Behind a rule without actions, a failure that loses nothing loses nothing. -/
theorem seq_silent (ha : Backtracks apply a Nowhere Nowhere) (hsilent : a.silent = true)
    (hb : Backtracks apply b Nowhere M) : Backtracks apply (a.seq b) Nowhere M := by
  intro input s
  refine (ha input s).next (fun mid t hrun => ?_) .noMatch (fun _ _ _ hlost => hlost.elim)
    fun _ _ hlost => hlost.elim
  obtain rfl := a.run_silent hsilent hrun
  have hmid := hb mid t
  generalize b.run apply mid t = x at hmid ⊢
  generalize b.runUndo apply mid t = y at hmid ⊢
  cases hmid with
  | matched rest u => exact .matched rest u
  | noMatch => exact .noMatch
  | raised e => exact .raised e _
  | diverged => exact .diverged _
  | lostMatch u _ hlost => exact .lostMatch u _ hlost
  | lostFail _ _ hlost => exact hlost.elim

/-- A rule without actions has nothing to undo. -/
theorem silent (h : r.silent = true) : Backtracks apply r Nowhere Nowhere := by
  induction r with
  | one p =>
      intro input s
      cases input with
      | nil => exact .noMatch
      | cons c input =>
          rw [Rule.run_one_cons, Rule.runUndo]
          split
          · exact .matched input s
          · exact .noMatch
  | success => exact fun input s => .matched input s
  | eof =>
      intro input s
      rw [Rule.run_eof, Rule.runUndo]
      split
      · exact .matched input s
      · exact .noMatch
  | notAt p =>
      intro input s
      rw [Rule.run_notAt, Rule.runUndo]
      split
      · exact .noMatch
      · exact .matched input s
  | seq a b iha ihb =>
      obtain ⟨ha, hb⟩ := Bool.and_eq_true_iff.mp h
      exact (iha ha).seq_silent ha (ihb hb)
  | sor a b iha ihb =>
      obtain ⟨ha, hb⟩ := Bool.and_eq_true_iff.mp h
      exact (iha ha).sor (ihb hb) (fun _ hlost => hlost.elim) fun _ _ hlost => hlost.elim
  | star r ih => exact (ih h).star
  | opt r ih => exact (ih h).opt
  | skipTo r ih => exact (ih h).skipTo
  | must r ih => exact (ih h).must
  | act e r => cases h

/-- An action is run after its rule has matched. -/
theorem act {e : α} (h : r.silent = true) : Backtracks apply (.act e r) Nowhere Nowhere := by
  intro input s
  refine (silent h input s).next (fun rest t _ => ?_) .noMatch (fun _ _ _ hlost => hlost.elim)
    fun _ _ hlost => hlost.elim
  cases apply e (input.take (input.length - rest.length)) t with
  | ok u => exact .matched rest u
  | error err => exact .raised _ _

end Backtracks

end Rules

end Peg
