import Mathlib.Tactic.Common

/-!
# Calls of bounded nesting depth

A function that may call itself through callbacks is modelled with a bound on how deeply its
activations nest. Its `Outcome` tells an execution that needs more nesting (`tooDeep`) from one
that fails, so that termination is a statement about outcomes: some bound is enough.

## Main definitions

* `Outcome`: what an execution comes to.
* `Outcome.Stuck`: it fails in a given way, or needs more nesting.

## Main results

* `Outcome.ofExcept_eq_returned`: code without callbacks returns what it returned before.
* `Outcome.Stuck.bind`: what follows a stuck execution does not matter.
-/

namespace NestedCall

variable {ε α β σ : Type}

/-- What an execution with a bounded nesting depth comes to. -/
inductive Outcome (ε α : Type)
  /-- It returns a value. -/
  | returned (a : α)
  /-- It fails. -/
  | failed (e : ε)
  /-- It needs more nested calls than the bound allows. -/
  | tooDeep
  deriving DecidableEq

namespace Outcome

/-- Continue after a call that returned. -/
protected def bind : Outcome ε α → (α → Outcome ε β) → Outcome ε β
  | returned a, f => f a
  | failed e, _ => failed e
  | tooDeep, _ => tooDeep

instance : Monad (Outcome ε) where
  pure := returned
  bind := Outcome.bind

/-- Code without callbacks needs no nesting. -/
def ofExcept : Except ε α → Outcome ε α
  | .ok a => returned a
  | .error e => failed e

/-- A call that returned goes on. -/
@[simp]
theorem returned_bind (a : α) (f : α → Outcome ε β) : (returned a >>= f) = f a := rfl

/-- A call that failed does not go on. -/
@[simp]
theorem failed_bind (e : ε) (f : α → Outcome ε β) : (failed e >>= f) = failed e := rfl

/-- A call that nests too deep does not go on. -/
@[simp]
theorem tooDeep_bind (f : α → Outcome ε β) : (tooDeep >>= f) = tooDeep := rfl

@[simp]
theorem ofExcept_ok (a : α) : (ofExcept (.ok a) : Outcome ε α) = returned a := rfl

@[simp]
theorem ofExcept_error (e : ε) : (ofExcept (.error e) : Outcome ε α) = failed e := rfl

instance : LawfulMonad (Outcome ε) :=
  LawfulMonad.mk' _ (fun x => by cases x <;> rfl) (fun _ _ => rfl)
    (fun x _ _ => by cases x <;> rfl)

/-- A step without calls returns if it does not fail. -/
theorem ofExcept_eq_returned {x : Except ε α} {a : α} :
    ofExcept x = returned a ↔ x = .ok a := by
  cases x with
  | error e => simp
  | ok b => simp

/-- An execution that does not return: it fails with `e`, or the bound stops it first. -/
def Stuck (e : ε) (x : Outcome ε α) : Prop := x = failed e ∨ x = tooDeep

/-- What follows a stuck execution does not matter. -/
theorem Stuck.bind {e : ε} {x : Outcome ε α} (hx : Stuck e x) (f : α → Outcome ε β) :
    Stuck e (x >>= f) := by
  rcases hx with hx | hx
  · left
    rw [hx, failed_bind]
  · right
    rw [hx, tooDeep_bind]

/-- A stuck execution returns nothing. -/
theorem Stuck.ne_returned {e : ε} {x : Outcome ε α} (hx : Stuck e x) (a : α) :
    x ≠ returned a := by
  rcases hx with hx | hx <;> simp [hx]

/-- A stuck execution fails in no other way. -/
theorem Stuck.ne_failed {e e' : ε} {x : Outcome ε α} (hx : Stuck e x) (he : e ≠ e') :
    x ≠ failed e' := by
  rcases hx with hx | hx <;> simp [hx, he]

end Outcome

end NestedCall
