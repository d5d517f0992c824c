import Mathlib.Tactic.Common

/-!
# Computations that may fail

How a sequence of steps in `Except` can return: each step returns, and the next one goes on with its
value. Proofs about code that may fail take it apart with these two lemmas.

## Main results

* `Fallible.bind_eq_ok`: a sequence returns exactly when its steps do.
-/

namespace Fallible

variable {ε α β : Type}

/-- A sequence of two steps returns exactly when both do. -/
theorem bind_eq_ok {x : Except ε α} {f : α → Except ε β} {c : β} :
    (x >>= f) = .ok c ↔ ∃ a, x = .ok a ∧ f a = .ok c := by
  cases x with
  | error e =>
    constructor
    · intro h
      cases h
    · rintro ⟨a, h, -⟩
      cases h
  | ok a =>
    constructor
    · exact fun h => ⟨a, rfl, h⟩
    · rintro ⟨a', h, hf⟩
      cases h
      exact hf

/-- A `return` leaves the value. -/
theorem pure_eq_ok {a c : α} : (pure a : Except ε α) = .ok c ↔ c = a :=
  ⟨fun h => (Except.ok.inj h).symm, fun h => h ▸ rfl⟩

end Fallible
