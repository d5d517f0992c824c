import Mathlib.Tactic.Common

/-!
# Computations that read

Code that reads from memory is modelled as its result together with a record of what it reads, in
order. What a program reads and what it returns can then be spoken about separately.

## Main definitions

* `Reads`: a result, and what was read for it.
* `Reads.Only`: everything that is read has a property.

## Main results

* `Reads.value_bind`, `Reads.reads_bind`: one computation after another.
* `Reads.only_bind`: what both of them read.
* `Reads.value_foldlM`, `Reads.reads_foldlM`: a loop over a list.
-/

namespace ReadTrace

variable {ρ α β : Type}

/-- The result of a computation, and what it reads. -/
structure Reads (ρ α : Type) where
  value : α
  reads : List ρ

namespace Reads

instance : Monad (Reads ρ) where
  pure a := ⟨a, []⟩
  bind x f := ⟨(f x.value).value, x.reads ++ (f x.value).reads⟩

/-- A value that is read. -/
def read (r : ρ) (a : α) : Reads ρ α := ⟨a, [r]⟩

@[simp]
theorem value_pure (a : α) : (pure a : Reads ρ α).value = a := rfl

@[simp]
theorem reads_pure (a : α) : (pure a : Reads ρ α).reads = [] := rfl

@[simp]
theorem reads_read (r : ρ) (a : α) : (read r a).reads = [r] := rfl

/-- The value of a sequence is that of its second part. -/
@[simp]
theorem value_bind (x : Reads ρ α) (f : α → Reads ρ β) :
    (x >>= f).value = (f x.value).value := rfl

/-- A sequence reads what its parts read, in their order. -/
@[simp]
theorem reads_bind (x : Reads ρ α) (f : α → Reads ρ β) :
    (x >>= f).reads = x.reads ++ (f x.value).reads := rfl

/-- Everything that is read has a property. -/
def Only (P : ρ → Prop) (x : Reads ρ α) : Prop := ∀ r ∈ x.reads, P r

variable {P : ρ → Prop}

/-- A value reads nothing. -/
@[simp]
theorem only_pure (a : α) : Only P (pure a) := fun _ h => absurd h List.not_mem_nil

/-- A read is of the one place. -/
@[simp]
theorem only_read (r : ρ) (a : α) : Only P (read r a) ↔ P r := List.forall_mem_singleton

/-- A sequence reads such places only if both parts do. -/
@[simp]
theorem only_bind (x : Reads ρ α) (f : α → Reads ρ β) :
    Only P (x >>= f) ↔ Only P x ∧ Only P (f x.value) := List.forall_mem_append

/-- The result of a loop. -/
theorem value_foldlM (f : β → α → Reads ρ β) (b : β) (l : List α) :
    (l.foldlM f b).value = l.foldl (fun b a => (f b a).value) b := by
  induction l generalizing b with
  | nil => rfl
  | cons a l ih =>
      rw [List.foldlM_cons, value_bind, ih]
      rfl

/-- What a loop reads whose turns read what their elements say. -/
theorem reads_foldlM {f : β → α → Reads ρ β} {g : α → List ρ} (h : ∀ b a, (f b a).reads = g a)
    (b : β) (l : List α) : (l.foldlM f b).reads = l.flatMap g := by
  induction l generalizing b with
  | nil => rfl
  | cons a l ih => rw [List.foldlM_cons, reads_bind, ih, h, List.flatMap_cons]

end Reads

end ReadTrace
