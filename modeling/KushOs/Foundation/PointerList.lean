import Mathlib.Data.List.Basic
import Mathlib.Logic.Function.Basic
import Mathlib.Tactic.Common

/-!
# Lists linked by pointers

Nodes of type `α` hold a pointer to the next node; `next` reads it. `Linked next ptr l` says that
following the pointers from `ptr` meets the nodes `l`, in order, and ends.

## Main results

* `search_eq`: a loop that follows the pointers finds the first node with a property.
* `Linked.append`: a node is added by storing its address in the last one.
-/

namespace PointerList

variable {α : Type*}

/-- Following the pointers from `ptr` meets the nodes of the list and ends. -/
inductive Linked (next : α → Option α) : Option α → List α → Prop
  | nil : Linked next none []
  | cons {a : α} {l : List α} : Linked next (next a) l → Linked next (some a) (a :: l)

/-- The loop `while(a) { if(p(a)) return a; a = a->next; } return nullptr;`, for at most `n`
turns. -/
def search (next : α → Option α) (p : α → Bool) : ℕ → Option α → Option (Option α)
  | 0, _ => none
  | _ + 1, none => some none
  | n + 1, some a => if p a then some (some a) else search next p n (next a)

variable {next next' : α → Option α} {ptr : Option α} {l : List α} {p : α → Bool}

/-- The loop ends. -/
theorem search_of_linked (h : Linked next ptr l) {n : ℕ} (hn : l.length < n) :
    search next p n ptr = some (l.find? p) := by
  induction h generalizing n with
  | nil =>
    obtain ⟨n, rfl⟩ := Nat.exists_eq_succ_of_ne_zero (Nat.ne_of_gt hn)
    rfl
  | @cons a l _ ih =>
    obtain ⟨n, rfl⟩ := Nat.exists_eq_succ_of_ne_zero (Nat.ne_of_gt (Nat.zero_lt_of_lt hn))
    rw [search, List.find?_cons]
    cases p a with
    | true => rfl
    | false => exact ih (Nat.lt_of_succ_lt_succ hn)

/-- It finds the first node with the property. -/
theorem search_eq (h : Linked next ptr l) {n : ℕ} {r : Option α}
    (hs : search next p n ptr = some r) : r = l.find? p := by
  induction h generalizing n with
  | nil =>
    cases n with
    | zero => cases hs
    | succ n => exact (Option.some.inj hs).symm
  | @cons a l _ ih =>
    cases n with
    | zero => cases hs
    | succ n =>
      rw [search] at hs
      rw [List.find?_cons]
      cases hp : p a with
      | true =>
        rw [hp, if_pos rfl] at hs
        exact (Option.some.inj hs).symm
      | false =>
        rw [hp, if_neg (by simp)] at hs
        exact ih hs

namespace Linked

/-- Only the pointers of the list's own nodes matter. -/
theorem congr (h : Linked next ptr l) (heq : ∀ a ∈ l, next' a = next a) : Linked next' ptr l := by
  induction h with
  | nil => exact .nil
  | @cons a l _ ih =>
    refine .cons ?_
    rw [heq a List.mem_cons_self]
    exact ih fun b hb => heq b (List.mem_cons_of_mem _ hb)

theorem eq_none_iff (h : Linked next ptr l) : ptr = none ↔ l = [] := by
  cases h <;> simp

theorem mem_of_eq_some {a : α} (h : Linked next ptr l) (ha : ptr = some a) : a ∈ l := by
  cases h with
  | nil => cases ha
  | cons _ =>
    obtain rfl := Option.some.inj ha
    exact List.mem_cons_self

/-- The last node points nowhere. -/
theorem next_last {a : α} (h : Linked next ptr l) (ha : l.getLast? = some a) : next a = none := by
  induction h with
  | nil => cases ha
  | @cons b l htail ih =>
    cases l with
    | nil =>
      obtain rfl : b = a := by simpa using ha
      exact htail.eq_none_iff.mpr rfl
    | cons c l => exact ih (by simpa using ha)

/-- A node is added at the end by storing its address in the last node. -/
theorem append [DecidableEq α] (h : Linked next ptr l) (hnodup : l.Nodup) {z b : α}
    (hlast : l.getLast? = some z) (hz : next' z = some b) (hb : next' b = none)
    (heq : ∀ a ∈ l, a ≠ z → next' a = next a) : Linked next' ptr (l ++ [b]) := by
  induction h with
  | nil => cases hlast
  | @cons a l htail ih =>
    cases l with
    | nil =>
      obtain rfl : a = z := by simpa using hlast
      refine .cons ?_
      rw [hz]
      refine .cons ?_
      rw [hb]
      exact .nil
    | cons c l =>
      have hlast' : (c :: l).getLast? = some z := by simpa using hlast
      have hmem : z ∈ c :: l := List.mem_of_getLast? hlast'
      have hne : a ≠ z := by
        rintro rfl
        exact (List.nodup_cons.mp hnodup).1 hmem
      refine .cons ?_
      rw [heq a List.mem_cons_self hne]
      exact ih (List.nodup_cons.mp hnodup).2 hlast'
        fun d hd => heq d (List.mem_cons_of_mem _ hd)

end Linked

end PointerList
