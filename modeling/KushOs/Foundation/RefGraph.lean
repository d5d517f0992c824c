import Mathlib.Data.Finset.Card

/-!
# Counted references

Objects that hold at most one reference to another object each, next to references that are held
from outside. An object is destroyed when its last reference goes away, and its own reference goes
away with it, so a release may run up a chain of objects. `Balanced` is the invariant of counters
that keep up with this; between two steps of such a chain one reference is `pending`: it is counted,
but nothing holds it any more.

## Main definitions

* `RefGraph`, `RefGraph.refs`: who refers to what, and how many references an object has.
* `RefGraph.Balanced`: the counters agree with the references.

## Main results

* `RefGraph.Balanced.dropLast`, `RefGraph.Balanced.dropOther`: the two ways of dropping the pending
  reference.
-/

variable {α : Type*} [DecidableEq α]

/-- The live objects, the reference that each object holds, and the references from outside. -/
structure RefGraph (α : Type*) where
  live : Finset α
  link : α → Option α
  owned : α → ℕ

namespace RefGraph

variable {g : RefGraph α} {count : α → ℕ} {a b p : α}

/-- Number of live objects that hold a reference to `a`. -/
def linked (g : RefGraph α) (a : α) : ℕ := (g.live.filter fun b => g.link b = some a).card

/-- Number of references to `a`. -/
def refs (g : RefGraph α) (a : α) : ℕ := g.owned a + g.linked a

/-- The graph with `n` references to `a` from outside. -/
def own (g : RefGraph α) (a : α) (n : ℕ) : RefGraph α :=
  { g with owned := Function.update g.owned a n }

/-- The graph without the object `a`. -/
def remove (g : RefGraph α) (a : α) : RefGraph α := { g with live := g.live.erase a }

/-- The graph with a new object `a`, which holds the reference `l`; one reference to it is held from
outside. -/
def insert (g : RefGraph α) (a : α) (l : Option α) : RefGraph α where
  live := Insert.insert a g.live
  link := Function.update g.link a l
  owned := Function.update g.owned a 1

@[simp]
theorem owned_own (n : ℕ) : (g.own a n).owned = Function.update g.owned a n := rfl

@[simp]
theorem link_insert (l : Option α) : (g.insert a l).link = Function.update g.link a l := rfl

@[simp]
theorem owned_insert (l : Option α) : (g.insert a l).owned = Function.update g.owned a 1 := rfl

/-- The target of a link of a live object has one. -/
theorem linked_pos (hb : b ∈ g.live) (hlink : g.link b = some a) : 0 < g.linked a :=
  Finset.card_pos.2 ⟨b, Finset.mem_filter.2 ⟨hb, hlink⟩⟩

/-- Every link belongs to a live object. -/
theorem exists_of_linked_pos (h : 0 < g.linked a) : ∃ b ∈ g.live, g.link b = some a := by
  obtain ⟨b, hb⟩ := Finset.card_pos.1 h
  exact ⟨b, (Finset.mem_filter.1 hb).1, (Finset.mem_filter.1 hb).2⟩

@[simp]
theorem linked_own (n : ℕ) : (g.own a n).linked b = g.linked b := rfl

/-- With an object its link goes away. -/
theorem linked_remove_of_link (ha : a ∈ g.live) (hlink : g.link a = some p) :
    (g.remove a).linked p + 1 = g.linked p := by
  unfold linked remove
  rw [Finset.filter_erase, Finset.card_erase_add_one]
  exact Finset.mem_filter.2 ⟨ha, hlink⟩

/-- The links to other objects stay. -/
theorem linked_remove_of_ne (hlink : g.link a ≠ some p) : (g.remove a).linked p = g.linked p := by
  unfold linked remove
  rw [Finset.filter_erase, Finset.erase_eq_of_notMem]
  exact fun h => hlink (Finset.mem_filter.1 h).2

/-- With an object its link is added. -/
theorem linked_insert_of_link (ha : a ∉ g.live) :
    (g.insert a (some p)).linked p = g.linked p + 1 := by
  have hold : (g.live.filter fun b => Function.update g.link a (some p) b = some p) =
      g.live.filter fun b => g.link b = some p := by
    refine Finset.filter_congr fun b hb => ?_
    rw [Function.update_of_ne (ne_of_mem_of_not_mem hb ha)]
  change ((Insert.insert a g.live).filter fun b =>
      Function.update g.link a (some p) b = some p).card
    = (g.live.filter fun b => g.link b = some p).card + 1
  rw [Finset.filter_insert, Function.update_self, if_pos rfl, hold, Finset.card_insert_of_notMem]
  exact fun h => ha (Finset.mem_filter.1 h).1

/-- The links to other objects stay as they were. -/
theorem linked_insert_of_ne {l : Option α} (ha : a ∉ g.live) (hl : l ≠ some p) :
    (g.insert a l).linked p = g.linked p := by
  have hold : (g.live.filter fun b => Function.update g.link a l b = some p) =
      g.live.filter fun b => g.link b = some p := by
    refine Finset.filter_congr fun b hb => ?_
    rw [Function.update_of_ne (ne_of_mem_of_not_mem hb ha)]
  change ((Insert.insert a g.live).filter fun b => Function.update g.link a l b = some p).card
    = (g.live.filter fun b => g.link b = some p).card
  rw [Finset.filter_insert, Function.update_self, if_neg hl, hold]

/-! ## Counters -/

/-- The counters of the live objects count their references and the pending one; objects refer to
live objects. -/
structure Balanced (g : RefGraph α) (count : α → ℕ) (pending : Option α) : Prop where
  count_eq : ∀ a ∈ g.live, count a = g.refs a + if pending = some a then 1 else 0
  closed : ∀ a ∈ g.live, ∀ p, g.link a = some p → p ∈ g.live
  referenced : ∀ a ∈ g.live, 0 < count a
  pending_live : ∀ a, pending = some a → a ∈ g.live

namespace Balanced

/-- Without an operation under way the count of a live object is the number of its references. -/
theorem count_of_none (h : g.Balanced count none) (ha : a ∈ g.live) : count a = g.refs a := by
  simpa using h.count_eq a ha

/-- While a reference is given up the count still has it. -/
theorem count_pending (h : g.Balanced count (some a)) : count a = g.refs a + 1 := by
  simpa using h.count_eq a (h.pending_live a rfl)

/-- An owner lets go of its reference, which is then pending. -/
theorem disown (h : g.Balanced count none) (ha : a ∈ g.live) {n : ℕ} (hn : g.owned a = n + 1) :
    (g.own a n).Balanced count (some a) := by
  refine ⟨fun b hb => ?_, h.closed, h.referenced, fun b hb => ?_⟩
  · rw [h.count_of_none hb, refs, refs, linked_own]
    rcases eq_or_ne b a with rfl | hne
    · rw [owned_own, Function.update_self, if_pos rfl, hn]
      exact Nat.add_right_comm _ _ _
    · rw [owned_own, Function.update_of_ne hne, if_neg (by simpa using hne.symm), Nat.add_zero]
  · cases hb
    exact ha

/-- An owner takes another reference. -/
theorem retain (h : g.Balanced count none) (ha : a ∈ g.live) :
    (g.own a (g.owned a + 1)).Balanced (Function.update count a (count a + 1)) none := by
  refine ⟨fun b hb => ?_, h.closed, fun b hb => ?_, fun b hb => by cases hb⟩
  · simp only [reduceCtorEq, if_false, Nat.add_zero, refs, linked_own]
    rcases eq_or_ne b a with rfl | hne
    · rw [owned_own, Function.update_self, Function.update_self, h.count_of_none ha, refs]
      exact Nat.add_right_comm _ _ _
    · rw [owned_own, Function.update_of_ne hne, Function.update_of_ne hne, h.count_of_none hb, refs]
  · rcases eq_or_ne b a with rfl | hne
    · rw [Function.update_self]
      exact Nat.succ_pos _
    · rw [Function.update_of_ne hne]
      exact h.referenced b hb

/-- The pending reference is dropped, and there are others. -/
theorem dropOther (h : g.Balanced count (some a)) (hcount : count a ≠ 1) :
    g.Balanced (Function.update count a (count a - 1)) none := by
  have ha := h.pending_live a rfl
  have hpos := h.referenced a ha
  refine ⟨fun b hb => ?_, h.closed, fun b hb => ?_, fun b hb => by cases hb⟩
  · simp only [reduceCtorEq, if_false, Nat.add_zero]
    rcases eq_or_ne b a with rfl | hne
    · rw [Function.update_self, h.count_pending, Nat.add_sub_cancel]
    · rw [Function.update_of_ne hne, h.count_eq b hb, if_neg (by simpa using hne.symm),
        Nat.add_zero]
  · rcases eq_or_ne b a with rfl | hne
    · rw [Function.update_self]
      omega
    · rw [Function.update_of_ne hne]
      exact h.referenced b hb

/-- The pending reference was the last one: nothing refers to the object. -/
theorem refs_of_last (h : g.Balanced count (some a)) (hcount : count a = 1) :
    g.owned a = 0 ∧ ∀ b ∈ g.live, g.link b ≠ some a := by
  have hrefs : g.refs a = 0 := by
    have := h.count_pending
    omega
  refine ⟨(Nat.add_eq_zero_iff.1 hrefs).1, fun b hb hlink => ?_⟩
  exact (linked_pos hb hlink).ne' (Nat.add_eq_zero_iff.1 hrefs).2

/-- The pending reference is dropped and was the last one: the object goes away, and the reference
that it held is pending. -/
theorem dropLast (h : g.Balanced count (some a)) (hcount : count a = 1) :
    (g.remove a).Balanced (Function.update count a 0) (g.link a) := by
  have ha := h.pending_live a rfl
  obtain ⟨-, hnone⟩ := h.refs_of_last hcount
  refine ⟨fun b hb => ?_, fun b hb p hlink => ?_, fun b hb => ?_, fun p hlink => ?_⟩
  · obtain ⟨hne, hb⟩ := Finset.mem_erase.1 hb
    rw [Function.update_of_ne hne, h.count_eq b hb, if_neg (by simpa using hne.symm), Nat.add_zero]
    split
    next hlink => rw [refs, refs, ← linked_remove_of_link ha hlink]; rfl
    next hlink => rw [refs, refs, linked_remove_of_ne hlink]; rfl
  · have hb := Finset.mem_of_mem_erase hb
    refine Finset.mem_erase.2 ⟨fun hpa => hnone b hb (hpa ▸ hlink), h.closed b hb p hlink⟩
  · obtain ⟨hne, hb⟩ := Finset.mem_erase.1 hb
    rw [Function.update_of_ne hne]
    exact h.referenced b hb
  · refine Finset.mem_erase.2 ⟨?_, h.closed a ha p hlink⟩
    rintro rfl
    exact hnone p ha hlink

/-- A new object that refers to nothing. -/
theorem insertNone (h : g.Balanced count none) (ha : a ∉ g.live) :
    (g.insert a none).Balanced (Function.update count a 1) none := by
  have hlinked : g.linked a = 0 := by
    by_contra hpos
    obtain ⟨b, hb, hlink⟩ := exists_of_linked_pos (Nat.pos_of_ne_zero hpos)
    exact ha (h.closed b hb a hlink)
  refine ⟨fun b hb => ?_, fun b hb p hlink => ?_, fun b hb => ?_, fun b hb => by cases hb⟩
  · simp only [reduceCtorEq, if_false, Nat.add_zero, refs]
    rw [linked_insert_of_ne ha (by simp)]
    rcases eq_or_ne b a with rfl | hne
    · rw [owned_insert, Function.update_self, Function.update_self, hlinked]
    · have hb := Finset.mem_of_mem_insert_of_ne hb hne
      rw [owned_insert, Function.update_of_ne hne, Function.update_of_ne hne, h.count_of_none hb,
        refs]
  · rcases eq_or_ne b a with rfl | hne
    · rw [link_insert, Function.update_self] at hlink
      cases hlink
    · rw [link_insert, Function.update_of_ne hne] at hlink
      exact Finset.mem_insert_of_mem (h.closed b (Finset.mem_of_mem_insert_of_ne hb hne) p hlink)
  · rcases eq_or_ne b a with rfl | hne
    · rw [Function.update_self]
      exact Nat.one_pos
    · rw [Function.update_of_ne hne]
      exact h.referenced b (Finset.mem_of_mem_insert_of_ne hb hne)

/-- A new object that refers to the live object `p`, whose counter goes up. -/
theorem insertSome (h : g.Balanced count none) (ha : a ∉ g.live) (hp : p ∈ g.live) :
    (g.insert a (some p)).Balanced
      (Function.update (Function.update count p (count p + 1)) a 1) none := by
  have hpa : p ≠ a := ne_of_mem_of_not_mem hp ha
  -- nothing refers to a new object, since links lead to live ones
  have hlinked : g.linked a = 0 := by
    by_contra hpos
    obtain ⟨b, hb, hlink⟩ := exists_of_linked_pos (Nat.pos_of_ne_zero hpos)
    exact ha (h.closed b hb a hlink)
  refine ⟨fun b hb => ?_, fun b hb q hlink => ?_, fun b hb => ?_, fun b hb => by cases hb⟩
  · simp only [reduceCtorEq, if_false, Nat.add_zero, refs]
    rcases eq_or_ne b a with rfl | hne
    · rw [linked_insert_of_ne ha (by simpa using hpa), owned_insert, Function.update_self,
        Function.update_self, hlinked]
    replace hb := Finset.mem_of_mem_insert_of_ne hb hne
    rcases eq_or_ne b p with rfl | hbp
    · rw [linked_insert_of_link ha, owned_insert, Function.update_of_ne hne, Function.update_self,
        Function.update_of_ne hne, h.count_of_none hb, refs, Nat.add_assoc]
    · rw [linked_insert_of_ne ha (by simpa using hbp.symm), owned_insert, Function.update_of_ne hne,
        Function.update_of_ne hbp, Function.update_of_ne hne, h.count_of_none hb, refs]
  · rcases eq_or_ne b a with rfl | hne
    · rw [link_insert, Function.update_self] at hlink
      cases hlink
      exact Finset.mem_insert_of_mem hp
    · rw [link_insert, Function.update_of_ne hne] at hlink
      exact Finset.mem_insert_of_mem (h.closed b (Finset.mem_of_mem_insert_of_ne hb hne) q hlink)
  · rcases eq_or_ne b a with rfl | hne
    · rw [Function.update_self]
      exact Nat.one_pos
    have hb := Finset.mem_of_mem_insert_of_ne hb hne
    rw [Function.update_of_ne hne]
    rcases eq_or_ne b p with rfl | hbp
    · rw [Function.update_self]
      exact Nat.succ_pos _
    · rw [Function.update_of_ne hbp]
      exact h.referenced b hb

end Balanced

end RefGraph
