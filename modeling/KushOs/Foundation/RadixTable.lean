import Mathlib.Data.List.Infix
import Mathlib.Data.Nat.Notation
import Mathlib.Logic.Function.Basic
import Mathlib.Tactic.Common

/-!
# Radix tables in a shared store

A radix table translates a path of indices: each index selects an entry of the current table, and
the entry either ends the walk or names the table that the next index is looked up in. Tables live
in a store that several roots may share. What an entry stands for depends on the depth of its
table.

A `Labels` assignment gives every table in use the one path that leads to it, from whichever root.
As long as the entries respect the labels (`Labelled`), writing an entry of one table affects only
the paths through that entry.

## Main definitions

* `walk`: the translation of a path.
* `trail`: the entries that a walk meets.
* `Leads`: indices that lead from a root to a table; `follow` finds the table.
* `Labelled`: the labels are respected by all roots and all entries.

## Main results

* `Labelled.walk_congr`: a walk depends only on the entries on its path.
* `Labelled.walk_put`: overwriting an entry affects only the paths through it.
* `Labelled.walk_link`: linking an empty table into an absent entry changes no translation at all.
* `Labelled.write`, `Labelled.addTable`, `Labelled.addRoot`: the updates that respect the labels.
-/

namespace RadixTable

variable {T I E : Type*}

/-- What an entry stands for. -/
inductive Slot (T : Type*)
  /-- Nothing. -/
  | absent
  /-- Another table. -/
  | next (table : T)
  /-- The end of a walk. -/
  | leaf

/-- What the entries of a table stand for, by the depth of the table. -/
abbrev Format (T E : Type*) := ℕ → E → Slot T

/-- The entries of all tables. -/
abbrev Store (T I E : Type*) := T → I → E

/-- Paths of the tables in use. -/
abbrev Labels (T I : Type*) := T → Option (List I)

/-- Translate a path from table `t`, whose depth is `d`: the entry at which the walk ends, with the
depth of its table, or nothing if an entry on the way is absent. -/
def walk (F : Format T E) (s : Store T I E) : ℕ → T → List I → Option (ℕ × E)
  | _, _, [] => none
  | d, t, i :: rest =>
      match F d (s t i) with
      | .absent => none
      | .leaf => some (d, s t i)
      | .next t' => walk F s (d + 1) t' rest

/-- The entries that the walk of a path meets: the depth of the table, the table and the index. -/
def trail (F : Format T E) (s : Store T I E) : ℕ → T → List I → List (ℕ × T × I)
  | _, _, [] => []
  | d, t, i :: rest =>
      match F d (s t i) with
      | .next t' => (d, t, i) :: trail F s (d + 1) t' rest
      | _ => [(d, t, i)]

section Walk

variable {F : Format T E} {s : Store T I E} {d : ℕ} {t t' : T} {i : I} {rest : List I}

theorem walk_of_absent (h : F d (s t i) = .absent) : walk F s d t (i :: rest) = none := by
  simp only [walk, h]

theorem walk_of_leaf (h : F d (s t i) = .leaf) : walk F s d t (i :: rest) = some (d, s t i) := by
  simp only [walk, h]

theorem walk_of_next (h : F d (s t i) = .next t') :
    walk F s d t (i :: rest) = walk F s (d + 1) t' rest := by
  simp only [walk, h]

/-- Nothing is found in an empty table. -/
theorem walk_of_empty (h : ∀ j, F d (s t j) = .absent) (path : List I) :
    walk F s d t path = none := by
  cases path with
  | nil => rfl
  | cons j _ => exact walk_of_absent (h j)

/-- A walk goes no further than an entry that names no table. -/
theorem trail_of_not_next (h : ∀ t', F d (s t i) ≠ .next t') :
    trail F s d t (i :: rest) = [(d, t, i)] := by
  rw [trail]
  split
  next t' hslot => exact absurd hslot (h t')
  next => rfl

theorem trail_of_absent (h : F d (s t i) = .absent) : trail F s d t (i :: rest) = [(d, t, i)] :=
  trail_of_not_next (by simp [h])

theorem trail_of_leaf (h : F d (s t i) = .leaf) : trail F s d t (i :: rest) = [(d, t, i)] :=
  trail_of_not_next (by simp [h])

theorem trail_of_next (h : F d (s t i) = .next t') :
    trail F s d t (i :: rest) = (d, t, i) :: trail F s (d + 1) t' rest := by
  simp only [trail, h]

/-- The first entry that is met is that of the table itself. -/
theorem head_mem_trail (F : Format T E) (s : Store T I E) (d : ℕ) (t : T) (i : I) (rest : List I) :
    (d, t, i) ∈ trail F s d t (i :: rest) := by
  rcases hslot : F d (s t i) with _ | t' | _
  · rw [trail_of_absent hslot]
    exact List.mem_singleton_self _
  · rw [trail_of_next hslot]
    exact List.mem_cons_self
  · rw [trail_of_leaf hslot]
    exact List.mem_singleton_self _

/-- Walks agree, also in different formats and stores, if the entries that one of them meets do. -/
theorem walk_trail_congr {F' : Format T E} {s' : Store T I E} {path : List I}
    (h : ∀ x ∈ trail F s d t path,
      s' x.2.1 x.2.2 = s x.2.1 x.2.2 ∧ F' x.1 (s x.2.1 x.2.2) = F x.1 (s x.2.1 x.2.2)) :
    walk F' s' d t path = walk F s d t path ∧ trail F' s' d t path = trail F s d t path := by
  induction path generalizing d t with
  | nil => exact ⟨rfl, rfl⟩
  | cons i rest ih =>
    obtain ⟨hentry, hformat⟩ := h _ (head_mem_trail F s d t i rest)
    rcases hslot : F d (s t i) with _ | t' | _ <;> have hslot' := hslot <;>
      rw [← hformat, ← hentry] at hslot'
    · rw [walk_of_absent hslot, walk_of_absent hslot', trail_of_absent hslot,
        trail_of_absent hslot']
      exact ⟨rfl, rfl⟩
    · rw [trail_of_next hslot, List.forall_mem_cons] at h
      obtain ⟨hwalk, htrail⟩ := ih h.2
      rw [walk_of_next hslot, walk_of_next hslot', trail_of_next hslot, trail_of_next hslot',
        hwalk, htrail]
      exact ⟨rfl, rfl⟩
    · rw [walk_of_leaf hslot, walk_of_leaf hslot', trail_of_leaf hslot, trail_of_leaf hslot',
        hentry]
      exact ⟨rfl, rfl⟩

/-- A walk meets the entry at which it ends. -/
theorem leaf_mem_trail {path : List I} {n : ℕ} {e : E} (h : walk F s d t path = some (n, e)) :
    ∃ u j, (n, u, j) ∈ trail F s d t path ∧ s u j = e ∧ F n e = .leaf := by
  induction path generalizing d t with
  | nil => cases h
  | cons i rest ih =>
    rcases hslot : F d (s t i) with _ | t' | _
    · rw [walk_of_absent hslot] at h
      cases h
    · rw [walk_of_next hslot] at h
      obtain ⟨u, j, hmem, hleaf⟩ := ih h
      rw [trail_of_next hslot]
      exact ⟨u, j, List.mem_cons_of_mem _ hmem, hleaf⟩
    · rw [walk_of_leaf hslot, Option.some.injEq, Prod.mk.injEq] at h
      obtain ⟨rfl, rfl⟩ := h
      exact ⟨t, i, head_mem_trail F s d t i rest, rfl, hslot⟩

/-- The entries that a walk meets before the one at which it ends name tables. -/
theorem links_of_mem_trail {path : List I} {n : ℕ} {e : E} {x : ℕ × T × I}
    (h : walk F s d t path = some (n, e)) (hx : x ∈ trail F s d t path) :
    (∃ t', F x.1 (s x.2.1 x.2.2) = .next t') ∨ (x.1 = n ∧ s x.2.1 x.2.2 = e) := by
  induction path generalizing d t with
  | nil => cases h
  | cons i rest ih =>
    rcases hslot : F d (s t i) with _ | t' | _
    · rw [walk_of_absent hslot] at h
      cases h
    · rw [walk_of_next hslot] at h
      rw [trail_of_next hslot, List.mem_cons] at hx
      rcases hx with rfl | hx
      · exact Or.inl ⟨t', hslot⟩
      · exact ih h hx
    · rw [walk_of_leaf hslot, Option.some.injEq, Prod.mk.injEq] at h
      rw [trail_of_leaf hslot, List.mem_singleton] at hx
      subst hx
      exact Or.inr h

/-- A walk depends only on the indices up to the entry at which it ends. -/
theorem walk_of_take {path path' : List I} {n : ℕ} {e : E} (h : walk F s d t path = some (n, e))
    (htake : path.take (n + 1 - d) <+: path') : d ≤ n ∧ walk F s d t path' = some (n, e) := by
  induction path generalizing d t path' with
  | nil => cases h
  | cons i rest ih =>
    rcases hslot : F d (s t i) with _ | t' | _
    · rw [walk_of_absent hslot] at h
      cases h
    · rw [walk_of_next hslot] at h
      have hle : d + 1 ≤ n := (ih h (List.prefix_append _ [])).1
      rw [show n + 1 - d = n + 1 - (d + 1) + 1 by omega, List.take_succ_cons] at htake
      obtain ⟨more, rfl⟩ := htake
      rw [List.cons_append, walk_of_next hslot]
      exact ⟨by omega, (ih h (List.prefix_append _ more)).2⟩
    · rw [walk_of_leaf hslot, Option.some.injEq, Prod.mk.injEq] at h
      obtain ⟨rfl, rfl⟩ := h
      rw [Nat.add_sub_cancel_left, List.take_succ_cons, List.take_zero] at htake
      obtain ⟨more, rfl⟩ := htake
      exact ⟨le_rfl, walk_of_leaf hslot⟩

end Walk

/-- Every root has the empty path, and an entry of a table in use names a table whose path is one
index longer. -/
structure Labelled (F : Format T E) (s : Store T I E) (roots : List T) (label : Labels T I) :
    Prop where
  root : ∀ r ∈ roots, label r = some []
  next : ∀ {t t' : T} {p : List I} {i : I},
    label t = some p → F p.length (s t i) = .next t' → label t' = some (p ++ [i])

/-- The indices `p` lead from `root` to the table `t`. -/
inductive Leads (F : Format T E) (s : Store T I E) (root : T) : List I → T → Prop
  | nil : Leads F s root [] root
  | snoc {t t' : T} {p : List I} {i : I} :
      Leads F s root p t → F p.length (s t i) = .next t' → Leads F s root (p ++ [i]) t'

namespace Leads

variable {F : Format T E} {s s' : Store T I E} {roots : List T} {label : Labels T I}
variable {root t : T} {p : List I}

/-- No indices lead to the root itself. -/
theorem nil_eq (h : Leads F s root [] t) : t = root := by
  generalize hp : ([] : List I) = p at h
  cases h with
  | nil => rfl
  | snoc => simp at hp

/-- The tables on the trail of a path are those that its first indices lead to. -/
theorem exists_of_mem_trail (h : Leads F s root p t) {q : List I} {x : ℕ × T × I}
    (hx : x ∈ trail F s p.length t q) :
    ∃ px, Leads F s root px x.2.1 ∧ px.length = x.1 ∧ px ++ [x.2.2] <+: p ++ q := by
  induction q generalizing t p with
  | nil => cases hx
  | cons i rest ih =>
    have hhead : p ++ [i] <+: p ++ i :: rest := ⟨rest, by simp⟩
    rcases hslot : F p.length (s t i) with _ | t' | _
    · rw [trail_of_absent hslot, List.mem_singleton] at hx
      exact hx ▸ ⟨p, h, rfl, hhead⟩
    · rw [trail_of_next hslot, List.mem_cons] at hx
      rcases hx with rfl | hx
      · exact ⟨p, h, rfl, hhead⟩
      · rw [← List.length_singleton (a := i), ← List.length_append] at hx
        obtain ⟨px, hpx, hlen, hpath⟩ := ih (h.snoc hslot) hx
        rw [List.append_assoc, List.singleton_append] at hpath
        exact ⟨px, hpx, hlen, hpath⟩
    · rw [trail_of_leaf hslot, List.mem_singleton] at hx
      exact hx ▸ ⟨p, h, rfl, hhead⟩

/-- A walk passes through the tables that the first indices lead to. -/
theorem walk_append (h : Leads F s root p t) (q : List I) :
    walk F s 0 root (p ++ q) = walk F s p.length t q := by
  induction h generalizing q with
  | nil => rfl
  | snoc _ hslot ih =>
    rw [List.append_assoc, List.singleton_append, ih, walk_of_next hslot, List.length_append,
      List.length_singleton]

/-- The indices that lead to a table are its path. -/
theorem label_eq (h : Leads F s root p t) (hl : Labelled F s roots label)
    (hroot : label root = some []) : label t = some p := by
  induction h with
  | nil => exact hroot
  | snoc _ hslot ih => exact hl.next ih hslot

/-- The entries that lead to a table are those on its path. -/
theorem congr (h : Leads F s root p t) (hl : Labelled F s roots label)
    (hroot : label root = some [])
    (hframe : ∀ u pu i rest t', label u = some pu → pu ++ i :: rest = p →
      F pu.length (s u i) = .next t' → s' u i = s u i) : Leads F s' root p t := by
  induction h with
  | nil => exact .nil
  | @snoc u t' pu i hu hslot ih =>
    have hlabel := hu.label_eq hl hroot
    have hrest := ih fun v pv j rest t'' hv hpath => hframe v pv j (rest ++ [i]) t'' hv
      (by rw [← hpath, List.append_assoc, List.cons_append])
    refine hrest.snoc ?_
    rw [hframe u pu i [] t' hlabel rfl hslot]
    exact hslot

end Leads

/-- The table that indices lead to from table `t`, whose depth is `d`. -/
def follow (F : Format T E) (s : Store T I E) : ℕ → T → List I → Option T
  | _, t, [] => some t
  | d, t, i :: rest =>
      match F d (s t i) with
      | .next t' => follow F s (d + 1) t' rest
      | _ => none

section Follow

variable {F : Format T E} {s : Store T I E} {root t u : T} {p : List I} {i : I}

theorem follow_snoc (d : ℕ) :
    follow F s d t (p ++ [i]) = some u ↔
      ∃ t', follow F s d t p = some t' ∧ F (d + p.length) (s t' i) = .next u := by
  induction p generalizing d t with
  | nil =>
    rcases hslot : F d (s t i) with _ | t' | _ <;> simp [follow, hslot]
  | cons j rest ih =>
    rcases hslot : F d (s t j) with _ | t' | _
    · simp [follow, hslot]
    · simp only [List.cons_append, follow, hslot, ih, List.length_cons]
      rw [Nat.add_assoc, Nat.add_comm 1]
    · simp [follow, hslot]

/-- `follow` finds the table that the indices lead to. -/
theorem follow_eq_some_iff : follow F s 0 root p = some t ↔ Leads F s root p t := by
  constructor
  · intro h
    induction p using List.reverseRecOn generalizing t with
    | nil =>
      obtain rfl : root = t := Option.some.inj h
      exact .nil
    | append_singleton p i ih =>
      obtain ⟨t', hp, hslot⟩ := (follow_snoc 0).mp h
      rw [Nat.zero_add] at hslot
      exact (ih hp).snoc hslot
  · intro h
    induction h with
    | nil => rfl
    | snoc _ hslot ih => exact (follow_snoc 0).mpr ⟨_, ih, by rwa [Nat.zero_add]⟩

end Follow

namespace Labelled

variable {F : Format T E} {s s' : Store T I E} {roots : List T} {label : Labels T I}
variable {t t₀ t₁ : T} {p p₀ q : List I} {i₀ : I}

/-- A walk depends only on the entries of tables in use that lie on its path. -/
theorem walk_congr (hl : Labelled F s roots label) (ht : label t = some p)
    (h : ∀ u pu i rest, label u = some pu → pu ++ i :: rest = p ++ q → s' u i = s u i) :
    walk F s' p.length t q = walk F s p.length t q := by
  induction q generalizing t p with
  | nil => rfl
  | cons i rest ih =>
    have hentry : s' t i = s t i := h t p i rest ht rfl
    rcases hslot : F p.length (s t i) with _ | t' | _
    · rw [walk_of_absent hslot, walk_of_absent (hentry ▸ hslot)]
    · rw [walk_of_next hslot, walk_of_next (hentry ▸ hslot)]
      have hrest := ih (hl.next ht hslot) fun u pu j r hu hpath =>
        h u pu j r hu (by rw [hpath, List.append_assoc, List.singleton_append])
      rwa [List.length_append, List.length_singleton] at hrest
    · rw [walk_of_leaf hslot, walk_of_leaf (hentry ▸ hslot), hentry]

/-- Writing one entry affects only the paths through that entry. -/
theorem walk_put (hl : Labelled F s roots label) (h₀ : label t₀ = some p₀)
    (hframe : ∀ u pu i, label u = some pu → (u, i) ≠ (t₀, i₀) → s' u i = s u i)
    (ht : label t = some p) (hpath : ¬ p₀ ++ [i₀] <+: p ++ q) :
    walk F s' p.length t q = walk F s p.length t q := by
  refine hl.walk_congr ht fun u pu i rest hu hq => hframe u pu i hu ?_
  rintro ⟨⟩
  obtain rfl : p₀ = pu := Option.some.inj (h₀.symm.trans hu)
  exact hpath ⟨rest, by rw [List.append_assoc, List.singleton_append, hq]⟩

/-- An entry may be written if the table it names, if any, has the path through the entry. -/
theorem write (hl : Labelled F s roots label) (h₀ : label t₀ = some p₀)
    (hframe : ∀ u pu i, label u = some pu → (u, i) ≠ (t₀, i₀) → s' u i = s u i)
    (hslot : ∀ t', F p₀.length (s' t₀ i₀) = .next t' → label t' = some (p₀ ++ [i₀])) :
    Labelled F s' roots label := by
  refine ⟨hl.root, fun {t t' p i} ht hnext => ?_⟩
  by_cases hsame : (t, i) = (t₀, i₀)
  · obtain ⟨rfl, rfl⟩ := Prod.mk.inj hsame
    obtain rfl : p₀ = p := Option.some.inj (h₀.symm.trans ht)
    exact hslot t' hnext
  · rw [hframe t p i ht hsame] at hnext
    exact hl.next ht hnext

/-- The labels are respected by a store that agrees on the tables in use. -/
theorem congr (hl : Labelled F s roots label)
    (hframe : ∀ u pu i, label u = some pu → s' u i = s u i) : Labelled F s' roots label :=
  ⟨hl.root, fun ht hnext => hl.next ht (hframe _ _ _ ht ▸ hnext)⟩

/-- Erasing an entry adds no translation. -/
theorem walk_erase (hl : Labelled F s roots label)
    (hframe : ∀ u pu i, label u = some pu → (u, i) ≠ (t₀, i₀) → s' u i = s u i)
    (habsent : ∀ d, F d (s' t₀ i₀) = .absent) (ht : label t = some p) {x : ℕ × E}
    (h : walk F s' p.length t q = some x) : walk F s p.length t q = some x := by
  induction q generalizing t p with
  | nil => cases h
  | cons i rest ih =>
    by_cases hentry : (t, i) = (t₀, i₀)
    · obtain ⟨rfl, rfl⟩ := Prod.mk.inj hentry
      rw [walk_of_absent (habsent _)] at h
      cases h
    · have hentry : s' t i = s t i := hframe t p i ht hentry
      rcases hslot : F p.length (s t i) with _ | t' | _
      · rw [walk_of_absent (hentry ▸ hslot)] at h
        cases h
      · rw [walk_of_next (hentry ▸ hslot), ← List.length_singleton (a := i),
          ← List.length_append] at h
        rw [walk_of_next hslot, ← List.length_singleton (a := i), ← List.length_append]
        exact ih (hl.next ht hslot) h
      · rw [walk_of_leaf (hentry ▸ hslot), hentry] at h
        rw [walk_of_leaf hslot]
        exact h

/-- Changing one entry changes no translation if none changes that starts there. -/
theorem walk_replace (hl : Labelled F s roots label) (h₀ : label t₀ = some p₀)
    (hframe : ∀ u pu i, label u = some pu → (u, i) ≠ (t₀, i₀) → s' u i = s u i)
    (hsame : ∀ rest, walk F s' p₀.length t₀ (i₀ :: rest) = walk F s p₀.length t₀ (i₀ :: rest))
    (ht : label t = some p) : walk F s' p.length t q = walk F s p.length t q := by
  induction q generalizing t p with
  | nil => rfl
  | cons i rest ih =>
    by_cases hentry : (t, i) = (t₀, i₀)
    · obtain ⟨rfl, rfl⟩ := Prod.mk.inj hentry
      obtain rfl : p₀ = p := Option.some.inj (h₀.symm.trans ht)
      exact hsame rest
    · have hentry : s' t i = s t i := hframe t p i ht hentry
      rcases hslot : F p.length (s t i) with _ | t' | _
      · rw [walk_of_absent hslot, walk_of_absent (hentry ▸ hslot)]
      · rw [walk_of_next hslot, walk_of_next (hentry ▸ hslot)]
        have hrest := ih (hl.next ht hslot)
        rwa [List.length_append, List.length_singleton] at hrest
      · rw [walk_of_leaf hslot, walk_of_leaf (hentry ▸ hslot), hentry]

/-- Linking an empty table into an absent entry changes no translation. -/
theorem walk_link (hl : Labelled F s roots label) (h₀ : label t₀ = some p₀)
    (hframe : ∀ u pu i, label u = some pu → (u, i) ≠ (t₀, i₀) → s' u i = s u i)
    (habsent : F p₀.length (s t₀ i₀) = .absent) (hnext : F p₀.length (s' t₀ i₀) = .next t₁)
    (hempty : ∀ i, F (p₀.length + 1) (s' t₁ i) = .absent) (ht : label t = some p) :
    walk F s' p.length t q = walk F s p.length t q := by
  refine hl.walk_replace h₀ hframe (fun rest => ?_) ht
  -- the walk used to stop here, and now stops one table further on
  rw [walk_of_absent habsent, walk_of_next hnext, walk_of_empty hempty]

/-- Writing an absent entry over an absent entry changes no translation. -/
theorem walk_absent (hl : Labelled F s roots label) (h₀ : label t₀ = some p₀)
    (hframe : ∀ u pu i, label u = some pu → (u, i) ≠ (t₀, i₀) → s' u i = s u i)
    (habsent : F p₀.length (s t₀ i₀) = .absent) (habsent' : F p₀.length (s' t₀ i₀) = .absent)
    (ht : label t = some p) : walk F s' p.length t q = walk F s p.length t q := by
  refine hl.walk_replace h₀ hframe (fun rest => ?_) ht
  rw [walk_of_absent habsent, walk_of_absent habsent']

/-- The tables on the trail of a path are in use, and lie on the path. -/
theorem label_of_mem_trail (hl : Labelled F s roots label) (ht : label t = some p)
    {x : ℕ × T × I} (hx : x ∈ trail F s p.length t q) :
    ∃ px, label x.2.1 = some px ∧ px.length = x.1 ∧ px ++ [x.2.2] <+: p ++ q := by
  induction q generalizing t p with
  | nil => cases hx
  | cons i rest ih =>
    have hhead : p ++ [i] <+: p ++ i :: rest := ⟨rest, by simp⟩
    rcases hslot : F p.length (s t i) with _ | t' | _
    · rw [trail_of_absent hslot, List.mem_singleton] at hx
      exact hx ▸ ⟨p, ht, rfl, hhead⟩
    · rw [trail_of_next hslot, List.mem_cons] at hx
      rcases hx with rfl | hx
      · exact ⟨p, ht, rfl, hhead⟩
      · rw [← List.length_singleton (a := i), ← List.length_append] at hx
        obtain ⟨px, hpx, hlen, hprefix⟩ := ih (hl.next ht hslot) hx
        rw [List.append_assoc, List.singleton_append] at hprefix
        exact ⟨px, hpx, hlen, hprefix⟩
    · rw [trail_of_leaf hslot, List.mem_singleton] at hx
      exact hx ▸ ⟨p, ht, rfl, hhead⟩

/-- The paths that two labels agree on. -/
def both [DecidableEq I] (label label' : Labels T I) : Labels T I :=
  fun t => if label t = label' t then label t else none

theorem both_eq_some [DecidableEq I] {label' : Labels T I} :
    both label label' t = some p ↔ label t = some p ∧ label' t = some p := by
  unfold both
  constructor
  · intro h
    split at h
    next heq => exact ⟨h, heq.symm.trans h⟩
    next => cases h
  · rintro ⟨h, h'⟩
    rw [if_pos (h.trans h'.symm), h]

/-- If the entries respect two labels, they respect what both agree on. -/
theorem inter [DecidableEq I] {label' : Labels T I} (hl : Labelled F s roots label)
    (hl' : Labelled F s roots label') : Labelled F s roots (both label label') := by
  refine ⟨fun r hr => both_eq_some.mpr ⟨hl.root r hr, hl'.root r hr⟩, fun ht hnext => ?_⟩
  obtain ⟨h, h'⟩ := both_eq_some.mp ht
  exact both_eq_some.mpr ⟨hl.next h hnext, hl'.next h' hnext⟩

variable [DecidableEq T]

/-- Labels of tables in use are kept when a label is given to a new table. -/
theorem update_of_fresh {p' : List I} (hfresh : label t₁ = none) (ht : label t = some p) :
    Function.update label t₁ (some p') t = some p := by
  rw [Function.update_of_ne, ht]
  rintro rfl
  rw [hfresh] at ht
  cases ht

/-- A table that names no other tables may be given a path. -/
theorem addTable (hl : Labelled F s roots label) (hfresh : label t₁ = none)
    (hnone : ∀ i t', F p₀.length (s t₁ i) ≠ .next t') :
    Labelled F s roots (Function.update label t₁ (some p₀)) := by
  refine ⟨fun r hr => update_of_fresh hfresh (hl.root r hr), fun {t t' p i} ht hslot => ?_⟩
  by_cases hnew : t = t₁
  · subst hnew
    rw [Function.update_self, Option.some.injEq] at ht
    exact absurd (ht ▸ hslot) (hnone i t')
  · rw [Function.update_of_ne hnew] at ht
    exact update_of_fresh hfresh (hl.next ht hslot)

/-- A table whose entries respect the labels may become a root. -/
theorem addRoot (hl : Labelled F s roots label) {r : T} (hfresh : label r = none)
    (hentries : ∀ i t', F 0 (s r i) = .next t' → label t' = some [i]) :
    Labelled F s (r :: roots) (Function.update label r (some [])) := by
  refine ⟨fun r' hr' => ?_, fun {t t' p i} ht hslot => ?_⟩
  · rcases List.mem_cons.mp hr' with rfl | hr'
    · exact Function.update_self _ _ _
    · exact update_of_fresh hfresh (hl.root r' hr')
  · by_cases hnew : t = r
    · subst hnew
      rw [Function.update_self, Option.some.injEq] at ht
      subst ht
      exact update_of_fresh hfresh (hentries i t' hslot)
    · rw [Function.update_of_ne hnew] at ht
      exact update_of_fresh hfresh (hl.next ht hslot)

end Labelled

end RadixTable
