import Mathlib.Order.BooleanAlgebra.Set

/-!
# Caches of translations

A cache holds translations that were found in tables and is not told when the tables change. It may
take over translations from the tables and drop others at any time, so addresses whose translation
changed are stale until they are flushed. What happens in between is left open: a statement about
`Runs` is one about all fills and evictions.

## Main definitions

* `Event`: changes of the tables, flushes, and marks for other events.
* `Runs`: what a cache may hold after some events.
* `stale`: the addresses that may have outdated translations after some events.
* `AtMarks`: a property of the tables and the stale addresses at every mark.

## Main results

* `Runs.agrees`: caches agree with the tables on all addresses that are not stale.
* `AtMarks.agrees`: the same at a mark.
-/

namespace TranslationCache

variable {V E R : Type*}

/-- Tables and caches, for addresses `V` that are translated to `E`; marks carry an `R`. -/
inductive Event (V E R : Type*)
  /-- From here on the tables translate in this way. -/
  | tables (w : V → Option E)
  /-- The cache drops the translations of these addresses. -/
  | flush (s : Set V)
  /-- Neither the tables nor the cache change. -/
  | mark (r : R)

variable {w w' : V → Option E} {c c' c'' : Set (V × E)} {d s : Set V} {es fs : List (Event V E R)}

/-! ## Caches -/

/-- Between events a cache gets translations that are in the tables, and loses some. -/
def Drifts (w : V → Option E) (c c' : Set (V × E)) : Prop := ∀ x ∈ c', x ∈ c ∨ w x.1 = some x.2

theorem Drifts.refl (w : V → Option E) (c : Set (V × E)) : Drifts w c c := fun _ hx => Or.inl hx

theorem Drifts.trans (h : Drifts w c c') (h' : Drifts w c' c'') : Drifts w c c'' :=
  fun x hx => (h' x hx).elim (h x) Or.inr

/-- `Runs w c es c'`: a cache that holds `c` may hold `c'` after the events `es`, if the tables
translate with `w` at first. -/
inductive Runs : (V → Option E) → Set (V × E) → List (Event V E R) → Set (V × E) → Prop
  | nil {w : V → Option E} {c c' : Set (V × E)} : Drifts w c c' → Runs w c [] c'
  | tables {w w' : V → Option E} {c c₁ c' : Set (V × E)} {es : List (Event V E R)} :
      Drifts w c c₁ → Runs w' c₁ es c' → Runs w c (.tables w' :: es) c'
  | flush {w : V → Option E} {c c₁ c' : Set (V × E)} {s : Set V} {es : List (Event V E R)} :
      Drifts w c c₁ → Runs w {x ∈ c₁ | x.1 ∉ s} es c' → Runs w c (.flush s :: es) c'
  | mark {w : V → Option E} {c c₁ c' : Set (V × E)} {r : R} {es : List (Event V E R)} :
      Drifts w c c₁ → Runs w c₁ es c' → Runs w c (.mark r :: es) c'

/-- The tables after some events. -/
def latest (w : V → Option E) : List (Event V E R) → V → Option E
  | [] => w
  | .tables w' :: es => latest w' es
  | .flush _ :: es | .mark _ :: es => latest w es

/-- The addresses that lose their translation or get another one. -/
def changed (w w' : V → Option E) : Set V := {v | ∃ e, w v = some e ∧ w' v ≠ some e}

/-- The addresses that may have outdated translations after some events, if those of `d` may have
them at first. -/
def stale (w : V → Option E) (d : Set V) : List (Event V E R) → Set V
  | [] => d
  | .tables w' :: es => stale w' (d ∪ changed w w') es
  | .flush s :: es => stale w (d \ s) es
  | .mark _ :: es => stale w d es

/-- The cache agrees with the tables, except on the addresses of `d`. -/
def Agrees (d : Set V) (w : V → Option E) (c : Set (V × E)) : Prop :=
  ∀ x ∈ c, x.1 ∉ d → w x.1 = some x.2

theorem Agrees.drifts (h : Agrees d w c) (hc : Drifts w c c') : Agrees d w c' :=
  fun x hx hd => (hc x hx).elim (fun hx => h x hx hd) id

/-- The addresses whose translation changed become stale. -/
theorem Agrees.tables (h : Agrees d w c) : Agrees (d ∪ changed w w') w' c := by
  intro x hx hd
  rw [Set.mem_union, not_or] at hd
  by_contra hne
  exact hd.2 ⟨x.2, h x hx hd.1, hne⟩

/-- Addresses that are flushed are not stale. -/
theorem Agrees.flush (h : Agrees d w c) : Agrees (d \ s) w {x ∈ c | x.1 ∉ s} :=
  fun x hx hd => h x hx.1 fun hmem => hd ⟨hmem, hx.2⟩

/-- Caches agree with the tables on all addresses that are not stale. -/
theorem Runs.agrees (hrun : Runs w c es c') (h : Agrees d w c) :
    Agrees (stale w d es) (latest w es) c' := by
  induction hrun generalizing d with
  | nil hc => exact h.drifts hc
  | tables hc _ ih => exact ih (h.drifts hc).tables
  | flush hc _ ih => exact ih (h.drifts hc).flush
  | mark hc _ ih => exact ih (h.drifts hc)

/-- Translations that a cache got before the events. -/
theorem Runs.of_drifts (hc : Drifts w c c') (hrun : Runs w c' es c'') : Runs w c es c'' := by
  cases hrun with
  | nil h => exact .nil (hc.trans h)
  | tables h hrest => exact .tables (hc.trans h) hrest
  | flush h hrest => exact .flush (hc.trans h) hrest
  | mark h hrest => exact .mark (hc.trans h) hrest

/-- Without flushes a cache may keep what it holds. -/
theorem Runs.keeps (h : ∀ s, .flush s ∈ es → s = ∅) : Runs w c es c := by
  induction es generalizing w with
  | nil => exact .nil (.refl w c)
  | cons e es ih =>
    have hrest : ∀ s, .flush s ∈ es → s = ∅ := fun s hs => h s (List.mem_cons_of_mem _ hs)
    cases e with
    | tables w' => exact .tables (.refl w c) (ih hrest)
    | flush s =>
      obtain rfl := h s List.mem_cons_self
      refine .flush (.refl w c) ?_
      simpa using ih hrest
    | mark r => exact .mark (.refl w c) (ih hrest)

/-! ## Lists of events -/

theorem latest_append : latest w (es ++ fs) = latest (latest w es) fs := by
  fun_induction latest w es with
  | case1 => rfl
  | case2 w w' es ih => exact ih
  | case3 w s es ih => exact ih
  | case4 w r es ih => exact ih

theorem stale_append : stale w d (es ++ fs) = stale (latest w es) (stale w d es) fs := by
  fun_induction stale w d es with
  | case1 => rfl
  | case2 w d w' es ih => exact ih
  | case3 w d s es ih => exact ih
  | case4 w d r es ih => exact ih

/-- Flushing all addresses of `d` in the course of some flushes leaves no stale address. -/
theorem stale_map_flush {ι : Type*} (f : ι → Set V) (is : List ι) :
    stale w d (is.map fun i => (Event.flush (f i) : Event V E R)) =
      d \ {v | ∃ i ∈ is, v ∈ f i} := by
  induction is generalizing d with
  | nil =>
    have hnone : {v | ∃ i ∈ ([] : List ι), v ∈ f i} = ∅ := by simp
    rw [hnone, Set.sdiff_empty]
    rfl
  | cons i is ih =>
    rw [List.map_cons, stale, ih]
    ext v
    simp [and_assoc]

theorem latest_map_flush {ι : Type*} (f : ι → Set V) (is : List ι) :
    latest w (is.map fun i => (Event.flush (f i) : Event V E R)) = w := by
  induction is with
  | nil => rfl
  | cons i is ih => exact ih

/-- `P` holds at every mark, of what the mark carries, the tables and the stale addresses. -/
def AtMarks (P : R → (V → Option E) → Set V → Prop) (w : V → Option E) (d : Set V) :
    List (Event V E R) → Prop
  | [] => True
  | .tables w' :: es => AtMarks P w' (d ∪ changed w w') es
  | .flush s :: es => AtMarks P w (d \ s) es
  | .mark r :: es => P r w d ∧ AtMarks P w d es

theorem atMarks_append {P : R → (V → Option E) → Set V → Prop} :
    AtMarks P w d (es ++ fs) ↔
      AtMarks P w d es ∧ AtMarks P (latest w es) (stale w d es) fs := by
  fun_induction AtMarks P w d es with
  | case1 => exact (iff_of_eq (true_and _)).symm
  | case2 w d w' es ih => exact ih
  | case3 w d s es ih => exact ih
  | case4 w d r es ih => exact (and_congr_right fun _ => ih).trans and_assoc.symm

/-- Flushes are no marks. -/
theorem atMarks_map_flush {P : R → (V → Option E) → Set V → Prop} {ι : Type*} (f : ι → Set V)
    (is : List ι) : AtMarks P w d (is.map fun i => (Event.flush (f i) : Event V E R)) := by
  induction is generalizing d with
  | nil => trivial
  | cons i is ih => exact ih

/-- At a mark, a cache agrees with tables and on addresses for which `P` holds. -/
theorem AtMarks.agrees {P : R → (V → Option E) → Set V → Prop} {r : R}
    (h : AtMarks P w d (es ++ .mark r :: fs)) (hrun : Runs w c es c') (hc : Agrees d w c) :
    ∃ w' d', P r w' d' ∧ Agrees d' w' c' :=
  ⟨_, _, (atMarks_append.mp h).2.1, hrun.agrees hc⟩

end TranslationCache
