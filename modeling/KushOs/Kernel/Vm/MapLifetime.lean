import KushOs.Foundation.RefGraph
import KushOs.Foundation.Run
import KushOs.Kernel.Platform
import Mathlib.Data.Finset.Range

/-!
# The lifetime of virtual memory maps

A `Map` is reference counted. Its constructor retains the parent and its destructor releases it, so
a release may destroy a whole chain of maps. `activate` stores the map as the current one of the
processor and does not retain it; `gKernelMap`, the default parent, is not retained either.

Maps are numbered in the order of their creation. The state records the references that holders
own, and the destructors that have run.

## Main definitions

* `Maps`, `MapStep`: the maps with the pointers to them, and the calls.
* `Maps.Lifetime`: no reference to a destroyed map is left.
* `Careful`: the calls that do not run into the pointers which are not counted.

## Main results

* `map_lifetime`: in runs of careful calls, every state satisfies `Lifetime`.
-/

namespace KushOs.Vm

open Transition

/-! ## Maps and references -/

/-- All maps that were created, the pointers to them, and the references of the holders. -/
structure Maps where
  /-- `refCount`, a `size_t`. -/
  refCount : ℕ → BitVec 64
  parent : ℕ → Option ℕ
  /-- Number of maps that were created. -/
  created : ℕ
  gKernelMap : Option ℕ
  /-- `ProcessorLocals::GetKernelData()->map` of each processor. -/
  current : ℕ → Option ℕ
  /-- The map whose page table each processor has loaded. -/
  loaded : ℕ → Option ℕ
  /-- The maps whose destructor has run, once for each time. -/
  destroyed : List ℕ
  /-- The references that holders own. -/
  owned : ℕ → ℕ

namespace Maps

/-- Before the first map. -/
def boot : Maps where
  refCount _ := 0
  parent _ := none
  created := 0
  gKernelMap := none
  current _ := none
  loaded _ := none
  destroyed := []
  owned _ := 0

/-- `RefCountable::retain`. -/
def retain (s : Maps) (i : ℕ) : Maps :=
  { s with refCount := Function.update s.refCount i (s.refCount i + 1) }

/-- `RefCountable::release`, and with it the destructor, which releases the parent. Parents are
older than their children, so `fuel` above the number of the map is enough. -/
def releaseFrom : ℕ → Maps → ℕ → Maps
  | 0, s, _ => s
  | fuel + 1, s, i =>
    let s := { s with refCount := Function.update s.refCount i (s.refCount i - 1) }
    if s.refCount i = 0 then
      let s := { s with destroyed := i :: s.destroyed }
      match s.parent i with
      | some p => releaseFrom fuel s p
      | none => s
    else s

/-- `RefCountable::release`. -/
def release (s : Maps) (i : ℕ) : Maps := releaseFrom (i + 1) s i

/-- `Map::Map`. The reference that the counter starts with belongs to the caller. -/
def construct (s : Maps) (parent : Option ℕ) : Maps :=
  let parent := match parent with
    | some p => some p
    | none => s.gKernelMap
  let s := match parent with
    | some p => s.retain p
    | none => s
  { s with
    refCount := Function.update s.refCount s.created 1
    parent := Function.update s.parent s.created parent
    created := s.created + 1
    owned := Function.update s.owned s.created 1 }

/-- `Map::activate` on a processor. -/
def activate (s : Maps) (cpu i : ℕ) : Maps :=
  { s with
    loaded := Function.update s.loaded cpu (some i)
    current := Function.update s.current cpu (some i) }

end Maps

/-- A call. -/
inductive MapOp
  /-- The constructor, `Map(parent)`, in memory of its own. -/
  | create (parent : Option ℕ)
  /-- `Kernel::Start(map)`, which makes the map the kernel map. -/
  | start (i : ℕ)
  | activate (cpu i : ℕ)
  | retain (i : ℕ)
  | release (i : ℕ)

/-- Holders use the references that they own: as a parent, to retain or to release. The kernel is
started once, and the map that is activated exists. -/
inductive MapStep : Maps → MapOp → Maps → Prop
  | create {s : Maps} {parent : Option ℕ} :
      (∀ p, parent = some p → 0 < s.owned p) → MapStep s (.create parent) (s.construct parent)
  | start {s : Maps} {i : ℕ} :
      s.gKernelMap = none → 0 < s.owned i → MapStep s (.start i) { s with gKernelMap := some i }
  | activate {s : Maps} {cpu i : ℕ} :
      i < s.created → i ∉ s.destroyed → MapStep s (.activate cpu i) (s.activate cpu i)
  | retain {s : Maps} {i : ℕ} :
      0 < s.owned i →
      MapStep s (.retain i)
        { s.retain i with owned := Function.update s.owned i (s.owned i + 1) }
  | release {s : Maps} {i n : ℕ} :
      s.owned i = n + 1 →
      MapStep s (.release i) (Maps.release { s with owned := Function.update s.owned i n } i)

namespace Maps

/-- A map is destroyed once, as soon as neither a holder nor a live child refers to it; the parent
of a live map, the current maps and the maps whose page tables are loaded are not destroyed. -/
structure Lifetime (s : Maps) : Prop where
  once : s.destroyed.Nodup
  destroyed_iff : ∀ i < s.created, i ∈ s.destroyed ↔
    s.owned i = 0 ∧ ∀ j < s.created, j ∉ s.destroyed → s.parent j ≠ some i
  parent : ∀ j < s.created, j ∉ s.destroyed → ∀ p, s.parent j = some p → p ∉ s.destroyed
  current : ∀ cpu i, s.current cpu = some i → i ∉ s.destroyed
  loaded : ∀ cpu i, s.loaded cpu = some i → i ∉ s.destroyed

/-- A release of map `i` destroys map `j`: the counters of all maps from `i` up to `j` are at
one. -/
inductive Dies (s : Maps) : ℕ → ℕ → Prop
  | last {i : ℕ} : s.refCount i = 1 → Dies s i i
  | parent {i p j : ℕ} : s.refCount i = 1 → s.parent i = some p → Dies s p j → Dies s i j

end Maps

/-- Counters do not overflow, a default parent has not been destroyed, and no release destroys the
current map of a processor. -/
def Careful (s : Maps) : MapOp → Prop
  | .create parent => ∀ p, (parent <|> s.gKernelMap) = some p →
      p ∉ s.destroyed ∧ s.refCount p ≠ BitVec.allOnes 64
  | .start _ => True
  | .activate _ _ => True
  | .retain i => s.refCount i ≠ BitVec.allOnes 64
  | .release i => ∀ j, s.Dies i j → ∀ cpu, s.current cpu ≠ some j

/-! ## The invariant -/

namespace Maps

variable {s t : Maps} {i j p : ℕ}

/-- Which maps are alive and who refers to them. -/
def graph (s : Maps) : RefGraph ℕ where
  live := (Finset.range s.created).filter fun i => i ∉ s.destroyed
  link := s.parent
  owned := s.owned

/-- The values of the counters. -/
def count (s : Maps) (i : ℕ) : ℕ := (s.refCount i).toNat

/-- The invariant behind `Lifetime`: the counters count the references of holders and of children,
and the current maps are alive. -/
structure Inv (s : Maps) : Prop where
  balanced : s.graph.Balanced s.count none
  older : ∀ i p, s.parent i = some p → p < i
  once : s.destroyed.Nodup
  destroyed_lt : ∀ i ∈ s.destroyed, i < s.created
  owned_lt : ∀ i, 0 < s.owned i → i < s.created ∧ i ∉ s.destroyed
  kernel : ∀ k, s.gKernelMap = some k → k < s.created
  current : ∀ cpu i, s.current cpu = some i → i ∈ s.graph.live
  loaded : s.loaded = s.current

/-- A map lives from its construction to its destructor. -/
theorem mem_live : i ∈ s.graph.live ↔ i < s.created ∧ i ∉ s.destroyed := by
  rw [graph, Finset.mem_filter, Finset.mem_range]

/-- A map that somebody owns lives. -/
theorem Inv.live_of_owned (h : s.Inv) (hi : 0 < s.owned i) : i ∈ s.graph.live :=
  mem_live.2 (h.owned_lt i hi)

/-- Storing a counter. -/
theorem count_update (v : BitVec 64) :
    ({ s with refCount := Function.update s.refCount i v } : Maps).count =
      Function.update s.count i v.toNat := by
  funext j
  change (Function.update s.refCount i v j).toNat = Function.update s.count i v.toNat j
  rcases eq_or_ne j i with rfl | hne
  · rw [Function.update_self, Function.update_self]
  · rw [Function.update_of_ne hne, Function.update_of_ne hne, count]

/-- Running a destructor removes a map. -/
theorem graph_destroy (i : ℕ) :
    ({ s with destroyed := i :: s.destroyed } : Maps).graph = s.graph.remove i := by
  have hlive : (Finset.range s.created).filter (fun j => j ∉ i :: s.destroyed) =
      ((Finset.range s.created).filter fun j => j ∉ s.destroyed).erase i := by
    ext j
    simp only [Finset.mem_filter, Finset.mem_erase, List.mem_cons, not_or]
    tauto
  unfold graph RefGraph.remove
  rw [hlive]

/-- A counter that is not at its maximum goes up by one. -/
theorem toNat_succ {v : BitVec 64} (h : v ≠ BitVec.allOnes 64) : (v + 1).toNat = v.toNat + 1 := by
  have hne : v.toNat ≠ 2 ^ 64 - 1 := by
    intro heq
    exact h (BitVec.eq_of_toNat_eq (heq.trans BitVec.toNat_allOnes.symm))
  have hlt := v.isLt
  have hone : (1 : BitVec 64).toNat = 1 := rfl
  rw [BitVec.toNat_add, hone]
  omega

/-- Which maps die depends on the counts and the parents of the older maps only. -/
theorem Dies.congr (h : t.Dies p j) (hold : ∀ i q, s.parent i = some q → q < i)
    (hparent : t.parent = s.parent) (hcount : ∀ k ≤ p, t.refCount k = s.refCount k) :
    s.Dies p j := by
  induction h with
  | @last i hlast => exact .last (hcount i le_rfl ▸ hlast)
  | @parent i q j hlast hq _ ih =>
    rw [hparent] at hq
    refine .parent (hcount i le_rfl ▸ hlast) hq (ih fun k hk => hcount k ?_)
    exact hk.trans (hold i q hq).le

/-- What a release does to the rest of the state: it changes counters and destroys maps. -/
def released (s : Maps) (refCount : ℕ → BitVec 64) (dead : List ℕ) : Maps :=
  { s with refCount, destroyed := dead ++ s.destroyed }

/-- A count above zero does not wrap around when it is lowered. -/
theorem refCount_sub (hpos : 0 < (s.refCount i).toNat) :
    (s.refCount i - 1).toNat = s.count i - 1 := by
  have hone : (1 : BitVec 64).toNat = 1 := rfl
  rw [BitVec.toNat_sub_of_le (by rw [BitVec.le_def, hone]; exact hpos), hone, count]

/-- A release that is not the last one only counts down. -/
theorem releaseFrom_of_ne {fuel : ℕ} (h : s.refCount i ≠ 1) :
    releaseFrom (fuel + 1) s i =
      s.released (Function.update s.refCount i (s.refCount i - 1)) [] := by
  have hne : s.refCount i - 1 ≠ 0 := fun heq => h (by grind)
  simp only [releaseFrom, Function.update_self, if_neg hne, released, List.nil_append]

/-- The last release runs the destructor, which releases the parent. -/
theorem releaseFrom_of_last {fuel : ℕ} (h : s.refCount i = 1) :
    releaseFrom (fuel + 1) s i =
      match s.parent i with
      | some p => releaseFrom fuel (s.released (Function.update s.refCount i 0) [i]) p
      | none => s.released (Function.update s.refCount i 0) [i] := by
  have hzero : s.refCount i - 1 = 0 := by rw [h]; rfl
  simp only [releaseFrom, hzero, Function.update_self, if_true]
  rfl

/-- A release of the last reference takes the map out of the graph. -/
theorem graph_released_last (v : BitVec 64) :
    (s.released (Function.update s.refCount i v) [i]).graph = s.graph.remove i :=
  graph_destroy (s := { s with refCount := Function.update s.refCount i v }) i

/-- A release changes one count. -/
theorem count_released (v : BitVec 64) (dead : List ℕ) :
    (s.released (Function.update s.refCount i v) dead).count = Function.update s.count i v.toNat :=
  count_update v

/-- A release of a reference that nobody holds any more leaves the counters right. It destroys the
maps whose counters reach zero, each once. -/
theorem releaseFrom_spec {fuel : ℕ} (hfuel : i < fuel)
    (hold : ∀ i p, s.parent i = some p → p < i) (hb : s.graph.Balanced s.count (some i)) :
    ∃ refCount dead, releaseFrom fuel s i = s.released refCount dead ∧
      (s.released refCount dead).graph.Balanced (s.released refCount dead).count none ∧
      dead.Nodup ∧ ∀ j ∈ dead, s.Dies i j ∧ j ∈ s.graph.live ∧ s.owned j = 0 := by
  induction fuel generalizing s i with
  | zero => exact absurd hfuel (Nat.not_lt_zero i)
  | succ fuel ih =>
    have hlive := hb.pending_live i rfl
    by_cases hlast : s.refCount i = 1
    · have hone : s.count i = 1 := by rw [count, hlast]; rfl
      have howned := (hb.refs_of_last hone).1
      have hdrop := hb.dropLast hone
      have hzero : (0 : BitVec 64).toNat = 0 := rfl
      rw [← graph_released_last 0, ← hzero, ← count_released 0 [i]] at hdrop
      rw [releaseFrom_of_last hlast]
      cases hparent : s.parent i with
      | none =>
        change (s.released _ [i]).graph.Balanced _ (s.parent i) at hdrop
        rw [hparent] at hdrop
        refine ⟨_, [i], rfl, hdrop, List.nodup_singleton i, fun j hj => ?_⟩
        rw [List.mem_singleton.1 hj]
        exact ⟨.last hlast, hlive, howned⟩
      | some p =>
        change (s.released _ [i]).graph.Balanced _ (s.parent i) at hdrop
        rw [hparent] at hdrop
        have hpi := hold i p hparent
        obtain ⟨refCount, dead, heq, hbal, hnodup, hdead⟩ :=
          ih (s := s.released (Function.update s.refCount i 0) [i])
            (Nat.lt_of_lt_of_le hpi (Nat.le_of_lt_succ hfuel)) hold hdrop
        -- the map itself was removed first, so the rest of the chain does not meet it again
        have hnot : i ∉ dead := fun hi => by
          have hmem := (hdead i hi).2.1
          rw [graph_released_last] at hmem
          exact Finset.notMem_erase i _ hmem
        refine ⟨refCount, dead ++ [i], ?_, ?_, ?_, fun j hj => ?_⟩
        · change releaseFrom fuel _ p = _
          rw [heq, released, released, released, List.append_assoc]
        · rwa [released, released, ← List.append_assoc] at hbal
        · refine List.nodup_append.2 ⟨hnodup, List.nodup_singleton i, fun j hj k hk hjk => ?_⟩
          exact hnot (List.mem_singleton.1 hk ▸ hjk ▸ hj)
        · rcases List.mem_append.1 hj with hj | hj
          · obtain ⟨hdies, hmem, hnone⟩ := hdead j hj
            rw [graph_released_last] at hmem
            have hcong := hdies.congr (s := s) hold rfl fun k hk =>
              Function.update_of_ne (Nat.lt_of_le_of_lt hk hpi).ne _ _
            exact ⟨.parent hlast hparent hcong, Finset.mem_of_mem_erase hmem, hnone⟩
          · rw [List.mem_singleton.1 hj]
            exact ⟨.last hlast, hlive, howned⟩
    · have hne : s.count i ≠ 1 := fun hc => hlast (BitVec.eq_of_toNat_eq hc)
      have hdrop := hb.dropOther hne
      rw [← refCount_sub (hb.referenced i hlive), ← count_released _ []] at hdrop
      rw [releaseFrom_of_ne hlast]
      exact ⟨_, [], rfl, hdrop, List.nodup_nil, by simp⟩

/-! ## Every call keeps the invariant -/

/-- The invariant holds when the kernel map is built. -/
theorem boot_inv : boot.Inv where
  balanced := ⟨fun _ h => absurd h (Finset.notMem_empty _), fun _ h => absurd h
    (Finset.notMem_empty _), fun _ h => absurd h (Finset.notMem_empty _), fun _ h => by cases h⟩
  older _ _ h := by cases h
  once := List.nodup_nil
  destroyed_lt _ h := absurd h List.not_mem_nil
  owned_lt _ h := absurd h (Nat.lt_irrefl 0)
  kernel _ h := by cases h
  current _ _ h := by cases h
  loaded := rfl

/-- The counters once a parent is retained. -/
def adopted (s : Maps) : Option ℕ → ℕ → BitVec 64
  | some p => (s.retain p).refCount
  | none => s.refCount

/-- The state with a new map, given its parent. -/
def adopt (s : Maps) (l : Option ℕ) : Maps :=
  { s with
    refCount := Function.update (s.adopted l) s.created 1
    parent := Function.update s.parent s.created l
    created := s.created + 1
    owned := Function.update s.owned s.created 1 }

/-- The parent that the constructor settles on is the given one or the kernel map. -/
theorem construct_eq (parent : Option ℕ) :
    s.construct parent = s.adopt (parent <|> s.gKernelMap) := by
  cases parent with
  | some p => rfl
  | none =>
    have hnone : (none <|> s.gKernelMap) = s.gKernelMap := by cases s.gKernelMap <;> rfl
    rw [hnone]
    cases hk : s.gKernelMap with
    | some k => simp only [construct, adopt, adopted, hk, retain]
    | none => simp only [construct, adopt, adopted, hk]

/-- The new map is a new object of the graph. -/
theorem Inv.graph_adopt (h : s.Inv) (l : Option ℕ) :
    (s.adopt l).graph = s.graph.insert s.created l := by
  have hlive : ((Finset.range (s.created + 1)).filter fun i => i ∉ s.destroyed) =
      insert s.created s.graph.live := by
    rw [Finset.range_add_one, Finset.filter_insert, if_pos]
    · rfl
    · exact fun hmem => Nat.lt_irrefl _ (h.destroyed_lt _ hmem)
  change RefGraph.mk _ _ _ = RefGraph.mk (insert s.created s.graph.live) _ _
  rw [← hlive]
  rfl

/-- A new map with a live parent, or without one, keeps the counters right. -/
theorem Inv.balanced_adopt (h : s.Inv) {l : Option ℕ}
    (hl : ∀ p, l = some p → p ∈ s.graph.live ∧ s.refCount p ≠ BitVec.allOnes 64) :
    (s.adopt l).graph.Balanced (s.adopt l).count none := by
  have hnew : s.created ∉ s.graph.live := fun hmem => Nat.lt_irrefl _ (mem_live.1 hmem).1
  have hone : (1 : BitVec 64).toNat = 1 := rfl
  rw [h.graph_adopt]
  cases l with
  | none =>
    have hcount : (s.adopt none).count = Function.update s.count s.created 1 := by
      rw [← hone, ← count_update]
      rfl
    rw [hcount]
    exact h.balanced.insertNone hnew
  | some p =>
    obtain ⟨hlive, hmax⟩ := hl p rfl
    have hcount : (s.adopt (some p)).count =
        Function.update (Function.update s.count p (s.count p + 1)) s.created 1 := by
      rw [count, ← toNat_succ hmax, ← count_update, ← hone, ← count_update]
      rfl
    rw [hcount]
    exact h.balanced.insertSome hnew hlive

/-- A map with one owner may be added, with a link to a live parent. -/
theorem Inv.adopt (h : s.Inv) {l : Option ℕ}
    (hl : ∀ p, l = some p → p ∈ s.graph.live ∧ s.refCount p ≠ BitVec.allOnes 64) :
    (s.adopt l).Inv where
  balanced := h.balanced_adopt hl
  older i p hp := by
    change Function.update s.parent s.created l i = some p at hp
    rcases eq_or_ne i s.created with rfl | hne
    · rw [Function.update_self] at hp
      exact (mem_live.1 (hl p hp).1).1
    · rw [Function.update_of_ne hne] at hp
      exact h.older i p hp
  once := h.once
  destroyed_lt i hi := Nat.lt_succ_of_lt (h.destroyed_lt i hi)
  owned_lt i hi := by
    change 0 < Function.update s.owned s.created 1 i at hi
    rcases eq_or_ne i s.created with rfl | hne
    · exact ⟨Nat.lt_succ_self _, fun hmem => Nat.lt_irrefl _ (h.destroyed_lt _ hmem)⟩
    · rw [Function.update_of_ne hne] at hi
      exact ⟨Nat.lt_succ_of_lt (h.owned_lt i hi).1, (h.owned_lt i hi).2⟩
  kernel k hk := Nat.lt_succ_of_lt (h.kernel k hk)
  current cpu i hi := by
    obtain ⟨hlt, hnot⟩ := mem_live.1 (h.current cpu i hi)
    exact mem_live.2 ⟨Nat.lt_succ_of_lt hlt, hnot⟩
  loaded := h.loaded

/-- The constructor keeps the invariant. -/
theorem Inv.construct (h : s.Inv) {parent : Option ℕ}
    (howned : ∀ p, parent = some p → 0 < s.owned p) (hcareful : Careful s (.create parent)) :
    (s.construct parent).Inv := by
  rw [construct_eq]
  refine h.adopt fun p hp => ?_
  obtain ⟨hnot, hmax⟩ := hcareful p hp
  refine ⟨mem_live.2 ⟨?_, hnot⟩, hmax⟩
  cases parent with
  | some q =>
    cases hp
    exact (h.owned_lt p (howned p rfl)).1
  | none =>
    refine h.kernel p ?_
    rw [← hp]
    cases s.gKernelMap <;> rfl

/-- A reference that is taken keeps it. -/
theorem Inv.retain (h : s.Inv) (hi : 0 < s.owned i) (hmax : s.refCount i ≠ BitVec.allOnes 64) :
    Inv { s.retain i with owned := Function.update s.owned i (s.owned i + 1) } where
  balanced := by
    have hret := h.balanced.retain (h.live_of_owned hi)
    rw [count, ← toNat_succ hmax, ← count_update] at hret
    exact hret
  older := h.older
  once := h.once
  destroyed_lt := h.destroyed_lt
  owned_lt j hj := by
    change 0 < Function.update s.owned i (s.owned i + 1) j at hj
    rcases eq_or_ne j i with rfl | hne
    · exact h.owned_lt j hi
    · rw [Function.update_of_ne hne] at hj
      exact h.owned_lt j hj
  kernel := h.kernel
  current := h.current
  loaded := h.loaded

/-- Activating a live map keeps it. -/
theorem Inv.activate (h : s.Inv) {cpu : ℕ} (hi : i ∈ s.graph.live) : (s.activate cpu i).Inv where
  balanced := h.balanced
  older := h.older
  once := h.once
  destroyed_lt := h.destroyed_lt
  owned_lt := h.owned_lt
  kernel := h.kernel
  current c j hj := by
    change Function.update s.current cpu (some i) c = some j at hj
    rcases eq_or_ne c cpu with rfl | hne
    · rw [Function.update_self] at hj
      cases hj
      exact hi
    · rw [Function.update_of_ne hne] at hj
      exact h.current c j hj
  loaded := by
    change Function.update s.loaded cpu (some i) = Function.update s.current cpu (some i)
    rw [h.loaded]

/-- The maps that a release destroys are alive, and none of them is current. -/
theorem Inv.release {n : ℕ} (h : s.Inv) (hi : s.owned i = n + 1)
    (hcareful : Careful s (.release i)) :
    (Maps.release { s with owned := Function.update s.owned i n } i).Inv := by
  set t : Maps := { s with owned := Function.update s.owned i n }
  have hle : ∀ j, t.owned j ≤ s.owned j := by
    intro j
    change Function.update s.owned i n j ≤ s.owned j
    rcases eq_or_ne j i with rfl | hne
    · rw [Function.update_self, hi]
      exact Nat.le_succ n
    · rw [Function.update_of_ne hne]
  have hpending : t.graph.Balanced t.count (some i) :=
    h.balanced.disown (h.live_of_owned (hi ▸ Nat.succ_pos n)) hi
  -- the objects that die are those that the release leads to, once each
  obtain ⟨refCount, dead, heq, hbal, hnodup, hdead⟩ :=
    releaseFrom_spec (s := t) (Nat.lt_succ_self i) h.older hpending
  rw [Maps.release, heq]
  refine ⟨hbal, h.older, ?_, fun j hj => ?_, fun j hj => ?_, h.kernel, fun cpu j hj => ?_,
    h.loaded⟩
  · refine List.nodup_append.2 ⟨hnodup, h.once, fun j hj k hk hjk => ?_⟩
    exact (mem_live.1 (hdead j hj).2.1).2 (hjk ▸ hk)
  · rcases List.mem_append.1 hj with hj | hj
    · exact (mem_live.1 (hdead j hj).2.1).1
    · exact h.destroyed_lt j hj
  · obtain ⟨hlt, hnot⟩ := h.owned_lt j (hj.trans_le (hle j))
    refine ⟨hlt, fun hmem => ?_⟩
    rcases List.mem_append.1 hmem with hmem | hmem
    · exact hj.ne' (hdead j hmem).2.2
    · exact hnot hmem
  · obtain ⟨hlt, hnot⟩ := mem_live.1 (h.current cpu j hj)
    refine mem_live.2 ⟨hlt, fun hmem => ?_⟩
    rcases List.mem_append.1 hmem with hmem | hmem
    · have hdies : s.Dies i j := (hdead j hmem).1.congr h.older rfl fun _ _ => rfl
      exact hcareful j hdies cpu hj
    · exact hnot hmem

end Maps

/-- Every careful operation keeps it. -/
theorem MapStep.inv {s t : Maps} {op : MapOp} (h : s.Inv) (hcareful : Careful s op)
    (hstep : MapStep s op t) : t.Inv := by
  cases hstep with
  | create howned => exact h.construct howned hcareful
  | start _ hi =>
    exact ⟨h.balanced, h.older, h.once, h.destroyed_lt, h.owned_lt,
      fun k hk => Option.some.inj hk ▸ (h.owned_lt _ hi).1, h.current, h.loaded⟩
  | activate hlt hnot => exact h.activate (Maps.mem_live.2 ⟨hlt, hnot⟩)
  | retain hi => exact h.retain hi hcareful
  | release hi => exact h.release hi hcareful

/-! ## The lifetime of a map -/

namespace Maps

variable {s : Maps}

/-- A map without references is destroyed: its counter would be zero. -/
theorem Inv.mem_destroyed_iff (h : s.Inv) {i : ℕ} (hi : i < s.created) :
    i ∈ s.destroyed ↔
      s.owned i = 0 ∧ ∀ j < s.created, j ∉ s.destroyed → s.parent j ≠ some i := by
  constructor
  · intro hmem
    refine ⟨?_, fun j hj hnot hlink => ?_⟩
    · by_contra hpos
      exact (h.owned_lt i (Nat.pos_of_ne_zero hpos)).2 hmem
    · have hlive := h.balanced.closed j (mem_live.2 ⟨hj, hnot⟩) i hlink
      exact (mem_live.1 hlive).2 hmem
  · rintro ⟨hzero, hnone⟩
    by_contra hnot
    have hlive : i ∈ s.graph.live := mem_live.2 ⟨hi, hnot⟩
    have hpos := h.balanced.referenced i hlive
    rw [h.balanced.count_of_none hlive, RefGraph.refs] at hpos
    have hlinked : 0 < s.graph.linked i := by
      change 0 < s.owned i + _ at hpos
      rwa [hzero, Nat.zero_add] at hpos
    obtain ⟨j, hj, hlink⟩ := RefGraph.exists_of_linked_pos hlinked
    exact hnone j (mem_live.1 hj).1 (mem_live.1 hj).2 hlink

/-- What the invariant says about the lifetime of maps. -/
theorem Inv.lifetime (h : s.Inv) : s.Lifetime where
  once := h.once
  destroyed_iff _ hi := h.mem_destroyed_iff hi
  parent j hj hnot p hp := (mem_live.1 (h.balanced.closed j (mem_live.2 ⟨hj, hnot⟩) p hp)).2
  current cpu i hi := (mem_live.1 (h.current cpu i hi)).2
  loaded cpu i hi := (mem_live.1 (h.current cpu i (h.loaded ▸ hi))).2

end Maps

/-- In a run of careful calls no reference to a destroyed map is left, in any state. -/
theorem map_lifetime {ops : List MapOp} {s : Maps}
    (hrun : RunWhere MapStep Careful Maps.boot ops s) : s.Lifetime :=
  (hrun.preserves_of (fun _ _ _ h hcareful hstep => hstep.inv h hcareful) Maps.boot_inv).lifetime

/-- A map that is released while it is not current, and whose parent is the kernel map. -/
theorem map_lifetime_child :
    ∃ s : Maps, s.destroyed = [1] ∧ s.current 0 = some 0 ∧ s.Lifetime := by
  let kernel := Maps.boot.construct none
  let started : Maps := { kernel with gKernelMap := some 0 }
  let child := (started.activate 0 0).construct none
  let last := Maps.release { child with owned := Function.update child.owned 1 0 } 1
  have hrun : RunWhere MapStep Careful Maps.boot
      [.create none, .start 0, .activate 0 0, .create none, .release 1] last := by
    refine .cons ⟨.create nofun, nofun⟩ (.cons ⟨.start rfl Nat.one_pos, trivial⟩
      (.cons ⟨.activate Nat.one_pos List.not_mem_nil, trivial⟩
        (.cons ⟨.create nofun, ?_⟩ (.cons ⟨.release rfl, ?_⟩ (.nil _)))))
    · rintro p ⟨⟩
      exact ⟨List.not_mem_nil, by decide⟩
    · rintro j hdies cpu hcur
      have hmax : ((started.activate 0 0).construct none).refCount 0 ≠ 1 := by decide
      cases hdies with
      | last _ =>
        rcases eq_or_ne cpu 0 with rfl | hne
        · exact absurd hcur (by decide)
        · have hnone : child.current cpu = none := Function.update_of_ne hne _ _
          exact Option.some_ne_none 1 (hcur.symm.trans hnone)
      | parent _ hp hrest =>
        cases hp
        cases hrest with
        | last hone => exact hmax hone
        | parent hone _ _ => exact hmax hone
  exact ⟨last, by decide +kernel, by decide +kernel, map_lifetime hrun⟩

/-- The only map, constructed in place as `_osentry` does, is activated and its only reference
released: the processor still runs on it. -/
theorem map_not_lifetime :
    ¬ ∀ ops s, Run MapStep Maps.boot ops s → s.Lifetime := by
  intro h
  let active := (Maps.boot.construct none).activate 0 0
  let last := Maps.release { active with owned := Function.update active.owned 0 0 } 0
  have hrun : Run MapStep Maps.boot [.create none, .activate 0 0, .release 0] last :=
    .cons (.create nofun) (.cons (.activate Nat.one_pos List.not_mem_nil)
      (.cons (.release rfl) (.nil _)))
  have hcurrent : last.current 0 = some 0 := by decide +kernel
  have hdestroyed : 0 ∈ last.destroyed := by decide +kernel
  exact (h _ last hrun).current 0 0 hcurrent hdestroyed

end KushOs.Vm
