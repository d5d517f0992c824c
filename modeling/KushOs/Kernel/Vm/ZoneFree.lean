import KushOs.Kernel.Vm.ZoneRun

/-!
# Freeing objects of a zone

`ZoneAllocator::free` looks for the region that contains the object, and panics if there is none.
Its loop goes on with `continue` before the pointer to the region is advanced, so it looks at the
first region only.

## Main definitions

* `ZoneState.WellFormed`: a zone with any regions in any state of occupancy.
* `ZoneState.FreesSlot`: one slot becomes free and nothing else changes.

## Main results

* `ZoneState.free_eq_some_iff`: the calls that return.
* `zone_free_hits_slot`: an object is freed exactly if it is in the first region, and a pointer to
  no region is noticed exactly if there are no regions.
-/

namespace KushOs.Vm

open WordBitmap PointerList

namespace ZoneState

variable {P : ZoneParams} {z zone : ZoneState} {rs : List ℕ} {ptr : ℕ}

/-- A zone with the regions `rs`: they are linked from `start` on, end below the end of the
address space and do not overlap. Nothing is said about their bitmaps. -/
structure WellFormed (P : ZoneParams) (z : ZoneState) (rs : List ℕ) : Prop where
  linked : Linked z.next z.start rs
  fits : ∀ r ∈ rs, r + P.regionSize < 2 ^ 64
  apart : rs.Pairwise (ZoneRunState.Apart P.regionSize)

/-- The slot of a region becomes free; all other bits, and the list of regions, stay as they
are. -/
structure FreesSlot (z : ZoneState) (r idx : ℕ) (zone : ZoneState) : Prop where
  bitmap : ∀ a b, bit (zone.regions a).bitmap b =
    (bit (z.regions a).bitmap b || decide (a = r ∧ b = idx))
  next : zone.next = z.next
  start : zone.start = z.start
  last : zone.last = z.last
  freeRegion : zone.freeRegion = z.freeRegion

/-- `free` of the object in a slot terminates and frees that slot. -/
def FreesObject (P : ZoneParams) (z : ZoneState) (r idx : ℕ) : Prop :=
  ∃ fuel zone, z.free P fuel (P.addressFor r idx) = some (.ok zone) ∧ z.FreesSlot r idx zone

/-- `free` of the pointer terminates by panicking. Nothing is stored before that. -/
def FreePanics (P : ZoneParams) (z : ZoneState) (ptr : ℕ) : Prop :=
  ∃ fuel, z.free P fuel ptr = some (.error .panic)

/-- The address is in none of the regions. -/
def Foreign (P : ZoneParams) (rs : List ℕ) (ptr : ℕ) : Prop :=
  ∀ r ∈ rs, ptr < r ∨ r + P.regionSize ≤ ptr

/-- A region that does not contain the object is never left. -/
theorem freeLoop_of_not_contains {r : ℕ} (h : P.contains r ptr = false) (fuel : ℕ) :
    z.freeLoop P ptr fuel (some r) = none := by
  induction fuel with
  | zero => rfl
  | succ fuel ih =>
    rw [freeLoop, h, Bool.not_false, if_pos rfl]
    exact ih

/-- `free` returns if there is no region, or if the first one contains the object. -/
theorem free_eq_some_iff {result : Except Fault ZoneState} :
    (∃ fuel, z.free P fuel ptr = some result) ↔
      (z.start = none ∧ result = .error .panic) ∨
        ∃ r, z.start = some r ∧ P.contains r ptr = true ∧ result = z.freeIn P r ptr := by
  unfold free
  rcases hstart : z.start with _ | r
  · constructor
    · rintro ⟨fuel, hfree⟩
      rcases fuel with _ | fuel
      · cases hfree
      · exact Or.inl ⟨rfl, (Option.some.inj hfree).symm⟩
    · rintro (⟨-, rfl⟩ | ⟨r, hr, -⟩)
      · exact ⟨1, rfl⟩
      · cases hr
  · rcases hcontains : P.contains r ptr with _ | _
    · -- the loop stays at this region
      simp only [freeLoop_of_not_contains hcontains]
      simp [hcontains]
    · constructor
      · rintro ⟨fuel, hfree⟩
        rcases fuel with _ | fuel
        · cases hfree
        · rw [freeLoop, hcontains, Bool.not_true, if_neg (by simp)] at hfree
          exact Or.inr ⟨r, rfl, hcontains, (Option.some.inj hfree).symm⟩
      · rintro (⟨hnone, -⟩ | ⟨r', hr', -, rfl⟩)
        · cases hnone
        · obtain rfl := Option.some.inj hr'
          exact ⟨1, by rw [freeLoop, hcontains, Bool.not_true, if_neg (by simp)]⟩

/-- The check in `Region::free` is the one that the loop made. -/
theorem freeIn_ne_panic {r : ℕ} (h : P.contains r ptr = true) :
    z.freeIn P r ptr ≠ .error .panic := by
  by_cases hword : P.indexFor r ptr / 64 < kBitmapEntries
  · simp [freeIn, require, h, hword, bind, Except.bind, pure, Except.pure]
  · simp [freeIn, require, h, hword, bind, Except.bind]

/-- Setting the bit of a slot frees that slot. -/
theorem freesSlot_setBitmap (z : ZoneState) (r idx : ℕ) :
    z.FreesSlot r idx (z.setBitmap r (setBit (z.regions r).bitmap idx)) := by
  refine ⟨fun a b => ?_, z.next_setBitmap r _, rfl, rfl, rfl⟩
  rw [bitmap_setBitmap]
  by_cases ha : a = r
  · subst ha
    rw [if_pos rfl, bit_setBit, Bool.or_comm]
    simp
  · rw [if_neg ha]
    simp [ha]

namespace WellFormed

variable {r idx : ℕ}

/-- Of the regions, only that of the slot contains its object. -/
theorem contains_iff (h : z.WellFormed P rs) (hr : r ∈ rs) (hidx : idx < P.numItems) {a : ℕ}
    (ha : a ∈ rs) : P.contains a (P.addressFor r idx) = true ↔ a = r := by
  constructor
  · intro hcontains
    by_contra hne
    exact P.not_contains_of_apart (h.apart.forall ha hr hne) hidx (h.fits a ha) (h.fits r hr)
      hcontains
  · rintro rfl
    exact P.contains_addressFor hidx (h.fits a ha)

/-- An object is freed exactly if it is in the first region. -/
theorem freesObject_iff (h : z.WellFormed P rs) (hr : r ∈ rs) (hidx : idx < P.numItems) :
    z.FreesObject P r idx ↔ z.start = some r := by
  constructor
  · rintro ⟨fuel, zone, hfree, -⟩
    rcases free_eq_some_iff.mp ⟨fuel, hfree⟩ with ⟨-, hpanic⟩ | ⟨a, hstart, hcontains, -⟩
    · cases hpanic
    · rw [hstart, (h.contains_iff hr hidx (h.linked.mem_of_eq_some hstart)).mp hcontains]
  · intro hstart
    have hcontains : P.contains r (P.addressFor r idx) = true :=
      P.contains_addressFor hidx (h.fits r hr)
    obtain ⟨fuel, hfree⟩ := free_eq_some_iff.mpr (Or.inr ⟨r, hstart, hcontains, rfl⟩)
    rw [freeIn_addressFor hidx (h.fits r hr)] at hfree
    exact ⟨fuel, _, hfree, z.freesSlot_setBitmap r idx⟩

/-- A pointer is found to be foreign exactly if there are no regions. -/
theorem freePanics_iff (h : z.WellFormed P rs) : z.FreePanics P ptr ↔ rs = [] := by
  rw [FreePanics, free_eq_some_iff, ← h.linked.eq_none_iff]
  constructor
  · rintro (⟨hstart, -⟩ | ⟨r, -, hcontains, hresult⟩)
    · exact hstart
    · exact absurd hresult (freeIn_ne_panic hcontains).symm
  · exact fun hstart => Or.inl ⟨hstart, rfl⟩

end WellFormed

end ZoneState

/-- The zones of runs are well formed. -/
theorem ZoneRunState.Inv.wellFormed {P : ZoneParams} {s : ZoneRunState} (h : s.Inv P) :
    s.zone.WellFormed P s.acquired :=
  ⟨h.linked, fun r hr => (h.blocks r hr).2, h.apart⟩

/-- For every zone and every slot in use, `free` frees that slot exactly if it is one of the first
region; a pointer to no region makes it panic exactly if the zone has no region. -/
theorem zone_free_hits_slot {P : ZoneParams} {z : ZoneState} {rs : List ℕ}
    (h : z.WellFormed P rs) :
    (∀ r ∈ rs, ∀ idx < P.numItems, bit (z.regions r).bitmap idx = false →
      (z.FreesObject P r idx ↔ z.start = some r)) ∧
    ∀ ptr < 2 ^ 64, ZoneState.Foreign P rs ptr → (z.FreePanics P ptr ↔ rs = []) :=
  ⟨fun _ hr _ hidx _ => h.freesObject_iff hr hidx, fun _ _ _ => h.freePanics_iff⟩

/-- A zone for objects of one page in regions of two pages: a region has one slot. -/
def singleZone : ZoneParams where
  regionSize := 2 * pageSize
  size := pageSize
  align := 8
  size_pos := pageSize_pos
  align_dvd_size := eight_dvd_pageSize
  align_dvd_page := eight_dvd_pageSize
  region_fits := by decide
  items_fit := by decide

/-- A zone with two regions whose slots are in use, as two calls of `alloc` leave it. -/
def twoObjects : ZoneState where
  regions r := { next := if r = 0x10000 then some 0x20000 else none, bitmap := fun _ => 0 }
  start := some 0x10000
  last := some 0x20000
  freeRegion := some 0x20000

theorem wellFormed_twoObjects : twoObjects.WellFormed singleZone [0x10000, 0x20000] := by
  have hfirst : twoObjects.next 0x10000 = some 0x20000 := by simp [ZoneState.next, twoObjects]
  have hsecond : twoObjects.next 0x20000 = none := by simp [ZoneState.next, twoObjects]
  have hlinked : Linked twoObjects.next twoObjects.start [0x10000, 0x20000] :=
    .cons (hfirst ▸ .cons (hsecond ▸ .nil))
  exact ⟨hlinked, by decide, by simp [ZoneRunState.Apart, singleZone, pageSize]⟩

/-- The object in the first region is freed. -/
theorem zone_free_hits_slot_first : twoObjects.FreesObject singleZone 0x10000 0 :=
  ((zone_free_hits_slot wellFormed_twoObjects).1 0x10000 (by simp) 0 (by decide) rfl).mpr rfl

/-- The call with the object in the second region does not return. -/
theorem zone_free_not_hits_slot :
    ¬∀ (P : ZoneParams) (z : ZoneState) (rs : List ℕ), z.WellFormed P rs →
      (∀ r ∈ rs, ∀ idx < P.numItems, bit (z.regions r).bitmap idx = false →
        z.FreesObject P r idx) ∧
      ∀ ptr < 2 ^ 64, ZoneState.Foreign P rs ptr → z.FreePanics P ptr := by
  intro h
  obtain ⟨hobjects, -⟩ := h singleZone twoObjects _ wellFormed_twoObjects
  have hclear : bit (twoObjects.regions 0x20000).bitmap 0 = false := rfl
  have hfrees : twoObjects.FreesObject singleZone 0x20000 0 :=
    hobjects 0x20000 (by simp) 0 (by decide) hclear
  have hstart : twoObjects.start = some 0x20000 :=
    (wellFormed_twoObjects.freesObject_iff (by simp) (by decide)).mp hfrees
  revert hstart
  simp [twoObjects]

end KushOs.Vm
