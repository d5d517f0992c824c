import KushOs.Kernel.Vm.ZoneRun

/-!
# A zone without memory for a region

`ZoneAllocator::alloc` does not look at the result of `new Region`. The class's `operator new` is
`noexcept` and returns what `VAlloc` returns, so a failure gives a null pointer without running the
constructor. The pointer is stored in `last` and `freeRegion`, and then `Region::alloc` reads the
bitmap through it.

## Main definitions

* `ZoneState.allocWith`: `alloc` for both outcomes of `VAlloc`.
* `ZoneState.FailsCleanly`: a failed allocation leaves no trace.

## Main results

* `ZoneState.allocWith_some`: if `VAlloc` succeeds, this is `ZoneState.alloc`.
* `zone_alloc_failure`: no allocation that needs a region fails cleanly.
-/

namespace KushOs.Vm

open WordBitmap PointerList Transition

/-- How a call of `alloc` ends. -/
inductive ZoneAllocEnd
  /-- It returns a pointer. -/
  | returned (ptr : Option ℕ)
  /-- It reads a field of the region at the null pointer. -/
  | nullAccess
  deriving DecidableEq

namespace ZoneState

variable {P : ZoneParams} {z : ZoneState} {rs : List ℕ}

/-- `ZoneAllocator::alloc`; `valloc` is what `VAlloc` returns if it is called. -/
def allocWith (P : ZoneParams) (z : ZoneState) (fuel : ℕ) (valloc : Option ℕ) :
    Option (ZoneAllocEnd × ZoneState) :=
  match z.findRegionWithSpace fuel with
  | none => none
  | some (some r) =>
      let (ptr, z) := z.allocFrom P r
      some (.returned ptr, z)
  | some none =>
      let z := z.threadIn P valloc
      match valloc with
      | some block =>
          let (ptr, z) := z.allocFrom P block
          some (.returned ptr, z)
      | none => some (.nullAccess, z)

/-- If `VAlloc` succeeds, the call is the one of `alloc`. -/
theorem allocWith_some (fuel block : ℕ) :
    z.allocWith P fuel (some block) =
      (z.alloc P fuel block).map fun r => (.returned r.2.1, r.2.2) := by
  unfold allocWith alloc
  rcases z.findRegionWithSpace fuel with _ | _ | r
  · rfl
  · rfl
  · rfl

/-- `alloc` returns a null pointer; `start`, `last`, the links and the bitmaps are as before. -/
def FailsCleanly (P : ZoneParams) (z : ZoneState) : Prop :=
  ∃ fuel z', z.allocWith P fuel none = some (.returned none, z') ∧ z'.start = z.start ∧
    z'.last = z.last ∧ z'.next = z.next ∧ ∀ r, (z'.regions r).bitmap = (z.regions r).bitmap

/-- No region has space. -/
def Full (z : ZoneState) (rs : List ℕ) : Prop := ∀ r ∈ rs, isFull (z.regions r).bitmap = true

instance (z : ZoneState) (rs : List ℕ) : Decidable (z.Full rs) :=
  inferInstanceAs (Decidable (∀ r ∈ rs, _))

/-- The search for a region with space ends without one. -/
theorem Full.findRegionWithSpace (h : z.Full rs) (hl : Linked z.next z.start rs) {fuel : ℕ}
    {r : Option ℕ} (hfind : z.findRegionWithSpace fuel = some r) : r = none := by
  rw [search_eq hl hfind, List.find?_eq_none]
  intro a ha
  rw [h a ha]
  decide

/-- A call that needs a region and does not get one reads through the null pointer. -/
theorem Full.allocWith_none (h : z.Full rs) (hl : Linked z.next z.start rs) {fuel : ℕ}
    {result : ZoneAllocEnd × ZoneState} (halloc : z.allocWith P fuel none = some result) :
    result = (.nullAccess, z.threadIn P none) := by
  unfold allocWith at halloc
  split at halloc
  · cases halloc
  next r hfind => cases h.findRegionWithSpace hl hfind
  next => exact (Option.some.inj halloc).symm

/-- So it does not fail cleanly. -/
theorem Full.not_failsCleanly (h : z.Full rs) (hl : Linked z.next z.start rs) :
    ¬ z.FailsCleanly P := by
  rintro ⟨fuel, z', halloc, -⟩
  cases h.allocWith_none hl halloc

/-- The call does get there. -/
theorem Full.allocWith_returns (h : z.Full rs) (hl : Linked z.next z.start rs) {fuel : ℕ}
    (hfuel : rs.length < fuel) :
    z.allocWith P fuel none = some (.nullAccess, z.threadIn P none) := by
  have hfind : z.findRegionWithSpace fuel = some none := by
    have hsearch : z.findRegionWithSpace fuel = some (rs.find? _) := search_of_linked hl hfuel
    rw [hsearch, h.findRegionWithSpace hl hsearch]
  rw [allocWith, hfind]

/-- What storing the null pointer changes: `last` and `freeRegion`. The last region had no successor
before either. -/
structure LastLost (z z' : ZoneState) : Prop where
  start : z'.start = z.start
  next : z'.next = z.next
  bitmap : ∀ r, (z'.regions r).bitmap = (z.regions r).bitmap
  last : z'.last = none
  freeRegion : z'.freeRegion = none

theorem lastLost_threadIn (hl : Linked z.next z.start rs) (hlast : z.last = rs.getLast?) :
    z.LastLost (z.threadIn P none) := by
  have hregions : ∀ l, z.last = some l → { z.regions l with next := none } = z.regions l := by
    intro l hlast'
    have hnext : (z.regions l).next = none := hl.next_last (hlast.symm.trans hlast')
    rw [← hnext]
  have hsame : (z.threadIn P none).regions = z.regions := by
    unfold threadIn
    rcases hlast' : z.last with _ | l
    · rfl
    · dsimp only
      rw [hregions l hlast', Function.update_eq_self]
  refine ⟨?_, ?_, fun r => by rw [hsame], rfl, rfl⟩
  · show (if z.start = none then none else z.start) = z.start
    split
    next hstart => exact hstart.symm
    next => rfl
  · funext a
    rw [next, next, hsame]

/-- A region that is acquired after that is not linked. -/
theorem LastLost.linked_addRegion {z' : ZoneState} (h : z.LastLost z')
    (hl : Linked z.next z.start rs) (hne : rs ≠ []) {block : ℕ} (hblock : block ∉ rs) :
    Linked (z'.addRegion P block).next (z'.addRegion P block).start rs := by
  have hstart : (z'.addRegion P block).start = z.start := by
    show (if z'.start = none then some block else z'.start) = z.start
    rw [h.start, if_neg (mt hl.eq_none_iff.mp hne)]
  rw [hstart]
  refine hl.congr fun a ha => ?_
  have hother : a ≠ block := by
    rintro rfl
    exact hblock ha
  rw [next_addRegion, h.last, if_neg (by simp), if_neg hother, h.next]

end ZoneState

/-- In every state of every run: if no region has space and `VAlloc` returns a null pointer, `alloc`
does not fail cleanly. It reads through the null pointer, after it has lost `last`; if there were
regions, those that are acquired later are not found from `start`. -/
theorem zone_alloc_failure {P : ZoneParams} {s : ZoneRunState} {ops : List ZoneOp}
    (hrun : Run (ZoneStep P) .init ops s) (hfull : s.zone.Full s.acquired) :
    ¬ s.zone.FailsCleanly P ∧
    ∃ z', (∀ fuel, s.acquired.length < fuel →
        s.zone.allocWith P fuel none = some (.nullAccess, z')) ∧
      s.zone.LastLost z' ∧
      ∀ block ∉ s.acquired, s.acquired ≠ [] →
        Linked (z'.addRegion P block).next (z'.addRegion P block).start s.acquired := by
  have hinv : s.Inv P := Run.preserves (fun _ _ _ h hstep => h.step hstep) hrun .init
  have hlost := ZoneState.lastLost_threadIn (P := P) hinv.linked hinv.last
  exact ⟨hfull.not_failsCleanly hinv.linked, _,
    fun fuel hfuel => hfull.allocWith_returns hinv.linked hfuel, hlost,
    fun block hblock hne => hlost.linked_addRegion hinv.linked hne hblock⟩

/-- A zone of which all slots of the only region are taken. -/
theorem zone_alloc_failure_full : ∃ s z',
    Run (ZoneStep pageZone) .init [.alloc 0x10000, .alloc 0x20000, .alloc 0x20000] s ∧
    s.acquired = [0x10000] ∧ ¬ s.zone.FailsCleanly pageZone ∧
    s.zone.allocWith pageZone 2 none = some (.nullAccess, z') ∧ s.zone.LastLost z' ∧
    Linked (z'.addRegion pageZone 0x20000).next (z'.addRegion pageZone 0x20000).start
      [0x10000] := by
  have hresult : (ZoneRunState.init.calls pageZone [.alloc 0x10000, .alloc 0x20000,
      .alloc 0x20000]).map (fun s => (s.acquired, decide (s.zone.Full s.acquired))) =
      some ([0x10000], true) := by
    decide +kernel
  obtain ⟨s, hcalls, heq⟩ := Option.map_eq_some_iff.mp hresult
  obtain ⟨hacquired, hfull⟩ := Prod.mk.inj heq
  have hrun := ZoneRunState.run_of_calls hcalls
  obtain ⟨hnot, z', hends, hlost, hlinked⟩ := zone_alloc_failure hrun (of_decide_eq_true hfull)
  rw [hacquired] at hends hlinked
  exact ⟨s, z', hrun, hacquired, hnot, hends 2 (by decide), hlost,
    hlinked 0x20000 (by decide) (by decide)⟩

/-- The call reads through the null pointer. -/
theorem zone_alloc_not_clean :
    ZoneState.init.allocWith pageZone 1 none =
      some (.nullAccess, ZoneState.init.threadIn pageZone none) ∧
    ¬ ZoneState.init.FailsCleanly pageZone := by
  have hfull : ZoneState.init.Full [] := fun r hr => by cases hr
  exact ⟨rfl, hfull.not_failsCleanly .nil⟩

end KushOs.Vm
