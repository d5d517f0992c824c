import KushOs.Foundation.Run
import KushOs.Kernel.Vm.ZoneAllocator
import Mathlib.Data.List.Pairwise

/-!
# Runs of a zone allocator

A run is a sequence of `alloc` and `free` calls on a new zone; only live objects are freed. The
state records the live objects and the regions that were acquired.

A `free` of an object that is not in the first region never returns, so it ends a run without a
state after it.

## Main definitions

* `ZoneRunState`, `ZoneStep`: the states and the steps.
* `ZoneRunState.calls`: the state after calls that return.
* `ZoneRunState.Sound`: what the representation promises in every state.
* `ZoneRunState.Inv`: the invariant behind it.

## Main results

* `zone_sound`: every state of every run is sound, and a region is acquired only when all slots are
  live.
* `ZoneRunState.Inv.alloc_returns`: the loop of `alloc` ends.
-/

namespace KushOs.Vm

open WordBitmap PointerList Transition

/-- A zone, the live objects and the regions acquired so far, oldest first. -/
structure ZoneRunState where
  /-- The zone. -/
  zone : ZoneState
  /-- Addresses of the live objects. -/
  live : List ℕ
  /-- Addresses of the regions. -/
  acquired : List ℕ

/-- A call. -/
inductive ZoneOp
  /-- `alloc`; the block is the one that `VAlloc` returns if it is called. -/
  | alloc (block : ℕ)
  /-- `free`. -/
  | free (ptr : ℕ)

variable {P : ZoneParams} {s t : ZoneRunState}

/-- What `VAlloc` returns: a block of whole pages that does not overlap the ones before. -/
structure FreshBlock (P : ZoneParams) (acquired : List ℕ) (block : ℕ) : Prop where
  pos : 0 < block
  aligned : block % pageSize = 0
  fits : block + P.regionSize < 2 ^ 64
  apart : ∀ r ∈ acquired, block + P.regionSize ≤ r ∨ r + P.regionSize ≤ block

instance (P : ZoneParams) (acquired : List ℕ) (block : ℕ) :
    Decidable (FreshBlock P acquired block) :=
  decidable_of_iff (0 < block ∧ block % pageSize = 0 ∧ block + P.regionSize < 2 ^ 64 ∧
      ∀ r ∈ acquired, block + P.regionSize ≤ r ∨ r + P.regionSize ≤ block)
    ⟨fun ⟨hpos, haligned, hfits, hapart⟩ => ⟨hpos, haligned, hfits, hapart⟩,
      fun h => ⟨h.pos, h.aligned, h.fits, h.apart⟩⟩

/-- A call that returns. -/
inductive ZoneStep (P : ZoneParams) : ZoneRunState → ZoneOp → ZoneRunState → Prop
  | alloc {s : ZoneRunState} {fuel block : ℕ} {taken : Bool} {ptr : Option ℕ} {zone : ZoneState} :
      FreshBlock P s.acquired block → s.zone.alloc P fuel block = some (taken, ptr, zone) →
      ZoneStep P s (.alloc block)
        ⟨zone, ptr.toList ++ s.live, s.acquired ++ if taken then [block] else []⟩
  | free {s : ZoneRunState} {fuel ptr : ℕ} {zone : ZoneState} :
      ptr ∈ s.live → s.zone.free P fuel ptr = some (.ok zone) →
      ZoneStep P s (.free ptr) ⟨zone, s.live.erase ptr, s.acquired⟩

namespace ZoneRunState

/-- A zone before its first allocation. -/
def init : ZoneRunState := ⟨.init, [], []⟩

/-- The state after a call, if it is a step. No search passes more than all regions. -/
def call (P : ZoneParams) (s : ZoneRunState) : ZoneOp → Option ZoneRunState
  | .alloc block =>
      if FreshBlock P s.acquired block then
        (s.zone.alloc P (s.acquired.length + 1) block).map fun (taken, ptr, zone) =>
          ⟨zone, ptr.toList ++ s.live, s.acquired ++ if taken then [block] else []⟩
      else none
  | .free ptr =>
      if ptr ∈ s.live then
        match s.zone.free P 1 ptr with
        | some (.ok zone) => some ⟨zone, s.live.erase ptr, s.acquired⟩
        | _ => none
      else none

theorem step_of_call {op : ZoneOp} (h : s.call P op = some t) : ZoneStep P s op t := by
  cases op with
  | alloc block =>
    rw [call] at h
    split at h
    next hfresh =>
      obtain ⟨⟨taken, ptr, zone⟩, halloc, rfl⟩ := Option.map_eq_some_iff.mp h
      exact .alloc hfresh halloc
    next => cases h
  | free ptr =>
    rw [call] at h
    split at h
    next hlive =>
      split at h
      next hfree =>
        obtain rfl := Option.some.inj h
        exact .free hlive hfree
      next => cases h
    next => cases h

/-- The calls, made one after the other. -/
def calls (P : ZoneParams) (s : ZoneRunState) (ops : List ZoneOp) : Option ZoneRunState :=
  ops.foldlM (call P) s

/-- They are a run. -/
theorem run_of_calls {ops : List ZoneOp} (h : s.calls P ops = some t) :
    Run (ZoneStep P) s ops t := by
  induction ops generalizing s with
  | nil =>
    obtain rfl := Option.some.inj h
    exact .nil _
  | cons op ops ih =>
    rw [calls, List.foldlM_cons] at h
    obtain ⟨s', hcall, hrest⟩ := Option.bind_eq_some_iff.mp h
    exact .cons (step_of_call hcall) (ih hrest)

/-- The ranges that start at `x` and `y` with `n` bytes each do not overlap. -/
def Apart (n x y : ℕ) : Prop := x + n ≤ y ∨ y + n ≤ x

/-- What the representation promises: live objects are disjoint, aligned, in the storage of a
region and apart from all metadata; the bitmaps tell which slots are live; the list of regions is
complete. -/
structure Sound (P : ZoneParams) (s : ZoneRunState) : Prop where
  disjoint : s.live.Pairwise (Apart P.size)
  aligned : ∀ p ∈ s.live, p % P.align = 0
  inside : ∀ p ∈ s.live, ∃ r ∈ s.acquired, P.storage r ≤ p ∧ p + P.size ≤ r + P.regionSize
  metadata : ∀ p ∈ s.live, ∀ r ∈ s.acquired, p + P.size ≤ r ∨ r + metadataSize ≤ p
  bitmap : ∀ r ∈ s.acquired, ∀ i < kBitmapEntries * 64,
    bit (s.zone.regions r).bitmap i = false ↔ (P.addressFor r i ∈ s.live ∨ P.numItems ≤ i)
  list : Linked s.zone.next s.zone.start s.acquired ∧ s.acquired.Nodup ∧
    s.zone.last = s.acquired.getLast?

/-- Every slot of every region is live. -/
def AllLive (P : ZoneParams) (s : ZoneRunState) : Prop :=
  ∀ r ∈ s.acquired, ∀ i < P.numItems, P.addressFor r i ∈ s.live

/-- The invariant behind `Sound`. -/
structure Inv (P : ZoneParams) (s : ZoneRunState) : Prop where
  linked : Linked s.zone.next s.zone.start s.acquired
  last : s.zone.last = s.acquired.getLast?
  blocks : ∀ r ∈ s.acquired, r % pageSize = 0 ∧ r + P.regionSize < 2 ^ 64
  apart : s.acquired.Pairwise (Apart P.regionSize)
  bits : ∀ r ∈ s.acquired, ∀ i, bit (s.zone.regions r).bitmap i = true ↔
    i < P.numItems ∧ P.addressFor r i ∉ s.live
  slots : ∀ p ∈ s.live, ∃ r ∈ s.acquired, ∃ i < P.numItems, P.addressFor r i = p
  nodup : s.live.Nodup

theorem Inv.init : Inv P .init :=
  ⟨.nil, rfl, by simp [ZoneRunState.init], by simp [ZoneRunState.init],
    by simp [ZoneRunState.init], by simp [ZoneRunState.init], by simp [ZoneRunState.init]⟩

instance (n : ℕ) : Std.Symm (Apart n) := ⟨fun _ _ => Or.symm⟩

/-- Regions are not empty, so no region is apart from itself. -/
theorem not_apart_self (r : ℕ) : ¬ Apart P.regionSize r r := by
  have hpos := P.regionSize_pos
  unfold Apart
  omega

/-- Slots of regions that do not overlap are different. -/
theorem addressFor_ne {r r' i j : ℕ} (hapart : Apart P.regionSize r r') (hi : i < P.numItems)
    (hj : j < P.numItems) : P.addressFor r i ≠ P.addressFor r' j := by
  have hle := P.addressFor_le r hi
  have hle' := P.addressFor_le r' hj
  have hlo := P.storage_le r i
  have hlo' := P.storage_le r' j
  have hpos := P.size_pos
  unfold Apart at hapart
  omega

namespace Inv

theorem regions_nodup (h : s.Inv P) : s.acquired.Nodup := by
  refine h.apart.imp fun {r r'} hapart => ?_
  rintro rfl
  exact not_apart_self r hapart

/-- A slot determines its region. -/
theorem region_unique (h : s.Inv P) {r r' i j : ℕ} (hr : r ∈ s.acquired) (hr' : r' ∈ s.acquired)
    (hi : i < P.numItems) (hj : j < P.numItems) (heq : P.addressFor r i = P.addressFor r' j) :
    r = r' := by
  by_contra hne
  exact addressFor_ne (h.apart.forall hr hr' hne) hi hj heq

/-- `Region::alloc` takes a free slot, or it leaves a full region alone. -/
theorem allocFrom (h : s.Inv P) {r : ℕ} (hr : r ∈ s.acquired) {ptr : Option ℕ} {zone : ZoneState}
    (halloc : s.zone.allocFrom P r = (ptr, zone)) :
    Inv P ⟨zone, ptr.toList ++ s.live, s.acquired⟩ := by
  unfold ZoneState.allocFrom at halloc
  rw [allocSlot_eq] at halloc
  rcases hfree : setBits (s.zone.regions r).bitmap 0 kBitmapEntries with _ | ⟨b, rest⟩
  · rw [hfree] at halloc
    obtain ⟨rfl, rfl⟩ := Prod.mk.inj halloc
    exact h
  rw [hfree] at halloc
  obtain ⟨rfl, rfl⟩ := Prod.mk.inj halloc
  have hbit : bit (s.zone.regions r).bitmap b = true := by
    have hmem : b ∈ setBits (s.zone.regions r).bitmap 0 kBitmapEntries := by
      rw [hfree]
      exact List.mem_cons_self
    exact (mem_setBits.mp hmem).2.2
  obtain ⟨hb, hnew⟩ := (h.bits r hr b).mp hbit
  refine ⟨(s.zone.next_setBitmap r _).symm ▸ h.linked, h.last, h.blocks, h.apart, ?_, ?_,
    List.nodup_cons.mpr ⟨hnew, h.nodup⟩⟩
  · -- the bit of the slot is cleared, and its address is the only new one
    intro a ha i
    change bit ((s.zone.setBitmap r _).regions a).bitmap i = true ↔
      _ ∧ P.addressFor a i ∉ P.addressFor r b :: s.live
    rw [ZoneState.bitmap_setBitmap, List.mem_cons, not_or]
    split
    next heq =>
      subst heq
      rw [bit_clearBit, Bool.and_eq_true, decide_eq_true_eq, h.bits a ha i]
      have hslot : P.addressFor a i = P.addressFor a b ↔ i = b :=
        ⟨P.addressFor_inj, fun heq => heq ▸ rfl⟩
      rw [hslot, and_left_comm]
    next hne =>
      rw [h.bits a ha i]
      refine and_congr_right fun hi => (and_iff_right fun heq => ?_).symm
      exact hne (h.region_unique ha hr hi hb heq)
  · intro p hp
    rcases List.mem_cons.mp hp with rfl | hp
    · exact ⟨r, hr, b, hb, rfl⟩
    · exact h.slots p hp

/-- A region that is threaded in is the last one, and all its slots are free. -/
theorem addRegion (h : s.Inv P) {block : ℕ} (hblock : FreshBlock P s.acquired block) :
    Inv P ⟨s.zone.addRegion P block, s.live, s.acquired ++ [block]⟩ := by
  have hnot : block ∉ s.acquired := fun hmem => not_apart_self block (hblock.apart block hmem)
  refine ⟨?_, ?_, ?_, ?_, ?_, ?_, h.nodup⟩
  · change Linked (s.zone.addRegion P block).next
      (if s.zone.start = none then some block else s.zone.start) (s.acquired ++ [block])
    rcases hlast : s.acquired.getLast? with _ | l
    · -- the first region
      have hnil : s.acquired = [] := List.getLast?_eq_none_iff.mp hlast
      rw [if_pos (h.linked.eq_none_iff.mpr hnil), hnil]
      refine .cons ?_
      rw [ZoneState.next_addRegion, h.last, hlast, if_neg (by simp), if_pos rfl]
      exact .nil
    · have hmem : l ∈ s.acquired := List.mem_of_getLast? hlast
      have hne : s.acquired ≠ [] := List.ne_nil_of_mem hmem
      rw [if_neg (mt h.linked.eq_none_iff.mp hne)]
      refine h.linked.append h.regions_nodup hlast ?_ ?_ fun a ha hal => ?_
      · rw [ZoneState.next_addRegion, h.last, if_pos hlast]
      · rw [ZoneState.next_addRegion, h.last, hlast, if_neg, if_pos rfl]
        rintro ⟨⟩
        exact hnot hmem
      · rw [ZoneState.next_addRegion, h.last, hlast, if_neg, if_neg]
        · rintro rfl
          exact hnot ha
        · rintro ⟨⟩
          exact hal rfl
  · exact List.getLast?_concat.symm
  · intro r hr
    rcases List.mem_append.mp hr with hr | hr
    · exact h.blocks r hr
    · obtain rfl : r = block := List.mem_singleton.mp hr
      exact ⟨hblock.aligned, hblock.fits⟩
  · rw [List.pairwise_append]
    refine ⟨h.apart, List.pairwise_singleton _ _, fun r hr r' hr' => ?_⟩
    obtain rfl : r' = block := List.mem_singleton.mp hr'
    exact Or.symm (hblock.apart r hr)
  · intro r hr i
    change bit ((s.zone.addRegion P block).regions r).bitmap i = true ↔ _
    rw [ZoneState.bitmap_addRegion]
    split
    next heq =>
      subst heq
      rw [ZoneParams.bit_fillBitmap, decide_eq_true_eq]
      refine (and_iff_left_of_imp fun hi hlive => ?_).symm
      obtain ⟨r', hr', j, hj, heq⟩ := h.slots _ hlive
      exact addressFor_ne (Or.symm (hblock.apart r' hr')) hj hi heq
    next hne =>
      refine h.bits r ?_ i
      rcases List.mem_append.mp hr with hr | hr
      · exact hr
      · exact absurd (List.mem_singleton.mp hr) hne
  · intro p hp
    obtain ⟨r, hr, i, hi, heq⟩ := h.slots p hp
    exact ⟨r, List.mem_append_left _ hr, i, hi, heq⟩

/-- `alloc` takes a free slot of a region, or acquires a region. -/
theorem alloc (h : s.Inv P) {fuel block : ℕ} (hblock : FreshBlock P s.acquired block) {taken : Bool}
    {ptr : Option ℕ} {zone : ZoneState}
    (halloc : s.zone.alloc P fuel block = some (taken, ptr, zone)) :
    Inv P ⟨zone, ptr.toList ++ s.live, s.acquired ++ if taken then [block] else []⟩ := by
  unfold ZoneState.alloc at halloc
  split at halloc
  · cases halloc
  next r hfind =>
    obtain ⟨rfl, hfrom⟩ := Prod.mk.inj (Option.some.inj halloc)
    have hr : r ∈ s.acquired := List.mem_of_find?_eq_some (search_eq h.linked hfind).symm
    simpa using h.allocFrom hr hfrom
  next hfind =>
    obtain ⟨rfl, hfrom⟩ := Prod.mk.inj (Option.some.inj halloc)
    exact (h.addRegion hblock).allocFrom (List.mem_append_right _ (List.mem_singleton_self _)) hfrom

/-- `free` returns the slot of a live object to its region. -/
theorem free (h : s.Inv P) {fuel ptr : ℕ} {zone : ZoneState} (hptr : ptr ∈ s.live)
    (hfree : s.zone.free P fuel ptr = some (.ok zone)) :
    Inv P ⟨zone, s.live.erase ptr, s.acquired⟩ := by
  obtain ⟨r, hstart, hcontains, hfreeIn⟩ := ZoneState.freeLoop_eq_ok hfree
  have hr : r ∈ s.acquired := h.linked.mem_of_eq_some hstart
  -- the object is in the region that contains it
  obtain ⟨r', hr', i, hi, rfl⟩ := h.slots ptr hptr
  obtain rfl : r = r' := by
    by_contra hne
    exact P.not_contains_of_apart (h.apart.forall hr hr' hne) hi (h.blocks r hr).2
      (h.blocks r' hr').2 hcontains
  rw [ZoneState.freeIn_addressFor hi (h.blocks r hr).2] at hfreeIn
  obtain rfl := Except.ok.inj hfreeIn
  refine ⟨(s.zone.next_setBitmap r _).symm ▸ h.linked, h.last, h.blocks, h.apart, ?_, ?_,
    h.nodup.erase _⟩
  · intro a ha j
    change bit ((s.zone.setBitmap r _).regions a).bitmap j = true ↔
      _ ∧ P.addressFor a j ∉ s.live.erase (P.addressFor r i)
    rw [ZoneState.bitmap_setBitmap, h.nodup.mem_erase_iff]
    by_cases hregion : a = r
    · subst hregion
      rw [if_pos rfl, bit_setBit, Bool.or_eq_true, decide_eq_true_eq, h.bits a ha j]
      by_cases hj : j = i
      · subst hj
        simp [hi]
      · have hne : P.addressFor a j ≠ P.addressFor a i := fun heq => hj (P.addressFor_inj heq)
        simp [hj, hne]
    · rw [if_neg hregion, h.bits a ha j]
      refine and_congr_right fun hj => not_congr (and_iff_right fun heq => ?_).symm
      exact hregion (h.region_unique ha hr hj hi heq)
  · exact fun p hp => h.slots p (List.mem_of_mem_erase hp)

/-- Every call keeps the invariant. -/
theorem step (h : s.Inv P) {op : ZoneOp} (hstep : ZoneStep P s op t) : t.Inv P := by
  cases hstep with
  | alloc hblock halloc => exact h.alloc hblock halloc
  | free hptr hfree => exact h.free hptr hfree

/-- A region is acquired only when all slots are live. -/
theorem allLive_of_acquired (h : s.Inv P) {block : ℕ} (hstep : ZoneStep P s (.alloc block) t)
    (hnew : t.acquired ≠ s.acquired) : s.AllLive P := by
  cases hstep with
  | @alloc fuel _ taken ptr zone hblock halloc =>
    cases taken with
    | false => simp at hnew
    | true =>
      unfold ZoneState.alloc at halloc
      split at halloc
      · cases halloc
      · cases halloc
      next hfind =>
        -- the search found no region with space
        have hnone := List.find?_eq_none.mp (search_eq h.linked hfind).symm
        intro r hr i hi
        by_contra hlive
        have hfull : isFull (s.zone.regions r).bitmap = true := by simpa using hnone r hr
        have hclear := (isFull_iff _).mp hfull i (Nat.lt_of_lt_of_le hi P.numItems_le)
        rw [(h.bits r hr i).mpr ⟨hi, hlive⟩] at hclear
        cases hclear

/-- The loop of `alloc` ends. -/
theorem alloc_returns (h : s.Inv P) {fuel : ℕ} (hfuel : s.acquired.length < fuel) (block : ℕ) :
    ∃ result, s.zone.alloc P fuel block = some result := by
  unfold ZoneState.alloc ZoneState.findRegionWithSpace
  rw [search_of_linked h.linked hfuel]
  cases s.acquired.find? fun r => !isFull (s.zone.regions r).bitmap with
  | none => exact ⟨_, rfl⟩
  | some r => exact ⟨_, rfl⟩

/-- States with the invariant are sound. -/
theorem sound (h : s.Inv P) : s.Sound P := by
  refine ⟨?_, ?_, ?_, ?_, ?_, ⟨h.linked, h.regions_nodup, h.last⟩⟩
  · -- different slots do not overlap
    refine h.nodup.imp_of_mem fun {p q} hp hq hne => ?_
    obtain ⟨r, hr, i, hi, rfl⟩ := h.slots p hp
    obtain ⟨r', hr', j, hj, rfl⟩ := h.slots q hq
    by_cases hregion : r = r'
    · subst hregion
      rcases Nat.lt_trichotomy i j with hlt | rfl | hgt
      · exact Or.inl (P.addressFor_apart hlt)
      · exact absurd rfl hne
      · exact Or.inr (P.addressFor_apart hgt)
    · have hle := P.addressFor_le r hi
      have hle' := P.addressFor_le r' hj
      have hlo := P.storage_le r i
      have hlo' := P.storage_le r' j
      have hapart := h.apart.forall hr hr' hregion
      unfold Apart at hapart ⊢
      omega
  · intro p hp
    obtain ⟨r, hr, i, hi, rfl⟩ := h.slots p hp
    exact P.addressFor_mod (h.blocks r hr).1
  · intro p hp
    obtain ⟨r, hr, i, hi, rfl⟩ := h.slots p hp
    exact ⟨r, hr, P.storage_le r i, P.addressFor_le r hi⟩
  · intro p hp r' hr'
    obtain ⟨r, hr, i, hi, rfl⟩ := h.slots p hp
    have hle := P.addressFor_le r hi
    have hlo := P.storage_le r i
    have hmeta := P.metadataSize_le
    by_cases hregion : r = r'
    · subst hregion
      exact Or.inr (by omega)
    · have hapart := h.apart.forall hr hr' hregion
      have hoff := P.storageOffset_le
      unfold Apart at hapart
      omega
  · intro r hr i hi
    rw [← Bool.not_eq_true, h.bits r hr i, not_and_or, not_not, Nat.not_lt, or_comm]

end Inv

end ZoneRunState

/-- In every state of every run the representation is sound, and `alloc` acquires a region only if
all slots of all regions are live. -/
theorem zone_sound {ops : List ZoneOp} (hrun : Run (ZoneStep P) .init ops s) :
    s.Sound P ∧ ∀ block t, ZoneStep P s (.alloc block) t → t.acquired ≠ s.acquired →
      s.AllLive P := by
  have hinv : s.Inv P := Run.preserves (fun _ _ _ h hstep => h.step hstep) hrun .init
  exact ⟨hinv.sound, fun _ _ hstep hnew => hinv.allLive_of_acquired hstep hnew⟩

/-- An object may be of one page. -/
theorem pageSize_pos : 0 < pageSize := by decide

/-- Pages are aligned for objects that are aligned to eight bytes. -/
theorem eight_dvd_pageSize : 8 ∣ pageSize := by decide

/-- A zone for objects of one page in regions of four pages. -/
def pageZone : ZoneParams where
  regionSize := 4 * pageSize
  size := pageSize
  align := 8
  size_pos := pageSize_pos
  align_dvd_size := eight_dvd_pageSize
  align_dvd_page := eight_dvd_pageSize
  region_fits := by decide
  items_fit := by decide

/-- The three slots of the first region are taken, and the second of them is freed and taken again.
Then all slots are live, and the next object is in a second region. -/
theorem zone_sound_pageZone : ∃ s t,
    Run (ZoneStep pageZone) .init [.alloc 0x10000, .alloc 0x20000, .alloc 0x20000, .free 0x11040,
      .alloc 0x20000] s ∧
    ZoneStep pageZone s (.alloc 0x20000) t ∧
    s.live = [0x11040, 0x12040, 0x10040] ∧ s.acquired = [0x10000] ∧ s.AllLive pageZone ∧
    t.live = [0x20040, 0x11040, 0x12040, 0x10040] ∧ t.acquired = [0x10000, 0x20000] ∧
    t.Sound pageZone := by
  have hresult : ((ZoneRunState.init.calls pageZone [.alloc 0x10000, .alloc 0x20000,
      .alloc 0x20000, .free 0x11040, .alloc 0x20000]).bind fun s =>
        (s.call pageZone (.alloc 0x20000)).map fun t => (s.live, s.acquired, t.live, t.acquired)) =
      some ([0x11040, 0x12040, 0x10040], [0x10000], [0x20040, 0x11040, 0x12040, 0x10040],
        [0x10000, 0x20000]) := by
    decide +kernel
  obtain ⟨s, hcalls, hmap⟩ := Option.bind_eq_some_iff.mp hresult
  obtain ⟨t, hcall, heq⟩ := Option.map_eq_some_iff.mp hmap
  simp only [Prod.mk.injEq] at heq
  obtain ⟨hlive, hacquired, hlive', hacquired'⟩ := heq
  have hrun := ZoneRunState.run_of_calls hcalls
  have hstep := ZoneRunState.step_of_call hcall
  obtain ⟨-, hnew⟩ := zone_sound hrun
  obtain ⟨hsound, -⟩ := zone_sound (hrun.append (.cons hstep (.nil _)))
  refine ⟨s, t, hrun, hstep, hlive, hacquired, hnew _ _ hstep ?_, hlive', hacquired', hsound⟩
  rw [hacquired, hacquired']
  decide

end KushOs.Vm
