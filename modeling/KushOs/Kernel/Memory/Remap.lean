import KushOs.Kernel.Memory.LoggedPool
import KushOs.Kernel.Vm.ContiguousRegion

/-!
# Remapping the bitmaps

`Pool::applyVirtualMap` maps the bitmaps of all regions into a window of the kernel's address
space, one behind the other with a guard page in between, and points the regions at them. The
structures that this takes come from the very pool whose bitmaps move.

## Main definitions

* `HasPool`: the states of a physical allocator that is the default pool.
* `Region.applyVirtualMap`, `Pool.applyVirtualMap`: the code.
* `Remapped`: where the bitmaps are afterwards.

## Main results

* `Remapping.step`: one turn of the loop.
* `Pool.applyVirtualMap_ok`: the whole loop, with any allocator that keeps handing out fresh frames.
-/

namespace KushOs.Memory

open Vm KernelM Transition WordBitmap

variable {specs : List (BitVec 64 × ℕ)}

/-! ## Pointers to bitmaps -/

/-- Point region `i` to its bitmap at `base`. -/
def Pool.setBitmap (p : Pool) (i : ℕ) (base : BitVec 64) : Pool :=
  { p with regions := p.regions.modify i fun r => { r with bitmap := base } }

theorem getElem?_setBitmap (p : Pool) (i : ℕ) (base : BitVec 64) (j : ℕ) :
    (p.setBitmap i base).regions[j]? =
      p.regions[j]?.map fun r => if i = j then { r with bitmap := base } else r := by
  rw [Pool.setBitmap, List.getElem?_modify]
  split <;> simp

/-- Only the pointer of a region changes. -/
theorem exists_of_getElem?_setBitmap {p : Pool} {i j : ℕ} {base : BitVec 64} {r' : Region}
    (h : (p.setBitmap i base).regions[j]? = some r') :
    ∃ r, p.regions[j]? = some r ∧ r' = { r with bitmap := if i = j then base else r.bitmap } := by
  rw [getElem?_setBitmap, Option.map_eq_some_iff] at h
  obtain ⟨r, hr, rfl⟩ := h
  refine ⟨r, hr, ?_⟩
  split <;> rfl

/-- Setting a pointer commutes with leaving out bitmaps and counters. -/
theorem map_shape_setBitmap {p q : Pool}
    (h : p.regions.map Region.shape = q.regions.map Region.shape)
    (i : ℕ) (base : BitVec 64) : (p.setBitmap i base).regions.map Region.shape =
      (q.setBitmap i base).regions.map Region.shape := by
  have hset : ∀ p : Pool, (p.setBitmap i base).regions.map Region.shape =
      (p.regions.map Region.shape).modify i fun r => { r with bitmap := base } := by
    intro p
    apply List.ext_getElem?
    intro j
    rw [List.getElem?_map, getElem?_setBitmap, List.getElem?_modify, List.getElem?_map]
    split <;> cases p.regions[j]? <;> rfl
  rw [hset, hset, h]

/-- What does not depend on the pointer of a region is kept. -/
theorem map_regions_setBitmap {α : Type} (f : Region → α)
    (hf : ∀ (r : Region) (b : BitVec 64), f { r with bitmap := b } = f r) (p : Pool) (i : ℕ)
    (base : BitVec 64) : (p.setBitmap i base).regions.map f = p.regions.map f := by
  apply List.ext_getElem?
  intro j
  rw [List.getElem?_map, List.getElem?_map, getElem?_setBitmap, Option.map_map]
  congr 1
  ext r
  rw [Function.comp_apply]
  split
  · exact hf r base
  · rfl

/-- The bookkeeping of the pool does not depend on the pointers. -/
theorem PoolState.Inv.setBitmap {s : PoolState} (h : s.Inv specs) (i : ℕ) (base : BitVec 64) :
    PoolState.Inv specs ⟨s.pool.setBitmap i base, s.held⟩ := by
  have hmem : ∀ r' ∈ (s.pool.setBitmap i base).regions,
      ∃ r ∈ s.pool.regions, ∃ b, r' = { r with bitmap := b } := by
    intro r' hr'
    obtain ⟨j, hj⟩ := List.mem_iff_getElem?.mp hr'
    obtain ⟨r, hr, heq⟩ := exists_of_getElem?_setBitmap hj
    exact ⟨r, List.mem_of_getElem? hr, _, heq⟩
  -- the list of ranges is all that most clauses speak about
  have hranges : (s.pool.setBitmap i base).regions.map Region.range = specs :=
    (map_regions_setBitmap Region.range (fun _ _ => rfl) _ i base).trans h.registered
  refine ⟨hranges, ?_, ⟨fun r' hr' => ?_, ?_⟩, h.nodup, fun a ha => ?_, fun r' hr' => ?_⟩
  · rw [Pool.setBitmap, List.length_modify]
    exact h.bounded
  · obtain ⟨r, hr, b, rfl⟩ := hmem r' hr'
    obtain ⟨h1, h2, h3, h4, h5, h6⟩ := h.layout.wellFormed r hr
    exact ⟨h1, h2, h3, h4, h5, h6⟩
  · -- being apart is a matter of the ranges
    have hiff : ∀ rs : List Region,
        rs.Pairwise Region.Apart ↔ (rs.map Region.range).Pairwise RangesDisjoint := by
      intro rs
      rw [List.pairwise_map]
      rfl
    rw [hiff, hranges, ← h.registered, ← hiff]
    exact h.layout.apart
  · obtain ⟨j, b, r, hr, hb, haddr, hbit⟩ := h.held a ha
    refine ⟨j, b, { r with bitmap := if i = j then base else r.bitmap }, ?_, hb, haddr, hbit⟩
    rw [getElem?_setBitmap, hr, Option.map_some]
    split <;> rfl
  · obtain ⟨r, hr, b, rfl⟩ := hmem r' hr'
    exact h.counted r hr

/-- States of a physical allocator behind which there is the default pool. -/
class HasPool (σ : Type) where
  /-- The pool. -/
  pool : σ → Pool
  /-- Point region `i` to its bitmap at `base`. -/
  setBitmap : σ → ℕ → BitVec 64 → σ
  pool_setBitmap : ∀ s i base, pool (setBitmap s i base) = (pool s).setBitmap i base

/-- Point region `i` to its bitmap at `base`, in the state of the allocator. -/
def ReachedPool.setBitmap (s : ReachedPool specs) (i : ℕ) (base : BitVec 64) :
    ReachedPool specs :=
  ⟨⟨s.val.pool.setBitmap i base, s.val.held⟩, s.property.setBitmap i base⟩

instance : HasPool (ReachedPool specs) where
  pool s := s.val.pool
  setBitmap := ReachedPool.setBitmap
  pool_setBitmap _ _ _ := rfl

instance : HasPool PoolLog where
  pool s := s.pool
  setBitmap s i base := { s with pool := s.pool.setBitmap i base }
  pool_setBitmap _ _ _ := rfl

section

variable {σ : Type} [HasPool σ]

/-! ## The code -/

/-- `Region::applyVirtualMap` of region `i`, with the page table of the map. -/
def Region.applyVirtualMap (A : PhysicalAllocator σ) (pt : PageTable) (i : ℕ) (r : Region)
    (base : BitVec 64) : KernelM σ ℕ := do
  -- nothing reads the counter of `bitmapVm`
  let bitmapVm : MapEntry := ⟨r.bitmapVm, 1⟩
  requireM bitmapVm.isOrphaned
  let (err, _) ← Map.add A pt base (some bitmapVm)
  requireM (err == 0)
  modify fun m => { m with allocator := HasPool.setBitmap m.allocator i base }
  return r.bitmapReserved

/-- The loop of `Pool::applyVirtualMap` over at most `n` regions from region `i` on. -/
def Pool.applyVirtualMapLoop (A : PhysicalAllocator σ) (pt : PageTable) (i : ℕ)
    (gBitmapStart : BitVec 64) : ℕ → KernelM σ (BitVec 64)
  | 0 => return gBitmapStart
  | n + 1 => do
      let m ← get
      match (HasPool.pool m.allocator).regions[i]? with
      | none => return gBitmapStart
      | some region => do
        let used ← region.applyVirtualMap A pt i gBitmapStart
        requireM (used != 0)
        let gBitmapStart := gBitmapStart + BitVec.ofNat 64 (used + pageSize)
        requireM (gBitmapStart < physAllocatorMetadataEnd)
        applyVirtualMapLoop A pt (i + 1) gBitmapStart n

/-- `Pool::applyVirtualMap`, with the page table of the map and the static variable
`gBitmapStart`, whose new value it returns. -/
def Pool.applyVirtualMap (A : PhysicalAllocator σ) (pt : PageTable) (gBitmapStart : BitVec 64) :
    KernelM σ (BitVec 64) :=
  applyVirtualMapLoop A pt 0 gBitmapStart kMaxRegions

/-! ## What remapping keeps -/

/-- The regions behind the allocator. -/
def poolRegions (m : Machine σ) : List Region := (HasPool.pool m.allocator).regions

/-- A region without its bitmap, its counter and its pointer. -/
def Region.fixed (r : Region) : Region := { r.shape with bitmap := 0 }

/-- The other fields agree if the regions do without these. -/
theorem Region.field_eq {α : Type} {r r' : Region} (heq : r'.fixed = r.fixed) (field : Region → α)
    (hfield : ∀ q : Region, field q.fixed = field q) : field r' = field r := by
  rw [← hfield r', heq, hfield r]

/-- What remapping relies on: fresh frames, which `AllocatePages` finds without moving a region and
whose record does not depend on the pointers. -/
structure SuppliesFromPool (A : PhysicalAllocator σ) (held : σ → Set (BitVec 64)) : Prop
    extends HandsOutFresh A held where
  shape : ∀ {s s' : σ} {n : ℕ} {buffer out : AddrBuffer} {count : ℤ},
    A.allocatePages s n buffer = .ok (count, out, s') →
      (HasPool.pool s').regions.map Region.shape = (HasPool.pool s).regions.map Region.shape
  held_setBitmap : ∀ (s : σ) (i : ℕ) (base : BitVec 64),
    held (HasPool.setBitmap s i base) = held s

end

/-- Allocations keep the shapes of all regions. -/
theorem poolAllocator_shape {s s' : ReachedPool specs} {n : ℕ} {buffer out : AddrBuffer}
    {count : ℤ} (h : (poolAllocator specs).allocatePages s n buffer = .ok (count, out, s')) :
    s'.val.pool.regions.map Region.shape = s.val.pool.regions.map Region.shape := by
  obtain ⟨-, halloc, -⟩ := poolAllocator_allocatePages_eq_ok.mp h
  exact Pool.map_shape_of_alloc (Pool.alloc_of_allocatePages halloc).2

/-- The fields for the bitmap are those that the constructor sets. -/
structure Region.BitmapFields (r : Region) : Prop where
  phys : r.bitmapPhys = r.physBase
  vm : r.bitmapVm = ⟨r.physBase, r.bitmapReserved, Mode.kernelRW⟩

/-- They are among the fields that remapping keeps. -/
theorem Region.BitmapFields.of_fixed {r r' : Region} (h : r.BitmapFields)
    (heq : r'.fixed = r.fixed) : r'.BitmapFields := by
  have hfixed : ∀ q : Region, q.fixed.BitmapFields ↔ q.BitmapFields :=
    fun q => ⟨fun ⟨hphys, hvm⟩ => ⟨hphys, hvm⟩, fun ⟨hphys, hvm⟩ => ⟨hphys, hvm⟩⟩
  rwa [← hfixed, heq, hfixed]

theorem Region.bitmapFields_of_new {earlyBoot : Bool} {base : BitVec 64} {length : ℕ}
    {prior : Words} {r : Region} (h : Region.new earlyBoot base length prior = .ok r) :
    r.BitmapFields := by
  simp only [Region.new, bind, Except.bind, pure, Except.pure] at h
  split at h
  · cases h
  split at h
  · cases h
  · cases h
    exact ⟨rfl, rfl⟩

/-- Boot registers regions with these fields. -/
theorem bitmapFields_of_addRegions {earlyBoot : Bool} {prior : BitVec 64 → Words} {p p' : Pool}
    {ranges : List (BitVec 64 × ℕ)} (h : addRegions earlyBoot prior p ranges = .ok p')
    (hp : ∀ r ∈ p.regions, r.BitmapFields) : ∀ r ∈ p'.regions, r.BitmapFields := by
  induction ranges generalizing p with
  | nil =>
    obtain rfl : p = p' := Except.ok.inj h
    exact hp
  | cons range rest ih =>
    obtain ⟨base, length⟩ := range
    obtain ⟨p₁, hadd, hrest⟩ : ∃ p₁, addRegion earlyBoot p base length (prior base) = .ok p₁ ∧
        addRegions earlyBoot prior p₁ rest = .ok p' := by
      simp only [addRegions, bind, Except.bind] at h
      split at h
      · cases h
      · exact ⟨_, ‹_›, h⟩
    obtain ⟨r, hnew, hregions⟩ := exists_new_of_addRegion hadd
    refine ih hrest fun q hq => ?_
    rw [hregions, List.mem_append, List.mem_singleton] at hq
    rcases hq with hq | rfl
    · exact hp q hq
    · exact Region.bitmapFields_of_new hnew

/-- A region as boot registers it, in 52 bits of physical memory. -/
structure Region.Registered (r : Region) : Prop where
  wellFormed : r.WellFormed
  inMemory : r.physBase.toNat + r.numPages * pageSize ≤ 2 ^ 52
  fields : r.BitmapFields

theorem Region.Registered.of_fixed {r r' : Region} (h : r.Registered)
    (heq : r'.fixed = r.fixed) : r'.Registered := by
  have hwf : ∀ q : Region, q.fixed.WellFormed ↔ q.WellFormed := fun q =>
    ⟨fun ⟨h1, h2, h3, h4, h5, h6⟩ => ⟨h1, h2, h3, h4, h5, h6⟩,
      fun ⟨h1, h2, h3, h4, h5, h6⟩ => ⟨h1, h2, h3, h4, h5, h6⟩⟩
  refine ⟨?_, ?_, h.fields.of_fixed heq⟩
  · rw [← hwf, heq, hwf]
    exact h.wellFormed
  · rw [field_eq heq Region.physBase fun _ => rfl, field_eq heq Region.numPages fun _ => rfl]
    exact h.inMemory

/-- A bitmap fits at an address in the window, and the addresses behind it do not wrap. -/
theorem Region.Registered.fits_window {r : Region} (hr : r.Registered) {g : BitVec 64}
    (haligned : g.toNat % pageSize = 0) (hlo : physAllocatorMetadataStart.toNat ≤ g.toNat)
    (hhi : g.toNat < physAllocatorMetadataEnd.toNat) :
    r.bitmapVm.Fits g ∧ g.toNat + r.bitmapReserved + pageSize < 2 ^ 64 := by
  have hwf := hr.wellFormed
  have hphys := hr.inMemory
  have hend : physAllocatorMetadataEnd.toNat = 0xffff82003fffffff := rfl
  have hreserved := hwf.reserved_eq
  have hpages := Region.bitmapPages_le hwf.nonempty
  -- a bitmap for 52 bits of physical memory is far from the end of the address space
  have hsmall : Region.bitmapPages r.numPages ≤ 2 ^ 26 := by
    simp only [Region.bitmapPages, Region.bitmapBytes, pageSize] at *
    omega
  have hwrap : g.toNat + r.bitmapReserved + pageSize < 2 ^ 64 := by
    simp only [pageSize] at *
    omega
  have hlength : r.bitmapVm.length = r.bitmapReserved := by rw [hr.fields.vm]
  have hbase : r.bitmapVm.physBase = r.physBase := by rw [hr.fields.vm]
  refine ⟨⟨?_, ?_, ?_, ⟨haligned, ?_, fun i hi => ?_⟩⟩, hwrap⟩
  · rw [hbase]
    exact hwf.aligned
  · rw [hbase, hlength, hreserved]
    exact (Nat.add_le_add_left (Nat.mul_le_mul_right _ hpages) _).trans hphys
  · rw [hlength, hreserved, Nat.mul_mod_left]
  · have hle := Nat.div_mul_le_self r.bitmapVm.length pageSize
    omega
  · have hle : i * pageSize ≤ r.bitmapVm.length :=
      (Nat.mul_le_mul_right _ hi.le).trans (Nat.div_mul_le_self _ _)
    refine nonCanonical_of_upper (le_trans (by decide : _ ≤ physAllocatorMetadataStart.toNat) ?_)
    rw [pageAt, BitVec.toNat_add, BitVec.toNat_ofNat]
    omega

section

variable {σ : Type} [HasPool σ] {A : PhysicalAllocator σ} {held : σ → Set (BitVec 64)}
variable {m m' : Machine σ} {tables : List PageTable} {pt : PageTable} {i : ℕ} {r : Region}
variable {g : BitVec 64}

/-- The bitmap of region `i` is mapped at `g`: no other address is affected, and of the pool only
the pointer of the region changes, apart from the frames that are taken. -/
structure Turn (held : σ → Set (BitVec 64)) (tables : List PageTable) (pt : PageTable) (i : ℕ)
    (r : Region) (g : BitVec 64) (m m' : Machine σ) : Prop where
  links : TablesState.Links held ⟨m', tables⟩
  mapped : r.bitmapVm.MappedAt m' pt g
  same : SameOutside m m' tables g r.bitmapVm.length
  shape : (poolRegions m').map Region.shape =
    ((HasPool.pool m.allocator).setBitmap i g).regions.map Region.shape

/-- That is what mapping one bitmap does. -/
theorem Region.applyVirtualMap_ok (hA : SuppliesFromPool A held)
    (hs : TablesState.Links held ⟨m, tables⟩) (hpt : pt ∈ tables) (hfits : r.bitmapVm.Fits g)
    {used : ℕ} (happly : r.applyVirtualMap A pt i g m = .ok (used, m')) :
    used = r.bitmapReserved ∧ Turn held tables pt i r g m m' := by
  obtain ⟨_, m₀, horphan, happly⟩ := bind_eq_ok.mp happly
  obtain ⟨-, rfl⟩ := requireM_eq_ok.mp horphan
  obtain ⟨⟨err, entry⟩, m₁, hadd, happly⟩ := bind_eq_ok.mp happly
  obtain ⟨_, m₂, hzero, happly⟩ := bind_eq_ok.mp happly
  obtain ⟨hzero, rfl⟩ := requireM_eq_ok.mp hzero
  obtain ⟨_, m₂, hset, hret⟩ := bind_eq_ok.mp happly
  obtain rfl := modify_eq_ok.mp hset
  obtain ⟨rfl, rfl⟩ := pure_eq_ok.mp hret
  obtain rfl : err = 0 := by simpa using hzero
  obtain hneg | ⟨-, -, hadd⟩ := Map.add_ok hadd
  · cases hneg
  obtain ⟨hs₁, hmapped, hsame, -⟩ :=
    ContiguousPhysRegion.addedTo_ok hA.toHandsOutFresh hs hpt hfits hadd
  -- the pointer matters to no page table
  have hheld := (hA.held_setBitmap m₁.allocator i g).ge
  have hset : ∀ base length, SameOutside m₁
      { m₁ with allocator := HasPool.setBitmap m₁.allocator i g } tables base length :=
    SameOutside.setAllocator hs₁.inv hheld
  refine ⟨rfl, hs₁.setAllocator hheld, ?_, hsame.trans (hset _ _), ?_⟩
  · exact hmapped.of_sameOutside hpt (hset 0 0) fun o _ hin => absurd hin.2 (by simp)
  · -- allocations keep the shapes
    rw [hfits.addedTo_eq] at hadd
    let kept (s : σ) : Prop := (HasPool.pool s).regions.map Region.shape =
      (HasPool.pool m.allocator).regions.map Region.shape
    have hkeeps : KeepsAllocator kept (mapPages A pt r.bitmapVm.physAt
        r.bitmapVm.accessMode g 0 (r.bitmapVm.length / pageSize)) :=
      keepsAllocator_mapPages (fun halloc hkept => (hA.shape halloc).trans hkept) _ _ _ _ _
    have hshapes : kept m₁.allocator := hkeeps _ _ _ hadd rfl
    rw [poolRegions, HasPool.pool_setBitmap]
    exact map_shape_setBitmap hshapes i g

namespace Turn

variable (h : Turn held tables pt i r g m m')

include h

/-- Everything else of all regions is kept. -/
theorem map_fixed : (poolRegions m').map Region.fixed = (poolRegions m).map Region.fixed := by
  have hfixed : ∀ rs : List Region, rs.map Region.fixed =
      (rs.map Region.shape).map fun r => { r with bitmap := 0 } := by
    intro rs
    rw [List.map_map]
    rfl
  rw [hfixed, h.shape, ← hfixed]
  exact map_regions_setBitmap Region.fixed (fun _ _ => rfl) _ i g

/-- What is known of a region afterwards. -/
theorem exists_before (hi : (poolRegions m)[i]? = some r) {j : ℕ} {r' : Region}
    (hj : (poolRegions m')[j]? = some r') :
    ∃ r₀, (poolRegions m)[j]? = some r₀ ∧ r'.fixed = r₀.fixed ∧
      r'.bitmapReserved = r₀.bitmapReserved ∧ r'.bitmapVm = r₀.bitmapVm ∧
        (j = i → r₀ = r ∧ r'.bitmap = g) ∧ (j ≠ i → r'.bitmap = r₀.bitmap) := by
  have hget := congrArg (·[j]?) h.shape
  simp only [List.getElem?_map, hj, Option.map_some] at hget
  obtain ⟨r₁, hj₁, hshape⟩ := Option.map_eq_some_iff.mp hget.symm
  obtain ⟨r₀, hj₀, rfl⟩ := exists_of_getElem?_setBitmap hj₁
  have hfixed : r'.fixed = r₀.fixed := by
    rw [Region.fixed, ← hshape]
    rfl
  have hbitmap : r'.bitmap = if i = j then g else r₀.bitmap :=
    (congrArg Region.bitmap hshape).symm
  refine ⟨r₀, hj₀, hfixed, Region.field_eq hfixed Region.bitmapReserved fun _ => rfl,
    Region.field_eq hfixed Region.bitmapVm fun _ => rfl, ?_, fun hne => ?_⟩
  · rintro rfl
    exact ⟨Option.some.inj (hj₀.symm.trans hi), by rw [hbitmap, if_pos rfl]⟩
  · rw [hbitmap, if_neg (Ne.symm hne)]

/-- There are as many regions as before. -/
theorem exists_after {j : ℕ} {r₀ : Region} (hj : (poolRegions m)[j]? = some r₀) :
    ∃ r', (poolRegions m')[j]? = some r' := by
  have hlen := congrArg List.length h.map_fixed
  rw [List.length_map, List.length_map] at hlen
  obtain ⟨hlt, -⟩ := List.getElem?_eq_some_iff.mp hj
  exact ⟨_, List.getElem?_eq_getElem (hlen ▸ hlt)⟩

end Turn

/-! ## The loop -/

/-- The addresses of the window. -/
def InWindow (w : BitVec 64) : Prop :=
  physAllocatorMetadataStart ≤ w ∧ w ≤ physAllocatorMetadataEnd

/-- The first `i` bitmaps are mapped in the window, one behind the other, and the next one goes to
`g`; `rs` are the regions before. -/
structure Remapping (held : σ → Set (BitVec 64)) (tables : List PageTable) (pt : PageTable)
    (rs : List Region) (i : ℕ) (g : BitVec 64) (m : Machine σ) : Prop where
  links : TablesState.Links held ⟨m, tables⟩
  fixed : (poolRegions m).map Region.fixed = rs.map Region.fixed
  registered : ∀ r ∈ poolRegions m, r.Registered
  aligned : g.toNat % pageSize = 0
  lo : physAllocatorMetadataStart.toNat ≤ g.toNat
  hi : g.toNat < physAllocatorMetadataEnd.toNat
  /-- They start at pages of the window, and end a page before `g`. -/
  below : ∀ j < i, ∀ r, (poolRegions m)[j]? = some r →
    physAllocatorMetadataStart.toNat ≤ r.bitmap.toNat ∧ r.bitmap.toNat % pageSize = 0 ∧
      r.bitmap.toNat + r.bitmapReserved + pageSize ≤ g.toNat
  apart : ∀ j k, j < k → k < i → ∀ r r', (poolRegions m)[j]? = some r →
    (poolRegions m)[k]? = some r' →
      r.bitmap.toNat + r.bitmapReserved + pageSize ≤ r'.bitmap.toNat
  mapped : ∀ j < i, ∀ r, (poolRegions m)[j]? = some r → r.bitmapVm.MappedAt m pt r.bitmap
  /-- Nothing else is mapped in the window. -/
  unmapped : ∀ w, InWindow w → (∀ j < i, ∀ r, (poolRegions m)[j]? = some r →
    ¬ InRange r.bitmap r.bitmapReserved w) → hardwareAccess m pt.pml4Phys w = none

namespace Remapping

variable {rs : List Region} {g' : BitVec 64}

section

variable (h : Remapping held tables pt rs i g m) (hi : (poolRegions m)[i]? = some r)
variable (hturn : Turn held tables pt i r g m m')

include h hi hturn

/-- The bitmap that was mapped ends a page before the next address, too. -/
theorem below_turn (hnext : g'.toNat = g.toNat + r.bitmapReserved + pageSize) :
    ∀ j < i + 1, ∀ r', (poolRegions m')[j]? = some r' →
      physAllocatorMetadataStart.toNat ≤ r'.bitmap.toNat ∧ r'.bitmap.toNat % pageSize = 0 ∧
        r'.bitmap.toNat + r'.bitmapReserved + pageSize ≤ g'.toNat := by
  intro j hj r' hr'
  obtain ⟨r₀, hj₀, -, hreserved, -, hself, hother⟩ := hturn.exists_before hi hr'
  rw [hreserved]
  by_cases hji : j = i
  · obtain ⟨rfl, hbitmap⟩ := hself hji
    rw [hbitmap, hnext]
    exact ⟨h.lo, h.aligned, le_rfl⟩
  · obtain ⟨hlo, haligned, hend⟩ := h.below j (by omega) r₀ hj₀
    rw [hother hji]
    exact ⟨hlo, haligned, by omega⟩

/-- It lies behind all others. -/
theorem apart_turn : ∀ j k, j < k → k < i + 1 → ∀ r' r'', (poolRegions m')[j]? = some r' →
    (poolRegions m')[k]? = some r'' →
      r'.bitmap.toNat + r'.bitmapReserved + pageSize ≤ r''.bitmap.toNat := by
  intro j k hjk hk r' r'' hr' hr''
  obtain ⟨r₀, hj₀, -, hreserved, -, -, hother⟩ := hturn.exists_before hi hr'
  obtain ⟨q₀, hk₀, -, -, -, hself', hother'⟩ := hturn.exists_before hi hr''
  rw [hreserved, hother (by omega)]
  by_cases hki : k = i
  · rw [(hself' hki).2]
    exact (h.below j (by omega) r₀ hj₀).2.2
  · rw [hother' hki]
    exact h.apart j k hjk (by omega) r₀ q₀ hj₀ hk₀

/-- The others stay mapped, since they end before it. -/
theorem mapped_turn (hpt : pt ∈ tables) : ∀ j < i + 1, ∀ r', (poolRegions m')[j]? = some r' →
    r'.bitmapVm.MappedAt m' pt r'.bitmap := by
  intro j hj r' hr'
  obtain ⟨r₀, hj₀, -, -, hvm, hself, hother⟩ := hturn.exists_before hi hr'
  rw [hvm]
  by_cases hji : j = i
  · obtain ⟨rfl, hbitmap⟩ := hself hji
    rw [hbitmap]
    exact hturn.mapped
  · obtain ⟨-, -, hend⟩ := h.below j (by omega) r₀ hj₀
    rw [hother hji]
    refine (h.mapped j (by omega) r₀ hj₀).of_sameOutside hpt hturn.same fun o ho hin => ?_
    rw [(h.registered r₀ (List.mem_of_getElem? hj₀)).fields.vm] at ho
    have hge := hin.1
    have hlt := g.isLt
    dsimp only at ho
    rw [BitVec.toNat_add, BitVec.toNat_ofNat] at hge
    omega

/-- Outside it, no address of the window was mapped. -/
theorem unmapped_turn (hpt : pt ∈ tables) : ∀ w, InWindow w →
    (∀ j < i + 1, ∀ r', (poolRegions m')[j]? = some r' →
      ¬ InRange r'.bitmap r'.bitmapReserved w) → hardwareAccess m' pt.pml4Phys w = none := by
  intro w hw hout
  obtain ⟨r', hr'⟩ := hturn.exists_after hi
  obtain ⟨r₀, hj₀, -, hreserved, hvm, hself, -⟩ := hturn.exists_before hi hr'
  obtain ⟨rfl, hbitmap⟩ := hself rfl
  have hhere := hout i (by omega) r' hr'
  have hlength : r₀.bitmapVm.length = r₀.bitmapReserved := by
    rw [(h.registered r₀ (List.mem_of_getElem? hi)).fields.vm]
  rw [hbitmap, hreserved, ← hlength] at hhere
  rw [(hturn.same pt hpt w hhere).1]
  refine h.unmapped w hw fun j hj q hq hin => ?_
  obtain ⟨q', hq'⟩ := hturn.exists_after hq
  obtain ⟨q₀, hq₀, -, hreserved', -, -, hother⟩ := hturn.exists_before hi hq'
  obtain rfl : q₀ = q := Option.some.inj (hq₀.symm.trans hq)
  refine hout j (by omega) q' hq' ?_
  rw [hother (by omega), hreserved']
  exact hin

end

/-- One turn of the loop. -/
theorem step (hA : SuppliesFromPool A held) (hpt : pt ∈ tables)
    (h : Remapping held tables pt rs i g m) (hi : (poolRegions m)[i]? = some r) {used : ℕ}
    (happly : r.applyVirtualMap A pt i g m = .ok (used, m'))
    (hg' : g' = g + BitVec.ofNat 64 (used + pageSize)) (hlimit : g' < physAllocatorMetadataEnd) :
    Remapping held tables pt rs (i + 1) g' m' := by
  have hr := h.registered r (List.mem_of_getElem? hi)
  obtain ⟨hfits, hwrap⟩ := hr.fits_window h.aligned h.lo h.hi
  obtain ⟨rfl, hturn⟩ := Region.applyVirtualMap_ok hA h.links hpt hfits happly
  have hnext : g'.toNat = g.toNat + r.bitmapReserved + pageSize := by
    rw [hg', BitVec.toNat_add, BitVec.toNat_ofNat]
    omega
  have hlength : r.bitmapVm.length = r.bitmapReserved := by rw [hr.fields.vm]
  have haligned := h.aligned
  have hwhole := hfits.whole
  have hlo := h.lo
  rw [hlength] at hwhole
  -- the clauses on bitmaps placed so far come from the turn, the others from where it ends
  refine ⟨hturn.links, hturn.map_fixed.trans h.fixed, fun r' hr' => ?_, ?_, by omega,
    BitVec.lt_def.mp hlimit, h.below_turn hi hturn hnext, h.apart_turn hi hturn,
    h.mapped_turn hi hturn hpt, h.unmapped_turn hi hturn hpt⟩
  · obtain ⟨j, hj⟩ := List.mem_iff_getElem?.mp hr'
    obtain ⟨r₀, hj₀, hfixed, -⟩ := hturn.exists_before hi hj
    exact (h.registered r₀ (List.mem_of_getElem? hj₀)).of_fixed hfixed
  · rw [hnext]
    simp only [pageSize] at *
    omega

/-- The loop goes through all regions, unless the array is full before. -/
theorem loop (hA : SuppliesFromPool A held) (hpt : pt ∈ tables) {n : ℕ}
    (h : Remapping held tables pt rs i g m)
    (hloop : Pool.applyVirtualMapLoop A pt i g n m = .ok (g', m')) :
    ∃ k, Remapping held tables pt rs k g' m' ∧ (k = i + n ∨ (poolRegions m').length ≤ k) := by
  induction n generalizing i g m with
  | zero =>
    obtain ⟨rfl, rfl⟩ := pure_eq_ok.mp hloop
    exact ⟨i, h, Or.inl rfl⟩
  | succ n ih =>
    rw [Pool.applyVirtualMapLoop, get_bind] at hloop
    rcases hi : (HasPool.pool m.allocator).regions[i]? with _ | r
    · rw [hi] at hloop
      obtain ⟨rfl, rfl⟩ := pure_eq_ok.mp hloop
      exact ⟨i, h, Or.inr (List.getElem?_eq_none_iff.mp hi)⟩
    · rw [hi] at hloop
      -- a turn returns only if it consumed something and stayed in the window
      obtain ⟨used, m₁, happly, hloop⟩ := bind_eq_ok.mp hloop
      obtain ⟨_, m₂, hused, hloop⟩ := bind_eq_ok.mp hloop
      obtain ⟨-, rfl⟩ := requireM_eq_ok.mp hused
      obtain ⟨_, m₂, hlimit, hloop⟩ := bind_eq_ok.mp hloop
      obtain ⟨hbelow, rfl⟩ := requireM_eq_ok.mp hlimit
      rw [decide_eq_true_eq] at hbelow
      obtain ⟨k, hk, hend⟩ := ih (h.step hA hpt hi happly rfl hbelow) hloop
      refine ⟨k, hk, hend.imp_left fun heq => ?_⟩
      rw [heq, Nat.add_assoc, Nat.add_comm 1]

end Remapping

/-! ## All regions -/

/-- Where the bitmaps are after remapping. -/
structure Remapped (m : Machine σ) (pt : PageTable) : Prop where
  /-- From the new pointer on, every byte translates to that of the bitmap, writable. -/
  mapped : ∀ r ∈ poolRegions m, ∀ o < r.bitmapReserved,
    (∃ user, hardwareAccess m pt.pml4Phys (r.bitmap + BitVec.ofNat 64 o) =
      some ⟨r.bitmapPhys + BitVec.ofNat 64 o, true, user⟩) ∧
    ∃ access, pt.report (r.bitmap + BitVec.ofNat 64 o) m =
      .ok (1, some (r.bitmapPhys + BitVec.ofNat 64 o, access))
  /-- Between two bitmaps there is at least one page. -/
  apart : (poolRegions m).Pairwise fun r r' =>
    r.bitmap.toNat + r.bitmapReserved + pageSize ≤ r'.bitmap.toNat
  /-- The page behind a bitmap is not mapped. -/
  guarded : ∀ r ∈ poolRegions m, ∀ o < pageSize,
    hardwareAccess m pt.pml4Phys (r.bitmap + BitVec.ofNat 64 (r.bitmapReserved + o)) = none
  /-- Bitmaps and guard pages are whole pages of the window. -/
  inside : ∀ r ∈ poolRegions m, r.bitmap.toNat % pageSize = 0 ∧ r.bitmapReserved % pageSize = 0 ∧
    physAllocatorMetadataStart.toNat ≤ r.bitmap.toNat ∧
      r.bitmap.toNat + r.bitmapReserved + pageSize ≤ physAllocatorMetadataEnd.toNat

/-- When the loop is through, all bitmaps are where they belong. -/
theorem Remapping.remapped {rs : List Region} {k : ℕ} (h : Remapping held tables pt rs k g m)
    (hk : (poolRegions m).length ≤ k) : Remapped m pt := by
  -- every region has had its turn
  have hlt : ∀ {j : ℕ} {r : Region}, (poolRegions m)[j]? = some r → j < k := by
    intro j r hj
    obtain ⟨hj, -⟩ := List.getElem?_eq_some_iff.mp hj
    omega
  have hend : physAllocatorMetadataEnd.toNat < 2 ^ 64 := by decide
  have hhi := h.hi
  refine ⟨fun r hr o ho => ?_, ?_, fun r hr o ho => ?_, fun r hr => ?_⟩
  · obtain ⟨j, hj⟩ := List.mem_iff_getElem?.mp hr
    have hmapped := h.mapped j (hlt hj) r hj
    obtain ⟨hphys, hvm⟩ := (h.registered r hr).fields
    rw [hvm] at hmapped
    obtain ⟨haccess, access, hreport, -⟩ := hmapped o ho
    have hwrite : Mode.kernelRW.test Mode.write = true := by decide
    dsimp only at haccess
    rw [hwrite] at haccess
    rw [hphys]
    exact ⟨haccess, access, hreport⟩
  · rw [List.pairwise_iff_getElem]
    intro j l hj hl hjl
    exact h.apart j l hjl (by omega) _ _ (List.getElem?_eq_getElem hj) (List.getElem?_eq_getElem hl)
  · obtain ⟨j, hj⟩ := List.mem_iff_getElem?.mp hr
    obtain ⟨hlo, -, hbelow⟩ := h.below j (hlt hj) r hj
    have haddr : (r.bitmap + BitVec.ofNat 64 (r.bitmapReserved + o)).toNat =
        r.bitmap.toNat + r.bitmapReserved + o := by
      rw [BitVec.toNat_add, BitVec.toNat_ofNat]
      omega
    refine h.unmapped _ ⟨?_, ?_⟩ fun l hl r' hl' hin => ?_
    · rw [BitVec.le_def, haddr]
      omega
    · rw [BitVec.le_def, haddr]
      omega
    · -- the guard page is behind its own bitmap, and before or behind each of the others
      obtain ⟨hge, hlt'⟩ := hin
      rw [haddr] at hge hlt'
      rcases Nat.lt_trichotomy j l with hjl | rfl | hlj
      · have := h.apart j l hjl hl r r' hj hl'
        omega
      · obtain rfl : r = r' := Option.some.inj (hj.symm.trans hl')
        omega
      · have := h.apart l j hlj (hlt hj) r' r hl' hj
        omega
  · obtain ⟨j, hj⟩ := List.mem_iff_getElem?.mp hr
    obtain ⟨hlo, haligned, hbelow⟩ := h.below j (hlt hj) r hj
    have hwf := (h.registered r hr).wellFormed
    exact ⟨haligned, by rw [hwf.reserved_eq, Nat.mul_mod_left], hlo, by omega⟩

/-- If `Pool::applyVirtualMap` returns, with fresh frames and registered regions, the bitmaps are
where they belong, and nothing else changed in the regions. -/
theorem Pool.applyVirtualMap_ok (hA : SuppliesFromPool A held)
    (hs : TablesState.Links held ⟨m, tables⟩) (hpt : pt ∈ tables)
    (hregistered : ∀ r ∈ poolRegions m, r.Registered)
    (hroom : (poolRegions m).length ≤ Pool.kMaxRegions)
    (hwindow : ∀ w, InWindow w → hardwareAccess m pt.pml4Phys w = none)
    (happly : Pool.applyVirtualMap A pt physAllocatorMetadataStart m = .ok (g, m')) :
    Remapped m' pt ∧ (poolRegions m').map Region.fixed = (poolRegions m).map Region.fixed := by
  have hstart : Remapping held tables pt (poolRegions m) 0 physAllocatorMetadataStart m :=
    ⟨hs, rfl, hregistered, by decide, le_rfl, by decide, by simp, by simp, by simp,
      fun w hw _ => hwindow w hw⟩
  obtain ⟨k, hk, hend⟩ := hstart.loop hA hpt happly
  refine ⟨hk.remapped ?_, hk.fixed⟩
  rcases hend with rfl | hend
  · have hlen := congrArg List.length hk.fixed
    rw [List.length_map, List.length_map] at hlen
    rw [Nat.zero_add, hlen]
    exact hroom
  · exact hend

end

end KushOs.Memory
