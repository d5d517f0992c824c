import KushOs.Kernel.Boot.BootSpace
import KushOs.Kernel.Memory.Remap

/-!
# The kernel map

At boot the kernel constructs its first map, maps the sections of its own image and the
framebuffer, and remaps the bitmaps of the physical allocator, before it loads the map. All of this
is a function of what the bootloader and the linker say: the address space is the one that they
describe, and no address outside it is mapped.

A bootloader that gives no framebuffer ends `PopulateKernelVm` early, and the bitmaps are not
remapped. Their pointers keep the addresses of early boot, where the new map has nothing.

The code takes any allocator. The results are about the pool of the kernel as long as its requests
are served in range (`poolAllocator`).

The console is told about the framebuffer; that and its other preparations do not concern the map.
The kernel image is not mapped, because `kEnableSymbolication` is off.

## Main definitions

* `populateKernelVm`, `osentry`: the code of `Entry.cpp`.
* `Populated`: what the page table of the map translates while it is populated.

## Main results

* `Populated.add`, `Populated.applyVirtualMap`: what one region adds.
* `osentry_ok`: the address space when the map is loaded, and the pointers to the bitmaps.
-/

namespace KushOs.Boot

open Memory Vm KernelM PageTable Transition WordBitmap

variable {σ : Type} {A : PhysicalAllocator σ} {specs : List (BitVec 64 × ℕ)}

/-! ## The code -/

/-- Number of VM objects for which `MapKernelSection` has storage. -/
def kMaxSections : ℕ := 4

/-- `map->add(base, region)` with the `REQUIRE` behind it; nothing reads the counter of the
entry. -/
def addRequired (A : PhysicalAllocator σ) (pt : PageTable) (base : BitVec 64)
    (region : ContiguousPhysRegion) : KernelM σ Unit := do
  let (err, _) ← Map.add A pt base (some ⟨region, 1⟩)
  requireM (err == 0)

/-- `MapKernelSection`. `vmIdx` is the static variable `gVmObjectAllocNextFree`, whose new value is
returned. -/
def mapKernelSection (A : PhysicalAllocator σ) (pt : PageTable) (vmIdx : ℕ)
    (physBase virtBase : BitVec 64) (length : ℕ) (mode : Mode) : KernelM σ ℕ := do
  requireM (vmIdx + 1 < kMaxSections)
  addRequired A pt virtBase ⟨physBase, length, mode⟩
  return vmIdx + 1

/-- The loop of `MapKernelSections`. -/
def mapKernelSectionsLoop (A : PhysicalAllocator σ) (pt : PageTable) (vmIdx : ℕ)
    (kernelPhysBase kernelVirtBase : BitVec 64) : List SectionInfo → KernelM σ Unit
  | [] => return ()
  | info :: rest => do
      let roundedSize := nearestPageSize info.size
      let vmIdx ← mapKernelSection A pt vmIdx kernelPhysBase kernelVirtBase roundedSize info.mode
      mapKernelSectionsLoop A pt vmIdx (kernelPhysBase + BitVec.ofNat 64 roundedSize)
        (kernelVirtBase + BitVec.ofNat 64 roundedSize) rest

/-- `MapKernelSections`. -/
def mapKernelSections (A : PhysicalAllocator σ) (pt : PageTable) (base : Option KernelAddress)
    (sizes : SectionSizes) : KernelM σ Unit := do
  let kernelPhysBase := (kernelBase base).physicalBase
  let kernelVirtBase := (kernelBase base).virtualBase
  requireM (kernelPhysBase != 0)
  requireM (kernelVirtBase != 0)
  mapKernelSectionsLoop A pt 0 kernelPhysBase kernelVirtBase (kSectionInfo sizes)

/-- `PhysicalAllocator::RemapTo`, with the page table of the map. There is one pool, and
`gBitmapStart` has its initial value. -/
def remapTo [HasPool σ] (A : PhysicalAllocator σ) (pt : PageTable) : KernelM σ Unit := do
  let _ ← Pool.applyVirtualMap A pt physAllocatorMetadataStart
  return ()

/-- `PopulateKernelVm`, with the page table of the map. -/
def populateKernelVm [HasPool σ] (A : PhysicalAllocator σ) (pt : PageTable) (info : BootInfo) :
    KernelM σ Unit := do
  mapKernelSections A pt info.kernelAddress info.sizes
  match info.framebuffers.getD [] with
  | [] => return ()
  | none :: _ => requireM false
  | some fbInfo :: _ => do
      addRequired A pt kFramebufferBase (framebufferRegion fbInfo)
      remapTo A pt

/-- `InitKernelVm`: the page table of the map. -/
def initKernelVm (A : PhysicalAllocator σ) : KernelM σ PageTable := PageTable.new A none

/-- `PhysicalMap::FinishedEarlyBoot`. -/
def finishedEarlyBoot : KernelM σ Unit := modify fun m => { m with earlyBoot := false }

/-- `_osentry`, from `InitKernelVm` to `FinishedEarlyBoot`: the page table that is loaded. -/
def osentry [HasPool σ] (A : PhysicalAllocator σ) (info : BootInfo) : KernelM σ PageTable := do
  let pt ← initKernelVm A
  populateKernelVm A pt info
  finishedEarlyBoot
  return pt

/-- The regions of the pool are as boot registers them. -/
theorem registered_of_fields (hspecs : ∀ x ∈ specs, x.1.toNat + x.2 ≤ 2 ^ 52)
    {m : Machine (ReachedPool specs)} {r : Region} (hr : r ∈ poolRegions m)
    (hfields : r.BitmapFields) : r.Registered := by
  have hrange : r.range ∈ specs := by
    rw [← m.allocator.property.registered]
    exact List.mem_map_of_mem hr
  exact ⟨m.allocator.property.layout.wellFormed r hr, hspecs _ hrange, hfields⟩

/-! ## Populating the map -/

section

variable {p : Pool} {pt : PageTable} {l : AddressSpace} {m m' : Machine (ReachedPool specs)}

/-- While the map is populated: what its page table translates, and the regions of the pool apart
from their bits and counters. -/
structure Populated (p : Pool) (pt : PageTable) (l : AddressSpace)
    (m : Machine (ReachedPool specs)) : Prop where
  sealed : TablesState.Sealed heldPages ⟨m, [pt]⟩
  space : hardwareAccess m pt.pml4Phys = l
  regions : (poolRegions m).map Region.shape = p.regions.map Region.shape

namespace Populated

/-- The new map has the aperture. -/
theorem of_new (hspecs : ∀ x ∈ specs, x.1.toNat + x.2 ≤ 2 ^ 52) (hm : m.isFirstPageTable = false)
    (hregions : (poolRegions m).map Region.shape = p.regions.map Region.shape)
    (hnew : PageTable.new (poolAllocator specs) none m = .ok (pt, m')) :
    Populated p pt AddressSpace.aperture m' := by
  obtain ⟨hsealed, hspace⟩ := addressSpace_of_new (poolAllocator_handsOutFresh hspecs) hm hnew
  refine ⟨hsealed, hspace, ?_⟩
  let kept (s : ReachedPool specs) : Prop :=
    s.val.pool.regions.map Region.shape = p.regions.map Region.shape
  have hkeeps : KeepsAllocator kept (PageTable.new (poolAllocator specs) none) :=
    keepsAllocator_new (fun halloc hkept => (poolAllocator_shape halloc).trans hkept) none
  exact hkeeps _ _ _ hnew hregions

/-- Adding a region places it. -/
theorem add (hspecs : ∀ x ∈ specs, x.1.toNat + x.2 ≤ 2 ^ 52) (h : Populated p pt l m)
    (entry : MapEntry) {base : BitVec 64} (hfits : entry.region.Fits base)
    (hbase : physApertureStart.toNat ≤ base.toNat) {out : Option MapEntry}
    (hadd : Map.add (poolAllocator specs) pt base (some entry) m = .ok ((0, out), m')) :
    Populated p pt (l.place base entry.region) m' := by
  obtain hneg | ⟨-, -, hadd⟩ := Map.add_ok hadd
  · cases hneg
  have hA := poolAllocator_handsOutFresh hspecs
  obtain ⟨hsealed, hspace⟩ := ContiguousPhysRegion.addedTo_places hA (s := ⟨m, [pt]⟩) h.sealed
    (List.mem_singleton_self pt) hfits (upper_of_le hbase) hadd
  refine ⟨hsealed, hspace.trans (by rw [h.space]), ?_⟩
  -- the structures come from the pool
  rw [hfits.addedTo_eq] at hadd
  let kept (s : ReachedPool specs) : Prop :=
    s.val.pool.regions.map Region.shape = p.regions.map Region.shape
  have hkeeps : KeepsAllocator kept (mapPages (poolAllocator specs) pt entry.region.physAt
      entry.region.accessMode base 0 (entry.region.length / pageSize)) :=
    keepsAllocator_mapPages (fun halloc hkept => (poolAllocator_shape halloc).trans hkept)
      _ _ _ _ _
  exact hkeeps _ _ _ hadd h.regions

theorem addRequired (hspecs : ∀ x ∈ specs, x.1.toNat + x.2 ≤ 2 ^ 52) (h : Populated p pt l m)
    {region : ContiguousPhysRegion} {base : BitVec 64} (hfits : region.Fits base)
    (hbase : physApertureStart.toNat ≤ base.toNat) {u : Unit}
    (hadd : Boot.addRequired (poolAllocator specs) pt base region m = .ok (u, m')) :
    Populated p pt (l.place base region) m' := by
  obtain ⟨⟨err, out⟩, m₁, hadd, hrest⟩ := bind_eq_ok.mp hadd
  obtain ⟨hzero, rfl⟩ := requireM_eq_ok.mp hrest
  obtain rfl : err = 0 := by simpa using hzero
  exact h.add hspecs ⟨region, 1⟩ hfits hbase hadd

/-- The loop over the sections. -/
theorem mapKernelSectionsLoop (hspecs : ∀ x ∈ specs, x.1.toNat + x.2 ≤ 2 ^ 52)
    (h : Populated p pt l m) {vmIdx : ℕ} {phys virt : BitVec 64} {infos : List SectionInfo}
    (hfit : SectionsFit phys virt infos) {u : Unit}
    (hrun : Boot.mapKernelSectionsLoop (poolAllocator specs) pt vmIdx phys virt infos m =
      .ok (u, m')) : Populated p pt (l.placeAll (sections phys virt infos)) m' := by
  induction infos generalizing l m vmIdx phys virt with
  | nil =>
    obtain ⟨-, rfl⟩ := pure_eq_ok.mp hrun
    exact h
  | cons info rest ih =>
    obtain ⟨idx, m₁, hsection, hrest⟩ := bind_eq_ok.mp hrun
    obtain ⟨_, m₂, hlimit, hsection⟩ := bind_eq_ok.mp hsection
    obtain ⟨-, rfl⟩ := requireM_eq_ok.mp hlimit
    obtain ⟨_, m₃, hadd, hret⟩ := bind_eq_ok.mp hsection
    obtain ⟨rfl, rfl⟩ := pure_eq_ok.mp hret
    have hstart : physApertureStart.toNat ≤ physApertureEnd.toNat := by decide
    exact ih (h.addRequired hspecs hfit.head (hstart.trans hfit.upper.le) hadd) hfit.tail hrest

/-! ## Remapping the bitmaps -/

/-- The VM object of a region's bitmap is that of its range. -/
theorem bitmapVm_eq (h : Populated p pt l m) (hfields : ∀ r ∈ p.regions, r.BitmapFields) {i : ℕ}
    {r : Region} (hi : (poolRegions m)[i]? = some r) :
    r.BitmapFields ∧ r.bitmapVm = bitmapRegion r.range ∧
      r.bitmapReserved = (bitmapRegion r.range).length := by
  have hmem : r.shape ∈ p.regions.map Region.shape :=
    h.regions ▸ List.mem_map_of_mem (List.mem_of_getElem? hi)
  obtain ⟨r₀, hr₀, hshape⟩ := List.mem_map.mp hmem
  have hfixed : r.fixed = r₀.fixed := by rw [Region.fixed, Region.fixed, hshape]
  have hr := (hfields r₀ hr₀).of_fixed hfixed
  have hwf := m.allocator.property.layout.wellFormed r (List.mem_of_getElem? hi)
  have hreserved : r.bitmapReserved = (bitmapRegion r.range).length := by
    rw [bitmapRegion, Region.range, Nat.mul_div_cancel _ (by norm_num), hwf.reserved_eq]
  refine ⟨hr, ?_, hreserved⟩
  rw [hr.vm, hreserved]
  rfl

/-- One region: its bitmap is placed, and its pointer set. -/
theorem applyVirtualMap (hspecs : ∀ x ∈ specs, x.1.toNat + x.2 ≤ 2 ^ 52) (h : Populated p pt l m)
    {i : ℕ} {r : Region} {g : BitVec 64} (hfits : r.bitmapVm.Fits g)
    (hlo : physApertureStart.toNat ≤ g.toNat) {used : ℕ}
    (happly : r.applyVirtualMap (poolAllocator specs) pt i g m = .ok (used, m')) :
    used = r.bitmapReserved ∧ Populated (p.setBitmap i g) pt (l.place g r.bitmapVm) m' := by
  obtain ⟨_, m₀, horphan, happly⟩ := bind_eq_ok.mp happly
  obtain ⟨-, rfl⟩ := requireM_eq_ok.mp horphan
  obtain ⟨⟨err, out⟩, m₁, hadd, happly⟩ := bind_eq_ok.mp happly
  obtain ⟨_, m₂, hzero, happly⟩ := bind_eq_ok.mp happly
  obtain ⟨hzero, rfl⟩ := requireM_eq_ok.mp hzero
  obtain ⟨_, m₂, hset, hret⟩ := bind_eq_ok.mp happly
  obtain rfl := modify_eq_ok.mp hset
  obtain ⟨rfl, rfl⟩ := pure_eq_ok.mp hret
  obtain rfl : err = 0 := by simpa using hzero
  have hplaced := h.add hspecs ⟨r.bitmapVm, 1⟩ hfits hlo hadd
  exact ⟨rfl, hplaced.sealed.setAllocator Set.Subset.rfl, hplaced.space,
    map_shape_setBitmap hplaced.regions i g⟩

/-- The bitmaps of the regions from region `i` on are placed from `g` on, with room for them in the
window, and the pointers lead there. -/
def PlacedFrom (p : Pool) (pt : PageTable) (l : AddressSpace) (i : ℕ) (g : BitVec 64)
    (m : Machine (ReachedPool specs)) : Prop :=
  ∃ p', Populated p' pt (l.placeAll (bitmaps g (specs.drop i))) m ∧
    (∀ j, p'.regions[j]?.map Region.bitmap =
      if j < i then p.regions[j]?.map Region.bitmap
      else (bitmaps g (specs.drop i))[j - i]?.map Prod.fst) ∧
    (∀ r ∈ p'.regions, r.BitmapFields) ∧
    g.toNat + bitmapSpan (specs.drop i) < physAllocatorMetadataEnd.toNat

/-- The regions are those of the registered ranges. -/
theorem length_eq (h : Populated p pt l m) : p.regions.length = specs.length := by
  have hregistered := congrArg List.length m.allocator.property.registered
  have hregions := congrArg List.length h.regions
  rw [List.length_map] at hregistered
  rw [List.length_map, List.length_map] at hregions
  exact hregions.symm.trans hregistered

/-- The range of a region is the next one that is registered. -/
theorem drop_eq {i : ℕ} {r : Region} (hi : (poolRegions m)[i]? = some r) :
    specs.drop i = r.range :: specs.drop (i + 1) := by
  have hregistered : (poolRegions m).map Region.range = specs := m.allocator.property.registered
  have hget : specs[i]? = some r.range := by
    rw [← hregistered, List.getElem?_map, hi, Option.map_some]
  obtain ⟨hlt, hval⟩ := List.getElem?_eq_some_iff.mp hget
  rw [List.drop_eq_getElem_cons hlt, hval]

/-- Setting a pointer keeps the fields for the bitmaps. -/
theorem bitmapFields_setBitmap (hfields : ∀ r ∈ p.regions, r.BitmapFields) (i : ℕ)
    (g : BitVec 64) : ∀ r ∈ (p.setBitmap i g).regions, r.BitmapFields := by
  intro q hq
  obtain ⟨j, hj⟩ := List.mem_iff_getElem?.mp hq
  obtain ⟨q₀, hq₀, rfl⟩ := exists_of_getElem?_setBitmap hj
  exact (hfields q₀ (List.mem_of_getElem? hq₀)).of_fixed rfl

/-- The start of the next bitmap. -/
theorem toNat_next (hspecs : ∀ x ∈ specs, x.1.toNat + x.2 ≤ 2 ^ 52) {i : ℕ} {r : Region}
    (hi : (poolRegions m)[i]? = some r) (hr : r.BitmapFields) {g : BitVec 64}
    (haligned : g.toNat % pageSize = 0) (hlo : physAllocatorMetadataStart.toNat ≤ g.toNat)
    (hhi : g.toNat < physAllocatorMetadataEnd.toNat) :
    (g + BitVec.ofNat 64 (r.bitmapReserved + pageSize)).toNat =
        g.toNat + (r.bitmapReserved + pageSize) ∧
      (g + BitVec.ofNat 64 (r.bitmapReserved + pageSize)).toNat % pageSize = 0 := by
  obtain ⟨hfits, hwrap⟩ :=
    (registered_of_fields hspecs (List.mem_of_getElem? hi) hr).fits_window haligned hlo hhi
  have hg : (g + BitVec.ofNat 64 (r.bitmapReserved + pageSize)).toNat =
      g.toNat + (r.bitmapReserved + pageSize) := by
    rw [BitVec.toNat_add, BitVec.toNat_ofNat]
    omega
  have hwhole := hfits.whole
  rw [hr.vm] at hwhole
  refine ⟨hg, ?_⟩
  rw [hg]
  simp only [pageSize] at *
  omega

/-- Behind the last region nothing is left to do. -/
theorem placedFrom_of_le (h : Populated p pt l m) (hfields : ∀ r ∈ p.regions, r.BitmapFields)
    {i : ℕ} (hle : specs.length ≤ i) {g : BitVec 64}
    (hhi : g.toNat < physAllocatorMetadataEnd.toNat) : PlacedFrom p pt l i g m := by
  have hlength := h.length_eq
  unfold PlacedFrom
  rw [List.drop_eq_nil_of_le hle]
  refine ⟨p, h, fun j => ?_, hfields, hhi⟩
  split
  · rfl
  next hge =>
    rw [List.getElem?_eq_none_iff.mpr (by omega)]
    rfl

/-- The loop over the regions from region `i` on. -/
theorem applyVirtualMapLoop (hspecs : ∀ x ∈ specs, x.1.toNat + x.2 ≤ 2 ^ 52)
    (h : Populated p pt l m) (hfields : ∀ r ∈ p.regions, r.BitmapFields) {i n : ℕ}
    (hlen : specs.length ≤ i + n) {g g' : BitVec 64} (haligned : g.toNat % pageSize = 0)
    (hlo : physAllocatorMetadataStart.toNat ≤ g.toNat)
    (hhi : g.toNat < physAllocatorMetadataEnd.toNat)
    (hloop : Pool.applyVirtualMapLoop (poolAllocator specs) pt i g n m = .ok (g', m')) :
    PlacedFrom p pt l i g m' := by
  induction n generalizing p l i g m with
  | zero =>
    obtain ⟨-, rfl⟩ := pure_eq_ok.mp hloop
    exact h.placedFrom_of_le hfields (by omega) hhi
  | succ n ih =>
    have hregistered : (poolRegions m).map Region.range = specs :=
      m.allocator.property.registered
    rw [Pool.applyVirtualMapLoop, get_bind] at hloop
    rcases hi : (HasPool.pool m.allocator).regions[i]? with _ | r
    · rw [hi] at hloop
      obtain ⟨-, rfl⟩ := pure_eq_ok.mp hloop
      refine h.placedFrom_of_le hfields ?_ hhi
      rw [← hregistered, List.length_map]
      exact List.getElem?_eq_none_iff.mp hi
    · rw [hi] at hloop
      obtain ⟨used, m₁, happly, hloop⟩ := bind_eq_ok.mp hloop
      obtain ⟨_, m₂, hused, hloop⟩ := bind_eq_ok.mp hloop
      obtain ⟨-, rfl⟩ := requireM_eq_ok.mp hused
      obtain ⟨_, m₂, hlimit, hloop⟩ := bind_eq_ok.mp hloop
      obtain ⟨hbelow, rfl⟩ := requireM_eq_ok.mp hlimit
      rw [decide_eq_true_eq, BitVec.lt_def] at hbelow
      obtain ⟨hr, hvm, hreserved⟩ := h.bitmapVm_eq hfields hi
      obtain ⟨hfits, hwrap⟩ :=
        (registered_of_fields hspecs (List.mem_of_getElem? hi) hr).fits_window haligned hlo hhi
      have hstart : physApertureStart.toNat ≤ physAllocatorMetadataStart.toNat := by decide
      -- this turn puts the bitmap of region `i` at `g`; the rest is the induction hypothesis
      obtain ⟨rfl, hnext⟩ := h.applyVirtualMap hspecs hfits (hstart.trans hlo) happly
      obtain ⟨hg, haligned'⟩ := toNat_next hspecs hi hr haligned hlo hhi
      obtain ⟨p', hp', hpointers, hfields', hend⟩ :=
        ih hnext (bitmapFields_setBitmap hfields i g) (by omega) haligned' (by omega) hbelow hloop
      have hdrop := drop_eq hi
      have hilt : i < p.regions.length := by
        rw [h.length_eq, ← hregistered, List.length_map]
        exact (List.getElem?_eq_some_iff.mp hi).1
      rw [hreserved] at hp' hpointers hend
      rw [hreserved] at hg
      rw [hvm] at hp'
      refine ⟨p', ?_, fun j => ?_, hfields', ?_⟩
      · rw [hdrop, placeAll_bitmaps_cons]
        exact hp'
      · rw [hpointers j, hdrop, bitmaps, getElem?_setBitmap]
        -- pointers before `i` stay, that of `i` is `g`, and those behind it come later
        rcases Nat.lt_trichotomy j i with hlt | rfl | hgt
        · rw [if_pos (by omega), if_pos hlt, Option.map_map]
          refine Option.map_congr fun q _ => ?_
          rw [Function.comp_apply, if_neg (by omega)]
        · rw [if_pos (by omega), if_neg (lt_irrefl j), Nat.sub_self,
            List.getElem?_eq_getElem hilt]
          simp
        · obtain ⟨k, rfl⟩ := Nat.exists_eq_add_of_lt hgt
          rw [if_neg (by omega), if_neg (by omega)]
          have hidx : i + k + 1 - i = k + 1 := by omega
          have hidx' : i + k + 1 - (i + 1) = k := by omega
          rw [hidx, hidx', List.getElem?_cons_succ]
      · rw [hdrop, bitmapSpan, List.map_cons, List.sum_cons, ← Nat.add_assoc, ← hg]
        exact hend

end Populated

/-! ## Booting -/

/-- During early boot memory is reached at its physical address. -/
theorem add_early_eq {physical addr : BitVec 64} {length : ℕ}
    (h : PhysicalMap.add true physical length = .ok addr) : addr = physical := by
  simp only [PhysicalMap.add, if_true, bind, Except.bind, pure, Except.pure] at h
  split at h
  · cases h
  split at h
  · cases h
  · exact (Except.ok.inj h).symm

theorem bitmap_of_new {base : BitVec 64} {length : ℕ} {prior : Words} {r : Region}
    (h : Region.new true base length prior = .ok r) : r.bitmap = r.physBase := by
  simp only [Region.new, bind, Except.bind, pure, Except.pure] at h
  split at h
  · cases h
  split at h
  · cases h
  next hadd =>
    cases h
    exact add_early_eq hadd

/-- The pointers to the bitmaps are physical addresses during early boot. -/
theorem bitmap_of_addRegions {prior : BitVec 64 → Words} {p p' : Pool}
    {ranges : List (BitVec 64 × ℕ)} (h : addRegions true prior p ranges = .ok p')
    (hp : ∀ r ∈ p.regions, r.bitmap = r.physBase) : ∀ r ∈ p'.regions, r.bitmap = r.physBase := by
  induction ranges generalizing p with
  | nil =>
    obtain rfl : p = p' := Except.ok.inj h
    exact hp
  | cons range rest ih =>
    obtain ⟨base, length⟩ := range
    obtain ⟨p₁, hadd, hrest⟩ : ∃ p₁, addRegion true p base length (prior base) = .ok p₁ ∧
        addRegions true prior p₁ rest = .ok p' := by
      simp only [addRegions, bind, Except.bind] at h
      split at h
      · cases h
      · exact ⟨_, ‹_›, h⟩
    obtain ⟨r, hnew, hregions⟩ := exists_new_of_addRegion hadd
    refine ih hrest fun q hq => ?_
    rw [hregions, List.mem_append, List.mem_singleton] at hq
    rcases hq with hq | rfl
    · exact hp q hq
    · exact bitmap_of_new hnew

/-- What does not depend on bits and counters is kept. -/
theorem map_shape_congr {α : Type} (f : Region → α) (hf : ∀ r : Region, f r.shape = f r)
    {rs rs' : List Region} (h : rs.map Region.shape = rs'.map Region.shape) :
    rs.map f = rs'.map f := by
  have hshape : ∀ rs : List Region, rs.map f = (rs.map Region.shape).map f := by
    intro rs
    rw [List.map_map]
    exact List.map_congr_left fun r _ => (hf r).symm
  rw [hshape, h, ← hshape]

/-- What boot does, if it returns. -/
theorem osentry_ok (hspecs : ∀ x ∈ specs, x.1.toNat + x.2 ≤ 2 ^ 52) {prior : BitVec 64 → Words}
    (hboot : addRegions true prior Pool.empty specs = .ok p) (hm : m.isFirstPageTable = false)
    (hregions : (poolRegions m).map Region.shape = p.regions.map Region.shape) {info : BootInfo}
    (hplaced : info.Placed) (h : osentry (poolAllocator specs) info m = .ok (pt, m')) :
    ∃ p', Populated p' pt (info.bootSpace specs) m' ∧
      p'.regions.map Region.bitmap = info.bitmapPointers specs ∧ m'.earlyBoot = false ∧
      (∀ r ∈ p'.regions, r.BitmapFields) ∧ (info.framebuffer.isSome = true →
        physAllocatorMetadataStart.toNat + bitmapSpan specs < physAllocatorMetadataEnd.toNat) := by
  have hA := poolAllocator_handsOutFresh hspecs
  obtain ⟨pt, m₁, hnew, h⟩ := bind_eq_ok.mp h
  obtain ⟨u, m₂, hpopulate, h⟩ := bind_eq_ok.mp h
  obtain ⟨_, m₃, hfinish, h⟩ := bind_eq_ok.mp h
  obtain ⟨rfl, rfl⟩ := pure_eq_ok.mp h
  obtain rfl := modify_eq_ok.mp hfinish
  -- the end of early boot changes no translation
  suffices hend : ∃ p', Populated p' pt (info.bootSpace specs) m₂ ∧
      p'.regions.map Region.bitmap = info.bitmapPointers specs ∧
      (∀ r ∈ p'.regions, r.BitmapFields) ∧
      (info.framebuffer.isSome = true → physAllocatorMetadataStart.toNat + bitmapSpan specs <
        physAllocatorMetadataEnd.toNat) by
    obtain ⟨p', ⟨hsealed, hspace, hshapes⟩, hpointers, hrest⟩ := hend
    exact ⟨p', ⟨hsealed.step hA .finishedEarlyBoot, hspace, hshapes⟩, hpointers, rfl, hrest⟩
  have hstart := Populated.of_new hspecs hm hregions hnew
  -- the sections
  obtain ⟨_, m₃, hsections, hpopulate⟩ := bind_eq_ok.mp hpopulate
  obtain ⟨_, m₄, hphys, hsections⟩ := bind_eq_ok.mp hsections
  obtain ⟨-, rfl⟩ := requireM_eq_ok.mp hphys
  obtain ⟨_, m₄, hvirt, hsections⟩ := bind_eq_ok.mp hsections
  obtain ⟨-, rfl⟩ := requireM_eq_ok.mp hvirt
  have hkernel : Populated p pt info.kernelSpace m₃ :=
    hstart.mapKernelSectionsLoop hspecs hplaced.sectionsFit hsections
  have hfields := bitmapFields_of_addRegions hboot (by simp [Pool.empty])
  rcases hfb : info.framebuffers.getD [] with _ | ⟨_ | fbInfo, rest⟩ <;> rw [hfb] at hpopulate
  · -- no framebuffer
    obtain ⟨-, rfl⟩ := pure_eq_ok.mp hpopulate
    have hnone : info.framebuffer = none := by rw [BootInfo.framebuffer, hfb]; rfl
    rw [BootInfo.bootSpace, BootInfo.bitmapPointers, hnone]
    refine ⟨p, hkernel, ?_, hfields, by simp⟩
    -- the pointers are those of early boot
    have hpointers : p.regions.map Region.bitmap = p.regions.map Region.physBase :=
      List.map_congr_left (bitmap_of_addRegions hboot (by simp [Pool.empty]))
    have hbases := map_shape_congr Region.physBase (fun _ => rfl) hkernel.regions
    have hregistered : (poolRegions m₃).map Region.range = specs :=
      m₃.allocator.property.registered
    have hfirst := congrArg (List.map Prod.fst) hregistered
    rw [List.map_map] at hfirst
    exact hpointers.trans (hbases.symm.trans hfirst)
  · cases (requireM_eq_ok.mp hpopulate).1
  · have hsome : info.framebuffer = some fbInfo := by rw [BootInfo.framebuffer, hfb]; rfl
    obtain ⟨haligned, hlength⟩ := hplaced.framebuffer fbInfo hsome
    rw [BootInfo.bootSpace, BootInfo.bitmapPointers, hsome]
    obtain ⟨_, m₄, hadd, hpopulate⟩ := bind_eq_ok.mp hpopulate
    obtain ⟨g, m₅, hremap, hret⟩ := bind_eq_ok.mp hpopulate
    obtain ⟨-, rfl⟩ := pure_eq_ok.mp hret
    have hfbase : physApertureStart.toNat ≤ kFramebufferBase.toNat := by decide
    have hscreen := hkernel.addRequired hspecs (framebufferRegion_fits haligned hlength) hfbase hadd
    -- the bitmaps
    have hlen : specs.length ≤ 0 + Pool.kMaxRegions := by
      have hbounded := m₄.allocator.property.bounded
      rw [← m₄.allocator.property.registered, List.length_map, Nat.zero_add]
      exact hbounded
    obtain ⟨p', hp', hpointers, hfields', hspan⟩ :=
      hscreen.applyVirtualMapLoop hspecs hfields hlen (by decide)
      le_rfl (by decide) hremap
    refine ⟨p', hp', List.ext_getElem? fun j => ?_, hfields', fun _ => hspan⟩
    rw [List.getElem?_map, hpointers j, if_neg (Nat.not_lt_zero j), List.getElem?_map]
    rfl

end

end KushOs.Boot
