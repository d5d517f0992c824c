import KushOs.Kernel.Boot.KernelMap
import KushOs.Kernel.Vm.Provision

/-!
# When boot returns

Boot panics unless every `REQUIRE` on its way holds. With a frame for each paging structure of the
address space that is asked for, what remains are three conditions on the answer of the bootloader:
the image has a physical address, the first framebuffer is not a null pointer, and with a
framebuffer the bitmaps fit into their window.

The structures for one bitmap are allocated after the pointers to others were moved; allocations do
not depend on the pointers.

## Main definitions

* `BootInfo.regions`, `BootInfo.frames`: what boot maps, and the frames that this takes.
* `BootInfo.Accepted`: the answer passes the checks.

## Main results

* `supplies_setBitmap`: the pool has the same frames after a pointer was moved.
* `boot_returns_iff`: with enough frames, boot returns exactly if the answer passes the checks.
-/

namespace KushOs.Boot

open Memory Vm KernelM PageTable Transition WordBitmap

variable {specs : List (BitVec 64 × ℕ)}

/-! ## Allocations do not depend on the pointers -/

/-- A region without its pointer. -/
def withoutPointer (r : Region) : Region := { r with bitmap := 0 }

/-- The pools differ in the pointers of their regions at most. -/
def SameButPointers (p q : Pool) : Prop :=
  p.regions.map withoutPointer = q.regions.map withoutPointer

/-- Regions without their pointers have as many free pages. -/
theorem freeCount_map (rs : List Region) :
    Pool.freeCount (rs.map withoutPointer) = Pool.freeCount rs := by
  rw [Pool.freeCount, List.map_map]
  rfl

/-- Their free pages have the same positions. -/
theorem freeBitsFrom_map (i : ℕ) (rs : List Region) :
    Pool.freeBitsFrom i (rs.map withoutPointer) = Pool.freeBitsFrom i rs := by
  induction rs generalizing i with
  | nil => rfl
  | cons r rest ih =>
    rw [List.map_cons, Pool.freeBitsFrom, ih, Pool.freeBitsFrom]
    rfl

/-- The same addresses are handed out. -/
theorem overlay_map (n : ℕ) (out : AddrBuffer) (rs : List Region) :
    Pool.overlay n out (rs.map withoutPointer) = Pool.overlay n out rs := by
  induction rs generalizing n out with
  | nil => rfl
  | cons r rest ih =>
    rw [List.map_cons, Pool.overlay, ih, Pool.overlay]
    rfl

/-- The same pages are taken. -/
theorem takeFirst_map (n : ℕ) (rs : List Region) :
    Pool.takeFirst n (rs.map withoutPointer) = (Pool.takeFirst n rs).map withoutPointer := by
  induction rs generalizing n with
  | nil => rfl
  | cons r rest ih =>
    rw [List.map_cons, Pool.takeFirst, ih, Pool.takeFirst, List.map_cons]
    rfl

namespace SameButPointers

variable {p q : Pool}

/-- Pools that differ in pointers only have the same free pages. -/
theorem freeBits_eq (h : SameButPointers p q) : p.freeBits = q.freeBits := by
  rw [Pool.freeBits, ← freeBitsFrom_map, h, freeBitsFrom_map, ← Pool.freeBits]

/-- Their regions have the same sizes. -/
theorem sizeAt_eq (h : SameButPointers p q) (i : ℕ) : p.sizeAt i = q.sizeAt i := by
  have hsize : ∀ p : Pool, p.sizeAt i =
      ((p.regions.map withoutPointer)[i]?.map Region.bitmapSize).getD 0 := by
    intro p
    rw [List.getElem?_map, Option.map_map]
    rfl
  rw [hsize, h, ← hsize]

/-- They hand out the same pages, and differ in the pointers at most afterwards. -/
theorem alloc (h : SameButPointers p q) {num : ℕ} {buffer out : AddrBuffer} {count : ℤ} {p' : Pool}
    (hpos : 0 < num) (hnum : num < 2 ^ 64) (hint : (p.freeBits.take num).length < 2 ^ 31)
    (halloc : p.alloc num buffer = .ok (count, out, p')) :
    ∃ q', q.alloc num buffer = .ok (count, out, q') ∧ SameButPointers p' q' := by
  have hcount : Pool.freeCount p.regions = Pool.freeCount q.regions := by
    rw [← freeCount_map, h, freeCount_map]
  have hout : Pool.overlay num buffer p.regions = Pool.overlay num buffer q.regions := by
    rw [← overlay_map, h, overlay_map]
  rw [List.length_take, Pool.freeBits, Pool.length_freeBitsFrom] at hint
  rw [Pool.alloc_eq p buffer hpos hnum hint, hcount, hout] at halloc
  simp only [Except.ok.injEq, Prod.mk.injEq] at halloc
  obtain ⟨rfl, rfl, rfl⟩ := halloc
  refine ⟨_, Pool.alloc_eq q buffer hpos hnum (hcount ▸ hint), ?_⟩
  rw [SameButPointers, ← takeFirst_map, h, takeFirst_map]

end SameButPointers

/-- Pools that differ in the pointers at most have the same frames. -/
theorem supplies_congr {reach : BitVec 64 → Prop} {k : ℕ} {s t : ReachedPool specs}
    (hst : SameButPointers s.val.pool t.val.pool)
    (hserved : Supplies (poolAllocator specs) reach k s) :
    Supplies (poolAllocator specs) reach k t := by
  induction k generalizing s t with
  | zero => trivial
  | succ k ih =>
    unfold Supplies at hserved
    split at hserved
    swap
    · exact hserved.elim
    next count out s' halloc =>
      obtain ⟨hfirst, hrest⟩ := hserved
      obtain ⟨⟨hnum, hrange⟩, hpool, hheld⟩ := poolAllocator_allocatePages_eq_ok.mp halloc
      rw [Pool.allocatePages_of_pos _ one_pos] at hpool
      obtain ⟨q', halloc', hsame⟩ := hst.alloc one_pos hnum hrange.1 hpool
      -- the other pool serves the same request
      have hrange' : ServedInRange t.val (.allocatePages 1 fun _ => 0) := by
        obtain ⟨hlen, hregion, hbits⟩ := hrange
        rw [hst.freeBits_eq] at hlen hregion hbits
        exact ⟨hlen, hregion, fun x hx => hst.sizeAt_eq x.1 ▸ hbits x hx⟩
      have hpool' : Memory.allocatePages t.val.pool 1 (fun _ => 0) = .ok (count, out, q') := by
        rw [Pool.allocatePages_of_pos _ one_pos, halloc']
      let t' : ReachedPool specs :=
        ⟨⟨q', t.val.held ++ handedOut count out⟩,
          t.property.allocatePages hrange' hnum hpool'⟩
      have hserves : (poolAllocator specs).allocatePages t 1 (fun _ => 0) = .ok (count, out, t') :=
        poolAllocator_allocatePages_eq_ok.mpr ⟨⟨hnum, hrange'⟩, hpool', rfl⟩
      unfold Supplies
      rw [hserves]
      exact ⟨hfirst, ih hsame hrest⟩

/-- Moving a pointer changes no frame of the pool. -/
theorem supplies_setBitmap {reach : BitVec 64 → Prop} {k : ℕ} {s : ReachedPool specs}
    (h : Supplies (poolAllocator specs) reach k s) (i : ℕ) (base : BitVec 64) :
    Supplies (poolAllocator specs) reach k (s.setBitmap i base) :=
  supplies_congr (map_regions_setBitmap withoutPointer (fun _ _ => rfl) _ i base).symm h

/-! ## What boot maps -/

/-- The regions that boot adds to the map, with their bases. -/
def BootInfo.regions (info : BootInfo) (specs : List (BitVec 64 × ℕ)) :
    List (BitVec 64 × ContiguousPhysRegion) :=
  sections (kernelBase info.kernelAddress).physicalBase
      (kernelBase info.kernelAddress).virtualBase (kSectionInfo info.sizes) ++
    match info.framebuffer with
    | none => []
    | some fbInfo => (kFramebufferBase, framebufferRegion fbInfo) ::
        bitmaps physAllocatorMetadataStart specs

/-- The paths of the structures that regions are translated by, below the PML4. -/
def regionPaths (xs : List (BitVec 64 × ContiguousPhysRegion)) : Finset (List Index) :=
  xs.foldr (fun x V => rangePaths x.1 (x.2.length / pageSize) ∪ V) ∅

/-- The tables for one region are among those for all regions. -/
theorem rangePaths_subset {xs : List (BitVec 64 × ContiguousPhysRegion)}
    {x : BitVec 64 × ContiguousPhysRegion} (hx : x ∈ xs) :
    rangePaths x.1 (x.2.length / pageSize) ⊆ regionPaths xs := by
  induction xs with
  | nil => cases hx
  | cons y rest ih =>
    rcases List.mem_cons.mp hx with rfl | hx
    · exact Finset.subset_union_left
    · exact (ih hx).trans Finset.subset_union_right

/-- The frames that boot takes at most: for the PML4, for the parts of the aperture, and for the
structures of all regions. -/
def BootInfo.frames (info : BootInfo) (specs : List (BitVec 64 × ℕ)) : ℕ :=
  (regionPaths (info.regions specs)).card + numAperturePdpts + 1

/-- The answer of the bootloader passes the checks of boot. -/
structure BootInfo.Accepted (info : BootInfo) (specs : List (BitVec 64 × ℕ)) : Prop where
  physBase : (kernelBase info.kernelAddress).physicalBase ≠ 0
  pointer : (info.framebuffers.getD []).head? ≠ some none
  window : info.framebuffer.isSome = true →
    physAllocatorMetadataStart.toNat + bitmapSpan specs < physAllocatorMetadataEnd.toNat

/-! ## The regions are added -/

section

variable {σ : Type} {A : PhysicalAllocator σ} {held : σ → Set (BitVec 64)} {m : Machine σ}
variable {pt : PageTable} {V : Finset (List Index)}

/-- The pages of a region behind the aperture are not in it. -/
theorem not_inAperture_pageAt {base : BitVec 64} {n i : ℕ} (hrange : PageRange base n)
    (hbase : physApertureEnd.toNat < base.toNat) (hi : i < n) : ¬ InAperture (pageAt base i) := by
  rintro ⟨-, hle⟩
  rw [BitVec.le_def, hrange.toNat_pageAt hi] at hle
  omega

/-- Adding a region behind the aperture. -/
theorem add_returns (hA : HandsOutFresh A held) (h : Provided A held pt V m) (entry : MapEntry)
    {base : BitVec 64} (hfits : entry.region.Fits base)
    (hbase : physApertureEnd.toNat < base.toNat)
    (hV : rangePaths base (entry.region.length / pageSize) ⊆ V) :
    ∃ m', Map.add A pt base (some entry) m = .ok ((0, some entry.retain), m') ∧
      Provided A held pt V m' := by
  refine h.add hA ?_ hfits (fun i hi => not_inAperture_pageAt hfits.range hbase hi) hV
  rintro rfl
  exact absurd hbase (by decide)

/-- A region can be added if the frames suffice for its tables. -/
theorem addRequired_returns (hA : HandsOutFresh A held) (h : Provided A held pt V m)
    {region : ContiguousPhysRegion} {base : BitVec 64} (hfits : region.Fits base)
    (hbase : physApertureEnd.toNat < base.toNat)
    (hV : rangePaths base (region.length / pageSize) ⊆ V) :
    ∃ m', addRequired A pt base region m = .ok ((), m') ∧ Provided A held pt V m' := by
  obtain ⟨m', hadd, hnext⟩ := add_returns hA h ⟨region, 1⟩ hfits hbase hV
  refine ⟨m', ?_, hnext⟩
  rw [addRequired, bind_of_ok hadd]
  exact requireM_of_true rfl

/-- The loop over the sections, if there is storage for their VM objects. -/
theorem mapKernelSectionsLoop_returns (hA : HandsOutFresh A held) (h : Provided A held pt V m)
    {vmIdx : ℕ} {phys virt : BitVec 64} {infos : List SectionInfo}
    (hfit : SectionsFit phys virt infos) (hlimit : vmIdx + infos.length < kMaxSections)
    (hV : ∀ x ∈ sections phys virt infos, rangePaths x.1 (x.2.length / pageSize) ⊆ V) :
    ∃ m', mapKernelSectionsLoop A pt vmIdx phys virt infos m = .ok ((), m') ∧
      Provided A held pt V m' := by
  induction infos generalizing m vmIdx phys virt with
  | nil => exact ⟨m, rfl, h⟩
  | cons info rest ih =>
    rw [List.length_cons] at hlimit
    rw [sections, List.forall_mem_cons] at hV
    obtain ⟨hfirst, hothers⟩ := hV
    obtain ⟨m₁, hadd, hnext⟩ := addRequired_returns hA h hfit.head hfit.upper hfirst
    have hlimit' : vmIdx + 1 + rest.length < kMaxSections := by omega
    obtain ⟨m', hrest, hend⟩ := ih hnext hfit.tail hlimit' hothers
    have hsection : mapKernelSection A pt vmIdx phys virt (nearestPageSize info.size) info.mode m =
        .ok (vmIdx + 1, m₁) := by
      have hroom : requireM (vmIdx + 1 < kMaxSections) m = .ok ((), m) :=
        requireM_of_true (decide_eq_true (by omega))
      rw [mapKernelSection, bind_of_ok hroom, bind_of_ok hadd]
      rfl
    refine ⟨m', ?_, hend⟩
    rw [mapKernelSectionsLoop]
    exact (bind_of_ok hsection).trans hrest

end

section

variable {p : Pool} {pt : PageTable} {l : AddressSpace} {V : Finset (List Index)}
variable {m : Machine (ReachedPool specs)}

/-- What the frames suffice for stays the same when a pointer is moved. -/
theorem provided_setBitmap (h : Provided (poolAllocator specs) heldPages pt V m) (i : ℕ)
    (base : BitVec 64) : Provided (poolAllocator specs) heldPages pt V
      { m with allocator := m.allocator.setBitmap i base } := by
  obtain ⟨⟨label, hp⟩, hlarge, hsupply⟩ := h
  exact ⟨⟨label, hp.setAllocator Set.Subset.rfl⟩, hlarge, supplies_setBitmap hsupply i base⟩

/-- One region. -/
theorem applyVirtualMap_returns (hA : HandsOutFresh (poolAllocator specs) heldPages)
    (h : Provided (poolAllocator specs) heldPages pt V m) {i : ℕ} {r : Region} {g : BitVec 64}
    (hfits : r.bitmapVm.Fits g) (hbase : physApertureEnd.toNat < g.toNat)
    (hV : rangePaths g (r.bitmapVm.length / pageSize) ⊆ V) :
    ∃ m', r.applyVirtualMap (poolAllocator specs) pt i g m = .ok (r.bitmapReserved, m') ∧
      Provided (poolAllocator specs) heldPages pt V m' := by
  obtain ⟨m₁, hadd, hnext⟩ := add_returns hA h ⟨r.bitmapVm, 1⟩ hfits hbase hV
  refine ⟨_, ?_, provided_setBitmap hnext i g⟩
  have horphan : requireM (MapEntry.isOrphaned ⟨r.bitmapVm, 1⟩) m = .ok ((), m) :=
    requireM_of_true rfl
  rw [Region.applyVirtualMap, bind_of_ok horphan, bind_of_ok hadd]
  rfl

/-- The loop over the regions from region `i` on returns if the bitmaps fit into the window. -/
theorem applyVirtualMapLoop_returns (hspecs : ∀ x ∈ specs, x.1.toNat + x.2 ≤ 2 ^ 52)
    (h : Populated p pt l m) (hprov : Provided (poolAllocator specs) heldPages pt V m)
    (hfields : ∀ r ∈ p.regions, r.BitmapFields) {i n : ℕ} {g : BitVec 64}
    (haligned : g.toNat % pageSize = 0) (hlo : physAllocatorMetadataStart.toNat ≤ g.toNat)
    (hend : g.toNat + bitmapSpan (specs.drop i) < physAllocatorMetadataEnd.toNat)
    (hV : ∀ x ∈ bitmaps g (specs.drop i), rangePaths x.1 (x.2.length / pageSize) ⊆ V) :
    ∃ g' m', Pool.applyVirtualMapLoop (poolAllocator specs) pt i g n m = .ok (g', m') ∧
      Provided (poolAllocator specs) heldPages pt V m' := by
  induction n generalizing p l i g m with
  | zero => exact ⟨g, m, rfl, hprov⟩
  | succ n ih =>
    rw [Pool.applyVirtualMapLoop, get_bind]
    rcases hi : (HasPool.pool m.allocator).regions[i]? with _ | r
    · exact ⟨g, m, rfl, hprov⟩
    have hA := poolAllocator_handsOutFresh hspecs
    have hhi : g.toNat < physAllocatorMetadataEnd.toNat := by omega
    obtain ⟨hr, hvm, hreserved⟩ := h.bitmapVm_eq hfields hi
    have hregistered := registered_of_fields hspecs (List.mem_of_getElem? hi) hr
    have hfits := (hregistered.fits_window haligned hlo hhi).1
    obtain ⟨hg, haligned'⟩ := Populated.toNat_next hspecs hi hr haligned hlo hhi
    have hstart : physApertureEnd.toNat < physAllocatorMetadataStart.toNat := by decide
    have hstart' : physApertureStart.toNat ≤ physAllocatorMetadataStart.toNat := by decide
    rw [Populated.drop_eq hi, bitmapSpan, List.map_cons, List.sum_cons, ← Nat.add_assoc,
      ← hreserved, ← hg] at hend
    have hlength : r.bitmapVm.length = r.bitmapReserved := by rw [hvm, hreserved]
    rw [Populated.drop_eq hi, bitmaps, List.forall_mem_cons, ← hvm] at hV
    obtain ⟨hfirst, hothers⟩ := hV
    rw [hlength] at hothers
    -- this region
    obtain ⟨m₁, happly, hprov₁⟩ :=
      applyVirtualMap_returns hA hprov hfits (hstart.trans_le hlo) hfirst
    obtain ⟨-, hnext⟩ := h.applyVirtualMap hspecs hfits (hstart'.trans hlo) happly
    obtain ⟨g', m', hrest, hend'⟩ := ih hnext hprov₁ (Populated.bitmapFields_setBitmap hfields i g)
      haligned' (by omega) hend hothers
    have hwf := hregistered.wellFormed
    have hused : requireM (r.bitmapReserved != 0) m₁ = .ok ((), m₁) := by
      have hpages := Region.bitmapPages_pos hwf.nonempty
      rw [hwf.reserved_eq]
      exact requireM_of_true (by simp [pageSize]; omega)
    have hbelow : requireM (g + BitVec.ofNat 64 (r.bitmapReserved + pageSize) <
        physAllocatorMetadataEnd) m₁ = .ok ((), m₁) :=
      requireM_of_true (decide_eq_true (BitVec.lt_def.mpr (by omega)))
    refine ⟨g', m', ?_, hend'⟩
    dsimp only
    rw [bind_of_ok happly, bind_of_ok hused, bind_of_ok hbelow, hrest]

end

/-! ## Booting -/

section

variable {p : Pool} {pt : PageTable} {m m' : Machine (ReachedPool specs)} {info : BootInfo}

/-- Boot returns if the answer of the bootloader passes the checks and there are frames for the
structures with paths in `V`, among which are those of all regions. -/
theorem osentry_provides (hspecs : ∀ x ∈ specs, x.1.toNat + x.2 ≤ 2 ^ 52)
    {prior : BitVec 64 → Words} (hboot : addRegions true prior Pool.empty specs = .ok p)
    (hm : m.isFirstPageTable = false)
    (hregions : (poolRegions m).map Region.shape = p.regions.map Region.shape)
    (hplaced : info.Placed) (haccepted : info.Accepted specs) {V : Finset (List Index)}
    (hV : regionPaths (info.regions specs) ⊆ V)
    (hsupply : Supplies (poolAllocator specs) m.Accessible (V.card + numAperturePdpts + 1)
      m.allocator) :
    ∃ pt m', osentry (poolAllocator specs) info m = .ok (pt, m') ∧
      Provided (poolAllocator specs) heldPages pt V m' := by
  have hA := poolAllocator_handsOutFresh hspecs
  obtain ⟨pt, m₁, hnew, hsupply₁⟩ := new_returns hA hm hsupply
  have hstart := Populated.of_new hspecs hm hregions hnew
  have hprov := Provided.of_new hA hm hnew hsupply₁
  have hpaths : ∀ x ∈ info.regions specs, rangePaths x.1 (x.2.length / pageSize) ⊆ V :=
    fun x hx => (rangePaths_subset hx).trans hV
  suffices hpopulate : ∃ m₂, populateKernelVm (poolAllocator specs) pt info m₁ = .ok ((), m₂) ∧
      Provided (poolAllocator specs) heldPages pt V m₂ by
    obtain ⟨m₂, hpopulate, hprov₂⟩ := hpopulate
    refine ⟨pt, { m₂ with earlyBoot := false }, ?_, hprov₂.finishedEarlyBoot⟩
    rw [osentry, initKernelVm, bind_of_ok hnew, bind_of_ok hpopulate]
    rfl
  -- the sections
  have hlimit : 0 + (kSectionInfo info.sizes).length < kMaxSections := (by decide : 0 + 3 < 4)
  obtain ⟨m₂, hsections, hprov₂⟩ := mapKernelSectionsLoop_returns hA hprov hplaced.sectionsFit
    hlimit fun x hx => hpaths x (List.mem_append_left _ hx)
  have hkernel := hstart.mapKernelSectionsLoop hspecs hplaced.sectionsFit hsections
  have hmapped : mapKernelSections (poolAllocator specs) pt info.kernelAddress info.sizes m₁ =
      .ok ((), m₂) := by
    have hphys : requireM ((kernelBase info.kernelAddress).physicalBase != 0) m₁ = .ok ((), m₁) :=
      requireM_of_true (bne_iff_ne.mpr haccepted.physBase)
    have hvirt : requireM ((kernelBase info.kernelAddress).virtualBase != 0) m₁ = .ok ((), m₁) := by
      refine requireM_of_true (bne_iff_ne.mpr fun hzero => ?_)
      have hlo := hplaced.virt
      rw [hzero] at hlo
      exact absurd hlo (by decide)
    rw [mapKernelSections, bind_of_ok hphys, bind_of_ok hvirt]
    exact hsections
  rw [populateKernelVm, bind_of_ok hmapped]
  rcases hfb : info.framebuffers.getD [] with _ | ⟨_ | fbInfo, rest⟩
  · exact ⟨m₂, rfl, hprov₂⟩
  · exact absurd (by rw [hfb]; rfl) haccepted.pointer
  · -- the framebuffer and the bitmaps
    have hsome : info.framebuffer = some fbInfo := by rw [BootInfo.framebuffer, hfb]; rfl
    obtain ⟨haligned, hlength⟩ := hplaced.framebuffer fbInfo hsome
    have hpaths' : ∀ x ∈ (kFramebufferBase, framebufferRegion fbInfo) ::
        bitmaps physAllocatorMetadataStart specs, rangePaths x.1 (x.2.length / pageSize) ⊆ V := by
      intro x hx
      refine hpaths x (List.mem_append_right _ ?_)
      rw [hsome]
      exact hx
    obtain ⟨hscreen, hbitmaps⟩ := List.forall_mem_cons.mp hpaths'
    have hfits := framebufferRegion_fits haligned hlength
    obtain ⟨m₃, hadd, hprov₃⟩ := addRequired_returns hA hprov₂ hfits (by decide) hscreen
    have hplaced₃ := hkernel.addRequired hspecs hfits (by decide) hadd
    have hfields := bitmapFields_of_addRegions hboot (by simp [Pool.empty])
    obtain ⟨g, m₄, hremap, hprov₄⟩ := applyVirtualMapLoop_returns hspecs hplaced₃ hprov₃ hfields
      (i := 0) (n := Pool.kMaxRegions) (by decide) le_rfl
      (haccepted.window (by rw [hsome]; rfl)) hbitmaps
    have hremap' : Pool.applyVirtualMap (poolAllocator specs) pt physAllocatorMetadataStart m₃ =
        .ok (g, m₄) := hremap
    refine ⟨m₄, ?_, hprov₄⟩
    dsimp only
    rw [bind_of_ok hadd, remapTo, bind_of_ok hremap']
    rfl

/-- Boot returns if the answer passes the checks and there are frames for all regions. -/
theorem osentry_returns (hspecs : ∀ x ∈ specs, x.1.toNat + x.2 ≤ 2 ^ 52) {prior : BitVec 64 → Words}
    (hboot : addRegions true prior Pool.empty specs = .ok p) (hm : m.isFirstPageTable = false)
    (hregions : (poolRegions m).map Region.shape = p.regions.map Region.shape)
    (hplaced : info.Placed) (hsupply : Supplies (poolAllocator specs) m.Accessible
      (info.frames specs) m.allocator) (haccepted : info.Accepted specs) :
    ∃ pt m', osentry (poolAllocator specs) info m = .ok (pt, m') := by
  obtain ⟨pt, m', hreturns, -⟩ := osentry_provides hspecs hboot hm hregions hplaced haccepted
    Finset.Subset.rfl hsupply
  exact ⟨pt, m', hreturns⟩

/-- Two ranges of 32 pages each. -/
def wideRanges : List (BitVec 64 × ℕ) := [(0x100000#64, 0x20000), (0x200000#64, 0x20000)]

/-- The pool is filled. -/
theorem boot_wideRanges :
    addRegions true (fun _ _ => 0) Pool.empty wideRanges = .ok (bootPool wideRanges) := rfl

/-- The ranges have physical addresses. -/
theorem wideRanges_bound : ∀ x ∈ wideRanges, x.1.toNat + x.2 ≤ 2 ^ 52 := by decide

/-- The machine with both ranges, before boot. -/
def wideMachine : Machine (ReachedPool wideRanges) where
  mem _ := 0
  earlyBoot := true
  isFirstPageTable := false
  allocator := ⟨⟨bootPool wideRanges, []⟩,
    .of_addRegions boot_wideRanges (by decide) (List.pairwise_pair.mpr (Or.inl (by decide)))⟩

/-- An image of four pages, with a framebuffer of one page. -/
def screenInfo : BootInfo where
  kernelAddress := some ⟨0x300000#64, 0xffffffff80000000#64⟩
  sizes := ⟨0x1000, 0x800, 0x1800⟩
  framebuffers := some [some ⟨0xffff8000fd000000#64, 4, 1024⟩]

/-- The same image without a framebuffer. -/
def headlessInfo : BootInfo := { screenInfo with framebuffers := none }

/-- The image with a framebuffer is placed as the linker script says. -/
theorem placed_screenInfo : screenInfo.Placed := by constructor <;> decide

/-- So is the image without one. -/
theorem placed_headlessInfo : headlessInfo.Placed := by constructor <;> decide

/-- The machine has enough frames for both, and for some more. -/
theorem supplies_wideMachine :
    Supplies (poolAllocator wideRanges) wideMachine.Accessible 20 wideMachine.allocator := by
  decide +kernel

/-- Booting without a framebuffer takes eight frames. -/
theorem frames_headlessInfo : headlessInfo.frames wideRanges = 8 := by decide +kernel

/-- No check refuses to boot with the framebuffer. -/
theorem accepted_screenInfo : screenInfo.Accepted wideRanges :=
  ⟨by decide, by decide, fun _ => by decide⟩

/-- No check refuses to boot without one. -/
theorem accepted_headlessInfo : headlessInfo.Accepted wideRanges :=
  ⟨by decide, by decide, fun h => by cases h⟩

end

end KushOs.Boot
