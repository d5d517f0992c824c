import KushOs.Kernel.Boot.BootReturns
import KushOs.Kernel.Memory.Restore
import KushOs.Kernel.Vm.VAllocSpace

/-!
# The kernel after boot

After boot the kernel allocates and frees virtual pages. In every state of every such run the
address space is known exactly: it is the one that boot leaves behind, with the live allocations
placed in it. Nothing that the allocator does affects the image, the framebuffer, the aperture or
the window of the bitmaps, and the pointers to the bitmaps stay what they are at the end of boot.

Without a framebuffer `PopulateKernelVm` returns before the bitmaps are remapped, so that their
pointers lead nowhere in the kernel's map, in every state from boot on.

## Main definitions

* `Running`: the invariant of the runs.
* `BitmapsReachable`: the pointers of the pool lead to its bitmaps.

## Main results

* `kernel_address_space`: the address space, and the pointers to the bitmaps.
* `bitmaps_reachable_iff`: when the pointers lead to the bitmaps.
-/

namespace KushOs.Boot

open Memory Vm KernelM PageTable PageAllocator Transition WordBitmap

variable {specs : List (BitVec 64 × ℕ)}

/-! ## What releases keep -/

/-- Releases keep the shapes of all regions. -/
theorem poolAllocator_shape_free {s s' : ReachedPool specs} {addrs : List (BitVec 64)} {count : ℤ}
    (h : (poolAllocator specs).freePages s addrs = .ok (count, s')) :
    s'.val.pool.regions.map Region.shape = s.val.pool.regions.map Region.shape := by
  obtain ⟨-, hpool, -⟩ := poolAllocator_freePages_eq_ok.mp h
  exact Pool.map_shape_of_freePages hpool

/-! ## Runs -/

section

variable {p : Pool} {pt : PageTable} {l : AddressSpace} {m m' : Machine (ReachedPool specs)}
variable {s t : VAllocState (ReachedPool specs)} {info : BootInfo}

/-- After boot: outside the region of the allocator the address space is `l`, and the regions of the
pool are those of `p` apart from their bits and counters. -/
structure Running (p : Pool) (pt : PageTable) (l : AddressSpace)
    (s : VAllocState (ReachedPool specs)) : Prop where
  tracks : s.Tracks heldPages pt l
  regions : (poolRegions s.machine).map Region.shape = p.regions.map Region.shape

namespace Running

theorem step (hspecs : ∀ x ∈ specs, x.1.toNat + x.2 ≤ 2 ^ 52) (h : Running p pt l s)
    {op : VAllocOp} (hstep : VAllocStep (poolAllocator specs) pt s op t) : Running p pt l t := by
  refine ⟨h.tracks.step (poolAllocator_handsOutFresh hspecs) hstep, ?_⟩
  let kept (a : ReachedPool specs) : Prop :=
    a.val.pool.regions.map Region.shape = p.regions.map Region.shape
  have hstart : kept s.machine.allocator := h.regions
  have hkept : kept t.machine.allocator :=
    hstep.keepsAllocator (fun hfree hkept => (poolAllocator_shape_free hfree).trans hkept)
      (fun halloc hkept => (poolAllocator_shape halloc).trans hkept) hstart
  exact hkept

theorem run (hspecs : ∀ x ∈ specs, x.1.toNat + x.2 ≤ 2 ^ 52) (h : Running p pt l s)
    {calls : List VAllocOp} (hrun : Run (VAllocStep (poolAllocator specs) pt) s calls t) :
    Running p pt l t :=
  Run.preserves (fun _ _ _ hs hstep => hs.step hspecs hstep) hrun h

end Running

/-- Boot maps nothing in the region of the virtual page allocator. -/
theorem bootSpace_eq_none (hplaced : info.Placed) (hwindow : info.framebuffer.isSome = true →
      physAllocatorMetadataStart.toNat + bitmapSpan specs < physAllocatorMetadataEnd.toNat)
    {w : BitVec 64} (hw : InRegion w) : info.bootSpace specs w = none := by
  obtain ⟨hlo, hhi⟩ := hw
  have hstart : vAllocStart.toNat = 0xffff900000000000 := rfl
  have hend : vAllocEnd.toNat = 0xffff90ffffffffff := rfl
  have hkernel : info.kernelSpace w = none := by
    have haperture : physApertureEnd.toNat = 0xffff81ffffffffff := rfl
    rw [hplaced.kernelSpace_eq (by omega)]
    refine if_neg fun hin => ?_
    have hle := BitVec.le_def.mp hin.2
    omega
  rw [BootInfo.bootSpace]
  rcases hfb : info.framebuffer with _ | fbInfo
  · exact hkernel
  · have hspan := hwindow (by rw [hfb]; rfl)
    have hfirst : physAllocatorMetadataStart.toNat = 0xffff820000000000 := rfl
    have hlast : physAllocatorMetadataEnd.toNat = 0xffff82003fffffff := rfl
    have hscreen : kFramebufferBase.toNat = 0xffffe80000000000 := rfl
    -- the bitmaps are before the region, the framebuffer is behind it
    dsimp only
    rw [AddressSpace.placeAll_of_forall, AddressSpace.place_of_not_inRange, hkernel]
    · unfold InRange
      omega
    · intro x hx hin
      have hbehind := (mem_bitmaps (by omega) hx).2
      unfold InRange at hin
      omega

/-- What holds in every state after boot. -/
theorem running_of_osentry (hspecs : ∀ x ∈ specs, x.1.toNat + x.2 ≤ 2 ^ 52)
    {prior : BitVec 64 → Words} (hboot : addRegions true prior Pool.empty specs = .ok p)
    (hm : m.isFirstPageTable = false)
    (hregions : (poolRegions m).map Region.shape = p.regions.map Region.shape)
    (hplaced : info.Placed) (h : osentry (poolAllocator specs) info m = .ok (pt, m'))
    {calls : List VAllocOp}
    (hrun : Run (VAllocStep (poolAllocator specs) pt) ⟨m', .init, [], []⟩ calls s) :
    ∃ p', Running p' pt (info.bootSpace specs) s ∧
      p'.regions.map Region.bitmap = info.bitmapPointers specs ∧
      (∀ r ∈ p'.regions, r.BitmapFields) ∧ (info.framebuffer.isSome = true →
        physAllocatorMetadataStart.toNat + bitmapSpan specs < physAllocatorMetadataEnd.toNat) := by
  obtain ⟨p', hp', hpointers, -, hfields, hwindow⟩ :=
    osentry_ok hspecs hboot hm hregions hplaced h
  have hstart : Running p' pt (info.bootSpace specs) ⟨m', .init, [], []⟩ :=
    ⟨.init hp'.sealed hp'.space fun w => bootSpace_eq_none hplaced hwindow, hp'.regions⟩
  exact ⟨p', hstart.run hspecs hrun, hpointers, hfields, hwindow⟩

/-- In every state of every run of `VAlloc` and `VFree` after boot, the allocator is sound, the
address space is the one that the bootloader's answer describes with the live allocations placed in
it, and the pointers to the bitmaps are in the window if there is a framebuffer, and physical
addresses otherwise. A request for frames that is not served in range counts as a panic, as in all
results about `poolAllocator`. -/
theorem kernel_address_space (hspecs : ∀ x ∈ specs, x.1.toNat + x.2 ≤ 2 ^ 52)
    {prior : BitVec 64 → Words} (hboot : addRegions true prior Pool.empty specs = .ok p)
    (hm : m.isFirstPageTable = false)
    (hregions : (poolRegions m).map Region.shape = p.regions.map Region.shape)
    (hplaced : info.Placed) (h : osentry (poolAllocator specs) info m = .ok (pt, m'))
    {calls : List VAllocOp}
    (hrun : Run (VAllocStep (poolAllocator specs) pt) ⟨m', .init, [], []⟩ calls s) :
    s.Sound heldPages pt ∧
      hardwareAccess s.machine pt.pml4Phys = (info.bootSpace specs).placeLive s.live ∧
      (poolRegions s.machine).map Region.bitmap = info.bitmapPointers specs := by
  obtain ⟨p', hs, hpointers, -, hwindow⟩ :=
    running_of_osentry hspecs hboot hm hregions hplaced h hrun
  have hbitmaps := map_shape_congr Region.bitmap (fun _ => rfl) hs.regions
  exact ⟨hs.tracks.inv.sound,
    hs.tracks.space_eq fun w => bootSpace_eq_none hplaced hwindow, hbitmaps.trans hpointers⟩

/-- On the machine with both ranges, boot returns, and a byte can be allocated. -/
theorem exists_alloc_wide : ∃ pt m' s phys,
    osentry (poolAllocator wideRanges) screenInfo wideMachine = .ok (pt, m') ∧
      Run (VAllocStep (poolAllocator wideRanges) pt) ⟨m', .init, [], []⟩ [.vAlloc 1] s ∧
      s.live = [⟨vAllocStart, 1, [phys]⟩] := by
  let V := regionPaths (screenInfo.regions wideRanges) ∪ structurePaths vAllocStart
  let q : List Index := [0, 0, 0, 0]
  have hcard : (insert q V).card + numAperturePdpts + 1 = 18 := by decide +kernel
  have hq : q ∉ V := by decide +kernel
  obtain ⟨pt, m', hboot, hprov⟩ := osentry_provides wideRanges_bound boot_wideRanges rfl rfl
    placed_screenInfo accepted_screenInfo
    (Finset.subset_union_left.trans (Finset.subset_insert q V))
    (supplies_wideMachine.mono (hcard.le.trans (by omega)))
  obtain ⟨g, m₂, halloc⟩ := alloc_init_returns (poolAllocator_handsOutFresh wideRanges_bound) hprov
    le_rfl hq Finset.subset_union_right
  obtain ⟨-, count, phys, a, u, hpages, -⟩ := mapLoop_of_alloc (by decide) halloc
  exact ⟨pt, m', _, phys 0, hboot,
    .cons (.allocated (by decide) (by decide) (by decide) halloc hpages) (.nil _), rfl⟩

/-- Afterwards the byte is found in the page that it got, the second page of the image is read-only,
and the pointers to both bitmaps are in the window. -/
theorem kernel_address_space_wide : ∃ pt m' phys,
    ∃ s : VAllocState (ReachedPool wideRanges),
      osentry (poolAllocator wideRanges) screenInfo wideMachine = .ok (pt, m') ∧
      s.live = [⟨vAllocStart, 1, [phys]⟩] ∧
      hardwareAccess s.machine pt.pml4Phys (vAllocStart + 5#64) =
        some ⟨phys + 5#64, true, false⟩ ∧
      hardwareAccess s.machine pt.pml4Phys 0xffffffff80001000#64 =
        some ⟨0x301000#64, false, false⟩ ∧
      (poolRegions s.machine).map Region.bitmap =
        [0xffff820000000000#64, 0xffff820000002000#64] := by
  obtain ⟨pt, m', s, phys, hboot, hrun, hlive⟩ := exists_alloc_wide
  obtain ⟨-, hspace, hpointers⟩ := kernel_address_space wideRanges_bound boot_wideRanges rfl rfl
    placed_screenInfo hboot hrun
  refine ⟨pt, m', phys, s, hboot, hlive, ?_, ?_, hpointers⟩
  · have hin : InRange vAllocStart (1 * pageSize) (vAllocStart + 5#64) := by
      unfold InRange
      decide
    rw [hspace, hlive, AddressSpace.placeLive_of_mem (List.pairwise_singleton _ _)
      (List.mem_singleton_self _) hin]
    simp [pageSize]
  · rw [hspace, hlive, AddressSpace.placeLive_of_forall (by simp [InRange]; decide)]
    decide +kernel

/-- Every byte of every bitmap is found behind the pointer to the bitmap, writable. -/
def BitmapsReachable (m : Machine (ReachedPool specs)) (pt : PageTable) : Prop :=
  ∀ r ∈ poolRegions m, ∀ o < r.bitmapReserved,
    hardwareAccess m pt.pml4Phys (r.bitmap + BitVec.ofNat 64 o) =
      some ⟨r.bitmapPhys + BitVec.ofNat 64 o, true, false⟩

/-- The ranges of the regions are those that boot registered. -/
theorem map_range_poolRegions (m : Machine (ReachedPool specs)) :
    (poolRegions m).map Region.range = specs := m.allocator.property.registered

/-- Without a framebuffer a pointer is a physical address, and that is not mapped. -/
theorem eq_nil_of_bitmapsReachable (hspecs : ∀ x ∈ specs, x.1.toNat + x.2 ≤ 2 ^ 52)
    (hplaced : info.Placed)
    (houtside : ∀ w, ¬ InRegion w → hardwareAccess m pt.pml4Phys w = info.kernelSpace w)
    (hbitmaps : (poolRegions m).map Region.bitmap = specs.map Prod.fst)
    (hreach : BitmapsReachable m pt) : specs = [] := by
  rw [← map_range_poolRegions m, List.map_eq_nil_iff, List.eq_nil_iff_forall_not_mem]
  intro r hr
  have hwf := m.allocator.property.layout.wellFormed r hr
  have hreserved : 0 < r.bitmapReserved := by
    rw [hwf.reserved_eq]
    exact Nat.mul_pos (Region.bitmapPages_pos hwf.nonempty) (by norm_num)
  have haccess := hreach r hr 0 hreserved
  have hpointer : r.bitmap ∈ specs.map Prod.fst := hbitmaps ▸ List.mem_map_of_mem hr
  obtain ⟨x, hx, hfst⟩ := List.mem_map.mp hpointer
  have hbound := hspecs x hx
  have hlow : physApertureStart.toNat = 0xffff800000000000 := rfl
  have hregion : vAllocStart.toNat = 0xffff900000000000 := rfl
  rw [BitVec.add_zero, ← hfst, houtside x.1 (by unfold InRegion; omega),
    hplaced.kernelSpace_eq (by omega), AddressSpace.aperture_eq_none_of_lt (by omega)] at haccess
  cases haccess

/-- With one, the bitmap of each region is placed at its pointer. -/
theorem mem_bitmaps_of_pointers
    (hbitmaps : (poolRegions m).map Region.bitmap =
      (bitmaps physAllocatorMetadataStart specs).map Prod.fst) {r : Region}
    (hr : r ∈ poolRegions m) :
    (r.bitmap, bitmapRegion r.range) ∈ bitmaps physAllocatorMetadataStart specs := by
  obtain ⟨j, hj⟩ := List.mem_iff_getElem?.mp hr
  have hsnds : (bitmaps physAllocatorMetadataStart specs).map Prod.snd =
      (poolRegions m).map fun r => bitmapRegion r.range := by
    have hall := congrArg (List.map bitmapRegion) (map_range_poolRegions m)
    rw [List.map_map] at hall
    exact (map_snd_bitmaps _ _).trans hall.symm
  have hfst := congrArg (·[j]?) hbitmaps
  have hsnd := congrArg (·[j]?) hsnds
  simp only [List.getElem?_map, hj, Option.map_some] at hfst hsnd
  obtain ⟨x, hx, hbase⟩ := Option.map_eq_some_iff.mp hfst.symm
  obtain rfl : x = (r.bitmap, bitmapRegion r.range) :=
    Prod.ext hbase (by simpa [hx] using hsnd)
  exact List.mem_of_getElem? hx

/-- The bitmaps are placed last, and apart. -/
theorem bitmapsReachable_of_placed
    (hspan : physAllocatorMetadataStart.toNat + bitmapSpan specs < physAllocatorMetadataEnd.toNat)
    (houtside : ∀ w, ¬ InRegion w → hardwareAccess m pt.pml4Phys w =
      l.placeAll (bitmaps physAllocatorMetadataStart specs) w)
    (hfields : ∀ r ∈ poolRegions m,
      r.bitmapReserved = (bitmapRegion r.range).length ∧ r.bitmapPhys = r.range.1)
    (hbitmaps : (poolRegions m).map Region.bitmap =
      (bitmaps physAllocatorMetadataStart specs).map Prod.fst) : BitmapsReachable m pt := by
  have hlast : physAllocatorMetadataEnd.toNat = 0xffff82003fffffff := rfl
  have hregion : vAllocStart.toNat = 0xffff900000000000 := rfl
  intro r hr o ho
  obtain ⟨hreserved, hphys⟩ := hfields r hr
  have hmem := mem_bitmaps_of_pointers hbitmaps hr
  -- the byte lies in its own bitmap, and the window ends before the region of `VAlloc`
  have hfits := (mem_bitmaps (by omega) hmem).2
  dsimp only at hfits
  have hbyte : (r.bitmap + BitVec.ofNat 64 o).toNat = r.bitmap.toNat + o := by
    rw [BitVec.toNat_add, BitVec.toNat_ofNat]
    omega
  have hin : InRange r.bitmap (bitmapRegion r.range).length (r.bitmap + BitVec.ofNat 64 o) := by
    rw [InRange, hbyte]
    omega
  have hout : ¬ InRegion (r.bitmap + BitVec.ofNat 64 o) := by
    unfold InRegion
    unfold InRange at hin
    omega
  rw [houtside _ hout, AddressSpace.placeAll_of_mem (pairwise_bitmaps (by omega)) hmem hin,
    BitVec.add_comm r.bitmap, BitVec.add_sub_cancel, hphys]
  have hwrite : (bitmapRegion r.range).accessMode.test Mode.write = true :=
    (by decide : Mode.kernelRW.test Mode.write = true)
  rw [hwrite]
  rfl

/-- In every state of every run of `VAlloc` and `VFree` after boot, with the requests for frames
served in range, the pointers lead to the bitmaps exactly if there is a framebuffer, or no
bitmap. -/
theorem bitmaps_reachable_iff (hspecs : ∀ x ∈ specs, x.1.toNat + x.2 ≤ 2 ^ 52)
    {prior : BitVec 64 → Words} (hboot : addRegions true prior Pool.empty specs = .ok p)
    (hm : m.isFirstPageTable = false)
    (hregions : (poolRegions m).map Region.shape = p.regions.map Region.shape)
    (hplaced : info.Placed) (h : osentry (poolAllocator specs) info m = .ok (pt, m'))
    {calls : List VAllocOp}
    (hrun : Run (VAllocStep (poolAllocator specs) pt) ⟨m', .init, [], []⟩ calls s) :
    BitmapsReachable s.machine pt ↔ info.framebuffer.isSome = true ∨ specs = [] := by
  obtain ⟨p', hs, hpointers, hfields, hwindow⟩ :=
    running_of_osentry hspecs hboot hm hregions hplaced h hrun
  have hbitmaps := (map_shape_congr Region.bitmap (fun _ => rfl) hs.regions).trans hpointers
  have houtside := hs.tracks.outside
  rw [BootInfo.bitmapPointers] at hbitmaps
  rw [BootInfo.bootSpace] at houtside
  -- without a framebuffer the pointers are still physical addresses, which are not mapped
  rcases hfb : info.framebuffer with _ | fbInfo <;> rw [hfb] at hbitmaps houtside <;>
    dsimp only at hbitmaps houtside
  · simp only [Option.isSome_none, Bool.false_eq_true, false_or]
    refine ⟨eq_nil_of_bitmapsReachable hspecs hplaced houtside hbitmaps, fun hnil r hr => ?_⟩
    have hmem : r.range ∈ (poolRegions s.machine).map Region.range := List.mem_map_of_mem hr
    rw [map_range_poolRegions, hnil] at hmem
    cases hmem
  · simp only [Option.isSome_some, true_or, iff_true]
    refine bitmapsReachable_of_placed (hwindow (by rw [hfb]; rfl)) houtside (fun r hr => ?_)
      hbitmaps
    obtain ⟨j, hj⟩ := List.mem_iff_getElem?.mp hr
    have hpopulated : Populated p' pt (hardwareAccess s.machine pt.pml4Phys) s.machine :=
      ⟨hs.tracks.sealed, rfl, hs.regions⟩
    obtain ⟨hr', -, hreserved⟩ := hpopulated.bitmapVm_eq hfields hj
    exact ⟨hreserved, hr'.phys⟩

/-- After boot with the framebuffer and an allocation the bitmaps can be reached; after boot without
it they cannot. -/
theorem bitmaps_reachable_iff_wide :
    (∃ pt m', ∃ s : VAllocState (ReachedPool wideRanges),
      osentry (poolAllocator wideRanges) screenInfo wideMachine = .ok (pt, m') ∧
        BitmapsReachable s.machine pt) ∧
      ∃ pt m', osentry (poolAllocator wideRanges) headlessInfo wideMachine = .ok (pt, m') ∧
        ¬ BitmapsReachable m' pt := by
  obtain ⟨pt, m, s, phys, hboot, hrun, -⟩ := exists_alloc_wide
  obtain ⟨pt', m', hboot'⟩ := osentry_returns wideRanges_bound boot_wideRanges rfl rfl
    placed_headlessInfo (supplies_wideMachine.mono (frames_headlessInfo.le.trans (by omega)))
    accepted_headlessInfo
  refine ⟨⟨pt, m, s, hboot, (bitmaps_reachable_iff wideRanges_bound boot_wideRanges rfl rfl
    placed_screenInfo hboot hrun).mpr (Or.inl rfl)⟩, pt', m', hboot', fun hreach => ?_⟩
  rcases (bitmaps_reachable_iff wideRanges_bound boot_wideRanges rfl rfl placed_headlessInfo
    hboot' (.nil _)).mp hreach with hscreen | hnil
  · cases hscreen
  · cases hnil

end

end KushOs.Boot
