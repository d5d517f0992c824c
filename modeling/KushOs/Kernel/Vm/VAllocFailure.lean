import KushOs.Kernel.Memory.PoolAllocator
import KushOs.Kernel.Memory.Restore
import KushOs.Kernel.Vm.VAlloc
import KushOs.Kernel.Vm.VAllocBounds

/-!
# A `VAlloc` that finds too few pages

When the physical allocator supplies fewer pages than an allocation takes, `Alloc` gives them back
and returns the null pointer. Giving back nothing is not accepted by `FreePages`, and pages that
`Region::contains` does not recognise are not given back, so the call leaves the state as it was
only if neither happens.

## Main definitions

* `LeavesNoTrace`: the call returns the null pointer and changes nothing.
* `CanRollBack`: when it does.

## Main results

* `valloc_failure_iff`: for a request that is served in range and finds too few pages, the two are
  equivalent.
-/

namespace KushOs.Vm

open Memory WordBitmap KernelM PageAllocator

namespace PageAllocator

variable {σ : Type} {A : PhysicalAllocator σ} {pt : PageTable} {g g' : PageAllocator}
variable {length n : ℕ} {m m' : Machine σ} {ptr : BitVec 64}

/-- An allocation that gets too few pages gives them back, and does nothing else. -/
theorem alloc_of_few {count : ℕ} {out : AddrBuffer} {s : σ} (hreq : request g length = .ok n)
    (hcall : A.allocatePages m.allocator n (fun _ => 0) = .ok ((count : ℤ), out, s))
    (hfew : count < n) (hn : n ≤ kMaxAllocPages) :
    alloc A pt g length m = .ok ((ptr, g'), m') ↔
      ptr = 0 ∧ g' = g ∧ ∃ freed s', A.freePages s (handedOut count out) = .ok (freed, s') ∧
        { m with allocator := s' } = m' := by
  have hsize : toSize (count : ℤ) = count := by
    simp only [kMaxAllocPages] at hn
    exact toSize_natCast (by omega)
  have hok : allocatePages A n (fun _ => 0) m =
      .ok (((count : ℤ), out), { m with allocator := s }) :=
    allocatePages_eq_ok.mpr ⟨s, hcall, rfl⟩
  rw [alloc_eq_request, hreq]
  dsimp only
  rw [bind_of_ok hok]
  unfold afterRequest
  dsimp only
  -- the count is not negative, and it is not the number of pages
  rw [if_neg (by omega), hsize, if_pos hfew.ne]
  unfold freePrefix
  rw [if_pos (hfew.le.trans hn)]
  change (KernelM.freePages A (handedOut count out) >>= fun _ => pure (0, g)) _ = _ ↔ _
  rw [bind_eq_ok]
  constructor
  · rintro ⟨freed, m₁, hrelease, hret⟩
    obtain ⟨s', hfree, rfl⟩ := KernelM.freePages_eq_ok.mp hrelease
    obtain ⟨hpair, rfl⟩ := pure_eq_ok.mp hret
    obtain ⟨rfl, rfl⟩ := Prod.mk.inj hpair
    exact ⟨rfl, rfl, freed, s', hfree, rfl⟩
  · rintro ⟨rfl, rfl, freed, s', hfree, rfl⟩
    exact ⟨freed, _, KernelM.freePages_eq_ok.mpr ⟨s', hfree, rfl⟩, pure_eq_ok.mpr ⟨rfl, rfl⟩⟩

/-- A request of one byte to `kMaxAllocPages` pages passes the check if it ends inside the region,
guard pages included. -/
theorem request_iff_room (hpos : 0 < length) (hlen : length ≤ kMaxAllocPages * pageSize) :
    request g length = .ok n ↔
      n = pagesFor length ∧ g.gAllocCursor.toNat + (pagesFor length + kNumGuardPages) * pageSize <
        vAllocEnd.toNat := by
  simp only [kMaxAllocPages, pageSize] at hlen
  have hpages : pagesFor length = (length + (pageSize - 1)) / pageSize := by
    unfold pagesFor
    rw [nearestPageSize_eq length (by omega)]
    simp only [pageSize]
    omega
  have hiff := request_pages_iff (g := g) (n := n) (show length < 2 ^ 64 by omega)
  simp only [pageSize, kNumGuardPages] at hiff hpages ⊢
  constructor
  · intro hreq
    obtain rfl : pagesFor length = n := (request_eq_ok.mp hreq).2
    obtain ⟨-, -, -, hroom, -⟩ := hiff.mp ⟨hreq, by omega⟩
    exact ⟨rfl, hroom (by omega)⟩
  · rintro ⟨rfl, hroom⟩
    exact (hiff.mpr ⟨hpages, hpos, by omega, fun _ => hroom, by omega⟩).1

end PageAllocator

variable {specs : List (BitVec 64 × ℕ)} {pt : PageTable} {g : PageAllocator}
variable {m : Machine (ReachedPool specs)} {length : ℕ}

/-- `Alloc` returns the null pointer. Its static variables and the page tables are the same
afterwards, the same pages are free and `GetAllocPages` returns the same number. -/
def LeavesNoTrace (pt : PageTable) (g : PageAllocator) (length : ℕ)
    (m : Machine (ReachedPool specs)) : Prop :=
  ∃ s, PageAllocator.alloc (poolAllocator specs) pt g length m =
      .ok ((0, g), { m with allocator := s }) ∧
    (∀ a, Available s.val.pool a ↔ Available m.allocator.val.pool a) ∧
    getAllocPages s.val.pool = getAllocPages m.allocator.val.pool

/-- The range that was asked for lies inside the region of the allocator, at least one page is free,
and the pool recognises every free page. -/
structure CanRollBack (g : PageAllocator) (length : ℕ) (p : Pool) : Prop where
  room : g.gAllocCursor.toNat + (pagesFor length + kNumGuardPages) * pageSize < vAllocEnd.toNat
  some_free : ∃ a, Available p a
  recognised : ∀ a, Available p a → Pool.contains p.regions a = true

/-- What such a request gets: all pages that were free, and nothing if there were none. -/
theorem ReachedPool.allocatePages_of_few {s : ReachedPool specs} {n : ℕ} {buffer : AddrBuffer}
    (hserved : ServedInRange s.val (.allocatePages n buffer)) (hn : n < 2 ^ 31)
    (hfew : Pool.freeCount s.val.pool.regions < n) :
    ∃ (count : ℕ) (out : AddrBuffer) (s' : ReachedPool specs),
      (poolAllocator specs).allocatePages s n buffer = .ok ((count : ℤ), out, s') ∧ count < n ∧
        Memory.allocatePages s.val.pool n buffer = .ok ((count : ℤ), out, s'.val.pool) ∧
        s'.val.held = s.val.held ++ handedOut count out ∧
        s'.val.pool.regions = Pool.takeFirst n s.val.pool.regions ∧
        (∀ a, ¬ Available s'.val.pool a) ∧
          ∀ a, Available s.val.pool a ↔ a ∈ handedOut count out := by
  have hcount : Pool.freeCount s.val.pool.regions < 2 ^ 31 := hfew.trans hn
  have hmin : min n (Pool.freeCount s.val.pool.regions) = Pool.freeCount s.val.pool.regions :=
    Nat.min_eq_right hfew.le
  have halloc := s.val.pool.alloc_eq buffer (Nat.zero_lt_of_lt hfew) (by omega)
    (hmin.symm ▸ hcount)
  rw [hmin] at halloc
  have hcall := s.val.pool.allocatePages_of_pos (Nat.zero_lt_of_lt hfew) buffer
  rw [halloc] at hcall
  have hnone := not_available_of_few hfew hcount (by omega) hcall
  refine ⟨_, _, ⟨⟨_, s.val.held ++ handedOut _ _⟩,
    s.property.allocatePages hserved (by omega) hcall⟩, ?_, hfew, hcall, rfl, rfl, hnone,
    fun a => ?_⟩
  · exact poolAllocator_allocatePages_eq_ok.mpr ⟨⟨by omega, hserved⟩, hcall, rfl⟩
  · rw [available_allocated_iff hserved (by omega) hcall, or_iff_right (hnone a)]

section

variable (hpos : 0 < length) (hlen : length ≤ kMaxAllocPages * pageSize)
variable (hserved : ServedInRange m.allocator.val (.allocatePages (pagesFor length) fun _ => 0))
variable (hfew : Pool.freeCount m.allocator.val.pool.regions < pagesFor length)

include hlen in
theorem pagesFor_lt : pagesFor length < 2 ^ 31 := by
  have hn := pagesFor_le hlen
  simp only [kMaxAllocPages] at hn
  omega

include hpos hlen hserved hfew

/-- What was free before the call must have been given back by it. -/
theorem LeavesNoTrace.canRollBack (h : LeavesNoTrace pt g length m) :
    CanRollBack g length m.allocator.val.pool := by
  obtain ⟨s', halloc, havail, -⟩ := h
  obtain ⟨count, out, s, hcall, hlt, -, hheld, hregions, hnone, hall⟩ :=
    ReachedPool.allocatePages_of_few hserved (pagesFor_lt hlen) hfew
  have hmem : ∀ a ∈ handedOut count out, a ∈ s.val.held :=
    fun a ha => hheld ▸ List.mem_append_right _ ha
  obtain ⟨n, hreq⟩ : ∃ n, request g length = .ok n := by
    rcases hreq : request g length with f | n
    · rw [alloc_eq_request, hreq] at halloc
      cases halloc
    · exact ⟨n, rfl⟩
  obtain ⟨rfl, hroom⟩ := (request_iff_room hpos hlen).mp hreq
  obtain ⟨-, -, freed, s'', hfree, hstate⟩ :=
    (alloc_of_few hreq hcall hlt (pagesFor_le hlen)).mp halloc
  obtain rfl : s'' = s' := congrArg Machine.allocator hstate
  obtain ⟨-, hfree, -⟩ := poolAllocator_freePages_eq_ok.mp hfree
  obtain ⟨hne, hfree⟩ := Pool.freePages_eq_ok.mp hfree
  have hlength : (handedOut count out).length < 2 ^ 31 := by
    rw [handedOut, List.length_map, List.length_range, Int.toNat_natCast]
    exact hlt.trans (pagesFor_lt hlen)
  obtain ⟨-, -, hpool⟩ := (Pool.free_eq_ok_iff s.property.layout
    (List.countP_le_length.trans_lt hlength)).mp hfree
  -- what is free in the end is what was given back and recognised
  have hback : ∀ a, Available s''.val.pool a ↔
      a ∈ handedOut count out ∧ Pool.contains s.val.pool.regions a = true := by
    intro a
    rw [← hpool, s.property.available_freed_iff hmem, or_iff_right (hnone a)]
  refine ⟨hroom, ?_, fun a ha => ?_⟩
  · obtain ⟨a, ha⟩ := List.exists_mem_of_ne_nil _ hne
    exact ⟨a, (hall a).mpr ha⟩
  · have hc := ((hback a).mp ((havail a).mpr ha)).2
    rwa [hregions, Pool.contains_takeFirst] at hc

/-- Giving back all pages that were supplied restores the pool. -/
theorem CanRollBack.leavesNoTrace (h : CanRollBack g length m.allocator.val.pool) :
    LeavesNoTrace pt g length m := by
  obtain ⟨hroom, ⟨a₀, hfree₀⟩, hrec⟩ := h
  obtain ⟨count, out, s, hcall, hlt, hpool, hheld, -, -, hall⟩ :=
    ReachedPool.allocatePages_of_few hserved (pagesFor_lt hlen) hfew
  have hnodup : (handedOut count out).Nodup := by
    have hafter := s.property.nodup
    rw [hheld] at hafter
    exact (List.nodup_append.mp hafter).2.1
  have hmem : ∀ a ∈ handedOut count out, a ∈ s.val.held :=
    fun a ha => hheld ▸ List.mem_append_right _ ha
  have hreq := (request_iff_room (g := g) hpos hlen).mpr ⟨rfl, hroom⟩
  have hne : handedOut count out ≠ [] := List.ne_nil_of_mem ((hall a₀).mp hfree₀)
  have hnum := (pagesFor_lt hlen).trans (by decide : 2 ^ 31 < 2 ^ 64)
  obtain ⟨freed, hfree⟩ := (m.allocator.property.freePages_allocatePages_iff hserved hnum
    hpool hne).mpr fun a ha => hrec a ((hall a).mpr ha)
  refine ⟨⟨⟨m.allocator.val.pool, _⟩, s.property.freePages hnodup hmem hfree⟩, ?_,
    fun _ => Iff.rfl, rfl⟩
  refine (alloc_of_few hreq hcall hlt (pagesFor_le hlen)).mpr ⟨rfl, rfl, freed, _, ?_, rfl⟩
  exact poolAllocator_freePages_eq_ok.mpr ⟨⟨hnodup, hmem⟩, hfree, rfl⟩

end

/-- A request that is served in range and finds too few pages: `VAlloc` leaves no trace exactly when
it can roll back. -/
theorem valloc_failure_iff (hpos : 0 < length) (hlen : length ≤ kMaxAllocPages * pageSize)
    (hserved : ServedInRange m.allocator.val (.allocatePages (pagesFor length) fun _ => 0))
    (hfew : Pool.freeCount m.allocator.val.pool.regions < pagesFor length) :
    LeavesNoTrace pt g length m ↔ CanRollBack g length m.allocator.val.pool :=
  ⟨LeavesNoTrace.canRollBack hpos hlen hserved hfew,
    CanRollBack.leavesNoTrace hpos hlen hserved hfew⟩

/-- The region of `numPages` pages from 1 MB on, after all of its pages were allocated and given
back: only the first `free` of them were recognised. -/
def givenBack (numPages free : ℕ) : Region where
  physBase := 0x100000
  numPages := numPages
  bitmapPhys := 0x100000
  bitmapSize := numPages - Region.bitmapPages numPages
  bitmapReserved := Region.bitmapPages numPages * pageSize
  bitmap := 0x100000
  words w := if w = 0 then BitVec.ofNat 64 (2 ^ free - 1) else 0
  bitmapVm :=
    { physBase := 0x100000, length := Region.bitmapPages numPages * pageSize
      accessMode := Mode.kernelRW }
  allocBasePhys := 0x100000 + BitVec.ofNat 64 (Region.bitmapPages numPages * pageSize)
  numAllocated := BitVec.ofNat 64 (numPages - Region.bitmapPages numPages - free)

theorem bit_givenBack {numPages free b : ℕ} (hfree : free ≤ 64) :
    bit (givenBack numPages free).words b = decide (b < free) := by
  change (if b / 64 = 0 then BitVec.ofNat 64 (2 ^ free - 1) else 0).getLsbD (b % 64) = _
  split
  next hword =>
    have hb : b % 64 = b := by omega
    rw [BitVec.getLsbD_ofNat, Nat.testBit_two_pow_sub_one, hb]
    simp only [Bool.and_eq_right_iff_imp, decide_eq_true_eq]
    omega
  next hword =>
    simp only [BitVec.ofNat_eq_ofNat, BitVec.getLsbD_zero, Bool.false_eq, decide_eq_false_iff_not]
    omega

/-- A pool with that region only, and no page in use. -/
def givenBackState (numPages free : ℕ) : PoolState where
  pool := { regions := [givenBack numPages free], regionAllocBufNextFree := 1 }
  held := []

theorem givenBackState_inv {numPages free : ℕ} (hpos : 0 < numPages)
    (hfits : 0x100000 + numPages * pageSize ≤ 2 ^ 64)
    (hcounted : numPages - Region.bitmapPages numPages - free =
      clearCount (givenBack numPages free).words (givenBack numPages free).bitmapSize) :
    (givenBackState numPages free).Inv [(0x100000, numPages * pageSize)] where
  registered := rfl
  bounded := (by decide : 1 ≤ Pool.kMaxRegions)
  layout := by
    refine ⟨fun r hr => ?_, List.pairwise_singleton _ _⟩
    obtain rfl := List.mem_singleton.mp hr
    exact ⟨(by decide : 0x100000 % pageSize = 0), hpos, hfits, rfl, rfl, rfl⟩
  nodup := List.nodup_nil
  held _ ha := absurd ha List.not_mem_nil
  counted r hr := by
    obtain rfl := List.mem_singleton.mp hr
    exact congrArg (BitVec.ofNat 64) hcounted

/-- The state after the pages of a region of 4097 pages were given back. -/
def onePageLeft : ReachedPool [(0x100000, 4097 * pageSize)] :=
  ⟨givenBackState 4097 1, givenBackState_inv (by decide) (by decide) (by decide +kernel)⟩

/-- Two pages are requested and there is one, which is recognised. -/
theorem valloc_failure_one_left :
    LeavesNoTrace ⟨0⟩ .init 0x2000 ⟨fun _ => 0, false, false, onePageLeft⟩ := by
  have hcan : CanRollBack .init 0x2000 onePageLeft.val.pool := by
    refine ⟨by decide, ⟨0x101000, 0, givenBack 4097 1, 0, rfl, by decide, by decide, by decide⟩, ?_⟩
    rintro a ⟨i, r, b, hi, hb, rfl, hbit⟩
    obtain rfl : r = givenBack 4097 1 := List.mem_singleton.mp (List.mem_of_getElem? hi)
    -- only the first bit is set
    rw [bit_givenBack (by decide), decide_eq_true_eq] at hbit
    obtain rfl : b = 0 := Nat.lt_one_iff.mp hbit
    decide +kernel
  exact (valloc_failure_iff (by decide) (by decide) (by decide +kernel)
    (by decide +kernel)).mpr hcan

/-- The state after the pages of a region of 65 pages were given back. -/
def noPageLeft : ReachedPool [(0x100000, 65 * pageSize)] :=
  ⟨givenBackState 65 0, givenBackState_inv (by decide) (by decide) (by decide +kernel)⟩

/-- A page is requested and there is none: the call panics. -/
theorem valloc_failure_leaves_trace :
    ¬ ∀ (specs : List (BitVec 64 × ℕ)) (m : Machine (ReachedPool specs)) (pt : PageTable)
      (g : PageAllocator) (length : ℕ), 0 < length → length ≤ kMaxAllocPages * pageSize →
      Pool.freeCount m.allocator.val.pool.regions < pagesFor length →
      LeavesNoTrace pt g length m := by
  intro h
  have hcan := LeavesNoTrace.canRollBack (by decide) (by decide) (by decide +kernel)
    (by decide +kernel) (h _ ⟨fun _ => 0, false, false, noPageLeft⟩ ⟨0⟩ .init 1 (by decide)
      (by decide) (by decide +kernel))
  obtain ⟨a, i, r, b, hi, -, -, hbit⟩ := hcan.some_free
  obtain rfl : r = givenBack 65 0 := List.mem_singleton.mp (List.mem_of_getElem? hi)
  rw [bit_givenBack (by decide), decide_eq_true_eq] at hbit
  exact Nat.not_lt_zero b hbit

end KushOs.Vm
