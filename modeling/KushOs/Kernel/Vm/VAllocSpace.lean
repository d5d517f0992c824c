import KushOs.Kernel.Vm.Provision
import KushOs.Kernel.Vm.VAllocRun

/-!
# The address space along runs of the virtual page allocator

`VAlloc` places the physical pages that it got in the kernel's address space, and `VFree` takes them
out again: after any calls the address space is the one from before the first call, with the live
allocations placed in it.

## Main definitions

* `AddressSpace.placePages`, `AddressSpace.placeLive`: pages in an address space.
* `VAllocState.Tracks`: the invariant of a run.

## Main results

* `VAllocState.Tracks.step`: every call keeps it.
* `VAllocState.Tracks.space_eq`: the address space in a state with the invariant.
-/

namespace KushOs.Vm

open Memory RadixTable KernelM PageTable PageAllocator Transition

/-! ## Pages in an address space -/

namespace AddressSpace

variable {l : AddressSpace} {live : List Allocation} {a : Allocation} {w : BitVec 64}

/-- Place physical pages one behind the other from `base` on, writable and closed to user mode. -/
def placePages (l : AddressSpace) (base : BitVec 64) (pages : List (BitVec 64)) : AddressSpace :=
  fun w =>
    if InRange base (pages.length * pageSize) w then
      pages[(w - base).toNat / pageSize]?.map fun p =>
        ⟨p + BitVec.ofNat 64 ((w - base).toNat % pageSize), true, false⟩
    else l w

/-- Place the pages of live allocations. -/
def placeLive (l : AddressSpace) (live : List Allocation) : AddressSpace :=
  live.foldr (fun a l => l.placePages a.start a.pages) l

theorem placeLive_cons : l.placeLive (a :: live) = (l.placeLive live).placePages a.start a.pages :=
  rfl

/-- An address in no live range. -/
theorem placeLive_of_forall (h : ∀ a ∈ live, ¬ InRange a.start (a.pages.length * pageSize) w) :
    l.placeLive live w = l w := by
  induction live with
  | nil => rfl
  | cons a rest ih =>
    rw [List.forall_mem_cons] at h
    rw [placeLive_cons, placePages, if_neg h.1]
    exact ih h.2

/-- An address in a live range, if no two ranges share an address. -/
theorem placeLive_of_mem
    (hlive : live.Pairwise fun a b => ∀ w, InRange a.start (a.pages.length * pageSize) w →
      ¬ InRange b.start (b.pages.length * pageSize) w)
    (ha : a ∈ live) (h : InRange a.start (a.pages.length * pageSize) w) :
    l.placeLive live w = (a.pages[(w - a.start).toNat / pageSize]?.map fun p =>
      ⟨p + BitVec.ofNat 64 ((w - a.start).toNat % pageSize), true, false⟩) := by
  induction live with
  | nil => cases ha
  | cons b rest ih =>
    obtain ⟨hfirst, hrest⟩ := List.pairwise_cons.mp hlive
    rw [placeLive_cons, placePages]
    rcases List.mem_cons.mp ha with rfl | ha
    · rw [if_pos h]
    · rw [if_neg fun hb => hfirst a ha w hb h]
      exact ih hrest ha

end AddressSpace

/-! ## Pages and links -/

variable {σ : Type} {A : PhysicalAllocator σ} {held : σ → Set (BitVec 64)} {m m' : Machine σ}
variable {roots : List (BitVec 64)} {label label' : Labels (BitVec 64) Index} {pt : PageTable}
variable {v w : BitVec 64}

/-- A byte of a page that is mapped in the kernel's half, as the processor finds it. -/
theorem TablesState.Sealed.access_page {s : TablesState σ} (hs : s.Sealed held)
    (hpt : pt ∈ s.tables)
    {phys : BitVec 64} (hphys : IsFrame phys) {mode : Mode} (hcanon : nonCanonical v = false)
    (hlookup : lookup s.machine pt.pml4Phys v = some (3, pageEntry phys mode)) {o : ℕ}
    (ho : o < 4096) (hupper : kernelBoundary ≤ pageBase v + BitVec.ofNat 64 o) :
    hardwareAccess s.machine pt.pml4Phys (pageBase v + BitVec.ofNat 64 o) =
      some ⟨phys + BitVec.ofNat 64 o, mode.test Mode.write, false⟩ := by
  obtain ⟨label, own, hp, hl⟩ := hs.links
  have hroot := hp.labelled.root _ (TablesState.mem_roots hpt)
  rw [← nonCanonical_page v ho] at hcanon
  rw [← lookup_page _ _ _ ho] at hlookup
  have hleaf : leafPhys (pageBase v + BitVec.ofNat 64 o) 3 (pageEntry phys mode) =
      phys + BitVec.ofNat 64 o := by
    simpa using (translation_page _ _).symm.trans (translation_pageEntry hphys v mode ho)
  have haccess := hl.hardwareAccess_page hp hroot hcanon hlookup
  have huser := hs.user_eq_false hpt hupper haccess
  rw [haccess, hleaf, write_pageEntry]
  congr 2

/-- A page of 4 KB maps no address of another page. -/
theorem not_mappedTogether_of_page {root e : BitVec 64} (hpage : lookup m root v = some (3, e))
    (hne : pageBase w ≠ pageBase v) : ¬ MappedTogether m root v w := by
  rintro ⟨d, e', hlookup, hsame⟩
  obtain ⟨rfl, -⟩ : 3 = d ∧ e = e' := by simpa using hpage.symm.trans hlookup
  have hsame : v >>> 12 = w >>> 12 := hsame
  exact hne (by rw [pageBase, pageBase, hsame])

/-- Frames may be given back that are no structures in use. -/
theorem TablesState.Links.release {tables : List PageTable}
    (hs : TablesState.Links held ⟨m, tables⟩)
    (hp : Paging held m (TablesState.roots ⟨m, tables⟩) label) {pages : List (BitVec 64)}
    (hnone : ∀ p ∈ pages, label p = none) {s : σ}
    (hheld : ∀ a ∈ held m.allocator, a ∉ pages → a ∈ held s) :
    TablesState.Links held ⟨{ m with allocator := s }, tables⟩ := by
  obtain ⟨label', own, hp', hl⟩ := hs
  refine ⟨Labelled.both label label', own, ⟨hp.labelled.inter hp'.labelled, fun {t p} ht => ?_⟩,
    ⟨hl.root, fun hu => hl.write (Labelled.both_eq_some.mp hu).2,
      fun hu => hl.user (Labelled.both_eq_some.mp hu).2,
      fun hu => hl.own (Labelled.both_eq_some.mp hu).2⟩⟩
  obtain ⟨hlabel, hlabel'⟩ := Labelled.both_eq_some.mp ht
  refine ⟨hp'.isFrame hlabel', hp'.accessible hlabel',
    hheld t (hp'.mem_held hlabel') fun hpage => ?_⟩
  -- the other label knows that the page is no structure
  rw [hnone t hpage] at hlabel
  cases hlabel

/-! ## The calls -/

namespace PageAllocator

variable {g g' : PageAllocator} {length : ℕ} {ptr : BitVec 64}

/-- An `Alloc` that returns a pointer maps the pages that it got. -/
theorem mapLoop_of_alloc (hptr : ptr ≠ 0) (halloc : alloc A pt g length m = .ok ((ptr, g'), m')) :
    ptr = g.gAllocCursor ∧ ∃ count phys s u,
      A.allocatePages m.allocator (pagesFor length) (fun _ => 0) = .ok (count, phys, s) ∧
        mapLoop A pt phys ptr 0 (pagesFor length) { m with allocator := s } = .ok (u, m') := by
  unfold alloc at halloc
  obtain ⟨_, _, hreq, halloc⟩ := bind_eq_ok.mp halloc
  obtain ⟨-, rfl⟩ := requireM_eq_ok.mp hreq
  obtain ⟨⟨count, phys⟩, m₁, hcall, halloc⟩ := bind_eq_ok.mp halloc
  obtain ⟨s, hpages, rfl⟩ := allocatePages_eq_ok.mp hcall
  dsimp only at halloc
  split at halloc
  · exact absurd (Prod.mk.inj (pure_eq_ok.mp halloc).1).1.symm hptr
  split at halloc
  · obtain ⟨_, _, -, hret⟩ := bind_eq_ok.mp halloc
    exact absurd (Prod.mk.inj (pure_eq_ok.mp hret).1).1.symm hptr
  · obtain ⟨u, m₂, hmap, hret⟩ := bind_eq_ok.mp halloc
    obtain ⟨hpair, rfl⟩ := pure_eq_ok.mp hret
    obtain ⟨rfl, rfl⟩ := Prod.mk.inj hpair
    exact ⟨rfl, count, phys, s, u, hpages, hmap⟩

/-- A `Free` that returns reads the physical pages, unmaps the range and gives the pages back. -/
theorem unmap_of_free (hfree : free A pt g ptr length m = .ok (g', m')) :
    ∃ pages m₁ m₂ count s, physLoop pt ptr (pagesFor length) m = .ok (pages, m₁) ∧
      PageTable.unmap pt ptr (nearestPageSize length) m₁ = .ok (0, m₂) ∧
      A.freePages m₂.allocator pages = .ok (count, s) ∧ m' = { m₂ with allocator := s } := by
  unfold free at hfree
  obtain ⟨_, _, hreq, hfree⟩ := bind_eq_ok.mp hfree
  obtain ⟨-, rfl⟩ := requireM_eq_ok.mp hreq
  obtain ⟨_, _, hreq, hfree⟩ := bind_eq_ok.mp hfree
  obtain ⟨-, rfl⟩ := requireM_eq_ok.mp hreq
  obtain ⟨pages, m₁, hread, hfree⟩ := bind_eq_ok.mp hfree
  obtain ⟨err, m₂, hunmap, hfree⟩ := bind_eq_ok.mp hfree
  obtain ⟨_, m₃, hzero, hfree⟩ := bind_eq_ok.mp hfree
  obtain ⟨hzero, rfl⟩ := requireM_eq_ok.mp hzero
  obtain ⟨count, m₄, hrelease, hfree⟩ := bind_eq_ok.mp hfree
  obtain ⟨_, m₅, hcount, hfree⟩ := bind_eq_ok.mp hfree
  obtain ⟨-, rfl⟩ := requireM_eq_ok.mp hcount
  obtain ⟨-, rfl⟩ := pure_eq_ok.mp hfree
  obtain rfl : err = 0 := by simpa using hzero
  obtain ⟨s, hcall, rfl⟩ := freePages_eq_ok.mp hrelease
  exact ⟨pages, m₁, m₂, count, s, hread, hunmap, hcall, rfl⟩

end PageAllocator

/-! ## A page can be allocated -/

/-- No structure has a path of four indices. -/
theorem follow_eq_none {root : BitVec 64} {q : List Index} (hq : 4 ≤ q.length) :
    follow slot (entries m) 0 root q = none := by
  rcases hfollow : follow slot (entries m) 0 root q with _ | u
  · rfl
  · have hleads := follow_eq_some_iff.mp hfollow
    cases hleads with
    | nil => simp at hq
    | snoc _ hslot =>
      have hdepth := (slot_eq_next hslot).1
      rw [List.length_append, List.length_singleton] at hq
      omega

/-- A path that no structure has stands for a frame that is kept in reserve. -/
theorem Supplied.reserve {root : BitVec 64} {V : Finset (List Index)} {q : List Index}
    (hq : 4 ≤ q.length) (hV : q ∉ V) (h : Supplied A m root (insert q V)) :
    Supplies A m.Accessible ((missing m root V).card + 1) m.allocator := by
  have hmissing : missing m root (insert q V) = insert q (missing m root V) :=
    (Finset.filter_insert _ _ _).trans (if_pos (follow_eq_none hq))
  have hnot : q ∉ missing m root V := fun hmem => hV (Finset.mem_filter.mp hmem).1
  rwa [Supplied, hmissing, Finset.card_insert_of_notMem hnot] at h

/-- The first allocation of a page returns if there are frames for its structures and one more. -/
theorem PageAllocator.alloc_init_returns (hA : HandsOutFresh A held) {V : Finset (List Index)}
    {q : List Index} (h : Provided A held pt (insert q V) m) (hq : 4 ≤ q.length) (hqV : q ∉ V)
    (hV : structurePaths vAllocStart ⊆ V) :
    ∃ g m', alloc A pt .init 1 m = .ok ((vAllocStart, g), m') := by
  obtain ⟨⟨label, hp⟩, hlarge, hsupply⟩ := h
  have hsupply := hsupply.reserve hq hqV
  unfold Supplies at hsupply
  split at hsupply
  swap
  · exact hsupply.elim
  next count phys s hpages =>
  obtain ⟨⟨rfl, -, -⟩, hrest⟩ := hsupply
  -- the page is taken, and its structures have their frames
  obtain ⟨-, -, hheld⟩ := hA.allocate hpages
  have hprov : Provided A held pt V { m with allocator := s } :=
    ⟨⟨label, hp.setAllocator (hheld ▸ Set.subset_union_left)⟩, hlarge, hrest⟩
  have hrange : VAllocRange vAllocStart 1 := ⟨by decide, le_rfl, by decide⟩
  have hpage : ∀ i < 1, pageAt vAllocStart i = vAllocStart := by
    intro i hi
    obtain rfl : i = 0 := by omega
    exact pageAt_zero vAllocStart
  have hout : ¬ InAperture vAllocStart := fun hin => absurd hin.2 (by decide)
  obtain ⟨m', hmap, -⟩ := hprov.mapPages hA hrange.pageRange
    (fun i hi => (hpage i hi).symm ▸ hout) (fun i hi => (hpage i hi).symm ▸ hV) phys Mode.kernelRW 0
  have hroom : requireM (PageAllocator.init.gAllocCursor +
        BitVec.ofNat 64 (nearestPageSize 1 + kNumGuardPages * pageSize) < vAllocEnd &&
      PageAllocator.init.gAllocCursor < PageAllocator.init.gAllocCursor +
        BitVec.ofNat 64 (nearestPageSize 1 + kNumGuardPages * pageSize)) m = .ok ((), m) :=
    requireM_of_true (by decide)
  have hserved : KernelM.allocatePages A 1 (fun _ => 0) m =
      .ok ((1, phys), { m with allocator := s }) :=
    allocatePages_eq_ok.mpr ⟨s, hpages, rfl⟩
  have hloop : mapLoop A pt phys PageAllocator.init.gAllocCursor 0 1
      { m with allocator := s } = .ok ((), m') := by
    rw [mapLoop_eq]
    exact hmap
  refine ⟨⟨pageAt vAllocStart (pagesFor 1 + kNumGuardPages), 1⟩, m', ?_⟩
  unfold alloc
  rw [bind_of_ok hroom]
  refine (bind_of_ok hserved).trans ?_
  exact (bind_of_ok hloop).trans rfl

/-! ## What the calls keep of the physical allocator -/

section

variable {inv : σ → Prop}

/-- Looking up an address leaves the allocator alone. -/
theorem keepsAllocator_getPhysAddr (pt : PageTable) (virt : BitVec 64) :
    KeepsAllocator inv (getPhysAddr pt virt : KernelM σ (ℤ × Option (BitVec 64 × Mode))) := by
  unfold getPhysAddr
  split
  · exact .pure _
  refine .bind (keepsAllocator_readTable _ _) fun pml4e => ?_
  split
  · exact .pure _
  refine .bind (keepsAllocator_readTable _ _) fun pdpte => ?_
  split
  · exact .pure _
  split
  · exact .pure _
  refine .bind (keepsAllocator_readTable _ _) fun pdte => ?_
  split
  · exact .pure _
  split
  · exact .pure _
  refine .bind (keepsAllocator_readTable _ _) fun pte => ?_
  split <;> exact .pure _

theorem keepsAllocator_physLoop (pt : PageTable) (virt : BitVec 64) (n : ℕ) :
    KeepsAllocator inv (physLoop pt virt n : KernelM σ (List (BitVec 64))) := by
  induction n generalizing virt with
  | zero => exact .pure _
  | succ n ih =>
    exact .bind (keepsAllocator_getPhysAddr _ _) fun _ => .bind (.requireM _) fun _ =>
      .bind (ih _) fun _ => .pure _

variable (hF : ∀ {s s' : σ} {addrs : List (BitVec 64)} {count : ℤ},
  A.freePages s addrs = .ok (count, s') → inv s → inv s')

include hF

theorem keepsAllocator_freePages (addrs : List (BitVec 64)) :
    KeepsAllocator inv (KernelM.freePages A addrs) := by
  intro m count m' h hm
  obtain ⟨s, hs, rfl⟩ := freePages_eq_ok.mp h
  exact hF hs hm

/-- `VFree` keeps what `FreePages` keeps. -/
theorem keepsAllocator_free (pt : PageTable) (g : PageAllocator) (ptr : BitVec 64) (length : ℕ) :
    KeepsAllocator inv (PageAllocator.free A pt g ptr length) :=
  .bind (.requireM _) fun _ => .bind (.requireM _) fun _ =>
    .bind (keepsAllocator_physLoop _ _ _) fun _ => .bind (keepsAllocator_unmap _ _ _) fun _ =>
      .bind (.requireM _) fun _ => .bind (keepsAllocator_freePages hF _) fun _ =>
        .bind (.requireM _) fun _ => .pure _

variable (hA : ∀ {s s' : σ} {n : ℕ} {buffer out : AddrBuffer} {count : ℤ},
  A.allocatePages s n buffer = .ok (count, out, s') → inv s → inv s')

include hA

/-- `VAlloc` keeps what `AllocatePages` and `FreePages` keep. -/
theorem keepsAllocator_alloc (pt : PageTable) (g : PageAllocator) (length : ℕ) :
    KeepsAllocator inv (PageAllocator.alloc A pt g length) := by
  refine .bind (.requireM _) fun _ => .bind (.allocatePages hA _ _) fun ⟨err, phys⟩ => ?_
  dsimp only
  split
  · exact .pure _
  split
  · refine .bind ?_ fun _ => .pure _
    unfold freePrefix
    split
    · exact keepsAllocator_freePages hF _
    · exact fun _ _ _ h => by cases h
  · refine .bind ?_ fun _ => .pure _
    rw [mapLoop_eq]
    exact keepsAllocator_mapPages hA _ _ _ _ _

/-- So does a step. -/
theorem VAllocStep.keepsAllocator {s t : VAllocState σ} {op : VAllocOp}
    (h : VAllocStep A pt s op t) (hs : inv s.machine.allocator) : inv t.machine.allocator := by
  cases h with
  | failed _ _ halloc => exact keepsAllocator_alloc hF hA _ _ _ _ _ _ halloc hs
  | allocated _ _ _ halloc _ => exact keepsAllocator_alloc hF hA _ _ _ _ _ _ halloc hs
  | freed _ hfree => exact keepsAllocator_free hF _ _ _ _ _ _ _ hfree hs

end

/-! ## Runs -/

namespace VAllocState

variable {s t : VAllocState σ} {l : AddressSpace}

/-- In a run over the only page table there is: besides the invariant of the allocator, the kernel's
half is sealed, and outside the region the address space is `l`. -/
structure Tracks (held : σ → Set (BitVec 64)) (pt : PageTable) (l : AddressSpace)
    (s : VAllocState σ) : Prop where
  inv : s.Inv held [pt.pml4Phys] pt
  sealed : TablesState.Sealed held ⟨s.machine, [pt]⟩
  outside : ∀ w, ¬ InRegion w → hardwareAccess s.machine pt.pml4Phys w = l w

/-- An address outside the region is outside every range in it. -/
theorem outsideRange_of_not_inRegion {start : BitVec 64} {n : ℕ} (h : VAllocRange start n)
    (hw : ¬ InRegion w) : OutsideRange start n w := by
  refine h.outside ?_
  have hlo := h.lo
  have hhi := h.hi
  unfold InRegion at hw
  omega

namespace Tracks

/-- The addresses of the pages of a live allocation are the range of the allocator. -/
theorem length_mul (h : s.Tracks held pt l) {a : Allocation} (ha : a ∈ s.live) :
    a.pages.length * pageSize = a.numPages * pageSize := by
  rw [h.inv.length a ha]

theorem failed (h : s.Tracks held pt l) {a : σ} (hheld : held s.machine.allocator ⊆ held a)
    (hinv : Inv held [pt.pml4Phys] pt { s with machine := { s.machine with allocator := a } }) :
    Tracks held pt l { s with machine := { s.machine with allocator := a } } :=
  ⟨hinv, h.sealed.setAllocator hheld, h.outside⟩

/-- `VAlloc` maps pages in the region only. -/
theorem allocated (hA : HandsOutFresh A held) (h : s.Tracks held pt l) {length : ℕ}
    (hlen : length ≤ kMaxAllocPages * pageSize) {ptr : BitVec 64} (hptr : ptr ≠ 0) {m' : Machine σ}
    {g' : PageAllocator} (halloc : PageAllocator.alloc A pt s.globals length s.machine =
      .ok ((ptr, g'), m')) {live : List Allocation}
    (hinv : Inv held [pt.pml4Phys] pt { s with machine := m', globals := g', live }) :
    Tracks held pt l { s with machine := m', globals := g', live } := by
  obtain ⟨label, hp, hroot, -⟩ := h.inv.paging
  obtain ⟨hnull, -⟩ | ⟨-, hrange, -⟩ := alloc_ok hA hp hroot h.inv.cursor hlen halloc
  · exact absurd hnull hptr
  obtain ⟨-, count, phys, a, u, hpages, hmap⟩ := mapLoop_of_alloc hptr halloc
  rw [mapLoop_eq] at hmap
  have hheld : held s.machine.allocator ⊆ held a := by
    obtain ⟨-, -, hheld⟩ := hA.allocate hpages
    exact hheld ▸ Set.subset_union_left
  have hsealed := h.sealed.setAllocator hheld
  refine ⟨hinv, hsealed.mapPages hA (List.mem_singleton_self pt) hmap, fun w hw => ?_⟩
  have hpart := hrange.of_le (Nat.le_add_right _ kNumGuardPages)
  obtain ⟨label', hmapped⟩ := (hp.setAllocator hheld).mapPages_ok hA hroot hpart.pageRange hmap
  rw [hmapped.access_eq _ w hroot (outsideRange_of_not_inRegion hpart hw)]
  exact h.outside w hw

/-- `VFree` of a live allocation unmaps pages in the region only. -/
theorem freed (hA : HandsOutFresh A held) (h : s.Tracks held pt l) {a : Allocation}
    (ha : a ∈ s.live) {m' : Machine σ} {g' : PageAllocator}
    (hfree : PageAllocator.free A pt s.globals a.start a.length s.machine = .ok (g', m'))
    (hinv : Inv held [pt.pml4Phys] pt ⟨m', g', s.live.erase a, a :: s.freed⟩) :
    Tracks held pt l ⟨m', g', s.live.erase a, a :: s.freed⟩ := by
  obtain ⟨label, hp, hroot, hnone⟩ := h.inv.paging
  have hrange := h.inv.range_pages (List.mem_append_left s.freed ha)
  obtain ⟨pages, m₁, m₂, count, a', hread, hunmap, hrelease, rfl⟩ := unmap_of_free hfree
  -- what is read are the pages of the allocation
  have hlength := h.inv.length a ha
  rw [Allocation.numPages] at hlength
  rw [← hlength] at hread
  obtain ⟨rfl, hm⟩ := hp.physLoop_ok hroot (fun p hpage => (h.inv.frames a ha p hpage).1)
    (hlength ▸ hrange) (h.inv.mapped a ha) hread
  subst hm
  have hkeeps := hp.unmap_keeps hroot hunmap
  have hsealed : TablesState.Sealed held ⟨m₂, [pt]⟩ := h.sealed.step hA (.unmap (i := 0) rfl hunmap)
  have hheld : ∀ x ∈ held m₂.allocator, x ∉ a.pages → x ∈ held a' := by
    intro x hx hnot
    exact hA.free hrelease x hx hnot
  refine ⟨hinv, ⟨hsealed.links.release hkeeps.paging (hnone a ha) hheld, hsealed.closed⟩,
    fun w hw => ?_⟩
  rw [← h.outside w hw]
  change hardwareAccess m₂ pt.pml4Phys w = _
  rcases hcanon : nonCanonical w with _ | _
  swap
  · rw [hardwareAccess, hardwareAccess, hcanon, if_pos rfl, if_pos rfl]
  -- the loop over the pages
  have hloop : unmapLoop pt a.start (pagesFor a.length) s.machine = .ok (0, m₂) := by
    unfold PageTable.unmap at hunmap
    split at hunmap
    · cases (pure_eq_ok.mp hunmap).1
    · exact hunmap
  obtain ⟨k, c, m₃, hloop', hremoved, -, hend⟩ :=
    hp.unmapLoop_leaves (List.mem_singleton_self _) a.start (pagesFor a.length)
  obtain ⟨rfl, rfl⟩ : c = 0 ∧ m₃ = m₂ := by simpa using hloop'.symm.trans hloop
  obtain rfl : k = pagesFor a.length := by
    rcases hend with ⟨-, rfl⟩ | ⟨hneg, -⟩
    · rfl
    · cases hneg
  refine (hremoved.kept _ (List.mem_singleton_self _) w hcanon fun i hi => ?_).2
  -- the pages of the allocation are not those of other addresses
  have hpage := h.inv.mapped a ha i _ (List.getElem?_eq_getElem (hlength.symm ▸ hi))
  refine not_mappedTogether_of_page hpage ?_
  rw [hrange.pageBase_pageAt hi.le]
  exact outsideRange_of_not_inRegion hrange hw i hi

/-- Every call keeps the invariant. -/
theorem step (hA : HandsOutFresh A held) (h : s.Tracks held pt l) {op : VAllocOp}
    (hstep : VAllocStep A pt s op t) : t.Tracks held pt l := by
  have hinv := h.inv.step hA hstep
  cases hstep with
  | failed hpos hlen halloc =>
    obtain ⟨label, hp, hroot, -⟩ := h.inv.paging
    rcases alloc_ok hA hp hroot h.inv.cursor hlen halloc with
      ⟨-, rfl, a, rfl, hheld⟩ | ⟨-, hrange, -⟩
    · exact h.failed hheld hinv
    · -- the cursor is not the null pointer
      exact absurd hrange.lo (by decide)
  | allocated hpos hlen hptr halloc hpages => exact h.allocated hA hlen hptr halloc hinv
  | freed ha hfree => exact h.freed hA ha hfree hinv

/-- So does a run. -/
theorem run (hA : HandsOutFresh A held) (h : s.Tracks held pt l) {calls : List VAllocOp}
    (hrun : Run (VAllocStep A pt) s calls t) : t.Tracks held pt l :=
  Run.preserves (fun _ _ _ hs hstep => hs.step hA hstep) hrun h

/-- An address of a live range is a byte of one of its pages. -/
theorem byte_eq {start : BitVec 64} {n : ℕ} (hrange : VAllocRange start n)
    (hw : InRange start (n * pageSize) w) :
    (w - start).toNat / pageSize < n ∧ (w - start).toNat % pageSize < pageSize ∧
      w = pageBase (pageAt start ((w - start).toNat / pageSize)) +
        BitVec.ofNat 64 ((w - start).toNat % pageSize) := by
  have hwlt := w.isLt
  obtain ⟨hlo, hhi⟩ := hw
  have hoff : (w - start).toNat = w.toNat - start.toNat := by
    rw [BitVec.toNat_sub]
    omega
  have hpage : (w - start).toNat / pageSize < n := by
    rw [hoff]
    simp only [pageSize] at *
    omega
  refine ⟨hpage, Nat.mod_lt _ (by norm_num), ?_⟩
  rw [hrange.pageBase_pageAt hpage.le]
  apply BitVec.eq_of_toNat_eq
  rw [BitVec.toNat_add, hrange.toNat_pageAt hpage.le, BitVec.toNat_ofNat, hoff]
  simp only [pageSize]
  omega

/-- The address space is `l` with the live allocations placed in it, if `l` has nothing in the
region. -/
theorem space_eq (h : s.Tracks held pt l) (hl : ∀ w, InRegion w → l w = none) :
    hardwareAccess s.machine pt.pml4Phys = l.placeLive s.live := by
  have hrange : ∀ a ∈ s.live, VAllocRange a.start a.numPages :=
    fun a ha => h.inv.range_pages (List.mem_append_left s.freed ha)
  funext w
  by_cases hlive : ∃ a ∈ s.live, InRange a.start (a.pages.length * pageSize) w
  · obtain ⟨a, ha, hin⟩ := hlive
    have hdisjoint : s.live.Pairwise fun a b => ∀ w, InRange a.start (a.pages.length * pageSize) w →
        ¬ InRange b.start (b.pages.length * pageSize) w := by
      refine h.inv.sound.disjoint.imp_of_mem fun {a b} ha hb hapart w hw hw' => ?_
      rw [h.length_mul ha] at hw
      rw [h.length_mul hb] at hw'
      unfold InRange at hw hw'
      unfold Allocation.stop at hapart
      omega
    rw [AddressSpace.placeLive_of_mem hdisjoint ha hin]
    rw [h.length_mul ha] at hin
    obtain ⟨hpage, hoff, hbyte⟩ := byte_eq (hrange a ha) hin
    set i := (w - a.start).toNat / pageSize
    set o := (w - a.start).toNat % pageSize
    have hget := List.getElem?_eq_getElem ((h.inv.length a ha).symm ▸ hpage)
    have hframe := (h.inv.frames a ha _ (List.mem_of_getElem? hget)).1
    have hupper : kernelBoundary ≤ w := by
      have hlo := (hrange a ha).lo
      have hboundary : kernelBoundary.toNat ≤ vAllocStart.toNat := by decide
      exact BitVec.le_def.mpr (hboundary.trans (hlo.trans hin.1))
    rw [hbyte] at hupper
    have haccess := h.sealed.access_page (List.mem_singleton_self pt) hframe
      ((hrange a ha).canonical hpage) (h.inv.mapped a ha i _ hget) hoff hupper
    rw [← hbyte] at haccess
    rw [haccess, hget]
    rfl
  · rw [AddressSpace.placeLive_of_forall fun a ha hin => hlive ⟨a, ha, hin⟩]
    by_cases hregion : InRegion w
    · -- nothing is mapped between the live ranges
      obtain ⟨label, hp, hroot, -⟩ := h.inv.paging
      rw [hl w hregion]
      refine hp.hardwareAccess_none hroot (h.inv.unmapped w hregion.1 hregion.2 fun a ha => ?_)
      refine (hrange a ha).outside ?_
      have hin : ¬ InRange a.start (a.pages.length * pageSize) w := fun hin => hlive ⟨a, ha, hin⟩
      rw [h.length_mul ha] at hin
      unfold InRange at hin
      omega
    · exact h.outside w hregion

/-- Before the first call. -/
theorem init (hsealed : TablesState.Sealed held ⟨m, [pt]⟩)
    (hspace : hardwareAccess m pt.pml4Phys = l) (hl : ∀ w, InRegion w → l w = none) :
    Tracks held pt l ⟨m, .init, [], []⟩ := by
  obtain ⟨label, hp⟩ := hsealed.links.inv
  have hroot : label pt.pml4Phys = some [] :=
    hp.labelled.root _ (TablesState.mem_roots (List.mem_singleton_self pt))
  refine ⟨.init hp hroot fun w hlo hhi => ?_, hsealed, fun w _ => congrFun hspace w⟩
  have hnone : hardwareAccess m pt.pml4Phys w = none := by rw [hspace, hl w ⟨hlo, hhi⟩]
  have hcanon := nonCanonical_of_le hlo
  rw [hardwareAccess, hcanon, if_neg Bool.false_ne_true, ← (hp.hardwareWalk_eq hroot w).1,
    Option.map_eq_none_iff] at hnone
  rw [hp.report_eq hroot hcanon, hnone]
  rfl

end Tracks

end VAllocState

end KushOs.Vm
