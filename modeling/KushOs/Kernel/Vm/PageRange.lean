import KushOs.Kernel.Vm.AllocatorFrame
import KushOs.Kernel.Vm.Links
import KushOs.Kernel.Vm.PageAllocator

/-!
# Ranges of pages

Several loops of the kernel map, read and unmap the pages of a range one after the other. Each loop
has one lemma here, about the whole range and about the addresses outside it.

## Main definitions

* `PageRange`: canonical ranges of whole pages; `VAllocRange`: those in the region of the page
  allocator.
* `mapPages`: mapping a range of pages, the loop that others are instances of.
* `Extends`: what mapping pages keeps.

## Main results

* `Paging.mapPages_ok`, `Paging.physLoop_ok`, `Paging.unmapLoop_ok`: the effects of the loops.
-/

namespace KushOs.Vm

open Memory RadixTable KernelM PageTable PageAllocator

/-! ## Pages of a range -/

/-- The first address of page `i` of the range that starts at `start`. -/
def pageAt (start : BitVec 64) (i : ℕ) : BitVec 64 := start + BitVec.ofNat 64 (i * pageSize)

/-- The first page lies at the start. -/
@[simp]
theorem pageAt_zero (start : BitVec 64) : pageAt start 0 = start := by
  simp [pageAt]

/-- The pages behind the first one are those of the rest. -/
theorem pageAt_succ (start : BitVec 64) (i : ℕ) :
    pageAt start (i + 1) = pageAt (start + BitVec.ofNat 64 pageSize) i := by
  rw [pageAt, pageAt, Nat.succ_mul, Nat.add_comm, BitVec.ofNat_add, BitVec.add_assoc]

/-- The `n` pages from `start` on are canonical, and do not wrap around the address space. -/
structure PageRange (start : BitVec 64) (n : ℕ) : Prop where
  aligned : start.toNat % pageSize = 0
  fits : start.toNat + n * pageSize ≤ 2 ^ 64
  canonical : ∀ i < n, nonCanonical (pageAt start i) = false

namespace PageRange

variable {start : BitVec 64} {n i j : ℕ}

/-- The pages of a range do not wrap around. -/
theorem toNat_pageAt (h : PageRange start n) (hi : i < n) :
    (pageAt start i).toNat = start.toNat + i * pageSize := by
  have hfits := h.fits
  have hlt : i * pageSize < n * pageSize := Nat.mul_lt_mul_of_pos_right hi (by norm_num)
  rw [pageAt, BitVec.toNat_add, BitVec.toNat_ofNat]
  omega

/-- The first page is canonical. -/
theorem head (h : PageRange start (n + 1)) : nonCanonical start = false := by
  simpa using h.canonical 0 (by omega)

/-- What is left behind the first page is a range. -/
theorem tail (h : PageRange start (n + 1)) : PageRange (start + BitVec.ofNat 64 pageSize) n := by
  cases n with
  | zero =>
    have hlt := (start + BitVec.ofNat 64 pageSize).isLt
    have haligned := h.aligned
    refine ⟨?_, by omega, by simp⟩
    rw [BitVec.toNat_add, BitVec.toNat_ofNat]
    simp only [pageSize] at *
    omega
  | succ n =>
    have hnext := h.toNat_pageAt (i := 1) (by omega)
    simp only [pageAt, Nat.one_mul] at hnext
    obtain ⟨haligned, hfits, hcanon⟩ := h
    refine ⟨?_, ?_, fun i hi => ?_⟩
    · rw [hnext, Nat.add_mod_right, haligned]
    · rw [hnext]
      simp only [pageSize] at *
      omega
    · rw [← pageAt_succ]
      exact hcanon (i + 1) (by omega)

/-- Pages are aligned. -/
theorem pageBase_pageAt (h : PageRange start n) (hi : i < n) :
    pageBase (pageAt start i) = pageAt start i := by
  apply BitVec.eq_of_toNat_eq
  have haligned := h.aligned
  rw [toNat_pageBase, h.toNat_pageAt hi]
  simp only [pageSize] at *
  omega

/-- Pages at different positions are different. -/
theorem pageAt_ne (h : PageRange start n) (hi : i < n) (hj : j < n) (hne : i ≠ j) :
    pageAt start i ≠ pageAt start j := by
  intro heq
  have hnat := congrArg BitVec.toNat heq
  rw [h.toNat_pageAt hi, h.toNat_pageAt hj] at hnat
  simp only [pageSize] at hnat
  omega

/-- The pages that an address outside the range is not in. -/
theorem outside (h : PageRange start n) {v : BitVec 64}
    (hv : v.toNat < start.toNat ∨ start.toNat + n * pageSize ≤ v.toNat) (k : ℕ) (hk : k < n) :
    pageBase v ≠ pageAt start k := by
  intro heq
  have hnat := congrArg BitVec.toNat heq
  have haligned := h.aligned
  have hle : (k + 1) * pageSize ≤ n * pageSize := Nat.mul_le_mul_right _ hk
  rw [toNat_pageBase, h.toNat_pageAt hk] at hnat
  simp only [pageSize] at *
  omega

end PageRange

/-- The addresses from the aperture on are canonical. -/
theorem nonCanonical_of_upper {v : BitVec 64} (h : physApertureStart.toNat ≤ v.toNat) :
    nonCanonical v = false := by
  have hge : ¬ v < 0xFFFF800000000000#64 := by
    rw [BitVec.lt_def]
    exact not_lt.mpr h
  simp [nonCanonical, hge]

/-- So are those of the region of the page allocator. -/
theorem nonCanonical_of_le {v : BitVec 64} (h : vAllocStart.toNat ≤ v.toNat) :
    nonCanonical v = false :=
  nonCanonical_of_upper (le_trans (by decide) h)

/-- An address in the region of the page allocator. -/
def InRegion (v : BitVec 64) : Prop := vAllocStart.toNat ≤ v.toNat ∧ v.toNat ≤ vAllocEnd.toNat

/-- The `n` pages from `start` on lie in the region of the page allocator. -/
structure VAllocRange (start : BitVec 64) (n : ℕ) : Prop where
  aligned : start.toNat % pageSize = 0
  lo : vAllocStart.toNat ≤ start.toNat
  hi : start.toNat + n * pageSize ≤ vAllocEnd.toNat + 1

namespace VAllocRange

variable {start : BitVec 64} {n i j : ℕ}

/-- The pages do not wrap around, and neither does the end. -/
theorem toNat_pageAt (h : VAllocRange start n) (hi : i ≤ n) :
    (pageAt start i).toNat = start.toNat + i * pageSize := by
  have hbound := h.hi
  have hend : vAllocEnd.toNat + 1 < 2 ^ 64 := by decide
  have hle : i * pageSize ≤ n * pageSize := Nat.mul_le_mul_right _ hi
  rw [pageAt, BitVec.toNat_add, BitVec.toNat_ofNat]
  omega

/-- A prefix of a range in the region is one. -/
theorem of_le (h : VAllocRange start n) (hle : i ≤ n) : VAllocRange start i := by
  have hmul : i * pageSize ≤ n * pageSize := Nat.mul_le_mul_right _ hle
  exact ⟨h.aligned, h.lo, le_trans (Nat.add_le_add_left hmul _) h.hi⟩

/-- What is left behind the first page lies in the region. -/
theorem tail (h : VAllocRange start (n + 1)) :
    VAllocRange (start + BitVec.ofNat 64 pageSize) n := by
  have hnext := h.toNat_pageAt (i := 1) (by omega)
  simp only [pageAt, Nat.one_mul] at hnext
  obtain ⟨haligned, hlo, hhi⟩ := h
  refine ⟨?_, ?_, ?_⟩ <;> rw [hnext]
  · rw [Nat.add_mod_right, haligned]
  · omega
  · rw [Nat.succ_mul] at hhi
    omega

/-- The pages of the region are canonical. -/
theorem canonical (h : VAllocRange start n) (hi : i < n) :
    nonCanonical (pageAt start i) = false := by
  refine nonCanonical_of_le ?_
  rw [h.toNat_pageAt hi.le]
  exact h.lo.trans (Nat.le_add_right _ _)

/-- The pages in the region make a range. -/
theorem pageRange (h : VAllocRange start n) : PageRange start n := by
  have hend : vAllocEnd.toNat + 1 < 2 ^ 64 := by decide
  exact ⟨h.aligned, h.hi.trans hend.le, fun i hi => h.canonical hi⟩

/-- Addresses before and behind the range are outside it. -/
theorem outside (h : VAllocRange start n) {v : BitVec 64}
    (hv : v.toNat < start.toNat ∨ start.toNat + n * pageSize ≤ v.toNat) (k : ℕ) (hk : k < n) :
    pageBase v ≠ pageAt start k :=
  h.pageRange.outside hv k hk

/-- The pages and the end are aligned. -/
theorem pageBase_pageAt (h : VAllocRange start n) (hi : i ≤ n) :
    pageBase (pageAt start i) = pageAt start i := by
  apply BitVec.eq_of_toNat_eq
  have haligned := h.aligned
  rw [toNat_pageBase, h.toNat_pageAt hi]
  simp only [pageSize] at *
  omega

/-- Pages at different positions are different. -/
theorem pageAt_ne (h : VAllocRange start n) (hi : i < n) (hj : j < n) (hne : i ≠ j) :
    pageAt start i ≠ pageAt start j :=
  h.pageRange.pageAt_ne hi hj hne

end VAllocRange

/-- No page of the range contains `w`. -/
def OutsideRange (start : BitVec 64) (n : ℕ) (w : BitVec 64) : Prop :=
  ∀ i < n, pageBase w ≠ pageAt start i

/-- What lies outside of a range lies outside of its rest. -/
theorem OutsideRange.tail {start w : BitVec 64} {n : ℕ} (h : OutsideRange start (n + 1) w) :
    OutsideRange (start + BitVec.ofNat 64 pageSize) n w := by
  intro i hi
  rw [← pageAt_succ]
  exact h (i + 1) (by omega)

/-! ## Mapping the pages of a range -/

variable {σ : Type} {A : PhysicalAllocator σ} {held : σ → Set (BitVec 64)} {m m' m'' : Machine σ}
variable {roots : List (BitVec 64)} {label label' label'' : Labels (BitVec 64) Index}
variable {pt : PageTable} {start : BitVec 64} {n : ℕ}

/-- What mapping pages keeps: structures stay in use, new ones come from frames that were not held,
and held frames stay held. -/
structure Extends (held : σ → Set (BitVec 64)) (roots : List (BitVec 64)) (m m' : Machine σ)
    (label label' : Labels (BitVec 64) Index) : Prop where
  paging : Paging held m' roots label'
  mono : ∀ {u : BitVec 64} {p : List Index}, label u = some p → label' u = some p
  fresh : ∀ {u : BitVec 64} {p : List Index},
    label' u = some p → label u = some p ∨ u ∉ held m.allocator
  held_subset : held m.allocator ⊆ held m'.allocator

/-- Nothing has changed. -/
theorem Extends.refl (h : Paging held m roots label) : Extends held roots m m label label :=
  ⟨h, fun hu => hu, Or.inl, Set.Subset.rfl⟩

/-- Frames that are held do not become paging structures. -/
theorem Extends.label_eq_none (h : Extends held roots m m' label label') {u : BitVec 64}
    (hheld : u ∈ held m.allocator) (hnone : label u = none) : label' u = none := by
  cases hlabel' : label' u with
  | none => rfl
  | some p =>
      rcases h.fresh hlabel' with hold | hnew
      · cases hnone.symm.trans hold
      · exact absurd hheld hnew

/-- Changes can be made one after the other. -/
theorem Extends.trans (h : Extends held roots m m' label label')
    (h' : Extends held roots m' m'' label' label'') : Extends held roots m m'' label label'' := by
  refine ⟨h'.paging, fun hu => h'.mono (h.mono hu), fun hu => ?_,
    h.held_subset.trans h'.held_subset⟩
  rcases h'.fresh hu with hu' | hnew
  · exact h.fresh hu'
  · exact Or.inr fun hold => hnew (h.held_subset hold)

/-- Mapping a page extends the tables. -/
theorem Mapped.extends {root virt e : BitVec 64}
    (h : Mapped held roots root virt e m m' label label') (hroot : label root = some []) :
    Extends held roots m m' label label' :=
  ⟨h.paging hroot, h.mono, h.fresh, h.held_subset⟩

/-- Map the `n` pages from `virt` on to the physical addresses `phys i`, `phys (i + 1)` and so on;
every call of `mapPage` has to succeed. -/
def mapPages (A : PhysicalAllocator σ) (pt : PageTable) (phys : ℕ → BitVec 64) (mode : Mode)
    (virt : BitVec 64) (i : ℕ) : ℕ → KernelM σ Unit
  | 0 => return ()
  | n + 1 => do
      let err ← PageTable.mapPage A pt (phys i) virt mode
      requireM (err == 0)
      mapPages A pt phys mode (virt + BitVec.ofNat 64 pageSize) (i + 1) n

/-- What mapping the pages of a range does: structures in use stay so, the pages are mapped by the
entries `entry 0`, `entry 1` and so on, and nothing changes outside the range, in any page table. -/
structure PagesMapped (held : σ → Set (BitVec 64)) (roots : List (BitVec 64))
    (root start : BitVec 64) (n : ℕ) (entry : ℕ → BitVec 64) (m m' : Machine σ)
    (label label' : Labels (BitVec 64) Index) : Prop where
  ext : Extends held roots m m' label label'
  pages : ∀ k < n, lookup m' root (pageAt start k) = some (3, entry k)
  lookup_eq : ∀ u w, label u = some [] → nonCanonical w = false → OutsideRange start n w →
    lookup m' u w = lookup m u w
  access_eq : ∀ u w, label u = some [] → OutsideRange start n w →
    hardwareAccess m' u w = hardwareAccess m u w

/-- The loop over a range of pages. -/
theorem Paging.mapPages_ok (hA : HandsOutFresh A held) (h : Paging held m roots label)
    (hroot : label pt.pml4Phys = some []) {phys : ℕ → BitVec 64} {mode : Mode} {i : ℕ}
    (hrange : PageRange start n) {u : Unit}
    (hmap : mapPages A pt phys mode start i n m = .ok (u, m')) :
    ∃ label', PagesMapped held roots pt.pml4Phys start n (fun k => pageEntry (phys (i + k)) mode)
      m m' label label' := by
  induction n generalizing start i m label with
  | zero =>
    obtain ⟨-, rfl⟩ := pure_eq_ok.mp hmap
    exact ⟨label, .refl h, by simp, fun _ _ _ _ _ => rfl, fun _ _ _ _ => rfl⟩
  | succ n ih =>
    obtain ⟨err, m₁, hpage, hmap⟩ := bind_eq_ok.mp hmap
    obtain ⟨_, m₂, hzero, hrest⟩ := bind_eq_ok.mp hmap
    obtain ⟨hzero, rfl⟩ := requireM_eq_ok.mp hzero
    have hstart := hrange.head
    have hbase : pageBase start = pageAt start 0 := by
      simpa using hrange.pageBase_pageAt (i := 0) (by omega)
    -- the first page
    obtain ⟨label₁, ⟨hneg, -⟩ | ⟨-, -, hmapped⟩⟩ := h.mapPage_ok hA hroot hpage
    · obtain rfl : err = 0 := by simpa using hzero
      cases hneg
    have hext := hmapped.extends hroot
    have hfirst := hmapped.lookup_eq hroot (present_pageEntry _ _)
    -- the others
    obtain ⟨label', hext', hpages, hsame, haccess⟩ :=
      ih hext.paging (hext.mono hroot) hrange.tail hrest
    refine ⟨label', hext.trans hext', fun k hk => ?_, fun u w hu hw hout => ?_,
      fun u w hu hout => ?_⟩
    · cases k with
      | zero =>
        have hout : OutsideRange (start + BitVec.ofNat 64 pageSize) n start := by
          intro j hj
          rw [hbase, ← pageAt_succ]
          exact hrange.pageAt_ne (by omega) (by omega) (by omega)
        rw [pageAt_zero, hsame _ start (hext.mono hroot) hstart hout, hfirst, Nat.add_zero]
      | succ k =>
        rw [pageAt_succ, hpages k (by omega), Nat.add_right_comm, Nat.add_assoc]
    · have hne : pageBase w ≠ pageBase start := hbase ▸ hout 0 (by omega)
      rw [hsame u w (hext.mono hu) hw hout.tail]
      exact hmapped.walk_eq hroot hu (not_prefix_path hstart hw hne)
    · have hne : pageBase w ≠ pageBase start := hbase ▸ hout 0 (by omega)
      rw [haccess u w (hext.mono hu) hout.tail,
        hmapped.hardwareAccess_eq h hroot hu hstart hne]

/-- The loop keeps what the allocations of the structures keep. -/
theorem keepsAllocator_mapPages {inv : σ → Prop}
    (hA : ∀ {s s' : σ} {n : ℕ} {buffer out : AddrBuffer} {count : ℤ},
      A.allocatePages s n buffer = .ok (count, out, s') → inv s → inv s')
    (phys : ℕ → BitVec 64) (mode : Mode) (virt : BitVec 64) (i n : ℕ) :
    KeepsAllocator inv (mapPages A pt phys mode virt i n) := by
  induction n generalizing virt i with
  | zero => exact .pure _
  | succ n ih =>
    exact .bind (keepsAllocator_mapPage hA _ _ _ _) fun _ => .bind (.requireM _) fun _ => ih _ _

/-- The loop is a run of `mapPage`, so the links between structures stay sound. -/
theorem TablesState.Links.mapPages (hA : HandsOutFresh A held) {tables : List PageTable}
    (hs : TablesState.Links held ⟨m, tables⟩) (hpt : pt ∈ tables) {phys : ℕ → BitVec 64}
    {mode : Mode} {i : ℕ} {u : Unit} (hmap : mapPages A pt phys mode start i n m = .ok (u, m')) :
    TablesState.Links held ⟨m', tables⟩ := by
  obtain ⟨j, hj⟩ := List.mem_iff_getElem?.mp hpt
  induction n generalizing start i m with
  | zero =>
    obtain ⟨-, rfl⟩ := pure_eq_ok.mp hmap
    exact hs
  | succ n ih =>
    obtain ⟨err, m₁, hpage, hmap⟩ := bind_eq_ok.mp hmap
    obtain ⟨_, m₂, hzero, hrest⟩ := bind_eq_ok.mp hmap
    obtain ⟨-, rfl⟩ := requireM_eq_ok.mp hzero
    exact ih (hs.step hA (.mapPage hj hpage)) hrest

/-- The loop of `Alloc` maps the pages to the physical addresses of the array. -/
theorem mapLoop_eq (A : PhysicalAllocator σ) (pt : PageTable) (phys : AddrBuffer)
    (virt : BitVec 64) (i n : ℕ) :
    mapLoop A pt phys virt i n = mapPages A pt phys Mode.kernelRW virt i n := by
  induction n generalizing virt i with
  | zero => rfl
  | succ n ih =>
    rw [mapLoop, mapPages]
    simp only [ih]

/-- The loop of `Alloc`: the pages of the range are mapped to the physical addresses of the array,
and no other translation changes. -/
theorem Paging.mapLoop_ok (hA : HandsOutFresh A held) (h : Paging held m roots label)
    (hroot : label pt.pml4Phys = some []) {phys : AddrBuffer} {i : ℕ} (hrange : VAllocRange start n)
    {u : Unit} (hmap : mapLoop A pt phys start i n m = .ok (u, m')) :
    ∃ label', Extends held roots m m' label label' ∧
      (∀ k < n, lookup m' pt.pml4Phys (pageAt start k) =
        some (3, pageEntry (phys (i + k)) Mode.kernelRW)) ∧
      ∀ w, nonCanonical w = false → OutsideRange start n w →
        lookup m' pt.pml4Phys w = lookup m pt.pml4Phys w := by
  rw [mapLoop_eq] at hmap
  obtain ⟨label', hmapped⟩ := h.mapPages_ok hA hroot hrange.pageRange hmap
  exact ⟨label', hmapped.ext, hmapped.pages, fun w => hmapped.lookup_eq _ w hroot⟩

/-! ## Reading and unmapping the pages of a range -/

/-- The loop of `Free` that reads physical addresses finds those of the pages, and changes
nothing. -/
theorem Paging.physLoop_ok (h : Paging held m roots label) (hroot : label pt.pml4Phys = some [])
    {pages read : List (BitVec 64)} {mode : Mode} (hframes : ∀ a ∈ pages, IsFrame a)
    (hrange : VAllocRange start pages.length)
    (hpages : ∀ i p, pages[i]? = some p →
      lookup m pt.pml4Phys (pageAt start i) = some (3, pageEntry p mode))
    (hread : physLoop pt start pages.length m = .ok (read, m')) : read = pages ∧ m' = m := by
  induction pages generalizing start read with
  | nil =>
    obtain ⟨rfl, rfl⟩ := pure_eq_ok.mp hread
    exact ⟨rfl, rfl⟩
  | cons p pages ih =>
    obtain ⟨⟨err, out⟩, m₁, haddr, hread⟩ := bind_eq_ok.mp hread
    obtain ⟨_, m₂, hone, hread⟩ := bind_eq_ok.mp hread
    obtain ⟨-, rfl⟩ := requireM_eq_ok.mp hone
    obtain ⟨rest, m₃, hrest, hread⟩ := bind_eq_ok.mp hread
    obtain ⟨rfl, rfl⟩ := pure_eq_ok.mp hread
    have hfirst := hpages 0 p rfl
    have hcanon := hrange.canonical (i := 0) (by simp)
    have hbase := hrange.pageBase_pageAt (i := 0) (by simp)
    rw [pageAt_zero] at hfirst hcanon hbase
    -- the first page
    have htranslate := translation_pageEntry (hframes p List.mem_cons_self) start mode
      (o := 0) (by omega)
    rw [hbase, BitVec.add_zero, BitVec.add_zero] at htranslate
    rw [h.getPhysAddr_eq hroot hcanon, hfirst, htranslate] at haddr
    simp only [Except.ok.injEq, Prod.mk.injEq] at haddr
    obtain ⟨⟨-, rfl⟩, rfl⟩ := haddr
    -- the others
    have hnext : ∀ i q, pages[i]? = some q →
        lookup m pt.pml4Phys (pageAt (start + BitVec.ofNat 64 pageSize) i) =
          some (3, pageEntry q mode) := by
      intro i q hi
      rw [← pageAt_succ]
      exact hpages (i + 1) q (by simpa using hi)
    obtain ⟨rfl, rfl⟩ := ih (fun a ha => hframes a (List.mem_cons_of_mem _ ha)) hrange.tail hnext
      hrest
    exact ⟨rfl, rfl⟩

/-- The loop of `unmap` over mapped pages: if it succeeds, the pages are unmapped and no other
translation changes. -/
theorem Paging.unmapLoop_ok (h : Paging held m roots label) (hroot : label pt.pml4Phys = some [])
    (hrange : VAllocRange start n)
    (hpages : ∀ i < n, ∃ e, lookup m pt.pml4Phys (pageAt start i) = some (3, e))
    (hunmap : unmapLoop pt start n m = .ok (0, m')) :
    (∀ i < n, lookup m' pt.pml4Phys (pageAt start i) = none) ∧
      ∀ w, nonCanonical w = false → OutsideRange start n w →
        lookup m' pt.pml4Phys w = lookup m pt.pml4Phys w := by
  induction n generalizing start m with
  | zero =>
    obtain ⟨-, rfl⟩ := pure_eq_ok.mp hunmap
    exact ⟨by simp, fun _ _ _ => rfl⟩
  | succ n ih =>
    obtain ⟨err, m₁, hpage, hrest⟩ := bind_eq_ok.mp hunmap
    split at hrest
    next hneg =>
      obtain ⟨rfl, -⟩ := pure_eq_ok.mp hrest
      cases hneg
    next hnonneg =>
      obtain ⟨e, hfirst⟩ := hpages 0 (by omega)
      have hcanon := hrange.canonical (i := 0) (by omega)
      have hbase := hrange.pageBase_pageAt (i := 0) (by omega)
      rw [pageAt_zero] at hfirst hcanon
      -- the first page was mapped, so its entry is cleared
      have hcleared : Cleared pt.pml4Phys start m m₁ := by
        rcases h.unmapPage_ok hroot hpage with ⟨-, hneg | hnone⟩ | ⟨-, hcleared⟩
        · exact absurd hneg hnonneg
        · rw [hfirst] at hnone
          cases hnone
        · exact hcleared
      have hothers : ∀ w, nonCanonical w = false → pageBase w ≠ pageBase start →
          lookup m₁ pt.pml4Phys w = lookup m pt.pml4Phys w :=
        fun w hw hne => hcleared.walk_eq h hroot hfirst hroot (not_prefix_path hcanon hw hne)
      rw [pageAt_zero] at hbase
      have hnext : ∀ i < n, ∃ e, lookup m₁ pt.pml4Phys
          (pageAt (start + BitVec.ofNat 64 pageSize) i) = some (3, e) := by
        intro i hi
        have hne : pageBase (pageAt start (i + 1)) ≠ pageBase start := by
          rw [hrange.pageBase_pageAt (by omega), hbase, ← pageAt_zero start]
          simpa using hrange.pageAt_ne (i := i + 1) (j := 0) (by omega) (by omega) (by omega)
        rw [← pageAt_succ, hothers _ (hrange.canonical (by omega)) hne]
        exact hpages (i + 1) (by omega)
      obtain ⟨hnone, hsame⟩ := ih (hcleared.paging h hroot) hrange.tail hnext hrest
      refine ⟨fun i hi => ?_, fun w hw hout => ?_⟩
      · cases i with
        | zero =>
          have hout : OutsideRange (start + BitVec.ofNat 64 pageSize) n start := by
            intro j hj
            rw [hbase, ← pageAt_succ, ← pageAt_zero start]
            simpa using hrange.pageAt_ne (i := 0) (j := j + 1) (by omega) (by omega) (by omega)
          rw [pageAt_zero, hsame start hcanon hout, hcleared.lookup_eq h hroot]
        | succ i =>
          rw [pageAt_succ]
          exact hnone i (by omega)
      · have hne : pageBase w ≠ pageBase start := by
          simpa [hbase] using hout 0 (by omega)
        rw [hsame w hw hout.tail, hothers w hw hne]

/-! ## Reading and unmapping return -/

/-- The loop of `Free` that reads physical addresses returns if the pages are mapped. -/
theorem Paging.physLoop_eq (h : Paging held m roots label) (hroot : label pt.pml4Phys = some [])
    {pages : List (BitVec 64)} {mode : Mode} (hframes : ∀ a ∈ pages, IsFrame a)
    (hrange : VAllocRange start pages.length)
    (hpages : ∀ i p, pages[i]? = some p →
      lookup m pt.pml4Phys (pageAt start i) = some (3, pageEntry p mode)) :
    physLoop pt start pages.length m = .ok (pages, m) := by
  -- what is read is known already if the loop returns
  suffices hreturns : ∃ read m', physLoop pt start pages.length m = .ok (read, m') by
    obtain ⟨read, m', hread⟩ := hreturns
    obtain ⟨rfl, rfl⟩ := h.physLoop_ok hroot hframes hrange hpages hread
    exact hread
  induction pages generalizing start with
  | nil => exact ⟨[], m, rfl⟩
  | cons p pages ih =>
    have hfirst := hpages 0 p rfl
    have hcanon := hrange.canonical (i := 0) (by simp)
    have hbase := hrange.pageBase_pageAt (i := 0) (by simp)
    rw [pageAt_zero] at hfirst hcanon hbase
    have htranslate := translation_pageEntry (hframes p List.mem_cons_self) start mode
      (o := 0) (by omega)
    rw [hbase, BitVec.add_zero, BitVec.add_zero] at htranslate
    have haddr := h.getPhysAddr_eq hroot hcanon
    rw [hfirst, htranslate] at haddr
    obtain ⟨read, m', hrest⟩ := ih (fun a ha => hframes a (List.mem_cons_of_mem _ ha)) hrange.tail
      fun i q hi => by
        rw [← pageAt_succ]
        exact hpages (i + 1) q (by simpa using hi)
    refine ⟨p :: read, m', ?_⟩
    rw [List.length_cons, physLoop, bind_of_ok haddr]
    have hone : requireM ((1 : ℤ) == 1) m = .ok ((), m) := requireM_of_true rfl
    dsimp only
    rw [bind_of_ok hone, bind_of_ok hrest]
    rfl

/-- The loop of `unmap` returns and does not fail on canonical addresses. -/
theorem Paging.unmapLoop_returns (h : Paging held m roots label)
    (hroot : label pt.pml4Phys = some []) (hrange : VAllocRange start n) :
    ∃ m', unmapLoop pt start n m = .ok (0, m') := by
  induction n generalizing start m with
  | zero => exact ⟨m, rfl⟩
  | succ n ih =>
    have hcanon := hrange.canonical (i := 0) (by omega)
    rw [pageAt_zero] at hcanon
    obtain ⟨c, m₁, hpage, hnonneg⟩ := h.unmapPage_returns hroot hcanon
    obtain ⟨m', hrest⟩ := ih (h.unmapPage_keeps hroot hpage).paging hrange.tail
    refine ⟨m', ?_⟩
    rw [unmapLoop, bind_of_ok hpage, if_neg (not_lt.mpr hnonneg), hrest]

end KushOs.Vm
