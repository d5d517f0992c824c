import KushOs.Kernel.Vm.Supply
import KushOs.Kernel.Vm.UnmapRange

/-!
# Contiguous regions of physical memory

A `ContiguousPhysRegion` is added to a map page by page, each with a call of `mapPage`, and removed
with one call of `unmap`. In any state of the page tables the region appears at its base, the rest
of all address spaces stays as it is, and removing the region gives the addresses back.

## Main definitions

* `Map.add`, `ContiguousPhysRegion.addedTo`, `ContiguousPhysRegion.willRemoveFrom`: the code.
* `ContiguousPhysRegion.Fits`: the region can be mapped at a base.
* `ContiguousPhysRegion.MappedAt`, `SameOutside`: the region is mapped, and nothing else changed.

## Main results

* `ContiguousPhysRegion.addedTo_ok`: what adding a region does if it returns.
* `region_mapped_and_removed`: adding and removing a region.
-/

namespace KushOs.Vm

open Memory RadixTable KernelM PageTable Transition

variable {σ : Type} {A : PhysicalAllocator σ} {held : σ → Set (BitVec 64)} {m m' : Machine σ}
variable {roots : List (BitVec 64)} {label : Labels (BitVec 64) Index} {pt : PageTable}
variable {region : ContiguousPhysRegion} {base : BitVec 64}

/-! ## The code -/

/-- A `MapEntry`, which is reference counted; regions are the only ones. -/
structure MapEntry where
  region : ContiguousPhysRegion
  /-- `refCount`, a `size_t`. -/
  refCount : BitVec 64
  deriving DecidableEq, Repr

/-- `RefCountable::retain`. -/
def MapEntry.retain (entry : MapEntry) : MapEntry :=
  { entry with refCount := entry.refCount + 1 }

/-- `MapEntry::isOrphaned`, which is not implemented. -/
def MapEntry.isOrphaned (_entry : MapEntry) : Bool := true

namespace ContiguousPhysRegion

/-- The loop of `addedTo` over the `n` pages from offset `off` on. -/
def addedToLoop (A : PhysicalAllocator σ) (pt : PageTable) (region : ContiguousPhysRegion)
    (base : BitVec 64) (off : ℕ) : ℕ → KernelM σ Unit
  | 0 => return ()
  | n + 1 => do
      let phys := region.physBase + BitVec.ofNat 64 off
      let virt := base + BitVec.ofNat 64 off
      let err ← PageTable.mapPage A pt phys virt region.accessMode
      requireM (err == 0)
      addedToLoop A pt region base (off + pageSize) n

/-- `ContiguousPhysRegion::addedTo`. -/
def addedTo (A : PhysicalAllocator σ) (pt : PageTable) (region : ContiguousPhysRegion)
    (base : BitVec 64) : KernelM σ Unit :=
  addedToLoop A pt region base 0 ((region.length + (pageSize - 1)) / pageSize)

/-- `ContiguousPhysRegion::willRemoveFrom`. Invalidating the TLB, for which the size is passed, does
not change the state and does not fail. -/
def willRemoveFrom (pt : PageTable) (region : ContiguousPhysRegion) (base : BitVec 64) :
    KernelM σ Unit := do
  let err ← PageTable.unmap pt base region.length
  requireM (err == 0)

end ContiguousPhysRegion

/-- `Map::add`, with the page table of the map: the result, and the entry afterwards. -/
def Map.add (A : PhysicalAllocator σ) (pt : PageTable) (base : BitVec 64) :
    Option MapEntry → KernelM σ (ℤ × Option MapEntry)
  | none => return (-1, none)
  | some entry =>
      if base = 0 then return (-1, some entry)
      else do
        let entry := entry.retain
        entry.region.addedTo A pt base
        return (0, some entry)

/-- `Map::add` refuses the null page, or it adds the entry. -/
theorem Map.add_ok {entry : MapEntry} {err : ℤ} {out : Option MapEntry}
    (h : Map.add A pt base (some entry) m = .ok ((err, out), m')) :
    err = -1 ∨ (err = 0 ∧ out = some entry.retain ∧
      entry.region.addedTo A pt base m = .ok ((), m')) := by
  rw [Map.add] at h
  split at h
  next =>
    obtain ⟨heq, -⟩ := pure_eq_ok.mp h
    exact Or.inl (Prod.mk.inj heq).1.symm
  next =>
    obtain ⟨u, m₁, hadd, hret⟩ := bind_eq_ok.mp h
    obtain ⟨heq, rfl⟩ := pure_eq_ok.mp hret
    obtain ⟨rfl, rfl⟩ := Prod.mk.inj heq
    exact Or.inr ⟨rfl, rfl, hadd⟩

/-! ## Regions in an address space -/

/-- All page tables translate the addresses outside a range as before, with the same rights. -/
def SameOutside (m m' : Machine σ) (tables : List PageTable) (base : BitVec 64) (length : ℕ) :
    Prop :=
  ∀ q ∈ tables, ∀ w, ¬ InRange base length w →
    hardwareAccess m' q.pml4Phys w = hardwareAccess m q.pml4Phys w ∧
      q.report w m' = q.report w m

theorem SameOutside.trans {m'' : Machine σ} {tables : List PageTable} {length : ℕ}
    (h : SameOutside m m' tables base length) (h' : SameOutside m' m'' tables base length) :
    SameOutside m m'' tables base length := by
  intro q hq w hw
  obtain ⟨haccess, hreport⟩ := h q hq w hw
  obtain ⟨haccess', hreport'⟩ := h' q hq w hw
  exact ⟨haccess'.trans haccess, hreport'.trans hreport⟩

/-- The allocator's state has no effect on translations. -/
theorem SameOutside.setAllocator {tables : List PageTable}
    (hs : TablesState.Inv held ⟨m, tables⟩) {a : σ} (ha : held m.allocator ⊆ held a)
    (base : BitVec 64) (length : ℕ) :
    SameOutside m { m with allocator := a } tables base length := by
  intro q hq w _
  obtain ⟨label, hp⟩ := hs
  have hroot : label q.pml4Phys = some [] := hp.labelled.root _ (TablesState.mem_roots hq)
  exact ⟨rfl, hp.report_congr (hp.setAllocator ha) hroot hroot fun _ => rfl⟩

namespace ContiguousPhysRegion

/-- The region consists of whole frames, and whole canonical pages from `base` on can hold it. -/
structure Fits (region : ContiguousPhysRegion) (base : BitVec 64) : Prop where
  aligned : region.physBase.toNat % pageSize = 0
  bound : region.physBase.toNat + region.length ≤ 2 ^ 52
  whole : region.length % pageSize = 0
  range : PageRange base (region.length / pageSize)

/-- Each byte of the region is found at its offset from `base`, by the processor and by
`getPhysAddr`, and both allow writes exactly if the mode has a write bit. -/
def MappedAt (m : Machine σ) (pt : PageTable) (region : ContiguousPhysRegion)
    (base : BitVec 64) : Prop :=
  ∀ o < region.length,
    (∃ user, hardwareAccess m pt.pml4Phys (base + BitVec.ofNat 64 o) =
      some ⟨region.physBase + BitVec.ofNat 64 o, region.accessMode.test Mode.write, user⟩) ∧
    ∃ access, pt.report (base + BitVec.ofNat 64 o) m =
        .ok (1, some (region.physBase + BitVec.ofNat 64 o, access)) ∧
      access.test Mode.write = region.accessMode.test Mode.write

/-- A region stays mapped while only addresses outside it change. -/
theorem MappedAt.of_sameOutside {tables : List PageTable} {base' : BitVec 64} {length : ℕ}
    (h : region.MappedAt m pt base) (hpt : pt ∈ tables)
    (hsame : SameOutside m m' tables base' length)
    (hout : ∀ o < region.length, ¬ InRange base' length (base + BitVec.ofNat 64 o)) :
    region.MappedAt m' pt base := by
  intro o ho
  obtain ⟨haccess, hreport⟩ := hsame pt hpt _ (hout o ho)
  rw [haccess, hreport]
  exact h o ho

/-- Physical address of page `i` of a region. -/
def physAt (region : ContiguousPhysRegion) (i : ℕ) : BitVec 64 :=
  region.physBase + BitVec.ofNat 64 (i * pageSize)

/-- The loop of `addedTo` maps a range of pages. -/
theorem addedToLoop_eq (A : PhysicalAllocator σ) (pt : PageTable) (region : ContiguousPhysRegion)
    (base : BitVec 64) (i n : ℕ) :
    addedToLoop A pt region base (i * pageSize) n =
      mapPages A pt region.physAt region.accessMode (pageAt base i) i n := by
  induction n generalizing i with
  | zero => rfl
  | succ n ih =>
    have hnext : pageAt base i + BitVec.ofNat 64 pageSize = pageAt base (i + 1) := by
      rw [pageAt, pageAt, Nat.succ_mul, BitVec.ofNat_add, BitVec.add_assoc]
    rw [addedToLoop, mapPages, ← Nat.succ_mul, ih, hnext]
    rfl

namespace Fits

theorem addedTo_eq (h : region.Fits base) (A : PhysicalAllocator σ) (pt : PageTable) :
    region.addedTo A pt base =
      mapPages A pt region.physAt region.accessMode base 0 (region.length / pageSize) := by
  have hpages : (region.length + (pageSize - 1)) / pageSize = region.length / pageSize := by
    have hwhole := h.whole
    simp only [pageSize] at *
    omega
  have hloop := addedToLoop_eq A pt region base 0 (region.length / pageSize)
  rw [Nat.zero_mul, pageAt_zero] at hloop
  rw [addedTo, hpages, hloop]

theorem isFrame (h : region.Fits base) {i : ℕ} (hi : i < region.length / pageSize) :
    IsFrame (region.physAt i) := by
  obtain ⟨haligned, hbound, -, -⟩ := h
  have hle : (i + 1) * pageSize ≤ region.length :=
    (Nat.mul_le_mul_right _ hi).trans (Nat.div_mul_le_self _ _)
  have hnat : (region.physAt i).toNat = region.physBase.toNat + i * pageSize := by
    rw [physAt, BitVec.toNat_add, BitVec.toNat_ofNat]
    simp only [pageSize] at *
    omega
  rw [IsFrame, hnat]
  simp only [pageSize] at *
  omega

/-- The page and the offset in it of a byte of the region. -/
theorem byte_eq (h : region.Fits base) {o : ℕ} (ho : o < region.length) :
    o / pageSize < region.length / pageSize ∧ o % pageSize < pageSize ∧
      base + BitVec.ofNat 64 o =
        pageBase (pageAt base (o / pageSize)) + BitVec.ofNat 64 (o % pageSize) ∧
      region.physBase + BitVec.ofNat 64 o =
        region.physAt (o / pageSize) + BitVec.ofNat 64 (o % pageSize) := by
  have hpage : o / pageSize < region.length / pageSize := by
    have hwhole := h.whole
    simp only [pageSize] at *
    omega
  have hsplit : ∀ b : BitVec 64, b + BitVec.ofNat 64 o =
      b + BitVec.ofNat 64 (o / pageSize * pageSize) + BitVec.ofNat 64 (o % pageSize) := by
    intro b
    rw [BitVec.add_assoc, ← BitVec.ofNat_add, Nat.div_add_mod']
  refine ⟨hpage, Nat.mod_lt _ (by norm_num), ?_, hsplit _⟩
  rw [h.range.pageBase_pageAt hpage]
  exact hsplit base

/-- Addresses outside the range of the region are in none of its pages. -/
theorem outside (h : region.Fits base) {w : BitVec 64} (hw : ¬ InRange base region.length w) :
    OutsideRange base (region.length / pageSize) w := by
  refine h.range.outside ?_
  have hlength := Nat.div_mul_cancel (Nat.dvd_of_mod_eq_zero h.whole)
  rw [hlength]
  simp only [InRange] at hw
  omega

end Fits

/-- What adding a region does, in any state of the page tables, if it returns. -/
theorem addedTo_ok (hA : HandsOutFresh A held) {s : TablesState σ} (hs : s.Links held)
    (hpt : pt ∈ s.tables) (hfits : region.Fits base) {u : Unit}
    (hadd : region.addedTo A pt base s.machine = .ok (u, m')) :
    TablesState.Links held ⟨m', s.tables⟩ ∧ region.MappedAt m' pt base ∧
      SameOutside s.machine m' s.tables base region.length ∧
      ∀ i < region.length / pageSize, lookup m' pt.pml4Phys (pageAt base i) =
        some (3, pageEntry (region.physAt i) region.accessMode) := by
  rw [hfits.addedTo_eq] at hadd
  have hs' := hs.mapPages hA hpt hadd
  obtain ⟨label, own, hp, -⟩ := hs
  have hlabel : ∀ q ∈ s.tables, label q.pml4Phys = some [] :=
    fun q hq => hp.labelled.root _ (TablesState.mem_roots hq)
  obtain ⟨label', hmapped⟩ := hp.mapPages_ok hA (hlabel pt hpt) hfits.range hadd
  simp only [Nat.zero_add] at hmapped
  refine ⟨hs', fun o ho => ?_, fun q hq w hw => ?_, hmapped.pages⟩
  · -- the page of the byte is mapped to a frame of the region
    obtain ⟨hpage, hoff, hvirt, hphys⟩ := hfits.byte_eq ho
    have hcanon := hfits.range.canonical _ hpage
    rw [← nonCanonical_page _ hoff] at hcanon
    have hlookup := hmapped.pages _ hpage
    rw [← lookup_page _ _ _ hoff] at hlookup
    have htranslate := translation_pageEntry (hfits.isFrame hpage) (pageAt base (o / pageSize))
      region.accessMode hoff
    obtain ⟨label₁, own₁, hp₁, hl₁⟩ := hs'
    have hroot₁ : label₁ pt.pml4Phys = some [] := hp₁.labelled.root _ (TablesState.mem_roots hpt)
    rw [hvirt, hphys]
    constructor
    · have hleaf : leafPhys (pageBase (pageAt base (o / pageSize)) + BitVec.ofNat 64 (o % pageSize))
          3 (pageEntry (region.physAt (o / pageSize)) region.accessMode) =
            region.physAt (o / pageSize) + BitVec.ofNat 64 (o % pageSize) := by
        simpa using (translation_page _ _).symm.trans htranslate
      rw [hl₁.hardwareAccess_page hp₁ hroot₁ hcanon hlookup, hleaf, write_pageEntry]
      exact ⟨_, rfl⟩
    · rw [hp₁.report_eq hroot₁ hcanon, hlookup, htranslate]
      exact ⟨_, rfl, by rw [decodePTE_write, write_pageEntry]⟩
  · have hout := hfits.outside hw
    have hq := hlabel q hq
    exact ⟨hmapped.access_eq _ w hq hout, hp.report_congr hmapped.ext.paging hq
      (hmapped.ext.mono hq) fun hcanon => hmapped.lookup_eq _ w hq hcanon hout⟩

/-- A page of the region contains no address outside its range. -/
theorem Fits.not_mappedTogether (hfits : region.Fits base) {i : ℕ}
    (hi : i < region.length / pageSize)
    {root w e : BitVec 64} (hpage : lookup m root (pageAt base i) = some (3, e))
    (hw : ¬ InRange base region.length w) : ¬ MappedTogether m root (pageAt base i) w := by
  rintro ⟨d, e', hlookup, hsame⟩
  obtain ⟨rfl, -⟩ : 3 = d ∧ e = e' := by simpa using hpage.symm.trans hlookup
  have hsame : pageAt base i >>> 12 = w >>> 12 := hsame
  refine hfits.outside hw i hi ?_
  rw [← hfits.range.pageBase_pageAt hi, pageBase, pageBase, hsame]

/-- Removing a region whose pages are mapped returns, and unmaps them and no others. -/
theorem willRemoveFrom_ok (hfits : region.Fits base) {s : TablesState σ} (hs : s.Inv held)
    (hpt : pt ∈ s.tables) (hbase : base ≠ 0) (hlength : region.length ≠ 0)
    (hpages : ∀ i < region.length / pageSize, ∃ e,
      lookup s.machine pt.pml4Phys (pageAt base i) = some (3, e)) :
    ∃ m', region.willRemoveFrom pt base s.machine = .ok ((), m') ∧
      (∀ w, InRange base region.length w →
        hardwareAccess m' pt.pml4Phys w = none ∧ pt.report w m' = .ok (0, none)) ∧
      SameOutside s.machine m' s.tables base region.length := by
  obtain ⟨label, hp⟩ := hs
  have hlabel : ∀ q ∈ s.tables, label q.pml4Phys = some [] :=
    fun q hq => hp.labelled.root _ (TablesState.mem_roots hq)
  obtain ⟨c, m', hunmap, ⟨rfl, -, hremoved, hnone⟩ | ⟨-, k, hk, hnon, -⟩⟩ :=
    hp.unmap_leaves (TablesState.mem_roots hpt) hbase hfits.range.aligned hlength hfits.whole
  swap
  · rw [hfits.range.canonical k hk] at hnon
    cases hnon
  -- an address in the range shares its page with one that was unmapped
  have hp' := (hp.unmap_keeps (hlabel pt hpt) hunmap).paging
  have hzero : requireM ((0 : ℤ) == 0) m' = .ok ((), m') := requireM_of_true rfl
  refine ⟨m', ?_, fun w hw => ?_, fun q hq w hw => ?_⟩
  · rw [willRemoveFrom, bind_of_ok hunmap, hzero]
  · obtain ⟨i, hi, hpage⟩ := hw.exists_page hfits.range.aligned hfits.whole
    have hcanon : nonCanonical w = false := by
      have hsame := nonCanonical_page w (o := 0) (by omega)
      rw [BitVec.add_zero, hpage, hfits.range.canonical i hi] at hsame
      exact hsame.symm
    exact ⟨hp'.hardwareAccess_none (hlabel pt hpt) (hnone w hw), by
      rw [hp'.report_eq (hlabel pt hpt) hcanon, hnone w hw]
      rfl⟩
  · have hkept : nonCanonical w = false → _ := fun hcanon =>
      hremoved.kept _ (TablesState.mem_roots hq) w hcanon fun i hi => by
        obtain ⟨e, hpage⟩ := hpages i hi
        exact hfits.not_mappedTogether hi hpage hw
    refine ⟨?_, hp.report_congr hp' (hlabel q hq) (hlabel q hq) fun hcanon => (hkept hcanon).1⟩
    rcases hcanon : nonCanonical w with _ | _
    · exact (hkept hcanon).2
    · rw [hardwareAccess, hardwareAccess, hcanon, if_pos rfl, if_pos rfl]

end ContiguousPhysRegion

/-- In every state of every run over the page tables, `Map::add` of a region that fits at `base`
returns zero, if no page of the range is part of a large page and there are frames for the
structures that are missing. Afterwards the region is mapped at `base`, and nothing changed outside
its range. If it is removed then, no address of the range is mapped, and nothing changed outside. -/
theorem region_mapped_and_removed (hA : HandsOutFresh A held) {s : TablesState σ}
    {ops : List TablesOp} {entry : MapEntry} (hrun : Run (TablesStep A) ⟨m, []⟩ ops s)
    (hpt : pt ∈ s.tables) (hbase : base ≠ 0) (hlength : entry.region.length ≠ 0)
    (hfits : entry.region.Fits base)
    (hlarge : ∀ i < entry.region.length / pageSize,
      NotLarge s.machine pt.pml4Phys (pageAt base i))
    (hsupply : Supplied A s.machine pt.pml4Phys
      (rangePaths base (entry.region.length / pageSize))) :
    ∃ m₁, Map.add A pt base (some entry) s.machine = .ok ((0, some entry.retain), m₁) ∧
      entry.region.MappedAt m₁ pt base ∧
      SameOutside s.machine m₁ s.tables base entry.region.length ∧
      ∃ m₂, entry.region.willRemoveFrom pt base m₁ = .ok ((), m₂) ∧
        (∀ w, InRange base entry.region.length w →
          hardwareAccess m₂ pt.pml4Phys w = none ∧ pt.report w m₂ = .ok (0, none)) ∧
        SameOutside m₁ m₂ s.tables base entry.region.length := by
  have hs := TablesState.Links.run hA hrun
  -- adding the region returns
  obtain ⟨label, own, hp, -⟩ := id hs
  have hroot : label pt.pml4Phys = some [] := hp.labelled.root _ (TablesState.mem_roots hpt)
  obtain ⟨m₁, hadd⟩ := hp.mapPages_returns hA hroot hfits.range hlarge
    (fun i hi => structurePaths_subset hi) hsupply entry.region.physAt entry.region.accessMode 0
  rw [← hfits.addedTo_eq] at hadd
  obtain ⟨hs₁, hmapped, hsame, hpages⟩ :=
    ContiguousPhysRegion.addedTo_ok hA hs hpt hfits hadd
  -- and so does removing it
  obtain ⟨label₁, own₁, hp₁, -⟩ := hs₁
  obtain ⟨m₂, hremove, hnone, hsame'⟩ := ContiguousPhysRegion.willRemoveFrom_ok hfits
    (s := ⟨m₁, s.tables⟩) ⟨label₁, hp₁⟩ hpt hbase hlength fun i hi => ⟨_, hpages i hi⟩
  refine ⟨m₁, ?_, hmapped, hsame, m₂, hremove, hnone, hsame'⟩
  have hretain : entry.retain.region = entry.region := rfl
  rw [Map.add, if_neg hbase, hretain, bind_of_ok hadd]
  rfl

/-- Construct a page table and look at the machine. -/
theorem exists_new (A : PhysicalAllocator σ) (m : Machine σ) (p : PageTable → Machine σ → Bool)
    (hreturns : returns (do
      let pt ← PageTable.new A none
      let m ← get
      return p pt m) m id = true) :
    ∃ pt m₁, PageTable.new A none m = .ok (pt, m₁) ∧ p pt m₁ = true := by
  obtain ⟨b, m₂, hok, hb⟩ := exists_of_returns hreturns
  obtain ⟨pt, m₁, hnew, hrest⟩ := bind_eq_ok.mp hok
  rw [get_bind, pure_eq_ok] at hrest
  exact ⟨pt, m₁, hnew, hrest.1.trans hb⟩

/-- A region of two pages on the small machine. -/
def smallRegion : MapEntry := ⟨⟨0x300000#64, 0x2000, Mode.kernelRW⟩, 1⟩

theorem smallRegion_fits : smallRegion.region.Fits 0x3ff000#64 where
  aligned := by decide
  bound := by decide
  whole := by decide
  range := ⟨by decide, by decide, by decide⟩

/-- The two pages of the region are in different page tables. -/
theorem region_mapped_and_removed_small : ∃ pt m₁ m₂ m₃,
    PageTable.new (poolAllocator smallRanges) none smallMachine = .ok (pt, m₁) ∧
      Map.add (poolAllocator smallRanges) pt 0x3ff000#64 (some smallRegion) m₁ =
        .ok ((0, some smallRegion.retain), m₂) ∧
      smallRegion.region.MappedAt m₂ pt 0x3ff000#64 ∧
      smallRegion.region.willRemoveFrom pt 0x3ff000#64 m₂ = .ok ((), m₃) ∧
      hardwareAccess m₃ pt.pml4Phys 0x3ff123#64 = none := by
  obtain ⟨pt, m₁, hnew, hp⟩ := exists_new (poolAllocator smallRanges) smallMachine (fun pt m =>
    (lookup m pt.pml4Phys (pageAt 0x3ff000#64 0)).isNone &&
      (lookup m pt.pml4Phys (pageAt 0x3ff000#64 1)).isNone &&
      decide (Supplied (poolAllocator smallRanges) m pt.pml4Phys (rangePaths 0x3ff000#64 2)))
    (by decide +kernel)
  rw [Bool.and_eq_true, Bool.and_eq_true, decide_eq_true_eq, Option.isNone_iff_eq_none,
    Option.isNone_iff_eq_none] at hp
  obtain ⟨⟨hfirst, hsecond⟩, hsupply⟩ := hp
  have hlarge : ∀ i < smallRegion.region.length / pageSize,
      NotLarge m₁ pt.pml4Phys (pageAt 0x3ff000#64 i) := by
    intro i hi d e hlookup
    obtain rfl | rfl : i = 0 ∨ i = 1 := by
      have htwo : smallRegion.region.length / pageSize = 2 := rfl
      omega
    · rw [hfirst] at hlookup
      cases hlookup
    · rw [hsecond] at hlookup
      cases hlookup
  have hrun : Run (TablesStep (poolAllocator smallRanges)) ⟨smallMachine, []⟩ [.create none]
      ⟨m₁, [] ++ [pt]⟩ := .cons (.create rfl hnew) (.nil _)
  obtain ⟨m₂, hadd, hmapped, -, m₃, hremove, hnone, -⟩ :=
    region_mapped_and_removed smallRanges_handsOutFresh hrun (List.mem_singleton_self pt)
      (by decide) (by decide) smallRegion_fits hlarge hsupply
  exact ⟨pt, m₁, m₂, m₃, hnew, hadd, hmapped, hremove, (hnone _ ⟨by decide, by decide⟩).1⟩

end KushOs.Vm
