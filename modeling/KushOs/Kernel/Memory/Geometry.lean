import KushOs.Kernel.Memory.Pool

/-!
# Where the pages of a pool lie

The fields of a region other than its bitmap and its counter never change after construction.
They place the pages of the region in physical memory, and for disjoint regions a page address
determines its region and its bit.

## Main definitions

* `Region.WellFormed`: what `Region::Region` establishes for an aligned range.
* `Region.shape`: a region without its bitmap and its counter.
* `PageAt`: an address is that of the allocatable page of a given region and bit.

## Main results

* `PageAt.unique`: a page address determines its region and its bit.
* `PageAt.of_contains`: `Region::contains` accepts no page of another region, and for the pages it
  accepts `Region::free` computes the right bit.
-/

namespace KushOs.Memory

open WordBitmap

namespace Region

/-- A region as its constructor leaves it, whatever its bitmap and its counter say. -/
structure WellFormed (r : Region) : Prop where
  aligned : r.physBase.toNat % pageSize = 0
  nonempty : 0 < r.numPages
  fits : r.physBase.toNat + r.numPages * pageSize ≤ 2 ^ 64
  reserved_eq : r.bitmapReserved = bitmapPages r.numPages * pageSize
  size_eq : r.bitmapSize = r.numPages - bitmapPages r.numPages
  allocBase_eq : r.allocBasePhys = r.physBase + BitVec.ofNat 64 r.bitmapReserved

/-- The fields that no operation changes. -/
def shape (r : Region) : Region := { r with words := fun _ => 0, numAllocated := 0 }

@[simp]
theorem shape_takeBits (r : Region) (n : ℕ) : (r.takeBits n).shape = r.shape := rfl

/-- A region is its shape, its bitmap and its counter. -/
theorem eq_of_shape {r r' : Region} (h : r.shape = r'.shape) (hwords : r.words = r'.words)
    (hcount : r.numAllocated = r'.numAllocated) : r = r' := by
  have hself : ∀ q : Region,
      q = { q.shape with words := q.words, numAllocated := q.numAllocated } := fun _ => rfl
  rw [hself r, hself r', h, hwords, hcount]

theorem bitmapSize_of_shape {r r' : Region} (h : r.shape = r'.shape) :
    r.bitmapSize = r'.bitmapSize :=
  show r.shape.bitmapSize = r'.shape.bitmapSize by rw [h]

theorem pageAddr_of_shape {r r' : Region} (h : r.shape = r'.shape) : r.pageAddr = r'.pageAddr :=
  show r.shape.pageAddr = r'.shape.pageAddr by rw [h]

/-- The bit that `Region::free` computes from an address. -/
def freeIndex (r : Region) (a : BitVec 64) : ℕ :=
  ((a - r.allocBasePhys) / BitVec.ofNat 64 pageSize).toNat

/-- First address past the region. -/
def endAddr (r : Region) : ℕ := r.physBase.toNat + r.numPages * pageSize

theorem bitmapPages_le {n : ℕ} (hn : 0 < n) : bitmapPages n ≤ n := by
  simp only [bitmapPages, bitmapBytes, pageSize]
  omega

theorem bitmapPages_pos {n : ℕ} (hn : 0 < n) : 0 < bitmapPages n := by
  simp only [bitmapPages, bitmapBytes, pageSize]
  omega

namespace WellFormed

variable {r : Region}

/-- The reserved pages and the allocatable pages make up the region. -/
theorem reserved_add_size (h : r.WellFormed) :
    r.bitmapReserved + r.bitmapSize * pageSize = r.numPages * pageSize := by
  have := bitmapPages_le h.nonempty
  rw [h.reserved_eq, h.size_eq, ← Nat.add_mul]
  congr 1
  omega

theorem reserved_pos (h : r.WellFormed) : 0 < r.bitmapReserved := by
  have := bitmapPages_pos h.nonempty
  simp only [h.reserved_eq, pageSize]
  omega

theorem size_lt (h : r.WellFormed) : r.bitmapSize < 2 ^ 52 := by
  have hsum := h.reserved_add_size
  have hpos := h.reserved_pos
  have hfits := h.fits
  simp only [pageSize] at *
  omega

/-- The bitmap has a bit for every allocatable page. -/
theorem word_lt (h : r.WellFormed) {b : ℕ} (hb : b < r.bitmapSize) :
    b / 64 < r.bitmapReserved / 8 := by
  rw [h.size_eq] at hb
  rw [h.reserved_eq]
  simp only [bitmapPages, bitmapBytes, pageSize] at *
  omega

/-- The address of an allocatable page does not wrap. -/
theorem pageAddr_toNat (h : r.WellFormed) {b : ℕ} (hb : b < r.bitmapSize) :
    (r.pageAddr b).toNat = r.physBase.toNat + r.bitmapReserved + b * pageSize := by
  have hsum := h.reserved_add_size
  have hfits := h.fits
  have hlt : r.physBase.toNat + r.bitmapReserved + b * pageSize < 2 ^ 64 := by
    simp only [pageSize] at *
    omega
  rw [pageAddr, h.allocBase_eq, BitVec.toNat_add, BitVec.toNat_add, BitVec.toNat_ofNat,
    BitVec.toNat_ofNat]
  simp only [pageSize] at *
  omega

/-- An allocatable page is aligned and lies after the bitmap and before the end of the region. -/
theorem pageAddr_bounds (h : r.WellFormed) {b : ℕ} (hb : b < r.bitmapSize) :
    (r.pageAddr b).toNat % pageSize = 0 ∧
      r.physBase.toNat + r.bitmapReserved ≤ (r.pageAddr b).toNat ∧
      (r.pageAddr b).toNat < r.endAddr := by
  have hsum := h.reserved_add_size
  have haligned := h.aligned
  have hres := h.reserved_eq
  rw [h.pageAddr_toNat hb, endAddr]
  simp only [pageSize] at *
  omega

/-- `Region::free` computes the bit of a page back from its address. -/
theorem freeIndex_pageAddr (h : r.WellFormed) {b : ℕ} (hb : b < r.bitmapSize) :
    r.freeIndex (r.pageAddr b) = b := by
  have hlt := h.size_lt
  have hsub : r.pageAddr b - r.allocBasePhys = BitVec.ofNat 64 (b * pageSize) := by
    rw [pageAddr, BitVec.add_comm, BitVec.add_sub_cancel]
  have hpage : pageSize % 2 ^ 64 = pageSize := by norm_num
  have hmod : b * pageSize % 2 ^ 64 = b * pageSize := by
    rw [Nat.mod_eq_of_lt]
    simp only [pageSize]
    omega
  rw [freeIndex, hsub, BitVec.toNat_udiv, BitVec.toNat_ofNat, BitVec.toNat_ofNat, hmod, hpage]
  exact Nat.mul_div_cancel b (by norm_num)

/-- The range that `contains` tests lies inside the region. -/
theorem bounds_of_contains (h : r.WellFormed) {a : BitVec 64} (ha : r.contains a = true) :
    r.physBase.toNat ≤ a.toNat ∧ a.toNat < r.endAddr := by
  have hfits := h.fits
  have hpos := h.nonempty
  simp only [contains, Bool.and_eq_true, decide_eq_true_eq, BitVec.le_def, BitVec.lt_def,
    BitVec.toNat_add, BitVec.toNat_ofNat, endAddr, pageSize] at *
  omega

end WellFormed

/-- Being well formed depends on the shape only. -/
theorem WellFormed.of_shape {r r' : Region} (h : r.WellFormed) (hshape : r.shape = r'.shape) :
    r'.WellFormed := by
  have hself : ∀ q : Region, q.WellFormed ↔ q.shape.WellFormed :=
    fun q => ⟨fun ⟨h1, h2, h3, h4, h5, h6⟩ => ⟨h1, h2, h3, h4, h5, h6⟩,
      fun ⟨h1, h2, h3, h4, h5, h6⟩ => ⟨h1, h2, h3, h4, h5, h6⟩⟩
  rw [hself, ← hshape, ← hself]
  exact h

/-- The constructor builds a well-formed region over an aligned range. -/
theorem wellFormed_of_new {earlyBoot : Bool} {base : BitVec 64} {length : ℕ} {prior : Words}
    {r : Region} (h : Region.new earlyBoot base length prior = .ok r)
    (haligned : base.toNat % pageSize = 0) (hlength : length % pageSize = 0)
    (hfits : base.toNat + length ≤ 2 ^ 64) :
    r.WellFormed ∧ r.physBase = base ∧ r.numPages * pageSize = length ∧ r.numAllocated = 0 ∧
      r.words = memset prior 0xFF (bitmapBytes r.numPages) := by
  simp only [Region.new, bind, Except.bind, pure, Except.pure] at h
  split at h
  · cases h
  next hpos =>
    split at h
    · cases h
    · cases h
      simp only [require_eq_ok, ne_eq, decide_not, Bool.not_eq_true', decide_eq_false_iff_not]
        at hpos
      have hdiv : length / pageSize * pageSize = length := by
        simp only [pageSize] at *
        omega
      refine ⟨⟨haligned, ?_, ?_, rfl, rfl, rfl⟩, rfl, hdiv, rfl, rfl⟩
      · simp only [pageSize] at *
        omega
      · rw [hdiv]
        exact hfits

end Region

/-! ## Page addresses in a list of regions -/

/-- The ranges of two regions have no address in common. -/
def Region.Apart (r r' : Region) : Prop :=
  r.endAddr ≤ r'.physBase.toNat ∨ r'.endAddr ≤ r.physBase.toNat

/-- `a` is the address of allocatable page `b` of region `i`. -/
def PageAt (rs : List Region) (a : BitVec 64) (i b : ℕ) : Prop :=
  ∃ r, rs[i]? = some r ∧ b < r.bitmapSize ∧ a = r.pageAddr b

/-- Well-formed regions, pairwise apart. -/
structure Layout (rs : List Region) : Prop where
  wellFormed : ∀ r ∈ rs, r.WellFormed
  apart : rs.Pairwise Region.Apart

namespace Layout

variable {rs : List Region}

theorem apart_of_ne (h : Layout rs) {i j : ℕ} {r r' : Region} (hi : rs[i]? = some r)
    (hj : rs[j]? = some r') (hne : i ≠ j) : r.Apart r' := by
  obtain ⟨hi', rfl⟩ := List.getElem?_eq_some_iff.mp hi
  obtain ⟨hj', rfl⟩ := List.getElem?_eq_some_iff.mp hj
  rcases Nat.lt_or_gt_of_ne hne with hlt | hgt
  · exact List.pairwise_iff_getElem.mp h.apart i j hi' hj' hlt
  · exact (List.pairwise_iff_getElem.mp h.apart j i hj' hi' hgt).symm

/-- Two regions that have an address in common are the same. -/
theorem index_eq (h : Layout rs) {i j : ℕ} {r r' : Region} (hi : rs[i]? = some r)
    (hj : rs[j]? = some r') {n : ℕ} (hn : r.physBase.toNat ≤ n ∧ n < r.endAddr)
    (hn' : r'.physBase.toNat ≤ n ∧ n < r'.endAddr) : i = j := by
  by_contra hne
  rcases h.apart_of_ne hi hj hne with hle | hle <;> omega

/-- No address is accepted by the `contains` of two regions. -/
theorem contains_disjoint (h : Layout rs) :
    rs.Pairwise fun r r' => ∀ a, r.contains a = true → r'.contains a = false := by
  refine List.Pairwise.imp_of_mem ?_ h.apart
  intro r r' hr hr' hapart a ha
  rw [← Bool.not_eq_true]
  intro ha'
  have hin := (h.wellFormed r hr).bounds_of_contains ha
  have hin' := (h.wellFormed r' hr').bounds_of_contains ha'
  rcases hapart with hle | hle <;> omega

/-- A page lies in its region. -/
theorem bounds (h : Layout rs) {i b : ℕ} {r : Region} (hi : rs[i]? = some r)
    (hb : b < r.bitmapSize) :
    r.physBase.toNat ≤ (r.pageAddr b).toNat ∧ (r.pageAddr b).toNat < r.endAddr := by
  have := (h.wellFormed r (List.mem_of_getElem? hi)).pageAddr_bounds hb
  omega

end Layout

/-- A page address determines its region and its bit. -/
theorem PageAt.unique {rs : List Region} (hl : Layout rs) {a : BitVec 64} {i j b c : ℕ}
    (h : PageAt rs a i b) (h' : PageAt rs a j c) : i = j ∧ b = c := by
  obtain ⟨r, hi, hb, rfl⟩ := h
  obtain ⟨r', hj, hc, heq⟩ := h'
  have hij : i = j := hl.index_eq hi hj (hl.bounds hi hb) (heq ▸ hl.bounds hj hc)
  subst hij
  obtain rfl : r = r' := Option.some.inj (hi.symm.trans hj)
  have hwf := hl.wellFormed r (List.mem_of_getElem? hi)
  have := congrArg BitVec.toNat heq
  rw [hwf.pageAddr_toNat hb, hwf.pageAddr_toNat hc] at this
  simp only [pageSize] at this
  omega

/-- If a region's `contains` accepts a page address, the page is one of that region's, and
`Region::free` computes its bit. -/
theorem PageAt.of_contains {rs : List Region} (hl : Layout rs) {a : BitVec 64} {i j b : ℕ}
    {r : Region} (h : PageAt rs a i b) (hj : rs[j]? = some r) (hc : r.contains a = true) :
    i = j ∧ b < r.bitmapSize ∧ r.freeIndex a = b := by
  obtain ⟨r', hi, hb, rfl⟩ := h
  have hwf := hl.wellFormed r (List.mem_of_getElem? hj)
  have hij : i = j := hl.index_eq hi hj (hl.bounds hi hb) (hwf.bounds_of_contains hc)
  subst hij
  obtain rfl : r' = r := Option.some.inj (hi.symm.trans hj)
  exact ⟨rfl, hb, hwf.freeIndex_pageAddr hb⟩

/-- So does the layout. -/
theorem Layout.of_shape {rs rs' : List Region}
    (hshape : rs.map Region.shape = rs'.map Region.shape) (h : Layout rs) : Layout rs' := by
  refine ⟨?_, ?_⟩
  · intro r' hr'
    have hmem : r'.shape ∈ rs.map Region.shape := hshape ▸ List.mem_map_of_mem hr'
    obtain ⟨r, hr, heq⟩ := List.mem_map.mp hmem
    exact (h.wellFormed r hr).of_shape heq
  · -- being apart depends on the shapes only
    have hiff : ∀ l : List Region,
        l.Pairwise Region.Apart ↔ (l.map Region.shape).Pairwise Region.Apart := by
      intro l
      rw [List.pairwise_map]
      rfl
    rw [hiff, ← hshape, ← hiff]
    exact h.apart

end KushOs.Memory
