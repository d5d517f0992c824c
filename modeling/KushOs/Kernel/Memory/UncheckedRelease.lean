import KushOs.Kernel.Memory.FirstFree
import KushOs.Kernel.Memory.Restore

/-!
# Releasing arbitrary addresses

`FreePages` hands the caller's list to the regions as it is. A region takes every address that
`contains` accepts for a page of its own: it computes a bit from the address, sets it, and counts
one page less. That is harmless for allocated pages that are named once. An address of the pages
that hold the bitmap makes the region store outside its memory, where the store faults; a page that
is free already, or one that is named twice, is counted too.

## Main definitions

* `FreesHarmlessly`: only allocated pages that are named become free, and they are counted.
* `FreesAllocated`: the lists for which that holds.
* `CallStep`, `CountsRight`: calls with any arguments, and the condition on them.

## Main results

* `Pool.freesHarmlessly_iff`: one release.
* `any_free_harmless`: every state of every run whose calls meet the condition.
-/

namespace KushOs.Memory

open WordBitmap Transition

namespace Region

/-- The bits of the allocated pages of a region that the list names. -/
def named (r : Region) (addrs : List (BitVec 64)) : Finset ℕ :=
  (Finset.range r.bitmapSize).filter fun b => bit r.words b = false ∧ r.pageAddr b ∈ addrs

/-- The addresses of the list that the region takes for its own. -/
def accepted (r : Region) (addrs : List (BitVec 64)) : List (BitVec 64) :=
  addrs.filter r.contains

/-- Every address that the region takes for its own is that of an allocated page of the region, it
is named once, and every allocated page that is named is accepted. -/
structure Recognises (r : Region) (addrs : List (BitVec 64)) : Prop where
  allocated : ∀ a ∈ addrs, r.contains a = true →
    ∃ b < r.bitmapSize, a = r.pageAddr b ∧ bit r.words b = false
  nodup : (r.accepted addrs).Nodup
  accepts : ∀ b ∈ r.named addrs, r.contains (r.pageAddr b) = true

variable {r : Region} {addrs : List (BitVec 64)}

theorem mem_named {b : ℕ} :
    b ∈ r.named addrs ↔ b < r.bitmapSize ∧ bit r.words b = false ∧ r.pageAddr b ∈ addrs := by
  rw [named, Finset.mem_filter, Finset.mem_range]

theorem mem_accepted {a : BitVec 64} : a ∈ r.accepted addrs ↔ a ∈ addrs ∧ r.contains a = true :=
  List.mem_filter

theorem length_accepted : (r.accepted addrs).length = addrs.countP r.contains :=
  List.countP_eq_length_filter.symm

/-- Addresses that a region does not accept make no difference to it. -/
theorem freed_accepted (r : Region) (addrs : List (BitVec 64)) :
    r.freed (r.accepted addrs) = r.freed addrs := by
  induction addrs generalizing r with
  | nil => rfl
  | cons a rest ih =>
    rw [accepted, List.filter_cons, freed_cons r a rest]
    split
    next ha =>
      rw [freed_cons, if_pos ha]
      exact ih (r.setFree a)
    next ha => exact ih r

/-- An accepted address whose bit is one of the region's lies behind the bitmap, in the page of
that bit, and the address of that page is accepted, too. -/
theorem WellFormed.contains_pageAddr (h : r.WellFormed) {a : BitVec 64} (ha : r.contains a = true)
    (hlt : r.freeIndex a < r.bitmapSize) : r.contains (r.pageAddr (r.freeIndex a)) = true := by
  have hpage := h.pageAddr_toNat hlt
  have hsum := h.reserved_add_size
  have hfits := h.fits
  have hbase : r.allocBasePhys.toNat = r.physBase.toNat + r.bitmapReserved := by
    have hpos : 0 < r.bitmapSize := Nat.zero_lt_of_lt hlt
    rw [h.allocBase_eq, BitVec.toNat_add, BitVec.toNat_ofNat]
    simp only [pageSize] at *
    omega
  have hindex : r.freeIndex a = (2 ^ 64 - r.allocBasePhys.toNat + a.toNat) % 2 ^ 64 / 4096 := by
    rw [freeIndex, BitVec.toNat_udiv, BitVec.toNat_sub]
    rfl
  have halt := a.isLt
  -- before the first page the difference would wrap to an index past the end
  have hge : r.allocBasePhys.toNat ≤ a.toNat := by
    by_contra hbelow
    simp only [pageSize] at *
    omega
  simp only [contains, Bool.and_eq_true, decide_eq_true_eq, BitVec.le_def, BitVec.lt_def] at ha ⊢
  simp only [pageSize] at *
  omega

/-- The bit of an accepted address, if such addresses are those of allocated pages. -/
theorem freeIndex_of_accepted (h : r.WellFormed)
    (hallocated : ∀ a ∈ addrs, r.contains a = true →
      ∃ b < r.bitmapSize, a = r.pageAddr b ∧ bit r.words b = false)
    {a : BitVec 64} (ha : a ∈ r.accepted addrs) :
    r.freeIndex a < r.bitmapSize ∧ a = r.pageAddr (r.freeIndex a) ∧
      bit r.words (r.freeIndex a) = false := by
  obtain ⟨hmem, hc⟩ := mem_accepted.mp ha
  obtain ⟨b, hb, rfl, hbit⟩ := hallocated a hmem hc
  rw [h.freeIndex_pageAddr hb]
  exact ⟨hb, rfl, hbit⟩

/-- For accepted addresses of allocated pages that are named once, the bits that become set are
those of the pages, and there are as many of them as accepted addresses. -/
theorem card_image_freeIndex (h : r.WellFormed)
    (hallocated : ∀ a ∈ addrs, r.contains a = true →
      ∃ b < r.bitmapSize, a = r.pageAddr b ∧ bit r.words b = false)
    (hnodup : (r.accepted addrs).Nodup) :
    ((r.accepted addrs).map r.freeIndex).toFinset ⊆ r.named addrs ∧
      ((r.accepted addrs).map r.freeIndex).toFinset.card = addrs.countP r.contains := by
  have hindex := fun a (ha : a ∈ r.accepted addrs) => freeIndex_of_accepted h hallocated ha
  refine ⟨?_, ?_⟩
  · intro b hb
    obtain ⟨a, ha, rfl⟩ := List.mem_map.mp (List.mem_toFinset.mp hb)
    obtain ⟨hlt, heq, hbit⟩ := hindex a ha
    exact mem_named.mpr ⟨hlt, hbit, heq ▸ (mem_accepted.mp ha).1⟩
  · rw [List.toFinset_card_of_nodup, List.length_map, length_accepted]
    refine hnodup.map_on ?_
    intro a ha a' ha' heq
    rw [(hindex a ha).2.1, (hindex a' ha').2.1, heq]

/-- A region that recognises the list accepts exactly the allocated pages that are named. -/
theorem Recognises.card_named (h : r.WellFormed) (hr : r.Recognises addrs) :
    (r.named addrs).card = addrs.countP r.contains := by
  obtain ⟨hsub, hcard⟩ := card_image_freeIndex h hr.allocated hr.nodup
  rw [← hcard]
  congr 1
  refine Finset.Subset.antisymm ?_ hsub
  intro b hb
  obtain ⟨hlt, -, hmem⟩ := mem_named.mp hb
  refine List.mem_toFinset.mpr (List.mem_map.mpr ⟨r.pageAddr b, ?_, h.freeIndex_pageAddr hlt⟩)
  exact mem_accepted.mpr ⟨hmem, hr.accepts b hb⟩

/-- What a region does with a list that it recognises. -/
theorem Recognises.clearCount_freed (h : r.WellFormed) (hr : r.Recognises addrs) :
    clearCount (r.freed addrs).words r.bitmapSize + addrs.countP r.contains =
      clearCount r.words r.bitmapSize := by
  have hindex := fun a (ha : a ∈ r.accepted addrs) => freeIndex_of_accepted h hr.allocated ha
  have hall : (r.accepted addrs).countP r.contains = addrs.countP r.contains := by
    rw [accepted, List.countP_filter]
    simp
  rw [← hall, ← freed_accepted]
  refine Region.clearCount_freed hr.nodup ?_ ?_
  · intro a ha _
    exact ⟨(hindex a ha).1, (hindex a ha).2.2⟩
  · intro a ha a' ha' _ _ heq
    rw [(hindex a ha).2.1, (hindex a' ha').2.1, heq]

/-- If a region changes only bits of pages that are named, and its counter still counts its clear
bits, then the accepted addresses are those of allocated pages, each named once. -/
theorem allocated_of_counted (h : r.WellFormed) (hlen : addrs.length < 2 ^ 64)
    (hbits : ∀ b, bit (r.freed addrs).words b ≠ bit r.words b → b ∈ r.named addrs)
    (hbefore : r.numAllocated = BitVec.ofNat 64 (clearCount r.words r.bitmapSize))
    (hafter : (r.freed addrs).numAllocated =
      BitVec.ofNat 64 (clearCount (r.freed addrs).words r.bitmapSize)) :
    (∀ a ∈ addrs, r.contains a = true →
      ∃ b < r.bitmapSize, a = r.pageAddr b ∧ bit r.words b = false) ∧
      (r.accepted addrs).Nodup := by
  set changed := (Finset.range r.bitmapSize).filter fun b =>
    bit r.words b = false ∧ bit (r.freed addrs).words b = true with hchanged
  set image := ((r.accepted addrs).map r.freeIndex).toFinset with himage
  have hset : ∀ b, bit (r.freed addrs).words b = true ↔ bit r.words b = true ∨ b ∈ image := by
    intro b
    rw [bit_freed, himage, List.mem_toFinset, List.mem_map]
    simp only [mem_accepted, and_assoc]
  -- the bits that were clear are those that still are and those that changed
  have hsplit : clearCount (r.freed addrs).words r.bitmapSize + changed.card =
      clearCount r.words r.bitmapSize := by
    have hclear : (Finset.range r.bitmapSize).filter (fun b => bit r.words b = false) =
        (Finset.range r.bitmapSize).filter (fun b => bit (r.freed addrs).words b = false) ∪
          changed := by
      ext b
      have hb := hset b
      simp only [hchanged, Finset.mem_union, Finset.mem_filter, Finset.mem_range]
      cases hold : bit r.words b <;> cases hnew : bit (r.freed addrs).words b <;>
        simp_all
    have hdisjoint : Disjoint
        ((Finset.range r.bitmapSize).filter fun b => bit (r.freed addrs).words b = false)
        changed := by
      rw [Finset.disjoint_left]
      intro b hb hb'
      rw [Finset.mem_filter] at hb hb'
      rw [hb.2] at hb'
      cases hb'.2.2
    rw [clearCount, clearCount, hclear, Finset.card_union_of_disjoint hdisjoint]
  have hcount : changed.card = addrs.countP r.contains := by
    have hsize := h.size_lt
    have hle := clearCount_le r.words r.bitmapSize
    have hlt : addrs.countP r.contains < 2 ^ 64 := List.countP_le_length.trans_lt hlen
    rw [numAllocated_freed, hbefore, ← hsplit, BitVec.ofNat_add, ← BitVec.toNat_inj] at hafter
    simp only [BitVec.toNat_sub, BitVec.toNat_add, BitVec.toNat_ofNat] at hafter
    omega
  -- so no two accepted addresses have the same bit, and each bit changed
  have hsub : changed ⊆ image := by
    intro b hb
    rw [hchanged, Finset.mem_filter] at hb
    rcases (hset b).mp hb.2.2 with hold | hin
    · rw [hb.2.1] at hold
      cases hold
    · exact hin
  have hlength : image.card ≤ ((r.accepted addrs).map r.freeIndex).length :=
    List.toFinset_card_le _
  rw [List.length_map, length_accepted, ← hcount] at hlength
  have hall : changed = image := Finset.eq_of_subset_of_card_le hsub hlength
  have hnodup : ((r.accepted addrs).map r.freeIndex).Nodup := by
    rw [← Multiset.coe_nodup, ← Multiset.toFinset_card_eq_card_iff_nodup]
    show image.card = ((r.accepted addrs).map r.freeIndex).length
    rw [← hall, hcount, List.length_map, length_accepted]
  refine ⟨?_, hnodup.of_map _⟩
  intro a ha hc
  have hmem : a ∈ r.accepted addrs := mem_accepted.mpr ⟨ha, hc⟩
  have hin : r.freeIndex a ∈ changed :=
    hall ▸ List.mem_toFinset.mpr (List.mem_map_of_mem hmem)
  rw [hchanged, Finset.mem_filter, Finset.mem_range] at hin
  obtain ⟨hlt, hold, hnew⟩ := hin
  obtain ⟨-, -, hnamed⟩ := mem_named.mp (hbits (r.freeIndex a) (by simp [hold, hnew]))
  have hpage : r.pageAddr (r.freeIndex a) ∈ r.accepted addrs :=
    mem_accepted.mpr ⟨hnamed, h.contains_pageAddr hc hlt⟩
  have hsame : r.freeIndex (r.pageAddr (r.freeIndex a)) = r.freeIndex a :=
    h.freeIndex_pageAddr hlt
  exact ⟨_, hlt, (List.inj_on_of_nodup_map hnodup hpage hmem hsame).symm, hold⟩

end Region

/-! ## One release -/

namespace Pool

/-- Number of allocated pages that the list names. -/
def namedCount (rs : List Region) (addrs : List (BitVec 64)) : ℕ :=
  (rs.map fun r => (r.named addrs).card).sum

@[simp]
theorem namedCount_cons (r : Region) (rest : List Region) (addrs : List (BitVec 64)) :
    namedCount (r :: rest) addrs = (r.named addrs).card + namedCount rest addrs := by
  simp [namedCount]

/-- No more pages are named than there are. -/
theorem namedCount_le (rs : List Region) (addrs : List (BitVec 64)) :
    namedCount rs addrs ≤ (rs.map (·.bitmapSize)).sum := by
  induction rs with
  | nil => exact le_rfl
  | cons r rest ih =>
    rw [namedCount_cons, List.map_cons, List.sum_cons]
    refine Nat.add_le_add ?_ ih
    rw [← Finset.card_range r.bitmapSize]
    exact Finset.card_filter_le _ _

/-- Each region accepts no more addresses than allocated pages are named, so if the totals agree
the numbers agree in each region. -/
theorem card_named_eq {rs : List Region} {addrs : List (BitVec 64)}
    (hle : ∀ r ∈ rs, addrs.countP r.contains ≤ (r.named addrs).card)
    (htotal : namedCount rs addrs ≤ freedCount rs addrs) :
    ∀ r ∈ rs, (r.named addrs).card = addrs.countP r.contains := by
  -- summed over the regions, the numbers can only agree if no region falls short
  have hsum : ∀ l : List Region, (∀ r ∈ l, addrs.countP r.contains ≤ (r.named addrs).card) →
      freedCount l addrs ≤ namedCount l addrs := by
    intro l
    induction l with
    | nil => exact fun _ => le_rfl
    | cons r rest ih =>
      intro hl
      rw [freedCount_cons, namedCount_cons]
      exact Nat.add_le_add (hl r List.mem_cons_self)
        (ih fun r' hr' => hl r' (List.mem_cons_of_mem _ hr'))
  induction rs with
  | nil => simp
  | cons r rest ih =>
    have hfirst := hle r List.mem_cons_self
    have hrest := fun r' (hr' : r' ∈ rest) => hle r' (List.mem_cons_of_mem _ hr')
    have hbelow := hsum rest hrest
    rw [freedCount_cons, namedCount_cons] at htotal
    intro r' hr'
    rcases List.mem_cons.mp hr' with rfl | hr'
    · omega
    · exact ih hrest (by omega) r' hr'

end Pool

/-- What a harmless release does: each region touches words of its own bitmap only, the bits that
change are those of allocated pages that are named, their number is returned, and the counters
still count the allocated pages. -/
structure Harmless (p : Pool) (addrs : List (BitVec 64)) (count : ℤ) (p' : Pool) : Prop where
  touches : ∀ r ∈ p.regions, ∀ a ∈ addrs, r.contains a = true →
    r.freeIndex a / 64 < r.scannedWords
  shape : p'.regions.map Region.shape = p.regions.map Region.shape
  bits : ∀ (i : ℕ) (r r' : Region) (b : ℕ), p.regions[i]? = some r → p'.regions[i]? = some r' →
    bit r'.words b ≠ bit r.words b → b ∈ r.named addrs
  result : count = Pool.namedCount p.regions addrs
  counted : ∀ r ∈ p'.regions, r.numAllocated = BitVec.ofNat 64 (clearCount r.words r.bitmapSize)
  total : (getAllocPages p').toNat = (p'.regions.map fun r => r.numAllocated.toNat).sum ∧
    (getAllocPages p').toNat ≤ getTotalPages p'

/-- `FreePages` of the list returns, and it is harmless. -/
def FreesHarmlessly (p : Pool) (addrs : List (BitVec 64)) : Prop :=
  ∃ count p', freePages p addrs = .ok (count, p') ∧ Harmless p addrs count p'

/-- The list names something, every region recognises it, and the number of allocated pages that
it names fits an `int`. -/
structure FreesAllocated (p : Pool) (addrs : List (BitVec 64)) : Prop where
  nonempty : addrs ≠ []
  recognised : ∀ r ∈ p.regions, r.Recognises addrs
  fits : Pool.namedCount p.regions addrs < 2 ^ 31

/-- The counters of a pool add up without wrapping, to at most the number of its pages. -/
theorem PoolState.Inv.getAllocPages_le {specs : List (BitVec 64 × ℕ)} {s : PoolState}
    (hinv : PoolState.Inv specs s) :
    (getAllocPages s.pool).toNat = (s.pool.regions.map fun r => r.numAllocated.toNat).sum ∧
      (getAllocPages s.pool).toNat ≤ getTotalPages s.pool := by
  rw [hinv.getAllocPages_toNat]
  refine ⟨?_, ?_⟩
  · refine congrArg List.sum (List.map_congr_left fun r hr => ?_)
    have hle := clearCount_le r.words r.bitmapSize
    have hlt := (hinv.layout.wellFormed r hr).size_lt
    rw [hinv.counted r hr, BitVec.toNat_ofNat, Nat.mod_eq_of_lt (by omega)]
  · have hsum : ∀ l : List Region, (l.map fun r => clearCount r.words r.bitmapSize).sum ≤
        (l.map (·.bitmapSize)).sum := by
      intro l
      induction l with
      | nil => exact le_rfl
      | cons r rest ih =>
        rw [List.map_cons, List.map_cons, List.sum_cons, List.sum_cons]
        exact Nat.add_le_add (clearCount_le _ _) ih
    exact hsum s.pool.regions

section Release

variable {specs : List (BitVec 64 × ℕ)} {p p' : Pool} {addrs : List (BitVec 64)} {count : ℤ}

/-- The regions together accept as many addresses as allocated pages are named. -/
theorem FreesAllocated.countP_eq (hl : Layout p.regions) (h : FreesAllocated p addrs) :
    addrs.countP (Pool.contains p.regions) = Pool.namedCount p.regions addrs := by
  rw [← Pool.freedCount_eq hl, Pool.freedCount, Pool.namedCount]
  refine congrArg List.sum (List.map_congr_left fun r hr => ?_)
  exact ((h.recognised r hr).card_named (hl.wellFormed r hr)).symm

/-- No region stores outside its bitmap. -/
theorem FreesAllocated.bitsInside (hl : Layout p.regions) (h : FreesAllocated p addrs) :
    ∀ r ∈ p.regions, r.BitsInside addrs := by
  intro r hr a ha hc
  have hwf := hl.wellFormed r hr
  obtain ⟨b, hb, rfl, -⟩ := (h.recognised r hr).allocated a ha hc
  rw [hwf.freeIndex_pageAddr hb]
  exact hwf.word_lt hb

/-- So the release returns. -/
theorem FreesAllocated.free_eq_ok (hl : Layout p.regions) (h : FreesAllocated p addrs) :
    p.free addrs = .ok (((addrs.countP (Pool.contains p.regions) : ℕ) : ℤ),
      { p with regions := p.regions.map (·.freed addrs) }) :=
  (Pool.free_eq_ok_iff hl ((h.countP_eq hl).trans_lt h.fits)).mpr ⟨h.bitsInside hl, rfl, rfl⟩

/-- A release of such a list keeps the invariant of the pool. -/
theorem FreesAllocated.inv (hinv : PoolState.Inv specs ⟨p, []⟩) (h : FreesAllocated p addrs) :
    PoolState.Inv specs ⟨{ p with regions := p.regions.map (·.freed addrs) }, []⟩ := by
  have hshape : (p.regions.map (·.freed addrs)).map Region.shape = p.regions.map Region.shape := by
    rw [List.map_map]
    exact List.map_congr_left fun r _ => r.shape_freed addrs
  refine ⟨(map_range_of_shape hshape).trans hinv.registered, ?_, hinv.layout.of_shape hshape.symm,
    List.nodup_nil, by simp, ?_⟩
  · rw [List.length_map]
    exact hinv.bounded
  · intro r' hr'
    obtain ⟨r, hr, rfl⟩ := List.mem_map.mp hr'
    have hcount := (h.recognised r hr).clearCount_freed (hinv.layout.wellFormed r hr)
    rw [Region.numAllocated_freed, hinv.counted r hr,
      Region.bitmapSize_of_shape (r.shape_freed addrs), ← hcount, BitVec.ofNat_add,
      BitVec.add_sub_cancel]

/-- A release of such a list is harmless. -/
theorem FreesAllocated.harmless (hinv : PoolState.Inv specs ⟨p, []⟩) (h : FreesAllocated p addrs) :
    FreesHarmlessly p addrs := by
  have hcount := h.countP_eq hinv.layout
  have hfree := h.free_eq_ok hinv.layout
  refine ⟨_, _, Pool.freePages_eq_ok.mpr ⟨h.nonempty, hfree⟩, ?_⟩
  have hinv' := h.inv hinv
  have hindex : ∀ r ∈ p.regions, ∀ a ∈ addrs, r.contains a = true →
      r.freeIndex a ∈ r.named addrs := by
    intro r hr a ha hc
    obtain ⟨b, hb, rfl, hbit⟩ := (h.recognised r hr).allocated a ha hc
    rw [(hinv.layout.wellFormed r hr).freeIndex_pageAddr hb]
    exact Region.mem_named.mpr ⟨hb, hbit, ha⟩
  refine ⟨?_, ?_, ?_, by rw [hcount], hinv'.counted, hinv'.getAllocPages_le⟩
  · intro r hr a ha hc
    obtain ⟨hlt, -⟩ := Region.mem_named.mp (hindex r hr a ha hc)
    rw [Region.scannedWords]
    omega
  · rw [List.map_map]
    exact List.map_congr_left fun r _ => r.shape_freed addrs
  · intro i r r' b hi hi' hne
    dsimp only at hi'
    rw [List.getElem?_map, hi, Option.map_some, Option.some.injEq] at hi'
    subst hi'
    -- a bit that changed was set for an address that the region accepted
    have hset : bit (r.freed addrs).words b = true := by
      by_contra hclear
      rw [Bool.not_eq_true] at hclear
      have hold : bit r.words b = true := by
        rw [hclear] at hne
        simpa using hne.symm
      exact absurd ((r.bit_freed addrs b).mpr (Or.inl hold)) (by simp [hclear])
    rcases (r.bit_freed addrs b).mp hset with hold | ⟨a, ha, hc, rfl⟩
    · exact absurd (hset.trans hold.symm) hne
    · exact hindex r (List.mem_of_getElem? hi) a ha hc

/-- A harmless release reached every region that accepts an address of the list. -/
theorem Harmless.freed_all (hinv : PoolState.Inv specs ⟨p, []⟩) (h : Harmless p addrs count p')
    (hfree : p.free addrs = .ok (count, p')) :
    p'.regions = p.regions.map (·.freed addrs) ∧
      Pool.namedCount p.regions addrs < 2 ^ 31 ∧
      Pool.namedCount p.regions addrs ≤ Pool.freedCount p.regions addrs := by
  obtain ⟨k, hk, hstop⟩ := Pool.freeLoop_cases addrs.length addrs 0 p.regions
  have hzero : toInt32 0 = 0 := rfl
  rw [hzero, zero_add] at hk
  rw [zero_add] at hstop
  obtain ⟨rs, hloop, rfl⟩ := Pool.free_eq_ok.mp hfree
  obtain ⟨-, hloop⟩ := (hk _).mp hloop
  obtain ⟨hresult, hrs⟩ := Prod.mk.inj hloop
  have hsplit := Pool.freedCount_take_add_drop p.regions addrs k
  have htotal : Pool.freedCount p.regions addrs ≤ addrs.length :=
    (Pool.freedCount_eq hinv.layout addrs).trans_le List.countP_le_length
  -- the count is not negative, so it is at most the number of addresses that were accepted
  rw [h.result] at hresult
  have hint := toInt32_lt (Pool.freedCount (p.regions.take k) addrs : ℤ)
  have hle := toInt32_le (Pool.freedCount (p.regions.take k) addrs)
  rw [hresult] at hint hle hstop
  have hwhole : p.regions.length ≤ k ∨
      Pool.freedCount p.regions addrs ≤ Pool.freedCount (p.regions.take k) addrs := by
    refine hstop.imp_right fun hdone => ?_
    rw [toSize_natCast (by omega)] at hdone
    omega
  obtain ⟨hregions, hall⟩ := Pool.map_freed_of_take hwhole
  exact ⟨hrs.symm.trans hregions, by omega, by omega⟩

/-- Only lists of allocated pages that are recognised are released harmlessly. -/
theorem Harmless.freesAllocated (hinv : PoolState.Inv specs ⟨p, []⟩)
    (hlen : addrs.length < 2 ^ 64) (hnonempty : addrs ≠ []) (h : Harmless p addrs count p')
    (hfree : p.free addrs = .ok (count, p')) : FreesAllocated p addrs := by
  obtain ⟨hregions, hfits, htotal⟩ := h.freed_all hinv hfree
  have hallocated : ∀ r ∈ p.regions, (∀ a ∈ addrs, r.contains a = true →
      ∃ b < r.bitmapSize, a = r.pageAddr b ∧ bit r.words b = false) ∧
        (r.accepted addrs).Nodup := by
    intro r hr
    have hmem : r.freed addrs ∈ p'.regions := hregions ▸ List.mem_map_of_mem hr
    have hafter := h.counted _ hmem
    rw [Region.bitmapSize_of_shape (r.shape_freed addrs)] at hafter
    refine Region.allocated_of_counted (hinv.layout.wellFormed r hr) hlen ?_ (hinv.counted r hr)
      hafter
    intro b hne
    obtain ⟨i, hi⟩ := List.mem_iff_getElem?.mp hr
    refine h.bits i r (r.freed addrs) b hi ?_ hne
    rw [hregions, List.getElem?_map, hi, Option.map_some]
  refine ⟨hnonempty, fun r hr => ?_, hfits⟩
  have hcard : ∀ r ∈ p.regions,
      ((r.accepted addrs).map r.freeIndex).toFinset ⊆ r.named addrs ∧
        ((r.accepted addrs).map r.freeIndex).toFinset.card = addrs.countP r.contains :=
    fun r hr => Region.card_image_freeIndex (hinv.layout.wellFormed r hr) (hallocated r hr).1
      (hallocated r hr).2
  have hequal := Pool.card_named_eq
    (fun r hr => (hcard r hr).2 ▸ Finset.card_le_card (hcard r hr).1) htotal r hr
  have himage := Finset.eq_of_subset_of_card_le (hcard r hr).1 (by rw [hequal, (hcard r hr).2])
  refine ⟨(hallocated r hr).1, (hallocated r hr).2, fun b hb => ?_⟩
  -- the bit of a page that is named is that of an accepted address, which is the page's
  rw [← himage] at hb
  obtain ⟨a, ha, rfl⟩ := List.mem_map.mp (List.mem_toFinset.mp hb)
  obtain ⟨-, heq, -⟩ := Region.freeIndex_of_accepted (hinv.layout.wellFormed r hr)
    (hallocated r hr).1 ha
  rw [← heq]
  exact (Region.mem_accepted.mp ha).2

/-- A release is harmless exactly when the list names allocated pages, each of them once, and the
pool recognises them. -/
theorem Pool.freesHarmlessly_iff (hinv : PoolState.Inv specs ⟨p, []⟩)
    (hlen : addrs.length < 2 ^ 64) : FreesHarmlessly p addrs ↔ FreesAllocated p addrs := by
  constructor
  · rintro ⟨count, p', hok, hharmless⟩
    obtain ⟨hnonempty, hfree⟩ := Pool.freePages_eq_ok.mp hok
    exact hharmless.freesAllocated hinv hlen hnonempty hfree
  · exact fun h => h.harmless hinv

end Release

/-! ## Runs with arbitrary arguments -/

/-- A call that returns, whatever its arguments are. -/
inductive CallStep : Pool → PoolOp → Pool → Prop
  | allocatePages {p p' : Pool} {num : ℕ} {buffer out : AddrBuffer} {count : ℤ} :
      num < 2 ^ 64 → Memory.allocatePages p num buffer = .ok (count, out, p') →
      CallStep p (.allocatePages num buffer) p'
  | freePages {p p' : Pool} {addrs : List (BitVec 64)} {count : ℤ} :
      addrs.length < 2 ^ 64 → Memory.freePages p addrs = .ok (count, p') →
      CallStep p (.freePages addrs) p'

/-- The condition on a call: an allocation takes bits of allocatable pages only, and their number
fits an `int`; a release names allocated pages that the pool recognises. -/
def CountsRight (p : Pool) : PoolOp → Prop
  | .allocatePages num _ => (p.freeBits.take num).length < 2 ^ 31 ∧
      ∀ x ∈ p.freeBits.take num, x.2 < p.sizeAt x.1
  | .freePages addrs => FreesAllocated p addrs

section Runs

variable {specs : List (BitVec 64 × ℕ)} {p p' : Pool}

/-- An allocation that takes bits of allocatable pages only keeps the invariant of the pool. -/
theorem PoolState.Inv.takeFirst (hinv : PoolState.Inv specs ⟨p, []⟩) {num : ℕ}
    (hin : ∀ x ∈ p.freeBits.take num, x.2 < p.sizeAt x.1) :
    PoolState.Inv specs ⟨{ p with regions := Pool.takeFirst num p.regions }, []⟩ := by
  have hshape : (Pool.takeFirst num p.regions).map Region.shape = p.regions.map Region.shape := by
    apply List.ext_getElem?
    intro j
    rw [List.getElem?_map, List.getElem?_map, Pool.getElem?_takeFirst, Option.map_map]
    rfl
  refine ⟨(map_range_of_shape hshape).trans hinv.registered, ?_, hinv.layout.of_shape hshape.symm,
    List.nodup_nil, by simp, ?_⟩
  · exact (Pool.length_takeFirst num p.regions).trans_le hinv.bounded
  · intro r' hr'
    obtain ⟨j, hj'⟩ := List.mem_iff_getElem?.mp hr'
    dsimp only at hj'
    rw [Pool.getElem?_takeFirst, Option.map_eq_some_iff] at hj'
    obtain ⟨r, hj, rfl⟩ := hj'
    set m := num - Pool.freeCount (p.regions.take j)
    have htaken : ∀ b ∈ r.freeBits.take m, b < r.bitmapSize ∧ bit r.words b = true := by
      intro b hb
      have hlt := hin (j, b) (Pool.mem_take_freeBits.mpr ⟨r, hj, hb⟩)
      rw [Pool.sizeAt, hj, Option.map_some, Option.getD_some] at hlt
      exact ⟨hlt, Region.bit_of_mem_freeBits (List.mem_of_mem_take hb)⟩
    -- each bit taken stands for one more allocated page
    have hcount := clearCount_clearBits (n := r.bitmapSize)
      (r.freeBits_nodup.sublist (List.take_sublist m _)) htaken
    rw [List.length_take] at hcount
    show r.numAllocated + BitVec.ofNat 64 (min m r.freeBits.length) =
      BitVec.ofNat 64 (clearCount (clearBits r.words (r.freeBits.take m)) r.bitmapSize)
    rw [hcount, hinv.counted r (List.mem_of_getElem? hj), BitVec.ofNat_add]

/-- A call that meets the condition keeps the invariant of the pool. -/
theorem CallStep.inv {op : PoolOp} (hinv : PoolState.Inv specs ⟨p, []⟩) (hcond : CountsRight p op)
    (h : CallStep p op p') : PoolState.Inv specs ⟨p', []⟩ := by
  cases h with
  | @allocatePages _ num buffer _ _ hnum halloc =>
    obtain ⟨hint, hin⟩ := hcond
    obtain ⟨hpos, halloc⟩ := Pool.alloc_of_allocatePages halloc
    rw [List.length_take, Pool.freeBits, Pool.length_freeBitsFrom] at hint
    rw [Pool.alloc_eq p buffer hpos hnum hint] at halloc
    simp only [Except.ok.injEq, Prod.mk.injEq] at halloc
    obtain ⟨-, -, rfl⟩ := halloc
    exact hinv.takeFirst hin
  | @freePages _ addrs _ _ hfree =>
    obtain ⟨-, hfree⟩ := Pool.freePages_eq_ok.mp hfree
    rw [hcond.free_eq_ok hinv.layout, Except.ok.injEq, Prod.mk.injEq] at hfree
    obtain ⟨-, rfl⟩ := hfree
    exact hcond.inv hinv

end Runs

/-- In every state of every run of calls that meet the condition, the counters add up to at most
the number of pages, and a release of an arbitrary list is harmless exactly when it meets the
condition. -/
theorem any_free_harmless {earlyBoot : Bool} {prior : BitVec 64 → Words} {p : Pool}
    {specs : List (BitVec 64 × ℕ)} {ops : List PoolOp} {t : Pool}
    (hboot : addRegions earlyBoot prior Pool.empty specs = .ok p)
    (hfits : ∀ x ∈ specs, x.1.toNat + x.2 ≤ 2 ^ 64) (hdisjoint : specs.Pairwise RangesDisjoint)
    (hrun : RunWhere CallStep CountsRight p ops t) :
    (getAllocPages t).toNat ≤ getTotalPages t ∧
      ∀ addrs : List (BitVec 64), addrs.length < 2 ^ 64 →
        (FreesHarmlessly t addrs ↔ FreesAllocated t addrs) := by
  let inv : Pool → Prop := fun p => PoolState.Inv specs ⟨p, []⟩
  have hstep : ∀ s op s', inv s → CountsRight s op → CallStep s op s' → inv s' :=
    fun _ _ _ hs hcond hcall => hcall.inv hs hcond
  have hinv : inv t :=
    Run.preserves_of hstep hrun (PoolState.Inv.of_addRegions hboot hfits hdisjoint)
  exact ⟨hinv.getAllocPages_le.2, fun addrs hlen => Pool.freesHarmlessly_iff hinv hlen⟩

/-- A region accepts the address, which is that of an allocated page; or it does not accept it, and
none of its pages has that address. -/
def Region.recognisesPage (r : Region) (a : BitVec 64) : Bool :=
  if r.contains a then
    decide (r.freeIndex a < r.bitmapSize ∧ a = r.pageAddr (r.freeIndex a)) &&
      !bit r.words (r.freeIndex a)
  else decide (r.bitmapSize ≤ r.freeIndex a)

/-- A region recognises a list of such addresses. -/
theorem Region.WellFormed.recognises {r : Region} (h : r.WellFormed) {addrs : List (BitVec 64)}
    (hnodup : addrs.Nodup) (haddrs : addrs.all r.recognisesPage = true) : r.Recognises addrs := by
  rw [List.all_eq_true] at haddrs
  refine ⟨fun a ha hc => ?_, hnodup.filter _, fun b hb => ?_⟩
  · have hpage := haddrs a ha
    rw [recognisesPage, if_pos hc, Bool.and_eq_true, decide_eq_true_eq, Bool.not_eq_true'] at hpage
    exact ⟨_, hpage.1.1, hpage.1.2, hpage.2⟩
  · obtain ⟨hlt, -, hmem⟩ := Region.mem_named.mp hb
    have hpage := haddrs _ hmem
    by_contra hc
    rw [recognisesPage, if_neg hc, decide_eq_true_eq, h.freeIndex_pageAddr hlt] at hpage
    omega

/-- A region that is large enough to accept its first two pages. -/
def recognisingRange : List (BitVec 64 × ℕ) := [(0x1000000#64, 0x3000000)]

theorem boot_recognisingRange :
    addRegions true (fun _ _ => 0) Pool.empty recognisingRange =
      .ok (bootPool recognisingRange) := rfl

/-- Three pages are allocated; two of them are released, along with an address of no region. -/
theorem any_free_harmless_two_pages :
    let taken := (PoolState.taken ⟨bootPool recognisingRange, []⟩ 3).pool
    FreesHarmlessly taken [0x1002000#64, 0x5000#64, 0x1001000#64] := by
  intro taken
  have hserved : ServedInRange ⟨bootPool recognisingRange, []⟩ (.allocatePages 3 fun _ => 0) := by
    decide +kernel
  obtain ⟨count, out, pool, halloc, rfl, -⟩ := exists_of_served (by decide) (by decide) hserved
  have hrun : RunWhere CallStep CountsRight (bootPool recognisingRange)
      [.allocatePages 3 fun _ => 0] taken :=
    .cons ⟨.allocatePages (by decide) halloc, hserved.1, hserved.2.2⟩ (.nil _)
  have hinv := (PoolState.Inv.of_addRegions boot_recognisingRange (by decide)
    (List.pairwise_singleton _ _)).takeFirst hserved.2.2
  refine ((any_free_harmless boot_recognisingRange (by decide) (List.pairwise_singleton _ _)
    hrun).2 _ (by decide)).mpr ⟨List.cons_ne_nil _ _, fun r hr => ?_, ?_⟩
  · have hpages : ∀ r ∈ taken.regions,
        [0x1002000#64, 0x5000#64, 0x1001000#64].all r.recognisesPage = true := by decide +kernel
    exact (hinv.layout.wellFormed r hr).recognises (by decide) (hpages r hr)
  · have htotal : getTotalPages taken < 2 ^ 31 := by decide +kernel
    exact (Pool.namedCount_le _ _).trans_lt htotal

/-- The address of a region itself names the page that holds the bitmap. -/
theorem any_free_not_harmless :
    ¬∀ (earlyBoot : Bool) (prior : BitVec 64 → Words) (p : Pool) (specs : List (BitVec 64 × ℕ))
      (ops : List PoolOp) (t : Pool), addRegions earlyBoot prior Pool.empty specs = .ok p →
      (∀ x ∈ specs, x.1.toNat + x.2 ≤ 2 ^ 64) → specs.Pairwise RangesDisjoint →
      Run CallStep p ops t → ∀ addrs : List (BitVec 64), addrs.length < 2 ^ 64 →
      FreesHarmlessly t addrs := by
  intro h
  obtain ⟨_, _, hfree, -⟩ := h true (fun _ _ => 0) (bootPool twoPages) twoPages []
    (bootPool twoPages) boot_twoPages (by decide) (List.pairwise_singleton _ _) (.nil _)
    [0x100000#64] (by decide)
  -- the bit of the bitmap page wraps around to the largest page index there is
  have hfaults : (freePages (bootPool twoPages) [0x100000#64]).toOption.isSome = false := by
    decide +kernel
  rw [hfree] at hfaults
  cases hfaults

end KushOs.Memory
