import KushOs.Kernel.Memory.PoolRun

/-!
# The memory map of the bootloader

At boot `InitPhysAllocator` turns the usable entries of the bootloader's memory map into regions
of the default pool. Small entries are ignored, and so is memory below 16 MB.

The header with the constants of the boot protocol is not part of the repository; the type of
usable entries is a parameter here.

## Main definitions

* `addEntry`, `initPhysAllocator`: the code of `Entry.cpp`.
* `registered`: the parts of the entries that are to be registered.

## Main results

* `addEntries_eq`: the loop registers these parts, if no entry ends where the comparison with the
  bound goes wrong.
* `initPhysAllocator_registers`: for which maps the code finishes, and with which regions.
-/

namespace KushOs.Boot

open Memory WordBitmap

/-- `limine_memmap_entry`. -/
structure MemmapEntry where
  /-- Physical base address. -/
  base : BitVec 64
  /-- Length in bytes. -/
  length : BitVec 64
  /-- What the memory is used for. -/
  type : BitVec 64
  deriving DecidableEq, Repr

/-- `limine_memmap_response`: the array of entries, unless its pointer is null. -/
structure MemmapResponse where
  /-- `entries`, an array of `entry_count` entries. -/
  entries : Option (List MemmapEntry)

/-- Smallest physical memory regions to consider for allocation. -/
def kMinPhysicalRegionSize : BitVec 64 := 0x10000#64
/-- First address for general purpose physical allocation. -/
def kPhysAllocationBound : BitVec 64 := 0x1000000#64

section

variable (usable : BitVec 64) (prior : BitVec 64 → Words)

/-- The body of the loop of `InitPhysAllocator`, which runs in early boot. -/
def addEntry (p : Pool) (entry : MemmapEntry) : Except Fault Pool :=
  if entry.type ≠ usable then .ok p
  else if entry.length < kMinPhysicalRegionSize then .ok p
  else if entry.base + entry.length < kPhysAllocationBound then .ok p
  else
    let (base, length) :=
      if entry.base < kPhysAllocationBound then
        let diff := kPhysAllocationBound - entry.base
        (entry.base + diff, entry.length - diff)
      else (entry.base, entry.length)
    addRegion true p base length.toNat (prior base)

/-- The loop of `InitPhysAllocator`. -/
def addEntries (p : Pool) : List MemmapEntry → Except Fault Pool
  | [] => .ok p
  | entry :: rest => do
      let p' ← addEntry usable prior p entry
      addEntries p' rest

/-- `InitPhysAllocator`: the default pool afterwards, which `PhysicalAllocator::Init` constructs
empty. `response` is null if the bootloader did not answer the request. -/
def initPhysAllocator (response : Option MemmapResponse) : Except Fault Pool := do
  let entries := response.bind MemmapResponse.entries
  require response.isSome
  require ((entries.getD []).length ≠ 0)
  require entries.isSome
  addEntries usable prior Pool.empty (entries.getD [])

end

/-! ## What is to be registered -/

namespace MemmapEntry

/-- First address past the entry. -/
def endAddr (e : MemmapEntry) : ℕ := e.base.toNat + e.length.toNat

/-- Start of the part of an entry at or above the bound. -/
def partBase (e : MemmapEntry) : ℕ := max e.base.toNat kPhysAllocationBound.toNat

/-- The part of an entry at or above the bound: base and length in bytes. -/
def part (e : MemmapEntry) : BitVec 64 × ℕ :=
  (BitVec.ofNat 64 e.partBase, e.endAddr - e.partBase)

/-- Usable, and not too small. -/
def considered (usable : BitVec 64) (e : MemmapEntry) : Bool :=
  e.type == usable && kMinPhysicalRegionSize ≤ e.length

/-- A page-aligned range of 64-bit addresses. -/
structure PageAligned (e : MemmapEntry) : Prop where
  base : e.base.toNat % pageSize = 0
  length : e.length.toNat % pageSize = 0
  fits : e.endAddr ≤ 2 ^ 64

/-- The end of the entry is neither the bound nor the end of the address space. An entry that ends
at the bound passes the test against it, although nothing above it is left; the end of one that
reaches the end of the address space wraps to zero, and the entry is ignored. -/
def EndsClear (e : MemmapEntry) : Prop :=
  e.endAddr ≠ kPhysAllocationBound.toNat ∧ e.endAddr ≠ 2 ^ 64

instance (e : MemmapEntry) : Decidable e.EndsClear := inferInstanceAs (Decidable (_ ∧ _))

/-- Two entries have no byte in common. -/
def Disjoint (e f : MemmapEntry) : Prop :=
  e.endAddr ≤ f.base.toNat ∨ f.endAddr ≤ e.base.toNat

end MemmapEntry

/-- The ranges to be registered for a memory map: of every usable entry that is not too small the
part at or above the bound, when that part is non-empty. -/
def registered (usable : BitVec 64) (entries : List MemmapEntry) : List (BitVec 64 × ℕ) :=
  ((entries.filter (MemmapEntry.considered usable)).map MemmapEntry.part).filter (·.2 ≠ 0)

/-- Pages of a range that can be allocated: all but those of the bitmap. -/
def allocatablePages (length : ℕ) : ℕ :=
  length / pageSize - Region.bitmapPages (length / pageSize)

section

variable {usable : BitVec 64} {prior : BitVec 64 → Words}

/-! ## The loop -/

theorem registered_cons (e : MemmapEntry) (rest : List MemmapEntry) :
    registered usable (e :: rest) = registered usable [e] ++ registered usable rest := by
  unfold registered
  rw [← List.filter_append, ← List.map_append, ← List.filter_append, List.singleton_append]

theorem addRegions_append (p : Pool) (xs ys : List (BitVec 64 × ℕ)) :
    addRegions true prior p (xs ++ ys) =
      (addRegions true prior p xs).bind fun p' => addRegions true prior p' ys := by
  induction xs generalizing p with
  | nil => rfl
  | cons x rest ih =>
    rw [List.cons_append, addRegions, addRegions]
    rcases addRegion true p x.1 x.2 (prior x.1) with fault | p'
    · rfl
    · exact ih p'

/-- One range, as a list of ranges. -/
theorem addRegions_singleton (p : Pool) (base : BitVec 64) (length : ℕ) :
    addRegions true prior p [(base, length)] = addRegion true p base length (prior base) := by
  rw [addRegions]
  rcases addRegion true p base length (prior base) with fault | p' <;> rfl

namespace MemmapEntry

variable {e : MemmapEntry}

theorem considered_eq_true :
    e.considered usable = true ↔ e.type = usable ∧ kMinPhysicalRegionSize ≤ e.length := by
  rw [considered, Bool.and_eq_true, beq_iff_eq, decide_eq_true_eq]

theorem toNat_kPhysAllocationBound : kPhysAllocationBound.toNat = 0x1000000 := rfl

/-- The test against the bound is right if the entry does not end there and its end does not
wrap. -/
theorem part_eq_zero_iff (he : e.PageAligned) (hends : e.EndsClear) (hlength : e.length.toNat ≠ 0) :
    e.part.2 = 0 ↔ e.base + e.length < kPhysAllocationBound := by
  have hfits := he.fits
  obtain ⟨hbound, htop⟩ := hends
  rw [BitVec.lt_def, BitVec.toNat_add]
  simp only [part, partBase, endAddr] at *
  rw [Nat.mod_eq_of_lt (by omega)]
  omega

/-- The code computes the part. -/
theorem clip_eq_part (he : e.PageAligned) (hne : e.part.2 ≠ 0) :
    (if e.base < kPhysAllocationBound then
      (e.base + (kPhysAllocationBound - e.base), e.length - (kPhysAllocationBound - e.base))
    else (e.base, e.length)) = (e.part.1, BitVec.ofNat 64 e.part.2) := by
  have hfits := he.fits
  have hlength := e.length.isLt
  have hbound := toNat_kPhysAllocationBound
  split
  next hlt =>
    rw [BitVec.lt_def] at hlt
    simp only [part, partBase, endAddr, max_eq_right hlt.le] at hne hfits ⊢
    rw [Prod.mk.injEq, ← BitVec.toNat_inj, ← BitVec.toNat_inj]
    constructor
    · rw [BitVec.toNat_add, BitVec.toNat_sub, BitVec.toNat_ofNat]
      omega
    · rw [BitVec.toNat_sub, BitVec.toNat_sub, BitVec.toNat_ofNat]
      omega
  next hge =>
    rw [BitVec.not_lt, BitVec.le_def] at hge
    simp only [part, partBase, endAddr, max_eq_left hge] at hne hfits ⊢
    rw [Prod.mk.injEq, ← BitVec.toNat_inj, ← BitVec.toNat_inj]
    constructor
    · rw [BitVec.toNat_ofNat]
      omega
    · rw [BitVec.toNat_ofNat]
      omega

end MemmapEntry

/-- The body of the loop registers what is to be registered for the entry. -/
theorem addEntry_eq {e : MemmapEntry} (p : Pool) (he : e.type = usable → e.PageAligned)
    (hends : e.considered usable = true → e.EndsClear) :
    addEntry usable prior p e = addRegions true prior p (registered usable [e]) := by
  rw [addEntry]
  by_cases htype : e.type = usable
  swap
  · rw [if_pos htype, registered]
    simp [MemmapEntry.considered, htype, addRegions]
  -- too small
  by_cases hsmall : e.length < kMinPhysicalRegionSize
  · rw [if_neg (not_not.mpr htype), if_pos hsmall, registered]
    simp [MemmapEntry.considered, hsmall, addRegions]
  have hconsidered : e.considered usable = true :=
    MemmapEntry.considered_eq_true.mpr ⟨htype, BitVec.not_lt.mp hsmall⟩
  have hmin : kMinPhysicalRegionSize.toNat = 0x10000 := rfl
  have hlength : e.length.toNat ≠ 0 := by
    rw [BitVec.lt_def, hmin] at hsmall
    omega
  -- the test against the bound decides whether the part is empty
  have hiff := MemmapEntry.part_eq_zero_iff (he htype) (hends hconsidered) hlength
  rw [if_neg (not_not.mpr htype), if_neg hsmall]
  by_cases hbelow : e.base + e.length < kPhysAllocationBound
  · rw [if_pos hbelow, registered]
    simp [hconsidered, hiff.mpr hbelow, addRegions]
  · have hne : e.part.2 ≠ 0 := fun hzero => hbelow (hiff.mp hzero)
    rw [if_neg hbelow, MemmapEntry.clip_eq_part (he htype) hne]
    have hreg : registered usable [e] = [e.part] := by
      simp [registered, hconsidered, hne]
    have hsize : e.part.2 < 2 ^ 64 := by
      have hfits := (he htype).fits
      simp only [MemmapEntry.part, MemmapEntry.partBase, MemmapEntry.endAddr] at hfits ⊢
      omega
    rw [hreg, ← Prod.mk.eta (p := e.part), addRegions_singleton]
    simp only [BitVec.toNat_ofNat, Nat.mod_eq_of_lt hsize]

/-- The loop registers what is to be registered for the entries. -/
theorem addEntries_eq {entries : List MemmapEntry} (p : Pool)
    (haligned : ∀ e ∈ entries, e.type = usable → e.PageAligned)
    (hends : ∀ e ∈ entries, e.considered usable = true → e.EndsClear) :
    addEntries usable prior p entries = addRegions true prior p (registered usable entries) := by
  induction entries generalizing p with
  | nil => rfl
  | cons e rest ih =>
    rw [List.forall_mem_cons] at haligned hends
    rw [addEntries, registered_cons, addRegions_append, addEntry_eq p haligned.1 hends.1]
    exact congrArg _ (funext fun p' => ih p' haligned.2 hends.2)

/-! ## Registering in early boot -/

/-- The checks of `AddRegion`. -/
structure IsPageRange (x : BitVec 64 × ℕ) : Prop where
  base : x.1.toNat % pageSize = 0
  nonempty : x.2 ≠ 0
  length : x.2 % pageSize = 0

theorem isPageRange_registered {entries : List MemmapEntry}
    (haligned : ∀ e ∈ entries, e.type = usable → e.PageAligned) :
    ∀ x ∈ registered usable entries, IsPageRange x ∧ x.1.toNat + x.2 ≤ 2 ^ 64 := by
  intro x hx
  obtain ⟨hx, hne⟩ := List.mem_filter.mp hx
  obtain ⟨e, he, rfl⟩ := List.mem_map.mp hx
  obtain ⟨he, hconsidered⟩ := List.mem_filter.mp he
  obtain ⟨hbase, hlength, hfits⟩ := haligned e he (MemmapEntry.considered_eq_true.mp hconsidered).1
  have hne : e.part.2 ≠ 0 := of_decide_eq_true hne
  have hbound := MemmapEntry.toNat_kPhysAllocationBound
  simp only [MemmapEntry.part, MemmapEntry.partBase, MemmapEntry.endAddr, pageSize] at *
  refine ⟨⟨?_, hne, ?_⟩, ?_⟩
  · simp only [BitVec.toNat_ofNat, pageSize]
    omega
  · simp only [pageSize]
    omega
  · simp only [BitVec.toNat_ofNat]
    omega

theorem require_of_true {cond : Bool} (h : cond = true) : require cond = .ok () :=
  require_eq_ok.mpr h

/-- During early boot the low 4 GB can be reached. -/
theorem add_early {physical : BitVec 64} {length : ℕ} (hne : length ≠ 0)
    (hlength : length % pageSize = 0) :
    PhysicalMap.add true physical length =
      if physical < 0x100000000#64 then .ok physical else .error .panic := by
  have hreq : (decide (length ≠ 0) && decide (length % pageSize = 0)) = true := by
    rw [Bool.and_eq_true, decide_eq_true_eq, decide_eq_true_eq]
    exact ⟨hne, hlength⟩
  rw [PhysicalMap.add, require_of_true hreq, if_pos rfl]
  by_cases hlow : physical < 0x100000000#64
  · rw [if_pos hlow, require_of_true (decide_eq_true hlow)]
    rfl
  · rw [if_neg hlow, decide_eq_false hlow]
    rfl

/-- A pool with room takes a range whose first page is in the low 4 GB; for others the kernel
panics. -/
theorem addRegion_early {p : Pool} {x : BitVec 64 × ℕ} (hx : IsPageRange x) (prior : Words)
    (hregions : p.regions.length < Pool.kMaxRegions)
    (hbuffer : p.regionAllocBufNextFree < Pool.kMaxGlobalRegions) :
    if x.1 < 0x100000000#64 then
      ∃ r, addRegion true p x.1 x.2 prior = .ok ⟨p.regions ++ [r], p.regionAllocBufNextFree + 1⟩
    else addRegion true p x.1 x.2 prior = .error .panic := by
  obtain ⟨hbase, hne, hlength⟩ := hx
  have hpages : 0 < Region.bitmapPages (x.2 / pageSize) := by
    refine Region.bitmapPages_pos ?_
    simp only [pageSize] at *
    omega
  have hreserved : Region.bitmapPages (x.2 / pageSize) * pageSize ≠ 0 :=
    (Nat.mul_pos hpages (by norm_num)).ne'
  have hboth : (decide (x.2 ≠ 0) && decide (x.2 % pageSize = 0)) = true := by
    rw [Bool.and_eq_true, decide_eq_true_eq, decide_eq_true_eq]
    exact ⟨hne, hlength⟩
  rw [addRegion, require_of_true (decide_eq_true hbase), require_of_true hboth, Pool.addRegion,
    require_of_true (decide_eq_true hbuffer), require_of_true (decide_eq_true hregions), Region.new,
    require_of_true (decide_eq_true hne)]
  dsimp only
  rw [add_early hreserved (Nat.mul_mod_left _ _)]
  split
  · exact ⟨_, rfl⟩
  · rfl

/-- A pool with room takes all ranges of a list if they start in the low 4 GB; else the kernel
panics. -/
theorem addRegions_early (prior : BitVec 64 → Words) {p : Pool} {specs : List (BitVec 64 × ℕ)}
    (hspecs : ∀ x ∈ specs, IsPageRange x)
    (hregions : p.regions.length + specs.length ≤ Pool.kMaxRegions)
    (hbuffer : p.regionAllocBufNextFree + specs.length ≤ Pool.kMaxGlobalRegions) :
    if ∀ x ∈ specs, x.1 < 0x100000000#64 then ∃ p', addRegions true prior p specs = .ok p'
    else addRegions true prior p specs = .error .panic := by
  induction specs generalizing p with
  | nil => simp [addRegions]
  | cons x rest ih =>
    rw [List.forall_mem_cons] at hspecs
    rw [List.length_cons] at hregions hbuffer
    have hfirst := addRegion_early hspecs.1 (prior x.1) (p := p) (by omega) (by omega)
    rw [addRegions]
    by_cases hlow : x.1 < 0x100000000#64
    · rw [if_pos hlow] at hfirst
      obtain ⟨r, hfirst⟩ := hfirst
      have hrest := ih (p := ⟨p.regions ++ [r], p.regionAllocBufNextFree + 1⟩) hspecs.2
        (by rw [List.length_append, List.length_singleton]; omega) (by dsimp only; omega)
      rw [hfirst]
      simp only [List.forall_mem_cons, hlow, true_and]
      exact hrest
    · rw [if_neg hlow] at hfirst
      rw [hfirst, if_neg fun hall => hlow (hall x List.mem_cons_self)]
      rfl

/-- `GetTotalPages` counts the pages that are left next to the bitmaps. -/
theorem getTotalPages_eq {p : Pool} (h : ∀ r ∈ p.regions, r.Fresh) :
    getTotalPages p = (p.regions.map fun r => allocatablePages r.range.2).sum := by
  refine congrArg List.sum (List.map_congr_left fun r hr => ?_)
  rw [(h r hr).wellFormed.size_eq, allocatablePages, Region.range,
    Nat.mul_div_cancel _ (by norm_num)]

/-! ## `InitPhysAllocator` -/

/-- With an answer of the bootloader that lists no entries, the kernel panics. -/
theorem initPhysAllocator_nil :
    initPhysAllocator usable prior (some ⟨some []⟩) = .error .panic := rfl

theorem initPhysAllocator_cons {entries : List MemmapEntry} (hne : entries ≠ []) :
    initPhysAllocator usable prior (some ⟨some entries⟩) =
      addEntries usable prior Pool.empty entries := by
  have hlength : decide (entries.length ≠ 0) = true :=
    decide_eq_true (List.length_pos_iff.mpr hne).ne'
  show (require true >>= fun _ => require (decide (entries.length ≠ 0)) >>= fun _ =>
    require true >>= fun _ => addEntries usable prior Pool.empty entries) = _
  rw [require_of_true hlength]
  rfl

/-- For every memory map with page-aligned usable entries, of which none that is considered ends at
the bound or at the end of the address space, and with room in the pool: if the map is not empty and
no part to be registered starts above the low 4 GB, `InitPhysAllocator` finishes, the regions are
exactly these parts, and `GetTotalPages` counts their allocatable pages; otherwise the kernel
panics. -/
theorem initPhysAllocator_registers {entries : List MemmapEntry}
    (haligned : ∀ e ∈ entries, e.type = usable → e.PageAligned)
    (hends : ∀ e ∈ entries, e.considered usable = true → e.EndsClear)
    (hroom : (registered usable entries).length ≤ Pool.kMaxRegions) :
    if entries ≠ [] ∧ ∀ x ∈ registered usable entries, x.1 < 0x100000000#64 then
      ∃ p, initPhysAllocator usable prior (some ⟨some entries⟩) = .ok p ∧
        p.regions.map Region.range = registered usable entries ∧
          getTotalPages p =
            ((registered usable entries).map fun x => allocatablePages x.2).sum
    else initPhysAllocator usable prior (some ⟨some entries⟩) = .error .panic := by
  rcases eq_or_ne entries [] with rfl | hne
  · -- `REQUIRE(map->entry_count)`
    rw [if_neg (fun h => h.1 rfl), initPhysAllocator_nil]
  have hranges := isPageRange_registered haligned
  have hregister := addRegions_early prior (p := Pool.empty)
    (fun x hx => (hranges x hx).1) ((Nat.zero_add _).trans_le hroom)
    ((Nat.zero_add _).trans_le (hroom.trans (by decide)))
  rw [initPhysAllocator_cons hne, addEntries_eq _ haligned hends]
  by_cases hlow : ∀ x ∈ registered usable entries, x.1 < 0x100000000#64
  · rw [if_pos hlow] at hregister
    rw [if_pos ⟨hne, hlow⟩]
    obtain ⟨p, hp⟩ := hregister
    obtain ⟨rs, hfresh, hrange, hregions, -⟩ :=
      addRegions_eq hp (Nat.zero_le _) fun x hx => (hranges x hx).2
    rw [Pool.empty, List.nil_append] at hregions
    refine ⟨p, hp, hregions ▸ hrange, ?_⟩
    rw [getTotalPages_eq (hregions ▸ hfresh), ← hrange, hregions, List.map_map]
    rfl
  · rw [if_neg hlow] at hregister
    rw [if_neg fun h => hlow h.2, hregister]

/-- One usable entry from 1 MB to 32 MB: the part from 16 MB on is registered. -/
theorem initPhysAllocator_registers_one : ∃ p,
    initPhysAllocator 0#64 (fun _ _ => 0#64)
        (some ⟨some [⟨0x100000#64, 0x1f00000#64, 0#64⟩]⟩) = .ok p ∧
      p.regions.map Region.range = [(0x1000000#64, 0x1000000)] ∧ getTotalPages p = 4095 := by
  have hregistered : registered 0#64 [⟨0x100000#64, 0x1f00000#64, 0#64⟩] =
      [(0x1000000#64, 0x1000000)] := by decide +kernel
  have hresult := @initPhysAllocator_registers 0#64 (fun _ _ => 0#64)
    [⟨0x100000#64, 0x1f00000#64, 0#64⟩]
    (by rw [List.forall_mem_singleton]; exact fun _ => ⟨by decide, by decide, by decide⟩)
    (by rw [List.forall_mem_singleton]; exact fun _ => by decide)
    (by rw [hregistered]; decide)
  rw [hregistered, if_pos ⟨by simp, by decide⟩] at hresult
  exact hresult

/-- Registering the memory from 4 GB on panics. -/
theorem initPhysAllocator_not_total :
    ¬∀ (usable : BitVec 64) (prior : BitVec 64 → Words) (entries : List MemmapEntry),
      (∀ e ∈ entries, e.type = usable → e.PageAligned) →
      (entries.filter (·.type = usable)).Pairwise MemmapEntry.Disjoint →
      (registered usable entries).length ≤ Pool.kMaxRegions → entries ≠ [] →
      ∃ p, initPhysAllocator usable prior (some ⟨some entries⟩) = .ok p := by
  intro h
  have hregistered : registered 0#64 [⟨0x100000000#64, 0x10000#64, 0#64⟩] =
      [(0x100000000#64, 0x10000)] := by decide +kernel
  have haligned : ∀ e ∈ [(⟨0x100000000#64, 0x10000#64, 0#64⟩ : MemmapEntry)],
      e.type = 0#64 → e.PageAligned := by
    rw [List.forall_mem_singleton]
    exact fun _ => ⟨by decide, by decide, by decide⟩
  obtain ⟨p, hp⟩ := h 0#64 (fun _ _ => 0#64) [⟨0x100000000#64, 0x10000#64, 0#64⟩] haligned
    (List.pairwise_singleton _ _) (by rw [hregistered]; decide) (by simp)
  have hpanics : initPhysAllocator 0#64 (fun _ _ => 0#64)
      (some ⟨some [⟨0x100000000#64, 0x10000#64, 0#64⟩]⟩) = .error .panic := rfl
  cases hpanics.symm.trans hp

end

end KushOs.Boot
