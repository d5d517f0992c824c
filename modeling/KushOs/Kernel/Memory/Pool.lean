import KushOs.Kernel.Memory.Region
import Mathlib.Data.BitVec

/-!
# Pools of regions and the physical allocator

`Memory::Pool` serves allocations from a list of regions, and `PhysicalAllocator` fronts the
default pool, the only one the kernel initialises. `REQUIRE` failures are `Fault.panic`.

## Main definitions

* `Pool.addRegion`, `Pool.alloc`, `Pool.free`: the code of `Pool.cpp`.
* `addRegion`, `allocatePages`, `freePages`, `getTotalPages`, `getAllocPages`: the static
  functions of `PhysicalAllocator.cpp`.
* `Pool.freeBits`: the free bits of all regions in scan order, each with its region's index.

## Main results

* `Pool.alloc_eq`: while the count fits an `int`, `Pool::alloc` takes the first `num` free bits of
  the pool. Every region stores its addresses from the start of the caller's array on
  (`storeAll`).
-/

namespace KushOs.Memory

open WordBitmap

/-- `Memory::Pool`, with the file-scope counter of region buffers. -/
structure Pool where
  /-- The regions before the first null entry of the array. -/
  regions : List Region
  /-- `gRegionAllocBufNextFree`. -/
  regionAllocBufNextFree : ℕ

namespace Pool

/-- `kMaxRegions`: regions in one pool. -/
def kMaxRegions : ℕ := 16
/-- `kMaxGlobalRegions`: regions in all pools. -/
def kMaxGlobalRegions : ℕ := 48

/-- A pool before any region is added. -/
def empty : Pool := { regions := [], regionAllocBufNextFree := 0 }

/-- `Pool::addRegion`. -/
def addRegion (earlyBoot : Bool) (p : Pool) (base : BitVec 64) (length : ℕ) (prior : Words) :
    Except Fault Pool := do
  require (p.regionAllocBufNextFree < kMaxGlobalRegions)
  require (p.regions.length < kMaxRegions)
  let r ← Region.new earlyBoot base length prior
  return {
    regions := p.regions ++ [r]
    regionAllocBufNextFree := p.regionAllocBufNextFree + 1 }

/-- The loop of `Pool::free` over the regions. -/
def freeLoop (num : ℕ) (inAddrs : List (BitVec 64)) (freed : ℤ) :
    List Region → Except Fault (ℤ × List Region)
  | [] => .ok (freed, [])
  | r :: rest => do
      let (n, r') ← r.free inAddrs
      let freed' := toInt32 (freed + n)
      if toSize freed' = num then return (freed', r' :: rest)
      else
        let (total, rest') ← freeLoop num inAddrs freed' rest
        return (total, r' :: rest')

/-- `Pool::free`. -/
def free (p : Pool) (inAddrs : List (BitVec 64)) : Except Fault (ℤ × Pool) := do
  let (freed, regions) ← freeLoop inAddrs.length inAddrs 0 p.regions
  return (freed, { p with regions })

/-- The loop of `Pool::alloc` over the regions: the last region's result, the pages allocated so
far, the caller's array and the regions. -/
def allocLoop (num : ℕ) (out : AddrBuffer) (allocated : ℤ) :
    List Region → ℤ × ℤ × AddrBuffer × List Region
  | [] => (0, allocated, out, [])
  | r :: rest =>
      -- every region is handed `outPtr`, which still points at the start of the array
      let (err, out', r') := r.alloc (toSize (num - allocated)) out
      if err < 0 then (err, allocated, out', r' :: rest)
      else
        let allocated' := toInt32 (allocated + err)
        if toSize allocated' = num then (err, allocated', out', r' :: rest)
        else
          let (err', total, out'', rest') := allocLoop num out' allocated' rest
          (err', total, out'', r' :: rest')

/-- `Pool::alloc`. -/
def alloc (p : Pool) (num : ℕ) (outAddrs : AddrBuffer) :
    Except Fault (ℤ × AddrBuffer × Pool) :=
  let (err, allocated, out, regions) := allocLoop num outAddrs 0 p.regions
  let p' := { p with regions }
  if err < 0 then
    -- the error path gives back what earlier regions supplied
    if allocated ≠ 0 then do
      let (_, p'') ← p'.free ((List.range (toSize allocated)).map out)
      return (err, out, p'')
    else .ok (err, out, p')
  else .ok (allocated, out, p')

/-- `Pool::getTotalPages`. -/
def getTotalPages (p : Pool) : ℕ := (p.regions.map (·.bitmapSize)).sum

/-- `Pool::getAllocatedPages`. -/
def getAllocatedPages (p : Pool) : BitVec 64 := (p.regions.map (·.numAllocated)).sum

end Pool

/-! ## The default pool behind `PhysicalAllocator` -/

/-- `PhysicalAllocator::AddRegion` on the default pool. -/
def addRegion (earlyBoot : Bool) (p : Pool) (base : BitVec 64) (length : ℕ) (prior : Words) :
    Except Fault Pool := do
  require (base.toNat % pageSize = 0)
  require (length ≠ 0 && length % pageSize = 0)
  p.addRegion earlyBoot base length prior

/-- `AddRegion` for each of a list of ranges; `prior` is the content of memory beforehand. -/
def addRegions (earlyBoot : Bool) (prior : BitVec 64 → Words) (p : Pool) :
    List (BitVec 64 × ℕ) → Except Fault Pool
  | [] => .ok p
  | (base, length) :: rest => do
      let p' ← addRegion earlyBoot p base length (prior base)
      addRegions earlyBoot prior p' rest

/-- `PhysicalAllocator::AllocatePages` on the default pool. -/
def allocatePages (p : Pool) (numPages : ℕ) (outPageAddrs : AddrBuffer) :
    Except Fault (ℤ × AddrBuffer × Pool) := do
  require (numPages ≠ 0)
  p.alloc numPages outPageAddrs

/-- `PhysicalAllocator::FreePages` on the default pool. -/
def freePages (p : Pool) (inPageAddrs : List (BitVec 64)) : Except Fault (ℤ × Pool) := do
  require (inPageAddrs.length ≠ 0)
  p.free inPageAddrs

/-- `PhysicalAllocator::GetTotalPages`. -/
def getTotalPages (p : Pool) : ℕ := p.getTotalPages

/-- `PhysicalAllocator::GetAllocPages`. -/
def getAllocPages (p : Pool) : BitVec 64 := p.getAllocatedPages

/-- A call to `AllocatePages` that returns is one to `Pool::alloc` with a number that is not
zero. -/
theorem Pool.alloc_of_allocatePages {p p' : Pool} {num : ℕ} {buffer out : AddrBuffer} {count : ℤ}
    (h : allocatePages p num buffer = .ok (count, out, p')) :
    0 < num ∧ p.alloc num buffer = .ok (count, out, p') := by
  simp only [allocatePages, bind, Except.bind] at h
  split at h
  · cases h
  next hreq =>
    refine ⟨?_, h⟩
    simpa [Nat.pos_iff_ne_zero] using require_eq_ok.mp hreq

/-- `AllocatePages` passes a request that is not empty on to the pool. -/
theorem Pool.allocatePages_of_pos (p : Pool) {num : ℕ} (hpos : 0 < num) (buffer : AddrBuffer) :
    allocatePages p num buffer = p.alloc num buffer := by
  have hreq : require (decide (num ≠ 0)) = .ok () :=
    require_eq_ok.mpr (decide_eq_true hpos.ne')
  rw [allocatePages, hreq]
  rfl

/-! ## What an allocation takes -/

namespace Region

/-- The region after its first `n` free bits were taken. -/
def takeBits (r : Region) (n : ℕ) : Region :=
  { r with
    words := clearBits r.words (r.freeBits.take n)
    numAllocated := r.numAllocated + BitVec.ofNat 64 (min n r.freeBits.length) }

/-- The addresses of the region's free pages, in scan order. -/
def freeAddrs (r : Region) : List (BitVec 64) := r.freeBits.map r.pageAddr

/-- A region that gives no page stays as it is. -/
@[simp]
theorem takeBits_zero (r : Region) : r.takeBits 0 = r := by
  simp [takeBits]

/-- There are as many free pages as bits. -/
@[simp]
theorem length_freeAddrs (r : Region) : r.freeAddrs.length = r.freeBits.length := by
  simp [freeAddrs]

/-- The first free bits are cleared. -/
theorem bit_takeBits (r : Region) (n c : ℕ) :
    bit (r.takeBits n).words c = (decide (c ∉ r.freeBits.take n) && bit r.words c) := by
  simp [takeBits]

end Region

/-- The array after `addrs` was stored from its start on. -/
def storeAll (out : AddrBuffer) (addrs : List (BitVec 64)) : AddrBuffer :=
  fun k => (addrs[k]?).getD (out k)

@[simp]
theorem storeAll_nil (out : AddrBuffer) : storeAll out [] = out := by
  funext k
  simp [storeAll]

/-- `Region::alloc`, as an update of the array and of the region. -/
theorem Region.alloc_eq_storeAll (r : Region) {n : ℕ} (out : AddrBuffer) (hpos : 0 < n) :
    r.alloc n out =
      (toInt32 (min n r.freeBits.length : ℕ), storeAll out (r.freeAddrs.take n), r.takeBits n) := by
  have hout : (Taking.takes r.pageAddr ⟨r.words, out, 0, r.numAllocated⟩
      (r.freeBits.take n)).out = storeAll out (r.freeAddrs.take n) := by
    funext k
    rw [Taking.takes_out]
    simp [storeAll, freeAddrs, List.map_take]
  rw [Region.alloc_eq r out hpos]
  simp [hout, takeBits]

/-- The count is that of the pages stored, if it fits an `int`. -/
theorem Region.alloc_eq_takeBits (r : Region) {n : ℕ} (out : AddrBuffer) (hpos : 0 < n)
    (hint : min n r.freeBits.length < 2 ^ 31) :
    r.alloc n out =
      (((min n r.freeBits.length : ℕ) : ℤ), storeAll out (r.freeAddrs.take n), r.takeBits n) := by
  rw [r.alloc_eq_storeAll out hpos, toInt32_natCast hint]

namespace Pool

/-- Free bits of a list of regions. -/
def freeCount (rs : List Region) : ℕ := (rs.map fun r => r.freeBits.length).sum

@[simp]
theorem freeCount_nil : freeCount [] = 0 := rfl

/-- The free pages of a region and those of the others. -/
@[simp]
theorem freeCount_cons (r : Region) (rs : List Region) :
    freeCount (r :: rs) = r.freeBits.length + freeCount rs := by
  simp [freeCount]

/-- The regions after their first `n` free bits were taken. -/
def takeFirst : ℕ → List Region → List Region
  | _, [] => []
  | n, r :: rest => r.takeBits n :: takeFirst (n - r.freeBits.length) rest

/-- Regions that give no page stay as they are. -/
@[simp]
theorem takeFirst_zero (rs : List Region) : takeFirst 0 rs = rs := by
  induction rs with
  | nil => rfl
  | cons r rest ih => simp [takeFirst, ih]

/-- The caller's array after those bits were taken: each region stores its own addresses from the
start on. -/
def overlay : ℕ → AddrBuffer → List Region → AddrBuffer
  | _, out, [] => out
  | n, out, r :: rest =>
      overlay (n - r.freeBits.length) (storeAll out (r.freeAddrs.take n)) rest

/-- Without a page nothing is stored. -/
@[simp]
theorem overlay_zero (out : AddrBuffer) (rs : List Region) : overlay 0 out rs = out := by
  induction rs with
  | nil => rfl
  | cons r rest ih => simp [overlay, ih]

/-- Entries of the array that no region reaches keep their values. -/
theorem overlay_apply_of_le {n k : ℕ} {rs : List Region} (out : AddrBuffer)
    (h : ∀ (j : ℕ) (r : Region), rs[j]? = some r →
      min (n - freeCount (rs.take j)) r.freeBits.length ≤ k) :
    overlay n out rs k = out k := by
  induction rs generalizing n out with
  | nil => rfl
  | cons r rest ih =>
    have hhead : min n r.freeBits.length ≤ k := by simpa using h 0 r rfl
    have hkept : storeAll out (r.freeAddrs.take n) k = out k := by
      have hnone : (r.freeAddrs.take n)[k]? = none := by
        rw [List.getElem?_eq_none_iff, List.length_take, Region.length_freeAddrs]
        exact hhead
      rw [storeAll, hnone]
      rfl
    rw [overlay, ih, hkept]
    intro j r' hj
    have hrest := h (j + 1) r' (by simpa using hj)
    simpa [Nat.sub_sub] using hrest

/-- The loop over the regions takes the first free bits of all of them. -/
theorem allocLoop_eq {num : ℕ} (hnum : num < 2 ^ 64) (rs : List Region) (out : AddrBuffer) {a : ℕ}
    (ha : a < num) (hint : a + min (num - a) (freeCount rs) < 2 ^ 31) :
    ∃ err : ℤ, 0 ≤ err ∧ allocLoop num out a rs =
      (err, ((a + min (num - a) (freeCount rs) : ℕ) : ℤ), overlay (num - a) out rs,
        takeFirst (num - a) rs) := by
  induction rs generalizing out a with
  | nil => exact ⟨0, le_rfl, by simp [allocLoop, overlay, takeFirst]⟩
  | cons r rest ih =>
    rw [freeCount_cons] at hint
    have hsize : toSize ((num : ℤ) - a) = num - a := by
      have : ((num : ℤ) - a) = ((num - a : ℕ) : ℤ) := by omega
      rw [this, toSize_natCast (by omega)]
    have hregion : min (num - a) r.freeBits.length < 2 ^ 31 := by omega
    have hsum : toInt32 ((a : ℤ) + ((min (num - a) r.freeBits.length : ℕ) : ℤ)) =
        ((a + min (num - a) r.freeBits.length : ℕ) : ℤ) := by
      rw [← Nat.cast_add, toInt32_natCast (by omega)]
    rw [allocLoop, hsize, Region.alloc_eq_takeBits r out (by omega) hregion]
    dsimp only
    rw [if_neg (by omega), hsum, toSize_natCast (by omega), freeCount_cons]
    split
    next hdone =>
      have hrest : num - a - r.freeBits.length = 0 := by omega
      have hcount : a + min (num - a) (r.freeBits.length + freeCount rest) =
          a + min (num - a) r.freeBits.length := by omega
      refine ⟨((min (num - a) r.freeBits.length : ℕ) : ℤ), Int.natCast_nonneg _, ?_⟩
      rw [overlay, takeFirst, hrest, overlay_zero, takeFirst_zero, hcount]
    next hmore =>
      -- the region was exhausted, so the request goes on with what is left
      have hall : min (num - a) r.freeBits.length = r.freeBits.length := by omega
      rw [hall] at hmore ⊢
      obtain ⟨err, herr, heq⟩ := ih (storeAll out (r.freeAddrs.take (num - a)))
        (a := a + r.freeBits.length) (by omega) (by omega)
      refine ⟨err, herr, ?_⟩
      have hleft : num - (a + r.freeBits.length) = num - a - r.freeBits.length := by omega
      have hcount : a + min (num - a) (r.freeBits.length + freeCount rest) =
          a + r.freeBits.length +
            min (num - a - r.freeBits.length) (freeCount rest) := by omega
      rw [heq, overlay, takeFirst, hleft, hcount]

/-- `Pool::alloc` takes the first `num` free bits of the pool. -/
theorem alloc_eq (p : Pool) {num : ℕ} (out : AddrBuffer) (hpos : 0 < num) (hnum : num < 2 ^ 64)
    (hint : min num (freeCount p.regions) < 2 ^ 31) :
    p.alloc num out =
      .ok (((min num (freeCount p.regions) : ℕ) : ℤ), overlay num out p.regions,
        { p with regions := takeFirst num p.regions }) := by
  obtain ⟨err, herr, heq⟩ := allocLoop_eq hnum p.regions out hpos (by simpa using hint)
  simp only [Nat.cast_zero, Nat.sub_zero, Nat.zero_add] at heq
  rw [alloc, heq]
  simp [not_lt.mpr herr]

/-! ## The free bits of a pool -/

/-- The free bits of the regions, each with its region's index; the first region has index `i`. -/
def freeBitsFrom : ℕ → List Region → List (ℕ × ℕ)
  | _, [] => []
  | i, r :: rest => r.freeBits.map (i, ·) ++ freeBitsFrom (i + 1) rest

/-- The set bits in the words that an allocation scans, by region and then by bit. -/
def freeBits (p : Pool) : List (ℕ × ℕ) := freeBitsFrom 0 p.regions

/-- There is one position for every free page. -/
@[simp]
theorem length_freeBitsFrom (i : ℕ) (rs : List Region) :
    (freeBitsFrom i rs).length = freeCount rs := by
  induction rs generalizing i with
  | nil => rfl
  | cons r rest ih => simp [freeBitsFrom, ih]

/-- The positions count the regions from the first one on. -/
theorem le_of_mem_freeBitsFrom {i : ℕ} {rs : List Region} {x : ℕ × ℕ}
    (hx : x ∈ freeBitsFrom i rs) : i ≤ x.1 := by
  induction rs generalizing i with
  | nil => simp [freeBitsFrom] at hx
  | cons r rest ih =>
    rcases List.mem_append.mp hx with h | h
    · obtain ⟨b, _, rfl⟩ := List.mem_map.mp h
      exact le_rfl
    · have := ih h
      omega

/-- Region `j` loses those of its free bits that the request reaches. -/
theorem getElem?_takeFirst (n : ℕ) (rs : List Region) (j : ℕ) :
    (takeFirst n rs)[j]? = rs[j]?.map fun r => r.takeBits (n - freeCount (rs.take j)) := by
  induction rs generalizing n j with
  | nil => simp [takeFirst]
  | cons r rest ih =>
    cases j with
    | zero => simp [takeFirst]
    | succ j => simp [takeFirst, ih, Nat.sub_sub]

/-- The bits taken from region `j` are its first free bits, as far as the request reaches. -/
theorem mem_take_freeBitsFrom {n i : ℕ} {rs : List Region} {j b : ℕ} :
    (i + j, b) ∈ (freeBitsFrom i rs).take n ↔
      ∃ r, rs[j]? = some r ∧ b ∈ r.freeBits.take (n - freeCount (rs.take j)) := by
  induction rs generalizing n i j with
  | nil => simp [freeBitsFrom]
  | cons r rest ih =>
    rw [freeBitsFrom, List.take_append, List.mem_append, List.length_map, ← List.map_take,
      List.mem_map]
    cases j with
    | zero =>
      have hrest : (i, b) ∉ (freeBitsFrom (i + 1) rest).take (n - r.freeBits.length) := by
        intro h
        have := le_of_mem_freeBitsFrom (List.mem_of_mem_take h)
        omega
      simp [hrest]
    | succ j =>
      have hhead : ¬ ∃ c ∈ r.freeBits.take n, (i, c) = (i + (j + 1), b) := by
        rintro ⟨c, -, h⟩
        simp at h
      have hindex : i + (j + 1) = i + 1 + j := by omega
      rw [or_iff_right hhead, hindex, ih]
      simp [Nat.sub_sub]

end Pool

end KushOs.Memory
