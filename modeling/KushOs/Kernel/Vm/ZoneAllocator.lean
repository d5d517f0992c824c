import KushOs.Foundation.PointerList
import KushOs.Foundation.WordBitmap
import KushOs.Kernel.Platform

/-!
# The zone allocator

`Kernel::Vm::ZoneAllocator` takes regions of `RegionSize` bytes from the virtual allocator and
hands out slots of them for objects of one type. The metadata at the start of a region holds a
pointer to the next region and a bitmap in which a set bit marks a free slot.

Addresses are natural numbers: no region reaches the end of the address space, and the sums that
the code forms with other pointers are reduced explicitly. The contents of the slots, and the
cookie in the metadata, which nothing reads, are left out.

## Main definitions

* `ZoneParams`: the template's arguments, with its static assertions.
* `ZoneState.alloc`, `ZoneState.free`: the code of `ZoneAllocator.h`.

## Main results

* `allocSlot_eq`: the scan of `Region::alloc` takes the first set bit.
* `ZoneParams.indexFor_addressFor`: the index of a slot's address is that of the slot.
-/

namespace KushOs.Vm

open WordBitmap PointerList

/-! ## Parameters and layout -/

/-- The next multiple of `a` from `n` on. -/
def roundUp (n a : ℕ) : ℕ := (n + a - 1) / a * a

/-- `RegionMetadata::kBitmapEntries`. -/
abbrev kBitmapEntries : ℕ := 6

/-- `sizeof(RegionMetadata)`: a pointer, the bitmap and the cookie. -/
abbrev metadataSize : ℕ := 8 + kBitmapEntries * 8 + 8

/-- `offsetof(Region, storage)` for objects of alignment `align`. -/
def storageOffset (align : ℕ) : ℕ := roundUp metadataSize align

/-- The arguments of the template: the size of a region, and the size and alignment of `T`, which is
at most a page. The last two fields are the static assertions. -/
structure ZoneParams where
  /-- `RegionSize`. -/
  regionSize : ℕ
  /-- `sizeof(T)`. -/
  size : ℕ
  /-- `alignof(T)`. -/
  align : ℕ
  size_pos : 0 < size
  align_dvd_size : align ∣ size
  align_dvd_page : align ∣ pageSize
  /-- `sizeof(Region) <= RegionSize`. -/
  region_fits : roundUp (storageOffset align) (max 8 align) ≤ regionSize
  /-- `numItems <= kBitmapBits`. -/
  items_fit : (regionSize - storageOffset align) / size ≤ kBitmapEntries * 64

namespace ZoneParams

variable (P : ZoneParams)

/-- Number of slots of a region. -/
def numItems : ℕ := (P.regionSize - storageOffset P.align) / P.size

/-- `this->storage` of the region at `r`. -/
def storage (r : ℕ) : ℕ := r + storageOffset P.align

/-- `Region::addressFor`. -/
def addressFor (r idx : ℕ) : ℕ := P.storage r + idx * P.size

/-- `Region::indexFor`; the difference is taken modulo the size of a pointer. -/
def indexFor (r ptr : ℕ) : ℕ := (ptr + 2 ^ 64 - P.storage r) % 2 ^ 64 / P.size

/-- `Region::contains`. -/
def contains (r ptr : ℕ) : Bool :=
  !(ptr < r || (r + P.regionSize) % 2 ^ 64 < (ptr + P.size) % 2 ^ 64)

/-- The loop of `RegionMetadata::RegionMetadata` that marks the first `n` slots free. -/
def fillBitmap : ℕ → Words
  | 0 => fun _ => 0
  | n + 1 => setBit (fillBitmap n) n

end ZoneParams

/-! ## Regions -/

/-- The metadata of a region. -/
structure RegionMetadata where
  /-- Pointer to the next region. -/
  next : Option ℕ
  /-- A set bit marks a free slot. -/
  bitmap : Words

/-- `RegionMetadata::RegionMetadata`. -/
def RegionMetadata.new (P : ZoneParams) : RegionMetadata where
  next := none
  bitmap := ZoneParams.fillBitmap P.numItems

/-- `Region::isFull`. -/
def isFull (bitmap : Words) : Bool := (List.range kBitmapEntries).all fun i => bitmap i == 0

/-- The loop of `Region::alloc` over the `n` words from number `i` on: the index of the slot and
the bitmap afterwards. `REQUIRE(bit)` holds because the word is not zero. -/
def allocSlot (bitmap : Words) (i : ℕ) : ℕ → Option (ℕ × Words)
  | 0 => none
  | n + 1 =>
      let val := bitmap i
      if val = 0 then allocSlot bitmap (i + 1) n
      else
        let bit := ffs val
        some (64 * i + (bit - 1), Function.update bitmap i (val &&& ~~~(1#64 <<< (bit - 1))))

/-! ## The allocator -/

/-- A zone: the metadata of its regions, by address, and the allocator's pointers to regions. -/
structure ZoneState where
  /-- The metadata at an address. -/
  regions : ℕ → RegionMetadata
  /-- `start`. -/
  start : Option ℕ
  /-- `last`. -/
  last : Option ℕ
  /-- `freeRegion`. -/
  freeRegion : Option ℕ

namespace ZoneState

variable (P : ZoneParams) (z : ZoneState)

/-- A zone before its first allocation. -/
def init : ZoneState where
  regions _ := { next := none, bitmap := fun _ => 0 }
  start := none
  last := none
  freeRegion := none

/-- `r->meta.next`. -/
def next (r : ℕ) : Option ℕ := (z.regions r).next

/-- Replace the bitmap of a region. -/
def setBitmap (r : ℕ) (bitmap : Words) : ZoneState :=
  { z with regions := Function.update z.regions r { z.regions r with bitmap } }

/-- `findRegionWithSpace`, for at most `fuel` turns of its loop. -/
def findRegionWithSpace (fuel : ℕ) : Option (Option ℕ) :=
  search z.next (fun r => !isFull (z.regions r).bitmap) fuel z.start

/-- `Region::alloc` on the region at `r`. -/
def allocFrom (r : ℕ) : Option ℕ × ZoneState :=
  match allocSlot (z.regions r).bitmap 0 kBitmapEntries with
  | some (idx, bitmap) => (some (P.addressFor r idx), z.setBitmap r bitmap)
  | none => (none, z)

/-- The part of `alloc` that threads the result of `new Region` in. A region at the null pointer is
not constructed. -/
def threadIn (newRegion : Option ℕ) : ZoneState :=
  let regions :=
    match newRegion with
    | some block => Function.update z.regions block (.new P)
    | none => z.regions
  { regions :=
      match z.last with
      | some l => Function.update regions l { regions l with next := newRegion }
      | none => regions
    start := if z.start = none then newRegion else z.start
    last := newRegion
    freeRegion := newRegion }

/-- The region in the block at `block` is constructed and threaded in. -/
def addRegion (block : ℕ) : ZoneState := z.threadIn P (some block)

/-- `ZoneAllocator::alloc`. If no region has space, the next one is in the block that `VAlloc`
returns. The result tells whether that block was taken. -/
def alloc (fuel block : ℕ) : Option (Bool × Option ℕ × ZoneState) :=
  match z.findRegionWithSpace fuel with
  | none => none
  | some (some r) => some (false, z.allocFrom P r)
  | some none => some (true, (z.addRegion P block).allocFrom P block)

/-- `Region::free` on the region at `r`. -/
def freeIn (r ptr : ℕ) : Except Fault ZoneState := do
  require (P.contains r ptr)
  let idx := P.indexFor r ptr
  if idx / 64 < kBitmapEntries then return z.setBitmap r (setBit (z.regions r).bitmap idx)
  else .error .overrun

/-- The loop of `free`, for at most `fuel` turns. A region that does not contain the object is not
left behind: `continue` comes before the pointer is advanced. -/
def freeLoop (ptr : ℕ) : ℕ → Option ℕ → Option (Except Fault ZoneState)
  | 0, _ => none
  | _ + 1, none => some (.error .panic)
  | fuel + 1, some r =>
      if !P.contains r ptr then freeLoop ptr fuel (some r)
      else some (z.freeIn P r ptr)

/-- `ZoneAllocator::free`. -/
def free (fuel ptr : ℕ) : Option (Except Fault ZoneState) := z.freeLoop P ptr fuel z.start

end ZoneState

namespace ZoneState

variable {P : ZoneParams} (z : ZoneState)

/-- Setting a bitmap changes one region. -/
theorem regions_setBitmap (r a : ℕ) (bitmap : Words) :
    (z.setBitmap r bitmap).regions a =
      if a = r then { z.regions r with bitmap } else z.regions a :=
  Function.update_apply _ _ _ _

theorem next_setBitmap (r : ℕ) (bitmap : Words) : (z.setBitmap r bitmap).next = z.next := by
  funext a
  rw [next, next, regions_setBitmap]
  split
  next heq => rw [heq]
  next => rfl

/-- The bitmaps of the other regions stay. -/
theorem bitmap_setBitmap (r a : ℕ) (bitmap : Words) :
    ((z.setBitmap r bitmap).regions a).bitmap =
      if a = r then bitmap else (z.regions a).bitmap := by
  rw [regions_setBitmap]
  split <;> rfl

/-- The new region has all slots free; the other bitmaps stay as they are. -/
theorem bitmap_addRegion (block a : ℕ) :
    ((z.addRegion P block).regions a).bitmap =
      if a = block then ZoneParams.fillBitmap P.numItems else (z.regions a).bitmap := by
  unfold addRegion threadIn
  have hnew : (Function.update z.regions block (.new P) a).bitmap =
      if a = block then ZoneParams.fillBitmap P.numItems else (z.regions a).bitmap := by
    rw [Function.update_apply]
    split <;> rfl
  cases z.last with
  | none => exact hnew
  | some l =>
    dsimp only
    rw [Function.update_apply]
    split
    next heq => exact heq ▸ hnew
    next => exact hnew

/-- The last region points to the new one, which points nowhere. -/
theorem next_addRegion (block a : ℕ) :
    (z.addRegion P block).next a =
      if z.last = some a then some block else if a = block then none else z.next a := by
  unfold next addRegion threadIn
  have hnew : (Function.update z.regions block (.new P) a).next =
      if a = block then none else (z.regions a).next := by
    rw [Function.update_apply]
    split <;> rfl
  cases z.last with
  | none => simpa using hnew
  | some l =>
    dsimp only
    rw [Function.update_apply]
    by_cases heq : a = l
    · rw [if_pos heq, if_pos (heq ▸ rfl)]
    · rw [if_neg heq, if_neg fun h => heq (Option.some.inj h).symm]
      exact hnew

end ZoneState

/-! ## Layout -/

/-- Rounding up does not make smaller. -/
theorem le_roundUp (n : ℕ) {a : ℕ} (h : 0 < a) : n ≤ roundUp n a := by
  unfold roundUp
  have hmod := Nat.div_add_mod (n + a - 1) a
  have hlt := Nat.mod_lt (n + a - 1) h
  rw [Nat.mul_comm] at hmod
  omega

/-- A number that was rounded up is a multiple. -/
theorem dvd_roundUp (n a : ℕ) : a ∣ roundUp n a := Nat.dvd_mul_left _ _

namespace ZoneParams

variable {P : ZoneParams} {r idx : ℕ}

/-- Objects have an alignment. -/
theorem align_pos : 0 < P.align := Nat.pos_of_dvd_of_pos P.align_dvd_size P.size_pos

/-- The storage starts behind the metadata. -/
theorem metadataSize_le : metadataSize ≤ storageOffset P.align := le_roundUp _ align_pos

/-- The storage starts in the region. -/
theorem storageOffset_le : storageOffset P.align ≤ P.regionSize :=
  (le_roundUp _ (Nat.lt_of_lt_of_le (by omega) (le_max_left 8 P.align))).trans P.region_fits

/-- A region has a byte. -/
theorem regionSize_pos : 0 < P.regionSize :=
  Nat.lt_of_lt_of_le (by decide : 0 < metadataSize) (P.metadataSize_le.trans P.storageOffset_le)

/-- Slots lie in the storage of their region. -/
theorem addressFor_le (r : ℕ) (h : idx < P.numItems) :
    P.addressFor r idx + P.size ≤ r + P.regionSize := by
  have hmul : (idx + 1) * P.size ≤ P.numItems * P.size := Nat.mul_le_mul_right _ h
  have hdiv : P.numItems * P.size ≤ P.regionSize - storageOffset P.align :=
    Nat.div_mul_le_self _ _
  have hle := P.storageOffset_le
  rw [Nat.succ_mul] at hmul
  unfold addressFor storage
  omega

/-- The slots lie in the storage. -/
theorem storage_le (r idx : ℕ) : r + storageOffset P.align ≤ P.addressFor r idx :=
  Nat.le_add_right _ _

/-- Slots are aligned. -/
theorem addressFor_mod (hr : r % pageSize = 0) : P.addressFor r idx % P.align = 0 := by
  refine Nat.mod_eq_zero_of_dvd ?_
  refine Nat.dvd_add (Nat.dvd_add ?_ (dvd_roundUp _ _)) ?_
  · exact Nat.dvd_trans P.align_dvd_page (Nat.dvd_of_mod_eq_zero hr)
  · exact Nat.dvd_trans P.align_dvd_size (Nat.dvd_mul_left _ _)

/-- The bitmap has a bit for every slot. -/
theorem numItems_le : P.numItems ≤ kBitmapEntries * 64 := P.items_fit

/-- The index of a slot's address is that of the slot. -/
theorem indexFor_addressFor (h : idx < P.numItems) (hr : r + P.regionSize < 2 ^ 64) :
    P.indexFor r (P.addressFor r idx) = idx := by
  have hle := P.addressFor_le r h
  have hdiff : (P.addressFor r idx + 2 ^ 64 - P.storage r) % 2 ^ 64 = idx * P.size := by
    unfold addressFor at *
    omega
  rw [indexFor, hdiff, Nat.mul_div_cancel _ P.size_pos]

/-- A region contains its own slots. -/
theorem contains_addressFor (h : idx < P.numItems) (hr : r + P.regionSize < 2 ^ 64) :
    P.contains r (P.addressFor r idx) = true := by
  have hle := P.addressFor_le r h
  have hlo := P.storage_le r idx
  have hnot : ¬ P.addressFor r idx < r := by omega
  have hnot' : ¬ (r + P.regionSize) % 2 ^ 64 < (P.addressFor r idx + P.size) % 2 ^ 64 := by
    rw [Nat.mod_eq_of_lt hr, Nat.mod_eq_of_lt (by omega)]
    omega
  simp only [contains, hnot, hnot', decide_false, Bool.or_false, Bool.not_false]

/-- A region does not contain the slots of a region that it does not overlap. -/
theorem not_contains_of_apart {r' : ℕ} (hapart : r + P.regionSize ≤ r' ∨ r' + P.regionSize ≤ r)
    (h : idx < P.numItems) (hr : r + P.regionSize < 2 ^ 64) (hr' : r' + P.regionSize < 2 ^ 64) :
    ¬ P.contains r (P.addressFor r' idx) = true := by
  have hle := P.addressFor_le r' h
  have hlo := P.storage_le r' idx
  have hpos := P.size_pos
  rw [contains, Nat.mod_eq_of_lt hr, Nat.mod_eq_of_lt (by omega)]
  simp only [Bool.not_eq_true', Bool.or_eq_false_iff, decide_eq_false_iff_not, not_and_or,
    not_not]
  omega

/-- Different slots have different addresses. -/
theorem addressFor_inj {i j : ℕ} (h : P.addressFor r i = P.addressFor r j) : i = j :=
  Nat.eq_of_mul_eq_mul_right P.size_pos (Nat.add_left_cancel h)

/-- Slots of one region do not overlap. -/
theorem addressFor_apart {i j : ℕ} (h : i < j) :
    P.addressFor r i + P.size ≤ P.addressFor r j := by
  have hmul : (i + 1) * P.size ≤ j * P.size := Nat.mul_le_mul_right _ h
  rw [Nat.succ_mul] at hmul
  unfold addressFor
  omega

/-- The bits of a new region. -/
theorem bit_fillBitmap (n b : ℕ) : bit (fillBitmap n) b = decide (b < n) := by
  induction n with
  | zero => simp [fillBitmap, bit]
  | succ n ih =>
    rw [fillBitmap, bit_setBit, ih, Bool.eq_iff_iff]
    simp only [Bool.or_eq_true, decide_eq_true_eq]
    omega

end ZoneParams

namespace ZoneState

variable {P : ZoneParams} {z zone : ZoneState}

/-- `free` on an object of the region. -/
theorem freeIn_addressFor {r idx : ℕ} (h : idx < P.numItems) (hr : r + P.regionSize < 2 ^ 64) :
    z.freeIn P r (P.addressFor r idx) =
      .ok (z.setBitmap r (setBit (z.regions r).bitmap idx)) := by
  have hword : idx / 64 < kBitmapEntries := by
    have hle := P.numItems_le
    simp only [kBitmapEntries] at *
    omega
  simp [freeIn, require, P.contains_addressFor h hr, P.indexFor_addressFor h hr, hword, bind,
    Except.bind, pure, Except.pure]

/-- `free` returns only if the first region contains the object. -/
theorem freeLoop_eq_ok {ptr fuel : ℕ} {start : Option ℕ}
    (h : z.freeLoop P ptr fuel start = some (.ok zone)) :
    ∃ r, start = some r ∧ P.contains r ptr = true ∧ z.freeIn P r ptr = .ok zone := by
  induction fuel with
  | zero => cases h
  | succ fuel ih =>
    cases start with
    | none => cases h
    | some r =>
      rw [freeLoop] at h
      split at h
      · exact ih h
      next hcontains =>
        rw [Bool.not_eq_true', Bool.not_eq_false] at hcontains
        exact ⟨r, rfl, hcontains, Option.some.inj h⟩

end ZoneState

/-! ## Bitmaps -/

/-- The scan of `Region::alloc` takes the first set bit. -/
theorem allocSlot_eq (bitmap : Words) (i n : ℕ) :
    allocSlot bitmap i n = (setBits bitmap i n).head?.map fun b => (b, clearBit bitmap b) := by
  induction n generalizing i with
  | zero => rfl
  | succ n ih =>
    rw [allocSlot, setBits]
    split
    next hzero => rw [ih, hzero, bitPositions_eq_nil.mpr rfl, List.map_nil, List.nil_append]
    next hval =>
      have hpos := bitPositions_eq_cons hval
      have hmem : ffs (bitmap i) - 1 ∈ bitPositions (bitmap i) := by
        rw [hpos]
        exact List.mem_cons_self
      have hlt : ffs (bitmap i) - 1 < 64 := by
        simp only [bitPositions, List.mem_filter, List.mem_range] at hmem
        exact hmem.1
      dsimp only
      rw [hpos, List.map_cons, List.cons_append, List.head?_cons, Option.map_some,
        update_word_eq_clearBit _ _ hlt]

/-- A region is full when no bit is set. -/
theorem isFull_iff (bitmap : Words) :
    isFull bitmap = true ↔ ∀ b < kBitmapEntries * 64, bit bitmap b = false := by
  simp only [isFull, List.all_eq_true, List.mem_range, beq_iff_eq]
  constructor
  · intro h b hb
    have hword := h (b / 64) (by omega)
    simp [bit, hword]
  · intro h i hi
    refine @word_eq_of_bit bitmap (fun _ => 0#64) i fun j hj => ?_
    rw [h (64 * i + j) (by omega)]
    simp [bit]

end KushOs.Vm
