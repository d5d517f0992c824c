import KushOs.Foundation.Fallible
import KushOs.Kernel.Memory.Geometry

/-!
# What a release gives back

`Region::free` ignores the addresses its region does not contain, so `Pool::free` offers the whole
list to every region and stops once the regions have freed as many pages as the list is long. A
region faults if it contains an address of the pages that hold its bitmap.

## Main definitions

* `Region.freed`: a region after a release that does not fault.
* `Region.BitsInside`: the lists for which it does not fault.

## Main results

* `Region.free_eq_ok_iff`, `Region.bit_freed`: what one region does with a list of addresses.
* `Pool.getElem?_freeLoop`: `Pool::free` treats every region so, or leaves it alone.
* `Pool.free_eq`: over regions that lie apart it treats every region so, and returns the number of
  addresses that some region contains.
-/

namespace KushOs.Memory

open WordBitmap

namespace Region

/-- The region after the bit that `Region::free` computes from an address was set and counted. -/
def setFree (r : Region) (a : BitVec 64) : Region :=
  { r with words := setBit r.words (r.freeIndex a), numAllocated := r.numAllocated - 1 }

/-- The region after `Region::free`, if no store faults. -/
def freed : Region → List (BitVec 64) → Region
  | r, [] => r
  | r, a :: rest => if r.contains a then (r.setFree a).freed rest else r.freed rest

/-- The bits of all addresses that the region contains are in its bitmap. -/
def BitsInside (r : Region) (addrs : List (BitVec 64)) : Prop :=
  ∀ a ∈ addrs, r.contains a = true → r.freeIndex a / 64 < r.bitmapReserved / 8

@[simp]
theorem shape_setFree (r : Region) (a : BitVec 64) : (r.setFree a).shape = r.shape := rfl

@[simp]
theorem contains_setFree (r : Region) (a : BitVec 64) : (r.setFree a).contains = r.contains := rfl

@[simp]
theorem freed_nil (r : Region) : r.freed [] = r := rfl

theorem freed_cons (r : Region) (a : BitVec 64) (rest : List (BitVec 64)) :
    r.freed (a :: rest) = if r.contains a then (r.setFree a).freed rest else r.freed rest := rfl

theorem bitsInside_cons {r : Region} {a : BitVec 64} {rest : List (BitVec 64)} :
    r.BitsInside (a :: rest) ↔
      (r.contains a = true → r.freeIndex a / 64 < r.bitmapReserved / 8) ∧ r.BitsInside rest :=
  List.forall_mem_cons

/-- The release of one page returns exactly if its bit is in the bitmap. -/
theorem freePage_eq_ok_iff {r r' : Region} {a : BitVec 64} :
    r.freePage a = .ok r' ↔ r.freeIndex a / 64 < r.bitmapReserved / 8 ∧ r.setFree a = r' := by
  change (if r.freeIndex a / 64 < r.bitmapReserved / 8 then Except.ok (r.setFree a)
    else Except.error Fault.overrun) = Except.ok r' ↔ _
  split
  next hin => rw [Except.ok.injEq, and_iff_right hin]
  next hout =>
    constructor
    · intro h
      cases h
    · exact fun h => absurd h.1 hout

/-- The loop returns exactly if all bits are in the bitmap, with the number of addresses that the
region contains. -/
theorem freePages_eq_ok_iff {r : Region} {addrs : List (BitVec 64)} {result : ℕ × Region} :
    r.freePages addrs = .ok result ↔
      r.BitsInside addrs ∧ (addrs.countP r.contains, r.freed addrs) = result := by
  induction addrs generalizing r result with
  | nil =>
    rw [freePages, Except.ok.injEq]
    exact (and_iff_right fun a ha => by cases ha).symm
  | cons a rest ih =>
    rw [freePages, bitsInside_cons, List.countP_cons, freed_cons]
    -- an address of another region is skipped without an access to the bitmap
    by_cases hc : r.contains a = true
    · rw [if_pos hc, if_pos hc, if_pos hc, forall_prop_of_true hc, Fallible.bind_eq_ok]
      constructor
      · rintro ⟨r', hfirst, h⟩
        obtain ⟨hin, rfl⟩ := freePage_eq_ok_iff.mp hfirst
        obtain ⟨⟨freed, r''⟩, hrest, h⟩ := Fallible.bind_eq_ok.mp h
        obtain ⟨hinside, hcount⟩ := ih.mp hrest
        obtain ⟨rfl, rfl⟩ := Prod.mk.inj hcount
        exact ⟨⟨hin, hinside⟩, (Fallible.pure_eq_ok.mp h).symm⟩
      · rintro ⟨⟨hin, hinside⟩, rfl⟩
        refine ⟨_, freePage_eq_ok_iff.mpr ⟨hin, rfl⟩, Fallible.bind_eq_ok.mpr ⟨_, ih.mpr ⟨hinside,
          rfl⟩, rfl⟩⟩
    · rw [if_neg hc, if_neg hc, if_neg hc, ih, Nat.add_zero, and_iff_right fun h => absurd h hc]

/-- `Region::free` returns exactly if all bits are in the bitmap. -/
theorem free_eq_ok_iff {r : Region} {addrs : List (BitVec 64)} {result : ℤ × Region} :
    r.free addrs = .ok result ↔
      r.BitsInside addrs ∧ (toInt32 (addrs.countP r.contains : ℕ), r.freed addrs) = result := by
  rw [free, Fallible.bind_eq_ok]
  constructor
  · rintro ⟨⟨n, r'⟩, hloop, h⟩
    obtain ⟨hinside, hcount⟩ := freePages_eq_ok_iff.mp hloop
    obtain ⟨rfl, rfl⟩ := Prod.mk.inj hcount
    exact ⟨hinside, (Fallible.pure_eq_ok.mp h).symm⟩
  · rintro ⟨hinside, rfl⟩
    exact ⟨_, freePages_eq_ok_iff.mpr ⟨hinside, rfl⟩, rfl⟩

@[simp]
theorem shape_freed (r : Region) (addrs : List (BitVec 64)) : (r.freed addrs).shape = r.shape := by
  induction addrs generalizing r with
  | nil => rfl
  | cons a rest ih =>
    rw [freed_cons]
    split
    · rw [ih, shape_setFree]
    · exact ih r

theorem numAllocated_freed (r : Region) (addrs : List (BitVec 64)) :
    (r.freed addrs).numAllocated =
      r.numAllocated - BitVec.ofNat 64 (addrs.countP r.contains) := by
  induction addrs generalizing r with
  | nil => simp
  | cons a rest ih =>
    rw [freed_cons, List.countP_cons]
    split
    next ha =>
      rw [ih, contains_setFree, BitVec.ofNat_add, setFree]
      simp only [BitVec.sub_eq_add_neg, BitVec.neg_add, BitVec.add_assoc]
      rw [BitVec.add_comm (-1)]
      rfl
    next ha => exact ih r

/-- The bits set are those of the addresses that the region contains. -/
theorem bit_freed (r : Region) (addrs : List (BitVec 64)) (c : ℕ) :
    bit (r.freed addrs).words c = true ↔
      bit r.words c = true ∨ ∃ a ∈ addrs, r.contains a = true ∧ r.freeIndex a = c := by
  induction addrs generalizing r with
  | nil => simp
  | cons a rest ih =>
    rw [freed_cons]
    split
    next ha =>
      have hindex : (r.setFree a).freeIndex = r.freeIndex := rfl
      have hbit : bit (r.setFree a).words c = true ↔ c = r.freeIndex a ∨ bit r.words c = true := by
        simp [setFree]
      -- a bit was set before, is that of the first address, or is set by the rest of the loop
      rw [ih, contains_setFree, hindex, hbit, List.exists_mem_cons_iff]
      constructor
      · rintro ((rfl | hc) | hrest)
        · exact Or.inr (Or.inl ⟨ha, rfl⟩)
        · exact Or.inl hc
        · exact Or.inr (Or.inr hrest)
      · rintro (hc | ⟨-, rfl⟩ | hrest)
        · exact Or.inl (Or.inr hc)
        · exact Or.inl (Or.inl rfl)
        · exact Or.inr hrest
    next ha => simp [ih, ha]

/-- A region that contains none of the addresses stays as it is. -/
theorem freed_eq_self {r : Region} {addrs : List (BitVec 64)}
    (h : addrs.countP r.contains = 0) : r.freed addrs = r := by
  induction addrs with
  | nil => rfl
  | cons a rest ih =>
    rw [List.countP_cons] at h
    have ha : ¬ r.contains a = true := fun ha => by simp [ha] at h
    rw [freed_cons, if_neg ha]
    exact ih (by omega)

/-- Freeing distinct pages with clear bits makes as many bits less clear. -/
theorem clearCount_freed {r : Region} {addrs : List (BitVec 64)} (hnodup : addrs.Nodup)
    (hclear : ∀ a ∈ addrs, r.contains a = true →
      r.freeIndex a < r.bitmapSize ∧ bit r.words (r.freeIndex a) = false)
    (hinj : ∀ a ∈ addrs, ∀ a' ∈ addrs, r.contains a = true → r.contains a' = true →
      r.freeIndex a = r.freeIndex a' → a = a') :
    clearCount (r.freed addrs).words r.bitmapSize + addrs.countP r.contains =
      clearCount r.words r.bitmapSize := by
  induction addrs generalizing r with
  | nil => rfl
  | cons a rest ih =>
    rw [List.nodup_cons] at hnodup
    rw [freed_cons, List.countP_cons]
    have hinj' := fun b hb b' hb' =>
      hinj b (List.mem_cons_of_mem a hb) b' (List.mem_cons_of_mem a hb')
    split
    next ha =>
      obtain ⟨hlt, hbit⟩ := hclear a List.mem_cons_self ha
      -- the other pages have other bits, which stay clear
      have hrest : clearCount ((r.setFree a).freed rest).words r.bitmapSize +
          rest.countP r.contains = clearCount (r.setFree a).words r.bitmapSize := ih hnodup.2
        (by
          intro b hb hcb
          obtain ⟨hltb, hbitb⟩ := hclear b (List.mem_cons_of_mem a hb) hcb
          have hne : r.freeIndex b ≠ r.freeIndex a := fun heq =>
            hnodup.1 (hinj b (List.mem_cons_of_mem a hb) a List.mem_cons_self hcb ha heq ▸ hb)
          refine ⟨hltb, ?_⟩
          show bit (setBit r.words (r.freeIndex a)) (r.freeIndex b) = false
          simp [hne, hbitb])
        hinj'
      have hset : clearCount (r.setFree a).words r.bitmapSize + 1 =
          clearCount r.words r.bitmapSize := clearCount_setBit hlt hbit
      rw [← hset, ← hrest, Nat.add_assoc]
    next ha =>
      rw [Nat.add_zero]
      exact ih hnodup.2 (fun b hb => hclear b (List.mem_cons_of_mem a hb)) hinj'

end Region

namespace Pool

/-- Number of times an address of the list is accepted by a region. -/
def freedCount (rs : List Region) (addrs : List (BitVec 64)) : ℕ :=
  (rs.map fun r => addrs.countP r.contains).sum

@[simp]
theorem freedCount_cons (r : Region) (rest : List Region) (addrs : List (BitVec 64)) :
    freedCount (r :: rest) addrs = addrs.countP r.contains + freedCount rest addrs := by
  simp [freedCount]

/-- Whether some region contains the address. -/
def contains (rs : List Region) (a : BitVec 64) : Bool := rs.any fun r => r.contains a

/-- Regions that lie apart count each address that one of them contains once. -/
theorem freedCount_eq {rs : List Region} (hl : Layout rs) (addrs : List (BitVec 64)) :
    freedCount rs addrs = addrs.countP (contains rs) := by
  have hdisjoint := hl.contains_disjoint
  clear hl
  induction rs with
  | nil => simp [freedCount, show contains [] = fun _ => false from rfl]
  | cons r rest ih =>
    rw [List.pairwise_cons] at hdisjoint
    rw [freedCount_cons, ih hdisjoint.2]
    -- an address counted by the first region is counted by no other
    clear ih
    induction addrs with
    | nil => rfl
    | cons a as iha =>
      have hone : r.contains a = true → contains rest a = false := by
        intro ha
        rw [contains, List.any_eq_false]
        intro r' hr'
        simp [hdisjoint.1 r' hr' a ha]
      have hcons : contains (r :: rest) a = (r.contains a || contains rest a) := rfl
      rw [List.countP_cons, List.countP_cons, List.countP_cons, ← iha, hcons]
      cases ha : r.contains a with
      | true => simp [hone ha]; omega
      | false => simp; omega

theorem map_freed_of_freedCount_eq_zero {rs : List Region} {addrs : List (BitVec 64)}
    (h : freedCount rs addrs = 0) : rs.map (·.freed addrs) = rs := by
  induction rs with
  | nil => rfl
  | cons r rest ih =>
    rw [freedCount_cons] at h
    rw [List.map_cons, Region.freed_eq_self (by omega), ih (by omega)]

/-- The loop goes on behind a region as if it had started there with what was freed so far. -/
theorem freeLoop_cons_eq_ok {num : ℕ} {addrs : List (BitVec 64)} {total : ℤ} {r : Region}
    {rest : List Region} {result : ℤ × List Region} :
    freeLoop num addrs (toInt32 total) (r :: rest) = .ok result ↔
      r.BitsInside addrs ∧
        if toSize (toInt32 (total + (addrs.countP r.contains : ℕ))) = num then
          (toInt32 (total + (addrs.countP r.contains : ℕ)), r.freed addrs :: rest) = result
        else ∃ x,
          freeLoop num addrs (toInt32 (total + (addrs.countP r.contains : ℕ))) rest = .ok x ∧
          (x.1, r.freed addrs :: x.2) = result := by
  -- the total wraps at 32 bits either way
  have hsum : toInt32 (toInt32 total + toInt32 (addrs.countP r.contains : ℕ)) =
      toInt32 (total + (addrs.countP r.contains : ℕ)) := by
    simp [toInt32]
  rw [freeLoop, Fallible.bind_eq_ok]
  constructor
  · rintro ⟨x, hfree, h⟩
    obtain ⟨hinside, rfl⟩ := Region.free_eq_ok_iff.mp hfree
    refine ⟨hinside, ?_⟩
    dsimp only at h
    rw [hsum] at h
    split at h
    next hdone => rw [if_pos hdone, Fallible.pure_eq_ok.mp h]
    next hmore =>
      obtain ⟨x, hrest, h⟩ := Fallible.bind_eq_ok.mp h
      rw [if_neg hmore]
      exact ⟨x, hrest, (Fallible.pure_eq_ok.mp h).symm⟩
  · rintro ⟨hinside, h⟩
    refine ⟨_, Region.free_eq_ok_iff.mpr ⟨hinside, rfl⟩, ?_⟩
    dsimp only
    rw [hsum]
    split at h
    next hdone => rw [if_pos hdone, ← h, Fallible.pure_eq_ok]
    next hmore =>
      obtain ⟨x, hrest, rfl⟩ := h
      rw [if_neg hmore]
      exact Fallible.bind_eq_ok.mpr ⟨x, hrest, rfl⟩

/-- `Pool::free` frees the list in the first `k` regions and leaves the others alone, if the bits
of the addresses are in the bitmaps of these. It goes through all regions, or it stops because its
count is the length of the list. -/
theorem freeLoop_cases (num : ℕ) (addrs : List (BitVec 64)) (total : ℤ) (rs : List Region) :
    ∃ k, (∀ result, freeLoop num addrs (toInt32 total) rs = .ok result ↔
        (∀ r ∈ rs.take k, r.BitsInside addrs) ∧
          (toInt32 (total + freedCount (rs.take k) addrs),
            (rs.take k).map (·.freed addrs) ++ rs.drop k) = result) ∧
      (rs.length ≤ k ∨ toSize (toInt32 (total + freedCount (rs.take k) addrs)) = num) := by
  induction rs generalizing total with
  | nil => exact ⟨0, by simp [freeLoop, freedCount], Or.inl le_rfl⟩
  | cons r rest ih =>
    -- the loop stops behind this region, or goes on with a larger total
    by_cases hdone : toSize (toInt32 (total + (addrs.countP r.contains : ℕ))) = num
    · refine ⟨1, fun result => ?_, Or.inr ?_⟩
      · rw [freeLoop_cons_eq_ok, if_pos hdone]
        simp [freedCount]
      · simpa [freedCount] using hdone
    · obtain ⟨k, hk, hstop⟩ := ih (total + (addrs.countP r.contains : ℕ))
      have hcount : total + (addrs.countP r.contains : ℕ) + freedCount (rest.take k) addrs =
          total + freedCount ((r :: rest).take (k + 1)) addrs := by
        rw [List.take_succ_cons, freedCount_cons, Nat.cast_add, add_assoc]
      rw [hcount] at hk hstop
      refine ⟨k + 1, fun result => ?_, hstop.imp_left (by simp)⟩
      rw [freeLoop_cons_eq_ok, if_neg hdone, List.take_succ_cons, List.forall_mem_cons]
      simp only [hk, and_assoc, exists_and_left, exists_eq_left']
      rfl

/-- `Pool::free` frees the list in every region that its loop reaches. -/
theorem getElem?_freeLoop {num : ℕ} {addrs : List (BitVec 64)} {rs rs' : List Region} {count : ℤ}
    (h : freeLoop num addrs 0 rs = .ok (count, rs')) (j : ℕ) :
    rs'[j]? = rs[j]? ∨ rs'[j]? = rs[j]?.map (·.freed addrs) := by
  obtain ⟨k, hk, -⟩ := freeLoop_cases num addrs 0 rs
  obtain ⟨-, hresult⟩ := (hk _).mp h
  obtain ⟨-, rfl⟩ := Prod.mk.inj hresult
  rcases Nat.lt_or_ge j (rs.take k).length with hlt | hge
  · right
    rw [List.getElem?_append_left (by rwa [List.length_map]), List.getElem?_map,
      List.getElem?_take_of_lt (by rw [List.length_take] at hlt; omega)]
  · left
    rw [List.getElem?_append_right (by rwa [List.length_map]), List.length_map, List.getElem?_drop]
    rw [List.length_take] at hge ⊢
    rcases Nat.lt_or_ge j rs.length with hj | hj
    · congr 1
      omega
    · rw [List.getElem?_eq_none hj, List.getElem?_eq_none (by omega)]

theorem freedCount_take_add_drop (rs : List Region) (addrs : List (BitVec 64)) (k : ℕ) :
    freedCount (rs.take k) addrs + freedCount (rs.drop k) addrs = freedCount rs addrs := by
  rw [freedCount, freedCount, ← List.sum_append, ← List.map_append, List.take_append_drop]
  rfl

/-- When the loop stops early with the right count, no region that is left contains an address. -/
theorem map_freed_of_take {rs : List Region} {addrs : List (BitVec 64)} {k : ℕ}
    (h : rs.length ≤ k ∨ freedCount rs addrs ≤ freedCount (rs.take k) addrs) :
    (rs.take k).map (·.freed addrs) ++ rs.drop k = rs.map (·.freed addrs) ∧
      freedCount (rs.take k) addrs = freedCount rs addrs := by
  have hsum := freedCount_take_add_drop rs addrs k
  have hzero : freedCount (rs.drop k) addrs = 0 := by
    rcases h with hk | hle
    · rw [List.drop_eq_nil_of_le hk]
      rfl
    · omega
  refine ⟨?_, by omega⟩
  conv_rhs => rw [← List.take_append_drop k rs, List.map_append,
    map_freed_of_freedCount_eq_zero hzero]

/-- A call to `FreePages` that returns is one to `Pool::free` with a list that is not empty. -/
theorem freePages_eq_ok {p p' : Pool} {addrs : List (BitVec 64)} {count : ℤ} :
    freePages p addrs = .ok (count, p') ↔ addrs ≠ [] ∧ p.free addrs = .ok (count, p') := by
  cases addrs with
  | nil => simp [freePages, require, bind, Except.bind]
  | cons a rest => simp [freePages, require, bind, Except.bind]

/-- `Pool::free` returns what its loop over the regions does. -/
theorem free_eq_ok {p p' : Pool} {addrs : List (BitVec 64)} {count : ℤ} :
    p.free addrs = .ok (count, p') ↔
      ∃ rs, freeLoop addrs.length addrs 0 p.regions = .ok (count, rs) ∧
        { p with regions := rs } = p' := by
  rw [free, Fallible.bind_eq_ok]
  constructor
  · rintro ⟨⟨n, rs⟩, hloop, h⟩
    obtain ⟨rfl, rfl⟩ := Prod.mk.inj (Fallible.pure_eq_ok.mp h)
    exact ⟨rs, hloop, rfl⟩
  · rintro ⟨rs, hloop, rfl⟩
    exact ⟨_, hloop, rfl⟩

/-- `FreePages` frees the list in every region, or it leaves the region alone. -/
theorem getElem?_of_freePages {p p' : Pool} {addrs : List (BitVec 64)} {count : ℤ}
    (h : freePages p addrs = .ok (count, p')) (i : ℕ) :
    p'.regions[i]? = p.regions[i]? ∨ p'.regions[i]? = p.regions[i]?.map (·.freed addrs) := by
  obtain ⟨-, hfree⟩ := freePages_eq_ok.mp h
  obtain ⟨rs, hloop, rfl⟩ := free_eq_ok.mp hfree
  exact getElem?_freeLoop hloop i

/-- Releases keep the shapes of all regions. -/
theorem map_shape_of_free {p p' : Pool} {addrs : List (BitVec 64)} {count : ℤ}
    (h : p.free addrs = .ok (count, p')) :
    p'.regions.map Region.shape = p.regions.map Region.shape := by
  obtain ⟨rs, hloop, rfl⟩ := free_eq_ok.mp h
  apply List.ext_getElem?
  intro i
  rw [List.getElem?_map, List.getElem?_map]
  rcases getElem?_freeLoop hloop i with hi | hi
  · rw [hi]
  · rw [hi, Option.map_map]
    congr 1
    funext r
    exact r.shape_freed addrs

theorem map_shape_of_freePages {p p' : Pool} {addrs : List (BitVec 64)} {count : ℤ}
    (h : freePages p addrs = .ok (count, p')) :
    p'.regions.map Region.shape = p.regions.map Region.shape :=
  map_shape_of_free (freePages_eq_ok.mp h).2

theorem map_shape_allocLoop (num : ℕ) (out : AddrBuffer) (a : ℤ) (rs : List Region) :
    (allocLoop num out a rs).2.2.2.map Region.shape = rs.map Region.shape := by
  induction rs generalizing out a with
  | nil => rfl
  | cons r rest ih =>
    rw [allocLoop]
    dsimp only
    split
    · rfl
    · split
      · rfl
      · rw [List.map_cons, List.map_cons, ih]
        rfl

/-- So do allocations, those that give back what they found included. -/
theorem map_shape_of_alloc {p p' : Pool} {num : ℕ} {buffer out : AddrBuffer} {count : ℤ}
    (h : p.alloc num buffer = .ok (count, out, p')) :
    p'.regions.map Region.shape = p.regions.map Region.shape := by
  rw [← map_shape_allocLoop num buffer 0 p.regions]
  unfold alloc at h
  dsimp only at h
  split at h
  · split at h
    · obtain ⟨⟨n, p''⟩, hfree, h⟩ := Fallible.bind_eq_ok.mp h
      obtain ⟨-, -, rfl⟩ : count = _ ∧ out = _ ∧ p' = p'' := by
        simpa using Fallible.pure_eq_ok.mp h
      exact map_shape_of_free hfree
    · obtain ⟨-, -, rfl⟩ : _ = count ∧ _ = out ∧ _ = p' := by simpa using h
      rfl
  · obtain ⟨-, -, rfl⟩ : _ = count ∧ _ = out ∧ _ = p' := by simpa using h
    rfl

/-- `Pool::free` over regions that lie apart returns exactly if the bits of all addresses are in the
bitmaps. -/
theorem free_eq_ok_iff {p p' : Pool} (hl : Layout p.regions) {addrs : List (BitVec 64)}
    (hint : addrs.countP (contains p.regions) < 2 ^ 31) {count : ℤ} :
    p.free addrs = .ok (count, p') ↔ (∀ r ∈ p.regions, r.BitsInside addrs) ∧
      ((addrs.countP (contains p.regions) : ℕ) : ℤ) = count ∧
        { p with regions := p.regions.map (·.freed addrs) } = p' := by
  have hcount := freedCount_eq hl addrs
  have hle : freedCount p.regions addrs ≤ addrs.length := hcount.trans_le List.countP_le_length
  obtain ⟨k, hk, hstop⟩ := freeLoop_cases addrs.length addrs 0 p.regions
  have hsplit := freedCount_take_add_drop p.regions addrs k
  have htotal : toInt32 (0 + freedCount (p.regions.take k) addrs) =
      ((freedCount (p.regions.take k) addrs : ℕ) : ℤ) := by
    rw [zero_add, toInt32_natCast (by omega)]
  rw [htotal] at hk hstop
  have hwhole : p.regions.length ≤ k ∨
      freedCount p.regions addrs ≤ freedCount (p.regions.take k) addrs := by
    refine hstop.imp_right fun hdone => ?_
    rw [toSize_natCast (by omega)] at hdone
    omega
  obtain ⟨hregions, hall⟩ := map_freed_of_take hwhole
  rw [hregions, hall, hcount, show toInt32 0 = 0 from rfl] at hk
  -- the regions that the loop does not reach contain no address
  have hinside : (∀ r ∈ p.regions.take k, r.BitsInside addrs) ↔
      ∀ r ∈ p.regions, r.BitsInside addrs := by
    refine ⟨fun h r hr => ?_, fun h r hr => h r (List.mem_of_mem_take hr)⟩
    rw [← List.take_append_drop k p.regions, List.mem_append] at hr
    rcases hr with hr | hr
    · exact h r hr
    · intro a ha hc
      have hzero : freedCount (p.regions.drop k) addrs = 0 := by omega
      have hnone := List.sum_eq_zero_iff_forall_eq_nat.mp hzero _ (List.mem_map_of_mem hr)
      exact absurd hc (List.countP_eq_zero.mp hnone a ha)
  rw [free_eq_ok]
  simp only [hk, hinside, and_assoc, exists_and_left, Prod.mk.injEq, exists_eq_left']

end Pool

end KushOs.Memory
