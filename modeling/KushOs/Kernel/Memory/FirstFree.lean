import KushOs.Kernel.Memory.Exclusivity

/-!
# Which pages an allocation takes

`Pool::alloc` is meant to take the first free bits of its regions, in scan order, and to list their
pages in the caller's array. The bits are the right ones for every pool, but each region is handed
the start of the array, so the list is right only when one region supplies all of the pages.

## Main definitions

* `Pool.TakesFirst`: the bits taken, the addresses stored, the result and the counters.

## Main results

* `pool_alloc_takes_first`: `TakesFirst` holds, whatever the array held before, exactly when the
  first free bits belong to one region.
-/

namespace KushOs.Memory

open WordBitmap

namespace Pool

/-- The first `num` free bits of a pool are cleared and no others, and they are counted in their
regions. -/
structure TakesBits (p p' : Pool) (num : ℕ) : Prop where
  regions : p'.regions.length = p.regions.length
  cleared : ∀ (j : ℕ) (r : Region), p.regions[j]? = some r →
    ∃ r', p'.regions[j]? = some r' ∧ r'.shape = r.shape ∧
      (∀ b, bit r'.words b = (bit r.words b && decide ((j, b) ∉ p.freeBits.take num))) ∧
      r'.numAllocated =
        r.numAllocated + BitVec.ofNat 64 ((p.freeBits.take num).countP (·.1 = j))

/-- `Pool::alloc` takes the first `num` free bits of the pool: it returns their number, stores the
addresses of their pages in order and nothing else, clears those bits and no others, and counts
them in their regions. -/
def TakesFirst (p : Pool) (num : ℕ) (out : AddrBuffer) : Prop :=
  ∃ p', p.alloc num out =
      .ok (((min num p.freeBits.length : ℕ) : ℤ),
        storeAll out ((p.freeBits.take num).map p.addrAt), p') ∧ p.TakesBits p' num

/-- The bits that a request takes from region `j`, counted. -/
theorem countP_take_freeBitsFrom {n i j : ℕ} {rs : List Region} {r : Region}
    (hj : rs[j]? = some r) :
    ((freeBitsFrom i rs).take n).countP (·.1 = i + j) =
      min (n - freeCount (rs.take j)) r.freeBits.length := by
  induction rs generalizing n i j with
  | nil => simp at hj
  | cons r₀ rest ih =>
    rw [freeBitsFrom, List.take_append, List.countP_append, List.length_map, ← List.map_take,
      List.countP_map]
    cases j with
    | zero =>
      obtain rfl : r₀ = r := by simpa using hj
      -- the regions behind have larger indices
      have hrest : ((freeBitsFrom (i + 1) rest).take (n - r₀.freeBits.length)).countP
          (·.1 = i + 0) = 0 := by
        rw [List.countP_eq_zero]
        intro x hx
        have hle := le_of_mem_freeBitsFrom (List.mem_of_mem_take hx)
        simp only [decide_eq_true_eq]
        omega
      have hhead : (r₀.freeBits.take n).countP ((fun x : ℕ × ℕ => decide (x.1 = i + 0)) ∘ (i, ·)) =
          (r₀.freeBits.take n).length := by
        rw [List.countP_eq_length]
        simp
      rw [hrest, hhead, List.length_take]
      simp
    | succ j =>
      have hhead : (r₀.freeBits.take n).countP
          ((fun x : ℕ × ℕ => decide (x.1 = i + (j + 1))) ∘ (i, ·)) = 0 := by
        rw [List.countP_eq_zero]
        simp
      have hindex : i + (j + 1) = i + 1 + j := by omega
      rw [hhead, Nat.zero_add, hindex, ih (by simpa using hj), List.take_succ_cons, freeCount_cons,
        Nat.sub_sub]

theorem length_takeFirst (n : ℕ) (rs : List Region) : (takeFirst n rs).length = rs.length := by
  induction rs generalizing n with
  | nil => rfl
  | cons r rest ih => rw [takeFirst, List.length_cons, List.length_cons, ih]

/-- What a request leaves of the regions: its bits are cleared and counted. -/
theorem takesBits_takeFirst (p : Pool) (num : ℕ) :
    p.TakesBits { p with regions := takeFirst num p.regions } num := by
  refine ⟨length_takeFirst num p.regions, fun j r hj => ?_⟩
  have hcount := countP_take_freeBitsFrom (n := num) (i := 0) hj
  rw [Nat.zero_add] at hcount
  refine ⟨r.takeBits (num - freeCount (p.regions.take j)), ?_, r.shape_takeBits _, ?_, ?_⟩
  · rw [getElem?_takeFirst, hj, Option.map_some]
  · intro b
    have hiff : (j, b) ∈ p.freeBits.take num ↔
        b ∈ r.freeBits.take (num - freeCount (p.regions.take j)) := by
      rw [mem_take_freeBits]
      constructor
      · rintro ⟨r', hj', hb⟩
        obtain rfl : r = r' := Option.some.inj (hj.symm.trans hj')
        exact hb
      · exact fun hb => ⟨r, hj, hb⟩
    rw [Region.bit_takeBits, Bool.and_comm]
    simp only [hiff]
  · rw [freeBits, hcount]
    rfl

/-- `Pool::alloc` as a function of the free bits, for requests whose number fits an `int`. -/
theorem alloc_eq_overlay (p : Pool) {num : ℕ} (out : AddrBuffer) (hpos : 0 < num)
    (hnum : num < 2 ^ 31) :
    p.alloc num out =
      .ok (((min num p.freeBits.length : ℕ) : ℤ), overlay num out p.regions,
        { p with regions := takeFirst num p.regions }) := by
  rw [alloc_eq p out hpos (by omega) (by omega), freeBits, length_freeBitsFrom]

/-- If two regions contribute, no region reaches the last entry that should be stored. -/
theorem exists_not_stored {p : Pool} {num : ℕ} {x y : ℕ × ℕ} (hx : x ∈ p.freeBits.take num)
    (hy : y ∈ p.freeBits.take num) (hne : x.1 ≠ y.1) :
    ∃ out, overlay num out p.regions ≠ storeAll out ((p.freeBits.take num).map p.addrAt) := by
  set last := (p.freeBits.take num).length - 1 with hlast
  have hsome : 0 < (p.freeBits.take num).length := List.length_pos_of_mem hx
  have hshort : ∀ (j : ℕ) (r : Region), p.regions[j]? = some r →
      min (num - freeCount (p.regions.take j)) r.freeBits.length ≤ last := by
    intro j r hj
    have hcount := countP_take_freeBitsFrom (n := num) (i := 0) hj
    rw [Nat.zero_add, show freeBitsFrom 0 p.regions = p.freeBits from rfl] at hcount
    rw [← hcount]
    -- one of the two bits is not of region `j`
    obtain ⟨z, hz, hzj⟩ : ∃ z ∈ p.freeBits.take num, z.1 ≠ j := by
      by_cases hxj : x.1 = j
      · exact ⟨y, hy, fun hyj => hne (hxj.trans hyj.symm)⟩
      · exact ⟨x, hx, hxj⟩
    refine Nat.le_sub_one_of_lt (Nat.lt_of_le_of_ne List.countP_le_length fun heq => ?_)
    rw [List.countP_eq_length] at heq
    exact hzj (by simpa using heq z hz)
  obtain ⟨a, ha⟩ : ∃ a, ((p.freeBits.take num).map p.addrAt)[last]? = some a := by
    refine ⟨_, List.getElem?_eq_getElem ?_⟩
    rw [List.length_map]
    omega
  refine ⟨fun _ => a + 1, fun heq => ?_⟩
  have hstored := congrFun heq last
  rw [overlay_apply_of_le _ hshort, storeAll, ha, Option.getD_some] at hstored
  simp at hstored

end Pool

/-- The bits taken are the first free ones for every pool and every request; the addresses are
stored as they should be, whatever the array held before, exactly when one region supplies all the
pages. -/
theorem pool_alloc_takes_first (p : Pool) {num : ℕ} (hpos : 0 < num) (hnum : num < 2 ^ 31) :
    (∀ out, p.TakesFirst num out) ↔
      ∀ x ∈ p.freeBits.take num, ∀ y ∈ p.freeBits.take num, x.1 = y.1 := by
  have halloc := fun out => p.alloc_eq_overlay out hpos hnum
  constructor
  · intro htakes x hx y hy
    by_contra hne
    obtain ⟨out, hout⟩ := Pool.exists_not_stored hx hy hne
    obtain ⟨_, hok, -⟩ := htakes out
    rw [halloc, Except.ok.injEq, Prod.mk.injEq, Prod.mk.injEq] at hok
    exact hout hok.2.1
  · intro hsame out
    refine ⟨_, ?_, p.takesBits_takeFirst num⟩
    rw [halloc, Pool.stored_of_single out hsame]

/-- Ninety-five pages, whose bits are in two words. -/
def wordsRange : List (BitVec 64 × ℕ) := [(0x100000#64, 0x60000)]

/-- Seventy of them are allocated. -/
theorem pool_alloc_takes_first_seventy : (bootPool wordsRange).TakesFirst 70 fun _ => 0 :=
  (pool_alloc_takes_first (bootPool wordsRange) (by decide) (by decide)).mpr (by decide +kernel) _

/-- Two regions, each with one free page. -/
def lastPages : Pool where
  regions := (bootPool [(0x100000#64, 0x2000), (0x200000#64, 0x2000)]).regions.map fun r =>
    { r with words := Function.update (fun _ => 0) 0 1 }
  regionAllocBufNextFree := 2

/-- Both pages are requested: the second address is stored over the first one. -/
theorem pool_alloc_not_takes_first :
    ¬∀ (p : Pool) (num : ℕ), 0 < num → num < 2 ^ 31 → ∀ out, p.TakesFirst num out := by
  intro h
  obtain ⟨_, hok, -⟩ := h lastPages 2 (by decide) (by decide) fun _ => 0
  rw [lastPages.alloc_eq_overlay _ (by decide) (by decide), Except.ok.injEq, Prod.mk.injEq,
    Prod.mk.injEq] at hok
  have hstored := congrFun hok.2.1 0
  revert hstored
  decide +kernel

end KushOs.Memory
