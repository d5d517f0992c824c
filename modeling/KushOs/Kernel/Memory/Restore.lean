import KushOs.Kernel.Memory.Exclusivity
import Mathlib.Algebra.BigOperators.Group.List.Basic
import Mathlib.Algebra.Group.Action.Defs
import Mathlib.Algebra.Order.BigOperators.Group.List

/-!
# Freeing undoes allocating

`Region::contains` compares a byte address with the base plus the *number of pages* of the region,
so a region recognises only the pages in its first `numPages` bytes; `FreePages` ignores the
others. A release has its full effect exactly when every page is recognised.

## Main definitions

* `Available`: a page is one that the pool may hand out.
* `FreesExactly`: what a release of the given pages should do.

## Main results

* `freesExactly_iff`: when a release of held pages does so.
* `freePages_allocatePages_iff`: when freeing what an allocation returned restores the pool.
* `free_undoes_alloc`: both, in every state of a run whose allocations are served in range.
-/

namespace KushOs.Memory

open WordBitmap Transition

/-- The page at `a` is an allocatable page of the pool, and it is free. -/
def Available (p : Pool) (a : BitVec 64) : Prop :=
  ∃ (i : ℕ) (r : Region) (b : ℕ),
    p.regions[i]? = some r ∧ b < r.bitmapSize ∧ a = r.pageAddr b ∧ bit r.words b = true

/-- `FreePages` of the list returns its length, makes exactly those pages available, and lowers
`GetAllocPages` by that length. -/
def FreesExactly (p : Pool) (addrs : List (BitVec 64)) : Prop :=
  ∃ p', freePages p addrs = .ok ((addrs.length : ℤ), p') ∧
    (∀ a, Available p' a ↔ Available p a ∨ a ∈ addrs) ∧
    (getAllocPages p').toNat + addrs.length = (getAllocPages p).toNat

/-! ## What `Pool::free` returns -/

theorem toInt32_lt (n : ℤ) : toInt32 n < 2 ^ 31 := by
  have := Int.bmod_lt (x := n) (m := 2 ^ 32) (by omega)
  unfold toInt32
  omega

/-- The result of `Pool::free` is an `int`. -/
theorem Pool.lt_of_free {p p' : Pool} {addrs : List (BitVec 64)} {count : ℤ}
    (h : p.free addrs = .ok (count, p')) : count < 2 ^ 31 := by
  obtain ⟨rs, hloop, -⟩ := free_eq_ok.mp h
  obtain ⟨k, hk, -⟩ := freeLoop_cases addrs.length addrs 0 p.regions
  obtain ⟨-, hresult⟩ := (hk _).mp hloop
  obtain ⟨rfl, -⟩ := Prod.mk.inj hresult
  exact toInt32_lt _

/-! ## What an allocation leaves -/

/-- The free bits of a region and of those before it are among those of all regions. -/
theorem Pool.freeCount_take_add_le {rs : List Region} {i : ℕ} {r : Region} (hi : rs[i]? = some r) :
    freeCount (rs.take i) + r.freeBits.length ≤ freeCount rs := by
  induction rs generalizing i with
  | nil => simp at hi
  | cons r₀ rest ih =>
    cases i with
    | zero =>
      obtain rfl : r₀ = r := by simpa using hi
      simp
    | succ i =>
      have := ih (by simpa using hi)
      simp only [List.take_succ_cons, freeCount_cons]
      omega

/-- Taking pages does not change which addresses the regions contain. -/
theorem Pool.contains_takeFirst (n : ℕ) (rs : List Region) (a : BitVec 64) :
    contains (takeFirst n rs) a = contains rs a := by
  induction rs generalizing n with
  | nil => rfl
  | cons r rest ih =>
    simp only [contains, takeFirst, List.any_cons] at ih ⊢
    rw [ih]
    rfl

/-- A set bit that stands for a page is among the free bits. -/
theorem Region.mem_freeBits_of_bit (r : Region) {b : ℕ} (hb : b < r.bitmapSize)
    (hbit : bit r.words b = true) : b ∈ r.freeBits := by
  refine mem_setBits.mpr ⟨Nat.zero_le _, ?_, hbit⟩
  unfold scannedWords
  omega

/-- The pages that an allocation hands out were free, and the other free pages stay free. -/
theorem available_allocated_iff {s : PoolState} {num : ℕ} {buffer out : AddrBuffer}
    {count : ℤ} {pool : Pool} (hserved : ServedInRange s (.allocatePages num buffer))
    (hnum : num < 2 ^ 64) (h : allocatePages s.pool num buffer = .ok (count, out, pool))
    (a : BitVec 64) : Available s.pool a ↔ Available pool a ∨ a ∈ handedOut count out := by
  rcases served_cases hserved hnum h with ⟨rfl, hnone⟩ | ⟨j, r, m, hj, hin, -, hpool, hsome⟩
  · rw [hnone]
    simp
  obtain ⟨hlt, -⟩ := List.getElem?_eq_some_iff.mp hj
  -- only region `j` changes, and it loses the bits of the pages that are handed out
  have hself : pool.regions[j]? = some (r.takeBits m) := by
    rw [hpool, List.getElem?_set_self hlt]
  have hrest : ∀ i, i ≠ j → pool.regions[i]? = s.pool.regions[i]? := by
    intro i hne
    rw [hpool, List.getElem?_set_ne hne.symm]
  rw [hsome, List.mem_map]
  constructor
  · rintro ⟨i, r', b, hi, hb, rfl, hbit⟩
    rcases eq_or_ne i j with rfl | hne
    · obtain rfl : r = r' := Option.some.inj (hj.symm.trans hi)
      by_cases htaken : b ∈ r.freeBits.take m
      · exact Or.inr ⟨b, htaken, rfl⟩
      · exact Or.inl ⟨i, r.takeBits m, b, hself, hb, rfl,
          by simp [Region.bit_takeBits, htaken, hbit]⟩
    · exact Or.inl ⟨i, r', b, (hrest i hne).trans hi, hb, rfl, hbit⟩
  · rintro (⟨i, r', b, hi, hb, rfl, hbit⟩ | ⟨b, hb, rfl⟩)
    · rcases eq_or_ne i j with rfl | hne
      · obtain rfl : r.takeBits m = r' := Option.some.inj (hself.symm.trans hi)
        rw [Region.bit_takeBits, Bool.and_eq_true] at hbit
        exact ⟨i, r, b, hj, hb, rfl, hbit.2⟩
      · exact ⟨i, r', b, (hrest i hne).symm.trans hi, hb, rfl, hbit⟩
    · exact ⟨j, r, b, hj, hin b hb, rfl, Region.bit_of_mem_freeBits (List.mem_of_mem_take hb)⟩

/-- A request for more pages than there are free bits leaves no page free. -/
theorem not_available_of_few {s : PoolState} {num : ℕ} {buffer out : AddrBuffer} {count : ℤ}
    {pool : Pool} (hfew : Pool.freeCount s.pool.regions < num)
    (hint : Pool.freeCount s.pool.regions < 2 ^ 31)
    (hnum : num < 2 ^ 64) (h : allocatePages s.pool num buffer = .ok (count, out, pool))
    (a : BitVec 64) : ¬ Available pool a := by
  obtain ⟨hpos, halloc⟩ := Pool.alloc_of_allocatePages h
  rw [Pool.alloc_eq _ _ hpos hnum (by omega), Except.ok.injEq, Prod.mk.injEq,
    Prod.mk.injEq] at halloc
  obtain ⟨-, -, rfl⟩ := halloc
  rintro ⟨i, r', b, hi, hb, -, hbit⟩
  rw [Pool.getElem?_takeFirst, Option.map_eq_some_iff] at hi
  obtain ⟨r, hi, rfl⟩ := hi
  rw [Region.bit_takeBits, Bool.and_eq_true, decide_eq_true_eq] at hbit
  have hle : r.freeBits.length ≤ num - Pool.freeCount (s.pool.regions.take i) := by
    have := Pool.freeCount_take_add_le hi
    omega
  refine hbit.1 ?_
  rw [List.take_of_length_le hle]
  exact r.mem_freeBits_of_bit hb hbit.2

/-! ## Giving bits back -/

/-- A region gets back the bits that it handed out exactly when it recognises each of their pages,
provided that it computes the right bit for those that it recognises. -/
theorem Region.freed_takeBits_iff {r : Region} {m : ℕ}
    (hindex : ∀ b ∈ r.freeBits.take m, (r.takeBits m).contains (r.pageAddr b) = true →
      (r.takeBits m).freeIndex (r.pageAddr b) = b) :
    (r.takeBits m).freed ((r.freeBits.take m).map r.pageAddr) = r ↔
      ∀ b ∈ r.freeBits.take m, (r.takeBits m).contains (r.pageAddr b) = true := by
  constructor
  · -- a bit is only set again by its own page
    intro heq b hb
    have hbit : bit ((r.takeBits m).freed ((r.freeBits.take m).map r.pageAddr)).words b = true := by
      rw [heq]
      exact Region.bit_of_mem_freeBits (List.mem_of_mem_take hb)
    rcases (Region.bit_freed _ _ _).mp hbit with hold | ⟨a', ha', hc, hfree⟩
    · simp [Region.bit_takeBits, hb] at hold
    · obtain ⟨b', hb', rfl⟩ := List.mem_map.mp ha'
      obtain rfl : b' = b := (hindex b' hb' hc).symm.trans hfree
      exact hc
  · intro hc
    have hcountP : ((r.freeBits.take m).map r.pageAddr).countP (r.takeBits m).contains =
        min m r.freeBits.length := by
      rw [← List.length_take, ← List.length_map r.pageAddr, List.countP_eq_length]
      intro a ha
      obtain ⟨b, hb, rfl⟩ := List.mem_map.mp ha
      exact hc b hb
    refine Region.eq_of_shape (Region.shape_freed _ _) ?_ ?_
    · apply ext_bit
      intro c
      rw [Bool.eq_iff_iff, Region.bit_freed, Region.bit_takeBits]
      constructor
      · rintro (hold | ⟨a, ha, hca, hfree⟩)
        · exact (Bool.and_eq_true _ _ ▸ hold).2
        · obtain ⟨b, hb, rfl⟩ := List.mem_map.mp ha
          obtain rfl : b = c := (hindex b hb hca).symm.trans hfree
          exact Region.bit_of_mem_freeBits (List.mem_of_mem_take hb)
      · intro hbit
        by_cases hb : c ∈ r.freeBits.take m
        · exact Or.inr ⟨r.pageAddr c, List.mem_map_of_mem hb, hc c hb, hindex c hb (hc c hb)⟩
        · exact Or.inl (by simp [hb, hbit])
    · rw [Region.numAllocated_freed, hcountP]
      exact BitVec.add_sub_cancel _ _

/-- A release whose pages no other region contains restores all regions exactly when it restores
one of them. -/
theorem Pool.map_freed_eq_iff {rs : List Region} {j : ℕ} {r r' : Region}
    {addrs : List (BitVec 64)} (hj : rs[j]? = some r)
    (hrest : ∀ i q, i ≠ j → rs[i]? = some q → ∀ a ∈ addrs, ¬q.contains a = true) :
    (rs.set j r').map (·.freed addrs) = rs ↔ r'.freed addrs = r := by
  obtain ⟨hlt, -⟩ := List.getElem?_eq_some_iff.mp hj
  have hself : ((rs.set j r').map (·.freed addrs))[j]? = some (r'.freed addrs) := by
    rw [List.getElem?_map, List.getElem?_set_self hlt, Option.map_some]
  constructor
  · intro heq
    rw [heq, hj] at hself
    exact (Option.some.inj hself).symm
  · intro heq
    apply List.ext_getElem?
    intro i
    rcases eq_or_ne i j with rfl | hne
    · rw [hself, hj, heq]
    · rw [List.getElem?_map, List.getElem?_set_ne hne.symm]
      rcases hi : rs[i]? with _ | q
      · rfl
      · rw [Option.map_some, Region.freed_eq_self]
        exact List.countP_eq_zero.mpr (hrest i q hne hi)

/-! ## Counting allocated pages -/

/-- A sum of counters that fits 64 bits is the sum of their values. -/
theorem toNat_sum {α : Type*} (f : α → BitVec 64) (l : List α)
    (h : (l.map fun x => (f x).toNat).sum < 2 ^ 64) :
    (l.map f).sum.toNat = (l.map fun x => (f x).toNat).sum := by
  induction l with
  | nil => rfl
  | cons x rest ih =>
    rw [List.map_cons, List.sum_cons] at h ⊢
    rw [List.map_cons, List.sum_cons, BitVec.toNat_add, ih (by omega), Nat.mod_eq_of_lt h]

namespace PoolState.Inv

variable {specs : List (BitVec 64 × ℕ)} {s t : PoolState}

/-- `GetAllocPages` counts the clear bits of all regions. -/
theorem getAllocPages_toNat (hinv : Inv specs s) :
    (getAllocPages s.pool).toNat =
      (s.pool.regions.map fun r => clearCount r.words r.bitmapSize).sum := by
  have hcounter : ∀ r ∈ s.pool.regions,
      r.numAllocated.toNat = clearCount r.words r.bitmapSize ∧ r.numAllocated.toNat ≤ 2 ^ 52 := by
    intro r hr
    have hle := clearCount_le r.words r.bitmapSize
    have hlt := (hinv.layout.wellFormed r hr).size_lt
    rw [hinv.counted r hr, BitVec.toNat_ofNat, Nat.mod_eq_of_lt (by omega)]
    omega
  have hsum : (s.pool.regions.map fun r => r.numAllocated.toNat).sum ≤
      s.pool.regions.length * 2 ^ 52 := by
    rw [← smul_eq_mul, ← List.length_map (f := fun r : Region => r.numAllocated.toNat)]
    refine List.sum_le_card_nsmul _ _ ?_
    intro n hn
    obtain ⟨r, hr, rfl⟩ := List.mem_map.mp hn
    exact (hcounter r hr).2
  have hbound := hinv.bounded
  simp only [Pool.kMaxRegions] at hbound
  rw [getAllocPages, Pool.getAllocatedPages, toNat_sum _ _ (by omega)]
  exact congrArg List.sum (List.map_congr_left fun r hr => (hcounter r hr).1)

/-- A release makes those of its pages free that some region contains: they are pages of that
region. -/
theorem available_freed_iff (hinv : Inv specs s) {addrs : List (BitVec 64)}
    (hheld : ∀ a ∈ addrs, a ∈ s.held) (a : BitVec 64) :
    Available { s.pool with regions := s.pool.regions.map (·.freed addrs) } a ↔
      Available s.pool a ∨ a ∈ addrs ∧ Pool.contains s.pool.regions a = true := by
  have hregion : ∀ {i : ℕ} {r : Region}, s.pool.regions[i]? = some r →
      (s.pool.regions.map (·.freed addrs))[i]? = some (r.freed addrs) := by
    intro i r hi
    rw [List.getElem?_map, hi, Option.map_some]
  -- a bit of a region was set before, or is that of a page that the region contains
  constructor
  · rintro ⟨i, r', b, hi', hb, haddr, hbit⟩
    rw [List.getElem?_map, Option.map_eq_some_iff] at hi'
    obtain ⟨r, hi, rfl⟩ := hi'
    rw [Region.bitmapSize_of_shape (r.shape_freed addrs)] at hb
    rw [Region.pageAddr_of_shape (r.shape_freed addrs)] at haddr
    rcases (r.bit_freed addrs b).mp hbit with hold | ⟨a', ha', hc, rfl⟩
    · exact Or.inl ⟨i, r, b, hi, hb, haddr, hold⟩
    · obtain ⟨-, haddr', -⟩ := hinv.freeIndex_of_held hi (hheld a' ha') hc
      obtain rfl : a = a' := haddr.trans haddr'.symm
      exact Or.inr ⟨ha', List.any_eq_true.mpr ⟨r, List.mem_of_getElem? hi, hc⟩⟩
  · rintro (⟨i, r, b, hi, hb, haddr, hbit⟩ | ⟨ha, hc⟩)
    · refine ⟨i, r.freed addrs, b, hregion hi, ?_, ?_, (r.bit_freed addrs b).mpr (Or.inl hbit)⟩
      · rwa [Region.bitmapSize_of_shape (r.shape_freed addrs)]
      · rwa [Region.pageAddr_of_shape (r.shape_freed addrs)]
    · obtain ⟨r, hr, hc⟩ := List.any_eq_true.mp hc
      obtain ⟨i, hi⟩ := List.mem_iff_getElem?.mp hr
      obtain ⟨hb, haddr, -⟩ := hinv.freeIndex_of_held hi (hheld a ha) hc
      refine ⟨i, r.freed addrs, r.freeIndex a, hregion hi, ?_, ?_, ?_⟩
      · rwa [Region.bitmapSize_of_shape (r.shape_freed addrs)]
      · rwa [Region.pageAddr_of_shape (r.shape_freed addrs)]
      · exact (r.bit_freed addrs _).mpr (Or.inr ⟨a, ha, hc, rfl⟩)

/-- The clear bits of all regions together, before and after a release. -/
theorem sum_clearCount_freed (hinv : Inv specs s) {addrs : List (BitVec 64)}
    (hnodup : addrs.Nodup) (hheld : ∀ a ∈ addrs, a ∈ s.held) :
    ((s.pool.regions.map (·.freed addrs)).map fun r => clearCount r.words r.bitmapSize).sum +
        addrs.countP (Pool.contains s.pool.regions) =
      (s.pool.regions.map fun r => clearCount r.words r.bitmapSize).sum := by
  rw [← Pool.freedCount_eq hinv.layout, Pool.freedCount, List.map_map, ← List.sum_map_add]
  refine congrArg List.sum (List.map_congr_left fun r hr => ?_)
  obtain ⟨i, hi⟩ := List.mem_iff_getElem?.mp hr
  rw [Function.comp_apply, Region.bitmapSize_of_shape (r.shape_freed addrs)]
  exact hinv.clearCount_freed hi hnodup hheld

/-- A release of held pages has its full effect exactly when the list is not empty, its length is
an `int`, and every page is recognised by a region. -/
theorem freesExactly_iff (hinv : Inv specs s) {addrs : List (BitVec 64)} (hnodup : addrs.Nodup)
    (hheld : ∀ a ∈ addrs, a ∈ s.held) :
    FreesExactly s.pool addrs ↔
      addrs ≠ [] ∧ addrs.length < 2 ^ 31 ∧
        ∀ a ∈ addrs, Pool.contains s.pool.regions a = true := by
  constructor
  · rintro ⟨p', hfree, -, -⟩
    obtain ⟨hne, hfree⟩ := Pool.freePages_eq_ok.mp hfree
    have hlen : addrs.length < 2 ^ 31 := by
      have := Pool.lt_of_free hfree
      omega
    -- the count says how many pages were recognised, so it is complete only if all were
    obtain ⟨-, hcount, -⟩ :=
      (Pool.free_eq_ok_iff hinv.layout (List.countP_le_length.trans_lt hlen)).mp hfree
    exact ⟨hne, hlen, List.countP_eq_length.mp (Nat.cast_inj.mp hcount)⟩
  · rintro ⟨hne, hlen, hall⟩
    have hcount := List.countP_eq_length.mpr hall
    have hfree := (Pool.free_eq_ok_iff hinv.layout (List.countP_le_length.trans_lt hlen)).mpr
      ⟨hinv.bitsInside hheld, rfl, rfl⟩
    rw [hcount] at hfree
    have hok := Pool.freePages_eq_ok.mpr ⟨hne, hfree⟩
    refine ⟨_, hok, fun a => ?_, ?_⟩
    · rw [hinv.available_freed_iff hheld, and_iff_left_of_imp (hall a)]
    · have hsum := hinv.sum_clearCount_freed hnodup hheld
      rw [(hinv.freePages hnodup hheld hok).getAllocPages_toNat, hinv.getAllocPages_toNat, ← hsum,
        hcount]

/-- Freeing the pages that an allocation returned restores the pool exactly when a region
recognises each of them. -/
theorem freePages_allocatePages_iff (hinv : Inv specs s) {num : ℕ} {buffer out : AddrBuffer}
    {count : ℤ} {pool : Pool} (hserved : ServedInRange s (.allocatePages num buffer))
    (hnum : num < 2 ^ 64) (h : Memory.allocatePages s.pool num buffer = .ok (count, out, pool))
    (hcount : handedOut count out ≠ []) :
    (∃ n, Memory.freePages pool (handedOut count out) = .ok (n, s.pool)) ↔
      ∀ a ∈ handedOut count out, Pool.contains s.pool.regions a = true := by
  have hinv' := hinv.allocatePages hserved hnum h
  rcases served_cases hserved hnum h with ⟨-, hnone⟩ | ⟨j, r, m, hj, hin, hint, hpool, hsome⟩
  · exact absurd hnone hcount
  have hnodup : (handedOut count out).Nodup := (List.nodup_append.mp hinv'.nodup).2.1
  have hlen : (handedOut count out).length = (r.freeBits.take m).length := by
    rw [hsome, List.length_map]
  obtain ⟨hlt, -⟩ := List.getElem?_eq_some_iff.mp hj
  have hself : pool.regions[j]? = some (r.takeBits m) := by
    rw [hpool, List.getElem?_set_self hlt]
  have hother : ∀ i, i ≠ j → pool.regions[i]? = s.pool.regions[i]? := by
    intro i hne
    rw [hpool, List.getElem?_set_ne hne.symm]
  -- only region `j` contains any of the pages, and it computes the bits that were taken
  have howner : ∀ i r', pool.regions[i]? = some r' → ∀ b ∈ r.freeBits.take m,
      r'.contains (r.pageAddr b) = true → i = j ∧ r'.freeIndex (r.pageAddr b) = b := by
    intro i r' hi b hb hc
    have hpage : PageAt pool.regions (r.pageAddr b) j b := ⟨r.takeBits m, hself, hin b hb, rfl⟩
    obtain ⟨hij, -, hindex⟩ := PageAt.of_contains hinv'.layout hpage hi hc
    exact ⟨hij.symm, hindex⟩
  have hinside : ∀ r ∈ pool.regions, r.BitsInside (handedOut count out) :=
    hinv'.bitsInside fun a ha => List.mem_append_right _ ha
  have hback : ({ pool with regions := s.pool.regions } : Pool) = s.pool := by rw [hpool]
  have hiff : (∃ n, Memory.freePages pool (handedOut count out) = .ok (n, s.pool)) ↔
      pool.regions.map (·.freed (handedOut count out)) = s.pool.regions := by
    simp only [Pool.freePages_eq_ok, hcount, Pool.free_eq_ok_iff hinv'.layout
      (List.countP_le_length.trans_lt (hlen ▸ hint)), ne_eq, not_false_eq_true, true_and]
    constructor
    · rintro ⟨n, -, -, heq⟩
      exact congrArg Pool.regions heq
    · exact fun heq => ⟨_, hinside, rfl, heq ▸ hback⟩
  have hregions : pool.regions = s.pool.regions.set j (r.takeBits m) := by rw [hpool]
  rw [hiff, hregions, Pool.map_freed_eq_iff hj, hsome, Region.freed_takeBits_iff]
  · -- a page is recognised by its own region or by none
    constructor
    · intro hall a ha
      obtain ⟨b, hb, rfl⟩ := List.mem_map.mp ha
      exact List.any_eq_true.mpr ⟨r, List.mem_of_getElem? hj, hall b hb⟩
    · intro hall b hb
      obtain ⟨r', hr', hc⟩ := List.any_eq_true.mp (hall _ (List.mem_map_of_mem hb))
      obtain ⟨i, hi⟩ := List.mem_iff_getElem?.mp hr'
      rcases eq_or_ne i j with rfl | hne
      · obtain rfl : r = r' := Option.some.inj (hj.symm.trans hi)
        exact hc
      · exact absurd (howner i r' ((hother i hne).trans hi) b hb hc).1 hne
  · exact fun b hb hc => (howner j _ hself b hb hc).2
  · intro i q hne hi a ha hc
    obtain ⟨b, hb, rfl⟩ := List.mem_map.mp (hsome ▸ ha)
    exact hne (howner i q ((hother i hne).trans hi) b hb hc).1

end PoolState.Inv

/-- In every state of a run whose allocations are served in range: a release of held pages has its
full effect exactly when it names at least one page, at most as many as an `int` counts, and only
pages that a region recognises; and freeing the pages that an allocation returned restores the
bitmaps and the counters exactly when a region recognises each of them. -/
theorem free_undoes_alloc {earlyBoot : Bool} {prior : BitVec 64 → Words} {p : Pool}
    {specs : List (BitVec 64 × ℕ)} {ops : List PoolOp} {t : PoolState}
    (hboot : addRegions earlyBoot prior Pool.empty specs = .ok p)
    (hfits : ∀ x ∈ specs, x.1.toNat + x.2 ≤ 2 ^ 64) (hdisjoint : specs.Pairwise RangesDisjoint)
    (hrun : RunWhere PoolStep ServedInRange ⟨p, []⟩ ops t) :
    (∀ addrs : List (BitVec 64), addrs.Nodup → (∀ a ∈ addrs, a ∈ t.held) →
      (FreesExactly t.pool addrs ↔
        addrs ≠ [] ∧ addrs.length < 2 ^ 31 ∧
          ∀ a ∈ addrs, Pool.contains t.pool.regions a = true)) ∧
    ∀ (num : ℕ) (buffer out : AddrBuffer) (count : ℤ) (pool : Pool),
      ServedInRange t (.allocatePages num buffer) → num < 2 ^ 64 →
      allocatePages t.pool num buffer = .ok (count, out, pool) → handedOut count out ≠ [] →
      ((∃ n, freePages pool (handedOut count out) = .ok (n, t.pool)) ↔
        ∀ a ∈ handedOut count out, Pool.contains t.pool.regions a = true) := by
  have hinv := (PoolState.Inv.of_addRegions hboot hfits hdisjoint).run hrun
  refine ⟨fun _ hnodup hheld => hinv.freesExactly_iff hnodup hheld, ?_⟩
  intro num buffer out count pool hserved hnum h hcount
  exact hinv.freePages_allocatePages_iff hserved hnum h hcount

/-- The first pages of the larger region are recognised, so they can be released, and a request for
one of them can be undone; the third page cannot be released. -/
theorem free_undoes_alloc_two_regions :
    FreesExactly busyState.pool [0x1001000#64] ∧ ¬ FreesExactly busyState.pool [0x1003000#64] ∧
      ∃ count out pool, allocatePages busyState.pool 1 (fun _ => 0) = .ok (count, out, pool) ∧
        handedOut count out = [0x1002000#64] ∧
        ∃ n, freePages pool (handedOut count out) = .ok (n, busyState.pool) := by
  obtain ⟨hfrees, hundoes⟩ :=
    free_undoes_alloc boot_twoRanges (by decide) disjoint_twoRanges run_busyState
  have hsingle : ∀ a ∈ busyState.held,
      (FreesExactly busyState.pool [a] ↔ Pool.contains busyState.pool.regions a = true) := by
    intro a ha
    rw [hfrees [a] (List.nodup_singleton a) fun b hb => List.mem_singleton.mp hb ▸ ha]
    simp
  have hheld : 0x1001000#64 ∈ busyState.held ∧ 0x1003000#64 ∈ busyState.held := by decide +kernel
  rw [hsingle _ hheld.1, hsingle _ hheld.2]
  have hserved : ServedInRange busyState (.allocatePages 1 fun _ => 0) := by decide +kernel
  have hpages : (busyState.pool.freeBits.take 1).map busyState.pool.addrAt = [0x1002000#64] := by
    decide +kernel
  obtain ⟨count, out, pool, halloc, -, hout⟩ := exists_of_served Nat.one_pos (by decide) hserved
  rw [hpages] at hout
  refine ⟨by decide +kernel, by decide +kernel, count, out, pool, halloc, hout, ?_⟩
  rw [hundoes 1 _ _ _ _ hserved (by decide) halloc (by simp [hout]), hout,
    List.forall_mem_singleton]
  decide +kernel

/-- The allocated page of a region of two pages is offered back, and `FreePages` returns zero. -/
theorem free_not_undoes_alloc :
    ¬ ∀ (earlyBoot : Bool) (prior : BitVec 64 → Words) (p : Pool) (specs : List (BitVec 64 × ℕ))
      (ops : List PoolOp) (t : PoolState),
      addRegions earlyBoot prior Pool.empty specs = .ok p →
      (∀ x ∈ specs, x.1.toNat + x.2 ≤ 2 ^ 64) → specs.Pairwise RangesDisjoint →
      Run PoolStep ⟨p, []⟩ ops t →
      ∀ addrs : List (BitVec 64), addrs.Nodup → (∀ a ∈ addrs, a ∈ t.held) →
        FreesExactly t.pool addrs := by
  intro h
  let start : PoolState := ⟨bootPool twoPages, []⟩
  have hstep : PoolStep start (.allocatePages 1 fun _ => 0) (start.taken 1) :=
    .taken Nat.one_pos (by decide) (by decide +kernel)
  have hheld : (start.taken 1).held = [0x101000#64] := by decide +kernel
  obtain ⟨p', hfree, -, -⟩ := h true (fun _ _ => 0) (bootPool twoPages) twoPages _ (start.taken 1)
    boot_twoPages (by decide) (List.pairwise_singleton _ _) (.cons hstep (.nil _)) [0x101000#64]
    (List.nodup_singleton _) fun _ ha => hheld ▸ ha
  obtain ⟨-, hfree⟩ := Pool.freePages_eq_ok.mp hfree
  have hnothing : ((start.taken 1).pool.free [0x101000#64]).toOption.map Prod.fst = some 0 := by
    decide +kernel
  rw [hfree] at hnothing
  cases hnothing

end KushOs.Memory
