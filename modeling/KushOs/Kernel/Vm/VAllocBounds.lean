import KushOs.Kernel.Memory.Exclusivity
import KushOs.Kernel.Vm.PageAllocator

/-!
# The size of a request

`Alloc` hands `AllocatePages` an array of `kMaxAllocPages` entries, but it does not compare the
number of pages with it: what keeps a request small is only the check of the cursor, and that check
works on sums that may wrap. The number of entries that are stored depends on the free pages of the
pool as well, so both sides are described here: what is requested, and what a request stores.

## Main definitions

* `Pool.Stores`: which entries of its array a call to `AllocatePages` stores.
* `PageAllocator.request`: the part of `Alloc` before that call.
* `BoundsRequest`: what `Alloc` promises about its array.
* `Bounded`: when it keeps the promise.

## Main results

* `valloc_bounds_request`: `BoundsRequest` holds exactly when `Bounded` does.
-/

namespace KushOs

/-! ## What a request stores -/

namespace Memory.Pool

/-- The loop of a request for `num` pages stores entry `k` of the array, whatever becomes of the
request then. -/
def Stores (p : Pool) (num k : ℕ) : Prop :=
  num ≠ 0 ∧ ∃ buffer : AddrBuffer, (allocLoop num buffer 0 p.regions).2.2.1 k ≠ buffer k

/-- What the loop over the regions stores, and how it goes on, does not depend on the array. If a
page is free, the first entry is stored. -/
theorem allocLoop_stored {num : ℕ} (hnum : num < 2 ^ 64) (rs : List Region) {a : ℤ}
    (ha : toSize a ≠ num) :
    ∃ (err total : ℤ) (rs' : List Region) (stored : ℕ → Option (BitVec 64)),
      (∀ out, allocLoop num out a rs = (err, total, fun k => (stored k).getD (out k), rs')) ∧
        (a = 0 → 0 < freeCount rs → stored 0 ≠ none) := by
  induction rs generalizing a with
  | nil => exact ⟨0, a, [], fun _ => none, fun _ => rfl, fun _ h => absurd h (Nat.lt_irrefl 0)⟩
  | cons r rest ih =>
    -- the loop only goes on while something is missing
    have hpos : 0 < toSize (num - a) := by
      unfold toSize at *
      omega
    set q := toSize (num - a) with hq
    have hregion : ∀ out, r.alloc q out =
        (toInt32 (min q r.freeBits.length : ℕ), storeAll out (r.freeAddrs.take q), r.takeBits q) :=
      fun out => r.alloc_eq_storeAll out hpos
    have hstore : ∀ out, storeAll out (r.freeAddrs.take q) =
        fun k => ((r.freeAddrs.take q)[k]?).getD (out k) := fun _ => rfl
    -- a region with a free page stores the first entry, another one does not count
    have hfirst : 0 < r.freeBits.length → (r.freeAddrs.take q)[0]? ≠ none := by
      intro hfree
      rw [Ne, List.getElem?_eq_none_iff, List.length_take, Region.length_freeAddrs]
      omega
    have hcount : r.freeBits.length = 0 → toInt32 (min q r.freeBits.length : ℕ) = 0 := by
      intro hfree
      rw [hfree, Nat.min_zero]
      rfl
    simp only [allocLoop, ← hq, hregion, hstore, freeCount_cons]
    by_cases hneg : toInt32 (min q r.freeBits.length : ℕ) < 0
    · simp only [if_pos hneg]
      refine ⟨_, _, _, _, fun _ => rfl, fun _ _ => hfirst ?_⟩
      by_contra hfree
      rw [hcount (Nat.eq_zero_of_not_pos hfree)] at hneg
      exact Int.lt_irrefl 0 hneg
    simp only [if_neg hneg]
    by_cases hdone : toSize (toInt32 (a + toInt32 (min q r.freeBits.length : ℕ))) = num
    · simp only [if_pos hdone]
      refine ⟨_, _, _, _, fun _ => rfl, fun ha0 _ => hfirst ?_⟩
      by_contra hfree
      rw [hcount (Nat.eq_zero_of_not_pos hfree), ha0] at hdone
      exact ha (ha0 ▸ hdone)
    · simp only [if_neg hdone]
      obtain ⟨err, total, rs', stored, hloop, hstored⟩ := ih hdone
      refine ⟨err, total, r.takeBits q :: rs',
        fun k => (stored k).or (r.freeAddrs.take q)[k]?, fun out => ?_, fun ha0 hfree hnone => ?_⟩
      · simp only [hloop, Option.getD_or]
      · obtain ⟨hlater, hhere⟩ := Option.or_eq_none_iff.mp hnone
        have hzero := Nat.eq_zero_of_not_pos fun hpos => hfirst hpos hhere
        rw [hzero, Nat.zero_add] at hfree
        exact hstored (by rw [hcount hzero, ha0]; rfl) hfree hlater

variable {p : Pool} {num k : ℕ}

/-- If any page is free, a request stores the first entry. -/
theorem stores_zero (hpos : 0 < num) (hnum : num < 2 ^ 64) (hfree : 0 < freeCount p.regions) :
    p.Stores num 0 := by
  have hne : toSize 0 ≠ num := hpos.ne
  obtain ⟨err, total, rs', stored, hloop, hfirst⟩ := allocLoop_stored hnum p.regions hne
  obtain ⟨v, hv⟩ := Option.ne_none_iff_exists'.mp (hfirst rfl hfree)
  refine ⟨hpos.ne', fun _ => ~~~v, ?_⟩
  simp only [hloop, hv, Option.getD_some]
  exact BitVec.ne_not_self (by omega)

/-- Entries from number `n` on are not touched. -/
theorem overlay_of_le {n : ℕ} (hk : n ≤ k) (out : AddrBuffer) (rs : List Region) :
    overlay n out rs k = out k :=
  overlay_apply_of_le out fun _ _ _ => (Nat.min_le_left _ _).trans ((Nat.sub_le _ _).trans hk)

/-- Without a free page, nothing is stored. -/
theorem overlay_of_freeCount_eq_zero {n : ℕ} {rs : List Region} (h : freeCount rs = 0)
    (out : AddrBuffer) : overlay n out rs = out := by
  induction rs generalizing n out with
  | nil => rfl
  | cons r rest ih =>
    rw [freeCount_cons, Nat.add_eq_zero_iff] at h
    have hnil : r.freeAddrs = [] := List.length_eq_zero_iff.mp (r.length_freeAddrs.trans h.1)
    rw [overlay, hnil, List.take_nil, storeAll_nil, ih h.2]

/-- A request for a number of pages that fits an `int` stores no more entries than pages are
requested, and none if no page is free. -/
theorem Stores.bounds (h : p.Stores num k) (hnum : num < 2 ^ 64)
    (hint : min num (freeCount p.regions) < 2 ^ 31) : k < num ∧ 0 < freeCount p.regions := by
  obtain ⟨hnum0, buffer, hne⟩ := h
  obtain ⟨err, -, hloop⟩ := allocLoop_eq hnum p.regions buffer (Nat.pos_of_ne_zero hnum0)
    (by simpa using hint)
  simp only [Nat.cast_zero, Nat.sub_zero] at hloop
  rw [hloop] at hne
  refine ⟨?_, ?_⟩
  · by_contra hge
    exact hne (overlay_of_le (Nat.le_of_not_lt hge) buffer p.regions)
  · by_contra hzero
    rw [overlay_of_freeCount_eq_zero (Nat.eq_zero_of_not_pos hzero)] at hne
    exact hne rfl

end Memory.Pool

/-! ## What is requested -/

namespace Vm

open Memory Memory.Pool KernelM

namespace PageAllocator

variable {σ : Type} {A : PhysicalAllocator σ} {pt : PageTable} {g : PageAllocator}
variable {length n : ℕ} {m : Machine σ}

/-- `Alloc` up to the call to `AllocatePages`: the number of pages that it requests. -/
def request (g : PageAllocator) (length : ℕ) : Except Fault ℕ := do
  let pageLength := nearestPageSize length
  let pageLengthWithGuards := BitVec.ofNat 64 (pageLength + kNumGuardPages * pageSize)
  let cursorEnd := g.gAllocCursor + pageLengthWithGuards
  require (cursorEnd < vAllocEnd && g.gAllocCursor < cursorEnd)
  return pageLength / pageSize

/-- `Alloc` after that call, which returned `err` and filled the array `phys`. -/
def afterRequest (A : PhysicalAllocator σ) (pt : PageTable) (g : PageAllocator) (length : ℕ)
    (numPages : ℕ) (err : ℤ) (phys : AddrBuffer) : KernelM σ (BitVec 64 × PageAllocator) := do
  if err < -1 then return (0, g)
  else if toSize err ≠ numPages then
    let _ ← freePrefix A (toSize err) phys
    return (0, g)
  else
    mapLoop A pt phys g.gAllocCursor 0 numPages
    return (g.gAllocCursor,
      { gAllocCursor := g.gAllocCursor +
          BitVec.ofNat 64 (nearestPageSize length + kNumGuardPages * pageSize)
        gPagesAllocated := g.gPagesAllocated + BitVec.ofNat 64 numPages })

/-- The check that `Alloc` makes before it requests pages. -/
theorem request_eq_ok : request g length = .ok n ↔
    (g.gAllocCursor + BitVec.ofNat 64 (nearestPageSize length + kNumGuardPages * pageSize) <
        vAllocEnd ∧
      g.gAllocCursor < g.gAllocCursor +
        BitVec.ofNat 64 (nearestPageSize length + kNumGuardPages * pageSize)) ∧
      nearestPageSize length / pageSize = n := by
  unfold request
  dsimp only
  generalize g.gAllocCursor + BitVec.ofNat 64 _ = cursorEnd
  by_cases h : cursorEnd < vAllocEnd ∧ g.gAllocCursor < cursorEnd
  · simp [h, require, bind, Except.bind, pure, Except.pure]
  · have hfalse : (decide (cursorEnd < vAllocEnd) && decide (g.gAllocCursor < cursorEnd)) =
        false := by
      simpa using h
    simp [h, hfalse, require, bind, Except.bind]

/-- `Alloc` asks `AllocatePages` for the pages of its request, or it is rejected before. -/
theorem alloc_eq_request (A : PhysicalAllocator σ) (pt : PageTable) (g : PageAllocator)
    (length : ℕ) (m : Machine σ) :
    alloc A pt g length m =
      match request g length with
      | .error f => .error f
      | .ok n =>
          (allocatePages A n (fun _ => 0) >>= fun r => afterRequest A pt g length n r.1 r.2) m := by
  cases hreq : request g length with
  | error f =>
    unfold request at hreq
    unfold alloc requireM
    dsimp only at hreq ⊢
    -- the two checks are the same, whatever the end of the range is
    generalize g.gAllocCursor + BitVec.ofNat 64 _ = cursorEnd at hreq ⊢
    generalize (decide (cursorEnd < vAllocEnd) && decide (g.gAllocCursor < cursorEnd)) = passed
      at hreq ⊢
    cases passed with
    | false => exact congrArg _ (Except.error.inj hreq)
    | true => cases hreq
  | ok n =>
    obtain ⟨⟨hlt, hgt⟩, rfl⟩ := request_eq_ok.mp hreq
    have hcheck : requireM (decide (g.gAllocCursor +
          BitVec.ofNat 64 (nearestPageSize length + kNumGuardPages * pageSize) < vAllocEnd) &&
        decide (g.gAllocCursor < g.gAllocCursor +
          BitVec.ofNat 64 (nearestPageSize length + kNumGuardPages * pageSize))) m = .ok ((), m) :=
      requireM_of_true (by simp [hlt, hgt])
    unfold alloc
    rw [bind_of_ok hcheck]
    rfl

/-! ## The promise -/

/-- The request takes more than `kMaxAllocPages` pages, or a size of `Alloc` does not fit 64 bits:
the length rounded up to pages, or the end of the range and its guard pages. -/
def TooLarge (g : PageAllocator) (length : ℕ) : Prop :=
  let pages := (length + (pageSize - 1)) / pageSize
  kMaxAllocPages < pages ∨ 2 ^ 64 ≤ pages * pageSize ∨
    2 ^ 64 ≤ g.gAllocCursor.toNat + (pages + kNumGuardPages) * pageSize

end PageAllocator

open PageAllocator

/-- The array of `Alloc` is not overrun, and a request that is too large does not get a page. -/
def BoundsRequest (p : Pool) (g : PageAllocator) (length : ℕ) : Prop :=
  ∀ n, request g length = .ok n →
    (∀ k, p.Stores n k → k < kMaxAllocPages) ∧ (TooLarge g length → ∀ k, ¬ p.Stores n k)

/-- The length is at most `kMaxAllocPages` pages; or it rounds to zero or past the end of the
region (where for the last length but one that the sum with the guard pages wraps to one page); or
no page is free. -/
def Bounded (p : Pool) (g : PageAllocator) (length : ℕ) : Prop :=
  length ≤ kMaxAllocPages * pageSize ∨ 2 ^ 64 - pageSize < length ∨
    (length ≤ 2 ^ 64 - 2 * pageSize ∧ vAllocEnd.toNat ≤ g.gAllocCursor.toNat +
      ((length + (pageSize - 1)) / pageSize + kNumGuardPages) * pageSize) ∨
    (2 ^ 64 - 2 * pageSize < length ∧ vAllocEnd.toNat ≤ g.gAllocCursor.toNat + pageSize) ∨
    freeCount p.regions = 0

/-- The length as `Alloc` rounds it. -/
theorem nearestPageSize_eq (length : ℕ) (hlen : length < 2 ^ 64) :
    nearestPageSize length = (length + (pageSize - 1)) / pageSize * pageSize % 2 ^ 64 := by
  unfold nearestPageSize
  simp only [pageSize]
  split <;> omega

/-- The check passes exactly when the sum is below the end of the region without wrapping, except
for the lengths whose sum with the guard pages wraps; the lengths that round to zero ask for no
pages. -/
theorem request_pages_iff {g : PageAllocator} {length n : ℕ} (hlen : length < 2 ^ 64) :
    request g length = .ok n ∧ 0 < n ↔
      n = (length + (pageSize - 1)) / pageSize ∧ 0 < length ∧ length ≤ 2 ^ 64 - pageSize ∧
        (length ≤ 2 ^ 64 - 2 * pageSize →
          g.gAllocCursor.toNat + (n + kNumGuardPages) * pageSize < vAllocEnd.toNat) ∧
        (2 ^ 64 - 2 * pageSize < length → g.gAllocCursor.toNat + pageSize < vAllocEnd.toNat) := by
  have hcursor := g.gAllocCursor.isLt
  have hend : vAllocEnd.toNat = 0xffff90ffffffffff := rfl
  rw [request_eq_ok, nearestPageSize_eq length hlen, BitVec.lt_def, BitVec.lt_def, BitVec.toNat_add,
    BitVec.toNat_ofNat, hend]
  simp only [pageSize, kNumGuardPages]
  omega

/-- A request that is too large and not bounded gets a page. -/
theorem Bounded.of_boundsRequest {p : Pool} {g : PageAllocator} {length : ℕ}
    (hlen : length < 2 ^ 64) (h : BoundsRequest p g length) : Bounded p g length := by
  by_contra hnot
  unfold Bounded at hnot
  push Not at hnot
  obtain ⟨hlarge, hround, hend, hwrap, hfree⟩ := hnot
  set pages := (length + (pageSize - 1)) / pageSize with hpages
  simp only [pageSize, kMaxAllocPages] at hlarge hround hend hwrap hpages
  obtain ⟨hreq, hpos⟩ : request g length = .ok pages ∧ 0 < pages := by
    rw [request_pages_iff hlen]
    simp only [pageSize]
    exact ⟨rfl, by omega, by omega, hend, hwrap⟩
  have htoo : TooLarge g length := Or.inl (by simp only [kMaxAllocPages, pageSize]; omega)
  exact (h pages hreq).2 htoo 0 (stores_zero hpos (by omega) (Nat.pos_of_ne_zero hfree))

/-- A bounded request is small, or it is rejected, or it finds no free page. -/
theorem Bounded.boundsRequest {p : Pool} {g : PageAllocator} {length : ℕ} (hlen : length < 2 ^ 64)
    (h : Bounded p g length) : BoundsRequest p g length := by
  intro n hreq
  rcases Nat.eq_zero_or_pos n with rfl | hpos
  · -- no pages are requested, which `AllocatePages` does not accept
    have hnone : ∀ k, ¬ p.Stores 0 k := by
      rintro k ⟨hne, -⟩
      exact hne rfl
    exact ⟨fun k hk => absurd hk (hnone k), fun _ => hnone⟩
  obtain ⟨hn, hlpos, hround, hend, hwrap⟩ := (request_pages_iff hlen).mp ⟨hreq, hpos⟩
  have hregion : vAllocEnd.toNat = 0xffff90ffffffffff := rfl
  simp only [pageSize, kNumGuardPages] at hn hround hend hwrap
  unfold Bounded at h
  simp only [pageSize, kMaxAllocPages, kNumGuardPages] at h
  rcases h with hsmall | hzero | ⟨hle, hpast⟩ | ⟨hgt, hpast⟩ | hnone
  · have hle : n ≤ 16 := by omega
    refine ⟨fun k hk => (hk.bounds (by omega) (by omega)).1.trans_le hle, fun htoo => ?_⟩
    unfold TooLarge at htoo
    simp only [pageSize, kMaxAllocPages, kNumGuardPages] at htoo
    omega
  · omega
  · omega
  · omega
  · have hno : ∀ k, ¬ p.Stores n k := by
      intro k hk
      exact (hk.bounds (by omega) (by omega)).2.ne' hnone
    exact ⟨fun k hk => absurd hk (hno k), fun _ => hno⟩

/-- For every length, cursor and pool: the array is not overrun and a request that is too large
does not get a page, exactly when the request is bounded. -/
theorem valloc_bounds_request (p : Pool) (g : PageAllocator) {length : ℕ} (hlen : length < 2 ^ 64) :
    BoundsRequest p g length ↔ Bounded p g length :=
  ⟨Bounded.of_boundsRequest hlen, Bounded.boundsRequest hlen⟩

/-- 31 free pages. -/
def manyPages : List (BitVec 64 × ℕ) := [(0x100000#64, 0x20000)]

/-- Sixteen pages are requested from 31 free ones. -/
theorem valloc_bounds_request_sixteen : BoundsRequest (bootPool manyPages) .init 0x10000 :=
  (valloc_bounds_request (bootPool manyPages) .init (by decide)).mpr (Or.inl (by decide))

/-- A request for 17 pages is not rejected, and stores an entry behind the end of the array. -/
theorem valloc_not_bounds_request :
    ¬ ∀ (p : Pool) (g : PageAllocator) (length : ℕ), length < 2 ^ 64 →
      BoundsRequest p g length := by
  intro h
  have hreq : request .init 0x11000 = .ok 17 := rfl
  have hstores : (bootPool manyPages).Stores 17 16 :=
    ⟨by decide, fun _ => 0, by decide +kernel⟩
  have hlt := (h (bootPool manyPages) .init 0x11000 (by decide) 17 hreq).1 16 hstores
  exact absurd hlt (by decide)

end Vm

end KushOs
