import KushOs.Kernel.Memory.PoolRun

/-!
# Exclusive ownership of physical pages

A physical page must have at most one holder and must not be one of the pages that hold a bitmap.
`Region::Region` fills the bitmap in whole bytes and `Region::alloc` scans it in whole words, so
the last word may offer bits that stand for no page; and `Pool::alloc` gives every region the start
of the caller's array, so the pages of a second region overwrite those of the first. Runs that do
not run into either hand out every page exclusively.

## Main results

* `held_exclusive`: in a run whose allocations are all served in range, the held pages are
  distinct, aligned, and allocatable pages of the registered regions.
-/

namespace KushOs.Memory

open Transition

/-- The page at `a` lies in the given range, after the pages that hold the range's bitmap. -/
def InAllocatable (spec : BitVec 64 × ℕ) (a : BitVec 64) : Prop :=
  spec.1.toNat + Region.bitmapPages (spec.2 / pageSize) * pageSize ≤ a.toNat ∧
    a.toNat < spec.1.toNat + spec.2

instance (spec : BitVec 64 × ℕ) (a : BitVec 64) : Decidable (InAllocatable spec a) :=
  inferInstanceAs (Decidable (_ ∧ _))

/-- The pages held in a state are distinct, aligned, and allocatable pages of the registered
ranges. -/
structure Exclusive (specs : List (BitVec 64 × ℕ)) (s : PoolState) : Prop where
  nodup : s.held.Nodup
  aligned : ∀ a ∈ s.held, a.toNat % pageSize = 0
  inRange : ∀ a ∈ s.held, ∃ spec ∈ specs, InAllocatable spec a

/-- The invariant of a run makes the held pages exclusive. -/
theorem PoolState.Inv.exclusive {specs : List (BitVec 64 × ℕ)} {s : PoolState}
    (hinv : PoolState.Inv specs s) : Exclusive specs s := by
  refine ⟨hinv.nodup, ?_, ?_⟩
  · intro a ha
    obtain ⟨i, b, r, hi, hb, rfl, -⟩ := hinv.held a ha
    exact ((hinv.layout.wellFormed r (List.mem_of_getElem? hi)).pageAddr_bounds hb).1
  · intro a ha
    obtain ⟨i, b, r, hi, hb, rfl, -⟩ := hinv.held a ha
    have hmem := List.mem_of_getElem? hi
    have hwf := hinv.layout.wellFormed r hmem
    obtain ⟨-, hlo, hhi⟩ := hwf.pageAddr_bounds hb
    refine ⟨r.range, hinv.registered ▸ List.mem_map_of_mem hmem, ?_, hhi⟩
    -- the length of the range is a multiple of the page size, so it gives the page count back
    have hpages : r.numPages * pageSize / pageSize = r.numPages :=
      Nat.mul_div_cancel _ (by norm_num)
    rw [hwf.reserved_eq] at hlo
    simpa only [Region.range, hpages] using hlo

/-- In every state of a run whose allocations are served in range, the held pages are distinct and
aligned, and each of them is an allocatable page of a registered region. -/
theorem held_exclusive {earlyBoot : Bool} {prior : BitVec 64 → WordBitmap.Words} {p : Pool}
    {specs : List (BitVec 64 × ℕ)} {ops : List PoolOp} {t : PoolState}
    (hboot : addRegions earlyBoot prior Pool.empty specs = .ok p)
    (hfits : ∀ x ∈ specs, x.1.toNat + x.2 ≤ 2 ^ 64) (hdisjoint : specs.Pairwise RangesDisjoint)
    (hrun : RunWhere PoolStep ServedInRange ⟨p, []⟩ ops t) : Exclusive specs t :=
  ((PoolState.Inv.of_addRegions hboot hfits hdisjoint).run hrun).exclusive

/-- The pool after early boot over zeroed memory. -/
def bootPool (specs : List (BitVec 64 × ℕ)) : Pool :=
  (addRegions true (fun _ _ => 0) Pool.empty specs).toOption.getD Pool.empty

/-- A region of 64 allocatable pages, and one that is large enough to recognise its first two. -/
def twoRanges : List (BitVec 64 × ℕ) := [(0x100000#64, 0x41000), (0x1000000#64, 0x3000000)]

/-- Two regions are registered. -/
theorem boot_twoRanges :
    addRegions true (fun _ _ => 0) Pool.empty twoRanges = .ok (bootPool twoRanges) := rfl

/-- They do not overlap. -/
theorem disjoint_twoRanges : twoRanges.Pairwise RangesDisjoint := by
  rw [twoRanges, List.pairwise_pair]
  decide

/-- The first region is used up, three pages come from the second one, a page of the first and two
of the second are given back, and one page is requested again. -/
def busyOps : List PoolOp :=
  [.allocatePages 64 fun _ => 0, .allocatePages 3 fun _ => 0,
    .freePages [0x120000#64, 0x1001000#64, 0x1002000#64], .allocatePages 1 fun _ => 0]

/-- The state after these calls. -/
def busyState : PoolState :=
  (PoolState.served ⟨bootPool twoRanges, []⟩ busyOps).getD ⟨bootPool twoRanges, []⟩

/-- Several pages are taken, and one comes back. -/
theorem run_busyState :
    RunWhere PoolStep ServedInRange ⟨bootPool twoRanges, []⟩ busyOps busyState := by
  have hserved : (PoolState.served ⟨bootPool twoRanges, []⟩ busyOps).isSome = true := by
    decide +kernel
  obtain ⟨t, ht⟩ := Option.isSome_iff_exists.mp hserved
  rw [busyState, ht]
  exact PoolState.run_of_served ht

/-- The last pages held are those of the second region, one that was given back among them. -/
theorem held_exclusive_two_regions :
    Exclusive twoRanges busyState ∧
      busyState.held.drop 62 = [0x140000#64, 0x1003000#64, 0x1001000#64] :=
  ⟨held_exclusive boot_twoRanges (by decide) disjoint_twoRanges run_busyState, by decide +kernel⟩

/-- Two pages of physical memory, one of which holds the bitmap. -/
def twoPages : List (BitVec 64 × ℕ) := [(0x100000#64, 0x2000)]

/-- One region of two pages is registered. -/
theorem boot_twoPages :
    addRegions true (fun _ _ => 0) Pool.empty twoPages = .ok (bootPool twoPages) := rfl

/-- Two pages are allocated from a region that has one: the second address is the end of the
region. -/
theorem held_not_exclusive :
    ¬ ∀ (earlyBoot : Bool) (prior : BitVec 64 → WordBitmap.Words) (p : Pool)
      (specs : List (BitVec 64 × ℕ)) (ops : List PoolOp) (t : PoolState),
      addRegions earlyBoot prior Pool.empty specs = .ok p →
      (∀ x ∈ specs, x.1.toNat + x.2 ≤ 2 ^ 64) → specs.Pairwise RangesDisjoint →
      Run PoolStep ⟨p, []⟩ ops t → Exclusive specs t := by
  intro h
  have hexcl := h true (fun _ _ => 0) (bootPool twoPages) twoPages
    [.allocatePages 2 fun _ => 0] _ boot_twoPages (by decide) (List.pairwise_singleton _ _)
    (.cons (.allocatePages (by omega) rfl) (.nil _))
  obtain ⟨spec, hspec, hin⟩ := hexcl.inRange 0x102000#64 (by decide)
  obtain rfl : spec = (0x100000#64, 0x2000) := List.mem_singleton.mp hspec
  exact absurd hin (by decide)

end KushOs.Memory
