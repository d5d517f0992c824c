import KushOs.Foundation.Run
import KushOs.Kernel.Memory.Release

/-!
# Runs of the physical allocator

A run starts from the regions registered at boot and makes calls to `AllocatePages` and
`FreePages`; the pages handed out and not yet freed are recorded next to the pool.

## Main definitions

* `PoolState`, `PoolStep`: the states and the steps of a run.
* `ServedInRange`: the condition on a call under which the allocator keeps its promises: the bits
  it takes belong to one region, stand for pages of that region, and their number fits an `int`.
* `PoolState.Inv`: the invariant of the runs that meet it.

## Main results

* `served_cases`: what an allocation that meets the condition does.
* `PoolState.Inv.of_addRegions`, `PoolState.Inv.step`, `PoolState.Inv.run`: the invariant holds
  after boot, and in every state of a run.
-/

namespace KushOs.Memory

open WordBitmap Transition

/-- The default pool, and the pages handed out and not yet freed. -/
structure PoolState where
  /-- The pool. -/
  pool : Pool
  /-- The pages that callers hold. -/
  held : List (BitVec 64)

/-- A call to the allocator. -/
inductive PoolOp
  /-- `AllocatePages` into the given array. -/
  | allocatePages (numPages : ℕ) (outPageAddrs : AddrBuffer)
  /-- `FreePages` of the given array. -/
  | freePages (inPageAddrs : List (BitVec 64))

/-- What the caller of `AllocatePages` got: as many entries of its array as the call returned. -/
def handedOut (count : ℤ) (out : AddrBuffer) : List (BitVec 64) :=
  (List.range count.toNat).map out

/-- A call that returns. Only held pages are freed, each of them once. -/
inductive PoolStep : PoolState → PoolOp → PoolState → Prop
  | allocatePages {s : PoolState} {num : ℕ} {buffer out : AddrBuffer} {count : ℤ} {pool : Pool} :
      num < 2 ^ 64 → Memory.allocatePages s.pool num buffer = .ok (count, out, pool) →
      PoolStep s (.allocatePages num buffer) ⟨pool, s.held ++ handedOut count out⟩
  | freePages {s : PoolState} {addrs : List (BitVec 64)} {count : ℤ} {pool : Pool} :
      addrs.Nodup → (∀ a ∈ addrs, a ∈ s.held) →
      Memory.freePages s.pool addrs = .ok (count, pool) →
      PoolStep s (.freePages addrs) ⟨pool, s.held.filter fun a => a ∉ addrs⟩

/-- Whether a list names an address is decided by their equality. -/
scoped instance lawfulBEq_address : LawfulBEq (BitVec 64) := inferInstance

/-- Decided by going through the list, not through all addresses. -/
instance (s : PoolState) (addrs : List (BitVec 64)) : Decidable (∀ a ∈ addrs, a ∈ s.held) :=
  List.decidableBAll _ addrs

/-- Number of allocatable pages of region `i`. -/
def Pool.sizeAt (p : Pool) (i : ℕ) : ℕ := (p.regions[i]?.map Region.bitmapSize).getD 0

/-- The free bits that an allocation takes are those of one region, none of them lies past that
region's pages, and their number fits an `int`. -/
def ServedInRange (s : PoolState) : PoolOp → Prop
  | .allocatePages num _ =>
      let served := s.pool.freeBits.take num
      served.length < 2 ^ 31 ∧ (∀ x ∈ served, ∀ y ∈ served, x.1 = y.1) ∧
        ∀ x ∈ served, x.2 < s.pool.sizeAt x.1
  | .freePages _ => True

instance (s : PoolState) : (op : PoolOp) → Decidable (ServedInRange s op)
  | .allocatePages num _ =>
      inferInstanceAs (Decidable ((s.pool.freeBits.take num).length < 2 ^ 31 ∧
        (∀ x ∈ s.pool.freeBits.take num, ∀ y ∈ s.pool.freeBits.take num, x.1 = y.1) ∧
          ∀ x ∈ s.pool.freeBits.take num, x.2 < s.pool.sizeAt x.1))
  | .freePages _ => inferInstanceAs (Decidable True)

/-! ## An allocation served in range -/

namespace Region

theorem takeBits_of_take_eq_nil {r : Region} {n : ℕ} (h : r.freeBits.take n = []) :
    r.takeBits n = r := by
  have hlen : min n r.freeBits.length = 0 := by
    rw [← List.length_take, h, List.length_nil]
  simp [takeBits, h, hlen]

theorem freeBits_nodup (r : Region) : r.freeBits.Nodup := setBits_nodup _ _ _

/-- A free bit is set. -/
theorem bit_of_mem_freeBits {r : Region} {b : ℕ} (hb : b ∈ r.freeBits) : bit r.words b = true :=
  (mem_setBits.mp hb).2.2

end Region

namespace Pool

/-- Regions that store nothing leave the caller's array alone. -/
theorem overlay_of_none {n : ℕ} {rs : List Region} (out : AddrBuffer)
    (h : ∀ (k : ℕ) (r : Region), rs[k]? = some r →
      r.freeBits.take (n - freeCount (rs.take k)) = []) :
    overlay n out rs = out := by
  induction rs generalizing n out with
  | nil => rfl
  | cons r rest ih =>
    have hhead : r.freeAddrs.take n = [] := by
      have := h 0 r rfl
      simp only [List.take_zero, freeCount_nil, Nat.sub_zero] at this
      rw [Region.freeAddrs, ← List.map_take, this, List.map_nil]
    rw [overlay, hhead, storeAll_nil, ih]
    intro k r' hk
    have := h (k + 1) r' (by simpa using hk)
    simpa [Nat.sub_sub] using this

/-- If one region alone serves the request, the caller finds that region's pages in its array. -/
theorem overlay_of_single {n : ℕ} {rs : List Region} (out : AddrBuffer) {j : ℕ} {r : Region}
    (hj : rs[j]? = some r)
    (h : ∀ k r', rs[k]? = some r' → k ≠ j → r'.freeBits.take (n - freeCount (rs.take k)) = []) :
    overlay n out rs = storeAll out (r.freeAddrs.take (n - freeCount (rs.take j))) := by
  induction rs generalizing n j out with
  | nil => simp at hj
  | cons r₀ rest ih =>
    -- before region `j` nothing is stored, and behind it nothing is stored over its pages
    cases j with
    | zero =>
      obtain rfl : r₀ = r := by simpa using hj
      rw [overlay, overlay_of_none]
      · simp
      · intro k r' hk
        have := h (k + 1) r' (by simpa using hk) (by omega)
        simpa [Nat.sub_sub] using this
    | succ j =>
      have hhead : r₀.freeAddrs.take n = [] := by
        have := h 0 r₀ rfl (by omega)
        simp only [List.take_zero, freeCount_nil, Nat.sub_zero] at this
        rw [Region.freeAddrs, ← List.map_take, this, List.map_nil]
      rw [overlay, hhead, storeAll_nil, ih (j := j) _ (by simpa using hj)]
      · simp [Nat.sub_sub]
      · intro k r' hk hne
        have := h (k + 1) r' (by simpa using hk) (by omega)
        simpa [Nat.sub_sub] using this

/-- If one region alone serves the request, the bits taken are its first ones. -/
theorem take_freeBitsFrom_of_single {n i : ℕ} {rs : List Region} {j : ℕ} {r : Region}
    (hj : rs[j]? = some r)
    (h : ∀ k r', rs[k]? = some r' → k ≠ j → r'.freeBits.take (n - freeCount (rs.take k)) = []) :
    (freeBitsFrom i rs).take n =
      (r.freeBits.take (n - freeCount (rs.take j))).map (i + j, ·) := by
  -- the other indices do not occur, and the bits of region `j` come in one piece
  induction rs generalizing n i j with
  | nil => simp at hj
  | cons r₀ rest ih =>
    rw [freeBitsFrom, List.take_append, List.length_map, ← List.map_take]
    cases j with
    | zero =>
      obtain rfl : r₀ = r := by simpa using hj
      have hrest : (freeBitsFrom (i + 1) rest).take (n - r₀.freeBits.length) = [] := by
        rw [List.eq_nil_iff_forall_not_mem]
        rintro ⟨k, b⟩ hb
        obtain ⟨k, rfl⟩ : ∃ k', k = i + 1 + k' :=
          ⟨k - (i + 1), by have := le_of_mem_freeBitsFrom (List.mem_of_mem_take hb); omega⟩
        obtain ⟨r', hk, hb'⟩ := mem_take_freeBitsFrom.mp hb
        have := h (k + 1) r' (by simpa using hk) (by omega)
        rw [List.take_succ_cons, freeCount_cons, ← Nat.sub_sub] at this
        simp [this] at hb'
      simp [hrest]
    | succ j =>
      have hhead : r₀.freeBits.take n = [] := by
        have := h 0 r₀ rfl (by omega)
        simpa using this
      have hindex : i + (j + 1) = i + 1 + j := by omega
      rw [hhead, List.map_nil, List.nil_append, ih (j := j) (by simpa using hj), hindex]
      · simp [Nat.sub_sub]
      · intro k r' hk hne
        have := h (k + 1) r' (by simpa using hk) (by omega)
        simpa [Nat.sub_sub] using this

/-- Address of the page that a bit of a region stands for. -/
def addrAt (p : Pool) (x : ℕ × ℕ) : BitVec 64 :=
  (p.regions[x.1]?.map fun r => r.pageAddr x.2).getD 0

theorem mem_take_freeBits {p : Pool} {num j b : ℕ} :
    (j, b) ∈ p.freeBits.take num ↔ ∃ r, p.regions[j]? = some r ∧
      b ∈ r.freeBits.take (num - freeCount (p.regions.take j)) := by
  have hfrom := @mem_take_freeBitsFrom num 0 p.regions j b
  rwa [Nat.zero_add] at hfrom

/-- If one region supplies all the pages, their addresses are stored in order. -/
theorem stored_of_single {p : Pool} {num : ℕ} (out : AddrBuffer)
    (hsame : ∀ x ∈ p.freeBits.take num, ∀ y ∈ p.freeBits.take num, x.1 = y.1) :
    overlay num out p.regions = storeAll out ((p.freeBits.take num).map p.addrAt) := by
  rcases hcase : p.freeBits.take num with _ | ⟨⟨j, b₀⟩, rest⟩
  · rw [List.map_nil, storeAll_nil]
    refine overlay_of_none out fun k r hk => ?_
    rw [List.eq_nil_iff_forall_not_mem]
    intro b hb
    have hin := mem_take_freeBits.mpr ⟨r, hk, hb⟩
    rw [hcase] at hin
    cases hin
  · have hfirst : (j, b₀) ∈ p.freeBits.take num := by simp [hcase]
    obtain ⟨r, hj, -⟩ := mem_take_freeBits.mp hfirst
    -- all bits taken are of region `j`, so the other regions store nothing
    have hothers : ∀ k r', p.regions[k]? = some r' → k ≠ j →
        r'.freeBits.take (num - freeCount (p.regions.take k)) = [] := by
      intro k r' hk hne
      rw [List.eq_nil_iff_forall_not_mem]
      intro b hb
      exact hne (hsame _ (mem_take_freeBits.mpr ⟨r', hk, hb⟩) _ hfirst)
    have hall := take_freeBitsFrom_of_single (n := num) (i := 0) hj hothers
    have haddr : ∀ b, p.addrAt (j, b) = r.pageAddr b := by
      intro b
      simp [addrAt, hj]
    rw [overlay_of_single out hj hothers, ← hcase, freeBits, hall, Nat.zero_add, List.map_map,
      Region.freeAddrs, ← List.map_take]
    congr 1
    exact List.map_congr_left fun b _ => (haddr b).symm

end Pool

/-- The entries of an array that were stored from its start on. -/
theorem handedOut_storeAll (out : AddrBuffer) (addrs : List (BitVec 64)) :
    handedOut (addrs.length : ℤ) (storeAll out addrs) = addrs := by
  apply List.ext_getElem?
  intro k
  rw [handedOut, Int.toNat_natCast, List.getElem?_map]
  rcases Nat.lt_or_ge k addrs.length with hlt | hge
  · simp [storeAll, hlt]
  · simp [hge]

/-- Taking bits changes nothing if no region contributes any. -/
theorem Pool.takeFirst_eq_self {num : ℕ} {rs : List Region}
    (hnone : ∀ (k : ℕ) (r : Region), rs[k]? = some r →
      r.freeBits.take (num - freeCount (rs.take k)) = []) :
    takeFirst num rs = rs := by
  apply List.ext_getElem?
  intro k
  rw [getElem?_takeFirst]
  rcases hk : rs[k]? with _ | r
  · rfl
  · rw [Option.map_some, Region.takeBits_of_take_eq_nil (hnone k r hk)]

/-- Taking bits changes only one region if no other one contributes any. -/
theorem Pool.takeFirst_eq_set {num j : ℕ} {rs : List Region} {r : Region} (hj : rs[j]? = some r)
    (hothers : ∀ (k : ℕ) (r' : Region), rs[k]? = some r' → k ≠ j →
      r'.freeBits.take (num - freeCount (rs.take k)) = []) :
    takeFirst num rs = rs.set j (r.takeBits (num - freeCount (rs.take j))) := by
  apply List.ext_getElem?
  intro k
  rw [getElem?_takeFirst, List.getElem?_set]
  split
  next heq =>
    subst heq
    obtain ⟨hlt, -⟩ := List.getElem?_eq_some_iff.mp hj
    rw [hj, if_pos hlt, Option.map_some]
  next hne =>
    rcases hk : rs[k]? with _ | r'
    · rfl
    · rw [Option.map_some, Region.takeBits_of_take_eq_nil (hothers k r' hk (Ne.symm hne))]

/-- An allocation that is served in range takes nothing, or it takes the first bits of one region,
all of which stand for pages of that region, and hands out those pages. -/
theorem served_cases {s : PoolState} {num : ℕ} {buffer out : AddrBuffer} {count : ℤ} {pool : Pool}
    (hserved : ServedInRange s (.allocatePages num buffer)) (hnum : num < 2 ^ 64)
    (h : allocatePages s.pool num buffer = .ok (count, out, pool)) :
    (pool = s.pool ∧ handedOut count out = []) ∨
      ∃ j r m, s.pool.regions[j]? = some r ∧ (∀ b ∈ r.freeBits.take m, b < r.bitmapSize) ∧
        (r.freeBits.take m).length < 2 ^ 31 ∧
        pool = { s.pool with regions := s.pool.regions.set j (r.takeBits m) } ∧
        handedOut count out = (r.freeBits.take m).map r.pageAddr := by
  obtain ⟨hint, hsame, hrange⟩ := hserved
  obtain ⟨hpos, halloc⟩ := Pool.alloc_of_allocatePages h
  have hlen : (s.pool.freeBits.take num).length = min num (Pool.freeCount s.pool.regions) := by
    rw [List.length_take, Pool.freeBits, Pool.length_freeBitsFrom]
  rw [Pool.alloc_eq _ _ hpos hnum (by omega)] at halloc
  simp only [Except.ok.injEq, Prod.mk.injEq] at halloc
  obtain ⟨rfl, rfl, rfl⟩ := halloc
  rcases hcase : s.pool.freeBits.take num with _ | ⟨⟨j, b₀⟩, rest⟩
  · left
    rw [hcase, List.length_nil] at hlen
    refine ⟨?_, by rw [← hlen]; rfl⟩
    have hregions : Pool.takeFirst num s.pool.regions = s.pool.regions := by
      refine Pool.takeFirst_eq_self fun k r hk => ?_
      rw [List.eq_nil_iff_forall_not_mem]
      intro b hb
      have hin := Pool.mem_take_freeBits.mpr ⟨r, hk, hb⟩
      rw [hcase] at hin
      cases hin
    rw [hregions]
  · right
    have hfirst : (j, b₀) ∈ s.pool.freeBits.take num := by simp [hcase]
    obtain ⟨r, hj, -⟩ := Pool.mem_take_freeBits.mp hfirst
    have hothers : ∀ k r', s.pool.regions[k]? = some r' → k ≠ j →
        r'.freeBits.take (num - Pool.freeCount (s.pool.regions.take k)) = [] := by
      intro k r' hk hne
      rw [List.eq_nil_iff_forall_not_mem]
      intro b hb
      exact hne (hsame _ (Pool.mem_take_freeBits.mpr ⟨r', hk, hb⟩) _ hfirst)
    -- every bit of the list is one of region `j`, so the counts agree
    have hall := Pool.take_freeBitsFrom_of_single (i := 0) hj hothers
    rw [Nat.zero_add] at hall
    change s.pool.freeBits.take num = _ at hall
    refine ⟨j, r, num - Pool.freeCount (s.pool.regions.take j), hj, ?_, ?_, ?_, ?_⟩
    · intro b hb
      have := hrange _ (Pool.mem_take_freeBits.mpr ⟨r, hj, hb⟩)
      simpa [Pool.sizeAt, hj] using this
    · rw [hall, List.length_map] at hint
      exact hint
    · rw [Pool.takeFirst_eq_set hj hothers]
    · rw [Pool.overlay_of_single _ hj hothers, ← hlen, hall, List.length_map]
      have hmap : r.freeAddrs.take (num - Pool.freeCount (s.pool.regions.take j)) =
          (r.freeBits.take (num - Pool.freeCount (s.pool.regions.take j))).map r.pageAddr := by
        rw [Region.freeAddrs, List.map_take]
      rw [hmap, ← List.length_map (f := r.pageAddr), handedOut_storeAll]

/-- The state after the first `num` free bits were taken. -/
def PoolState.taken (s : PoolState) (num : ℕ) : PoolState where
  pool := { s.pool with regions := Pool.takeFirst num s.pool.regions }
  held := s.held ++ (s.pool.freeBits.take num).map s.pool.addrAt

/-- An allocation that is served in range hands out the pages of those bits. -/
theorem exists_of_served {s : PoolState} {num : ℕ} {buffer : AddrBuffer} (hpos : 0 < num)
    (hnum : num < 2 ^ 64) (hserved : ServedInRange s (.allocatePages num buffer)) :
    ∃ count out pool, allocatePages s.pool num buffer = .ok (count, out, pool) ∧
      pool = (s.taken num).pool ∧
      handedOut count out = (s.pool.freeBits.take num).map s.pool.addrAt := by
  obtain ⟨hint, hsame, -⟩ := hserved
  have hlen : (s.pool.freeBits.take num).length = min num (Pool.freeCount s.pool.regions) := by
    rw [List.length_take, Pool.freeBits, Pool.length_freeBitsFrom]
  have halloc := s.pool.allocatePages_of_pos hpos buffer
  rw [Pool.alloc_eq _ _ hpos hnum (by omega)] at halloc
  refine ⟨_, _, _, halloc, rfl, ?_⟩
  rw [Pool.stored_of_single buffer hsame, ← hlen, ← List.length_map (f := s.pool.addrAt),
    handedOut_storeAll]

/-- So it leads to that state. -/
theorem PoolStep.taken {s : PoolState} {num : ℕ} {buffer : AddrBuffer} (hpos : 0 < num)
    (hnum : num < 2 ^ 64) (hserved : ServedInRange s (.allocatePages num buffer)) :
    PoolStep s (.allocatePages num buffer) (s.taken num) := by
  obtain ⟨count, out, pool, halloc, rfl, hout⟩ := exists_of_served hpos hnum hserved
  rw [PoolState.taken, ← hout]
  exact .allocatePages hnum halloc

/-- The calls, made one after the other, as long as each of them is a step that meets the
condition. -/
def PoolState.served (s : PoolState) : List PoolOp → Option PoolState
  | [] => some s
  | .allocatePages num buffer :: ops =>
      if 0 < num ∧ num < 2 ^ 64 ∧ ServedInRange s (.allocatePages num buffer) then
        served (s.taken num) ops
      else none
  | .freePages addrs :: ops =>
      if addrs.Nodup ∧ ∀ a ∈ addrs, a ∈ s.held then
        match freePages s.pool addrs with
        | .ok (_, pool) => served ⟨pool, s.held.filter fun a => a ∉ addrs⟩ ops
        | .error _ => none
      else none

/-- They are a run. -/
theorem PoolState.run_of_served {s t : PoolState} {ops : List PoolOp}
    (h : s.served ops = some t) : RunWhere PoolStep ServedInRange s ops t := by
  induction ops generalizing s with
  | nil =>
    obtain rfl := Option.some.inj h
    exact .nil s
  | cons op ops ih =>
    cases op with
    | allocatePages num buffer =>
      rw [served] at h
      split at h
      next hcond =>
        obtain ⟨hpos, hnum, hserved⟩ := hcond
        exact .cons ⟨.taken hpos hnum hserved, hserved⟩ (ih h)
      next => cases h
    | freePages addrs =>
      rw [served] at h
      split at h
      next hcond =>
        split at h
        next hok => exact .cons ⟨.freePages hcond.1 hcond.2 hok, trivial⟩ (ih h)
        next => cases h
      next => cases h

/-! ## The invariant -/

/-- `a` is the page of bit `b` of region `i`, and that bit is clear. -/
def HeldAt (rs : List Region) (a : BitVec 64) (i b : ℕ) : Prop :=
  ∃ r, rs[i]? = some r ∧ b < r.bitmapSize ∧ a = r.pageAddr b ∧ bit r.words b = false

theorem HeldAt.pageAt {rs : List Region} {a : BitVec 64} {i b : ℕ} (h : HeldAt rs a i b) :
    PageAt rs a i b := by
  obtain ⟨r, hi, hb, ha, -⟩ := h
  exact ⟨r, hi, hb, ha⟩

/-- The address range of a region: base and length in bytes. -/
def Region.range (r : Region) : BitVec 64 × ℕ := (r.physBase, r.numPages * pageSize)

/-- The invariant of a run over the registered ranges `specs`. -/
structure PoolState.Inv (specs : List (BitVec 64 × ℕ)) (s : PoolState) : Prop where
  /-- The regions are the registered ones. -/
  registered : s.pool.regions.map Region.range = specs
  /-- The array of regions has room for them. -/
  bounded : s.pool.regions.length ≤ Pool.kMaxRegions
  /-- They are well formed and lie apart. -/
  layout : Layout s.pool.regions
  /-- No page is held twice. -/
  nodup : s.held.Nodup
  /-- Every held page is a page of a region, and its bit is clear. -/
  held : ∀ a ∈ s.held, ∃ i b, HeldAt s.pool.regions a i b
  /-- Each region's counter counts its clear bits. -/
  counted : ∀ r ∈ s.pool.regions,
    r.numAllocated = BitVec.ofNat 64 (clearCount r.words r.bitmapSize)

/-- Replacing a region by one of the same shape keeps all shapes. -/
theorem map_shape_set {rs : List Region} {j : ℕ} {r r' : Region} (hj : rs[j]? = some r)
    (hshape : r'.shape = r.shape) : (rs.set j r').map Region.shape = rs.map Region.shape := by
  obtain ⟨hlt, rfl⟩ := List.getElem?_eq_some_iff.mp hj
  apply List.ext_getElem?
  intro k
  rw [List.getElem?_map, List.getElem?_map, List.getElem?_set]
  split
  next heq =>
    subst heq
    simp [hlt, hshape]
  next => rfl

/-- The ranges depend on the shapes only. -/
theorem map_range_of_shape {rs rs' : List Region}
    (hshape : rs.map Region.shape = rs'.map Region.shape) :
    rs.map Region.range = rs'.map Region.range := by
  have := congrArg (List.map Region.range) hshape
  rwa [List.map_map, List.map_map] at this

/-! ## Boot -/

/-- A region right after it was registered: all its pages are free. -/
structure Region.Fresh (r : Region) : Prop where
  wellFormed : r.WellFormed
  numAllocated_eq : r.numAllocated = 0
  bit_eq : ∀ b < r.bitmapSize, bit r.words b = true

/-- `AddRegion` appends the region that the constructor builds. -/
theorem exists_new_of_addRegion {earlyBoot : Bool} {p p' : Pool} {base : BitVec 64} {length : ℕ}
    {prior : Words} (h : addRegion earlyBoot p base length prior = .ok p') :
    ∃ r, Region.new earlyBoot base length prior = .ok r ∧ p'.regions = p.regions ++ [r] := by
  simp only [addRegion, Pool.addRegion, bind, Except.bind, pure, Except.pure] at h
  split at h
  · cases h
  split at h
  · cases h
  split at h
  · cases h
  split at h
  · cases h
  split at h
  · cases h
  · exact ⟨_, ‹_›, by rw [← Except.ok.inj h]⟩

/-- `AddRegion` appends a fresh region over the given range. -/
theorem addRegion_eq {earlyBoot : Bool} {p p' : Pool} {base : BitVec 64} {length : ℕ}
    {prior : Words} (h : addRegion earlyBoot p base length prior = .ok p')
    (hfits : base.toNat + length ≤ 2 ^ 64) :
    ∃ r : Region, r.Fresh ∧ r.range = (base, length) ∧ p'.regions = p.regions ++ [r] ∧
      p'.regions.length ≤ Pool.kMaxRegions := by
  simp only [addRegion, Pool.addRegion, bind, Except.bind, pure, Except.pure] at h
  split at h
  · cases h
  next hbase =>
    split at h
    · cases h
    next hlength =>
      split at h
      · cases h
      · split at h
        · cases h
        next hroom =>
          split at h
          · cases h
          next r hr =>
            simp only [require_eq_ok, decide_eq_true_eq] at hroom
            simp only [require_eq_ok, decide_eq_true_eq] at hbase
            simp only [require_eq_ok, Bool.and_eq_true, decide_eq_true_eq] at hlength
            -- all checks passed: the region is fresh because the bitmap was filled with 0xFF
            obtain ⟨hwf, hphys, hpages, hnum, hwords⟩ :=
              Region.wellFormed_of_new hr hbase hlength.2 hfits
            refine ⟨r, ⟨hwf, hnum, ?_⟩, by rw [Region.range, hphys, hpages], ?_, ?_⟩
            · intro b hb
              have hsize := hwf.size_eq
              have hin : b / 8 < Region.bitmapBytes r.numPages := by
                simp only [Region.bitmapBytes]
                omega
              have hff : ∀ i < 8, (0xFF#8).getLsbD i = true := by decide
              rw [hwords, bit_memset, if_pos hin]
              exact hff _ (Nat.mod_lt _ (by omega))
            · rw [← Except.ok.inj h]
            · rw [← Except.ok.inj h, List.length_append, List.length_singleton]
              exact hroom

/-- Registering several ranges appends a fresh region for each of them. -/
theorem addRegions_eq {earlyBoot : Bool} {prior : BitVec 64 → Words} {p p' : Pool}
    {specs : List (BitVec 64 × ℕ)} (h : addRegions earlyBoot prior p specs = .ok p')
    (hroom : p.regions.length ≤ Pool.kMaxRegions)
    (hfits : ∀ x ∈ specs, x.1.toNat + x.2 ≤ 2 ^ 64) :
    ∃ rs : List Region, (∀ r ∈ rs, r.Fresh) ∧ rs.map Region.range = specs ∧
      p'.regions = p.regions ++ rs ∧ p'.regions.length ≤ Pool.kMaxRegions := by
  induction specs generalizing p with
  | nil =>
    rw [addRegions] at h
    cases h
    exact ⟨[], by simp, rfl, by simp, hroom⟩
  | cons x rest ih =>
    obtain ⟨base, length⟩ := x
    simp only [addRegions, bind, Except.bind] at h
    split at h
    · cases h
    next p₁ hp₁ =>
      -- the first range by the lemma above, the others by induction
      obtain ⟨r, hfresh, hrange, hreg, hroom₁⟩ := addRegion_eq hp₁ (hfits _ List.mem_cons_self)
      obtain ⟨rs, hrs, hranges, hregs, hroom'⟩ :=
        ih h hroom₁ fun x hx => hfits x (List.mem_cons_of_mem _ hx)
      refine ⟨r :: rs, ?_, by rw [List.map_cons, hrange, hranges], ?_, hroom'⟩
      · intro r' hr'
        rcases List.mem_cons.mp hr' with rfl | hr'
        · exact hfresh
        · exact hrs r' hr'
      · rw [hregs, hreg, List.append_assoc, List.singleton_append]

/-- Two ranges of physical memory have no byte in common. -/
def RangesDisjoint (x y : BitVec 64 × ℕ) : Prop :=
  x.1.toNat + x.2 ≤ y.1.toNat ∨ y.1.toNat + y.2 ≤ x.1.toNat

instance : DecidableRel RangesDisjoint := fun _ _ => inferInstanceAs (Decidable (_ ∨ _))

/-- After boot the invariant holds, with no page held. -/
theorem PoolState.Inv.of_addRegions {earlyBoot : Bool} {prior : BitVec 64 → Words} {p : Pool}
    {specs : List (BitVec 64 × ℕ)} (h : addRegions earlyBoot prior Pool.empty specs = .ok p)
    (hfits : ∀ x ∈ specs, x.1.toNat + x.2 ≤ 2 ^ 64) (hdisjoint : specs.Pairwise RangesDisjoint) :
    PoolState.Inv specs ⟨p, []⟩ := by
  obtain ⟨rs, hfresh, hranges, hregs, hroom⟩ := addRegions_eq h (Nat.zero_le _) hfits
  rw [Pool.empty, List.nil_append] at hregs
  refine ⟨by rw [hregs, hranges], hroom, ⟨?_, ?_⟩, List.nodup_nil, by simp, ?_⟩
  · intro r hr
    exact (hfresh r (hregs ▸ hr)).wellFormed
  · rw [← hranges, List.pairwise_map] at hdisjoint
    rw [hregs]
    exact hdisjoint
  · intro r hr
    have hr := hfresh r (hregs ▸ hr)
    have hnone : clearCount r.words r.bitmapSize = 0 := by
      rw [clearCount, Finset.card_eq_zero, Finset.filter_eq_empty_iff]
      intro b hb
      simp [hr.bit_eq b (Finset.mem_range.mp hb)]
    rw [hnone, hr.numAllocated_eq]
    rfl

/-! ## Steps -/

namespace PoolState.Inv

variable {specs : List (BitVec 64 × ℕ)} {s t : PoolState}

/-- Allocations that are served in range keep the invariant. -/
theorem allocatePages (hinv : Inv specs s) {num : ℕ} {buffer out : AddrBuffer} {count : ℤ}
    {pool : Pool} (hserved : ServedInRange s (.allocatePages num buffer)) (hnum : num < 2 ^ 64)
    (h : Memory.allocatePages s.pool num buffer = .ok (count, out, pool)) :
    Inv specs ⟨pool, s.held ++ handedOut count out⟩ := by
  rcases served_cases hserved hnum h with ⟨rfl, hnone⟩ | ⟨j, r, m, hj, hin, -, rfl, hsome⟩
  · rw [hnone, List.append_nil]
    exact hinv
  have hshape := map_shape_set hj (r.shape_takeBits m)
  have hmem : ∀ b ∈ r.freeBits.take m, bit r.words b = true :=
    fun b hb => Region.bit_of_mem_freeBits (List.mem_of_mem_take hb)
  have hnodup : (r.freeBits.take m).Nodup := r.freeBits_nodup.sublist (List.take_sublist _ _)
  obtain ⟨hlt, -⟩ := List.getElem?_eq_some_iff.mp hj
  have hself : (s.pool.regions.set j (r.takeBits m))[j]? = some (r.takeBits m) := by simp [hlt]
  -- a page keeps its place, and a page that was taken now has a clear bit
  have hold : ∀ a i b, HeldAt s.pool.regions a i b →
      HeldAt (s.pool.regions.set j (r.takeBits m)) a i b := by
    rintro a i b ⟨r₂, hi, hb, ha, hbit⟩
    rcases eq_or_ne j i with rfl | hne
    · obtain rfl : r = r₂ := Option.some.inj (hj.symm.trans hi)
      exact ⟨r.takeBits m, hself, hb, ha, by simp [Region.bit_takeBits, hbit]⟩
    · exact ⟨r₂, by rwa [List.getElem?_set_ne hne], hb, ha, hbit⟩
  have hnew : ∀ b ∈ r.freeBits.take m,
      HeldAt (s.pool.regions.set j (r.takeBits m)) (r.pageAddr b) j b :=
    fun b hb => ⟨r.takeBits m, hself, hin b hb, rfl, by simp [Region.bit_takeBits, hb]⟩
  refine ⟨(map_range_of_shape hshape).trans hinv.registered, ?_, hinv.layout.of_shape hshape.symm,
    ?_, ?_, ?_⟩
  · rw [List.length_set]
    exact hinv.bounded
  · rw [hsome, List.nodup_append]
    refine ⟨hinv.nodup, ?_, ?_⟩
    · refine List.Nodup.map_on ?_ hnodup
      intro b hb c hc heq
      exact (PageAt.unique hinv.layout ⟨r, hj, hin b hb, rfl⟩ ⟨r, hj, hin c hc, heq⟩).2
    · -- the bit of a held page is clear, that of a page handed out was set
      intro a ha a' ha' heq
      obtain ⟨b, hb, rfl⟩ := List.mem_map.mp ha'
      obtain ⟨i, c, hheld⟩ := hinv.held a ha
      obtain ⟨rfl, rfl⟩ := PageAt.unique hinv.layout hheld.pageAt ⟨r, hj, hin b hb, heq⟩
      obtain ⟨r₂, hi, -, -, hbit⟩ := hheld
      obtain rfl : r = r₂ := Option.some.inj (hj.symm.trans hi)
      rw [hmem c hb] at hbit
      cases hbit
  · intro a ha
    rcases List.mem_append.mp ha with ha | ha
    · obtain ⟨i, b, hheld⟩ := hinv.held a ha
      exact ⟨i, b, hold a i b hheld⟩
    · rw [hsome] at ha
      obtain ⟨b, hb, rfl⟩ := List.mem_map.mp ha
      exact ⟨j, b, hnew b hb⟩
  · intro r₂ hr₂
    rcases List.mem_or_eq_of_mem_set hr₂ with hr₂ | rfl
    · exact hinv.counted r₂ hr₂
    · have hcount := clearCount_clearBits (n := r.bitmapSize) hnodup
        fun b hb => ⟨hin b hb, hmem b hb⟩
      rw [List.length_take] at hcount
      show r.numAllocated + BitVec.ofNat 64 (min m r.freeBits.length) =
        BitVec.ofNat 64 (clearCount (clearBits r.words (r.freeBits.take m)) r.bitmapSize)
      rw [hcount, hinv.counted r (List.mem_of_getElem? hj), BitVec.ofNat_add]

/-- The bits that a region computes for the held pages it contains. -/
theorem freeIndex_of_held (hinv : Inv specs s) {i : ℕ} {r : Region}
    (hi : s.pool.regions[i]? = some r) {a : BitVec 64} (ha : a ∈ s.held)
    (hc : r.contains a = true) :
    r.freeIndex a < r.bitmapSize ∧ a = r.pageAddr (r.freeIndex a) ∧
      bit r.words (r.freeIndex a) = false := by
  obtain ⟨j, b, hheld⟩ := hinv.held a ha
  obtain ⟨rfl, hb, hindex⟩ := PageAt.of_contains hinv.layout hheld.pageAt hi hc
  obtain ⟨r₂, hj, -, haddr, hbit⟩ := hheld
  obtain rfl : r = r₂ := Option.some.inj (hi.symm.trans hj)
  rw [hindex]
  exact ⟨hb, haddr, hbit⟩

/-- So they are in the bitmap. -/
theorem bitsInside (hinv : Inv specs s) {addrs : List (BitVec 64)}
    (hheld : ∀ a ∈ addrs, a ∈ s.held) :
    ∀ r ∈ s.pool.regions, r.BitsInside addrs := by
  intro r hr a ha hc
  obtain ⟨i, hi⟩ := List.mem_iff_getElem?.mp hr
  exact (hinv.layout.wellFormed r hr).word_lt (hinv.freeIndex_of_held hi (hheld a ha) hc).1

/-- Freeing held pages in a region makes as many bits less clear as the region contains pages. -/
theorem clearCount_freed (hinv : Inv specs s) {i : ℕ} {r : Region}
    (hi : s.pool.regions[i]? = some r) {addrs : List (BitVec 64)} (hnodup : addrs.Nodup)
    (hheld : ∀ a ∈ addrs, a ∈ s.held) :
    clearCount (r.freed addrs).words r.bitmapSize + addrs.countP r.contains =
      clearCount r.words r.bitmapSize := by
  refine Region.clearCount_freed hnodup ?_ ?_
  · intro a ha hc
    obtain ⟨hb, -, hbit⟩ := hinv.freeIndex_of_held hi (hheld a ha) hc
    exact ⟨hb, hbit⟩
  · intro a ha a' ha' hc hc' heq
    obtain ⟨-, haddr, -⟩ := hinv.freeIndex_of_held hi (hheld a ha) hc
    obtain ⟨-, haddr', -⟩ := hinv.freeIndex_of_held hi (hheld a' ha') hc'
    rw [haddr, haddr', heq]

/-- Freeing held pages keeps the invariant, whether or not the pool finds them. -/
theorem freePages (hinv : Inv specs s) {addrs : List (BitVec 64)} {count : ℤ} {pool : Pool}
    (hnodup : addrs.Nodup) (hheld : ∀ a ∈ addrs, a ∈ s.held)
    (h : Memory.freePages s.pool addrs = .ok (count, pool)) :
    Inv specs ⟨pool, s.held.filter fun a => a ∉ addrs⟩ := by
  have hregion := Pool.getElem?_of_freePages h
  have hshape := Pool.map_shape_of_freePages h
  refine ⟨(map_range_of_shape hshape).trans hinv.registered, ?_, hinv.layout.of_shape hshape.symm,
    hinv.nodup.filter _, ?_, ?_⟩
  · have hlen := congrArg List.length hshape
    rw [List.length_map, List.length_map] at hlen
    exact hlen ▸ hinv.bounded
  · intro a ha
    simp only [List.mem_filter, decide_eq_true_eq] at ha
    obtain ⟨i, b, r, hi, hb, haddr, hbit⟩ := hinv.held a ha.1
    -- the loop reached the region or stopped before it
    rcases hregion i with hi' | hi'
    · exact ⟨i, b, r, hi'.trans hi, hb, haddr, hbit⟩
    · rw [hi, Option.map_some] at hi'
      have hsize : (r.freed addrs).shape = r.shape := r.shape_freed addrs
      refine ⟨i, b, r.freed addrs, hi', ?_, ?_, ?_⟩
      · rw [Region.bitmapSize_of_shape hsize]
        exact hb
      · rw [haddr, Region.pageAddr_of_shape hsize]
      · -- the bit could only have been set by the page itself, which was not freed
        rw [← Bool.not_eq_true, Region.bit_freed, hbit]
        rintro (hfalse | ⟨a', ha', hc, hindex⟩)
        · cases hfalse
        · obtain ⟨-, haddr', -⟩ := hinv.freeIndex_of_held hi (hheld a' ha') hc
          rw [hindex, ← haddr] at haddr'
          exact ha.2 (haddr' ▸ ha')
  · intro r' hr'
    obtain ⟨i, hi'⟩ := List.mem_iff_getElem?.mp hr'
    rcases hregion i with hi | hi
    · exact hinv.counted r' (List.mem_of_getElem? (hi ▸ hi'))
    · rw [hi', eq_comm, Option.map_eq_some_iff] at hi
      obtain ⟨r, hr, rfl⟩ := hi
      have hcount := hinv.clearCount_freed hr hnodup hheld
      rw [Region.numAllocated_freed, hinv.counted r (List.mem_of_getElem? hr),
        Region.bitmapSize_of_shape (r.shape_freed addrs), ← hcount, BitVec.ofNat_add,
        BitVec.add_sub_cancel]

/-- A step that meets the condition keeps the invariant. -/
theorem step {op : PoolOp} (hinv : Inv specs s) (hserved : ServedInRange s op)
    (h : PoolStep s op t) : Inv specs t := by
  cases h with
  | allocatePages hnum halloc => exact hinv.allocatePages hserved hnum halloc
  | freePages hnodup hheld hfree => exact hinv.freePages hnodup hheld hfree

/-- So does a run whose steps all meet it. -/
theorem run {ops : List PoolOp} (hinv : Inv specs s)
    (hrun : RunWhere PoolStep ServedInRange s ops t) : Inv specs t :=
  Run.preserves_of (fun _ _ _ hs hcond hstep => hs.step hcond hstep) hrun hinv

end PoolState.Inv

end KushOs.Memory
