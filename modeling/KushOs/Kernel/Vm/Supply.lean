import KushOs.Kernel.Vm.PageRange
import Mathlib.Data.Finset.Card
import Mathlib.Data.Finset.Union

/-!
# Frames for paging structures

Mapping pages takes one frame for every structure on their paths that is not linked yet. If the
allocator has that many, and no page is part of a large page, the calls return and succeed.

## Main definitions

* `Supplies`: the allocator serves a number of requests for single frames.
* `missing`: the structures that are not linked yet.

## Main results

* `Paging.mapPage_returns`, `Paging.mapPages_returns`: mapping pages succeeds.
-/

namespace KushOs.Vm

open Memory RadixTable KernelM PageTable

variable {σ : Type} {A : PhysicalAllocator σ} {held : σ → Set (BitVec 64)} {m m' : Machine σ}
variable {roots : List (BitVec 64)} {label label' : Labels (BitVec 64) Index} {pt : PageTable}
variable {root virt t : BitVec 64} {V : Finset (List Index)}

/-- The allocator serves `k` requests for one frame, in a row, with frames that the kernel can reach
and that are not the one at address zero. -/
def Supplies (A : PhysicalAllocator σ) (reach : BitVec 64 → Prop) : ℕ → σ → Prop
  | 0, _ => True
  | k + 1, s =>
      match A.allocatePages s 1 fun _ => 0 with
      | .ok (count, out, s') => (count = 1 ∧ out 0 ≠ 0 ∧ reach (out 0)) ∧ Supplies A reach k s'
      | .error _ => False

/-- Decided by making the requests. -/
def decSupplies (A : PhysicalAllocator σ) (reach : BitVec 64 → Prop) [DecidablePred reach] :
    ∀ (k : ℕ) (s : σ), Decidable (Supplies A reach k s)
  | 0, _ => .isTrue trivial
  | k + 1, s =>
      match h : A.allocatePages s 1 fun _ => 0 with
      | .ok (count, out, s') =>
          have := decSupplies A reach k s'
          decidable_of_iff ((count = 1 ∧ out 0 ≠ 0 ∧ reach (out 0)) ∧ Supplies A reach k s')
            (by rw [Supplies, h])
      | .error _ => .isFalse (by rw [Supplies, h]; exact id)

instance (A : PhysicalAllocator σ) (reach : BitVec 64 → Prop) [DecidablePred reach] (k : ℕ)
    (s : σ) : Decidable (Supplies A reach k s) :=
  decSupplies A reach k s

theorem Supplies.mono {reach : BitVec 64 → Prop} {k l : ℕ} {s : σ} (hle : k ≤ l)
    (h : Supplies A reach l s) : Supplies A reach k s := by
  induction l generalizing k s with
  | zero =>
    obtain rfl : k = 0 := Nat.le_zero.mp hle
    exact h
  | succ l ih =>
    cases k with
    | zero => trivial
    | succ k =>
      unfold Supplies at h ⊢
      split at h
      · exact ⟨h.1, ih (by omega) h.2⟩
      · exact h

/-- `AllocPage` returns a frame if there is one. -/
theorem PageTable.allocPage_returns {k : ℕ} (h : Supplies A m.Accessible (k + 1) m.allocator) :
    ∃ page m', allocPage A m = .ok (page, m') ∧ page ≠ 0 ∧
      Supplies A m.Accessible k m'.allocator := by
  unfold Supplies at h
  split at h
  swap
  · exact h.elim
  next count out s halloc =>
    obtain ⟨⟨rfl, hne, hacc⟩, hrest⟩ := h
    let m₁ : Machine σ := { m with allocator := s }
    have hserved : allocatePages A 1 (fun _ => 0) m = .ok ((1, out), m₁) := by
      rw [allocatePages_eq_ok]
      exact ⟨s, halloc, rfl⟩
    have hone : requireM ((1 : ℤ) == 1) m₁ = .ok ((), m₁) := requireM_of_true rfl
    have hptr : getTableVmAddr (out 0) m₁ =
        .ok (if m₁.earlyBoot then out 0 else physApertureStart + out 0, m₁) :=
      getTableVmAddr_eq_ok.mpr ⟨hacc, rfl, rfl⟩
    refine ⟨out 0, m₁.zero (out 0), ?_, hne, hrest⟩
    unfold allocPage
    rw [bind_of_ok hserved]
    dsimp only
    rw [bind_of_ok hone, bind_of_ok hptr, bind_of_ok (zeroPage_eq m₁ (out 0))]
    rfl

/-! ## Structures that are not linked yet -/

/-- The paths of the structures, out of those with paths in `V`, that are not linked in the page
table with the PML4 at `root`. -/
def missing (m : Machine σ) (root : BitVec 64) (V : Finset (List Index)) : Finset (List Index) :=
  V.filter fun q => follow slot (entries m) 0 root q = none

/-- The allocator has a frame for every structure that is missing. -/
def Supplied (A : PhysicalAllocator σ) (m : Machine σ) (root : BitVec 64)
    (V : Finset (List Index)) : Prop :=
  Supplies A m.Accessible (missing m root V).card m.allocator

instance (A : PhysicalAllocator σ) (m : Machine σ) (root : BitVec 64) (V : Finset (List Index)) :
    Decidable (Supplied A m root V) :=
  inferInstanceAs (Decidable (Supplies _ _ _ _))

/-- A structure that is linked is not missing. -/
theorem not_mem_missing {q : List Index} (h : Leads slot (entries m) root q t) :
    q ∉ missing m root V := by
  intro hq
  have hnone := (Finset.mem_filter.mp hq).2
  rw [follow_eq_some_iff.mpr h] at hnone
  cases hnone

/-- If no link is lost, no structure gets missing. -/
theorem missing_subset (h : ∀ q t, Leads slot (entries m) root q t →
    Leads slot (entries m') root q t) : missing m' root V ⊆ missing m root V := by
  intro q hq
  obtain ⟨hV, hnone⟩ := Finset.mem_filter.mp hq
  refine Finset.mem_filter.mpr ⟨hV, ?_⟩
  rcases hfollow : follow slot (entries m) 0 root q with _ | t
  · rfl
  · rw [follow_eq_some_iff.mpr (h q t (follow_eq_some_iff.mp hfollow))] at hnone
    cases hnone

/-- The structure behind an absent entry is missing. -/
theorem mem_missing {p : List Index} {i : Index} (hleads : Leads slot (entries m) root p t)
    (hV : p ++ [i] ∈ V) (habsent : present (entries m t i) = false) :
    p ++ [i] ∈ missing m root V := by
  refine Finset.mem_filter.mpr ⟨hV, ?_⟩
  rcases hfollow : follow slot (entries m) 0 root (p ++ [i]) with _ | u
  · rfl
  · obtain ⟨t', ht', hslot⟩ := (follow_snoc 0).mp hfollow
    rw [follow_eq_some_iff.mpr hleads, Option.some.injEq] at ht'
    rw [← ht', Paging.slot_of_absent habsent] at hslot
    cases hslot

/-! ## Mapping pages -/

/-- One level of `mapPage` finds or links the next structure if the entry does not map a large page
and there are enough frames; afterwards there are still enough. -/
theorem Paging.descend_returns (hA : HandsOutFresh A held) (h : Paging held m roots label)
    {base : Set (BitVec 64)} (hbase : base ⊆ held m.allocator)
    (hcanon : nonCanonical virt = false) {p : List Index} (hroot : label root = some [])
    (hleads : Leads slot (entries m) root p t) {i : Index} (hpath : p ++ [i] <+: path virt)
    (hV : p ++ [i] ∈ V) {largeError : Option ℤ}
    (hlevel : (p.length = 0 ∧ largeError = none) ∨
      ((p.length = 1 ∨ p.length = 2) ∧ ∃ code < 0, largeError = some code))
    (hleaf : slot p.length (entries m t i) ≠ .leaf) (hsupply : Supplied A m root V) :
    ∃ t' m' label', descend A virt t (i.setWidth 64) largeError m = .ok (.ok t', m') ∧
      Grows held base roots root virt m m' label label' ∧
      Leads slot (entries m') root (p ++ [i]) t' ∧ Supplied A m' root V := by
  have ht := hleads.label_eq h.labelled hroot
  -- it returns, with one frame less if it takes one
  have hreturns : ∃ t' m', descend A virt t (i.setWidth 64) largeError m = .ok (.ok t', m') ∧
      (m' = m ∨ p ++ [i] ∈ missing m root V ∧
        Supplies A m.Accessible ((missing m root V).card - 1) m'.allocator) := by
    unfold descend
    rw [bind_of_ok (readTable_eq (h.accessible ht) i)]
    rcases hpresent : present (entries m t i) with _ | _
    · have hmem := mem_missing hleads hV hpresent
      have hpos : (missing m root V).card - 1 + 1 = (missing m root V).card :=
        Nat.sub_add_cancel (Finset.card_pos.mpr ⟨_, hmem⟩)
      rw [Supplied, ← hpos] at hsupply
      obtain ⟨page, m₁, halloc, hne, hrest⟩ := allocPage_returns hsupply
      obtain ⟨hframe, hacc, hfresh, s, hs, rfl⟩ := allocPage_ok hA halloc
      have hgrows := Grows.alloc base root virt h hframe hfresh hs
      refine ⟨tableAddr (tableEntry page virt),
        (Machine.zero { m with allocator := s } page).write t i (tableEntry page virt), ?_,
        Or.inr ⟨hmem, hrest⟩⟩
      rw [if_neg (by simp), bind_of_ok halloc, if_neg hne,
        bind_of_ok (writeTable_eq (hgrows.paging.accessible ht) i _)]
      rfl
    · refine ⟨tableAddr (entries m t i), m, ?_, Or.inl rfl⟩
      rw [if_pos rfl]
      rcases hlevel with ⟨-, rfl⟩ | ⟨hmid, code, -, rfl⟩
      · rfl
      · rw [slot_mid hmid hpresent] at hleaf
        dsimp only
        rw [if_neg fun hlarge => hleaf (if_pos hlarge)]
        rfl
  obtain ⟨t', m', hdesc, hcases⟩ := hreturns
  obtain ⟨label', hgrows, ⟨_, heq, hslot⟩ | ⟨code, -, heq⟩⟩ :=
    h.descend_ok hA hbase root hcanon hroot hleads hpath hlevel hdesc
  swap
  · cases heq
  obtain rfl := Except.ok.inj heq
  have hkeep : ∀ q u, Leads slot (entries m) root q u → Leads slot (entries m') root q u :=
    fun q u => hgrows.leads h.labelled hroot
  have hleads' := (hkeep p t hleads).snoc hslot
  refine ⟨t', m', label', hdesc, hgrows, hleads', ?_⟩
  rcases hcases with rfl | ⟨hmem, hrest⟩
  · exact hsupply
  · -- the structure that was linked is not missing any more
    have hlt : (missing m' root V).card < (missing m root V).card :=
      Finset.card_lt_card ⟨missing_subset hkeep, fun hsub => not_mem_missing hleads' (hsub hmem)⟩
    rw [Supplied, hgrows.accessible]
    exact hrest.mono (by omega)

/-- On the way to its page table, the entries for an address map nothing. -/
theorem NotLarge.slot_ne_leaf (h : NotLarge m root virt) {p : List Index} {i : Index}
    {rest : List Index} (hleads : Leads slot (entries m) root p t)
    (hpath : p ++ i :: rest = path virt) (hlen : p.length ≤ 2) :
    slot p.length (entries m t i) ≠ .leaf := by
  intro hleaf
  have hlookup : lookup m root virt = some (p.length, entries m t i) := by
    rw [lookup, ← hpath, hleads.walk_append, walk_of_leaf hleaf]
  have hlast := h _ _ hlookup
  omega

/-- The paths of the structures that an address is translated by, below the PML4. -/
def structurePaths (virt : BitVec 64) : Finset (List Index) :=
  {[virt.extractLsb' 39 9], [virt.extractLsb' 39 9, virt.extractLsb' 30 9], tablePath virt}

/-- Writing an entry of a page table loses no link. -/
theorem Paging.leads_write_page (h : Paging held m roots label) (hroot : label root = some [])
    {t : BitVec 64} (ht : label t = some (tablePath virt)) (i : Index) (e : BitVec 64)
    {q : List Index} {u : BitVec 64} (hleads : Leads slot (entries m) root q u) :
    Leads slot (entries (m.write t i e)) root q u := by
  refine hleads.congr h.labelled hroot fun v pv j rest t' hv _ hnext => ?_
  rw [entries_write (h.isFrame ht) (h.isFrame hv), if_neg]
  rintro ⟨⟩
  obtain rfl : tablePath virt = pv := Option.some.inj (ht.symm.trans hv)
  exact absurd (slot_eq_next hnext).1 (by simp [tablePath])

/-- `mapPage` succeeds if there are enough frames for the structures that are missing. -/
theorem Paging.mapPage_returns (hA : HandsOutFresh A held) (h : Paging held m roots label)
    (hroot : label pt.pml4Phys = some []) (hcanon : nonCanonical virt = false)
    (hlarge : NotLarge m pt.pml4Phys virt) (hV : structurePaths virt ⊆ V)
    (hsupply : Supplied A m pt.pml4Phys V) (phys : BitVec 64) (mode : Mode) :
    ∃ m' label', mapPage A pt phys virt mode m = .ok (0, m') ∧
      Mapped held roots pt.pml4Phys virt (pageEntry phys mode) m m' label label' ∧
      Supplied A m' pt.pml4Phys V := by
  have hlarge' : ∀ {m' : Machine σ} {label' : Labels (BitVec 64) Index},
      Grows held (held m.allocator) roots pt.pml4Phys virt m m' label label' →
        NotLarge m' pt.pml4Phys virt := by
    intro m' label' hgrows d e hlookup
    exact hlarge d e ((hgrows.walk_eq (path virt) hroot).symm.trans hlookup)
  -- the PML4
  obtain ⟨pdpt, m₄, label₄, hdesc₄, hgrows₄, hleads₄, hsupply₄⟩ :=
    h.descend_returns hA Set.Subset.rfl hcanon hroot .nil ⟨_, rfl⟩ (hV (by simp [structurePaths]))
      (Or.inl ⟨rfl, rfl⟩) (hlarge.slot_ne_leaf .nil rfl (by simp)) hsupply
  have hroot₄ := hgrows₄.mono hroot
  -- the PDPT
  obtain ⟨pdt, m₃, label₃, hdesc₃, hgrows₃, hleads₃, hsupply₃⟩ :=
    hgrows₄.paging.descend_returns hA hgrows₄.held_subset hcanon hroot₄ hleads₄ ⟨_, rfl⟩
      (hV (by simp [structurePaths])) (Or.inr ⟨Or.inl rfl, -1002, by omega, rfl⟩)
      ((hlarge' hgrows₄).slot_ne_leaf hleads₄ rfl (by simp)) hsupply₄
  have hroot₃ := hgrows₃.mono hroot₄
  -- the page directory
  obtain ⟨ptAddr, m₂, label₂, hdesc₂, hgrows₂, hleads₂, hsupply₂⟩ :=
    hgrows₃.paging.descend_returns hA (hgrows₄.trans hgrows₃).held_subset hcanon hroot₃ hleads₃
      ⟨_, rfl⟩ (hV (by simp [structurePaths, tablePath]))
      (Or.inr ⟨Or.inr rfl, -1003, by omega, rfl⟩)
      ((hlarge' (hgrows₄.trans hgrows₃)).slot_ne_leaf hleads₃ rfl (by simp)) hsupply₃
  have hgrows := (hgrows₄.trans hgrows₃).trans hgrows₂
  have hroot₂ := hgrows₂.mono hroot₃
  have hptAddr := hleads₂.label_eq hgrows₂.paging.labelled hroot₂
  -- the page table
  refine ⟨m₂.write ptAddr (pageIndex virt) (pageEntry phys mode), label₂, ?_,
    ⟨m₂, ptAddr, hgrows, hleads₂, rfl⟩, ?_⟩
  · unfold mapPage
    rw [if_neg (by simp [hcanon]), tableIndex_eq virt (by omega), tableIndex_eq virt (by omega),
      tableIndex_eq virt (by omega), tableIndex_eq virt (by omega), bind_of_ok hdesc₄]
    dsimp only
    rw [bind_of_ok hdesc₃]
    dsimp only
    rw [bind_of_ok hdesc₂]
    dsimp only
    rw [bind_of_ok (writeTable_eq (hgrows₂.paging.accessible hptAddr) _ _)]
    rfl
  · have hlost := missing_subset (V := V) fun q u =>
      hgrows₂.paging.leads_write_page hroot₂ hptAddr (pageIndex virt) (pageEntry phys mode)
        (q := q) (u := u)
    exact hsupply₂.mono (Finset.card_le_card hlost)

/-- The paths of the structures that the pages of a range are translated by. -/
def rangePaths (start : BitVec 64) (n : ℕ) : Finset (List Index) :=
  (Finset.range n).biUnion fun i => structurePaths (pageAt start i)

theorem structurePaths_subset {start : BitVec 64} {n i : ℕ} (hi : i < n) :
    structurePaths (pageAt start i) ⊆ rangePaths start n :=
  Finset.subset_biUnion_of_mem (fun i => structurePaths (pageAt start i)) (Finset.mem_range.mpr hi)

/-- The loop over a range of pages returns if there are enough frames for the structures that are
missing. -/
theorem Paging.mapPages_returns (hA : HandsOutFresh A held) (h : Paging held m roots label)
    (hroot : label pt.pml4Phys = some []) {start : BitVec 64} {n : ℕ}
    (hrange : PageRange start n)
    (hlarge : ∀ i < n, NotLarge m pt.pml4Phys (pageAt start i))
    (hV : ∀ i < n, structurePaths (pageAt start i) ⊆ V) (hsupply : Supplied A m pt.pml4Phys V)
    (phys : ℕ → BitVec 64) (mode : Mode) (i : ℕ) :
    ∃ m', mapPages A pt phys mode start i n m = .ok ((), m') := by
  induction n generalizing start i m label with
  | zero => exact ⟨m, rfl⟩
  | succ n ih =>
    have hfirst : pageAt start 0 = start := pageAt_zero start
    have hbase := hrange.pageBase_pageAt (i := 0) (by omega)
    rw [hfirst] at hbase
    -- the first page
    obtain ⟨m₁, label₁, hmap, hmapped, hsupply₁⟩ :=
      h.mapPage_returns hA hroot hrange.head (hfirst ▸ hlarge 0 (by omega))
        (hfirst ▸ hV 0 (by omega)) hsupply (phys i) mode
    -- the others are not affected
    have hlarge₁ : ∀ k < n, NotLarge m₁ pt.pml4Phys
        (pageAt (start + BitVec.ofNat 64 pageSize) k) := by
      intro k hk d e hlookup
      have hne : pageBase (pageAt start (k + 1)) ≠ pageBase start := by
        rw [hrange.pageBase_pageAt (by omega), hbase]
        exact fun heq => hrange.pageAt_ne (i := k + 1) (j := 0) (by omega) (by omega) (by omega)
          (heq.trans hfirst.symm)
      have hsame := hmapped.walk_eq hroot hroot
        (not_prefix_path hrange.head (hrange.canonical (k + 1) (by omega)) hne)
      rw [← pageAt_succ] at hlookup
      exact hlarge (k + 1) (by omega) d e (hsame.symm.trans hlookup)
    obtain ⟨m', hrest⟩ := ih (hmapped.paging hroot) (hmapped.mono hroot) hrange.tail hlarge₁
      (fun k hk => by
        rw [← pageAt_succ]
        exact hV (k + 1) (by omega)) hsupply₁ (i + 1)
    refine ⟨m', ?_⟩
    have hzero : requireM ((0 : ℤ) == 0) m₁ = .ok ((), m₁) := requireM_of_true rfl
    rw [mapPages, bind_of_ok hmap, bind_of_ok hzero, hrest]

end KushOs.Vm
