import KushOs.Kernel.Vm.VAlloc
import Mathlib.Data.List.Pairwise
import Mathlib.Tactic.Linarith

/-!
# The invariant of the virtual page allocator

The cursor never moves back, so ranges lie one behind the other with guard pages between them; the
physical pages of live allocations are held and never become paging structures; and what lies
outside the live ranges is unmapped. Each call keeps this, so every state of every run is sound.

## Main results

* `VAllocState.Inv.alloc`, `VAllocState.Inv.free`: the calls keep the invariant.
* `valloc_sound`: every state of every run is sound.
-/

namespace KushOs.Vm

open Memory RadixTable KernelM PageTable PageAllocator Transition

variable {σ : Type} {A : PhysicalAllocator σ} {held : σ → Set (BitVec 64)}
variable {roots : List (BitVec 64)} {pt : PageTable} {s t : VAllocState σ}

/-- A page of a range or of its guard pages is outside every range apart from it. -/
theorem Allocation.Apart.outside {a b : Allocation} (hapart : a.Apart b)
    (ha : VAllocRange a.start (a.numPages + kNumGuardPages)) (hb : VAllocRange b.start b.numPages)
    {i : ℕ} (hi : i < a.numPages + kNumGuardPages) :
    OutsideRange b.start b.numPages (pageAt a.start i) := by
  have hle : (i + 1) * pageSize ≤ (a.numPages + kNumGuardPages) * pageSize :=
    Nat.mul_le_mul_right _ hi
  refine hb.outside ?_
  rw [ha.toNat_pageAt hi.le]
  unfold Allocation.Apart Allocation.stop at hapart
  rcases hapart with hbehind | hbefore
  · exact Or.inl (by linarith)
  · exact Or.inr (by linarith)

namespace VAllocState.Inv

/-- Guard pages are not part of the range. -/
theorem range_pages (h : s.Inv held roots pt) {a : Allocation} (ha : a ∈ s.live ++ s.freed) :
    VAllocRange a.start a.numPages :=
  (h.range a ha).of_le (Nat.le_add_right _ _)

/-- A failed `VAlloc` only changes the physical allocator. -/
theorem failed (h : s.Inv held roots pt) {a : σ}
    (hheld : held s.machine.allocator ⊆ held a) :
    Inv held roots pt { s with machine := { s.machine with allocator := a } } := by
  obtain ⟨label, hp, hroot, hnone⟩ := h.paging
  exact ⟨⟨label, hp.withAllocator fun t p ht => hheld (hp.mem_held ht), hroot, hnone⟩,
    fun a ha p hpage => ⟨(h.frames a ha p hpage).1, hheld (h.frames a ha p hpage).2⟩, h.nodup,
    h.length, h.cursor, h.range, h.below, h.apart, h.mapped, h.unmapped, h.counted, h.bound⟩

/-! ### A range at the cursor -/

section Next

variable {a : Allocation} {m' : Machine σ}

/-- The cursor moves behind the guard pages. -/
theorem cursor_next (h : s.Inv held roots pt) (hstart : a.start = s.globals.gAllocCursor)
    (hrange : VAllocRange a.start (a.numPages + kNumGuardPages)) (total : BitVec 64) :
    CursorOk ⟨pageAt a.start (a.numPages + kNumGuardPages), total⟩ := by
  refine ⟨?_, ?_, ?_⟩
  · rw [hrange.toNat_pageAt le_rfl, Nat.add_mul_mod_self_right, hstart]
    exact h.cursor.aligned
  · rw [hrange.toNat_pageAt le_rfl, hstart]
    exact h.cursor.lo.trans (Nat.le_add_right _ _)
  · rw [hrange.toNat_pageAt le_rfl]
    exact hrange.hi

/-- The ranges so far lie before it. -/
theorem apart_next (h : s.Inv held roots pt) (hstart : a.start = s.globals.gAllocCursor)
    {b : Allocation} (hb : b ∈ s.live ++ s.freed) : b.Apart a :=
  Or.inl (hstart ▸ h.below b hb)

theorem below_next (h : s.Inv held roots pt) (hstart : a.start = s.globals.gAllocCursor)
    (hrange : VAllocRange a.start (a.numPages + kNumGuardPages)) {b : Allocation}
    (hb : b ∈ a :: (s.live ++ s.freed)) :
    b.stop + kNumGuardPages * pageSize ≤
      (pageAt a.start (a.numPages + kNumGuardPages)).toNat := by
  rw [hrange.toNat_pageAt le_rfl]
  rcases List.mem_cons.mp hb with rfl | hb
  · rw [Allocation.stop, Nat.add_mul, Nat.add_assoc]
  · exact (h.below b hb).trans (hstart ▸ Nat.le_add_right _ _)

/-- As many pages as the range has are counted. -/
theorem counted_next (h : s.Inv held roots pt) (hle : a.numPages ≤ kMaxAllocPages) :
    (s.globals.gPagesAllocated + BitVec.ofNat 64 a.numPages).toNat =
      a.numPages + s.livePages := by
  have hbound := h.bound
  have hhi := h.cursor.hi
  have hend : vAllocEnd.toNat + 1 < 2 ^ 64 := by decide
  have hsmall : a.numPages + s.livePages < 2 ^ 64 := by
    simp only [kMaxAllocPages, pageSize] at hbound hle
    omega
  rw [BitVec.toNat_add, BitVec.toNat_ofNat, h.counted, Nat.add_mod_mod, Nat.add_comm,
    Nat.mod_eq_of_lt hsmall]

theorem bound_next (h : s.Inv held roots pt) (hstart : a.start = s.globals.gAllocCursor)
    (hrange : VAllocRange a.start (a.numPages + kNumGuardPages)) :
    vAllocStart.toNat + (a.numPages + s.livePages) * pageSize ≤
      (pageAt a.start (a.numPages + kNumGuardPages)).toNat := by
  have hbound := h.bound
  rw [hrange.toNat_pageAt le_rfl, hstart, Nat.add_mul, Nat.add_mul]
  linarith

/-- The other ranges stay mapped. -/
theorem mapped_next (h : s.Inv held roots pt) (hstart : a.start = s.globals.gAllocCursor)
    (hrange : VAllocRange a.start (a.numPages + kNumGuardPages))
    (hmapped : ∀ i p, a.pages[i]? = some p →
      lookup m' pt.pml4Phys (pageAt a.start i) = some (3, pageEntry p Mode.kernelRW))
    (hothers : ∀ w, nonCanonical w = false → OutsideRange a.start a.numPages w →
      lookup m' pt.pml4Phys w = lookup s.machine pt.pml4Phys w) {b : Allocation}
    (hb : b ∈ a :: s.live) {i : ℕ} {p : BitVec 64} (hi : b.pages[i]? = some p) :
    lookup m' pt.pml4Phys (pageAt b.start i) = some (3, pageEntry p Mode.kernelRW) := by
  rcases List.mem_cons.mp hb with rfl | hb
  · exact hmapped i p hi
  have hmem := List.mem_append_left s.freed hb
  have hlt : i < b.numPages := by
    rw [← h.length b hb]
    exact (List.getElem?_eq_some_iff.mp hi).1
  have hout : OutsideRange a.start a.numPages (pageAt b.start i) :=
    (h.apart_next hstart hmem).outside (h.range b hmem)
      (hrange.of_le (Nat.le_add_right _ _)) (Nat.lt_add_right _ hlt)
  rw [hothers _ ((h.range_pages hmem).canonical hlt) hout]
  exact h.mapped b hb i p hi

end Next

/-- A successful `VAlloc` adds a range at the cursor. -/
theorem alloc (hA : HandsOutFresh A held) (h : s.Inv held roots pt) {length : ℕ}
    (hlen : length ≤ kMaxAllocPages * pageSize) {ptr : BitVec 64} (hptr : ptr ≠ 0)
    {m' : Machine σ} {g' : PageAllocator} {count : ℤ} {phys : AddrBuffer} {a' : σ}
    (halloc : PageAllocator.alloc A pt s.globals length s.machine = .ok ((ptr, g'), m'))
    (hpages : A.allocatePages s.machine.allocator (pagesFor length) (fun _ => 0) =
      .ok (count, phys, a')) :
    Inv held roots pt { s with
      machine := m'
      globals := g'
      live := ⟨ptr, length, firstPages (pagesFor length) phys⟩ :: s.live } := by
  obtain ⟨label, hp, hroot, hnone⟩ := h.paging
  obtain ⟨hnull, -⟩ |
      ⟨hstart, hrange, rfl, _, _, _, label', hsame, hcount, hext, hmapped, hothers⟩ :=
    alloc_ok hA hp hroot h.cursor hlen halloc
  · exact absurd hnull hptr
  -- the pages recorded for the new range are those that the call was served with
  obtain ⟨rfl, rfl, rfl⟩ : count = _ ∧ phys = _ ∧ a' = _ := by
    simpa using hpages.symm.trans hsame
  obtain ⟨hnodup, hfresh, hheld⟩ := hA.allocate hpages
  set a : Allocation := ⟨ptr, length, firstPages (pagesFor length) phys⟩
  have hsub : ∀ p ∈ a.pages, p ∈ handedOut count phys := (firstPages_subset hcount).subset
  have hold : held s.machine.allocator ⊆ held a' := hheld ▸ Set.subset_union_left
  have hnew : ∀ p ∈ a.pages, p ∈ held a' := fun p hpage => hheld ▸ Or.inr (hsub p hpage)
  -- in the list of pages instead of the array that they came in
  have hmapped' : ∀ i p, a.pages[i]? = some p →
      lookup m' pt.pml4Phys (pageAt a.start i) = some (3, pageEntry p Mode.kernelRW) := by
    intro i p hi
    obtain ⟨hlt, rfl⟩ := List.getElem?_eq_some_iff.mp hi
    simp only [a, firstPages, List.length_map, List.length_range] at hlt
    simpa [a, firstPages] using hmapped i hlt
  have hstart : a.start = s.globals.gAllocCursor := hstart
  have hrange : VAllocRange a.start (a.numPages + kNumGuardPages) := hrange
  have hsum : ∀ g, livePages { s with machine := m', globals := g, live := a :: s.live } =
      a.numPages + s.livePages := by
    intro g
    simp [livePages]
  refine ⟨⟨label', hext.paging, hext.mono hroot, ?_⟩, ?_, ?_, ?_, h.cursor_next hstart hrange _, ?_,
    fun b hb => h.below_next hstart hrange hb, ?_,
    fun b hb i p hi => h.mapped_next hstart hrange hmapped' hothers hb hi, ?_, ?_, ?_⟩
  · -- paging
    rintro b hb p hpage
    rcases List.mem_cons.mp hb with rfl | hb
    · exact hext.label_eq_none (hnew p hpage)
        (Grows.label_of_fresh hp (hfresh p (hsub p hpage)).2)
    · exact hext.label_eq_none (hold (h.frames b hb p hpage).2) (hnone b hb p hpage)
  · -- frames
    rintro b hb p hpage
    rcases List.mem_cons.mp hb with rfl | hb
    · exact ⟨(hfresh p (hsub p hpage)).1, hext.held_subset (hnew p hpage)⟩
    · exact ⟨(h.frames b hb p hpage).1, hext.held_subset (hold (h.frames b hb p hpage).2)⟩
  · -- nodup
    rw [List.flatMap_cons, List.nodup_append]
    refine ⟨(firstPages_subset hcount).nodup hnodup, h.nodup, ?_⟩
    rintro p hpage q hq rfl
    obtain ⟨b, hb, hpage'⟩ := List.mem_flatMap.mp hq
    exact (hfresh p (hsub p hpage)).2 (h.frames b hb p hpage').2
  · -- length
    rintro b hb
    rcases List.mem_cons.mp hb with rfl | hb
    · simp [a, firstPages, Allocation.numPages]
    · exact h.length b hb
  · -- range
    rintro b hb
    rcases List.mem_cons.mp hb with rfl | hb
    · exact hrange
    · exact h.range b hb
  · -- apart
    exact List.pairwise_cons.mpr ⟨fun b hb => (h.apart_next hstart hb).symm, h.apart⟩
  · -- unmapped
    intro v hlo hhi hout
    rw [hothers v (nonCanonical_of_le hlo) (hout a List.mem_cons_self)]
    exact h.unmapped v hlo hhi fun b hb => hout b (List.mem_cons_of_mem _ hb)
  · -- counted
    have hle : a.numPages ≤ kMaxAllocPages := pagesFor_le hlen
    rw [hsum]
    have hcounted := h.counted_next hle
    show (s.globals.gPagesAllocated + BitVec.ofNat 64 (pagesFor length)).toNat = _
    exact hcounted
  · -- bound
    rw [hsum]
    exact h.bound_next hstart hrange

/-! ### The ranges without a live one -/

section Rest

variable {a : Allocation} {m' : Machine σ}

/-- Without `a`, and with it in front. -/
theorem perm_rest (ha : a ∈ s.live) :
    (s.live ++ s.freed).Perm (s.live.erase a ++ a :: s.freed) :=
  ((List.perm_cons_erase ha).append_right s.freed).trans List.perm_middle.symm

/-- Another live range does not have its physical pages. -/
theorem nodup_rest (h : s.Inv held roots pt) (ha : a ∈ s.live) :
    (a.pages ++ (s.live.erase a).flatMap Allocation.pages).Nodup := by
  rw [← List.flatMap_cons]
  exact ((List.perm_cons_erase ha).flatMap_right Allocation.pages).nodup_iff.mp h.nodup

theorem not_mem_pages_of_rest (h : s.Inv held roots pt) (ha : a ∈ s.live) {b : Allocation}
    (hb : b ∈ s.live.erase a) {p : BitVec 64} (hpage : p ∈ b.pages) : p ∉ a.pages := fun hmem =>
  (List.nodup_append.mp (h.nodup_rest ha)).2.2 p hmem p (List.mem_flatMap.mpr ⟨b, hb, hpage⟩) rfl

/-- Its pages are outside of `a`. -/
theorem outside_rest (h : s.Inv held roots pt) (ha : a ∈ s.live) {b : Allocation}
    (hb : b ∈ s.live.erase a) {i : ℕ} (hi : i < b.numPages) :
    OutsideRange a.start a.numPages (pageAt b.start i) := by
  have hpairs : (a :: s.live.erase a).Pairwise Allocation.Apart :=
    ((List.perm_cons_erase ha).pairwise_iff Allocation.Apart.symm).mp
      (List.pairwise_append.mp h.apart).1
  have hapart := (List.pairwise_cons.mp hpairs).1 b hb
  have hmem := List.mem_append_left s.freed (List.mem_of_mem_erase hb)
  exact hapart.symm.outside (h.range b hmem)
    (h.range_pages (List.mem_append_left s.freed ha)) (Nat.lt_add_right _ hi)

theorem livePages_rest (ha : a ∈ s.live) :
    s.livePages = a.numPages + ((s.live.erase a).map Allocation.numPages).sum := by
  rw [livePages, ((List.perm_cons_erase ha).map _).sum_nat, List.map_cons, List.sum_cons]

/-- The pages of `a` are no longer counted. -/
theorem counted_rest (h : s.Inv held roots pt) (ha : a ∈ s.live) :
    (s.globals.gPagesAllocated - BitVec.ofNat 64 a.numPages).toNat =
      ((s.live.erase a).map Allocation.numPages).sum := by
  have hcount := h.counted
  have hsum := livePages_rest ha
  have hlt : s.globals.gPagesAllocated.toNat < 2 ^ 64 := BitVec.isLt _
  rw [BitVec.toNat_sub, BitVec.toNat_ofNat]
  omega

/-- The others stay mapped. -/
theorem mapped_rest (h : s.Inv held roots pt) (ha : a ∈ s.live)
    (hothers : ∀ w, nonCanonical w = false → OutsideRange a.start a.numPages w →
      lookup m' pt.pml4Phys w = lookup s.machine pt.pml4Phys w) {b : Allocation}
    (hb : b ∈ s.live.erase a) {i : ℕ} {p : BitVec 64} (hi : b.pages[i]? = some p) :
    lookup m' pt.pml4Phys (pageAt b.start i) = some (3, pageEntry p Mode.kernelRW) := by
  have hlive := List.mem_of_mem_erase hb
  have hlt : i < b.numPages := by
    rw [← h.length b hlive]
    exact (List.getElem?_eq_some_iff.mp hi).1
  rw [hothers _ ((h.range_pages (List.mem_append_left _ hlive)).canonical hlt)
    (h.outside_rest ha hb hlt)]
  exact h.mapped b hlive i p hi

/-- What lies outside of them is unmapped, also in `a`. -/
theorem unmapped_rest (h : s.Inv held roots pt) (ha : a ∈ s.live)
    (hcleared : ∀ i < a.numPages, lookup m' pt.pml4Phys (pageAt a.start i) = none)
    (hothers : ∀ w, nonCanonical w = false → OutsideRange a.start a.numPages w →
      lookup m' pt.pml4Phys w = lookup s.machine pt.pml4Phys w) {v : BitVec 64}
    (hlo : vAllocStart.toNat ≤ v.toNat) (hhi : v.toNat ≤ vAllocEnd.toNat)
    (hout : ∀ b ∈ s.live.erase a, OutsideRange b.start b.numPages v) :
    lookup m' pt.pml4Phys v = none := by
  by_cases hin : OutsideRange a.start a.numPages v
  · rw [hothers v (nonCanonical_of_le hlo) hin]
    refine h.unmapped v hlo hhi fun b hb => ?_
    rcases List.mem_cons.mp ((List.perm_cons_erase ha).mem_iff.mp hb) with rfl | hb
    · exact hin
    · exact hout b hb
  · -- an address in a page that was unmapped
    unfold OutsideRange at hin
    push Not at hin
    obtain ⟨i, hi, hpage⟩ := hin
    have hcleared := hcleared i hi
    rwa [← hpage, lookup_pageBase] at hcleared

end Rest

/-- A `VFree` moves a range from the live to the freed ones. -/
theorem free (hA : HandsOutFresh A held) (h : s.Inv held roots pt) {a : Allocation}
    (ha : a ∈ s.live) {m' : Machine σ} {g' : PageAllocator}
    (hfree : PageAllocator.free A pt s.globals a.start a.length s.machine = .ok (g', m')) :
    Inv held roots pt ⟨m', g', s.live.erase a, a :: s.freed⟩ := by
  obtain ⟨label, hp, hroot, hnone⟩ := h.paging
  have hrange := h.range_pages (List.mem_append_left s.freed ha)
  obtain ⟨rfl, m₁, a', hkeeps, rfl, hheld, hcleared, hothers⟩ :=
    free_ok hA hp hroot (fun p hpage => (h.frames a ha p hpage).1) (h.length a ha) hrange
      (h.mapped a ha) hfree
  have hall := perm_rest ha
  have hrest : ∀ b ∈ s.live.erase a, b ∈ s.live := fun b hb => List.mem_of_mem_erase hb
  refine ⟨⟨label, hkeeps.paging.withAllocator ?_, hroot, fun b hb => hnone b (hrest b hb)⟩, ?_,
    (List.nodup_append.mp (h.nodup_rest ha)).2.1, fun b hb => h.length b (hrest b hb),
    ⟨h.cursor.aligned, h.cursor.lo, h.cursor.hi⟩, fun b hb => h.range b (hall.mem_iff.mpr hb),
    fun b hb => h.below b (hall.mem_iff.mpr hb),
    (hall.pairwise_iff Allocation.Apart.symm).mp h.apart,
    fun b hb i p hi => h.mapped_rest ha hothers hb hi,
    fun v hlo hhi hout => h.unmapped_rest ha hcleared hothers hlo hhi hout, h.counted_rest ha, ?_⟩
  · -- paging: structures are not among the pages given back
    intro t p ht
    refine hheld t (hp.mem_held ht) fun hpage => ?_
    rw [hnone a ha t hpage] at ht
    cases ht
  · -- frames
    intro b hb p hpage
    obtain ⟨hframe, hmem⟩ := h.frames b (hrest b hb) p hpage
    exact ⟨hframe, hheld p hmem (h.not_mem_pages_of_rest ha hb hpage)⟩
  · -- bound
    have hbound := h.bound
    rw [livePages_rest ha, Nat.add_mul] at hbound
    exact le_trans (Nat.add_le_add_left (Nat.le_add_left _ _) _) hbound

/-- Every call keeps the invariant. -/
theorem step (hA : HandsOutFresh A held) (h : s.Inv held roots pt) {op : VAllocOp}
    (hstep : VAllocStep A pt s op t) : t.Inv held roots pt := by
  cases hstep with
  | failed hpos hlen halloc =>
    obtain ⟨label, hp, hroot, -⟩ := h.paging
    rcases alloc_ok hA hp hroot h.cursor hlen halloc with
      ⟨-, rfl, a, rfl, hheld⟩ | ⟨-, hrange, -⟩
    · exact h.failed hheld
    · -- the cursor is not the null pointer
      exact absurd hrange.lo (by decide)
  | allocated hpos hlen hptr halloc hpages => exact h.alloc hA hlen hptr halloc hpages
  | freed ha hfree => exact h.free hA ha hfree

/-- States with the invariant are sound. -/
theorem sound (h : s.Inv held roots pt) : s.Sound held pt := by
  obtain ⟨label, hp, hroot, -⟩ := h.paging
  have hreport : ∀ v : BitVec 64, vAllocStart.toNat ≤ v.toNat → v.toNat ≤ vAllocEnd.toNat →
      (∀ a ∈ s.live, OutsideRange a.start a.numPages v) →
        pt.report v s.machine = .ok (0, none) := by
    intro v hlo hhi hout
    rw [hp.report_eq hroot (nonCanonical_of_le hlo), h.unmapped v hlo hhi hout]
    rfl
  -- a page of a range or behind it, within its guard pages, is outside every range apart from it
  have hpage : ∀ a ∈ s.live ++ s.freed, ∀ i < a.numPages + kNumGuardPages,
      vAllocStart.toNat ≤ (pageAt a.start i).toNat ∧
        (pageAt a.start i).toNat ≤ vAllocEnd.toNat ∧
          ∀ b ∈ s.live, a.Apart b → OutsideRange b.start b.numPages (pageAt a.start i) := by
    intro a ha i hi
    have hrange := h.range a ha
    have hle : (i + 1) * pageSize ≤ (a.numPages + kNumGuardPages) * pageSize :=
      Nat.mul_le_mul_right _ hi
    have hhi := hrange.hi
    have hlo := hrange.lo
    rw [hrange.toNat_pageAt hi.le]
    refine ⟨by linarith, by linarith, fun b hb hapart => ?_⟩
    exact hapart.outside hrange (h.range_pages (List.mem_append_left _ hb)) hi
  have hpairs := List.pairwise_append.mp h.apart
  refine ⟨fun a ha => (h.range a (List.mem_append_left _ ha)).aligned, ?_, ?_, ?_, ?_,
    fun a ha p hp => (h.frames a ha p hp).2, h.nodup, ?_, h.counted⟩
  · -- disjoint
    refine hpairs.1.imp fun {a b} hapart => ?_
    exact hapart.imp (le_trans (Nat.le_add_right _ _)) (le_trans (Nat.le_add_right _ _))
  · -- inside
    intro a ha
    have hrange := h.range a (List.mem_append_left _ ha)
    refine ⟨hrange.lo, ?_⟩
    have hhi := hrange.hi
    rw [Nat.add_mul, ← Nat.add_assoc] at hhi
    exact hhi
  · -- guarded
    intro a ha i hi
    obtain ⟨hlo, hhi, hout⟩ :=
      hpage a (List.mem_append_left _ ha) (a.numPages + i) (Nat.add_lt_add_left hi _)
    refine hreport _ hlo hhi fun b hb => ?_
    by_cases hab : a = b
    · -- the guard pages of a range are behind it
      subst hab
      refine (h.range_pages (List.mem_append_left _ ha)).outside (Or.inr ?_)
      rw [(h.range a (List.mem_append_left _ ha)).toNat_pageAt (by omega), Nat.add_mul]
      omega
    · exact hout b hb (hpairs.1.forall ha hb hab)
  · -- translated
    intro a ha i hi
    have hrange := h.range_pages (List.mem_append_left s.freed ha)
    have hlt : i < a.pages.length := (h.length a ha).symm ▸ hi
    have hget := List.getElem?_eq_getElem hlt
    have hframe := (h.frames a ha _ (List.getElem_mem hlt)).1
    have htranslate := translation_pageEntry hframe (pageAt a.start i) Mode.kernelRW (o := 0)
      (by omega)
    rw [hrange.pageBase_pageAt hi.le, BitVec.add_zero, BitVec.add_zero] at htranslate
    refine ⟨a.pages[i], (decodePTE (pageEntry a.pages[i] Mode.kernelRW)).2, hget, ?_⟩
    rw [hp.report_eq hroot (hrange.canonical hi), h.mapped a ha i _ hget, htranslate]
  · -- unmapped
    intro a ha i hi
    obtain ⟨hlo, hhi, hout⟩ := hpage a (List.mem_append_right _ ha) i (by omega)
    exact hreport _ hlo hhi fun b hb => hout b hb (hpairs.2.2 b hb a ha).symm

end VAllocState.Inv

/-- Before the first call, in a state in which nothing is mapped in the region. -/
theorem VAllocState.Inv.init {m : Machine σ} {label : Labels (BitVec 64) Index}
    (hp : Paging held m roots label) (hroot : label pt.pml4Phys = some [])
    (hunmapped : ∀ v : BitVec 64, vAllocStart.toNat ≤ v.toNat → v.toNat ≤ vAllocEnd.toNat →
      pt.report v m = .ok (0, none)) :
    VAllocState.Inv held roots pt ⟨m, .init, [], []⟩ := by
  refine ⟨⟨label, hp, hroot, by simp⟩, by simp, by simp, by simp, .init, by simp, by simp, by simp,
    by simp, fun v hlo hhi _ => ?_, rfl, by simp [livePages, PageAllocator.init]⟩
  have hreport := hunmapped v hlo hhi
  rw [hp.report_eq hroot (nonCanonical_of_le hlo), Except.ok.injEq] at hreport
  -- every entry is reported with an address
  rcases hlookup : lookup m pt.pml4Phys v with _ | ⟨d, e⟩
  · rfl
  · rw [hlookup] at hreport
    unfold translation at hreport
    split at hreport <;> simp_all

/-- Every state of a run that starts with nothing mapped in the region has the invariant. -/
theorem VAllocState.Inv.run (hA : HandsOutFresh A held) {m : Machine σ} {boot : TablesState σ}
    {setup : List TablesOp} {calls : List VAllocOp} (hboot : Run (TablesStep A) ⟨m, []⟩ setup boot)
    (hpt : pt ∈ boot.tables)
    (hunmapped : ∀ v : BitVec 64, vAllocStart.toNat ≤ v.toNat → v.toNat ≤ vAllocEnd.toNat →
      pt.report v boot.machine = .ok (0, none))
    (hrun : Run (VAllocStep A pt) ⟨boot.machine, .init, [], []⟩ calls s) :
    s.Inv held boot.roots pt := by
  obtain ⟨label, hp⟩ := (TablesState.Inv.init m).run hA hboot
  have hroot := hp.labelled.root _ (TablesState.mem_roots hpt)
  have hstep : ∀ (s : VAllocState σ) (op : VAllocOp) (t : VAllocState σ),
      s.Inv held boot.roots pt → VAllocStep A pt s op t → t.Inv held boot.roots pt :=
    fun s op t hinv hstep => hinv.step hA hstep
  exact Run.preserves hstep hrun (VAllocState.Inv.init hp hroot hunmapped)

/-- In every state of every run of `VAlloc` and `VFree` that starts with nothing mapped in the
region, the allocator is sound. -/
theorem valloc_sound (hA : HandsOutFresh A held) {m : Machine σ} {boot : TablesState σ}
    {setup : List TablesOp} {calls : List VAllocOp} (hboot : Run (TablesStep A) ⟨m, []⟩ setup boot)
    (hpt : pt ∈ boot.tables)
    (hunmapped : ∀ v : BitVec 64, vAllocStart.toNat ≤ v.toNat → v.toNat ≤ vAllocEnd.toNat →
      pt.report v boot.machine = .ok (0, none))
    (hrun : Run (VAllocStep A pt) ⟨boot.machine, .init, [], []⟩ calls s) : s.Sound held pt :=
  (VAllocState.Inv.run hA hboot hpt hunmapped hrun).sound

/-- Nothing is mapped in the region by a page table that is constructed without a parent and without
the aperture. -/
theorem report_of_create (hA : HandsOutFresh A held) {m m₁ : Machine σ}
    (hfirst : m.isFirstPageTable = true)
    (hcreate : TablesStep A ⟨m, []⟩ (.create none) ⟨m₁, [pt]⟩) {v : BitVec 64}
    (hlo : vAllocStart.toNat ≤ v.toNat) : pt.report v m₁ = .ok (0, none) := by
  obtain ⟨⟨label, hp⟩, q, parent, hparent, htables, -, hentry, -⟩ :=
    hcreate.sound hA (TablesState.Inv.init m)
  obtain rfl : pt = q := by simpa using htables
  obtain rfl : parent = none := hparent
  -- the new PML4 is empty
  have habsent : present (entries m₁ pt.pml4Phys (v.extractLsb' 39 9)) = false := by
    rcases hentry (v.extractLsb' 39 9) with hzero | ⟨hnotFirst, -⟩
    · exact (congrArg present hzero).trans (by simp [inherited, present])
    · cases hfirst.symm.trans hnotFirst
  have hpt : pt ∈ [pt] := List.mem_singleton_self pt
  rw [hp.report_eq (hp.labelled.root _ (TablesState.mem_roots hpt)) (nonCanonical_of_le hlo),
    Paging.lookup_of_absent habsent]
  rfl

/-- A call of `VAlloc` that returns a pointer is a step. -/
theorem VAllocState.Inv.exists_step (hA : HandsOutFresh A held) (h : s.Inv held roots pt)
    {length : ℕ} (hpos : 0 < length) (hlen : length ≤ kMaxAllocPages * pageSize)
    {ptr : BitVec 64} (hptr : ptr ≠ 0) {m' : Machine σ} {g' : PageAllocator}
    (halloc : PageAllocator.alloc A pt s.globals length s.machine = .ok ((ptr, g'), m')) :
    ∃ phys, VAllocStep A pt s (.vAlloc length)
      { s with
        machine := m'
        globals := g'
        live := ⟨ptr, length, firstPages (pagesFor length) phys⟩ :: s.live } := by
  obtain ⟨label, hp, hroot, -⟩ := h.paging
  obtain ⟨hnull, -⟩ | ⟨-, -, -, count, phys, a, -, hpages, -⟩ :=
    alloc_ok hA hp hroot h.cursor hlen halloc
  · exact absurd hnull hptr
  exact ⟨phys, .allocated hpos hlen hptr halloc hpages⟩

/-- The run that constructs a page table and allocates one byte. -/
theorem run_of_alloc (hA : HandsOutFresh A held) {m m₁ m₂ : Machine σ} {g : PageAllocator}
    (hfirst : m.isFirstPageTable = true) (hnew : PageTable.new A none m = .ok (pt, m₁))
    (halloc : PageAllocator.alloc A pt .init 1 m₁ = .ok ((vAllocStart, g), m₂)) :
    Run (TablesStep A) ⟨m, []⟩ [.create none] ⟨m₁, [pt]⟩ ∧
      (∀ v : BitVec 64, vAllocStart.toNat ≤ v.toNat → v.toNat ≤ vAllocEnd.toNat →
        pt.report v m₁ = .ok (0, none)) ∧
      ∃ phys, Run (VAllocStep A pt) ⟨m₁, .init, [], []⟩ [.vAlloc 1]
        ⟨m₂, g, [⟨vAllocStart, 1, firstPages (pagesFor 1) phys⟩], []⟩ := by
  have hcreate : TablesStep A ⟨m, []⟩ (.create none) ⟨m₁, [pt]⟩ := .create rfl hnew
  have hrun : Run (TablesStep A) ⟨m, []⟩ [.create none] ⟨m₁, [pt]⟩ := .cons hcreate (.nil _)
  have hunmapped : ∀ v : BitVec 64, vAllocStart.toNat ≤ v.toNat → v.toNat ≤ vAllocEnd.toNat →
      pt.report v m₁ = .ok (0, none) := fun _ hlo _ => report_of_create hA hfirst hcreate hlo
  have hinv := VAllocState.Inv.run hA hrun (List.mem_singleton_self pt) hunmapped (.nil _)
  obtain ⟨phys, hstep⟩ := hinv.exists_step hA (by decide) (by decide) (by decide) halloc
  exact ⟨hrun, hunmapped, phys, .cons hstep (.nil _)⟩

/-- One byte and three pages are allocated on the large machine, and the first page is freed. -/
theorem valloc_sound_large : ∃ pt m₁ s a b,
    Run (VAllocStep (poolAllocator largeRanges) pt) ⟨m₁, .init, [], []⟩
      [.vAlloc 1, .vAlloc 0x2001, .vFree vAllocStart 1] s ∧
    s.live = [b] ∧ b.start = pageAt vAllocStart (1 + kNumGuardPages) ∧ b.numPages = 3 ∧
    s.freed = [a] ∧ a.start = vAllocStart ∧ s.Sound heldPages pt := by
  have hA : HandsOutFresh (poolAllocator largeRanges) heldPages :=
    poolAllocator_handsOutFresh (by decide)
  have hreturns : returns (do
      let pt ← PageTable.new (poolAllocator largeRanges) none
      let r ← PageAllocator.alloc (poolAllocator largeRanges) pt .init 1
      let r' ← PageAllocator.alloc (poolAllocator largeRanges) pt r.2 0x2001
      let _ ← PageAllocator.free (poolAllocator largeRanges) pt r'.2 vAllocStart 1
      return (r.1, r'.1)) largeMachine
      (· == (vAllocStart, pageAt vAllocStart (1 + kNumGuardPages))) = true := by
    decide +kernel
  obtain ⟨ptrs, m₄, hok, hptrs⟩ := exists_of_returns hreturns
  obtain ⟨pt, m₁, hnew, hok⟩ := bind_eq_ok.mp hok
  obtain ⟨⟨ptr, g⟩, m₂, halloc, hok⟩ := bind_eq_ok.mp hok
  obtain ⟨⟨ptr', g'⟩, m₃, halloc', hok⟩ := bind_eq_ok.mp hok
  obtain ⟨g'', m₅, hfree, hok⟩ := bind_eq_ok.mp hok
  obtain ⟨rfl, rfl⟩ := pure_eq_ok.mp hok
  obtain ⟨rfl, rfl⟩ := Prod.mk.inj (beq_iff_eq.mp hptrs)
  obtain ⟨hboot, hunmapped, phys, hrun⟩ := run_of_alloc hA rfl hnew halloc
  have hpt := List.mem_singleton_self pt
  -- the second allocation lies behind the guard pages of the first
  obtain ⟨phys', hstep⟩ := (VAllocState.Inv.run hA hboot hpt hunmapped hrun).exists_step hA
    (by decide) (by decide) (by decide) halloc'
  have hrun' := (hrun.append (.cons hstep (.nil _))).append
    (.cons (.freed (List.mem_cons_of_mem _ List.mem_cons_self) hfree) (.nil _))
  refine ⟨pt, m₁, _, ⟨vAllocStart, 1, firstPages (pagesFor 1) phys⟩,
    ⟨_, 0x2001, firstPages (pagesFor 0x2001) phys'⟩, hrun', ?_, rfl,
    (by decide : pagesFor 0x2001 = 3), rfl, rfl, valloc_sound hA hboot hpt hunmapped hrun'⟩
  rw [List.erase_cons_tail fun heq => absurd (congrArg Allocation.length (beq_iff_eq.mp heq))
    (by decide : 0x2001 ≠ 1), List.erase_cons_head]
  rfl

end KushOs.Vm
