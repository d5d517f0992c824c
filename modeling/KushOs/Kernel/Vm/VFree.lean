import KushOs.Kernel.Memory.Restore
import KushOs.Kernel.Vm.VAllocRun

/-!
# Freeing a live allocation

`Free` reads the physical pages of a range, unmaps the range and gives the pages to `FreePages`,
which must take all of them. Reading and unmapping never fail for a live allocation, so the call
goes through exactly when `Region::contains` recognises every page.

## Main definitions

* `FreesFully`: what `VFree` of a live allocation should do.

## Main results

* `vfree_inverts_valloc`: in every state of every run, it does so for the allocations whose pages
  are all recognised, and for no others.
-/

namespace KushOs.Vm

open Memory RadixTable KernelM PageTable PageAllocator Transition

variable {σ : Type} {A : PhysicalAllocator σ} {held : σ → Set (BitVec 64)}
variable {roots : List (BitVec 64)} {label : Labels (BitVec 64) Index} {pt : PageTable}
variable {s : VAllocState σ} {a : Allocation}

theorem pagesFor_pos {length : ℕ} (hpos : 0 < length)
    (hlen : length ≤ kMaxAllocPages * pageSize) : 0 < pagesFor length := by
  unfold pagesFor nearestPageSize
  simp only [kMaxAllocPages, pageSize] at hlen ⊢
  split <;> omega

/-- Until it releases the physical pages, `Free` of a live allocation goes through. -/
theorem VAllocState.Inv.free_eq (h : s.Inv held roots pt) (ha : a ∈ s.live) (hpos : 0 < a.length)
    (hlen : a.length ≤ kMaxAllocPages * pageSize) :
    ∃ m₁, m₁.allocator = s.machine.allocator ∧
      PageAllocator.free A pt s.globals a.start a.length s.machine =
        (do
          let err ← KernelM.freePages A a.pages
          requireM (toSize err == a.numPages)
          return { s.globals with
            gPagesAllocated := s.globals.gPagesAllocated - BitVec.ofNat 64 a.numPages }) m₁ := by
  obtain ⟨label, hp, hroot, -⟩ := h.paging
  have hrange := h.range_pages (List.mem_append_left s.freed ha)
  have hlength := h.length a ha
  -- before the release, the loop over the mapping finds the recorded pages and `unmap` returns 0
  have hread := hp.physLoop_eq hroot (fun p hpage => (h.frames a ha p hpage).1)
    (hlength.symm ▸ hrange) (h.mapped a ha)
  obtain ⟨m₁, hunmap⟩ := hp.unmapLoop_returns hroot hrange
  have hkeeps := hp.unmapLoop_keeps hroot hunmap
  refine ⟨m₁, hkeeps.allocator, ?_⟩
  -- none of the checks of the arguments stops the call
  have hstart : a.start ≠ 0#64 := by
    intro hzero
    have hlo := hrange.lo
    rw [hzero] at hlo
    exact absurd hlo (by decide)
  have hnonzero : nearestPageSize a.length ≠ 0 := by
    rw [← pagesFor_mul]
    exact (Nat.mul_pos (pagesFor_pos hpos hlen) (by decide)).ne'
  have hargs : requireM (a.start != 0 && a.length != 0) s.machine = .ok ((), s.machine) :=
    requireM_of_true (by simp [hstart, hpos.ne'])
  have haligned : requireM (a.start.toNat % pageSize == 0) s.machine = .ok ((), s.machine) :=
    requireM_of_true (by simp [hrange.aligned])
  have hunmap' : PageTable.unmap pt a.start (nearestPageSize a.length) s.machine = .ok (0, m₁) := by
    unfold PageTable.unmap
    rw [if_neg]
    · exact hunmap
    rintro (hzero | hoff | hzero | hoff)
    · exact hstart hzero
    · exact hoff hrange.aligned
    · exact hnonzero hzero
    · rw [← pagesFor_mul, Nat.mul_mod_left] at hoff
      exact hoff rfl
  have hzero : requireM ((0 : ℤ) == 0) m₁ = .ok ((), m₁) := requireM_of_true rfl
  rw [hlength] at hread
  change physLoop pt a.start (nearestPageSize a.length / pageSize) _ = _ at hread
  unfold PageAllocator.free
  rw [bind_of_ok hargs, bind_of_ok haligned]
  dsimp only
  rw [bind_of_ok hread, bind_of_ok hunmap', bind_of_ok hzero]
  rfl

variable {specs : List (BitVec 64 × ℕ)} {t : VAllocState (ReachedPool specs)}

/-- `VFree` of the allocation returns. Its pages are unmapped, other addresses translate as before,
its physical pages are free, and the counter drops by their number. -/
def FreesFully (pt : PageTable) (t : VAllocState (ReachedPool specs)) (a : Allocation) : Prop :=
  ∃ g m, PageAllocator.free (poolAllocator specs) pt t.globals a.start a.length t.machine =
      .ok (g, m) ∧
    (∀ i < a.numPages, pt.report (pageAt a.start i) m = .ok (0, none)) ∧
    (∀ w, OutsideRange a.start a.numPages w → pt.report w m = pt.report w t.machine) ∧
    (∀ p ∈ a.pages, Available m.allocator.val.pool p) ∧
    g.gPagesAllocated.toNat + a.numPages = t.globals.gPagesAllocated.toNat

/-- The pool recognises every page of the allocation. -/
def Recognised (t : VAllocState (ReachedPool specs)) (a : Allocation) : Prop :=
  ∀ p ∈ a.pages, Pool.contains t.machine.allocator.val.pool.regions p = true

section

variable (h : t.Inv heldPages roots pt) (ha : a ∈ t.live) (hpos : 0 < a.length)
variable (hlen : a.length ≤ kMaxAllocPages * pageSize)

include h ha in
theorem VAllocState.Inv.numPages_le : a.numPages ≤ t.globals.gPagesAllocated.toNat := by
  rw [h.counted]
  exact List.le_sum_of_mem (List.mem_map_of_mem ha)

include h ha in
theorem VAllocState.Inv.pages_held :
    a.pages.Nodup ∧ ∀ p ∈ a.pages, p ∈ t.machine.allocator.val.held :=
  ⟨(List.nodup_flatMap.mp h.nodup).1 a ha, fun p hp => (h.frames a ha p hp).2⟩

include h ha hpos hlen

/-- A call that returns has released every page. -/
theorem recognised_of_free {g : PageAllocator} {m : Machine (ReachedPool specs)}
    (hfree : PageAllocator.free (poolAllocator specs) pt t.globals a.start a.length t.machine =
      .ok (g, m)) : Recognised t a := by
  have hlength := h.length a ha
  have hle := pagesFor_le hlen
  obtain ⟨m₁, halloc, heq⟩ := h.free_eq ha hpos hlen
  rw [heq] at hfree
  obtain ⟨count, m₂, hrelease, hfree⟩ := bind_eq_ok.mp hfree
  obtain ⟨_, m₃, hcount, -⟩ := bind_eq_ok.mp hfree
  obtain ⟨hcount, -⟩ := requireM_eq_ok.mp hcount
  obtain ⟨s', hrelease, -⟩ := KernelM.freePages_eq_ok.mp hrelease
  rw [halloc] at hrelease
  obtain ⟨-, hpool, -⟩ := poolAllocator_freePages_eq_ok.mp hrelease
  obtain ⟨-, hpool⟩ := Pool.freePages_eq_ok.mp hpool
  have hint : a.pages.length < 2 ^ 31 := by
    rw [hlength, Allocation.numPages]
    simp only [kMaxAllocPages] at hle
    omega
  obtain ⟨-, hpool, -⟩ := (Pool.free_eq_ok_iff t.machine.allocator.property.layout
    (List.countP_le_length.trans_lt hint)).mp hpool
  -- the count that is compared is that of the recognised pages
  have hsmall : a.pages.countP (Pool.contains t.machine.allocator.val.pool.regions) < 2 ^ 64 :=
    List.countP_le_length.trans_lt (hint.trans (by decide))
  rw [← hpool, toSize_natCast hsmall, beq_iff_eq, ← hlength] at hcount
  exact List.countP_eq_length.mp hcount

/-- If every page is recognised, the call returns. -/
theorem Recognised.free (hrec : Recognised t a) :
    ∃ m, PageAllocator.free (poolAllocator specs) pt t.globals a.start a.length t.machine =
        .ok ({ t.globals with
          gPagesAllocated := t.globals.gPagesAllocated - BitVec.ofNat 64 a.numPages }, m) ∧
      ∀ p ∈ a.pages, Available m.allocator.val.pool p := by
  obtain ⟨hnodup, hmem⟩ := h.pages_held ha
  have hlength := h.length a ha
  have hle := pagesFor_le hlen
  have hint : a.pages.length < 2 ^ 31 := by
    rw [hlength, Allocation.numPages]
    simp only [kMaxAllocPages] at hle
    omega
  have hne : a.pages ≠ [] := by
    intro hnil
    rw [hnil] at hlength
    exact (pagesFor_pos hpos hlen).ne hlength
  -- the release reaches the pool, which counts every page, and the count passes the check
  obtain ⟨pool, hfree, havail, -⟩ :=
    (t.machine.allocator.property.freesExactly_iff hnodup hmem).mpr ⟨hne, hint, hrec⟩
  obtain ⟨m₁, halloc, heq⟩ := h.free_eq (A := poolAllocator specs) ha hpos hlen
  let s' : ReachedPool specs := ⟨_, t.machine.allocator.property.freePages hnodup hmem hfree⟩
  have hrelease : KernelM.freePages (poolAllocator specs) a.pages m₁ =
      .ok ((a.pages.length : ℤ), { m₁ with allocator := s' }) := by
    refine KernelM.freePages_eq_ok.mpr ⟨s', ?_, rfl⟩
    rw [halloc]
    exact poolAllocator_freePages_eq_ok.mpr ⟨⟨hnodup, hmem⟩, hfree, rfl⟩
  have hcount : requireM (toSize (a.pages.length : ℤ) == a.numPages)
      { m₁ with allocator := s' } = .ok ((), { m₁ with allocator := s' }) := by
    refine requireM_of_true ?_
    rw [toSize_natCast (hint.trans (by decide)), hlength, beq_self_eq_true]
  refine ⟨{ m₁ with allocator := s' }, ?_, fun p hp => (havail p).mpr (Or.inr hp)⟩
  rw [heq, bind_of_ok hrelease, bind_of_ok hcount]
  rfl

/-- `VFree` of a live allocation does what it should exactly when every page is recognised. -/
theorem freesFully_iff (hA : HandsOutFresh (poolAllocator specs) heldPages) :
    FreesFully pt t a ↔ Recognised t a := by
  constructor
  · rintro ⟨g, m, hfree, -⟩
    exact recognised_of_free h ha hpos hlen hfree
  intro hrec
  obtain ⟨m, hfree, havail⟩ := hrec.free h ha hpos hlen
  obtain ⟨label, hp, hroot, hdata⟩ := h.paging
  have hrange := h.range_pages (List.mem_append_left t.freed ha)
  obtain ⟨-, m₁, s', hkeeps, rfl, hheld, hnone, hothers⟩ :=
    free_ok hA hp hroot (fun p hpage => (h.frames a ha p hpage).1) (h.length a ha) hrange
      (h.mapped a ha) hfree
  -- no structure is among the pages given back, so reports are still translations
  have hp' : Paging heldPages { m₁ with allocator := s' } roots label :=
    hkeeps.paging.withAllocator fun u p hu => hheld u (hp.mem_held hu) fun hpage => by
      rw [hdata a ha u hpage] at hu
      cases hu
  refine ⟨_, _, hfree, fun i hi => ?_, fun w hw => ?_, havail, ?_⟩
  · rw [hp'.report_eq hroot (hrange.canonical hi), hnone i hi]
    rfl
  · rcases hcanon : nonCanonical w with _ | _
    · rw [hp'.report_eq hroot hcanon, hp.report_eq hroot hcanon, hothers w hcanon hw]
    · rw [Paging.report_of_nonCanonical hcanon, Paging.report_of_nonCanonical hcanon]
  · have hle := h.numPages_le ha
    have hlt := t.globals.gPagesAllocated.isLt
    rw [BitVec.toNat_sub, BitVec.toNat_ofNat]
    omega

end

/-- The lengths of live allocations are those of the calls. -/
theorem VAllocStep.lengths {s t : VAllocState σ} {op : VAllocOp} (hstep : VAllocStep A pt s op t)
    (h : ∀ a ∈ s.live, 0 < a.length ∧ a.length ≤ kMaxAllocPages * pageSize) :
    ∀ a ∈ t.live, 0 < a.length ∧ a.length ≤ kMaxAllocPages * pageSize := by
  cases hstep with
  | failed _ _ _ => exact h
  | allocated hpos hlen _ _ _ =>
    intro a ha
    rcases List.mem_cons.mp ha with rfl | ha
    · exact ⟨hpos, hlen⟩
    · exact h a ha
  | freed _ _ => exact fun a ha => h a (List.mem_of_mem_erase ha)

/-- In every state of every run over a pool whose requests are served in range, `VFree` of a live
allocation does what it should exactly when every physical page of the allocation is recognised. -/
theorem vfree_inverts_valloc (hspecs : ∀ x ∈ specs, x.1.toNat + x.2 ≤ 2 ^ 52)
    {m : Machine (ReachedPool specs)} {boot : TablesState (ReachedPool specs)}
    {setup : List TablesOp} {calls : List VAllocOp}
    (hboot : Run (TablesStep (poolAllocator specs)) ⟨m, []⟩ setup boot) (hpt : pt ∈ boot.tables)
    (hunmapped : ∀ v : BitVec 64, vAllocStart.toNat ≤ v.toNat → v.toNat ≤ vAllocEnd.toNat →
      pt.report v boot.machine = .ok (0, none))
    (hrun : Run (VAllocStep (poolAllocator specs) pt) ⟨boot.machine, .init, [], []⟩ calls t)
    (ha : a ∈ t.live) : FreesFully pt t a ↔ Recognised t a := by
  have hA := poolAllocator_handsOutFresh hspecs
  obtain ⟨hpos, hlen⟩ := Run.preserves (fun _ _ _ hlengths hstep => hstep.lengths hlengths) hrun
    (by simp) a ha
  exact freesFully_iff (VAllocState.Inv.run hA hboot hpt hunmapped hrun) ha hpos hlen hA

/-- One byte is allocated on the large machine and freed. -/
theorem vfree_inverts_valloc_large :
    ∃ (pt : PageTable) (t : VAllocState (ReachedPool largeRanges)) (a : Allocation),
      t.live = [a] ∧ FreesFully pt t a := by
  have hspecs : ∀ x ∈ largeRanges, x.1.toNat + x.2 ≤ 2 ^ 52 := by decide
  have hA := poolAllocator_handsOutFresh hspecs
  have hreturns : returns (do
      let pt ← PageTable.new (poolAllocator largeRanges) none
      let r ← PageAllocator.alloc (poolAllocator largeRanges) pt .init 1
      let _ ← PageAllocator.free (poolAllocator largeRanges) pt r.2 vAllocStart 1
      return r.1) largeMachine (· == vAllocStart) = true := by
    decide +kernel
  obtain ⟨ptr, m₃, hok, hptr⟩ := exists_of_returns hreturns
  obtain ⟨pt, m₁, hnew, hok⟩ := bind_eq_ok.mp hok
  obtain ⟨⟨_, g⟩, m₂, halloc, hok⟩ := bind_eq_ok.mp hok
  obtain ⟨_, m₄, hfree, hok⟩ := bind_eq_ok.mp hok
  obtain ⟨rfl, rfl⟩ := pure_eq_ok.mp hok
  obtain rfl := beq_iff_eq.mp hptr
  obtain ⟨hboot, hunmapped, phys, hrun⟩ := run_of_alloc hA rfl hnew halloc
  refine ⟨pt, _, _, rfl, (vfree_inverts_valloc hspecs hboot (List.mem_singleton_self pt) hunmapped
    hrun List.mem_cons_self).mpr ?_⟩
  exact recognised_of_free
    (VAllocState.Inv.run hA hboot (List.mem_singleton_self pt) hunmapped hrun)
    List.mem_cons_self Nat.one_pos (by decide : 1 ≤ kMaxAllocPages * pageSize) hfree

/-- On the small machine the page of the allocation is not recognised, and freeing it panics. -/
theorem vfree_not_inverts_valloc :
    ¬ ∀ (specs : List (BitVec 64 × ℕ)) (m : Machine (ReachedPool specs))
      (boot : TablesState (ReachedPool specs)) (setup : List TablesOp) (calls : List VAllocOp)
      (pt : PageTable) (t : VAllocState (ReachedPool specs)) (a : Allocation),
      (∀ x ∈ specs, x.1.toNat + x.2 ≤ 2 ^ 52) →
      Run (TablesStep (poolAllocator specs)) ⟨m, []⟩ setup boot → pt ∈ boot.tables →
      (∀ v : BitVec 64, vAllocStart.toNat ≤ v.toNat → v.toNat ≤ vAllocEnd.toNat →
        pt.report v boot.machine = .ok (0, none)) →
      Run (VAllocStep (poolAllocator specs) pt) ⟨boot.machine, .init, [], []⟩ calls t →
      a ∈ t.live → FreesFully pt t a := by
  intro h
  have hreturns : returns (do
      let pt ← PageTable.new (poolAllocator smallRanges) none
      PageAllocator.alloc (poolAllocator smallRanges) pt .init 1) smallMachine
      (·.1 == vAllocStart) = true := by
    decide +kernel
  obtain ⟨⟨ptr, g⟩, m₂, hok, hptr⟩ := exists_of_returns hreturns
  obtain rfl := beq_iff_eq.mp hptr
  obtain ⟨pt, m₁, hnew, halloc⟩ := bind_eq_ok.mp hok
  obtain ⟨hboot, hunmapped, phys, hrun⟩ := run_of_alloc smallRanges_handsOutFresh rfl hnew halloc
  obtain ⟨g', m', hfree, -⟩ := h _ _ _ _ _ pt _ _ (by decide) hboot (List.mem_singleton_self pt)
    hunmapped hrun List.mem_cons_self
  -- the same allocation, followed by a release, does not return
  have hpanics : returns (do
      let pt ← PageTable.new (poolAllocator smallRanges) none
      let r ← PageAllocator.alloc (poolAllocator smallRanges) pt .init 1
      PageAllocator.free (poolAllocator smallRanges) pt r.2 vAllocStart 1) smallMachine
      (fun _ => true) = false := by
    decide +kernel
  rw [returns, bind_of_ok hnew, bind_of_ok halloc, hfree] at hpanics
  cases hpanics

end KushOs.Vm
