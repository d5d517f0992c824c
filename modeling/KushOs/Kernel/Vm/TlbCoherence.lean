import KushOs.Kernel.Vm.Tlb
import KushOs.Kernel.Vm.UserRights
import KushOs.Kernel.Vm.VFree

/-!
# No stale translations

Whatever a processor takes into its TLB and drops from it while the page allocator works, it agrees
with the page tables except on the pages that `Free` has unmapped and not invalidated yet. When
physical pages are given back there are none of these, and the region maps live allocations only, so
nothing reaches the pages through it.

## Main definitions

* `TlbEvent.event`, `TlbEvent.remoteEvent`: what an event is to the processor that runs the code,
  and to another one.
* `Unreachable`: no address of the region is translated to some physical pages.
* `Coherent`: what a call does to the TLB.

## Main results

* `Traced.alloc_coherent`, `Traced.free_coherent`: one call.
* `released_frames_unreachable`, `shootdown_missing`: whole runs.
-/

namespace KushOs.Vm

open Memory RadixTable KernelM PageTable PageAllocator Transition TranslationCache TracedM

variable {σ : Type} {A : PhysicalAllocator σ} {held : σ → Set (BitVec 64)} {m m' m'' : Machine σ}
variable {roots : List (BitVec 64)} {label : Labels (BitVec 64) Index} {pt : PageTable}
variable {s t : VAllocState σ} {es fs : List (TlbEvent σ)} {d s₁ s₂ : Set (BitVec 64)}

/-! ## Events -/

/-- Caches of translations of virtual addresses. -/
abbrev TlbContents := Set (BitVec 64 × Access)

/-- What an event is to the TLB of the processor that runs the code. -/
def TlbEvent.event (pt : PageTable) : TlbEvent σ → Event (BitVec 64) Access (List (BitVec 64))
  | .tables m => .tables (hardwareAccess m pt.pml4Phys)
  | .invlpg address => .flush {v | pageBase v = pageBase address}
  | .release pages => .mark pages

/-- What an event is to the TLB of another processor, which executes no `INVLPG`. -/
def TlbEvent.remoteEvent (pt : PageTable) : TlbEvent σ → Event (BitVec 64) Access (List (BitVec 64))
  | .tables m => .tables (hardwareAccess m pt.pml4Phys)
  | .invlpg _ => .flush ∅
  | .release pages => .mark pages

/-- No address is stale, and none in the region is translated to these physical pages. -/
def Unreachable (pages : List (BitVec 64)) (w : BitVec 64 → Option Access)
    (stale : Set (BitVec 64)) : Prop :=
  stale = ∅ ∧ ∀ v acc, InRegion v → w v = some acc → pageBase acc.phys ∉ pages

/-- The addresses in the pages of a range. -/
def rangeSet (start : BitVec 64) (n : ℕ) : Set (BitVec 64) := {v | ¬ OutsideRange start n v}

/-- The events lead from the page tables of one machine to those of the other, release nothing, and
make no addresses stale but some of `s`. -/
structure Quiet (pt : PageTable) (m m' : Machine σ) (es : List (TlbEvent σ))
    (s : Set (BitVec 64)) : Prop where
  latest : latest (hardwareAccess m pt.pml4Phys) (es.map (·.event pt)) =
    hardwareAccess m' pt.pml4Phys
  stale : ∀ d, stale (hardwareAccess m pt.pml4Phys) d (es.map (·.event pt)) ⊆ d ∪ s
  marks : ∀ P d, AtMarks P (hardwareAccess m pt.pml4Phys) d (es.map (·.event pt))

namespace Quiet

theorem nil (pt : PageTable) (m : Machine σ) (s : Set (BitVec 64)) : Quiet pt m m [] s :=
  ⟨rfl, fun _ => Set.subset_union_left, fun _ _ => trivial⟩

/-- One change of the page tables. -/
theorem tables (h : changed (hardwareAccess m pt.pml4Phys) (hardwareAccess m' pt.pml4Phys) ⊆ s₁) :
    Quiet pt m m' [.tables m'] s₁ :=
  ⟨rfl, fun _ => Set.union_subset_union_right _ h, fun _ _ => trivial⟩

theorem append (h : Quiet pt m m' es s₁) (h' : Quiet pt m' m'' fs s₂) :
    Quiet pt m m'' (es ++ fs) (s₁ ∪ s₂) := by
  refine ⟨?_, fun d => ?_, fun P d => ?_⟩ <;> rw [List.map_append]
  · rw [latest_append, h.latest, h'.latest]
  · rw [stale_append, h.latest, ← Set.union_assoc]
    exact (h'.stale _).trans (Set.union_subset_union_left _ (h.stale d))
  · rw [atMarks_append, h.latest]
    exact ⟨h.marks P d, h'.marks P _⟩

theorem mono (h : Quiet pt m m' es s₁) (hsub : s₁ ⊆ s₂) : Quiet pt m m' es s₂ :=
  ⟨h.latest, fun d => (h.stale d).trans (Set.union_subset_union_right _ hsub), h.marks⟩

end Quiet

/-- After the events no address is stale, and when physical pages are given back none is, nor is one
of the region translated to them. -/
structure Coherent (pt : PageTable) (m m' : Machine σ) (es : List (TlbEvent σ)) : Prop where
  latest : latest (hardwareAccess m pt.pml4Phys) (es.map (·.event pt)) =
    hardwareAccess m' pt.pml4Phys
  stale : stale (hardwareAccess m pt.pml4Phys) ∅ (es.map (·.event pt)) = ∅
  marks : AtMarks Unreachable (hardwareAccess m pt.pml4Phys) ∅ (es.map (·.event pt))

namespace Coherent

theorem nil (h : hardwareAccess m pt.pml4Phys = hardwareAccess m' pt.pml4Phys) :
    Coherent pt m m' [] :=
  ⟨h, rfl, trivial⟩

/-- Only what the processor finds matters. -/
theorem congr (h : Coherent pt m m'' es)
    (heq : hardwareAccess m' pt.pml4Phys = hardwareAccess m pt.pml4Phys) :
    Coherent pt m' m'' es := by
  obtain ⟨hlatest, hstale, hmarks⟩ := h
  rw [← heq] at hlatest hstale hmarks
  exact ⟨hlatest, hstale, hmarks⟩

theorem of_quiet (h : Quiet pt m m' es ∅) : Coherent pt m m' es := by
  refine ⟨h.latest, Set.eq_empty_of_subset_empty ?_, h.marks _ _⟩
  simpa using h.stale ∅

theorem append (h : Coherent pt m m' es) (h' : Coherent pt m' m'' fs) :
    Coherent pt m m'' (es ++ fs) := by
  refine ⟨?_, ?_, ?_⟩ <;> rw [List.map_append]
  · rw [latest_append, h.latest, h'.latest]
  · rw [stale_append, h.latest, h.stale, h'.stale]
  · rw [atMarks_append, h.latest, h.stale]
    exact ⟨h.marks, h'.marks⟩

/-- Physical pages that no address of the region is translated to are given back. -/
theorem release {pages : List (BitVec 64)} {a : σ}
    (h : ∀ v acc, InRegion v → hardwareAccess m pt.pml4Phys v = some acc →
      pageBase acc.phys ∉ pages) :
    Coherent pt m { m with allocator := a } [.release pages] :=
  ⟨rfl, rfl, ⟨rfl, h⟩, trivial⟩

end Coherent

/-- Invalidating the pages of the range leaves nothing stale. -/
theorem Quiet.flushed {start : BitVec 64} {n : ℕ} (hrange : VAllocRange start n)
    (h : Quiet pt m m' es (rangeSet start n)) : Coherent pt m m' (es ++ invlpgs start n) := by
  have hevents : (invlpgs start n : List (TlbEvent σ)).map (·.event pt) =
      (List.range n).map fun i => .flush {v | pageBase v = pageBase (pageAt start i)} := by
    rw [invlpgs, List.map_map]
    rfl
  refine ⟨?_, ?_, ?_⟩ <;> rw [List.map_append, hevents]
  · rw [latest_append, latest_map_flush, h.latest]
  · rw [stale_append, stale_map_flush, Set.eq_empty_iff_forall_notMem]
    rintro v ⟨hstale, hkept⟩
    -- every stale address is in a page that is invalidated
    rcases h.stale ∅ hstale with hempty | hin
    · exact hempty
    refine hin fun i hi hpage => hkept ⟨i, List.mem_range.mpr hi, ?_⟩
    rw [Set.mem_ofPred_eq, hpage, hrange.pageBase_pageAt hi.le]
  · rw [atMarks_append]
    exact ⟨h.marks _ _, atMarks_map_flush _ _⟩

/-! ## The loops -/

/-- Mapping pages that were not mapped makes nothing stale. -/
theorem Traced.mapLoop_quiet (hA : HandsOutFresh A held) (h : Paging held m roots label)
    (hroot : label pt.pml4Phys = some []) {phys : AddrBuffer} {start : BitVec 64} {i n : ℕ}
    (hrange : VAllocRange start n) (hnone : ∀ k < n, lookup m pt.pml4Phys (pageAt start k) = none)
    {u : Unit} (hrun : (Traced.mapLoop A pt phys start i n).run m = .ok ((u, es), m')) :
    Quiet pt m m' es ∅ := by
  induction n generalizing start i m label es with
  | zero =>
    obtain ⟨-, rfl, rfl⟩ := run_pure_eq_ok.mp hrun
    exact .nil pt m ∅
  | succ n ih =>
    obtain ⟨err, m₁, fs, hpage, hnext, rfl⟩ := run_observed_bind_eq_ok.mp hrun
    obtain ⟨hzero, hrest⟩ := run_requireM_bind_eq_ok.mp hnext
    obtain rfl : err = 0 := by simpa using hzero
    have hstart := hrange.canonical (i := 0) (by omega)
    have hbase := hrange.pageBase_pageAt (i := 0) (by omega)
    rw [pageAt_zero] at hstart hbase
    obtain ⟨label₁, ⟨hneg, -⟩ | ⟨-, -, hmapped⟩⟩ := h.mapPage_ok hA hroot hpage
    · cases hneg
    have hext := hmapped.extends hroot
    -- other pages are translated as before, and this one was not translated
    have hkept : changed (hardwareAccess m pt.pml4Phys) (hardwareAccess m₁ pt.pml4Phys) ⊆ ∅ := by
      rintro v ⟨acc, hacc, hchange⟩
      by_cases hpage : pageBase v = pageBase start
      · have hlookup : lookup m pt.pml4Phys v = none := by
          rw [lookup_of_pageBase hpage, ← pageAt_zero start]
          exact hnone 0 (by omega)
        rw [h.hardwareAccess_none hroot hlookup] at hacc
        cases hacc
      · exact hchange (hmapped.hardwareAccess_eq h hroot hroot hstart hpage ▸ hacc)
    have hrest := ih hext.paging (hext.mono hroot) hrange.tail (fun k hk => ?_) hrest
    · simpa using (Quiet.tables hkept).append hrest
    -- the pages that follow stay unmapped
    have hne : pageBase (pageAt start (k + 1)) ≠ pageBase start := by
      rw [hrange.pageBase_pageAt (by omega), hbase, ← pageAt_zero start]
      simpa using hrange.pageAt_ne (i := k + 1) (j := 0) (by omega) (by omega) (by omega)
    have hsame : lookup m₁ pt.pml4Phys (pageAt start (k + 1)) =
        lookup m pt.pml4Phys (pageAt start (k + 1)) :=
      hmapped.walk_eq hroot hroot (not_prefix_path hstart (hrange.canonical (by omega)) hne)
    rw [← pageAt_succ, hsame]
    exact hnone (k + 1) (by omega)

/-- Unmapping pages of 4 KB makes nothing stale but their addresses. -/
theorem Traced.unmapLoop_quiet (h : Paging held m roots label) (hroot : label pt.pml4Phys = some [])
    {start : BitVec 64} {n : ℕ} (hrange : VAllocRange start n)
    (hlarge : ∀ k < n, NotLarge m pt.pml4Phys (pageAt start k)) {c : ℤ}
    (hrun : (Traced.unmapLoop pt start n).run m = .ok ((c, es), m')) :
    Quiet pt m m' es (rangeSet start n) := by
  induction n generalizing start m es with
  | zero =>
    obtain ⟨-, rfl, rfl⟩ := run_pure_eq_ok.mp hrun
    exact .nil pt m _
  | succ n ih =>
    obtain ⟨err, m₁, fs, hpage, hnext, rfl⟩ := run_observed_bind_eq_ok.mp hrun
    have hstart := hrange.canonical (i := 0) (by omega)
    have hfirst := hlarge 0 (by omega)
    rw [pageAt_zero] at hstart hfirst
    have hbase := hrange.pageBase_pageAt (i := 0) (by omega)
    rw [pageAt_zero] at hbase
    have hunmapped := h.unmapPage_ok hroot hpage
    have hkeeps := h.unmapPage_keeps hroot hpage
    -- the first page
    have hquiet : Quiet pt m m₁ [.tables m₁] (rangeSet start (n + 1)) := by
      refine Quiet.tables ?_
      rintro v ⟨acc, hacc, hchange⟩ hout
      have hne : pageBase v ≠ pageBase start := by
        rw [hbase, ← pageAt_zero start]
        exact hout 0 (by omega)
      rcases hunmapped with ⟨rfl, -⟩ | ⟨-, hcleared⟩
      · exact hchange hacc
      · rw [hcleared.hardwareAccess_eq h hroot hroot hstart hfirst hne] at hchange
        exact hchange hacc
    split at hnext
    · obtain ⟨-, rfl, rfl⟩ := run_pure_eq_ok.mp hnext
      exact hquiet
    -- the others
    have hrest := ih hkeeps.paging hrange.tail (fun k hk => ?_) hnext
    · refine (hquiet.append hrest).mono (Set.union_subset le_rfl ?_)
      exact fun v hv hout => hv hout.tail
    rw [← pageAt_succ]
    intro d e hlookup
    rcases hunmapped with ⟨rfl, -⟩ | ⟨-, hcleared⟩
    · exact hlarge (k + 1) (by omega) d e hlookup
    · exact hlarge (k + 1) (by omega) d e (hcleared.lookup_of_some h hroot hroot hlookup)

/-! ## Calls -/

/-- What the processor finds in a page that is mapped by a page table. -/
theorem Paging.page_of_lookup (h : Paging held m roots label) (hroot : label pt.pml4Phys = some [])
    {v p : BitVec 64} {mode : Mode} {acc : Access} (hframe : IsFrame p)
    (hlookup : lookup m pt.pml4Phys v = some (3, pageEntry p mode))
    (hacc : hardwareAccess m pt.pml4Phys v = some acc) : pageBase acc.phys = p := by
  have hoff : v.toNat % 4096 < 4096 := Nat.mod_lt _ (by omega)
  have hsplit : v = pageBase v + BitVec.ofNat 64 (v.toNat % 4096) := by
    apply BitVec.eq_of_toNat_eq
    have hlt := v.isLt
    rw [BitVec.toNat_add, toNat_pageBase, BitVec.toNat_ofNat]
    omega
  -- the translation adds the offset of the address to the page
  have hphys : leafPhys v 3 (pageEntry p mode) = p + BitVec.ofNat 64 (v.toNat % 4096) := by
    have htranslate := translation_pageEntry hframe v mode hoff
    rw [← hsplit] at htranslate
    simpa using (translation_page _ _).symm.trans htranslate
  rw [hardwareAccess] at hacc
  split at hacc
  · cases hacc
  rw [← (h.hardwareWalk_eq hroot v).1, hlookup, Option.map_some, Option.some.injEq] at hacc
  rw [← hacc, hphys]
  apply BitVec.eq_of_toNat_eq
  have haligned : p.toNat % 4096 = 0 := hframe.1
  have hbound := hframe.2
  rw [toNat_pageBase, BitVec.toNat_add, BitVec.toNat_ofNat]
  omega

/-- The region maps the physical pages of live allocations, each in the range that it is for. -/
theorem VAllocState.Inv.lookup_live (h : s.Inv held roots pt) {v : BitVec 64}
    {x : ℕ × BitVec 64} (hv : InRegion v) (hx : lookup s.machine pt.pml4Phys v = some x) :
    ∃ a ∈ s.live, v ∈ rangeSet a.start a.numPages ∧
      ∃ p ∈ a.pages, IsFrame p ∧ x = (3, pageEntry p Mode.kernelRW) := by
  by_cases hout : ∀ a ∈ s.live, OutsideRange a.start a.numPages v
  · cases (h.unmapped v hv.1 hv.2 hout).symm.trans hx
  push Not at hout
  obtain ⟨a, ha, hin⟩ := hout
  refine ⟨a, ha, hin, ?_⟩
  unfold OutsideRange at hin
  push Not at hin
  obtain ⟨i, hi, hpage⟩ := hin
  have hlt : i < a.pages.length := (h.length a ha).symm ▸ hi
  have hlookup := h.mapped a ha i _ (List.getElem?_eq_getElem hlt)
  rw [← hpage, lookup_pageBase, hx, Option.some.injEq] at hlookup
  have hmem := List.getElem_mem hlt
  exact ⟨a.pages[i], hmem, (h.frames a ha _ hmem).1, hlookup⟩

/-- `Alloc` maps pages that were not mapped; if it gives pages back, they were never mapped. -/
theorem Traced.alloc_coherent (hA : HandsOutFresh A held) (h : s.Inv held roots pt) {length : ℕ}
    (hlen : length ≤ kMaxAllocPages * pageSize) {r : BitVec 64 × PageAllocator}
    (hrun : (Traced.alloc A pt s.globals length).run s.machine = .ok ((r, es), m')) :
    Coherent pt s.machine m' es := by
  obtain ⟨label, hp, hroot, -⟩ := h.paging
  unfold Traced.alloc at hrun
  obtain ⟨hend, hnext⟩ := run_requireM_bind_eq_ok.mp hrun
  simp only [Bool.and_eq_true, decide_eq_true_eq] at hend
  have hrange := h.cursor.range hlen hend.1
  obtain ⟨⟨count, phys⟩, m₁, hcall, hbody⟩ := run_silent_bind_eq_ok.mp hnext
  obtain ⟨a, hpages, rfl⟩ := allocatePages_eq_ok.mp hcall
  obtain ⟨-, hfresh, hheld⟩ := hA.allocate hpages
  dsimp only at hfresh hheld hbody
  split at hbody
  · obtain ⟨-, rfl, rfl⟩ := run_pure_eq_ok.mp hbody
    exact .nil rfl
  next hnonneg =>
  split at hbody
  · -- some pages, but not enough, and they were not held before
    obtain ⟨_, es₃, m₂, es₄, hprefix, hret, rfl⟩ := run_bind_eq_ok.mp hbody
    obtain ⟨-, rfl, rfl⟩ := run_pure_eq_ok.mp hret
    unfold Traced.freePrefix at hprefix
    split at hprefix
    next hfits =>
      obtain ⟨_, _, m₃, es₅, htell, hgive, rfl⟩ := run_bind_eq_ok.mp hprefix
      obtain ⟨rfl, rfl⟩ := run_tell_eq_ok.mp htell
      obtain ⟨hfree, rfl⟩ := run_silent_eq_ok.mp hgive
      obtain ⟨a', -, rfl⟩ := KernelM.freePages_eq_ok.mp hfree
      have hcount : ((toSize count : ℕ) : ℤ) ≤ count := by
        unfold toSize kMaxAllocPages at *
        omega
      suffices hrelease : Coherent pt { s.machine with allocator := a }
          { s.machine with allocator := a' }
          [.release ((List.range (toSize count)).map phys)] from hrelease.congr rfl
      refine .release fun v acc hv hacc hmem => ?_
      rcases hlookup : lookup s.machine pt.pml4Phys v with _ | x
      · cases (hp.hardwareAccess_none hroot hlookup).symm.trans hacc
      obtain ⟨b, hb, -, p, hpage, hframe, rfl⟩ := h.lookup_live hv hlookup
      obtain rfl := hp.page_of_lookup hroot hframe hlookup hacc
      exact (hfresh _ ((firstPages_subset hcount).subset hmem)).2 (h.frames b hb _ hpage).2
    next => cases (run_silent_eq_ok.mp hprefix).1
  · -- the pages are mapped
    obtain ⟨_, es₃, m₂, es₄, hmap, hret, rfl⟩ := run_bind_eq_ok.mp hbody
    obtain ⟨-, rfl, rfl⟩ := run_pure_eq_ok.mp hret
    have hp : Paging held { s.machine with allocator := a } roots label :=
      hp.withAllocator fun t p ht => hheld ▸ Or.inl (hp.mem_held ht)
    have hpart := hrange.of_le (Nat.le_add_right _ kNumGuardPages)
    rw [List.append_nil]
    refine (Coherent.of_quiet (Traced.mapLoop_quiet hA hp hroot hpart (fun k hk => ?_) hmap)).congr
      rfl
    -- the pages from the cursor on are in no live range
    have hpage := hrange.toNat_pageAt (i := k) (by omega)
    have hbound := hrange.hi
    have hlo := hrange.lo
    have hle : (k + 1) * pageSize ≤ (pagesFor length + kNumGuardPages) * pageSize :=
      Nat.mul_le_mul_right _ (by change k < pagesFor length at hk; omega)
    refine h.unmapped _ ?_ ?_ fun b hb => ?_
    · rw [hpage]
      exact hlo.trans (Nat.le_add_right _ _)
    · rw [hpage]
      linarith
    · have hbelow := h.below b (List.mem_append_left s.freed hb)
      refine (h.range_pages (List.mem_append_left s.freed hb)).outside (Or.inr ?_)
      rw [hpage]
      exact (Nat.le_add_right _ _).trans (hbelow.trans (Nat.le_add_right _ _))

/-- The pages of different live allocations differ. -/
theorem VAllocState.Inv.not_mem_pages (h : s.Inv held roots pt) {a b : Allocation}
    (ha : a ∈ s.live) (hb : b ∈ s.live) (hne : a ≠ b) {p : BitVec 64} (hp : p ∈ b.pages) :
    p ∉ a.pages := by
  have hperm : s.live.Perm (a :: s.live.erase a) := List.perm_cons_erase ha
  have hnodup := (hperm.flatMap_right Allocation.pages).nodup_iff.mp h.nodup
  rw [List.flatMap_cons, List.nodup_append] at hnodup
  have hrest : b ∈ s.live.erase a := (List.mem_erase_of_ne hne.symm).mpr hb
  exact fun hpa => hnodup.2.2 p hpa p (List.mem_flatMap.mpr ⟨b, hrest, hp⟩) rfl

/-- `Free` invalidates what it unmapped before it gives the physical pages back. -/
theorem Traced.free_coherent (h : s.Inv held roots pt) {a : Allocation} (ha : a ∈ s.live)
    {g' : PageAllocator}
    (hrun : (Traced.free A pt s.globals a.start a.length).run s.machine = .ok ((g', es), m')) :
    Coherent pt s.machine m' es := by
  obtain ⟨label, hp, hroot, -⟩ := h.paging
  have hrange := h.range_pages (List.mem_append_left s.freed ha)
  have hlength := h.length a ha
  have hpages : ∀ i < a.numPages, ∃ e, lookup s.machine pt.pml4Phys (pageAt a.start i) =
      some (3, e) := fun i hi =>
    ⟨_, h.mapped a ha i _ (List.getElem?_eq_getElem (hlength.symm ▸ hi))⟩
  obtain ⟨phys, m₁, m₂, b, fs, hread, hunmap, rfl, rfl⟩ := Traced.free_run hrun
  change physLoop pt a.start a.numPages s.machine = _ at hread
  change (Traced.unmapLoop pt a.start a.numPages).run m₁ = _ at hunmap
  rw [← hlength] at hread
  obtain ⟨rfl, rfl⟩ := hp.physLoop_ok hroot (fun p hpage => (h.frames a ha p hpage).1)
    (hlength.symm ▸ hrange) (h.mapped a ha) hread
  have herased := (Traced.unmapLoop_erases pt a.start a.numPages _ _ _).mpr ⟨fs, hunmap⟩
  have hkeeps := hp.unmapLoop_keeps hroot herased
  obtain ⟨hnone, hsame⟩ := hp.unmapLoop_ok hroot hrange hpages herased
  have hquiet := Traced.unmapLoop_quiet hp hroot hrange (fun k hk d e hlookup => by
    obtain ⟨e', he'⟩ := hpages k hk
    simpa using (congrArg (Option.map Prod.fst) (hlookup.symm.trans he'))) hunmap
  refine (hquiet.flushed hrange).append (.release fun v acc hv hacc => ?_)
  -- what is still mapped in the region belongs to another allocation
  rcases hlookup : lookup m₂ pt.pml4Phys v with _ | x
  · cases (hkeeps.paging.hardwareAccess_none hroot hlookup).symm.trans hacc
  by_cases hout : OutsideRange a.start a.numPages v
  · rw [hsame v (nonCanonical_of_le hv.1) hout] at hlookup
    obtain ⟨b, hb, hin, p, hpage, hframe, rfl⟩ := h.lookup_live hv hlookup
    rw [← hsame v (nonCanonical_of_le hv.1) hout] at hlookup
    rw [hkeeps.paging.page_of_lookup hroot hframe hlookup hacc]
    exact h.not_mem_pages ha hb (fun hab => hin (hab ▸ hout)) hpage
  · unfold OutsideRange at hout
    push Not at hout
    obtain ⟨i, hi, hpage⟩ := hout
    rw [← lookup_pageBase, hpage, hnone i hi] at hlookup
    cases hlookup

/-! ## Runs -/

/-- What code that returned has recorded. -/
def recorded {α : Type} : Except Fault ((α × List (TlbEvent σ)) × Machine σ) → List (TlbEvent σ)
  | .ok ((_, es), _) => es
  | .error _ => []

/-- The events of a call. -/
def Traced.events (A : PhysicalAllocator σ) (pt : PageTable) (s : VAllocState σ) :
    VAllocOp → List (TlbEvent σ)
  | .vAlloc length => recorded ((Traced.alloc A pt s.globals length).run s.machine)
  | .vFree ptr length => recorded ((Traced.free A pt s.globals ptr length).run s.machine)

/-- A call that returns, with its events. -/
inductive TracedStep (A : PhysicalAllocator σ) (pt : PageTable) :
    VAllocState σ → VAllocOp × List (TlbEvent σ) → VAllocState σ → Prop
  | call {s t : VAllocState σ} {op : VAllocOp} :
      VAllocStep A pt s op t → TracedStep A pt s (op, Traced.events A pt s op) t

/-- Every run of calls has events. -/
theorem exists_traced {ops : List VAllocOp} (hrun : Run (VAllocStep A pt) s ops t) :
    ∃ calls, calls.map Prod.fst = ops ∧ Run (TracedStep A pt) s calls t := by
  induction hrun with
  | nil s => exact ⟨[], rfl, .nil s⟩
  | cons hstep _ ih =>
    obtain ⟨calls, rfl, hrest⟩ := ih
    exact ⟨_ :: calls, rfl, .cons (.call hstep) hrest⟩

/-- Without their events the calls are those of the page allocator. -/
theorem run_of_traced {calls : List (VAllocOp × List (TlbEvent σ))}
    (hrun : Run (TracedStep A pt) s calls t) : Run (VAllocStep A pt) s (calls.map Prod.fst) t := by
  induction hrun with
  | nil s => exact .nil s
  | cons hstep _ ih =>
    cases hstep with
    | call hstep => exact .cons hstep ih

/-- A call that returns also does with its events recorded. -/
theorem TracedM.Erases.run_recorded {α : Type} {x : TracedM σ α} {y : KernelM σ α}
    (h : Erases x y) {a : α} (hrun : y m = .ok (a, m')) :
    x.run m = .ok ((a, recorded (x.run m)), m') := by
  obtain ⟨es, htraced⟩ := (h m a m').mp hrun
  rw [htraced]
  rfl

theorem TracedStep.coherent (hA : HandsOutFresh A held) (h : s.Inv held roots pt)
    {call : VAllocOp × List (TlbEvent σ)} (hstep : TracedStep A pt s call t) :
    Coherent pt s.machine t.machine call.2 := by
  cases hstep with
  | call hstep =>
    cases hstep with
    | failed _ hlen halloc =>
      have hcall := Traced.alloc_coherent hA h hlen
        ((Traced.alloc_erases A pt _ _).run_recorded halloc)
      simpa only [Traced.events] using hcall
    | allocated _ hlen _ halloc _ =>
      have hcall := Traced.alloc_coherent hA h hlen
        ((Traced.alloc_erases A pt _ _).run_recorded halloc)
      simpa only [Traced.events] using hcall
    | freed ha hfree =>
      have hcall := Traced.free_coherent h ha
        ((Traced.free_erases A pt _ _ _).run_recorded hfree)
      simpa only [Traced.events] using hcall

theorem coherent_of_run (hA : HandsOutFresh A held) {calls : List (VAllocOp × List (TlbEvent σ))}
    (hrun : Run (TracedStep A pt) s calls t) (h : s.Inv held roots pt) :
    Coherent pt s.machine t.machine (calls.flatMap Prod.snd) := by
  induction hrun with
  | nil s => exact .nil rfl
  | cons hstep _ ih =>
    rw [List.flatMap_cons]
    refine (hstep.coherent hA h).append (ih ?_)
    cases hstep with
    | call hstep => exact h.step hA hstep

/-- What the trace of a `Free` ends with. -/
theorem TracedStep.release (h : s.Inv held roots pt) {a : Allocation} (ha : a ∈ s.live)
    (hstep : TracedStep A pt s (.vFree a.start a.length, es) t) :
    ∃ fs, es = fs ++ [.release a.pages] := by
  obtain ⟨label, hp, hroot, -⟩ := h.paging
  have hlength := h.length a ha
  obtain ⟨g, m', hfree, rfl⟩ : ∃ g m', PageAllocator.free A pt s.globals a.start a.length
      s.machine = .ok (g, m') ∧ es = Traced.events A pt s (.vFree a.start a.length) := by
    generalize hcall : (VAllocOp.vFree a.start a.length, es) = call at hstep
    cases hstep with
    | call hstep =>
      obtain ⟨rfl, rfl⟩ := Prod.mk.inj hcall
      generalize hop : VAllocOp.vFree a.start a.length = op at hstep
      cases hstep with
      | failed | allocated => cases hop
      | freed _ hfree =>
        obtain ⟨hstart, hlen⟩ := VAllocOp.vFree.inj hop
        rw [hstart, hlen]
        exact ⟨_, _, hfree, rfl⟩
  obtain ⟨phys, m₁, m₂, b, fs, hread, -, -, hevents⟩ := Traced.free_run
    ((Traced.free_erases A pt _ _ _).run_recorded hfree)
  change physLoop pt a.start a.numPages s.machine = _ at hread
  rw [← hlength] at hread
  obtain ⟨rfl, -⟩ := hp.physLoop_ok hroot (fun p hpage => (h.frames a ha p hpage).1)
    (hlength.symm ▸ h.range_pages (List.mem_append_left s.freed ha)) (h.mapped a ha) hread
  exact ⟨_, hevents⟩

/-- On the larger machine one byte is allocated and then freed. -/
theorem exists_run_large : ∃ (pt : PageTable) (m₁ : Machine (ReachedPool largeRanges))
    (s t : VAllocState (ReachedPool largeRanges)) (a : Allocation),
    Run (TablesStep (poolAllocator largeRanges)) ⟨largeMachine, []⟩ [.create none] ⟨m₁, [pt]⟩ ∧
      (∀ v : BitVec 64, vAllocStart.toNat ≤ v.toNat → v.toNat ≤ vAllocEnd.toNat →
        pt.report v m₁ = .ok (0, none)) ∧
      Run (VAllocStep (poolAllocator largeRanges) pt) ⟨m₁, .init, [], []⟩ [.vAlloc 1] s ∧
      a ∈ s.live ∧ 0 < a.numPages ∧
      VAllocStep (poolAllocator largeRanges) pt s (.vFree a.start a.length) t := by
  have hspecs : ∀ x ∈ largeRanges, x.1.toNat + x.2 ≤ 2 ^ 52 := by decide
  have hA := poolAllocator_handsOutFresh hspecs
  have hreturns : returns (do
      let pt ← PageTable.new (poolAllocator largeRanges) none
      let r ← PageAllocator.alloc (poolAllocator largeRanges) pt .init 1
      let _ ← PageAllocator.free (poolAllocator largeRanges) pt r.2 vAllocStart 1
      return r.1) largeMachine (· == vAllocStart) = true := by
    decide +kernel
  obtain ⟨ptr, m₃, hok, hptr⟩ := exists_of_returns hreturns
  obtain ⟨pt, m₁, hnew, hok⟩ := bind_eq_ok.mp hok
  obtain ⟨⟨_, g⟩, m₂, halloc, hok⟩ := bind_eq_ok.mp hok
  obtain ⟨_, m₄, hfree, hok⟩ := bind_eq_ok.mp hok
  obtain ⟨rfl, rfl⟩ := pure_eq_ok.mp hok
  obtain rfl := beq_iff_eq.mp hptr
  obtain ⟨hboot, hunmapped, phys, hrun⟩ := run_of_alloc hA rfl hnew halloc
  exact ⟨pt, m₁, _, _, _, hboot, hunmapped, hrun, List.mem_cons_self, (by decide : 0 < pagesFor 1),
    .freed List.mem_cons_self hfree⟩

/-- In every run of `VAlloc` and `VFree`, whatever the processor takes into its TLB and drops from
it in between: afterwards the TLB agrees with the page tables, and whenever physical pages are given
back, no address in the region of the page allocator is translated to one of them. -/
theorem released_frames_unreachable (hA : HandsOutFresh A held) {m : Machine σ}
    {boot : TablesState σ} {setup : List TablesOp} {calls : List (VAllocOp × List (TlbEvent σ))}
    (hboot : Run (TablesStep A) ⟨m, []⟩ setup boot) (hpt : pt ∈ boot.tables)
    (hunmapped : ∀ v : BitVec 64, vAllocStart.toNat ≤ v.toNat → v.toNat ≤ vAllocEnd.toNat →
      pt.report v boot.machine = .ok (0, none))
    (hrun : Run (TracedStep A pt) ⟨boot.machine, .init, [], []⟩ calls s) {tlb : TlbContents}
    (htlb : ∀ x ∈ tlb, hardwareAccess boot.machine pt.pml4Phys x.1 = some x.2) :
    (∀ tlb', Runs (hardwareAccess boot.machine pt.pml4Phys) tlb
        ((calls.flatMap Prod.snd).map (·.event pt)) tlb' →
      ∀ x ∈ tlb', hardwareAccess s.machine pt.pml4Phys x.1 = some x.2) ∧
    ∀ before pages after, calls.flatMap Prod.snd = before ++ .release pages :: after →
      ∀ tlb', Runs (hardwareAccess boot.machine pt.pml4Phys) tlb (before.map (·.event pt)) tlb' →
        ∀ x ∈ tlb', InRegion x.1 → pageBase x.2.phys ∉ pages := by
  have hinv := VAllocState.Inv.run hA hboot hpt hunmapped (.nil _)
  have hcoherent := coherent_of_run hA hrun hinv
  have hagrees : Agrees ∅ (hardwareAccess boot.machine pt.pml4Phys) tlb := fun x hx _ => htlb x hx
  refine ⟨fun tlb' hruns x hx => ?_, fun before pages after hsplit tlb' hruns x hx hregion => ?_⟩
  · have h := hruns.agrees hagrees x hx
    rw [hcoherent.latest, hcoherent.stale] at h
    exact h (Set.notMem_empty _)
  · have hmarks := hcoherent.marks
    rw [hsplit, List.map_append, List.map_cons] at hmarks
    obtain ⟨w, d, ⟨rfl, hunreachable⟩, hagrees'⟩ := hmarks.agrees hruns hagrees
    exact hunreachable _ _ hregion (hagrees' x hx (Set.notMem_empty _))

/-- A page is given back on the larger machine. -/
theorem released_frames_unreachable_large :
    ∃ (pt : PageTable) (m : Machine (ReachedPool largeRanges))
      (before : List (TlbEvent (ReachedPool largeRanges))) (pages : List (BitVec 64)), pages ≠ [] ∧
        ∀ tlb, Runs (hardwareAccess m pt.pml4Phys) ∅ (before.map (·.event pt)) tlb →
          ∀ x ∈ tlb, InRegion x.1 → pageBase x.2.phys ∉ pages := by
  have hspecs : ∀ x ∈ largeRanges, x.1.toNat + x.2 ≤ 2 ^ 52 := by decide
  have hA := poolAllocator_handsOutFresh hspecs
  obtain ⟨pt, m₁, s, t, a, hboot, hunmapped, hrun, ha, hpos, hfree⟩ := exists_run_large
  have hpt := List.mem_singleton_self pt
  have hinv := VAllocState.Inv.run hA hboot hpt hunmapped hrun
  obtain ⟨calls, -, htraced⟩ := exists_traced hrun
  obtain ⟨fs, hfs⟩ := (TracedStep.call hfree).release hinv ha
  have hall := htraced.append (.cons (.call hfree) (.nil t))
  refine ⟨pt, m₁, calls.flatMap Prod.snd ++ fs, a.pages, ?_,
    (released_frames_unreachable hA hboot hpt hunmapped hall (by simp)).2 _ _ [] ?_⟩
  · intro hnil
    rw [← hinv.length a ha, hnil] at hpos
    exact absurd hpos (by decide)
  · rw [List.flatMap_append, List.flatMap_singleton, hfs, List.append_assoc]

/-- Whenever `VFree` returns, a processor that does not execute its `INVLPG` instructions may still
translate any page of the range to the physical page when that is given back. -/
theorem shootdown_missing (hA : HandsOutFresh A held) {m : Machine σ}
    {boot : TablesState σ} {setup : List TablesOp} {calls : List VAllocOp}
    (hboot : Run (TablesStep A) ⟨m, []⟩ setup boot) (hpt : pt ∈ boot.tables)
    (hunmapped : ∀ v : BitVec 64, vAllocStart.toNat ≤ v.toNat → v.toNat ≤ vAllocEnd.toNat →
      pt.report v boot.machine = .ok (0, none))
    (hrun : Run (VAllocStep A pt) ⟨boot.machine, .init, [], []⟩ calls s) {a : Allocation}
    (ha : a ∈ s.live) (hfree : TracedStep A pt s (.vFree a.start a.length, es) t) {i : ℕ}
    (hi : i < a.numPages) :
    ∃ before acc, es = before ++ [.release a.pages] ∧ a.pages[i]? = some (pageBase acc.phys) ∧
      ∃ tlb, Runs (hardwareAccess s.machine pt.pml4Phys) ∅ (before.map (·.remoteEvent pt)) tlb ∧
        (pageAt a.start i, acc) ∈ tlb := by
  have hinv := VAllocState.Inv.run hA hboot hpt hunmapped hrun
  obtain ⟨label, hp, hroot, -⟩ := hinv.paging
  obtain ⟨before, rfl⟩ := hfree.release hinv ha
  have hlt : i < a.pages.length := (hinv.length a ha).symm ▸ hi
  have hget := List.getElem?_eq_getElem hlt
  have hrange := hinv.range_pages (List.mem_append_left s.freed ha)
  have hlookup := hinv.mapped a ha i _ hget
  have hframe := (hinv.frames a ha _ (List.getElem_mem hlt)).1
  obtain ⟨acc, hacc⟩ : ∃ acc, hardwareAccess s.machine pt.pml4Phys (pageAt a.start i) =
      some acc := by
    rw [hardwareAccess, hrange.canonical hi, if_neg (by simp), ← (hp.hardwareWalk_eq hroot _).1,
      hlookup]
    exact ⟨_, rfl⟩
  refine ⟨before, acc, rfl, ?_, {(pageAt a.start i, acc)}, ?_, Set.mem_singleton _⟩
  · rw [hp.page_of_lookup hroot hframe hlookup hacc, hget]
  · -- the processor translates the page before the call, and keeps the translation
    refine Runs.of_drifts (fun x hx => Or.inr ?_) (Runs.keeps fun s hs => ?_)
    · rw [Set.mem_singleton_iff.mp hx]
      exact hacc
    · obtain ⟨e, -, he⟩ := List.mem_map.mp hs
      cases e <;> cases he
      rfl

/-- Another processor reaches the page that is given back on the larger machine. -/
theorem shootdown_missing_large :
    ∃ (pt : PageTable) (m : Machine (ReachedPool largeRanges))
      (before : List (TlbEvent (ReachedPool largeRanges))) (pages : List (BitVec 64))
      (tlb : TlbContents),
        Runs (hardwareAccess m pt.pml4Phys) ∅ (before.map (·.remoteEvent pt)) tlb ∧
          ∃ x ∈ tlb, pageBase x.2.phys ∈ pages := by
  have hspecs : ∀ x ∈ largeRanges, x.1.toNat + x.2 ≤ 2 ^ 52 := by decide
  have hA := poolAllocator_handsOutFresh hspecs
  obtain ⟨pt, m₁, s, t, a, hboot, hunmapped, hrun, ha, hpos, hfree⟩ := exists_run_large
  obtain ⟨before, acc, -, hpage, tlb, hruns, hmem⟩ := shootdown_missing hA hboot
    (List.mem_singleton_self pt) hunmapped hrun ha (.call hfree) hpos
  exact ⟨pt, s.machine, before, a.pages, tlb, hruns, _, hmem, List.mem_of_getElem? hpage⟩

end KushOs.Vm
