import KushOs.Kernel.Memory.PoolAllocator
import KushOs.Kernel.Vm.PageTables

/-!
# Mapping a page

`PageTable::mapPage` may link up to three new structures before it writes the page's entry, in
memory that all page tables share. Whatever was done to any page table before, a successful call
maps that page and no other, and a failed call changes no translation.

## Main results

* `mapPage_frame`: what `getPhysAddr` reports after `mapPage`.
-/

namespace KushOs.Vm

open Memory RadixTable KernelM PageTable Transition

variable {σ : Type} {A : PhysicalAllocator σ} {held : σ → Set (BitVec 64)}

/-- What `getPhysAddr` reports. -/
def PageTable.report (pt : PageTable) (virt : BitVec 64) (m : Machine σ) :
    Except Fault (ℤ × Option (BitVec 64 × Mode)) :=
  (getPhysAddr pt virt m).map Prod.fst

namespace Paging

variable {m m' : Machine σ} {roots : List (BitVec 64)} {label label' : Labels (BitVec 64) Index}
variable {pt : PageTable} {virt : BitVec 64}

theorem report_eq (h : Paging held m roots label) (hroot : label pt.pml4Phys = some [])
    (hvirt : nonCanonical virt = false) :
    pt.report virt m = .ok (translation virt (lookup m pt.pml4Phys virt)) := by
  rw [PageTable.report, h.getPhysAddr_eq hroot hvirt]
  rfl

theorem report_of_nonCanonical (hvirt : nonCanonical virt = true) :
    pt.report virt m = .ok (-1, none) := by
  rw [PageTable.report, getPhysAddr, if_pos hvirt]
  rfl

/-- Equal walks are reported alike. -/
theorem report_congr (h : Paging held m roots label) (h' : Paging held m' roots label')
    (hroot : label pt.pml4Phys = some []) (hroot' : label' pt.pml4Phys = some [])
    (hlookup : nonCanonical virt = false →
      lookup m' pt.pml4Phys virt = lookup m pt.pml4Phys virt) :
    pt.report virt m' = pt.report virt m := by
  rcases hvirt : nonCanonical virt with _ | _
  · rw [h.report_eq hroot hvirt, h'.report_eq hroot' hvirt, hlookup hvirt]
  · rw [report_of_nonCanonical hvirt, report_of_nonCanonical hvirt]

end Paging

/-- In every state of every run over the page tables, `mapPage` returns zero or a negative code.
If it returns zero, every address of the page translates to the physical address that was given,
and the reports for canonical addresses in other pages are the same as before. If it fails, all
reports are the same as before. -/
theorem mapPage_frame (hA : HandsOutFresh A held) {m m' : Machine σ} {s : TablesState σ}
    {ops : List TablesOp} {pt : PageTable} {phys virt : BitVec 64} {mode : Mode} {c : ℤ}
    (hrun : Run (TablesStep A) ⟨m, []⟩ ops s) (hpt : pt ∈ s.tables) (hphys : IsFrame phys)
    (hmap : mapPage A pt phys virt mode s.machine = .ok (c, m')) :
    (c = 0 ∧
      (∀ o < 4096, ∃ access, pt.report (pageBase virt + BitVec.ofNat 64 o) m' =
        .ok (1, some (phys + BitVec.ofNat 64 o, access))) ∧
      ∀ q ∈ s.tables, ∀ w, nonCanonical w = false → pageBase w ≠ pageBase virt →
        q.report w m' = q.report w s.machine) ∨
    (c < 0 ∧ ∀ q ∈ s.tables, ∀ w, q.report w m' = q.report w s.machine) := by
  obtain ⟨label, hp⟩ := (TablesState.Inv.init m).run hA hrun
  have hlabel : ∀ q ∈ s.tables, label q.pml4Phys = some [] :=
    fun q hq => hp.labelled.root _ (TablesState.mem_roots hq)
  have hroot := hlabel pt hpt
  obtain ⟨label', ⟨hneg, hgrows⟩ | ⟨hzero, hvirt, hmapped⟩⟩ := hp.mapPage_ok hA hroot hmap
  · refine Or.inr ⟨hneg, fun q hq w => ?_⟩
    have hq := hlabel q hq
    exact hp.report_congr hgrows.paging hq (hgrows.mono hq) fun _ => hgrows.walk_eq (path w) hq
  · have hp' := hmapped.paging hroot
    refine Or.inl ⟨hzero, fun o ho => ⟨(decodePTE (pageEntry phys mode)).2, ?_⟩,
      fun q hq w hw hne => ?_⟩
    · have hentry := hmapped.lookup_eq hroot (present_pageEntry phys mode)
      rw [hp'.report_eq (hmapped.mono hroot) ((nonCanonical_page virt ho).trans hvirt),
        lookup_page _ _ _ ho, hentry, translation_pageEntry hphys virt mode ho]
    · have hq := hlabel q hq
      exact hp.report_congr hp' hq (hmapped.mono hq) fun _ =>
        hmapped.walk_eq hroot hq (not_prefix_path hvirt hw hne)

/-- Construct a page table on a small machine and map a page in it. -/
theorem exists_mapPage_small (phys virt : BitVec 64) (mode : Mode)
    (hreturns : returns (PageTable.new (poolAllocator smallRanges) none >>= fun pt =>
      mapPage (poolAllocator smallRanges) pt phys virt mode) smallMachine (· == 0) = true) :
    ∃ pt m₁ m₂, PageTable.new (poolAllocator smallRanges) none smallMachine = .ok (pt, m₁) ∧
      mapPage (poolAllocator smallRanges) pt phys virt mode m₁ = .ok (0, m₂) := by
  obtain ⟨c, m₂, hok, hc⟩ := exists_of_returns hreturns
  obtain rfl : c = 0 := by simpa using hc
  obtain ⟨pt, m₁, hnew, hmap⟩ := bind_eq_ok.mp hok
  exact ⟨pt, m₁, m₂, hnew, hmap⟩

/-- A page that is mapped in the first page table of a small machine translates. -/
theorem mapPage_frame_small : ∃ pt m₁ m₂,
    PageTable.new (poolAllocator smallRanges) none smallMachine = .ok (pt, m₁) ∧
      mapPage (poolAllocator smallRanges) pt 0x300000#64 0x400000#64 Mode.userRW m₁ = .ok (0, m₂) ∧
        ∀ o < 4096, ∃ access, pt.report (pageBase 0x400000#64 + BitVec.ofNat 64 o) m₂ =
          .ok (1, some (0x300000#64 + BitVec.ofNat 64 o, access)) := by
  obtain ⟨pt, m₁, m₂, hnew, hmap⟩ :=
    exists_mapPage_small 0x300000#64 0x400000#64 Mode.userRW (by decide +kernel)
  have hrun : Run (TablesStep (poolAllocator smallRanges)) ⟨smallMachine, []⟩ [.create none]
      ⟨m₁, [] ++ [pt]⟩ := .cons (.create rfl hnew) (.nil _)
  rcases mapPage_frame smallRanges_handsOutFresh hrun (List.mem_singleton_self pt) (by decide)
    hmap with ⟨-, hpage, -⟩ | ⟨hneg, -⟩
  · exact ⟨pt, m₁, m₂, hnew, hmap, hpage⟩
  · cases hneg

end KushOs.Vm
