import KushOs.Kernel.Vm.Paging

/-!
# What mapping and unmapping do

`mapPage` looks for the page table of an address, which changes no translation, and writes one
entry of it. `unmapPage` clears the entry at which the walk of the address ends, or nothing.

## Main results

* `Paging.mapPage_ok`, `Paging.unmapPage_ok`: the two outcomes of each operation.
* `Paging.unmap_keeps`: what any sequence of such steps leaves alone.
-/

namespace KushOs.Vm

open Memory RadixTable KernelM PageTable

variable {σ : Type} {A : PhysicalAllocator σ} {held : σ → Set (BitVec 64)} {m m' : Machine σ}
variable {roots : List (BitVec 64)} {label : Labels (BitVec 64) Index} {pt : PageTable}
variable {phys virt : BitVec 64} {mode : Mode} {c : ℤ}

/-- The indices that lead to the page table of an address. -/
def tablePath (virt : BitVec 64) : List Index :=
  [virt.extractLsb' 39 9, virt.extractLsb' 30 9, virt.extractLsb' 21 9]

/-- The index of an address in its page table. -/
def pageIndex (virt : BitVec 64) : Index := virt.extractLsb' 12 9

theorem path_eq (virt : BitVec 64) : path virt = tablePath virt ++ [pageIndex virt] := rfl

/-- The page table of `virt` was found, and its entry for `virt` was written with `e`. -/
def Mapped (held : σ → Set (BitVec 64)) (roots : List (BitVec 64)) (root virt e : BitVec 64)
    (m m' : Machine σ) (label label' : Labels (BitVec 64) Index) : Prop :=
  ∃ m₁ t, Grows held (held m.allocator) roots root virt m m₁ label label' ∧
    Leads slot (entries m₁) root (tablePath virt) t ∧ m' = m₁.write t (pageIndex virt) e

namespace Mapped

variable {label' : Labels (BitVec 64) Index} {root e u : BitVec 64} {p q : List Index}

theorem mono (h : Mapped held roots root virt e m m' label label') (hu : label u = some p) :
    label' u = some p := by
  obtain ⟨m₁, t, hgrows, -, -⟩ := h
  exact hgrows.mono hu

theorem fresh (h : Mapped held roots root virt e m m' label label') (hu : label' u = some p) :
    label u = some p ∨ u ∉ held m.allocator := by
  obtain ⟨m₁, t, hgrows, -, -⟩ := h
  exact hgrows.fresh hu

theorem paging (h : Mapped held roots root virt e m m' label label')
    (hroot : label root = some []) : Paging held m' roots label' := by
  obtain ⟨m₁, t, hgrows, hleads, rfl⟩ := h
  have ht := hleads.label_eq hgrows.paging.labelled (hgrows.mono hroot)
  refine hgrows.paging.write ht _ _ fun t' hslot => ?_
  -- a page table names no structures
  simp only [tablePath, List.length_cons, List.length_nil, slot] at hslot
  split at hslot <;> cases hslot

/-- The page is mapped. -/
theorem lookup_eq (h : Mapped held roots root virt e m m' label label')
    (hroot : label root = some []) (he : present e = true) :
    lookup m' root virt = some (3, e) := by
  obtain ⟨m₁, t, hgrows, hleads, rfl⟩ := h
  have ht := hleads.label_eq hgrows.paging.labelled (hgrows.mono hroot)
  have hframe := hgrows.paging.isFrame ht
  have hentry := entries_write (m := m₁) hframe hframe (pageIndex virt) (pageIndex virt) e
  rw [if_pos rfl] at hentry
  have hleaf : slot (tablePath virt).length
      (entries (m₁.write t (pageIndex virt) e) t (pageIndex virt)) = .leaf := by
    rw [hentry]
    simp [slot, tablePath, he]
  rw [lookup, path_eq, (hgrows.paging.leads_write (hgrows.mono hroot) hleads _ _).walk_append,
    walk_of_leaf hleaf, hentry]
  rfl

/-- No other translation changes. -/
theorem walk_eq (h : Mapped held roots root virt e m m' label label')
    (hroot : label root = some []) (hu : label u = some p) (hpath : ¬ path virt <+: p ++ q) :
    walk slot (entries m') p.length u q = walk slot (entries m) p.length u q := by
  obtain ⟨m₁, t, hgrows, hleads, rfl⟩ := h
  have ht := hleads.label_eq hgrows.paging.labelled (hgrows.mono hroot)
  rw [hgrows.paging.walk_write ht (pageIndex virt) e (hgrows.mono hu) hpath, hgrows.walk_eq q hu]

/-- The entries of PML4s change only where `Grows` allows it. -/
theorem root_entry (h : Mapped held roots root virt e m m' label label')
    (hroot : label root = some []) (hu : label u = some []) (j : Index) :
    entries m' u j = entries m u j ∨
      (nonCanonical virt = false ∧ [j] <+: path virt ∧ u = root ∧
        present (entries m u j) = false ∧
          ∃ page, IsFrame page ∧ entries m' u j = tableEntry page virt) := by
  obtain ⟨m₁, t, hgrows, hleads, rfl⟩ := h
  have ht := hleads.label_eq hgrows.paging.labelled (hgrows.mono hroot)
  have hne : (u, j) ≠ (t, pageIndex virt) := by
    rintro ⟨⟩
    rw [hgrows.mono hu] at ht
    cases ht
  rw [entries_write (hgrows.paging.isFrame ht) (hgrows.paging.isFrame (hgrows.mono hu)),
    if_neg hne]
  rcases hgrows.entry j hu with hsame | ⟨hcanon, hpath, hself, habsent, hnew⟩
  · exact Or.inl hsame
  · exact Or.inr ⟨hcanon, hpath, hself rfl, habsent, hnew⟩

/-- Entries that are present stay as they are, apart from that of the page. -/
theorem entry_of_present (h : Mapped held roots root virt e m m' label label')
    (hroot : label root = some []) (hu : label u = some p) {j : Index}
    (hne : p ++ [j] ≠ path virt) (hpresent : present (entries m u j) = true) :
    entries m' u j = entries m u j := by
  obtain ⟨m₁, t, hgrows, hleads, rfl⟩ := h
  have ht := hleads.label_eq hgrows.paging.labelled (hgrows.mono hroot)
  have hother : (u, j) ≠ (t, pageIndex virt) := by
    rintro ⟨⟩
    obtain rfl : p = tablePath virt := Option.some.inj ((hgrows.mono hu).symm.trans ht)
    exact hne (path_eq virt).symm
  rw [entries_write (hgrows.paging.isFrame ht) (hgrows.paging.isFrame (hgrows.mono hu)),
    if_neg hother, hgrows.entry_of_present hu hpresent]

theorem held_subset (h : Mapped held roots root virt e m m' label label') :
    held m.allocator ⊆ held m'.allocator := by
  obtain ⟨m₁, t, hgrows, -, rfl⟩ := h
  exact hgrows.held_subset

theorem accessible (h : Mapped held roots root virt e m m' label label') :
    m'.Accessible = m.Accessible := by
  obtain ⟨m₁, t, hgrows, -, rfl⟩ := h
  exact hgrows.accessible

theorem first (h : Mapped held roots root virt e m m' label label') :
    m'.isFirstPageTable = m.isFirstPageTable := by
  obtain ⟨m₁, t, hgrows, -, rfl⟩ := h
  exact hgrows.first

end Mapped

/-- `mapPage` fails without changing a translation, or it writes the entry of the page. -/
theorem Paging.mapPage_ok (hA : HandsOutFresh A held) (h : Paging held m roots label)
    (hroot : label pt.pml4Phys = some []) (hmap : mapPage A pt phys virt mode m = .ok (c, m')) :
    ∃ label', (c < 0 ∧ Grows held (held m.allocator) roots pt.pml4Phys virt m m' label label') ∨
      (c = 0 ∧ nonCanonical virt = false ∧
        Mapped held roots pt.pml4Phys virt (pageEntry phys mode) m m' label label') := by
  unfold mapPage at hmap
  split at hmap
  next hnon =>
    obtain ⟨rfl, rfl⟩ := pure_eq_ok.mp hmap
    exact ⟨label, Or.inl ⟨by omega, .refl h⟩⟩
  next hcanon =>
    rw [Bool.not_eq_true] at hcanon
    rw [tableIndex_eq virt (by omega), tableIndex_eq virt (by omega),
      tableIndex_eq virt (by omega), tableIndex_eq virt (by omega)] at hmap
    -- the PML4
    obtain ⟨r₄, m₄, hdesc₄, hmap⟩ := bind_eq_ok.mp hmap
    obtain ⟨label₄, hgrows₄, ⟨pdpt, rfl, hslot₄⟩ | ⟨code, hneg, rfl⟩⟩ :=
      h.descend_ok hA Set.Subset.rfl pt.pml4Phys hcanon hroot .nil ⟨_, rfl⟩ (Or.inl ⟨rfl, rfl⟩)
        hdesc₄
    swap
    · obtain ⟨rfl, rfl⟩ := pure_eq_ok.mp hmap
      exact ⟨label₄, Or.inl ⟨hneg, hgrows₄⟩⟩
    have hroot₄ := hgrows₄.mono hroot
    have hleads₄ : Leads slot (entries m₄) pt.pml4Phys [virt.extractLsb' 39 9] pdpt :=
      Leads.nil.snoc hslot₄
    -- the PDPT
    obtain ⟨r₃, m₃, hdesc₃, hmap⟩ := bind_eq_ok.mp hmap
    obtain ⟨label₃, hgrows₃, ⟨pdt, rfl, hslot₃⟩ | ⟨code, hneg, rfl⟩⟩ :=
      hgrows₄.paging.descend_ok hA hgrows₄.held_subset pt.pml4Phys hcanon hroot₄ hleads₄ ⟨_, rfl⟩
        (Or.inr ⟨Or.inl rfl, _, by omega, rfl⟩) hdesc₃
    swap
    · obtain ⟨rfl, rfl⟩ := pure_eq_ok.mp hmap
      exact ⟨label₃, Or.inl ⟨hneg, hgrows₄.trans hgrows₃⟩⟩
    have hroot₃ := hgrows₃.mono hroot₄
    have hleads₃ : Leads slot (entries m₃) pt.pml4Phys
        [virt.extractLsb' 39 9, virt.extractLsb' 30 9] pdt :=
      (hgrows₃.leads hgrows₄.paging.labelled hroot₄ hleads₄).snoc hslot₃
    -- the page directory
    obtain ⟨r₂, m₂, hdesc₂, hmap⟩ := bind_eq_ok.mp hmap
    obtain ⟨label₂, hgrows₂, ⟨ptAddr, rfl, hslot₂⟩ | ⟨code, hneg, rfl⟩⟩ :=
      hgrows₃.paging.descend_ok hA (hgrows₄.trans hgrows₃).held_subset
        pt.pml4Phys hcanon hroot₃ hleads₃ ⟨_, rfl⟩ (Or.inr ⟨Or.inr rfl, _, by omega, rfl⟩) hdesc₂
    swap
    · obtain ⟨rfl, rfl⟩ := pure_eq_ok.mp hmap
      exact ⟨label₂, Or.inl ⟨hneg, (hgrows₄.trans hgrows₃).trans hgrows₂⟩⟩
    have hroot₂ := hgrows₂.mono hroot₃
    have hleads₂ : Leads slot (entries m₂) pt.pml4Phys (tablePath virt) ptAddr :=
      (hgrows₂.leads hgrows₃.paging.labelled hroot₃ hleads₃).snoc hslot₂
    have hptAddr := hleads₂.label_eq hgrows₂.paging.labelled hroot₂
    -- the page table
    dsimp only at hmap
    rw [bind_of_ok (writeTable_eq (hgrows₂.paging.accessible hptAddr) _ _)] at hmap
    obtain ⟨rfl, rfl⟩ := pure_eq_ok.mp hmap
    exact ⟨label₂, Or.inr ⟨rfl, hcanon,
      ⟨m₂, ptAddr, (hgrows₄.trans hgrows₃).trans hgrows₂, hleads₂, rfl⟩⟩⟩

/-- Whether it succeeds or not, `mapPage` changes no entry that is present, apart from that of the
page. -/
theorem Paging.mapPage_entry (hA : HandsOutFresh A held) (h : Paging held m roots label)
    (hroot : label pt.pml4Phys = some []) (hmap : mapPage A pt phys virt mode m = .ok (c, m')) :
    ∃ label', Paging held m' roots label' ∧
      (∀ {u : BitVec 64} {p : List Index}, label u = some p → label' u = some p) ∧
      ∀ {u : BitVec 64} {p : List Index} {j : Index}, label u = some p → p ++ [j] ≠ path virt →
        present (entries m u j) = true → entries m' u j = entries m u j := by
  obtain ⟨label', ⟨-, hgrows⟩ | ⟨-, -, hmapped⟩⟩ := h.mapPage_ok hA hroot hmap
  · exact ⟨label', hgrows.paging, hgrows.mono, fun hu _ => hgrows.entry_of_present hu⟩
  · exact ⟨label', hmapped.paging hroot, hmapped.mono, fun hu => hmapped.entry_of_present hroot hu⟩

/-! ## Unmapping -/

/-- The walk of `virt` leads to an entry that names no structure, below the PML4, and that entry
was cleared. -/
def Cleared (root virt : BitVec 64) (m m' : Machine σ) : Prop :=
  ∃ t p i rest, Leads slot (entries m) root p t ∧ p ≠ [] ∧ p ++ i :: rest = path virt ∧
    (∀ t', slot p.length (entries m t i) ≠ .next t') ∧ m' = m.write t i 0

/-- No large page maps the address. -/
def NotLarge (m : Machine σ) (root virt : BitVec 64) : Prop :=
  ∀ d e, lookup m root virt = some (d, e) → d = 3

section Entries

variable {root t : BitVec 64} {i : Index} {p rest : List Index}

/-- An address with an absent entry on its way is not mapped. -/
theorem lookup_none_of_absent (hleads : Leads slot (entries m) root p t)
    (hpath : p ++ i :: rest = path virt) (habsent : present (entries m t i) = false) :
    lookup m root virt = none := by
  rw [lookup, ← hpath, hleads.walk_append, walk_of_absent (Paging.slot_of_absent habsent _)]

/-- `unmapPage` at a large page: it refuses to unmap it, or it clears its entry. -/
theorem Paging.unmapLarge_cases (h : Paging held m roots label) (hroot : label root = some [])
    (hleads : Leads slot (entries m) root p t) (hp : p ≠ []) (hpath : p ++ i :: rest = path virt)
    (hleaf : slot p.length (entries m t i) = .leaf) (unmapLargePages : Bool) :
    ∃ c m', (if !unmapLargePages then return -1
        else do
          writeTable t (i.setWidth 64) 0
          return 1 : KernelM σ ℤ) m = .ok (c, m') ∧
      ((m' = m ∧ c = -1 ∧ unmapLargePages = false) ∨
        (c = 1 ∧ Cleared root virt m m' ∧ unmapLargePages = true)) := by
  cases unmapLargePages with
  | false => exact ⟨-1, m, rfl, .inl ⟨rfl, rfl, rfl⟩⟩
  | true =>
    rw [if_neg (by simp),
      bind_of_ok (writeTable_eq (h.accessible (hleads.label_eq h.labelled hroot)) _ _)]
    refine ⟨1, _, rfl, .inr ⟨rfl, ⟨t, p, i, rest, hleads, hp, hpath, fun t' ht' => ?_, rfl⟩, rfl⟩⟩
    cases hleaf.symm.trans ht'

/-- The entry of the page is in its page table, and no large page maps it. -/
theorem cleared_of_tablePath (hleads : Leads slot (entries m) root (tablePath virt) t) :
    Cleared root virt m (m.write t (pageIndex virt) 0) ∧ NotLarge m root virt := by
  refine ⟨⟨t, _, _, [], hleads, by simp [tablePath], rfl, fun t' ht' => ?_, rfl⟩,
    fun d e hlookup => ?_⟩
  · simp only [tablePath, List.length_cons, List.length_nil, slot] at ht'
    split at ht' <;> cases ht'
  · -- the walk ends in the page table
    rw [lookup, path_eq, hleads.walk_append] at hlookup
    rcases hpresent : present (entries m t (pageIndex virt)) with _ | _
    · rw [walk_of_absent (Paging.slot_of_absent hpresent _)] at hlookup
      cases hlookup
    · have hleaf : slot (tablePath virt).length (entries m t (pageIndex virt)) = .leaf :=
        Paging.slot_last hpresent
      rw [walk_of_leaf hleaf, Option.some.injEq, Prod.mk.injEq] at hlookup
      exact hlookup.1.symm

end Entries

/-- Unmapping a canonical address returns: it refuses to unmap a large page, it finds nothing
mapped, or it clears the entry at which the walk ends. -/
theorem Paging.unmapPage_cases (h : Paging held m roots label)
    (hroot : label pt.pml4Phys = some []) (hv : nonCanonical virt = false)
    (unmapLargePages : Bool) :
    ∃ c m', unmapPage pt virt unmapLargePages m = .ok (c, m') ∧
      ((m' = m ∧ c = -1 ∧ unmapLargePages = false) ∨
        (m' = m ∧ c = 0 ∧ lookup m pt.pml4Phys virt = none) ∨
          (c = 1 ∧ Cleared pt.pml4Phys virt m m' ∧
            (unmapLargePages = false → NotLarge m pt.pml4Phys virt))) := by
  unfold unmapPage
  rw [if_neg (by simp [hv]), tableIndex_eq virt (by omega), tableIndex_eq virt (by omega),
    tableIndex_eq virt (by omega), tableIndex_eq virt (by omega),
    bind_of_ok (readTable_eq (h.accessible hroot) _)]
  have hleads₀ : Leads slot (entries m) pt.pml4Phys [] pt.pml4Phys := .nil
  -- the PML4
  rcases h4 : present (entries m pt.pml4Phys (virt.extractLsb' 39 9)) with _ | _
  · exact ⟨0, m, rfl, .inr (.inl ⟨rfl, rfl, lookup_none_of_absent hleads₀ rfl h4⟩)⟩
  have hleads₄ := hleads₀.snoc (slot_zero h4)
  rw [if_neg (by simp)]
  dsimp only
  rw [bind_of_ok (readTable_eq (h.accessible (hleads₄.label_eq h.labelled hroot)) _)]
  set pdpt := tableAddr (entries m pt.pml4Phys (virt.extractLsb' 39 9))
  -- the PDPT
  rcases h3 : present (entries m pdpt (virt.extractLsb' 30 9)) with _ | _
  · exact ⟨0, m, rfl, .inr (.inl ⟨rfl, rfl, lookup_none_of_absent hleads₄ rfl h3⟩)⟩
  have hslot₃ := slot_mid (Or.inl rfl) h3
  rw [if_neg (by simp)]
  rcases hl3 : large (entries m pdpt (virt.extractLsb' 30 9)) with _ | _
  swap
  · rw [hl3, if_pos rfl] at hslot₃
    rw [if_pos rfl]
    obtain ⟨c, m', heq, hcases⟩ :=
      h.unmapLarge_cases hroot hleads₄ (by simp) rfl hslot₃ unmapLargePages
    exact ⟨c, m', heq, hcases.imp_right fun ⟨hc, hcleared, hlarge⟩ =>
      .inr ⟨hc, hcleared, by simp [hlarge]⟩⟩
  rw [hl3, if_neg (by simp)] at hslot₃
  have hleads₃ := hleads₄.snoc hslot₃
  rw [if_neg (by simp),
    bind_of_ok (readTable_eq (h.accessible (hleads₃.label_eq h.labelled hroot)) _)]
  set pdt := tableAddr (entries m pdpt (virt.extractLsb' 30 9))
  -- the page directory
  rcases h2 : present (entries m pdt (virt.extractLsb' 21 9)) with _ | _
  · exact ⟨0, m, rfl, .inr (.inl ⟨rfl, rfl, lookup_none_of_absent hleads₃ rfl h2⟩)⟩
  have hslot₂ := slot_mid (Or.inr rfl) h2
  rw [if_neg (by simp)]
  rcases hl2 : large (entries m pdt (virt.extractLsb' 21 9)) with _ | _
  swap
  · rw [hl2, if_pos rfl] at hslot₂
    rw [if_pos rfl]
    obtain ⟨c, m', heq, hcases⟩ :=
      h.unmapLarge_cases hroot hleads₃ (by simp) rfl hslot₂ unmapLargePages
    exact ⟨c, m', heq, hcases.imp_right fun ⟨hc, hcleared, hlarge⟩ =>
      .inr ⟨hc, hcleared, by simp [hlarge]⟩⟩
  rw [hl2, if_neg (by simp)] at hslot₂
  have hleads₂ := hleads₃.snoc hslot₂
  -- the page table
  rw [if_neg (by simp),
    bind_of_ok (writeTable_eq (h.accessible (hleads₂.label_eq h.labelled hroot)) _ _)]
  obtain ⟨hcleared, hlarge⟩ := cleared_of_tablePath hleads₂
  exact ⟨1, _, rfl, .inr (.inr ⟨rfl, hcleared, fun _ => hlarge⟩)⟩

/-- `unmapPage` does nothing, because it fails or the address is not mapped, or it clears the entry
at which the walk ends. -/
theorem Paging.unmapPage_ok (h : Paging held m roots label) (hroot : label pt.pml4Phys = some [])
    {unmapLargePages : Bool} (hunmap : unmapPage pt virt unmapLargePages m = .ok (c, m')) :
    (m' = m ∧ (c < 0 ∨ lookup m pt.pml4Phys virt = none)) ∨
      (c = 1 ∧ Cleared pt.pml4Phys virt m m') := by
  cases hv : nonCanonical virt with
  | true =>
    rw [unmapPage, hv] at hunmap
    obtain ⟨rfl, rfl⟩ := pure_eq_ok.mp hunmap
    exact Or.inl ⟨rfl, Or.inl (by omega)⟩
  | false =>
    obtain ⟨c', m'', heq, hcases⟩ := h.unmapPage_cases hroot hv unmapLargePages
    obtain ⟨rfl, rfl⟩ := Prod.mk.inj (Except.ok.inj (hunmap.symm.trans heq))
    rcases hcases with ⟨hm, hc, -⟩ | ⟨hm, -, hnone⟩ | hcleared
    · exact Or.inl ⟨hm, Or.inl (by omega)⟩
    · exact Or.inl ⟨hm, Or.inr hnone⟩
    · exact Or.inr ⟨hcleared.1, hcleared.2.1⟩

/-- Unmapping a canonical address returns, and it does not fail if large pages may be unmapped. -/
theorem Paging.unmapPage_returns (h : Paging held m roots label)
    (hroot : label pt.pml4Phys = some []) (hv : nonCanonical virt = false) :
    ∃ c m', unmapPage pt virt true m = .ok (c, m') ∧ 0 ≤ c := by
  obtain ⟨c, m', heq, ⟨-, -, hflag⟩ | ⟨-, hc, -⟩ | ⟨hc, -⟩⟩ := h.unmapPage_cases hroot hv true
  · cases hflag
  · exact ⟨c, m', heq, by omega⟩
  · exact ⟨c, m', heq, by omega⟩

namespace Cleared

variable {root u : BitVec 64} {p q : List Index}

theorem paging (hc : Cleared root virt m m') (h : Paging held m roots label)
    (hroot : label root = some []) : Paging held m' roots label := by
  obtain ⟨t, pt, i, rest, hleads, -, -, -, rfl⟩ := hc
  refine h.write (hleads.label_eq h.labelled hroot) i 0 fun t' hslot => ?_
  rw [Paging.slot_of_absent rfl] at hslot
  cases hslot

/-- The address is no longer mapped. -/
theorem lookup_eq (hc : Cleared root virt m m') (h : Paging held m roots label)
    (hroot : label root = some []) : lookup m' root virt = none := by
  obtain ⟨t, pt, i, rest, hleads, -, hpath, -, rfl⟩ := hc
  have hframe := h.isFrame (hleads.label_eq h.labelled hroot)
  have hentry := entries_write (m := m) hframe hframe i i 0
  rw [if_pos rfl] at hentry
  rw [lookup, ← hpath, (h.leads_write hroot hleads i 0).walk_append,
    walk_of_absent (Paging.slot_of_absent (by rw [hentry]; rfl) _)]

/-- If the address was mapped by a page table, no other translation changes. -/
theorem walk_eq (hc : Cleared root virt m m') (h : Paging held m roots label)
    (hroot : label root = some []) {e : BitVec 64} (hpage : lookup m root virt = some (3, e))
    (hu : label u = some p) (hne : ¬ path virt <+: p ++ q) :
    walk slot (entries m') p.length u q = walk slot (entries m) p.length u q := by
  obtain ⟨t, pt, i, rest, hleads, -, hpath, hslot, rfl⟩ := hc
  rw [lookup, ← hpath, hleads.walk_append] at hpage
  -- the walk ended at the cleared entry, so that is the last one on the path
  have hlen : pt.length = 3 := by
    rcases hs : slot pt.length (entries m t i) with _ | t' | _
    · rw [walk_of_absent hs] at hpage
      cases hpage
    · exact absurd hs (hslot t')
    · rw [walk_of_leaf hs, Option.some.injEq, Prod.mk.injEq] at hpage
      exact hpage.1
  have hrest : rest = [] := by
    have := congrArg List.length hpath
    simp only [List.length_append, List.length_cons, path, List.length_nil] at this
    exact List.eq_nil_of_length_eq_zero (by omega)
  subst hrest
  rw [← hpath] at hne
  exact h.walk_write (hleads.label_eq h.labelled hroot) i 0 hu hne

/-- PML4s stay as they are. -/
theorem root_entry (hc : Cleared root virt m m') (h : Paging held m roots label)
    (hroot : label root = some []) (hu : label u = some []) (j : Index) :
    entries m' u j = entries m u j := by
  obtain ⟨t, pt, i, rest, hleads, hnil, -, -, rfl⟩ := hc
  have ht := hleads.label_eq h.labelled hroot
  rw [entries_write (h.isFrame ht) (h.isFrame hu), if_neg]
  rintro ⟨⟩
  rw [hu, Option.some.injEq] at ht
  exact hnil ht.symm

end Cleared

/-- What unmapping keeps: the paths, the PML4s and the allocator. -/
structure Keeps (held : σ → Set (BitVec 64)) (roots : List (BitVec 64)) (m m' : Machine σ)
    (label : Labels (BitVec 64) Index) : Prop where
  paging : Paging held m' roots label
  root_entry : ∀ {u : BitVec 64} (j : Index), label u = some [] → entries m' u j = entries m u j
  allocator : m'.allocator = m.allocator
  earlyBoot : m'.earlyBoot = m.earlyBoot
  first : m'.isFirstPageTable = m.isFirstPageTable

theorem Keeps.refl (h : Paging held m roots label) : Keeps held roots m m label :=
  ⟨h, fun _ _ => rfl, rfl, rfl, rfl⟩

theorem Keeps.trans {m'' : Machine σ} (h : Keeps held roots m m' label)
    (h' : Keeps held roots m' m'' label) : Keeps held roots m m'' label :=
  ⟨h'.paging, fun j hu => (h'.root_entry j hu).trans (h.root_entry j hu),
    h'.allocator.trans h.allocator, h'.earlyBoot.trans h.earlyBoot, h'.first.trans h.first⟩

theorem Cleared.keeps {root : BitVec 64} (hc : Cleared root virt m m')
    (h : Paging held m roots label) (hroot : label root = some []) :
    Keeps held roots m m' label := by
  refine ⟨hc.paging h hroot, fun j hu => hc.root_entry h hroot hu j, ?_, ?_, ?_⟩ <;>
  · obtain ⟨t, pt, i, rest, -, -, -, -, rfl⟩ := hc
    rfl

/-- What clearing an entry preserves, unmapping a page preserves. -/
theorem Paging.unmapPage_preserves {inv : Machine σ → Prop} (h : Paging held m roots label)
    (hroot : label pt.pml4Phys = some []) {unmapLargePages : Bool}
    (hclear : ∀ m', Cleared pt.pml4Phys virt m m' → inv m → inv m')
    (hunmap : unmapPage pt virt unmapLargePages m = .ok (c, m')) (hinv : inv m) : inv m' := by
  rcases h.unmapPage_ok hroot hunmap with ⟨rfl, -⟩ | ⟨-, hc⟩
  · exact hinv
  · exact hclear m' hc hinv

/-- `unmap` is a sequence of `unmapPage`. -/
theorem Paging.unmapLoop_preserves {inv : Machine σ → Prop} (h : Paging held m roots label)
    (hroot : label pt.pml4Phys = some [])
    (hclear : ∀ m m' v, Paging held m roots label → Cleared pt.pml4Phys v m m' → inv m → inv m')
    {n : ℕ} (hunmap : unmapLoop pt virt n m = .ok (c, m')) (hinv : inv m) : inv m' := by
  induction n generalizing virt m with
  | zero =>
    obtain ⟨-, rfl⟩ := pure_eq_ok.mp hunmap
    exact hinv
  | succ n ih =>
    obtain ⟨err, m₁, hpage, hrest⟩ := bind_eq_ok.mp hunmap
    have hinv₁ := h.unmapPage_preserves hroot (fun m' hc => hclear m m' _ h hc) hpage hinv
    have hpaging := h.unmapPage_preserves hroot (fun m' hc _ => hc.paging h hroot) hpage h
    split at hrest
    · obtain ⟨-, rfl⟩ := pure_eq_ok.mp hrest
      exact hinv₁
    · exact ih hpaging hrest hinv₁

theorem Paging.unmap_preserves {inv : Machine σ → Prop} (h : Paging held m roots label)
    (hroot : label pt.pml4Phys = some [])
    (hclear : ∀ m m' v, Paging held m roots label → Cleared pt.pml4Phys v m m' → inv m → inv m')
    {length : ℕ} (hunmap : PageTable.unmap pt virt length m = .ok (c, m')) (hinv : inv m) :
    inv m' := by
  unfold PageTable.unmap at hunmap
  split at hunmap
  · obtain ⟨-, rfl⟩ := pure_eq_ok.mp hunmap
    exact hinv
  · exact h.unmapLoop_preserves hroot hclear hunmap hinv

theorem Paging.unmapPage_keeps (h : Paging held m roots label)
    (hroot : label pt.pml4Phys = some []) {unmapLargePages : Bool}
    (hunmap : unmapPage pt virt unmapLargePages m = .ok (c, m')) : Keeps held roots m m' label :=
  h.unmapPage_preserves hroot (fun _ hc _ => hc.keeps h hroot) hunmap (.refl h)

theorem Paging.unmapLoop_keeps (h : Paging held m roots label)
    (hroot : label pt.pml4Phys = some []) {n : ℕ}
    (hunmap : unmapLoop pt virt n m = .ok (c, m')) : Keeps held roots m m' label := by
  have hclear : ∀ m₁ m₂ v, Paging held m₁ roots label → Cleared pt.pml4Phys v m₁ m₂ →
      Keeps held roots m m₁ label → Keeps held roots m m₂ label :=
    fun _ _ _ hp hc hk => hk.trans (hc.keeps hp hroot)
  exact h.unmapLoop_preserves hroot hclear hunmap (.refl h)

theorem Paging.unmap_keeps (h : Paging held m roots label) (hroot : label pt.pml4Phys = some [])
    {length : ℕ} (hunmap : PageTable.unmap pt virt length m = .ok (c, m')) :
    Keeps held roots m m' label := by
  unfold PageTable.unmap at hunmap
  split at hunmap
  · obtain ⟨-, rfl⟩ := pure_eq_ok.mp hunmap
    exact .refl h
  · exact h.unmapLoop_keeps hroot hunmap

end KushOs.Vm
