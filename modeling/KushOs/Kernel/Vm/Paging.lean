import KushOs.Kernel.Vm.Translation

/-!
# The invariant of paging structures

All page tables share physical memory, and the upper halves of their PML4s name the same
structures. `Paging` says that every structure in use has one path of indices, whichever PML4 it
is reached from, and that its frame is held, so that the allocator cannot hand it out again. Each
operation of `PageTable` keeps it, with effects that `Grows` and its like describe.

## Main definitions

* `Paging`: the invariant, for the PML4s `roots` and the paths `label`.
* `Grows`: the effect of looking for the page table of an address: absent entries on its path may
  be linked to new structures, and no translation changes.

## Main results

* `Paging.getPhysAddr_eq`: `getPhysAddr` is the walk of the radix table.
* `Paging.descend_ok`: one level of `mapPage`.
-/

namespace KushOs.Vm

open Memory RadixTable KernelM PageTable

variable {σ : Type}

/-- The paging structures in use have one path each, and their frames are held. -/
structure Paging (held : σ → Set (BitVec 64)) (m : Machine σ) (roots : List (BitVec 64))
    (label : Labels (BitVec 64) Index) : Prop where
  /-- The entries respect the paths. -/
  labelled : Labelled slot (entries m) roots label
  /-- The structures are frames that the kernel can reach and that are held. -/
  inUse : ∀ {t : BitVec 64} {p : List Index},
    label t = some p → IsFrame t ∧ m.Accessible t ∧ t ∈ held m.allocator

namespace Paging

variable {held : σ → Set (BitVec 64)} {m m' : Machine σ} {roots : List (BitVec 64)}
variable {label label' : Labels (BitVec 64) Index} {t : BitVec 64} {p : List Index}

theorem isFrame (h : Paging held m roots label) (ht : label t = some p) : IsFrame t :=
  (h.inUse ht).1

theorem accessible (h : Paging held m roots label) (ht : label t = some p) : m.Accessible t :=
  (h.inUse ht).2.1

theorem mem_held (h : Paging held m roots label) (ht : label t = some p) :
    t ∈ held m.allocator :=
  (h.inUse ht).2.2

/-- Fewer roots have to be considered. -/
theorem of_subset (h : Paging held m roots label) {roots' : List (BitVec 64)}
    (hsub : ∀ r ∈ roots', r ∈ roots) : Paging held m roots' label :=
  ⟨⟨fun r hr => h.labelled.root r (hsub r hr), h.labelled.next⟩, h.inUse⟩

/-- The allocator's state matters only for the frames that are held. -/
theorem setAllocator (h : Paging held m roots label) {a : σ} (ha : held m.allocator ⊆ held a) :
    Paging held { m with allocator := a } roots label :=
  ⟨h.labelled, fun hu => ⟨h.isFrame hu, h.accessible hu, ha (h.mem_held hu)⟩⟩

theorem slot_zero {e : BitVec 64} (h : present e = true) : slot 0 e = .next (tableAddr e) := by
  simp [slot, h]

theorem slot_of_absent {e : BitVec 64} (h : present e = false) (d : ℕ) : slot d e = .absent := by
  match d with
  | 0 | 1 | 2 | 3 => simp [slot, h]
  | _ + 4 => rfl

/-- Present entries stand for something, at all four levels. -/
theorem slot_ne_absent {e : BitVec 64} {d : ℕ} (hd : d ≤ 3) (h : present e = true) :
    slot d e ≠ .absent := by
  match d with
  | 0 | 3 => simp [slot, h]
  | 1 | 2 =>
    simp only [slot, h, if_true]
    split <;> simp
  | _ + 4 => omega

/-- Nothing is mapped below an absent entry of a PML4. -/
theorem lookup_of_absent {m : Machine σ} {root virt : BitVec 64}
    (h : present (entries m root (virt.extractLsb' 39 9)) = false) : lookup m root virt = none :=
  walk_of_absent (slot_of_absent h 0)

/-- At the two levels that may map large pages. -/
theorem slot_mid {e : BitVec 64} {d : ℕ} (hd : d = 1 ∨ d = 2) (h : present e = true) :
    slot d e = if large e then .leaf else .next (tableAddr e) := by
  rcases hd with rfl | rfl <;> simp [slot, h]

/-- A page table maps pages. -/
theorem slot_last {e : BitVec 64} (h : present e = true) : slot 3 e = .leaf := by
  simp [slot, h]

/-- `getPhysAddr` is the walk of the radix table; it returns exactly if the kernel can reach every
structure that the walk meets. -/
theorem getPhysAddr_eq_ok {pt : PageTable} {virt : BitVec 64} (hv : nonCanonical virt = false)
    {r : ℤ × Option (BitVec 64 × Mode)} :
    getPhysAddr pt virt m = .ok (r, m') ↔
      (∀ x ∈ trail slot (entries m) 0 pt.pml4Phys (path virt), m.Accessible x.2.1) ∧
        translation virt (lookup m pt.pml4Phys virt) = r ∧ m = m' := by
  unfold getPhysAddr lookup path
  rw [if_neg (by simp [hv]), tableIndex_eq virt (by omega), tableIndex_eq virt (by omega),
    tableIndex_eq virt (by omega), tableIndex_eq virt (by omega), readTable_bind_eq_ok]
  rcases h4 : present (entries m pt.pml4Phys (virt.extractLsb' 39 9)) with _ | _
  · rw [walk_of_absent (slot_of_absent h4 0), trail_of_absent (slot_of_absent h4 0),
      List.forall_mem_singleton]
    exact and_congr_right fun _ => pure_eq_ok
  have hslot₄ := slot_zero h4
  rw [walk_of_next hslot₄, trail_of_next hslot₄, List.forall_mem_cons, and_assoc,
    if_neg (by simp), readTable_bind_eq_ok]
  refine and_congr_right fun _ => ?_
  -- the PDPT
  set pdpt := tableAddr (entries m pt.pml4Phys (virt.extractLsb' 39 9))
  rcases h3 : present (entries m pdpt (virt.extractLsb' 30 9)) with _ | _
  · rw [walk_of_absent (slot_of_absent h3 _), trail_of_absent (slot_of_absent h3 _),
      List.forall_mem_singleton]
    exact and_congr_right fun _ => pure_eq_ok
  have hslot₃ := slot_mid (Or.inl rfl) h3
  rw [if_neg (by simp)]
  rcases hl3 : large (entries m pdpt (virt.extractLsb' 30 9)) with _ | _
  swap
  · rw [hl3, if_pos rfl] at hslot₃
    rw [walk_of_leaf hslot₃, trail_of_leaf hslot₃, List.forall_mem_singleton]
    exact and_congr_right fun _ => pure_eq_ok
  rw [hl3, if_neg (by simp)] at hslot₃
  rw [walk_of_next hslot₃, trail_of_next hslot₃, List.forall_mem_cons, and_assoc,
    if_neg (by simp), readTable_bind_eq_ok]
  refine and_congr_right fun _ => ?_
  -- the page directory
  set pdt := tableAddr (entries m pdpt (virt.extractLsb' 30 9))
  rcases h2 : present (entries m pdt (virt.extractLsb' 21 9)) with _ | _
  · rw [walk_of_absent (slot_of_absent h2 _), trail_of_absent (slot_of_absent h2 _),
      List.forall_mem_singleton]
    exact and_congr_right fun _ => pure_eq_ok
  have hslot₂ := slot_mid (Or.inr rfl) h2
  rw [if_neg (by simp)]
  rcases hl2 : large (entries m pdt (virt.extractLsb' 21 9)) with _ | _
  swap
  · rw [hl2, if_pos rfl] at hslot₂
    rw [walk_of_leaf hslot₂, trail_of_leaf hslot₂, List.forall_mem_singleton]
    exact and_congr_right fun _ => pure_eq_ok
  rw [hl2, if_neg (by simp)] at hslot₂
  rw [walk_of_next hslot₂, trail_of_next hslot₂, List.forall_mem_cons, and_assoc,
    if_neg (by simp), readTable_bind_eq_ok]
  refine and_congr_right fun _ => ?_
  -- the page table
  set ptAddr := tableAddr (entries m pdt (virt.extractLsb' 21 9))
  rcases h1 : present (entries m ptAddr (virt.extractLsb' 12 9)) with _ | _
  · rw [walk_of_absent (slot_of_absent h1 _), trail_of_absent (slot_of_absent h1 _),
      List.forall_mem_singleton]
    exact and_congr_right fun _ => pure_eq_ok
  · rw [walk_of_leaf (slot_last h1), trail_of_leaf (slot_last h1), List.forall_mem_singleton]
    exact and_congr_right fun _ => pure_eq_ok

/-- The structures that a walk meets can be reached. -/
theorem accessible_of_mem_trail (h : Paging held m roots label) {root : BitVec 64}
    (hroot : label root = some []) {q : List Index} {x : ℕ × BitVec 64 × Index}
    (hx : x ∈ trail slot (entries m) 0 root q) : m.Accessible x.2.1 := by
  obtain ⟨px, hpx, -⟩ := h.labelled.label_of_mem_trail hroot hx
  exact h.accessible hpx

/-- `getPhysAddr` of a page table in use returns. -/
theorem getPhysAddr_eq (h : Paging held m roots label) {pt : PageTable}
    (hroot : label pt.pml4Phys = some []) {virt : BitVec 64} (hv : nonCanonical virt = false) :
    getPhysAddr pt virt m = .ok (translation virt (lookup m pt.pml4Phys virt), m) :=
  (getPhysAddr_eq_ok hv).mpr ⟨fun _ hx => h.accessible_of_mem_trail hroot hx, rfl, rfl⟩

/-- Writing an entry keeps the invariant if the structure it names, if any, has the path through
the entry. -/
theorem write (h : Paging held m roots label) (ht : label t = some p) (i : Index) (e : BitVec 64)
    (hslot : ∀ t', slot p.length e = .next t' → label t' = some (p ++ [i])) :
    Paging held (m.write t i e) roots label := by
  have hframe : ∀ u pu j, label u = some pu → (u, j) ≠ (t, i) →
      entries (m.write t i e) u j = entries m u j := by
    intro u pu j hu hne
    rw [entries_write (h.isFrame ht) (h.isFrame hu), if_neg hne]
  refine ⟨h.labelled.write ht hframe fun t' hnext => hslot t' ?_, fun hu => h.inUse hu⟩
  rwa [entries_write (h.isFrame ht) (h.isFrame ht), if_pos rfl] at hnext

/-- Walks that do not pass through a written entry stay as they are. -/
theorem walk_write (h : Paging held m roots label) (ht : label t = some p) (i : Index)
    (e : BitVec 64) {u : BitVec 64} {pu q : List Index} (hu : label u = some pu)
    (hpath : ¬ p ++ [i] <+: pu ++ q) :
    walk slot (entries (m.write t i e)) pu.length u q = walk slot (entries m) pu.length u q := by
  refine h.labelled.walk_put ht (fun u pu j hu hne => ?_) hu hpath
  rw [entries_write (h.isFrame ht) (h.isFrame hu), if_neg hne]

/-- A write leaves the way to its own structure alone. -/
theorem leads_write (h : Paging held m roots label) {root : BitVec 64}
    (hroot : label root = some []) (hleads : Leads slot (entries m) root p t) (i : Index)
    (e : BitVec 64) : Leads slot (entries (m.write t i e)) root p t := by
  have ht := hleads.label_eq h.labelled hroot
  refine hleads.congr h.labelled hroot fun u pu j rest _ hu hpath _ => ?_
  rw [entries_write (h.isFrame ht) (h.isFrame hu), if_neg]
  rintro ⟨⟩
  -- the entries on the way are in structures with shorter paths
  obtain rfl : p = pu := Option.some.inj (ht.symm.trans hu)
  simpa using congrArg List.length hpath

end Paging

/-! ## Looking for a page table -/

/-- One step of looking for the page table of `virt` from the PML4 at `root`: a frame is taken and
zeroed, or a zeroed frame is linked into an absent entry on the path. -/
inductive GrowStep (held : σ → Set (BitVec 64)) (roots : List (BitVec 64)) (root virt : BitVec 64) :
    Machine σ × Labels (BitVec 64) Index → Machine σ × Labels (BitVec 64) Index → Prop
  | alloc {m : Machine σ} {label : Labels (BitVec 64) Index} {page : BitVec 64} {s : σ} :
      Paging held m roots label → IsFrame page → page ∉ held m.allocator →
      GrowStep held roots root virt (m, label)
        (Machine.zero { m with allocator := s } page, label)
  | link {m : Machine σ} {label : Labels (BitVec 64) Index} {t page : BitVec 64} {p : List Index}
      {i : Index} :
      Paging held m roots label → Leads slot (entries m) root p t → label t = some p →
      nonCanonical virt = false → p ++ [i] <+: path virt → present (entries m t i) = false →
      IsFrame page →
      label page = none → (∀ j, entries m page j = 0) →
      GrowStep held roots root virt (m, label)
        (m.write t i (tableEntry page virt), Function.update label page (some (p ++ [i])))

/-- The effect of looking for the page table of `virt` from the PML4 at `root`: entries on its path
that were absent may name new structures, whose frames become held. No translation changes. Frames
in `base` do not become structures. -/
structure Grows (held : σ → Set (BitVec 64)) (base : Set (BitVec 64)) (roots : List (BitVec 64))
    (root virt : BitVec 64) (m m' : Machine σ) (label label' : Labels (BitVec 64) Index) :
    Prop where
  paging : Paging held m' roots label'
  mono : ∀ {u : BitVec 64} {p : List Index}, label u = some p → label' u = some p
  fresh : ∀ {u : BitVec 64} {p : List Index}, label' u = some p → label u = some p ∨ u ∉ base
  walk_eq : ∀ {u : BitVec 64} {p : List Index} (q : List Index), label u = some p →
    walk slot (entries m') p.length u q = walk slot (entries m) p.length u q
  entry : ∀ {u : BitVec 64} {p : List Index} (j : Index), label u = some p →
    entries m' u j = entries m u j ∨
      (nonCanonical virt = false ∧ p ++ [j] <+: path virt ∧ (p = [] → u = root) ∧
        present (entries m u j) = false ∧
          ∃ page, IsFrame page ∧ entries m' u j = tableEntry page virt)
  held_subset : held m.allocator ⊆ held m'.allocator
  accessible : m'.Accessible = m.Accessible
  first : m'.isFirstPageTable = m.isFirstPageTable
  steps : Relation.ReflTransGen (GrowStep held roots root virt) (m, label) (m', label')

namespace Grows

variable {held : σ → Set (BitVec 64)} {m m' m'' : Machine σ} {roots : List (BitVec 64)}
variable {label label' label'' : Labels (BitVec 64) Index} {root virt t page : BitVec 64}
variable {p : List Index} {base : Set (BitVec 64)}

theorem refl (h : Paging held m roots label) : Grows held base roots root virt m m label label :=
  ⟨h, fun hu => hu, Or.inl, fun _ _ => rfl, fun _ _ => Or.inl rfl, Set.Subset.rfl, rfl, rfl, .refl⟩

theorem trans (h : Grows held base roots root virt m m' label label')
    (h' : Grows held base roots root virt m' m'' label' label'') :
    Grows held base roots root virt m m'' label label'' := by
  refine ⟨h'.paging, fun hu => h'.mono (h.mono hu),
    fun hu => (h'.fresh hu).elim (fun hu' => h.fresh hu') Or.inr,
    fun q hu => (h'.walk_eq q (h.mono hu)).trans (h.walk_eq q hu), fun j hu => ?_,
    h.held_subset.trans h'.held_subset, h'.accessible.trans h.accessible, h'.first.trans h.first,
    h.steps.trans h'.steps⟩
  rcases h.entry j hu with hsame | ⟨hcanon, hpath, hroot, habsent, page, hpage, hnew⟩
  · rcases h'.entry j (h.mono hu) with hsame' | ⟨hcanon, hpath, hroot, habsent, hnew⟩
    · exact Or.inl (hsame'.trans hsame)
    · exact Or.inr ⟨hcanon, hpath, hroot, hsame ▸ habsent, hnew⟩
  · rcases h'.entry j (h.mono hu) with hsame' | ⟨-, -, -, habsent', -⟩
    · exact Or.inr ⟨hcanon, hpath, hroot, habsent, page, hpage, hsame'.trans hnew⟩
    · -- an entry that was linked is not absent
      rw [hnew, present_tableEntry] at habsent'
      cases habsent'

/-- Entries that are present stay as they are. -/
theorem entry_of_present (h : Grows held base roots root virt m m' label label') {u : BitVec 64}
    (hu : label u = some p) {j : Index} (hpresent : present (entries m u j) = true) :
    entries m' u j = entries m u j := by
  rcases h.entry j hu with hsame | ⟨-, -, -, habsent, -⟩
  · exact hsame
  · rw [hpresent] at habsent
    cases habsent

/-- Entries that name structures stay as they are. -/
theorem leads (h : Grows held base roots root virt m m' label label')
    (hl : Labelled slot (entries m) roots label) (hroot : label root = some [])
    (hleads : Leads slot (entries m) root p t) : Leads slot (entries m') root p t := by
  refine hleads.congr hl hroot fun u pu j rest t' hu _ hnext => ?_
  rcases h.entry j hu with hsame | ⟨-, -, -, habsent, -⟩
  · exact hsame
  · rw [Paging.slot_of_absent habsent] at hnext
    cases hnext

/-- A frame that is not held is not in use as a structure. -/
theorem label_of_fresh (h : Paging held m roots label) (hfresh : page ∉ held m.allocator) :
    label page = none := by
  rcases hlabel : label page with _ | p
  · rfl
  · exact absurd (h.mem_held hlabel) hfresh

/-- Taking a frame for a structure and zeroing it. -/
theorem alloc (base : Set (BitVec 64)) (root virt : BitVec 64) (h : Paging held m roots label)
    (hpage : IsFrame page)
    (hfresh : page ∉ held m.allocator) {s : σ} (hs : held s = held m.allocator ∪ {page}) :
    Grows held base roots root virt m (Machine.zero { m with allocator := s } page) label
      label := by
  have hheld : held m.allocator ⊆ held s := hs ▸ Set.subset_union_left
  have hframe : ∀ u pu i, label u = some pu →
      entries (Machine.zero { m with allocator := s } page) u i = entries m u i := by
    intro u pu i hu
    refine entries_zero_of_ne _ hpage (h.isFrame hu) ?_ i
    rintro rfl
    exact hfresh (h.mem_held hu)
  exact ⟨⟨h.labelled.congr hframe, fun hu => ⟨h.isFrame hu, h.accessible hu,
      hheld (h.mem_held hu)⟩⟩, fun hu => hu, Or.inl,
    fun q hu => h.labelled.walk_congr hu fun u pu i rest hu' _ => hframe u pu i hu',
    fun j hu => Or.inl (hframe _ _ j hu), hheld, rfl, rfl, .single (.alloc h hpage hfresh)⟩

/-- The slot of an entry that links a structure. -/
theorem slot_tableEntry (hpage : IsFrame page) {d : ℕ} (hd : d ≤ 2) :
    slot d (tableEntry page virt) = .next page := by
  have hpresent := present_tableEntry page virt
  rcases Nat.eq_zero_or_pos d with rfl | hpos
  · rw [Paging.slot_zero hpresent, tableAddr_tableEntry hpage]
  · rw [Paging.slot_mid (by omega) hpresent, large_tableEntry hpage, tableAddr_tableEntry hpage]
    rfl

/-- Linking a zeroed frame into an absent entry. -/
theorem link (h : Paging held m roots label) (hpage : IsFrame page) (hacc : m.Accessible page)
    (hheld : page ∈ held m.allocator) (hbase : page ∉ base) (hfresh : label page = none)
    (hzero : ∀ j, entries m page j = 0) (ht : label t = some p) (hlen : p.length ≤ 2) {i : Index}
    (hcanon : nonCanonical virt = false) (hpath : p ++ [i] <+: path virt)
    (hleads : Leads slot (entries m) root p t) (habsent : present (entries m t i) = false) :
    Grows held base roots root virt m (m.write t i (tableEntry page virt)) label
      (Function.update label page (some (p ++ [i]))) := by
  -- one entry changes, and the structure behind it is empty
  have hframe : ∀ u pu j, label u = some pu → (u, j) ≠ (t, i) →
      entries (m.write t i (tableEntry page virt)) u j = entries m u j := by
    intro u pu j hu hne
    rw [entries_write (h.isFrame ht) (h.isFrame hu), if_neg hne]
  have hself : entries (m.write t i (tableEntry page virt)) t i = tableEntry page virt := by
    rw [entries_write (h.isFrame ht) (h.isFrame ht), if_pos rfl]
  have hempty : ∀ (d : ℕ) (j : Index), slot d (entries m page j) = .absent := fun d j =>
    Paging.slot_of_absent (by rw [hzero j]; rfl) d
  have hnew : Paging held m roots (Function.update label page (some (p ++ [i]))) := by
    refine ⟨h.labelled.addTable hfresh fun j t' hnext => ?_, fun {u q} hu => ?_⟩
    · rw [hempty] at hnext
      cases hnext
    · by_cases hu' : u = page
      · exact hu' ▸ ⟨hpage, hacc, hheld⟩
      · rw [Function.update_of_ne hu'] at hu
        exact h.inUse hu
  refine ⟨hnew.write (Labelled.update_of_fresh hfresh ht) i _ fun t' hnext => ?_,
    fun hu => Labelled.update_of_fresh hfresh hu, fun {u q} hu => ?_, fun q hu => ?_,
    fun {u pu} j hu => ?_, Set.Subset.rfl, rfl, rfl,
    .single (.link h hleads ht hcanon hpath habsent hpage hfresh hzero)⟩
  · rw [slot_tableEntry hpage hlen, Slot.next.injEq] at hnext
    rw [← hnext, Function.update_self]
  · by_cases hu' : u = page
    · exact Or.inr (hu' ▸ hbase)
    · rw [Function.update_of_ne hu'] at hu
      exact Or.inl hu
  · refine h.labelled.walk_link ht hframe (Paging.slot_of_absent habsent _)
      (by rw [hself, slot_tableEntry hpage hlen]) (fun j => ?_) hu
    rw [entries_write (h.isFrame ht) hpage, if_neg]
    · exact hempty _ j
    · rintro ⟨⟩
      rw [ht] at hfresh
      cases hfresh
  · by_cases hsame : (u, j) = (t, i)
    · obtain ⟨rfl, rfl⟩ := Prod.mk.inj hsame
      obtain rfl : p = pu := Option.some.inj (ht.symm.trans hu)
      exact Or.inr ⟨hcanon, hpath, fun hnil => (hnil ▸ hleads).nil_eq, habsent, page, hpage, hself⟩
    · exact Or.inl (hframe u pu j hu hsame)

end Grows

variable {held : σ → Set (BitVec 64)} {m m' : Machine σ} {roots : List (BitVec 64)}
variable {label : Labels (BitVec 64) Index} {A : PhysicalAllocator σ}

/-- One level of `mapPage`, at the structure `t` with path `p`: it finds the next structure or
links a new one, or it fails; neither changes a translation. -/
theorem Paging.descend_ok (hA : HandsOutFresh A held) (h : Paging held m roots label)
    {base : Set (BitVec 64)} (hbase : base ⊆ held m.allocator) (root : BitVec 64)
    {virt t : BitVec 64} (hcanon : nonCanonical virt = false) {p : List Index}
    (hroot : label root = some []) (hleads : Leads slot (entries m) root p t) {i : Index}
    (hpath : p ++ [i] <+: path virt) {largeError : Option ℤ}
    (hlevel : (p.length = 0 ∧ largeError = none) ∨
      ((p.length = 1 ∨ p.length = 2) ∧ ∃ code < 0, largeError = some code))
    {r : Except ℤ (BitVec 64)} (hr : descend A virt t (i.setWidth 64) largeError m = .ok (r, m')) :
    ∃ label', Grows held base roots root virt m m' label label' ∧
      ((∃ t', r = .ok t' ∧ slot p.length (entries m' t i) = .next t') ∨
        ∃ code < 0, r = .error code) := by
  have ht := hleads.label_eq h.labelled hroot
  unfold descend at hr
  rw [bind_of_ok (readTable_eq (h.accessible ht) i)] at hr
  split at hr
  next hpresent =>
    rcases hlevel with ⟨hzero, rfl⟩ | ⟨hmid, code, hneg, rfl⟩
    · rw [pure_eq_ok] at hr
      obtain ⟨rfl, rfl⟩ := hr
      exact ⟨label, .refl h, Or.inl ⟨_, rfl, by rw [hzero, slot_zero hpresent]⟩⟩
    · dsimp only at hr
      split at hr
      next hlarge =>
        rw [pure_eq_ok] at hr
        obtain ⟨rfl, rfl⟩ := hr
        exact ⟨label, .refl h, Or.inr ⟨code, hneg, rfl⟩⟩
      next hlarge =>
        rw [pure_eq_ok] at hr
        obtain ⟨rfl, rfl⟩ := hr
        exact ⟨label, .refl h, Or.inl ⟨_, rfl, by rw [slot_mid hmid hpresent, if_neg hlarge]⟩⟩
  next habsent =>
    rw [Bool.not_eq_true] at habsent
    obtain ⟨page, m₁, halloc, hr⟩ := bind_eq_ok.mp hr
    obtain ⟨hframe, hacc, hfresh, s, hs, rfl⟩ := allocPage_ok hA halloc
    have hgrows := Grows.alloc base root virt h hframe hfresh hs
    split at hr
    next hnull =>
      -- the frame at address zero is taken and not used
      rw [pure_eq_ok] at hr
      obtain ⟨rfl, rfl⟩ := hr
      exact ⟨label, hgrows, Or.inr ⟨-1001, by omega, rfl⟩⟩
    next =>
      rw [bind_of_ok (writeTable_eq (hgrows.paging.accessible ht) i _), pure_eq_ok] at hr
      obtain ⟨rfl, rfl⟩ := hr
      have hlen : p.length ≤ 2 := by omega
      have hne : t ≠ page := by
        rintro rfl
        exact hfresh (h.mem_held ht)
      have hentry : entries (Machine.zero { m with allocator := s } page) t i = entries m t i :=
        entries_zero_of_ne _ hframe (h.isFrame ht) hne i
      have hself := entries_write (m := Machine.zero { m with allocator := s } page)
        (h.isFrame ht) (h.isFrame ht) i i (tableEntry page virt)
      rw [if_pos rfl] at hself
      refine ⟨_, hgrows.trans (Grows.link hgrows.paging hframe hacc (hs ▸ Or.inr rfl)
        (fun hmem => hfresh (hbase hmem)) (Grows.label_of_fresh h hfresh)
        (entries_zero_self _ page) ht hlen hcanon hpath (hgrows.leads h.labelled hroot hleads) ?_),
        Or.inl ⟨page, by rw [tableAddr_tableEntry hframe], ?_⟩⟩
      · rw [hentry]
        exact habsent
      · rw [hself, Grows.slot_tableEntry hframe hlen]

end KushOs.Vm
