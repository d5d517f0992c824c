import KushOs.Foundation.Run
import KushOs.Kernel.Vm.Construction
import KushOs.Kernel.Vm.Mapping

/-!
# Runs over all page tables

A run constructs page tables, with or without a parent, and maps and unmaps pages in any of them,
in any order. The structures they use stay apart along every run (`TablesState.Inv`), and PML4s
change in few ways (`PmlEffect`).

## Main definitions

* `TablesState`, `TablesOp`, `TablesStep`: the states, operations and steps of a run.
* `PmlEffect`: what an operation does to the PML4s.

## Main results

* `TablesState.Inv.step`, `TablesState.Inv.run`: the invariant of the paging structures.
-/

namespace KushOs.Vm

open Memory RadixTable KernelM PageTable Transition

variable {σ : Type} {A : PhysicalAllocator σ} {held : σ → Set (BitVec 64)}

/-- The machine and the page tables constructed so far. -/
structure TablesState (σ : Type) where
  /-- The machine. -/
  machine : Machine σ
  /-- The page tables. -/
  tables : List PageTable

/-- An operation on the page tables; tables are named by their position. -/
inductive TablesOp
  /-- `PageTable(parent)`. -/
  | create (parent : Option ℕ)
  /-- `mapPage`. -/
  | mapPage (table : ℕ) (phys virt : BitVec 64) (mode : Mode)
  /-- `unmapPage`. -/
  | unmapPage (table : ℕ) (virt : BitVec 64)
  /-- `unmap`. -/
  | unmap (table : ℕ) (virt : BitVec 64) (length : ℕ)
  /-- `PhysicalMap::FinishedEarlyBoot`. -/
  | finishedEarlyBoot

/-- The parent that a position names; no position is the null pointer. -/
def TablesState.Names (s : TablesState σ) : Option ℕ → Option PageTable → Prop
  | none, parent => parent = none
  | some i, parent => parent = s.tables[i]? ∧ parent ≠ none

/-- An operation that returns. -/
inductive TablesStep (A : PhysicalAllocator σ) : TablesState σ → TablesOp → TablesState σ → Prop
  | create {s : TablesState σ} {m' : Machine σ} {i : Option ℕ} {parent : Option PageTable}
      {pt : PageTable} :
      s.Names i parent → PageTable.new A parent s.machine = .ok (pt, m') →
      TablesStep A s (.create i) ⟨m', s.tables ++ [pt]⟩
  | mapPage {s : TablesState σ} {m' : Machine σ} {i : ℕ} {pt : PageTable} {phys virt : BitVec 64}
      {mode : Mode} {c : ℤ} :
      s.tables[i]? = some pt → PageTable.mapPage A pt phys virt mode s.machine = .ok (c, m') →
      TablesStep A s (.mapPage i phys virt mode) ⟨m', s.tables⟩
  | unmapPage {s : TablesState σ} {m' : Machine σ} {i : ℕ} {pt : PageTable} {virt : BitVec 64}
      {c : ℤ} :
      s.tables[i]? = some pt → PageTable.unmapPage pt virt false s.machine = .ok (c, m') →
      TablesStep A s (.unmapPage i virt) ⟨m', s.tables⟩
  | unmap {s : TablesState σ} {m' : Machine σ} {i : ℕ} {pt : PageTable} {virt : BitVec 64}
      {length : ℕ} {c : ℤ} :
      s.tables[i]? = some pt → PageTable.unmap pt virt length s.machine = .ok (c, m') →
      TablesStep A s (.unmap i virt length) ⟨m', s.tables⟩
  | finishedEarlyBoot {s : TablesState σ} :
      TablesStep A s .finishedEarlyBoot ⟨{ s.machine with earlyBoot := false }, s.tables⟩

namespace TablesState

/-- Physical addresses of the PML4s. -/
def roots (s : TablesState σ) : List (BitVec 64) := s.tables.map PageTable.pml4Phys

/-- Entry `j` of the PML4 of a page table. -/
def pml4e (s : TablesState σ) (pt : PageTable) (j : Index) : BitVec 64 :=
  entries s.machine pt.pml4Phys j

/-- The structures of all page tables have one path each. -/
def Inv (held : σ → Set (BitVec 64)) (s : TablesState σ) : Prop :=
  ∃ label, Paging held s.machine s.roots label

theorem mem_roots {s : TablesState σ} {pt : PageTable} (h : pt ∈ s.tables) :
    pt.pml4Phys ∈ s.roots :=
  List.mem_map_of_mem h

end TablesState

/-- An entry of the PML4 of `pt` was absent and now names a new structure for `virt`. -/
def NewPml4e (s t : TablesState σ) (pt : PageTable) (virt : BitVec 64) (j : Index) : Prop :=
  nonCanonical virt = false ∧ [j] <+: path virt ∧ present (s.pml4e pt j) = false ∧
    ∃ page, IsFrame page ∧ t.pml4e pt j = tableEntry page virt

/-- What an operation does to the PML4s. -/
def PmlEffect (s t : TablesState σ) : TablesOp → Prop
  | .create i => ∃ pt parent, s.Names i parent ∧ t.tables = s.tables ++ [pt] ∧
      (∀ q ∈ s.tables, t.pml4e q = s.pml4e q) ∧
      (∀ j, t.pml4e pt j = inherited s.machine parent j ∨
        (s.machine.isFirstPageTable = false ∧ 256 ≤ j.toNat ∧ (t.pml4e pt j).getLsbD 2 = false)) ∧
      t.machine.isFirstPageTable = true
  | .mapPage i _ virt _ => ∃ pt, s.tables[i]? = some pt ∧ t.tables = s.tables ∧
      (∀ q ∈ s.tables, ∀ j, t.pml4e q j = s.pml4e q j ∨
        (q.pml4Phys = pt.pml4Phys ∧ NewPml4e s t q virt j)) ∧
      t.machine.isFirstPageTable = s.machine.isFirstPageTable
  | _ => t.tables = s.tables ∧ (∀ q ∈ s.tables, t.pml4e q = s.pml4e q) ∧
      t.machine.isFirstPageTable = s.machine.isFirstPageTable

namespace TablesStep

variable {s t : TablesState σ} {label : Labels (BitVec 64) Index}

/-- The parent of a new page table is in use. -/
theorem label_of_names (hp : Paging held s.machine s.roots label) {i : Option ℕ}
    {parent : Option PageTable} (hnames : s.Names i parent) :
    ∀ par ∈ parent, label par.pml4Phys = some [] := by
  rintro par rfl
  cases i with
  | none => cases hnames
  | some i =>
    exact hp.labelled.root _ (TablesState.mem_roots (List.mem_of_getElem? hnames.1.symm))

/-- The constructor adds a PML4. -/
theorem create_sound (hA : HandsOutFresh A held) (hp : Paging held s.machine s.roots label)
    {m' : Machine σ} {i : Option ℕ} {parent : Option PageTable} {pt : PageTable}
    (hnames : s.Names i parent) (hnew : PageTable.new A parent s.machine = .ok (pt, m')) :
    TablesState.Inv held ⟨m', s.tables ++ [pt]⟩ ∧
      PmlEffect s ⟨m', s.tables ++ [pt]⟩ (.create i) := by
  obtain ⟨label', hpaging, -, hold, hentry, -, -, -, -, hfirst⟩ :=
    hp.new_ok hA (label_of_names hp hnames) hnew
  refine ⟨⟨label', hpaging.of_subset fun r hr => ?_⟩,
    pt, parent, hnames, rfl, fun q hq => ?_, fun j => (hentry j).imp_right ?_, hfirst⟩
  · -- the new PML4 is the last one in the list
    simpa [TablesState.roots, or_comm] using hr
  · exact (hold (hp.labelled.root _ (TablesState.mem_roots hq))).2
  · -- the aperture is linked without the user bit
    rintro ⟨hfirst, hupper, pdpt, hframe, hlink⟩
    refine ⟨hfirst, hupper, ?_⟩
    show (entries m' pt.pml4Phys j).getLsbD 2 = false
    rw [hlink, user_tableEntry hframe]
    decide

/-- `mapPage` may link new structures. -/
theorem mapPage_sound (hA : HandsOutFresh A held) (hp : Paging held s.machine s.roots label)
    {m' : Machine σ} {i : ℕ} {pt : PageTable} {phys virt : BitVec 64} {mode : Mode} {c : ℤ}
    (hi : s.tables[i]? = some pt)
    (hmap : PageTable.mapPage A pt phys virt mode s.machine = .ok (c, m')) :
    TablesState.Inv held ⟨m', s.tables⟩ ∧
      PmlEffect s ⟨m', s.tables⟩ (.mapPage i phys virt mode) := by
  have hlabel : ∀ q ∈ s.tables, label q.pml4Phys = some [] :=
    fun q hq => hp.labelled.root _ (TablesState.mem_roots hq)
  have hroot := hlabel pt (List.mem_of_getElem? hi)
  obtain ⟨label', ⟨-, hgrows⟩ | ⟨-, -, hmapped⟩⟩ := hp.mapPage_ok hA hroot hmap
  · refine ⟨⟨label', hgrows.paging⟩, pt, hi, rfl, fun q hq j => ?_, hgrows.first⟩
    rcases hgrows.entry j (hlabel q hq) with hsame | ⟨hcanon, hpath, hself, habsent, hnew⟩
    · exact Or.inl hsame
    · exact Or.inr ⟨hself rfl, hcanon, hpath, habsent, hnew⟩
  · refine ⟨⟨label', hmapped.paging hroot⟩, pt, hi, rfl, fun q hq j => ?_, hmapped.first⟩
    rcases hmapped.root_entry hroot (hlabel q hq) j with
      hsame | ⟨hcanon, hpath, hself, habsent, hnew⟩
    · exact Or.inl hsame
    · exact Or.inr ⟨hself, hcanon, hpath, habsent, hnew⟩

/-- The structures that the kernel reached during early boot are in the aperture too. -/
theorem finishedEarlyBoot_sound (hp : Paging held s.machine s.roots label) :
    Paging held { s.machine with earlyBoot := false } s.roots label := by
  refine ⟨hp.labelled, fun hu => ⟨hp.isFrame hu, ?_, hp.mem_held hu⟩⟩
  have hacc := hp.accessible hu
  unfold Machine.Accessible at hacc ⊢
  split at hacc
  · have hbound : (0x100000000#64).toNat
        ≤ (physApertureLen - BitVec.ofNat 64 pageSize).toNat := by decide
    exact BitVec.lt_def.mpr ((BitVec.lt_def.mp hacc).trans_le hbound)
  · exact hacc

/-- Every operation keeps the invariant, and affects the PML4s as described. -/
theorem sound {op : TablesOp} (hA : HandsOutFresh A held) (hs : s.Inv held)
    (h : TablesStep A s op t) : t.Inv held ∧ PmlEffect s t op := by
  obtain ⟨label, hp⟩ := hs
  have hlabel : ∀ q ∈ s.tables, label q.pml4Phys = some [] :=
    fun q hq => hp.labelled.root _ (TablesState.mem_roots hq)
  have hkeeps : ∀ m' : Machine σ, Keeps held s.roots s.machine m' label →
      TablesState.Inv held ⟨m', s.tables⟩ ∧
        (∀ q ∈ s.tables, TablesState.pml4e ⟨m', s.tables⟩ q = s.pml4e q) ∧
          m'.isFirstPageTable = s.machine.isFirstPageTable :=
    fun m' hk => ⟨⟨label, hk.paging⟩, fun q hq => funext fun j => hk.root_entry j (hlabel q hq),
      hk.first⟩
  cases h with
  | create hnames hnew => exact create_sound hA hp hnames hnew
  | mapPage hi hmap => exact mapPage_sound hA hp hi hmap
  | unmapPage hi hunmap =>
    obtain ⟨hinv, heffect⟩ :=
      hkeeps _ (hp.unmapPage_keeps (hlabel _ (List.mem_of_getElem? hi)) hunmap)
    exact ⟨hinv, rfl, heffect⟩
  | unmap hi hunmap =>
    obtain ⟨hinv, heffect⟩ :=
      hkeeps _ (hp.unmap_keeps (hlabel _ (List.mem_of_getElem? hi)) hunmap)
    exact ⟨hinv, rfl, heffect⟩
  | finishedEarlyBoot =>
    exact ⟨⟨label, finishedEarlyBoot_sound hp⟩, rfl, fun _ _ => rfl, rfl⟩

end TablesStep

/-- Before any page table is constructed. -/
theorem TablesState.Inv.init (m : Machine σ) : TablesState.Inv held ⟨m, []⟩ :=
  ⟨fun _ => none, ⟨by simp [TablesState.roots], by simp⟩, by simp⟩

/-- The invariant holds along every run. -/
theorem TablesState.Inv.run (hA : HandsOutFresh A held) {s t : TablesState σ}
    {ops : List TablesOp} (hs : s.Inv held) (hrun : Run (TablesStep A) s ops t) : t.Inv held :=
  Run.preserves (fun _ _ _ hinv hstep => (hstep.sound hA hinv).1) hrun hs

end KushOs.Vm
