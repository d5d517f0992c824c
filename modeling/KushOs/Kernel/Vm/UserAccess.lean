import KushOs.Kernel.Vm.Hardware
import KushOs.Kernel.Vm.MapPage

/-!
# Userspace and the kernel's half

The processor lets user mode through a translation if the user bit is set in the entry at every
level of the walk. `mapPage` sets that bit in the entries that link structures by the address, but
in the entry of the page by the mode, so a user mode on a kernel address gives a page entry with
the bit. The entry of the PML4 above it never has it.

## Main definitions

* `userAccessible`: the rule of the processor.
* `TablesState.KernelClosed`: the upper half of every PML4 is closed to userspace.

## Main results

* `kernel_half_closed`: no run over the page tables makes a kernel address accessible.
-/

namespace KushOs.Vm

open Memory RadixTable KernelM PageTable Transition

variable {σ : Type} {A : PhysicalAllocator σ} {held : σ → Set (BitVec 64)}

/-! ## The rule of the processor -/

/-- The entry is present and has the user bit. -/
def userOpen (entry : BitVec 64) : Bool := present entry && entry.getLsbD 2

/-- User mode can access `virt` through the PML4 at `root`: the address is canonical, and every
entry on the walk, up to the one that maps a page of some size, is open. -/
def userAccessible (m : Machine σ) (root virt : BitVec 64) : Bool :=
  let pml4e := entries m root (virt.extractLsb' 39 9)
  let pdpte := entries m (hardwareAddr pml4e) (virt.extractLsb' 30 9)
  let pdte := entries m (hardwareAddr pdpte) (virt.extractLsb' 21 9)
  let pte := entries m (hardwareAddr pdte) (virt.extractLsb' 12 9)
  !nonCanonical virt && userOpen pml4e && userOpen pdpte &&
    (large pdpte || (userOpen pdte && (large pdte || userOpen pte)))

/-! ## The upper half of the PML4s -/

/-- No entry in the upper half of a PML4 has the user bit. -/
def TablesState.KernelClosed (s : TablesState σ) : Prop :=
  ∀ pt ∈ s.tables, ∀ j : Index, 256 ≤ j.toNat → (s.pml4e pt j).getLsbD 2 = false

namespace TablesState

variable {s t : TablesState σ}

/-- What a new PML4 takes over from its parent is closed. -/
theorem KernelClosed.inherited (h : s.KernelClosed) {i : Option ℕ} {parent : Option PageTable}
    (hnames : s.Names i parent) (j : Index) :
    (inherited s.machine parent j).getLsbD 2 = false := by
  cases i with
  | none =>
    obtain rfl : parent = none := hnames
    simp [Vm.inherited]
  | some i =>
    obtain ⟨hi, hsome⟩ := hnames
    obtain ⟨par, rfl⟩ := Option.ne_none_iff_exists'.mp hsome
    unfold Vm.inherited
    dsimp only
    split
    next hupper => exact h par (List.mem_of_getElem? hi.symm) j hupper
    next => rfl

/-- Each operation leaves the upper halves closed. -/
theorem KernelClosed.step (h : s.KernelClosed) {op : TablesOp} (heffect : PmlEffect s t op) :
    t.KernelClosed := by
  intro q hq j hj
  cases op with
  | create i =>
    obtain ⟨pt, parent, hnames, htables, hold, hnew, -⟩ := heffect
    rw [htables, List.mem_append, List.mem_singleton] at hq
    rcases hq with hq | rfl
    · rw [hold q hq]
      exact h q hq j hj
    · rcases hnew j with hinherit | ⟨-, -, hclosed⟩
      · rw [hinherit]
        exact h.inherited hnames j
      · exact hclosed
  | mapPage i phys virt mode =>
    obtain ⟨pt, -, htables, hentry, -⟩ := heffect
    rw [htables] at hq
    rcases hentry q hq j with hsame | ⟨-, hcanon, hpath, -, page, hpage, hnew⟩
    · rw [hsame]
      exact h q hq j hj
    · -- the entry is on the path of an address in the upper half
      obtain rfl : j = virt.extractLsb' 39 9 := by simpa [path] using hpath
      rw [hnew, user_tableEntry hpage, decide_eq_false_iff_not, BitVec.not_lt]
      exact (upper_iff hcanon).mp hj
  | unmapPage | unmap | finishedEarlyBoot =>
    obtain ⟨htables, hsame, -⟩ := heffect
    rw [htables] at hq
    rw [hsame q hq]
    exact h q hq j hj

/-- Both invariants hold along every run. -/
theorem KernelClosed.run (hA : HandsOutFresh A held) {m : Machine σ} {ops : List TablesOp}
    (hrun : Run (TablesStep A) ⟨m, []⟩ ops s) : s.KernelClosed := by
  have hstep : ∀ (s : TablesState σ) (op : TablesOp) (t : TablesState σ),
      s.Inv held ∧ s.KernelClosed → TablesStep A s op t → t.Inv held ∧ t.KernelClosed := by
    rintro s op t ⟨hinv, hclosed⟩ hstep
    obtain ⟨hinv', heffect⟩ := hstep.sound hA hinv
    exact ⟨hinv', hclosed.step heffect⟩
  exact (Run.preserves hstep hrun ⟨Inv.init m, by simp [KernelClosed]⟩).2

end TablesState

/-- In every state of every run over the page tables, no address in the kernel's half is accessible
to user mode through any of them. -/
theorem kernel_half_closed (hA : HandsOutFresh A held) {m : Machine σ} {s : TablesState σ}
    {ops : List TablesOp} {pt : PageTable} {virt : BitVec 64}
    (hrun : Run (TablesStep A) ⟨m, []⟩ ops s) (hpt : pt ∈ s.tables)
    (hvirt : kernelBoundary ≤ virt) : userAccessible s.machine pt.pml4Phys virt = false := by
  rcases hcanon : nonCanonical virt with _ | _
  · have hclosed : (s.pml4e pt (virt.extractLsb' 39 9)).getLsbD 2 = false :=
      TablesState.KernelClosed.run hA hrun pt hpt _ ((upper_iff hcanon).mpr hvirt)
    have hopen : userOpen (entries s.machine pt.pml4Phys (virt.extractLsb' 39 9)) = false := by
      rw [userOpen, Bool.and_eq_false_iff]
      exact Or.inr hclosed
    simp [userAccessible, hopen]
  · simp [userAccessible, hcanon]

/-- A kernel address that is mapped with a user mode stays closed. -/
theorem kernel_half_closed_small : ∃ pt m₁ m₂,
    PageTable.new (poolAllocator smallRanges) none smallMachine = .ok (pt, m₁) ∧
      mapPage (poolAllocator smallRanges) pt 0x300000#64 vAllocStart Mode.userRW m₁ = .ok (0, m₂) ∧
        userAccessible m₂ pt.pml4Phys vAllocStart = false := by
  obtain ⟨pt, m₁, m₂, hnew, hmap⟩ :=
    exists_mapPage_small 0x300000#64 vAllocStart Mode.userRW (by decide +kernel)
  have hrun : Run (TablesStep (poolAllocator smallRanges)) ⟨smallMachine, []⟩
      [.create none, .mapPage 0 0x300000#64 vAllocStart Mode.userRW] ⟨m₂, [] ++ [pt]⟩ :=
    .cons (.create rfl hnew) (.cons (.mapPage rfl hmap) (.nil _))
  exact ⟨pt, m₁, m₂, hnew, hmap, kernel_half_closed smallRanges_handsOutFresh hrun
    (List.mem_singleton_self pt) (by decide)⟩

end KushOs.Vm
