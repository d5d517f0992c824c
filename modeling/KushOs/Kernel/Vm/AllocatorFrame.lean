import KushOs.Kernel.Vm.PageTables

/-!
# What allocations keep

The code of the page tables touches the physical allocator in `AllocPage` only. Whatever relates
the allocations of two allocators therefore relates every operation on page tables: with allocators
that agree while the state is good, the operations and the runs agree; and a property of the
allocator's state that `AllocatePages` keeps is kept by all of them.

## Main results

* `agree_mapPage`, `agree_new`: the operations that allocate.
* `TablesState.run_of_agree`: runs with allocators that agree.
* `keepsAllocator_mapPage`, `keepsAllocator_new`: what these operations keep.
-/

namespace KushOs.Vm

open Memory KernelM PageTable Transition

variable {σ : Type} {A A' : PhysicalAllocator σ} {inv good : σ → Prop}

/-! ## Operations that do not allocate -/

/-- Finding the address of a table allocates nothing. -/
theorem keepsAllocator_getTableVmAddr (phys : BitVec 64) :
    KeepsAllocator inv (getTableVmAddr phys) :=
  .of_eq fun _ _ _ h => by rw [← (getTableVmAddr_eq_ok.mp h).2.1]

/-- Reading a table allocates nothing. -/
theorem keepsAllocator_readTable (tableBase offset : BitVec 64) :
    KeepsAllocator inv (readTable tableBase offset) :=
  .bind (.requireM _) fun _ => .bind (keepsAllocator_getTableVmAddr tableBase) fun _ =>
    .bind .get fun _ => .pure _

/-- Writing a table allocates nothing. -/
theorem keepsAllocator_writeTable (tableBase offset val : BitVec 64) :
    KeepsAllocator inv (writeTable tableBase offset val) :=
  .bind (.requireM _) fun _ => .bind (keepsAllocator_getTableVmAddr tableBase) fun _ =>
    .modify fun _ => rfl

/-- Unmapping leaves the allocator alone. -/
theorem keepsAllocator_unmapPage (pt : PageTable) (virt : BitVec 64) (unmapLargePages : Bool) :
    KeepsAllocator inv (unmapPage pt virt unmapLargePages : KernelM σ ℤ) := by
  have hclear : ∀ tableBase offset : BitVec 64, KeepsAllocator inv (do
      writeTable tableBase offset 0
      return 1 : KernelM σ ℤ) :=
    fun _ _ => .bind (keepsAllocator_writeTable _ _ _) fun _ => .pure _
  -- every path reads tables and clears at most one entry
  unfold unmapPage
  split
  · exact .pure _
  refine .bind (keepsAllocator_readTable _ _) fun pml4e => ?_
  split
  · exact .pure _
  refine .bind (keepsAllocator_readTable _ _) fun pdpte => ?_
  split
  · exact .pure _
  split
  · split
    · exact .pure _
    · exact hclear _ _
  refine .bind (keepsAllocator_readTable _ _) fun pdte => ?_
  split
  · exact .pure _
  split
  · split
    · exact .pure _
    · exact hclear _ _
  · exact hclear _ _

/-- The loop of `unmap` allocates nothing: it takes entries away. -/
theorem keepsAllocator_unmapLoop (pt : PageTable) (virt : BitVec 64) (n : ℕ) :
    KeepsAllocator inv (unmapLoop pt virt n : KernelM σ ℤ) := by
  induction n generalizing virt with
  | zero => exact .pure _
  | succ n ih =>
    refine .bind (keepsAllocator_unmapPage _ _ _) fun err => ?_
    split
    · exact .pure _
    · exact ih _

/-- Unmapping a range allocates nothing. -/
theorem keepsAllocator_unmap (pt : PageTable) (virt : BitVec 64) (length : ℕ) :
    KeepsAllocator inv (PageTable.unmap pt virt length : KernelM σ ℤ) := by
  unfold PageTable.unmap
  split
  · exact .pure _
  · exact keepsAllocator_unmapLoop _ _ _

/-- Filling a table of the aperture allocates nothing. -/
theorem keepsAllocator_fillPdpt (pdpt physBase : BitVec 64) (j n : ℕ) :
    KeepsAllocator inv (fillPdpt pdpt physBase j n : KernelM σ Unit) := by
  induction n generalizing j with
  | zero => exact .pure _
  | succ n ih => exact .bind (keepsAllocator_writeTable _ _ _) fun _ => ih _

/-- Copying the entries of the parent allocates nothing. -/
theorem keepsAllocator_copyParent (pt : PageTable) (parent : Option PageTable) :
    KeepsAllocator inv (copyParent pt parent : KernelM σ Unit) := by
  have hcopy : ∀ (par : PageTable) (j n : ℕ),
      KeepsAllocator inv (copyPml4UpperLoop pt par j n : KernelM σ Unit) := by
    intro par j n
    induction n generalizing j with
    | zero => exact .pure _
    | succ n ih =>
      exact .bind (keepsAllocator_readTable _ _) fun _ =>
        .bind (keepsAllocator_writeTable _ _ _) fun _ => ih _
  cases parent with
  | none => exact .pure _
  | some par => exact hcopy par _ _

/-! ## Operations that allocate -/

section

variable (hA : A.Agree good A')

include hA

/-- The frame of a table is the same from both allocators. -/
theorem agree_allocPage : Agree good (allocPage A) (allocPage A') :=
  .bind (.allocatePages hA _ _) fun _ => .of_keeps fun _ => .bind (.requireM _) fun _ =>
    .bind (keepsAllocator_getTableVmAddr _) fun _ => .bind (.modify fun _ => rfl) fun _ => .pure _

/-- So is a step down the tables. -/
theorem agree_descend (virt tableBase offset : BitVec 64) (largeError : Option ℤ) :
    Agree good (descend A virt tableBase offset largeError)
      (descend A' virt tableBase offset largeError) := by
  refine .bind (.of_keeps fun _ => keepsAllocator_readTable tableBase offset) fun entry => ?_
  split
  · cases largeError with
    | none => exact .pure _
    | some code =>
      dsimp only
      split <;> exact .pure _
  · refine .bind (agree_allocPage hA) fun page => ?_
    split
    · exact .pure _
    · exact .of_keeps fun _ => .bind (keepsAllocator_writeTable _ _ _) fun _ => .pure _

/-- Mapping a page allocates in `descend` only. -/
theorem agree_mapPage (pt : PageTable) (phys virt : BitVec 64) (mode : Mode) :
    Agree good (mapPage A pt phys virt mode) (mapPage A' pt phys virt mode) := by
  unfold mapPage
  split
  · exact .pure _
  refine .bind (agree_descend hA virt _ _ none) fun r₄ => ?_
  cases r₄ with
  | error code => exact .pure _
  | ok pdptAddr =>
    refine .bind (agree_descend hA virt _ _ _) fun r₃ => ?_
    cases r₃ with
    | error code => exact .pure _
    | ok pdtAddr =>
      refine .bind (agree_descend hA virt _ _ _) fun r₂ => ?_
      cases r₂ with
      | error code => exact .pure _
      | ok ptAddr =>
        exact .of_keeps fun _ => .bind (keepsAllocator_writeTable _ _ _) fun _ => .pure _

/-- The loop over the tables of the aperture is the same with both allocators. -/
theorem agree_mapPhysApertureLoop (pt : PageTable) (i n : ℕ) :
    Agree good (mapPhysApertureLoop A pt i n) (mapPhysApertureLoop A' pt i n) := by
  induction n generalizing i with
  | zero => exact .pure _
  | succ n ih =>
    exact .bind (agree_allocPage hA) fun _ => .bind (.of_keeps fun _ => .requireM _) fun _ =>
      .bind (.of_keeps fun _ => keepsAllocator_fillPdpt _ _ _ _) fun _ =>
        .bind (.of_keeps fun _ => keepsAllocator_writeTable _ _ _) fun _ => ih _

/-- Constructing a page table allocates its PML4 and the aperture. -/
theorem agree_new (parent : Option PageTable) :
    Agree good (PageTable.new A parent) (PageTable.new A' parent) := by
  refine .bind (agree_allocPage hA) fun _ =>
    .bind (.of_keeps fun _ => keepsAllocator_copyParent _ parent) fun _ =>
      .bind ?_ fun _ => .pure _
  -- the flag is not part of the allocator
  intro m u m' h hgood
  unfold addAperture at h ⊢
  rw [get_bind] at h ⊢
  split at h
  next hfirst =>
    obtain ⟨rfl, rfl⟩ := pure_eq_ok.mp h
    exact ⟨hgood, by rw [if_pos hfirst]; rfl⟩
  next hfirst =>
    rw [set_bind] at h
    rw [if_neg hfirst, set_bind]
    exact agree_mapPhysApertureLoop hA _ _ _ _ _ _ h hgood

end

section

variable (hA : ∀ {s s' : σ} {n : ℕ} {buffer out : AddrBuffer} {count : ℤ},
  A.allocatePages s n buffer = .ok (count, out, s') → inv s → inv s')

include hA

/-- Mapping a page keeps what the allocations of its structures keep. -/
theorem keepsAllocator_mapPage (pt : PageTable) (phys virt : BitVec 64) (mode : Mode) :
    KeepsAllocator inv (mapPage A pt phys virt mode) :=
  (agree_mapPage (PhysicalAllocator.Agree.of_keeps hA) pt phys virt mode).keeps

/-- So does constructing a page table. -/
theorem keepsAllocator_new (parent : Option PageTable) :
    KeepsAllocator inv (PageTable.new A parent) :=
  (agree_new (PhysicalAllocator.Agree.of_keeps hA) parent).keeps

end

end KushOs.Vm
