import KushOs.Kernel.Vm.Aperture
import KushOs.Kernel.Vm.ContiguousRegion
import KushOs.Kernel.Vm.UserAccess

/-!
# The kernel's address space

An address space says what is found at each virtual address. Regions are placed in it one over the
other. The page tables of the kernel implement this: adding a region to a map places it in what the
processor finds, and the first page table of all starts with the aperture and nothing else.

## Main definitions

* `AddressSpace`, with `place`, `placeAll` and `aperture`: address spaces, without any page tables.
* `TablesState.Sealed`: the links are sound and the kernel's half is closed to user mode.

## Main results

* `ContiguousPhysRegion.addedTo_places`: adding a region places it.
* `addressSpace_of_new`: the address space of the first page table.
-/

namespace KushOs.Vm

open Memory RadixTable KernelM PageTable Transition

/-! ## Address spaces -/

/-- What is found at each virtual address. -/
abbrev AddressSpace := BitVec 64 → Option Access

instance (base : BitVec 64) (length : ℕ) (w : BitVec 64) : Decidable (InRange base length w) :=
  inferInstanceAs (Decidable (_ ∧ _))

namespace AddressSpace

variable {l : AddressSpace} {region : ContiguousPhysRegion} {base w : BitVec 64}

/-- Place a region at `base`, over what was there, and closed to user mode. -/
def place (l : AddressSpace) (base : BitVec 64) (region : ContiguousPhysRegion) :
    AddressSpace := fun w =>
  if InRange base region.length w then
    some ⟨region.physBase + (w - base), region.accessMode.test Mode.write, false⟩
  else l w

/-- Place regions in their order. -/
def placeAll (l : AddressSpace) (xs : List (BitVec 64 × ContiguousPhysRegion)) : AddressSpace :=
  xs.foldl (fun l x => l.place x.1 x.2) l

/-- The physical memory in the aperture, and nothing else. -/
def aperture : AddressSpace := fun w =>
  if physApertureStart ≤ w ∧ w ≤ physApertureEnd then some ⟨w - physApertureStart, true, false⟩
  else none

theorem place_of_inRange (h : InRange base region.length w) : l.place base region w =
    some ⟨region.physBase + (w - base), region.accessMode.test Mode.write, false⟩ :=
  if_pos h

theorem place_of_not_inRange (h : ¬ InRange base region.length w) : l.place base region w = l w :=
  if_neg h

/-- An address in none of the regions. -/
theorem placeAll_of_forall {xs : List (BitVec 64 × ContiguousPhysRegion)}
    (h : ∀ x ∈ xs, ¬ InRange x.1 x.2.length w) : l.placeAll xs w = l w := by
  induction xs generalizing l with
  | nil => rfl
  | cons x rest ih =>
    rw [List.forall_mem_cons] at h
    exact (ih h.2).trans (place_of_not_inRange h.1)

/-- An address in one of several regions that lie one behind the other. -/
theorem placeAll_of_mem {xs : List (BitVec 64 × ContiguousPhysRegion)}
    (hxs : xs.Pairwise fun x y => x.1.toNat + x.2.length ≤ y.1.toNat)
    {x : BitVec 64 × ContiguousPhysRegion} (hx : x ∈ xs) (h : InRange x.1 x.2.length w) :
    l.placeAll xs w = some ⟨x.2.physBase + (w - x.1), x.2.accessMode.test Mode.write, false⟩ := by
  induction xs generalizing l with
  | nil => cases hx
  | cons y rest ih =>
    obtain ⟨hfirst, hrest⟩ := List.pairwise_cons.mp hxs
    rcases List.mem_cons.mp hx with rfl | hx
    · -- the regions that follow lie behind it
      have hout : ∀ z ∈ rest, ¬ InRange z.1 z.2.length w := fun z hz hin =>
        absurd (h.2.trans_le (hfirst z hz)) (not_lt.mpr hin.1)
      exact (placeAll_of_forall hout).trans (place_of_inRange h)
    · exact ih hrest hx

/-- An address of a range is at its offset from the start. -/
theorem exists_offset {length : ℕ} (h : InRange base length w) :
    ∃ o < length, w = base + BitVec.ofNat 64 o ∧ w - base = BitVec.ofNat 64 o := by
  obtain ⟨hlo, hhi⟩ := h
  have hlt := w.isLt
  have heq : w = base + BitVec.ofNat 64 (w.toNat - base.toNat) := by
    apply BitVec.eq_of_toNat_eq
    rw [BitVec.toNat_add, BitVec.toNat_ofNat]
    omega
  refine ⟨w.toNat - base.toNat, by omega, heq, ?_⟩
  apply BitVec.eq_of_toNat_eq
  rw [BitVec.toNat_sub, BitVec.toNat_ofNat]
  omega

theorem aperture_eq_none_of_lt (h : w.toNat < physApertureStart.toNat) : aperture w = none :=
  if_neg fun hin => absurd (BitVec.le_def.mp hin.1) (not_le.mpr h)

/-- The aperture has canonical addresses only. -/
theorem aperture_eq_none_of_nonCanonical (h : nonCanonical w = true) : aperture w = none := by
  refine if_neg fun hin => ?_
  rw [nonCanonical_of_upper (BitVec.le_def.mp hin.1)] at h
  cases h

end AddressSpace

/-! ## The kernel's half -/

variable {σ : Type} {A : PhysicalAllocator σ} {held : σ → Set (BitVec 64)} {m m' : Machine σ}
variable {roots : List (BitVec 64)} {label : Labels (BitVec 64) Index} {pt : PageTable}
variable {region : ContiguousPhysRegion} {base w : BitVec 64}

/-- The links are sound, and the kernel's half is closed to user mode. -/
structure TablesState.Sealed (held : σ → Set (BitVec 64)) (s : TablesState σ) : Prop where
  links : s.Links held
  closed : s.KernelClosed

namespace TablesState.Sealed

variable {s t : TablesState σ}

theorem init (hA : HandsOutFresh A held) (m : Machine σ) : Sealed held ⟨m, []⟩ :=
  ⟨.run hA (.nil _), by simp [KernelClosed]⟩

theorem step (hA : HandsOutFresh A held) (h : s.Sealed held) {op : TablesOp}
    (hstep : TablesStep A s op t) : t.Sealed held :=
  ⟨h.links.step hA hstep, h.closed.step (hstep.sound hA h.links.inv).2⟩

/-- The allocator's state has no part in it. -/
theorem setAllocator {tables : List PageTable} (h : Sealed held ⟨m, tables⟩) {a : σ}
    (ha : held m.allocator ⊆ held a) : Sealed held ⟨{ m with allocator := a }, tables⟩ :=
  ⟨h.links.setAllocator ha, h.closed⟩

theorem mapPages (hA : HandsOutFresh A held) {tables : List PageTable}
    (h : Sealed held ⟨m, tables⟩) (hpt : pt ∈ tables) {phys : ℕ → BitVec 64} {mode : Mode}
    {start : BitVec 64} {i n : ℕ} {u : Unit}
    (hmap : Vm.mapPages A pt phys mode start i n m = .ok (u, m')) :
    Sealed held ⟨m', tables⟩ := by
  obtain ⟨j, hj⟩ := List.mem_iff_getElem?.mp hpt
  induction n generalizing start i m with
  | zero =>
    obtain ⟨-, rfl⟩ := pure_eq_ok.mp hmap
    exact h
  | succ n ih =>
    obtain ⟨err, m₁, hpage, hmap⟩ := bind_eq_ok.mp hmap
    obtain ⟨_, m₂, hzero, hrest⟩ := bind_eq_ok.mp hmap
    obtain ⟨-, rfl⟩ := requireM_eq_ok.mp hzero
    exact ih (h.step hA (.mapPage hj hpage)) hrest

/-- In the kernel's half the processor lets user mode through nowhere. -/
theorem user_eq_false (h : s.Sealed held) (hpt : pt ∈ s.tables) (hw : kernelBoundary ≤ w)
    {acc : Access} (hacc : hardwareAccess s.machine pt.pml4Phys w = some acc) :
    acc.user = false := by
  unfold hardwareAccess at hacc
  split at hacc
  · cases hacc
  next hcanon =>
  obtain ⟨leaf, -, rfl⟩ := Option.map_eq_some_iff.mp hacc
  have hindex := (upper_iff (Bool.not_eq_true _ ▸ hcanon)).mpr hw
  have hfirst : (entries s.machine pt.pml4Phys (w.extractLsb' 39 9)).getLsbD 2 = false :=
    h.closed pt hpt _ hindex
  -- the entry of the PML4 is the first that the walk meets
  refine List.all_eq_false.mpr ⟨_, head_mem_trail hardwareSlot _ 0 pt.pml4Phys _ _, ?_⟩
  rw [hfirst]
  exact Bool.false_ne_true

end TablesState.Sealed

/-! ## Placing a region -/

/-- Adding a region to a map places it in the kernel's half of the address space. -/
theorem ContiguousPhysRegion.addedTo_places (hA : HandsOutFresh A held) {s : TablesState σ}
    (hs : s.Sealed held) (hpt : pt ∈ s.tables) (hfits : region.Fits base)
    (hupper : kernelBoundary ≤ base) {u : Unit}
    (hadd : region.addedTo A pt base s.machine = .ok (u, m')) :
    TablesState.Sealed held ⟨m', s.tables⟩ ∧ hardwareAccess m' pt.pml4Phys =
      AddressSpace.place (hardwareAccess s.machine pt.pml4Phys) base region := by
  have hsealed : TablesState.Sealed held ⟨m', s.tables⟩ := by
    rw [hfits.addedTo_eq] at hadd
    exact hs.mapPages hA hpt hadd
  obtain ⟨-, hmapped, hsame, -⟩ := ContiguousPhysRegion.addedTo_ok hA hs.links hpt hfits hadd
  refine ⟨hsealed, funext fun w => ?_⟩
  by_cases hin : InRange base region.length w
  · obtain ⟨o, ho, hw, hoff⟩ := AddressSpace.exists_offset hin
    obtain ⟨⟨user, haccess⟩, -⟩ := hmapped o ho
    rw [← hw] at haccess
    have hhigh : kernelBoundary ≤ w := by
      rw [BitVec.le_def] at hupper ⊢
      exact hupper.trans hin.1
    have huser : user = false := hsealed.user_eq_false hpt hhigh haccess
    rw [haccess, AddressSpace.place_of_inRange hin, hoff, huser]
  · rw [AddressSpace.place_of_not_inRange hin, (hsame pt hpt w hin).1]

/-! ## The first page table -/

/-- A page table without a parent has entries for the aperture at most. -/
theorem Paging.new_absent (hA : HandsOutFresh A held) (h : Paging held m roots label)
    (hnew : PageTable.new A none m = .ok (pt, m')) {j : Index}
    (hj : j.toNat < 256 ∨ 256 + numAperturePdpts ≤ j.toNat) : entries m' pt.pml4Phys j = 0 := by
  unfold PageTable.new at hnew
  obtain ⟨r, m₁, halloc, hrest⟩ := bind_eq_ok.mp hnew
  obtain ⟨hframe, hacc, hfresh, s, hs, rfl⟩ := allocPage_ok hA halloc
  have hgrows := Grows.alloc ∅ r 0 h hframe hfresh hs
  have hzero := entries_zero_self { m with allocator := s } r
  have hready : Ready held (Machine.zero { m with allocator := s } r) label r := by
    refine ⟨hframe, hacc, hs ▸ Or.inr rfl, Grows.label_of_fresh h hfresh, fun j t' hslot => ?_⟩
    rw [hzero j, Paging.slot_of_absent rfl] at hslot
    cases hslot
  obtain ⟨_, m₂, hcopy, hrest⟩ := bind_eq_ok.mp hrest
  obtain ⟨-, rfl⟩ := pure_eq_ok.mp hcopy
  obtain ⟨_, m₃, haperture, hpt⟩ := bind_eq_ok.mp hrest
  obtain ⟨rfl, rfl⟩ := pure_eq_ok.mp hpt
  rw [addAperture, get_bind] at haperture
  -- a later page table has no aperture, and the first one has it in four entries
  split at haperture
  · obtain ⟨-, rfl⟩ := pure_eq_ok.mp haperture
    exact hzero j
  · rw [set_bind] at haperture
    set first : Machine σ :=
      { Machine.zero { m with allocator := s } r with isFirstPageTable := true }
    have hp : Paging held first roots label := ⟨hgrows.paging.labelled, hgrows.paging.inUse⟩
    have hready' : Ready held first label r :=
      ⟨hready.isFrame, hready.accessible, hready.mem_held, hready.fresh, hready.entry⟩
    have hcount : (physApertureLen / 0x8000000000#64).toNat = numAperturePdpts := by decide
    rw [mapPhysAperture, hcount] at haperture
    obtain ⟨-, -, hsame, -⟩ := hp.mapPhysApertureLoop_ok hA hready' (by decide) haperture
    exact (hsame j hj).trans (hzero j)

/-- The first page table of all maps the aperture and nothing else. -/
theorem addressSpace_of_new (hA : HandsOutFresh A held) (hm : m.isFirstPageTable = false)
    (hnew : PageTable.new A none m = .ok (pt, m')) :
    TablesState.Sealed held ⟨m', [pt]⟩ ∧ hardwareAccess m' pt.pml4Phys = AddressSpace.aperture := by
  have hstep : TablesStep A ⟨m, []⟩ (.create none) ⟨m', [] ++ [pt]⟩ := .create rfl hnew
  have hsealed := (TablesState.Sealed.init hA m).step hA hstep
  refine ⟨hsealed, funext fun w => ?_⟩
  obtain ⟨label, hp⟩ : TablesState.Inv held ⟨m, []⟩ := TablesState.Inv.init m
  obtain ⟨_, _, label', htables, hp', hparts⟩ :=
    TablesState.HoldsAperture.of_create hA rfl hm hp (i := none) rfl hnew
  obtain ⟨rfl, rfl⟩ := List.cons.inj htables
  rcases hcanon : nonCanonical w with _ | _
  swap
  · rw [hardwareAccess, hcanon, if_pos rfl, AddressSpace.aperture_eq_none_of_nonCanonical hcanon]
  have hindex := toNat_extract w 39
  have hbounds := nonCanonical_eq_false hcanon
  have hlt := w.isLt
  have hstart : physApertureStart.toNat = 0xffff800000000000 := rfl
  have hend : physApertureEnd.toNat = 0xffff81ffffffffff := rfl
  -- an address in the aperture is reached through its PDPT, any other has no PML4 entry
  by_cases hin : physApertureStart ≤ w ∧ w ≤ physApertureEnd
  · rw [AddressSpace.aperture, if_pos hin]
    rw [BitVec.le_def, BitVec.le_def, hstart, hend] at hin
    have hsub : (w - physApertureStart).toNat = w.toNat - 0xffff800000000000 := by
      rw [BitVec.toNat_sub, hstart]
      omega
    have hlen : w - physApertureStart < physApertureLen := by
      have hlen : physApertureLen.toNat = 2 ^ 41 := rfl
      rw [BitVec.lt_def, hsub, hlen]
      omega
    have haccess := (hparts ((w - physApertureStart).toNat / 2 ^ 39)
      (by simp only [numAperturePdpts]; omega)).hardwareAccess_eq hlen
    have hw : physApertureStart + (w - physApertureStart) = w := by
      rw [BitVec.add_comm, BitVec.sub_add_cancel]
    rwa [hw] at haccess
  · rw [AddressSpace.aperture, if_neg hin]
    rw [BitVec.le_def, BitVec.le_def, hstart, hend] at hin
    refine hp'.hardwareAccess_none (hp'.labelled.root _ (List.mem_singleton_self _)) ?_
    refine Paging.lookup_of_absent ?_
    rw [hp.new_absent hA hnew (by simp only [numAperturePdpts]; omega)]
    rfl

end KushOs.Vm
