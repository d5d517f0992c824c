import KushOs.Kernel.Vm.AddressSpace
import KushOs.Kernel.Vm.UserRights

/-!
# Frames for the kernel's map

The constructor of the first page table and every region that is added to its map return if the
allocator has a frame for each structure that they link, as long as no region touches the aperture,
whose pages are large.

## Main definitions

* `Provided`: what the frames suffice for, while regions are added to a map.

## Main results

* `PageTable.new_returns`: the first page table takes a frame, and one for each part of the
  aperture.
* `Provided.of_new`, `Provided.addedTo`: the regions of a map can be added.
-/

namespace KushOs.Vm

open Memory RadixTable KernelM PageTable Transition

variable {σ : Type} {A : PhysicalAllocator σ} {held : σ → Set (BitVec 64)} {m m' : Machine σ}
variable {pt : PageTable} {V : Finset (List Index)} {region : ContiguousPhysRegion}
variable {base w : BitVec 64}

/-- Frames that can be reached in early boot are in the aperture too. -/
theorem Machine.Accessible.finishedEarlyBoot {a : BitVec 64} (h : m.Accessible a) :
    Machine.Accessible { m with earlyBoot := false } a := by
  unfold Machine.Accessible at h ⊢
  split at h
  · have hbound : (0x100000000#64).toNat ≤
        (physApertureLen - BitVec.ofNat 64 pageSize).toNat := by decide
    exact BitVec.lt_def.mpr ((BitVec.lt_def.mp h).trans_le hbound)
  · exact h

/-- The same frames serve a weaker condition. -/
theorem Supplies.imp {reach reach' : BitVec 64 → Prop} (himp : ∀ a, reach a → reach' a) {k : ℕ}
    {s : σ} (h : Supplies A reach k s) : Supplies A reach' k s := by
  induction k generalizing s with
  | zero => trivial
  | succ k ih =>
    unfold Supplies at h ⊢
    split at h
    · exact ⟨⟨h.1.1, h.1.2.1, himp _ h.1.2.2⟩, ih h.2⟩
    · exact h.elim

/-! ## The constructor -/

namespace PageTable

/-- A PDPT that can be reached is filled. -/
theorem fillPdpt_returns {pdpt : BitVec 64} (physBase : BitVec 64) {j n : ℕ} (hjn : j + n ≤ 512)
    (hacc : m.Accessible pdpt) : ∃ m', fillPdpt pdpt physBase j n m = .ok ((), m') ∧
      m'.allocator = m.allocator ∧ m'.Accessible = m.Accessible := by
  induction n generalizing j m with
  | zero => exact ⟨m, rfl, rfl, rfl⟩
  | succ n ih =>
    rw [fillPdpt, ofNat_eq_setWidth (by omega), bind_of_ok (writeTable_eq hacc _ _)]
    exact ih (by omega) hacc

/-- The loop over the parts of the aperture takes a frame for each. -/
theorem mapPhysApertureLoop_returns (hA : HandsOutFresh A held) {r : BitVec 64} {i n k : ℕ}
    (hin : 256 + i + n ≤ 512) (hacc : m.Accessible r)
    (hsupply : Supplies A m.Accessible (k + n) m.allocator) :
    ∃ m', mapPhysApertureLoop A ⟨r⟩ i n m = .ok ((), m') ∧
      Supplies A m'.Accessible k m'.allocator := by
  induction n generalizing i m with
  | zero => exact ⟨m, rfl, hsupply⟩
  | succ n ih =>
    obtain ⟨pdpt, m₁, halloc, hne, hsupply⟩ := allocPage_returns hsupply
    obtain ⟨-, hacc', -, s, -, rfl⟩ := allocPage_ok hA halloc
    have hreq : requireM (pdpt ≠ 0) (Machine.zero { m with allocator := s } pdpt) =
        .ok ((), Machine.zero { m with allocator := s } pdpt) :=
      requireM_of_true (decide_eq_true hne)
    obtain ⟨m₂, hfill, halloc₂, hacc₂⟩ := fillPdpt_returns (j := 0) (n := 512)
      (BitVec.ofNat 64 i * 0x8000000000#64) le_rfl
      (show (Machine.zero { m with allocator := s } pdpt).Accessible pdpt from hacc')
    have hreach : m₂.Accessible = m.Accessible := hacc₂
    rw [mapPhysApertureLoop, bind_of_ok halloc, bind_of_ok hreq, bind_of_ok hfill]
    dsimp only
    rw [ofNat_eq_setWidth (by omega), bind_of_ok (writeTable_eq (hreach ▸ hacc) _ _)]
    refine ih (by omega) (hreach ▸ hacc) ?_
    change Supplies A m₂.Accessible (k + n) m₂.allocator
    rw [hreach, halloc₂]
    exact hsupply

/-- The first page table of all takes a frame for itself and one for each part of the aperture. -/
theorem new_returns (hA : HandsOutFresh A held) (hm : m.isFirstPageTable = false) {k : ℕ}
    (hsupply : Supplies A m.Accessible (k + numAperturePdpts + 1) m.allocator) :
    ∃ pt m', PageTable.new A none m = .ok (pt, m') ∧ Supplies A m'.Accessible k m'.allocator := by
  obtain ⟨r, m₁, halloc, -, hsupply⟩ := allocPage_returns hsupply
  obtain ⟨-, hacc, -, s, -, rfl⟩ := allocPage_ok hA halloc
  let first : Machine σ :=
    { Machine.zero { m with allocator := s } r with isFirstPageTable := true }
  obtain ⟨m', hloop, hrest⟩ := mapPhysApertureLoop_returns hA (m := first) (i := 0)
    (n := numAperturePdpts) (by decide) hacc hsupply
  have hcount : (physApertureLen / 0x8000000000#64).toNat = numAperturePdpts := by decide
  have haperture : addAperture A ⟨r⟩ (Machine.zero { m with allocator := s } r) =
      .ok ((), m') := by
    have hfirst : (Machine.zero { m with allocator := s } r).isFirstPageTable = false := hm
    rw [addAperture, get_bind, hfirst, if_neg Bool.false_ne_true, set_bind, mapPhysAperture, hcount]
    exact hloop
  refine ⟨⟨r⟩, m', ?_, hrest⟩
  have hcopy : copyParent ⟨r⟩ none (Machine.zero { m with allocator := s } r) =
      .ok ((), Machine.zero { m with allocator := s } r) := rfl
  rw [PageTable.new, bind_of_ok halloc, bind_of_ok hcopy, bind_of_ok haperture]
  rfl

end PageTable

/-! ## Adding regions -/

/-- The address is in the aperture. -/
def InAperture (w : BitVec 64) : Prop := physApertureStart ≤ w ∧ w ≤ physApertureEnd

/-- While regions are added to the map with the page table `pt`: no large page is outside the
aperture, and there are frames for the structures with paths in `V` that are not linked yet. -/
structure Provided (A : PhysicalAllocator σ) (held : σ → Set (BitVec 64)) (pt : PageTable)
    (V : Finset (List Index)) (m : Machine σ) : Prop where
  inv : TablesState.Inv held ⟨m, [pt]⟩
  notLarge : ∀ w, nonCanonical w = false → ¬ InAperture w → NotLarge m pt.pml4Phys w
  supplied : Supplied A m pt.pml4Phys V

namespace Provided

/-- Mapping a page outside the aperture. -/
theorem mapPage (hA : HandsOutFresh A held) (h : Provided A held pt V m) {virt : BitVec 64}
    (hcanon : nonCanonical virt = false) (hout : ¬ InAperture virt)
    (hV : structurePaths virt ⊆ V) (phys : BitVec 64) (mode : Mode) :
    ∃ m', PageTable.mapPage A pt phys virt mode m = .ok (0, m') ∧ Provided A held pt V m' := by
  obtain ⟨⟨label, hp⟩, hlarge, hsupply⟩ := h
  have hroot : label pt.pml4Phys = some [] :=
    hp.labelled.root _ (TablesState.mem_roots (List.mem_singleton_self pt))
  obtain ⟨m', label', hmap, hmapped, hsupply'⟩ :=
    hp.mapPage_returns hA hroot hcanon (hlarge virt hcanon hout) hV hsupply phys mode
  refine ⟨m', hmap, ⟨label', hmapped.paging hroot⟩, fun w hw hout' d e hlookup => ?_, hsupply'⟩
  by_cases hpage : pageBase w = pageBase virt
  · -- the page itself is mapped by an entry of the lowest level
    rw [lookup_of_pageBase hpage, hmapped.lookup_eq hroot (present_pageEntry phys mode)] at hlookup
    exact (Prod.mk.inj (Option.some.inj hlookup)).1.symm
  · have hsame := hmapped.walk_eq hroot hroot (not_prefix_path hcanon hw hpage)
    exact hlarge w hw hout' d e (hsame.symm.trans hlookup)

/-- Mapping a range of pages outside the aperture. -/
theorem mapPages (hA : HandsOutFresh A held) (h : Provided A held pt V m) {start : BitVec 64}
    {n : ℕ} (hrange : PageRange start n) (hout : ∀ i < n, ¬ InAperture (pageAt start i))
    (hV : ∀ i < n, structurePaths (pageAt start i) ⊆ V) (phys : ℕ → BitVec 64) (mode : Mode)
    (i : ℕ) : ∃ m', Vm.mapPages A pt phys mode start i n m = .ok ((), m') ∧
      Provided A held pt V m' := by
  induction n generalizing start i m with
  | zero => exact ⟨m, rfl, h⟩
  | succ n ih =>
    have hfirst : pageAt start 0 = start := pageAt_zero start
    obtain ⟨m₁, hmap, hnext⟩ := h.mapPage hA hrange.head (hfirst ▸ hout 0 (by omega))
      (hfirst ▸ hV 0 (by omega)) (phys i) mode
    obtain ⟨m', hrest, hend⟩ := ih hnext hrange.tail
      (fun k hk => by
        rw [← pageAt_succ]
        exact hout (k + 1) (by omega))
      (fun k hk => by
        rw [← pageAt_succ]
        exact hV (k + 1) (by omega)) (i + 1)
    have hzero : requireM ((0 : ℤ) == 0) m₁ = .ok ((), m₁) := requireM_of_true rfl
    refine ⟨m', ?_, hend⟩
    rw [Vm.mapPages, bind_of_ok hmap, bind_of_ok hzero, hrest]

/-- Adding a region outside the aperture. -/
theorem add (hA : HandsOutFresh A held) (h : Provided A held pt V m) {entry : MapEntry}
    (hbase : base ≠ 0) (hfits : entry.region.Fits base)
    (hout : ∀ i < entry.region.length / pageSize, ¬ InAperture (pageAt base i))
    (hV : rangePaths base (entry.region.length / pageSize) ⊆ V) :
    ∃ m', Map.add A pt base (some entry) m = .ok ((0, some entry.retain), m') ∧
      Provided A held pt V m' := by
  obtain ⟨m', hmap, hend⟩ := h.mapPages hA hfits.range hout
    (fun i hi => (structurePaths_subset hi).trans hV) entry.region.physAt entry.region.accessMode 0
  refine ⟨m', ?_, hend⟩
  have hadd : entry.retain.region.addedTo A pt base m = .ok ((), m') := by
    rw [← hmap]
    exact congrFun (hfits.addedTo_eq A pt) m
  rw [Map.add, if_neg hbase, bind_of_ok hadd]
  rfl

/-- The first page table. -/
theorem of_new (hA : HandsOutFresh A held) (hm : m.isFirstPageTable = false)
    (hnew : PageTable.new A none m = .ok (pt, m'))
    (hsupply : Supplies A m'.Accessible V.card m'.allocator) : Provided A held pt V m' := by
  have hstep : TablesStep A ⟨m, []⟩ (.create none) ⟨m', [] ++ [pt]⟩ := .create rfl hnew
  obtain ⟨hsealed, hspace⟩ := addressSpace_of_new hA hm hnew
  obtain ⟨label, hp⟩ := hsealed.links.inv
  have hroot : label pt.pml4Phys = some [] :=
    hp.labelled.root _ (TablesState.mem_roots (List.mem_singleton_self pt))
  refine ⟨⟨label, hp⟩, fun w hw hout d e hlookup => ?_, ?_⟩
  · -- the processor finds nothing outside the aperture
    have hnone : hardwareAccess m' pt.pml4Phys w = none := by
      rw [hspace]
      exact if_neg hout
    rw [hardwareAccess, hw, if_neg Bool.false_ne_true, ← (hp.hardwareWalk_eq hroot w).1,
      Option.map_eq_none_iff] at hnone
    rw [hnone] at hlookup
    cases hlookup
  · exact hsupply.mono (Finset.card_filter_le _ _)

/-- The frames that can be reached in early boot can be reached later. -/
theorem finishedEarlyBoot (h : Provided A held pt V m) :
    Provided A held pt V { m with earlyBoot := false } := by
  obtain ⟨⟨label, hp⟩, hlarge, hsupply⟩ := h
  exact ⟨⟨label, TablesStep.finishedEarlyBoot_sound hp⟩, hlarge,
    hsupply.imp fun _ => Machine.Accessible.finishedEarlyBoot⟩

end Provided

end KushOs.Vm
