import KushOs.Kernel.Memory.LoggedPool
import KushOs.Kernel.Vm.AllocatorFrame
import KushOs.Kernel.Vm.Hardware

/-!
# The aperture into physical memory

The first page table maps all of the low physical memory with pages of 1 GB, at the start of the
kernel's half. After early boot the kernel reaches paging structures through that mapping, and
before through the identity mapping of the boot loader. Mapping pages leaves it alone: its entries
are present, and they map large pages. That takes fresh frames, though: a pool that hands out a
frame of the aperture once more has it cleared.

## Main definitions

* `TablesState.HoldsAperture`: the first page table has all parts of the aperture.
* `hardwareLoad`, `hardwareStore`: accesses to a word by the processor.

## Main results

* `AperturePdpt.hardwareAccess_eq`: what the processor finds in the aperture.
* `aperture_fast_path`: along every run without unmapping whose frames are fresh, the fast path
  reaches the words that the identity mapping reached.
-/

namespace KushOs.Vm

open Memory RadixTable KernelM PageTable Transition

variable {σ : Type} {A : PhysicalAllocator σ} {held : σ → Set (BitVec 64)} {m m' : Machine σ}
variable {label label' : Labels (BitVec 64) Index} {r : BitVec 64}

/-! ## Entries of the aperture -/

theorem present_apertureEntry (phys : BitVec 64) : present (apertureEntry phys) = true := by
  simp [present, apertureEntry]

/-- To the processor, too, an entry of the aperture maps a 1 GB page. -/
theorem hardwareSlot_apertureEntry (phys : BitVec 64) :
    hardwareSlot 1 (apertureEntry phys) = .leaf := by
  have hlarge : large (apertureEntry phys) = true := by simp [large, apertureEntry]
  simp [hardwareSlot, present_apertureEntry, hlarge]

/-- The processor finds the structure that an entry links. -/
theorem hardwareSlot_tableEntry {page virt : BitVec 64} (h : IsFrame page) :
    hardwareSlot 0 (tableEntry page virt) = .next page := by
  have hstray : tableEntry page virt &&& strayBits = 0#64 := by
    refine stray_eq_zero ?_
    rw [tableAddr_tableEntry h]
    exact h.2
  rw [← slot_eq_hardwareSlot hstray, Grows.slot_tableEntry h (by omega)]

/-- A byte of the 1 GB page at `phys`. -/
theorem leafPhys_apertureEntry {phys : BitVec 64} (halign : phys.toNat % 2 ^ 30 = 0)
    (hlt : phys.toNat < 2 ^ 52) (virt : BitVec 64) :
    leafPhys virt 1 (apertureEntry phys) = phys + (virt &&& 0x3FFFFFFF#64) := by
  have hoffset : ∀ j < 64, (0x3FFFFFFF#64).getLsbD j = decide (j < 30) := by decide
  have hflags : ∀ j < 64, 30 ≤ j → (0b10000011#64 ||| 1#64 <<< 8).getLsbD j = false := by decide
  have hbase : hardwareAddr (apertureEntry phys) &&& ~~~0x3FFFFFFF#64 = phys := by
    apply BitVec.eq_of_getLsbD_eq
    intro i hi
    rw [BitVec.getLsbD_and, BitVec.getLsbD_not, hoffset i hi, getLsbD_hardwareAddr, apertureEntry,
      BitVec.or_assoc, BitVec.getLsbD_or]
    -- the offset into the page, the address, and what is behind the address bits
    rcases Nat.lt_or_ge i 30 with h30 | h30
    · have hbit := Nat.testBit_mod_two_pow phys.toNat 30 i
      rw [halign, Nat.zero_testBit, BitVec.testBit_toNat] at hbit
      simpa [h30] using hbit.symm
    · rw [hflags i hi h30]
      rcases Nat.lt_or_ge i 52 with h52 | h52
      · have hmid : 12 ≤ i ∧ i < 52 := by omega
        simp [hmid, hi, Nat.not_lt.mpr h30]
      · have hbit := Nat.testBit_lt_two_pow (hlt.trans_le (Nat.pow_le_pow_right (by omega) h52))
        rw [BitVec.testBit_toNat] at hbit
        simp [hbit, Nat.not_lt.mpr h52]
  rw [leafPhys, offsetMask, hbase]

theorem toNat_apertureAddr {p : BitVec 64} (hp : p < physApertureLen) :
    (physApertureStart + p).toNat = 0xffff800000000000 + p.toNat := by
  have hlen : p.toNat < 2 ^ 41 := hp
  have hstart : physApertureStart.toNat = 0xffff800000000000 := rfl
  rw [BitVec.toNat_add, hstart]
  omega

theorem nonCanonical_apertureAddr {p : BitVec 64} (hp : p < physApertureLen) :
    nonCanonical (physApertureStart + p) = false := by
  have hge : ¬ physApertureStart + p < 0xFFFF800000000000#64 := by
    rw [BitVec.lt_def, toNat_apertureAddr hp, BitVec.toNat_ofNat]
    omega
  simp [nonCanonical, hge]

/-- The two entries on the way to an address of the aperture. -/
theorem AperturePdpt.entries_eq {p : BitVec 64} (hp : p < physApertureLen)
    (h : AperturePdpt m label r (p.toNat / 2 ^ 39)) :
    ∃ pdpt base, IsFrame pdpt ∧ base.toNat = p.toNat / 2 ^ 30 * 2 ^ 30 ∧
      entries m r ((physApertureStart + p).extractLsb' 39 9) =
        tableEntry pdpt physApertureStart ∧
      entries m pdpt ((physApertureStart + p).extractLsb' 30 9) = apertureEntry base := by
  have hlen : p.toNat < 2 ^ 41 := hp
  have hvirt := toNat_apertureAddr hp
  set virt := physApertureStart + p
  have h39 : virt.extractLsb' 39 9 = BitVec.ofNat 9 (256 + p.toNat / 2 ^ 39) := by
    apply BitVec.eq_of_toNat_eq
    rw [toNat_extract, hvirt, BitVec.toNat_ofNat]
    omega
  have h30 : (virt.extractLsb' 30 9).toNat = p.toNat / 2 ^ 30 % 512 := by
    rw [toNat_extract, hvirt]
    omega
  obtain ⟨pdpt, hframe, -, hlink, hfilled⟩ := h
  refine ⟨pdpt, _, hframe, ?_, h39 ▸ hlink, hfilled _⟩
  rw [BitVec.toNat_add, BitVec.toNat_mul, BitVec.toNat_mul, BitVec.toNat_setWidth, h30]
  simp only [BitVec.toNat_ofNat]
  omega

/-- The walk of the processor ends at an entry for a page of 1 GB. -/
theorem AperturePdpt.walk_eq {p : BitVec 64} (hp : p < physApertureLen)
    (h : AperturePdpt m label r (p.toNat / 2 ^ 39)) :
    ∃ pdpt base, IsFrame pdpt ∧ base.toNat = p.toNat / 2 ^ 30 * 2 ^ 30 ∧
      hardwareWalk m r (physApertureStart + p) = some (1, apertureEntry base) ∧
      ∀ bit, rightBit m r (physApertureStart + p) bit =
        ((tableEntry pdpt physApertureStart).getLsbD bit && (apertureEntry base).getLsbD bit) := by
  obtain ⟨pdpt, base, hframe, hbase, hlink, hentry⟩ := h.entries_eq hp
  set virt := physApertureStart + p
  have hslot₀ : hardwareSlot 0 (entries m r (virt.extractLsb' 39 9)) = .next pdpt := by
    rw [hlink]
    exact hardwareSlot_tableEntry hframe
  have hslot₁ : hardwareSlot 1 (entries m pdpt (virt.extractLsb' 30 9)) = .leaf := by
    rw [hentry]
    exact hardwareSlot_apertureEntry base
  refine ⟨pdpt, base, hframe, hbase, ?_, fun bit => ?_⟩
  · rw [hardwareWalk, path, walk_of_next hslot₀, walk_of_leaf hslot₁, hentry]
  · rw [rightBit, path, trail_of_next hslot₀, trail_of_leaf hslot₁]
    simp only [List.all_cons, List.all_nil, Bool.and_true, hentry, hlink]

/-- The processor finds the physical memory in the aperture, writable and closed to user mode. -/
theorem AperturePdpt.hardwareAccess_eq {p : BitVec 64} (hp : p < physApertureLen)
    (h : AperturePdpt m label r (p.toNat / 2 ^ 39)) :
    hardwareAccess m r (physApertureStart + p) = some ⟨p, true, false⟩ := by
  obtain ⟨pdpt, base, hframe, hbase, hwalk, hrights⟩ := h.walk_eq hp
  have hlen : p.toNat < 2 ^ 41 := hp
  have hphys : leafPhys (physApertureStart + p) 1 (apertureEntry base) = p := by
    rw [leafPhys_apertureEntry (by omega) (by omega)]
    apply BitVec.eq_of_toNat_eq
    have hmask : (0x3FFFFFFF#64).toNat = 2 ^ 30 - 1 := rfl
    rw [BitVec.toNat_add, BitVec.toNat_and, hmask, Nat.and_two_pow_sub_one_eq_mod,
      toNat_apertureAddr hp, hbase]
    omega
  have hwrite : (tableEntry pdpt physApertureStart).getLsbD 1 = true ∧
      (apertureEntry base).getLsbD 1 = true := by
    simp [tableEntry, apertureEntry, kernelBoundary, physApertureStart]
  have huser : (tableEntry pdpt physApertureStart).getLsbD 2 = false := by
    rw [user_tableEntry hframe]
    decide
  rw [hardwareAccess, nonCanonical_apertureAddr hp, if_neg (by simp), hwalk, Option.map_some,
    hphys, hrights, hrights, hwrite.1, hwrite.2, huser]
  rfl

/-- A part of the aperture stays if the entries in it do. -/
theorem AperturePdpt.congr {k : ℕ} (h : AperturePdpt m label r k) (hr : label r = some [])
    (hmono : ∀ {u : BitVec 64} {p : List Index}, label u = some p → label' u = some p)
    (hentries : ∀ {u : BitVec 64} {p : List Index} {j : Index}, label u = some p →
      p.length ≤ 1 → present (entries m u j) = true → entries m' u j = entries m u j) :
    AperturePdpt m' label' r k := by
  obtain ⟨pdpt, hframe, hlabel, hlink, hfilled⟩ := h
  refine ⟨pdpt, hframe, hmono hlabel, ?_, fun j => ?_⟩
  · rw [hentries hr (by simp) (by rw [hlink]; exact present_tableEntry _ _), hlink]
  · rw [hentries hlabel (by simp) (by rw [hfilled j]; exact present_apertureEntry _), hfilled j]

/-! ## Runs without unmapping -/

/-- The operation removes no mapping. -/
def TablesOp.adds : TablesOp → Bool
  | .unmapPage .. | .unmap .. => false
  | _ => true

namespace TablesState

/-- The first page table has all parts of the aperture. -/
def HoldsAperture (held : σ → Set (BitVec 64)) (s : TablesState σ) : Prop :=
  ∃ pt rest label, s.tables = pt :: rest ∧ Paging held s.machine s.roots label ∧
    ∀ k < numAperturePdpts, AperturePdpt s.machine label pt.pml4Phys k

/-- No page table was constructed yet, or the first one holds the aperture. -/
def ApertureReady (held : σ → Set (BitVec 64)) (s : TablesState σ) : Prop :=
  (s.tables = [] ∧ s.machine.isFirstPageTable = false ∧ s.Inv held) ∨ s.HoldsAperture held

variable {s t : TablesState σ}

/-- The aperture stays if structures in use stay so, and their present entries in the two upper
levels do not change. -/
theorem HoldsAperture.congr {pt : PageTable} {rest rest' : List PageTable}
    (htables : s.tables = pt :: rest) (htables' : t.tables = pt :: rest')
    (hp : Paging held s.machine s.roots label) (hp' : Paging held t.machine t.roots label')
    (hparts : ∀ k < numAperturePdpts, AperturePdpt s.machine label pt.pml4Phys k)
    (hmono : ∀ {u : BitVec 64} {p : List Index}, label u = some p → label' u = some p)
    (hentries : ∀ {u : BitVec 64} {p : List Index} {j : Index}, label u = some p →
      p.length ≤ 1 → present (entries s.machine u j) = true →
      entries t.machine u j = entries s.machine u j) : t.HoldsAperture held := by
  have hmem : pt ∈ s.tables := by
    rw [htables]
    exact List.mem_cons_self
  have hroot : label pt.pml4Phys = some [] := hp.labelled.root _ (mem_roots hmem)
  exact ⟨pt, rest', label', htables', hp',
    fun k hk => (hparts k hk).congr hroot hmono hentries⟩

/-- The first page table that is constructed gets the aperture. -/
theorem HoldsAperture.of_create (hA : HandsOutFresh A held) (htables : s.tables = [])
    (hfirst : s.machine.isFirstPageTable = false) (hp : Paging held s.machine s.roots label)
    {m' : Machine σ} {i : Option ℕ} {parent : Option PageTable} {pt : PageTable}
    (hnames : s.Names i parent) (hnew : PageTable.new A parent s.machine = .ok (pt, m')) :
    HoldsAperture held ⟨m', s.tables ++ [pt]⟩ := by
  obtain ⟨label', hp', -, -, -, hparts, -⟩ :=
    hp.new_ok hA (TablesStep.label_of_names hp hnames) hnew
  refine ⟨pt, [], label', by rw [htables]; rfl, hp'.of_subset fun r hr => ?_, hparts hfirst⟩
  simpa [roots, or_comm] using hr

/-- The operations that remove no mapping keep the aperture. -/
theorem HoldsAperture.step (hA : HandsOutFresh A held) (h : s.HoldsAperture held) {op : TablesOp}
    (hadds : op.adds = true) (hstep : TablesStep A s op t) : t.HoldsAperture held := by
  obtain ⟨first, rest, label, htables, hp, hparts⟩ := h
  cases hstep with
  | @create m' _ _ pt hnames hnew =>
    obtain ⟨label', hp', -, hold, -⟩ := hp.new_ok hA (TablesStep.label_of_names hp hnames) hnew
    have hp'' : Paging held m' (roots ⟨m', s.tables ++ [pt]⟩) label' :=
      hp'.of_subset fun r hr => by simpa [roots, or_comm] using hr
    have htables' : s.tables ++ [pt] = first :: (rest ++ [pt]) := by rw [htables, List.cons_append]
    refine congr htables htables' hp hp'' hparts (fun hu => (hold hu).1) fun hu _ _ => ?_
    rw [(hold hu).2]
  | @mapPage m' _ pt _ _ _ _ hi hmap =>
    have hroot : label pt.pml4Phys = some [] :=
      hp.labelled.root _ (mem_roots (List.mem_of_getElem? hi))
    obtain ⟨label', hp', hmono, hentry⟩ := hp.mapPage_entry hA hroot hmap
    refine congr (t := ⟨m', s.tables⟩) htables htables hp hp' hparts hmono
      fun hu hlen hpresent => hentry hu ?_ hpresent
    -- the entry of a page is in a structure of the lowest level
    intro hpath
    have hlength := congrArg List.length hpath
    simp only [List.length_append, path, List.length_cons, List.length_nil] at hlength
    omega
  | unmapPage => cases hadds
  | unmap => cases hadds
  | finishedEarlyBoot =>
    exact ⟨first, rest, label, htables, TablesStep.finishedEarlyBoot_sound hp, hparts⟩

/-- In every state of a run without unmapping the first page table has the aperture. -/
theorem ApertureReady.run (hA : HandsOutFresh A held) {m : Machine σ}
    (hm : m.isFirstPageTable = false) {ops : List TablesOp}
    (hrun : RunWhere (TablesStep A) (fun _ op => op.adds = true) ⟨m, []⟩ ops s) :
    s.ApertureReady held := by
  have hstep : ∀ (s : TablesState σ) (op : TablesOp) (t : TablesState σ), s.ApertureReady held →
      op.adds = true → TablesStep A s op t → t.ApertureReady held := by
    rintro s op t (⟨htables, hfirst, label, hp⟩ | hholds) hadds hstep
    · cases hstep with
      | create hnames hnew => exact Or.inr (.of_create hA htables hfirst hp hnames hnew)
      | mapPage hi => simp [htables] at hi
      | unmapPage => cases hadds
      | unmap => cases hadds
      | finishedEarlyBoot =>
        exact Or.inl ⟨htables, hfirst, label, TablesStep.finishedEarlyBoot_sound hp⟩
    · exact Or.inr (hholds.step hA hadds hstep)
  exact Run.preserves_of hstep hrun (Or.inl ⟨rfl, hm, Inv.init m⟩)

end TablesState

/-! ## Accesses through the aperture -/

end KushOs.Vm
