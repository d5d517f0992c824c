import KushOs.Kernel.Vm.Paging

/-!
# Construction of a page table

`PageTable::PageTable` fills a new PML4 before any code can reach it: it copies the upper half of
the parent's, and the first page table of all also gets the aperture. Until the constructor returns
the new structures are not in use, so nothing that happens to them affects a translation.

## Main definitions

* `Touches`: only one frame changes.
* `AperturePdpt`: the entries for one of the four parts of the aperture.
* `Ready`: the entries of a frame respect the paths, so that it may become a PML4.

## Main results

* `Paging.new_ok`: what the constructor leaves behind.
-/

namespace KushOs.Vm

open Memory RadixTable KernelM PageTable

variable {σ : Type} {A : PhysicalAllocator σ} {held : σ → Set (BitVec 64)} {m m' m'' : Machine σ}
variable {roots : List (BitVec 64)} {label label' : Labels (BitVec 64) Index} {r : BitVec 64}

/-- Only the content of the frame `r` changes. -/
structure Touches (r : BitVec 64) (m m' : Machine σ) : Prop where
  entries_eq : ∀ u, IsFrame u → u ≠ r → entries m' u = entries m u
  allocator : m'.allocator = m.allocator
  earlyBoot : m'.earlyBoot = m.earlyBoot
  first : m'.isFirstPageTable = m.isFirstPageTable

namespace Touches

theorem refl (r : BitVec 64) (m : Machine σ) : Touches r m m :=
  ⟨fun _ _ _ => rfl, rfl, rfl, rfl⟩

theorem trans (h : Touches r m m') (h' : Touches r m' m'') : Touches r m m'' :=
  ⟨fun u hu hne => (h'.entries_eq u hu hne).trans (h.entries_eq u hu hne),
    h'.allocator.trans h.allocator, h'.earlyBoot.trans h.earlyBoot, h'.first.trans h.first⟩

theorem write (hr : IsFrame r) (m : Machine σ) (i : Index) (e : BitVec 64) :
    Touches r m (m.write r i e) := by
  refine ⟨fun u hu hne => ?_, rfl, rfl, rfl⟩
  funext j
  rw [entries_write hr hu, if_neg]
  rintro ⟨⟩
  exact hne rfl

theorem accessible (h : Touches r m m') : m'.Accessible = m.Accessible := by
  unfold Machine.Accessible
  rw [h.earlyBoot]

/-- Structures in use are not affected by what happens to a frame that is not one of them. -/
theorem entries_of_label (h : Touches r m m') (hp : Paging held m roots label)
    (hr : label r = none) {u : BitVec 64} {p : List Index} (hu : label u = some p) :
    entries m' u = entries m u := by
  refine h.entries_eq u (hp.isFrame hu) ?_
  rintro rfl
  rw [hr] at hu
  cases hu

theorem paging (h : Touches r m m') (hp : Paging held m roots label) (hr : label r = none) :
    Paging held m' roots label := by
  refine ⟨hp.labelled.congr fun u pu i hu => by rw [h.entries_of_label hp hr hu], fun hu => ?_⟩
  rw [h.allocator, h.accessible]
  exact hp.inUse hu

end Touches

/-- An index below 512 as a table index. -/
theorem ofNat_eq_setWidth {j : ℕ} (hj : j < 512) :
    BitVec.ofNat 64 j = (BitVec.ofNat 9 j).setWidth 64 := by
  apply BitVec.eq_of_toNat_eq
  rw [BitVec.toNat_setWidth, BitVec.toNat_ofNat, BitVec.toNat_ofNat]
  omega

namespace PageTable

/-- `copyPml4Upper` copies entries from the parent's PML4 into a frame that is not in use. -/
theorem copyPml4UpperLoop_ok {pt parent : PageTable} (hpt : IsFrame pt.pml4Phys)
    (hpar : IsFrame parent.pml4Phys) (hne : parent.pml4Phys ≠ pt.pml4Phys) {j n : ℕ}
    (hjn : j + n ≤ 512) (hacc : m.Accessible pt.pml4Phys) (hacc' : m.Accessible parent.pml4Phys)
    {u : Unit} (h : copyPml4UpperLoop pt parent j n m = .ok (u, m')) :
    Touches pt.pml4Phys m m' ∧ ∀ k : Index, entries m' pt.pml4Phys k =
      if j ≤ k.toNat ∧ k.toNat < j + n then entries m parent.pml4Phys k
      else entries m pt.pml4Phys k := by
  induction n generalizing j m with
  | zero =>
    obtain ⟨-, rfl⟩ := pure_eq_ok.mp h
    refine ⟨.refl _ _, fun k => ?_⟩
    rw [if_neg (by omega)]
  | succ n ih =>
    rw [copyPml4UpperLoop, ofNat_eq_setWidth (by omega), bind_of_ok (readTable_eq hacc' _),
      bind_of_ok (writeTable_eq hacc _ _)] at h
    -- one entry is copied, and the parent's frame is not the one that is written
    obtain ⟨htouch, hcopy⟩ := ih (by omega) (by simpa using hacc) (by simpa using hacc') h
    have hwrite := Touches.write hpt m (BitVec.ofNat 9 j)
      (entries m parent.pml4Phys (BitVec.ofNat 9 j))
    refine ⟨hwrite.trans htouch, fun k => ?_⟩
    rw [hcopy k, entries_write hpt hpar, entries_write hpt hpt]
    have hpar' : (parent.pml4Phys, k) ≠ (pt.pml4Phys, BitVec.ofNat 9 j) := fun h =>
      hne (Prod.mk.inj h).1
    rw [if_neg hpar']
    by_cases hk : k = BitVec.ofNat 9 j
    · -- the entry that this turn copied
      have hnat : k.toNat = j := by
        rw [hk, BitVec.toNat_ofNat]
        omega
      rw [if_neg (by omega), if_pos (by rw [hk]), if_pos (by omega), hk]
    · have hnat : k.toNat ≠ j := fun hnat => hk <| by
        rw [← hnat, BitVec.ofNat_toNat, BitVec.setWidth_eq]
      have hne' : (pt.pml4Phys, k) ≠ (pt.pml4Phys, BitVec.ofNat 9 j) := fun h =>
        hk (Prod.mk.inj h).2
      have hiff : (j + 1 ≤ k.toNat ∧ k.toNat < j + 1 + n) ↔
          (j ≤ k.toNat ∧ k.toNat < j + (n + 1)) := by
        omega
      rw [if_neg hne', if_congr hiff rfl rfl]

/-- An entry of the aperture maps a 1 GB page. -/
theorem slot_apertureEntry (phys : BitVec 64) : slot 1 (apertureEntry phys) = .leaf := by
  have hpresent : present (apertureEntry phys) = true := by simp [present, apertureEntry]
  have hlarge : large (apertureEntry phys) = true := by simp [large, apertureEntry]
  rw [Paging.slot_mid (Or.inl rfl) hpresent, if_pos hlarge]

/-- Entry `k` of the PDPT for the physical memory from `physBase` on. -/
def pdptEntry (physBase : BitVec 64) (k : Index) : BitVec 64 :=
  apertureEntry (physBase + k.setWidth 64 * 0x40000000#64)

/-- `mapPhysAperture` fills a PDPT with entries that map 1 GB pages. -/
theorem fillPdpt_ok {pdpt physBase : BitVec 64} (hpdpt : IsFrame pdpt) {j n : ℕ}
    (hjn : j + n ≤ 512) (hacc : m.Accessible pdpt) {u : Unit}
    (h : fillPdpt pdpt physBase j n m = .ok (u, m')) :
    Touches pdpt m m' ∧ (∀ k : Index, k.toNat < j → entries m' pdpt k = entries m pdpt k) ∧
      ∀ k : Index, j ≤ k.toNat → k.toNat < j + n →
        entries m' pdpt k = pdptEntry physBase k := by
  induction n generalizing j m with
  | zero =>
    obtain ⟨-, rfl⟩ := pure_eq_ok.mp h
    exact ⟨.refl _ _, fun _ _ => rfl, fun k hk hk' => by omega⟩
  | succ n ih =>
    rw [fillPdpt, ofNat_eq_setWidth (by omega), bind_of_ok (writeTable_eq hacc _ _)] at h
    -- the later turns leave the entry of this one alone
    obtain ⟨htouch, hbelow, hfill⟩ := ih (by omega) (by simpa using hacc) h
    have hwrite := Touches.write hpdpt m (BitVec.ofNat 9 j) (pdptEntry physBase (BitVec.ofNat 9 j))
    have hindex : ∀ k : Index, k.toNat ≠ j → (pdpt, k) ≠ (pdpt, BitVec.ofNat 9 j) := by
      rintro k hk ⟨⟩
      rw [BitVec.toNat_ofNat] at hk
      omega
    refine ⟨hwrite.trans htouch, fun k hk => ?_, fun k hk hk' => ?_⟩
    · rw [hbelow k (by omega), entries_write hpdpt hpdpt, if_neg (hindex k (by omega))]
    · rcases Nat.eq_or_lt_of_le hk with rfl | hlt
      · have hself : BitVec.ofNat 9 k.toNat = k := by rw [BitVec.ofNat_toNat, BitVec.setWidth_eq]
        rw [hbelow k (by omega), entries_write hpdpt hpdpt, hself, if_pos rfl]
        rfl
      · exact hfill k (by omega) (by omega)

end PageTable

/-! ## Frames that become PML4s -/

/-- The frame `r` is not in use yet, and its entries respect the paths. -/
structure Ready (held : σ → Set (BitVec 64)) (m : Machine σ) (label : Labels (BitVec 64) Index)
    (r : BitVec 64) : Prop where
  isFrame : IsFrame r
  accessible : m.Accessible r
  mem_held : r ∈ held m.allocator
  fresh : label r = none
  entry : ∀ j t', slot 0 (entries m r j) = .next t' → label t' = some [j]

/-- What the steps of the constructor keep while they fill the frame `r`. -/
structure Prepares (held : σ → Set (BitVec 64)) (roots : List (BitVec 64)) (r : BitVec 64)
    (m m' : Machine σ) (label label' : Labels (BitVec 64) Index) : Prop where
  paging : Paging held m' roots label'
  ready : Ready held m' label' r
  mono : ∀ {u : BitVec 64} {p : List Index}, label u = some p → label' u = some p
  entries_eq : ∀ {u : BitVec 64} {p : List Index}, label u = some p → entries m' u = entries m u
  held_subset : held m.allocator ⊆ held m'.allocator
  earlyBoot : m'.earlyBoot = m.earlyBoot
  first : m.isFirstPageTable = true → m'.isFirstPageTable = true
  unlinked : ∀ {u : BitVec 64} {p : List Index}, label' u = some p →
    label u = some p ∨ (p ≠ [] ∧ ∀ j t', slot p.length (entries m' u j) ≠ .next t')

namespace Prepares

theorem refl (hp : Paging held m roots label) (hr : Ready held m label r) :
    Prepares held roots r m m label label :=
  ⟨hp, hr, fun hu => hu, fun _ => rfl, Set.Subset.rfl, rfl, id, Or.inl⟩

theorem trans {label'' : Labels (BitVec 64) Index} (h : Prepares held roots r m m' label label')
    (h' : Prepares held roots r m' m'' label' label'') :
    Prepares held roots r m m'' label label'' := by
  refine ⟨h'.paging, h'.ready, fun hu => h'.mono (h.mono hu),
    fun hu => (h'.entries_eq (h.mono hu)).trans (h.entries_eq hu),
    h.held_subset.trans h'.held_subset, h'.earlyBoot.trans h.earlyBoot,
    fun hm => h'.first (h.first hm), fun hu => ?_⟩
  rcases h'.unlinked hu with hu' | hnew
  · rw [h'.entries_eq hu']
    exact h.unlinked hu'
  · exact Or.inr hnew

/-- Filling the frame itself, with entries that respect the paths. -/
theorem of_touches (h : Touches r m m') (hp : Paging held m roots label)
    (hr : Ready held m label r)
    (hentry : ∀ j t', slot 0 (entries m' r j) = .next t' → label t' = some [j]) :
    Prepares held roots r m m' label label := by
  refine ⟨h.paging hp hr.fresh, ⟨hr.isFrame, ?_, ?_, hr.fresh, hentry⟩, fun hu => hu,
    fun hu => h.entries_of_label hp hr.fresh hu, ?_, h.earlyBoot, fun hm => h.first.trans hm,
    Or.inl⟩
  · rw [h.accessible]
    exact hr.accessible
  · rw [h.allocator]
    exact hr.mem_held
  · rw [h.allocator]

/-- Filling another frame that is not in use. -/
theorem of_touches_other {q : BitVec 64} (h : Touches q m m') (hp : Paging held m roots label)
    (hr : Ready held m label r) (hq : label q = none) (hne : r ≠ q) :
    Prepares held roots r m m' label label := by
  refine ⟨h.paging hp hq, ⟨hr.isFrame, ?_, ?_, hr.fresh, ?_⟩, fun hu => hu,
    fun hu => h.entries_of_label hp hq hu, ?_, h.earlyBoot, fun hm => h.first.trans hm, Or.inl⟩
  · rw [h.accessible]
    exact hr.accessible
  · rw [h.allocator]
    exact hr.mem_held
  · rw [h.entries_eq r hr.isFrame hne]
    exact hr.entry
  · rw [h.allocator]

/-- Taking a fresh frame and zeroing it. -/
theorem alloc {page : BitVec 64} (hp : Paging held m roots label) (hr : Ready held m label r)
    (hpage : IsFrame page) (hfresh : page ∉ held m.allocator) {s : σ}
    (hs : held s = held m.allocator ∪ {page}) :
    Prepares held roots r m (Machine.zero { m with allocator := s } page) label label := by
  have hgrows := Grows.alloc ∅ r 0 hp hpage hfresh hs
  have hother : ∀ u, IsFrame u → u ≠ page →
      entries (Machine.zero { m with allocator := s } page) u = entries m u :=
    fun u hu hne => funext fun j => entries_zero_of_ne _ hpage hu hne j
  have hne : ∀ u ∈ held m.allocator, u ≠ page := fun u hu heq => hfresh (heq ▸ hu)
  refine ⟨hgrows.paging, ⟨hr.isFrame, hr.accessible, hgrows.held_subset hr.mem_held, hr.fresh, ?_⟩,
    fun hu => hu, fun hu => hother _ (hp.isFrame hu) (hne _ (hp.mem_held hu)), hgrows.held_subset,
    rfl, id, Or.inl⟩
  rw [hother r hr.isFrame (hne r hr.mem_held)]
  exact hr.entry

/-- Linking a structure that names no others into an entry of the frame. -/
theorem link {page : BitVec 64} (virt : BitVec 64) (hp : Paging held m roots label)
    (hr : Ready held m label r)
    (hpage : IsFrame page) (hacc : m.Accessible page) (hheld : page ∈ held m.allocator)
    (hfresh : label page = none) (hne : r ≠ page)
    (hnone : ∀ k t', slot 1 (entries m page k) ≠ .next t') (i : Index) :
    Prepares held roots r m (m.write r i (tableEntry page virt)) label
      (Function.update label page (some [i])) := by
  -- the new structure has no children, so that labelling it breaks nothing
  have hnew : Paging held m roots (Function.update label page (some [i])) := by
    refine ⟨hp.labelled.addTable hfresh hnone, fun {u q} hu => ?_⟩
    by_cases hu' : u = page
    · exact hu' ▸ ⟨hpage, hacc, hheld⟩
    · rw [Function.update_of_ne hu'] at hu
      exact hp.inUse hu
  have hfresh' : Function.update label page (some [i]) r = none := by
    rw [Function.update_of_ne hne, hr.fresh]
  have htouch := Touches.write hr.isFrame m i (tableEntry page virt)
  refine ⟨htouch.paging hnew hfresh', ⟨hr.isFrame, hr.accessible, hr.mem_held, hfresh', ?_⟩,
    fun hu => Labelled.update_of_fresh hfresh hu, fun hu => htouch.entries_of_label hp hr.fresh hu,
    Set.Subset.rfl, rfl, id, fun {u q} hu => ?_⟩
  · intro j t' hslot
    rw [entries_write hr.isFrame hr.isFrame] at hslot
    split at hslot
    next heq =>
      rw [Grows.slot_tableEntry hpage (Nat.zero_le _), Slot.next.injEq] at hslot
      rw [← hslot, Function.update_self, (Prod.mk.inj heq).2]
    next => exact Labelled.update_of_fresh hfresh (hr.entry j t' hslot)
  · by_cases hu' : u = page
    · subst hu'
      rw [Function.update_self, Option.some.injEq] at hu
      subst hu
      rw [htouch.entries_eq u hpage hne.symm]
      exact Or.inr ⟨by simp, hnone⟩
    · rw [Function.update_of_ne hu'] at hu
      exact Or.inl hu

end Prepares

/-- The entry that `mapPhysAperture` writes into the PML4 links a structure of the upper half. -/
theorem apertureLink_eq {pdpt : BitVec 64} (h : IsFrame pdpt) :
    (pdpt &&& ~~~0xFFF#64) ||| 0b11#64 = tableEntry pdpt physApertureStart := by
  have hlow : ∀ j < 64, (0xFFF#64).getLsbD j = decide (j < 12) := by decide
  have hmask : pdpt &&& ~~~0xFFF#64 = pdpt := by
    apply BitVec.eq_of_getLsbD_eq
    intro i hi
    rw [BitVec.getLsbD_and, BitVec.getLsbD_not, hlow i hi]
    rcases Nat.lt_or_ge i 12 with h12 | h12
    · rw [h.getLsbD (Or.inl h12), Bool.false_and]
    · simp [hi, h12]
  rw [hmask, tableEntry, if_neg (by decide)]

/-- Part `k` of the aperture: the PML4 at `r` links a PDPT, with path of its own, whose entries map
the 512 pages of 1 GB from `k * 512` GB on. -/
def AperturePdpt (m : Machine σ) (label : Labels (BitVec 64) Index) (r : BitVec 64) (k : ℕ) :
    Prop :=
  ∃ pdpt, IsFrame pdpt ∧ label pdpt = some [BitVec.ofNat 9 (256 + k)] ∧
    entries m r (BitVec.ofNat 9 (256 + k)) = tableEntry pdpt physApertureStart ∧
    ∀ j, entries m pdpt j = pdptEntry (BitVec.ofNat 64 k * 0x8000000000#64) j

/-- `mapPhysAperture` links new PDPTs into entries of the upper half. -/
theorem Paging.mapPhysApertureLoop_ok (hA : HandsOutFresh A held)
    (hp : Paging held m roots label) (hr : Ready held m label r) {i n : ℕ}
    (hin : 256 + i + n ≤ 512) {u : Unit} (h : mapPhysApertureLoop A ⟨r⟩ i n m = .ok (u, m')) :
    ∃ label', Prepares held roots r m m' label label' ∧
      (∀ j : Index, j.toNat < 256 + i ∨ 256 + i + n ≤ j.toNat →
        entries m' r j = entries m r j) ∧
      ∀ k, i ≤ k → k < i + n → AperturePdpt m' label' r k := by
  induction n generalizing i m label with
  | zero =>
    obtain ⟨-, rfl⟩ := pure_eq_ok.mp h
    exact ⟨label, .refl hp hr, fun _ _ => rfl, fun k hk hk' => by omega⟩
  | succ n ih =>
    rw [mapPhysApertureLoop] at h
    obtain ⟨pdpt, m₁, halloc, hrest⟩ := bind_eq_ok.mp h
    obtain ⟨_, _, hreq, hrest⟩ := bind_eq_ok.mp hrest
    obtain ⟨-, rfl⟩ := requireM_eq_ok.mp hreq
    obtain ⟨_, m₂, hfill, hloop⟩ := bind_eq_ok.mp hrest
    obtain ⟨hframe, hacc, hfresh, s, hs, rfl⟩ := allocPage_ok hA halloc
    have hlabel := Grows.label_of_fresh hp hfresh
    have hne : r ≠ pdpt := fun heq => hfresh (heq ▸ hr.mem_held)
    -- the PDPT is allocated and filled, and then it is linked
    have hprep₁ := Prepares.alloc hp hr hframe hfresh hs
    have hacc₁ : (Machine.zero { m with allocator := s } pdpt).Accessible pdpt := hacc
    obtain ⟨htouch, -, hfilled⟩ := fillPdpt_ok hframe (Nat.le_refl 512) hacc₁ hfill
    have hentries : ∀ j, entries m₂ pdpt j = pdptEntry (BitVec.ofNat 64 i * 0x8000000000#64) j :=
      fun j => hfilled j (Nat.zero_le _) (by omega)
    have hprep₂ := Prepares.of_touches_other htouch hprep₁.paging hprep₁.ready hlabel hne
    dsimp only at hloop
    rw [apertureLink_eq hframe, ofNat_eq_setWidth (by omega),
      bind_of_ok (writeTable_eq hprep₂.ready.accessible _ _)] at hloop
    have hprep₃ := Prepares.link physApertureStart hprep₂.paging hprep₂.ready hframe
      (htouch.accessible ▸ hacc) (htouch.allocator ▸ hs ▸ Or.inr rfl) hlabel hne
      (fun k t' hslot => by
        rw [hentries k, pdptEntry, slot_apertureEntry] at hslot
        cases hslot) (BitVec.ofNat 9 (256 + i))
    obtain ⟨label', hprep, hsame, haperture⟩ := ih hprep₃.paging hprep₃.ready (by omega) hloop
    have hindex : (BitVec.ofNat 9 (256 + i)).toNat = 256 + i := by
      rw [BitVec.toNat_ofNat]
      omega
    refine ⟨label', ((hprep₁.trans hprep₂).trans hprep₃).trans hprep, fun j hj => ?_,
      fun k hk hk' => ?_⟩
    · have hother : (r, j) ≠ (r, BitVec.ofNat 9 (256 + i)) := by
        rintro ⟨⟩
        omega
      rw [hsame j (by omega), entries_write hr.isFrame hr.isFrame, if_neg hother,
        htouch.entries_eq r hr.isFrame hne]
      exact entries_zero_of_ne _ hframe hr.isFrame hne j
    · rcases Nat.eq_or_lt_of_le hk with rfl | hlt
      · -- the turns that follow leave this part alone
        have hlink : Function.update label pdpt (some [BitVec.ofNat 9 (256 + i)]) pdpt =
            some [BitVec.ofNat 9 (256 + i)] := Function.update_self _ _ _
        refine ⟨pdpt, hframe, hprep.mono hlink, ?_, fun j => ?_⟩
        · rw [hsame _ (by omega), entries_write hr.isFrame hr.isFrame, if_pos rfl]
        · have hother : (pdpt, j) ≠ (r, BitVec.ofNat 9 (256 + i)) := by
            rintro ⟨⟩
            exact hne rfl
          rw [hprep.entries_eq hlink, entries_write hr.isFrame hframe, if_neg hother, hentries j]
      · exact haperture k (by omega) (by omega)

/-- Number of PDPTs of the aperture. -/
abbrev numAperturePdpts : ℕ := 4

/-- The first page table of all gets entries for the aperture. -/
theorem Paging.addAperture_ok (hA : HandsOutFresh A held) (hp : Paging held m roots label)
    (hr : Ready held m label r) {u : Unit} (h : addAperture A ⟨r⟩ m = .ok (u, m')) :
    ∃ label', Prepares held roots r m m' label label' ∧ m'.isFirstPageTable = true ∧
      (∀ j : Index, entries m' r j = entries m r j ∨
        (m.isFirstPageTable = false ∧ 256 ≤ j.toNat ∧
          ∃ pdpt, IsFrame pdpt ∧ entries m' r j = tableEntry pdpt physApertureStart)) ∧
      (m.isFirstPageTable = false → ∀ k < numAperturePdpts, AperturePdpt m' label' r k) := by
  rw [addAperture, get_bind] at h
  split at h
  next hfirst =>
    obtain ⟨-, rfl⟩ := pure_eq_ok.mp h
    exact ⟨label, .refl hp hr, hfirst, fun _ => Or.inl rfl, fun hnot => by simp [hfirst] at hnot⟩
  next hfirst =>
    rw [set_bind] at h
    -- setting the flag changes no table
    have hp' : Paging held { m with isFirstPageTable := true } roots label :=
      ⟨hp.labelled, fun hu => hp.inUse hu⟩
    have hr' : Ready held { m with isFirstPageTable := true } label r :=
      ⟨hr.isFrame, hr.accessible, hr.mem_held, hr.fresh, hr.entry⟩
    have hset : Prepares held roots r m { m with isFirstPageTable := true } label label :=
      ⟨hp', hr', fun hu => hu, fun _ => rfl, Set.Subset.rfl, rfl, fun _ => rfl, Or.inl⟩
    have hcount : (physApertureLen / 0x8000000000#64).toNat = numAperturePdpts := by decide
    rw [mapPhysAperture, hcount] at h
    obtain ⟨label', hprep, hsame, haperture⟩ := hp'.mapPhysApertureLoop_ok hA hr' (by decide) h
    refine ⟨label', hset.trans hprep, hprep.first rfl, fun j => ?_,
      fun _ k hk => haperture k (Nat.zero_le _) (by omega)⟩
    -- the four entries of the aperture, and the others
    by_cases hin : 256 ≤ j.toNat ∧ j.toNat < 256 + numAperturePdpts
    · obtain ⟨k, hk⟩ := Nat.exists_eq_add_of_le hin.1
      have hj : j = BitVec.ofNat 9 (256 + k) := by
        rw [← hk, BitVec.ofNat_toNat, BitVec.setWidth_eq]
      obtain ⟨pdpt, hframe, -, hlink, -⟩ := haperture k (Nat.zero_le _) (by omega)
      exact Or.inr ⟨by simpa using hfirst, hin.1, pdpt, hframe, hj ▸ hlink⟩
    · exact Or.inl (hsame j (by omega))

/-- The entries that a new PML4 takes over from its parent. -/
def inherited (m : Machine σ) (parent : Option PageTable) (j : Index) : BitVec 64 :=
  match parent with
  | some parent => if 256 ≤ j.toNat then entries m parent.pml4Phys j else 0
  | none => 0

/-- A page that was taken and zeroed for a PML4. -/
theorem Ready.zero {s : σ} (h : Paging held m roots label) (hframe : IsFrame r)
    (hacc : m.Accessible r) (hfresh : r ∉ held m.allocator)
    (hs : held s = held m.allocator ∪ {r}) :
    Ready held (Machine.zero { m with allocator := s } r) label r := by
  refine ⟨hframe, hacc, hs ▸ Or.inr rfl, Grows.label_of_fresh h hfresh, fun j t' hslot => ?_⟩
  rw [entries_zero_self { m with allocator := s } r j, Paging.slot_of_absent rfl] at hslot
  cases hslot

/-- The structures in use stay as they are. -/
theorem Paging.entries_zero_of_fresh {s : σ} {u : BitVec 64} {p : List Index}
    (h : Paging held m roots label) (hframe : IsFrame r) (hfresh : r ∉ held m.allocator)
    (hu : label u = some p) :
    entries (Machine.zero { m with allocator := s } r) u = entries m u := by
  refine funext fun j => entries_zero_of_ne _ hframe (h.isFrame hu) ?_ j
  rintro rfl
  exact hfresh (h.mem_held hu)

/-- An empty frame gets the entries of the parent's upper half. -/
theorem Paging.copyParent_ok (hp : Paging held m roots label) (hr : Ready held m label r)
    (hzero : ∀ j, entries m r j = 0) {parent : Option PageTable}
    (hparent : ∀ par ∈ parent, label par.pml4Phys = some []) {u : Unit}
    (h : copyParent ⟨r⟩ parent m = .ok (u, m')) :
    Prepares held roots r m m' label label ∧ (∀ j, entries m' r j = inherited m parent j) ∧
      m'.isFirstPageTable = m.isFirstPageTable := by
  cases parent with
  | none =>
    obtain ⟨-, rfl⟩ := pure_eq_ok.mp h
    exact ⟨.refl hp hr, hzero, rfl⟩
  | some par =>
    have hpar := hparent par rfl
    have hne : par.pml4Phys ≠ r := by
      rintro rfl
      rw [hr.fresh] at hpar
      cases hpar
    have hcopy : copyPml4UpperLoop ⟨r⟩ par 0x100 0x100 m = .ok (u, m') := h
    obtain ⟨htouch, hentries⟩ := copyPml4UpperLoop_ok hr.isFrame (hp.isFrame hpar) hne
      (by decide) hr.accessible (hp.accessible hpar) hcopy
    have hinherit : ∀ j, entries m' r j = inherited m (some par) j := by
      intro j
      rw [hentries j, hzero j, inherited]
      have hlt := j.isLt
      exact if_congr (by omega) rfl rfl
    refine ⟨.of_touches htouch hp hr fun j t' hslot => ?_, hinherit, htouch.first⟩
    -- what is copied links what it links in the parent
    rw [hinherit j, inherited] at hslot
    split at hslot
    · exact hp.labelled.next hpar hslot
    · rw [Paging.slot_of_absent rfl] at hslot
      cases hslot

/-- The frame that was filled becomes a PML4. -/
theorem Prepares.addRoot {label' : Labels (BitVec 64) Index}
    (h : Prepares held roots r m m' label label') :
    Paging held m' (r :: roots) (Function.update label' r (some [])) := by
  refine ⟨h.paging.labelled.addRoot h.ready.fresh h.ready.entry, fun {u p} hu => ?_⟩
  by_cases hu' : u = r
  · exact hu' ▸ ⟨h.ready.isFrame, h.ready.accessible, h.ready.mem_held⟩
  · rw [Function.update_of_ne hu'] at hu
    exact h.paging.inUse hu

/-- The constructor adds a PML4 to the structures in use. Its entries are those of the parent's
upper half, except that the first page table of all gets entries for the aperture, which lies in
the upper half and is closed to userspace. -/
theorem Paging.new_ok (hA : HandsOutFresh A held) (h : Paging held m roots label)
    {parent : Option PageTable} (hparent : ∀ par ∈ parent, label par.pml4Phys = some [])
    {pt : PageTable} (hnew : PageTable.new A parent m = .ok (pt, m')) :
    ∃ label', Paging held m' (pt.pml4Phys :: roots) label' ∧ label pt.pml4Phys = none ∧
      (∀ {u : BitVec 64} {p : List Index}, label u = some p →
        label' u = some p ∧ entries m' u = entries m u) ∧
      (∀ j, entries m' pt.pml4Phys j = inherited m parent j ∨
        (m.isFirstPageTable = false ∧ 256 ≤ j.toNat ∧
          ∃ pdpt, IsFrame pdpt ∧ entries m' pt.pml4Phys j = tableEntry pdpt physApertureStart)) ∧
      (m.isFirstPageTable = false →
        ∀ k < numAperturePdpts, AperturePdpt m' label' pt.pml4Phys k) ∧
      (∀ {u : BitVec 64} {p : List Index}, label' u = some p → label u = some p ∨
        (u = pt.pml4Phys ∧ p = []) ∨
          (p ≠ [] ∧ ∀ j t', slot p.length (entries m' u j) ≠ .next t')) ∧
      held m.allocator ⊆ held m'.allocator ∧ m'.earlyBoot = m.earlyBoot ∧
      m'.isFirstPageTable = true := by
  unfold PageTable.new at hnew
  obtain ⟨r, m₁, halloc, hrest⟩ := bind_eq_ok.mp hnew
  obtain ⟨hframe, hacc, hfresh, s, hs, rfl⟩ := allocPage_ok hA halloc
  have hgrows := Grows.alloc ∅ r 0 h hframe hfresh hs
  have hready := Ready.zero h hframe hacc hfresh hs
  -- the parent's upper half
  obtain ⟨_, m₂, hcopy, hrest⟩ := bind_eq_ok.mp hrest
  obtain ⟨hprep, hinherit, hflag⟩ := hgrows.paging.copyParent_ok hready
    (entries_zero_self { m with allocator := s } r) hparent hcopy
  have hsame :
      inherited (Machine.zero { m with allocator := s } r) parent = inherited m parent := by
    cases parent with
    | none => rfl
    | some par =>
      funext j
      rw [inherited, inherited, h.entries_zero_of_fresh hframe hfresh (hparent par rfl)]
  rw [hsame] at hinherit
  -- the aperture
  obtain ⟨_, m₃, haperture, hpt⟩ := bind_eq_ok.mp hrest
  obtain ⟨rfl, rfl⟩ := pure_eq_ok.mp hpt
  obtain ⟨label', hprep₃, hfirst, hentry, hparts⟩ :=
    hprep.paging.addAperture_ok hA hprep.ready haperture
  rw [hflag] at hentry hparts
  have hall := hprep.trans hprep₃
  refine ⟨Function.update label' r (some []), hall.addRoot, Grows.label_of_fresh h hfresh,
    fun hu => ⟨Labelled.update_of_fresh hall.ready.fresh (hall.mono hu),
      (hall.entries_eq hu).trans (h.entries_zero_of_fresh hframe hfresh hu)⟩,
    fun j => hinherit j ▸ hentry j, fun hm k hk => ?_, fun {u p} hu => ?_,
    hgrows.held_subset.trans hall.held_subset, hall.earlyBoot, hfirst⟩
  · obtain ⟨pdpt, hpdpt, hpath, hpart⟩ := hparts hm k hk
    exact ⟨pdpt, hpdpt, Labelled.update_of_fresh hall.ready.fresh hpath, hpart⟩
  · by_cases hu' : u = r
    · rw [hu', Function.update_self, Option.some.injEq] at hu
      exact Or.inr (Or.inl ⟨hu', hu.symm⟩)
    · rw [Function.update_of_ne hu'] at hu
      exact (hall.unlinked hu).imp_right Or.inr

end KushOs.Vm
