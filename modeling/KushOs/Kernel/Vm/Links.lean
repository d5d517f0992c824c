import KushOs.Kernel.Vm.Hardware
import KushOs.Kernel.Vm.PageTables

/-!
# Entries that link paging structures

The kernel links structures with writable entries, and below its own half it links every structure
into one page table only. Both hold in all states of all runs (`TablesState.Inv.links`): the rights
of a page are then those of the entry that maps it, and page tables do not interfere with each other
below the kernel's half.

## Main definitions

* `SoundLinks`: the invariant, for a function that names the PML4 of every structure.

## Main results

* `SoundLinks.grows`, `SoundLinks.cleared`, `SoundLinks.new`: the operations keep the invariant.
* `Paging.hardwareAccess_congr`: what the processor finds depends on present entries only.
-/

namespace KushOs.Vm

open Memory RadixTable KernelM PageTable Transition

variable {σ : Type} {A : PhysicalAllocator σ} {held : σ → Set (BitVec 64)} {m m' : Machine σ}
variable {roots : List (BitVec 64)} {label label' : Labels (BitVec 64) Index} {pt : PageTable}
variable {root virt t u w : BitVec 64} {p : List Index}

/-- The indices lead into the half of the address space below the kernel's. -/
def InLowerHalf (q : List Index) : Prop := ∃ i rest, q = i :: rest ∧ i.toNat < 256

theorem InLowerHalf.of_append {q q' : List Index} (h : InLowerHalf (q ++ q')) (hq : q ≠ []) :
    InLowerHalf q := by
  obtain ⟨i, rest, heq, hi⟩ := h
  obtain ⟨j, q, rfl⟩ := List.exists_cons_of_ne_nil hq
  rw [List.cons_append, List.cons.injEq] at heq
  exact ⟨j, q, rfl, heq.1 ▸ hi⟩

/-- The paths of addresses below the kernel's half. -/
theorem inLowerHalf_path (hcanon : nonCanonical virt = false) (hlow : virt < kernelBoundary) :
    InLowerHalf (path virt) := by
  refine ⟨_, _, rfl, ?_⟩
  rw [← Nat.not_le, upper_iff hcanon, BitVec.not_le]
  exact hlow

/-- Paths into that half belong to addresses below the kernel's half. -/
theorem InLowerHalf.lt {q : List Index} (h : InLowerHalf q) (hcanon : nonCanonical virt = false)
    (hpath : q <+: path virt) : virt < kernelBoundary := by
  obtain ⟨i, rest, rfl, hi⟩ := h
  obtain ⟨rfl, -⟩ := List.cons_prefix_cons.mp hpath
  rw [← BitVec.not_le, ← upper_iff hcanon]
  exact not_le.mpr hi

/-- Entries that link structures allow writes; below the kernel's half they let userspace through,
and link structures of the same page table. `own` names the PML4 of every structure. -/
structure SoundLinks (m : Machine σ) (roots : List (BitVec 64)) (label : Labels (BitVec 64) Index)
    (own : BitVec 64 → BitVec 64) : Prop where
  root : ∀ r ∈ roots, own r = r
  write : ∀ {u t' : BitVec 64} {p : List Index} {j : Index},
    label u = some p → slot p.length (entries m u j) = .next t' →
      (entries m u j).getLsbD 1 = true
  user : ∀ {u t' : BitVec 64} {p : List Index} {j : Index},
    label u = some p → slot p.length (entries m u j) = .next t' →
      InLowerHalf (p ++ [j]) → (entries m u j).getLsbD 2 = true
  own : ∀ {u t' : BitVec 64} {p : List Index} {j : Index},
    label u = some p → slot p.length (entries m u j) = .next t' →
      InLowerHalf (p ++ [j]) → own t' = own u

/-! ## Steps -/

theorem write_tableEntry (page virt : BitVec 64) : (tableEntry page virt).getLsbD 1 = true := by
  unfold tableEntry
  split <;> simp

namespace SoundLinks

variable {own : BitVec 64 → BitVec 64}

/-- The links of structures in use stay sound if the entries that link something stay as they
are. -/
theorem congr (hl : SoundLinks m roots label own)
    (hentries : ∀ {u t' : BitVec 64} {p : List Index} {j : Index}, label u = some p →
      slot p.length (entries m' u j) = .next t' → entries m' u j = entries m u j) :
    SoundLinks m' roots label own := by
  refine ⟨hl.root, fun hu hslot => ?_, fun hu hslot => ?_, fun hu hslot => ?_⟩
  · have hsame := hentries hu hslot
    rw [hsame] at hslot ⊢
    exact hl.write hu hslot
  · have hsame := hentries hu hslot
    rw [hsame] at hslot ⊢
    exact hl.user hu hslot
  · rw [hentries hu hslot] at hslot
    exact hl.own hu hslot

/-- Writing an entry that links nothing. -/
theorem write_leaf (hl : SoundLinks m roots label own) (hp : Paging held m roots label)
    (ht : label t = some p) (i : Index) {e : BitVec 64} (he : ∀ t', slot p.length e ≠ .next t') :
    SoundLinks (m.write t i e) roots label own := by
  refine hl.congr fun {u t' q j} hu hslot => ?_
  have hentry := entries_write (m := m) (hp.isFrame ht) (hp.isFrame hu) i j e
  by_cases hsame : (u, j) = (t, i)
  · obtain ⟨rfl, rfl⟩ := Prod.mk.inj hsame
    obtain rfl : p = q := Option.some.inj (ht.symm.trans hu)
    rw [if_pos rfl] at hentry
    rw [hentry] at hslot
    exact absurd hslot (he t')
  · rw [hentry, if_neg hsame]

/-- The entries of the structures in use after a zeroed frame was linked: the new link, the zeros of
the frame, and the entries that were there. -/
theorem entries_link (virt : BitVec 64) {page : BitVec 64} {i : Index}
    (hp : Paging held m roots label)
    (ht : label t = some p) (hpage : IsFrame page) (hfresh : label page = none)
    (hzero : ∀ j, entries m page j = 0) {q : List Index} (j : Index)
    (hu : Function.update label page (some (p ++ [i])) u = some q) :
    (u = t ∧ j = i ∧ q = p ∧
      entries (m.write t i (tableEntry page virt)) u j = tableEntry page virt) ∨
    entries (m.write t i (tableEntry page virt)) u j = 0 ∨
    (label u = some q ∧ entries (m.write t i (tableEntry page virt)) u j = entries m u j) := by
  -- the frame itself, the entry that is written, and everything else
  by_cases hnew : u = page
  · subst hnew
    rw [entries_write (hp.isFrame ht) hpage, if_neg, hzero j]
    · exact Or.inr (Or.inl rfl)
    · rintro ⟨⟩
      rw [ht] at hfresh
      cases hfresh
  · rw [Function.update_of_ne hnew] at hu
    rw [entries_write (hp.isFrame ht) (hp.isFrame hu)]
    by_cases hsame : (u, j) = (t, i)
    · obtain ⟨rfl, rfl⟩ := Prod.mk.inj hsame
      rw [if_pos rfl]
      exact Or.inl ⟨rfl, rfl, Option.some.inj (hu.symm.trans ht), rfl⟩
    · rw [if_neg hsame]
      exact Or.inr (Or.inr ⟨hu, rfl⟩)

/-- A linked frame belongs to the page table that it is linked into. -/
theorem link {page : BitVec 64} {i : Index} (hl : SoundLinks m roots label own)
    (hp : Paging held m roots label) (ht : label t = some p) (hvirt : nonCanonical virt = false)
    (hpath : p ++ [i] <+: path virt) (hpage : IsFrame page)
    (hfresh : label page = none) (hzero : ∀ j, entries m page j = 0) :
    SoundLinks (m.write t i (tableEntry page virt)) roots
      (Function.update label page (some (p ++ [i]))) (Function.update own page (own t)) := by
  have hne : ∀ {u : BitVec 64} {q : List Index}, label u = some q → u ≠ page := by
    rintro u q hu rfl
    rw [hfresh] at hu
    cases hu
  refine ⟨fun r hr => ?_, fun {u t' q j} hu hslot => ?_, fun {u t' q j} hu hslot hlow => ?_,
    fun {u t' q j} hu hslot hlow => ?_⟩
  · rw [Function.update_of_ne (hne (hp.labelled.root r hr)), hl.root r hr]
  · rcases entries_link virt hp ht hpage hfresh hzero j hu with ⟨-, -, -, heq⟩ | heq | ⟨hold, heq⟩
    · rw [heq]
      exact write_tableEntry page virt
    · rw [heq, Paging.slot_of_absent rfl] at hslot
      cases hslot
    · rw [heq] at hslot ⊢
      exact hl.write hold hslot
  · rcases entries_link virt hp ht hpage hfresh hzero j hu with
      ⟨rfl, rfl, rfl, heq⟩ | heq | ⟨hold, heq⟩
    · -- the link is made for an address below the kernel's half
      rw [heq, user_tableEntry hpage, decide_eq_true_eq]
      exact hlow.lt hvirt hpath
    · rw [heq, Paging.slot_of_absent rfl] at hslot
      cases hslot
    · rw [heq] at hslot ⊢
      exact hl.user hold hslot hlow
  · rcases entries_link virt hp ht hpage hfresh hzero j hu with
      ⟨rfl, rfl, rfl, heq⟩ | heq | ⟨hold, heq⟩
    · -- the new link
      rw [heq] at hslot
      obtain ⟨-, rfl⟩ := slot_eq_next hslot
      rw [tableAddr_tableEntry hpage, Function.update_self, Function.update_of_ne (hne ht)]
    · rw [heq, Paging.slot_of_absent rfl] at hslot
      cases hslot
    · rw [heq] at hslot
      rw [Function.update_of_ne (hne hold),
        Function.update_of_ne (hne (hp.labelled.next hold hslot))]
      exact hl.own hold hslot hlow

/-- Below the kernel's half, the structures that are reached from a PML4 are its own. -/
theorem own_of_leads (hl : SoundLinks m roots label own) (hp : Paging held m roots label)
    (hroot : root ∈ roots) (hleads : Leads slot (entries m) root p t)
    (hlow : p = [] ∨ InLowerHalf p) : own t = root := by
  have hlabel := hp.labelled.root root hroot
  induction hleads with
  | nil => exact hl.root root hroot
  | @snoc u t' p i hu hslot ih =>
    have hlow : InLowerHalf (p ++ [i]) := hlow.resolve_left (by simp)
    have hu' := hu.label_eq hp.labelled hlabel
    rw [hl.own hu' hslot hlow]
    refine ih ?_
    by_cases hnil : p = []
    · exact Or.inl hnil
    · exact Or.inr (hlow.of_append hnil)

/-- Looking for a page table keeps the links sound, and changes no entry of the structures of other
page tables if the address is below the kernel's half. -/
theorem grows {base : Set (BitVec 64)} (hl : SoundLinks m roots label own)
    (h : Grows held base roots root virt m m' label label') :
    ∃ own', SoundLinks m' roots label' own' ∧
      ∀ {v : BitVec 64} {p : List Index}, label v = some p → own' v = own v ∧
        (root ∈ roots → InLowerHalf (path virt) → own v ≠ root →
          ∀ j, entries m' v j = entries m v j) := by
  suffices hall : ∀ x : Machine σ × Labels (BitVec 64) Index,
      Relation.ReflTransGen (GrowStep held roots root virt) (m, label) x →
      ∃ own', SoundLinks x.1 roots x.2 own' ∧
        ∀ v p, label v = some p → x.2 v = some p ∧ own' v = own v ∧
          (root ∈ roots → InLowerHalf (path virt) → own v ≠ root →
            ∀ j, entries x.1 v j = entries m v j) by
    obtain ⟨own', hl', hsame⟩ := hall _ h.steps
    exact ⟨own', hl', fun hv => (hsame _ _ hv).2⟩
  intro x hsteps
  induction hsteps with
  | refl => exact ⟨own, hl, fun v p hv => ⟨hv, rfl, fun _ _ _ _ => rfl⟩⟩
  | tail _ hstep ih =>
    obtain ⟨own₁, hl₁, hsame⟩ := ih
    cases hstep with
    | @alloc m₁ label₁ page s hp hpage hfresh =>
      have hentries : ∀ {u : BitVec 64} {p : List Index} (j : Index), label₁ u = some p →
          entries (Machine.zero { m₁ with allocator := s } page) u j = entries m₁ u j := by
        intro u p j hu
        refine entries_zero_of_ne _ hpage (hp.isFrame hu) ?_ j
        rintro rfl
        exact hfresh (hp.mem_held hu)
      refine ⟨own₁, hl₁.congr fun hu _ => hentries _ hu, fun v p hv => ?_⟩
      obtain ⟨hv₁, hown, hother⟩ := hsame v p hv
      refine ⟨hv₁, hown, fun hroot hlow hne j => ?_⟩
      rw [hentries j hv₁, hother hroot hlow hne j]
    | @link m₁ label₁ t page p i hp hleads ht hvirt hpath habsent hpage hfresh hzero =>
      dsimp only at hl₁ hsame ⊢
      refine ⟨_, hl₁.link hp ht hvirt hpath hpage hfresh hzero, fun v q hv => ?_⟩
      obtain ⟨hv₁, hown, hother⟩ := hsame v q hv
      have hne : v ≠ page := by
        rintro rfl
        rw [hfresh] at hv₁
        cases hv₁
      refine ⟨by rwa [Function.update_of_ne hne], by rwa [Function.update_of_ne hne],
        fun hroot hlow hforeign j => ?_⟩
      rw [entries_write (hp.isFrame ht) (hp.isFrame hv₁), if_neg]
      · exact hother hroot hlow hforeign j
      · -- the structure that is written belongs to `root`
        rintro ⟨⟩
        obtain ⟨rest, hrest⟩ := hpath
        rw [← hrest, List.append_assoc] at hlow
        refine hforeign ((hown.symm.trans ?_))
        refine hl₁.own_of_leads hp hroot hleads ?_
        by_cases hnil : p = []
        · exact Or.inl hnil
        · exact Or.inr (hlow.of_append hnil)

/-- So does mapping a page: page tables link nothing. -/
theorem mapped {e : BitVec 64} (hl : SoundLinks m roots label own)
    (h : Mapped held roots root virt e m m' label label') (hroot : label root = some []) :
    ∃ own', SoundLinks m' roots label' own' ∧
      (root ∈ roots → InLowerHalf (path virt) →
        ∀ {v : BitVec 64} {p : List Index}, label v = some p → own v ≠ root →
          ∀ j, entries m' v j = entries m v j) := by
  obtain ⟨m₁, t, hgrows, hleads, rfl⟩ := h
  obtain ⟨own', hl', hsame⟩ := hl.grows hgrows
  have ht := hleads.label_eq hgrows.paging.labelled (hgrows.mono hroot)
  refine ⟨own', hl'.write_leaf hgrows.paging ht _ fun t' hslot => ?_,
    fun hmem hlow v p hv hforeign j => ?_⟩
  · exact absurd (slot_eq_next hslot).1 (by simp [tablePath])
  · obtain ⟨hown, hother⟩ := hsame hv
    rw [entries_write (hgrows.paging.isFrame ht) (hgrows.paging.isFrame (hgrows.mono hv)), if_neg]
    · exact hother hmem hlow hforeign j
    · rintro ⟨⟩
      refine hforeign (hown.symm.trans (hl'.own_of_leads hgrows.paging hmem hleads (Or.inr ?_)))
      exact InLowerHalf.of_append (path_eq virt ▸ hlow) (by simp [tablePath])

/-- And clearing an entry. -/
theorem cleared (hl : SoundLinks m roots label own) (hp : Paging held m roots label)
    (hroot : label root = some []) (hc : Cleared root virt m m') :
    SoundLinks m' roots label own := by
  obtain ⟨t, p, i, rest, hleads, -, -, -, rfl⟩ := hc
  refine hl.write_leaf hp (hleads.label_eq hp.labelled hroot) i fun t' hslot => ?_
  rw [Paging.slot_of_absent rfl] at hslot
  cases hslot

/-- A new PML4 has links in the kernel's half only: those of its parent, and the aperture. -/
theorem new (hl : SoundLinks m roots label own) (hp : Paging held m roots label)
    {parent : Option PageTable} (hparent : ∀ par ∈ parent, label par.pml4Phys = some [])
    (hfresh : label pt.pml4Phys = none)
    (hold : ∀ {u : BitVec 64} {p : List Index}, label u = some p →
      label' u = some p ∧ entries m' u = entries m u)
    (hentry : ∀ j, entries m' pt.pml4Phys j = inherited m parent j ∨
      (m.isFirstPageTable = false ∧ 256 ≤ j.toNat ∧
        ∃ pdpt, IsFrame pdpt ∧ entries m' pt.pml4Phys j = tableEntry pdpt physApertureStart))
    (hunlinked : ∀ {u : BitVec 64} {p : List Index}, label' u = some p → label u = some p ∨
      (u = pt.pml4Phys ∧ p = []) ∨ (p ≠ [] ∧ ∀ j t', slot p.length (entries m' u j) ≠ .next t')) :
    SoundLinks m' (pt.pml4Phys :: roots) label'
      (Function.update own pt.pml4Phys pt.pml4Phys) := by
  have hne : ∀ {u : BitVec 64} {q : List Index}, label u = some q → u ≠ pt.pml4Phys := by
    rintro u q hu rfl
    rw [hfresh] at hu
    cases hu
  -- an inherited link is one of the parent's upper half
  have hinherited : ∀ j t', slot 0 (inherited m parent j) = .next t' →
      256 ≤ j.toNat ∧ ∃ par ∈ parent, inherited m parent j = entries m par.pml4Phys j := by
    intro j t' hslot
    rcases parent with _ | par
    · rw [inherited, Paging.slot_of_absent rfl] at hslot
      cases hslot
    · simp only [inherited] at hslot ⊢
      split at hslot
      next hupper => exact ⟨hupper, par, rfl, if_pos hupper⟩
      next =>
        rw [Paging.slot_of_absent rfl] at hslot
        cases hslot
  -- so the new PML4 links nothing below the kernel's half
  have hnone : ∀ j t' rest, slot 0 (entries m' pt.pml4Phys j) = .next t' →
      ¬ InLowerHalf (j :: rest) := by
    rintro j t' rest hslot ⟨i, rest', heq, hlow⟩
    obtain ⟨rfl, -⟩ := List.cons.inj heq
    rcases hentry j with heq | ⟨-, hupper, -⟩
    · rw [heq] at hslot
      obtain ⟨hupper, -⟩ := hinherited j t' hslot
      omega
    · omega
  refine ⟨fun r hr => ?_, fun {u t' q j} hu hslot => ?_, fun {u t' q j} hu hslot hlow => ?_,
    fun {u t' q j} hu hslot hlow => ?_⟩
  · rcases List.mem_cons.mp hr with rfl | hr
    · exact Function.update_self _ _ _
    · rw [Function.update_of_ne (hne (hp.labelled.root r hr)), hl.root r hr]
  · rcases hunlinked hu with hu | ⟨rfl, rfl⟩ | ⟨-, hunlinked⟩
    · rw [(hold hu).2] at hslot ⊢
      exact hl.write hu hslot
    · rcases hentry j with heq | ⟨-, -, pdpt, -, heq⟩
      · rw [heq] at hslot ⊢
        obtain ⟨-, par, hpar, heq⟩ := hinherited j t' hslot
        rw [heq] at hslot ⊢
        exact hl.write (hparent par hpar) hslot
      · rw [heq]
        exact write_tableEntry pdpt physApertureStart
    · exact absurd hslot (hunlinked j t')
  · rcases hunlinked hu with hu | ⟨rfl, rfl⟩ | ⟨-, hunlinked⟩
    · rw [(hold hu).2] at hslot ⊢
      exact hl.user hu hslot hlow
    · exact absurd hlow (hnone j t' [] hslot)
    · exact absurd hslot (hunlinked j t')
  · rcases hunlinked hu with hu | ⟨rfl, rfl⟩ | ⟨-, hunlinked⟩
    · rw [(hold hu).2] at hslot
      rw [Function.update_of_ne (hne hu),
        Function.update_of_ne (hne (hp.labelled.next hu hslot))]
      exact hl.own hu hslot hlow
    · exact absurd hlow (hnone j t' [] hslot)
    · exact absurd hslot (hunlinked j t')

end SoundLinks

/-! ## What the processor finds -/

/-- The entries that a walk meets are present if it finds a leaf. -/
theorem present_of_mem_trail {d : ℕ} {e : BitVec 64} {x : ℕ × BitVec 64 × Index}
    (hlookup : lookup m root w = some (d, e))
    (hx : x ∈ trail slot (entries m) 0 root (path w)) : present (entries m x.2.1 x.2.2) = true := by
  rw [← Bool.not_eq_false]
  intro habsent
  have hslot := Paging.slot_of_absent habsent x.1
  rcases links_of_mem_trail hlookup hx with ⟨t', hnext⟩ | ⟨hdepth, hentry⟩
  · cases hslot.symm.trans hnext
  · obtain ⟨-, -, -, -, hleaf⟩ := leaf_mem_trail hlookup
    rw [hdepth, hentry] at hslot
    cases hslot.symm.trans hleaf

/-- What the processor finds depends on the translation and, if there is one, on the entries that
the walk meets. -/
theorem Paging.hardwareAccess_of_trail (h : Paging held m roots label)
    (h' : Paging held m' roots label') (hroot : label u = some []) (hroot' : label' u = some [])
    (hlookup : lookup m' u w = lookup m u w)
    (hsame : ∀ leaf, lookup m u w = some leaf → ∀ x ∈ trail slot (entries m) 0 u (path w),
      entries m' x.2.1 x.2.2 = entries m x.2.1 x.2.2) :
    hardwareAccess m' u w = hardwareAccess m u w := by
  obtain ⟨hwalk, htrail⟩ := h.hardwareWalk_eq hroot w
  obtain ⟨hwalk', htrail'⟩ := h'.hardwareWalk_eq hroot' w
  unfold hardwareAccess
  rw [← hwalk, ← hwalk', hlookup]
  rcases hleaf : lookup m u w with _ | leaf
  · rfl
  -- the rights are those of the entries on the trail
  have hsame := hsame leaf hleaf
  have htrails := (walk_trail_congr fun x hx => ⟨hsame x hx, rfl⟩).2
  have hrights : ∀ bit, rightBit m' u w bit = rightBit m u w bit := by
    intro bit
    unfold rightBit
    rw [← htrail, ← htrail', htrails, Bool.eq_iff_iff, List.all_eq_true, List.all_eq_true]
    exact forall₂_congr fun x hx => by rw [hsame x hx]
  rw [hrights, hrights]

/-- It is enough if the present entries on the path stay as they are. -/
theorem Paging.hardwareAccess_congr (h : Paging held m roots label)
    (h' : Paging held m' roots label') (hroot : label u = some []) (hroot' : label' u = some [])
    (hlookup : lookup m' u w = lookup m u w)
    (hentries : ∀ {t : BitVec 64} {p : List Index} {j : Index}, label t = some p →
      p ++ [j] <+: path w → present (entries m t j) = true → entries m' t j = entries m t j) :
    hardwareAccess m' u w = hardwareAccess m u w := by
  refine h.hardwareAccess_of_trail h' hroot hroot' hlookup fun leaf hleaf x hx => ?_
  obtain ⟨px, hpx, -, hpath⟩ := h.labelled.label_of_mem_trail (p := []) hroot hx
  exact hentries hpx hpath (present_of_mem_trail hleaf hx)

/-- Below the kernel's half, it is enough if the entries of the page table's own structures do. -/
theorem SoundLinks.access_of_own {own : BitVec 64 → BitVec 64}
    (hl : SoundLinks m roots label own) (h : Paging held m roots label)
    (h' : Paging held m' roots label') (hu : u ∈ roots) (hu' : label' u = some [])
    (hlow : InLowerHalf (path w))
    (hsame : ∀ {v : BitVec 64} {p : List Index}, label v = some p → own v = u →
      ∀ j, entries m' v j = entries m v j) :
    lookup m' u w = lookup m u w ∧ hardwareAccess m' u w = hardwareAccess m u w := by
  have hroot := h.labelled.root u hu
  have htrail : ∀ x ∈ trail slot (entries m) 0 u (path w),
      entries m' x.2.1 x.2.2 = entries m x.2.1 x.2.2 := by
    intro x hx
    obtain ⟨px, hpx, -, rest, hpath⟩ := Leads.nil.exists_of_mem_trail hx
    refine hsame (hpx.label_eq h.labelled hroot) (hl.own_of_leads h hu hpx ?_) _
    rw [List.nil_append, List.append_assoc] at hpath
    by_cases hnil : px = []
    · exact Or.inl hnil
    · exact Or.inr (InLowerHalf.of_append (hpath ▸ hlow) hnil)
  have hlookup : lookup m' u w = lookup m u w :=
    (walk_trail_congr fun x hx => ⟨htrail x hx, rfl⟩).1
  exact ⟨hlookup, h.hardwareAccess_of_trail h' hroot hu' hlookup fun _ _ => htrail⟩

/-- An access has a right exactly if the entry that maps the page gives it, if all links do. -/
theorem Paging.rightBit_eq (h : Paging held m roots label) (hroot : label root = some [])
    {d : ℕ} {e : BitVec 64} (hlookup : lookup m root w = some (d, e)) {bit : ℕ}
    (hlinks : ∀ {t t' : BitVec 64} {p : List Index} {j : Index}, label t = some p →
      p ++ [j] <+: path w → slot p.length (entries m t j) = .next t' →
        (entries m t j).getLsbD bit = true) :
    rightBit m root w bit = e.getLsbD bit := by
  have htrail := (h.hardwareWalk_eq hroot w).2
  obtain ⟨t, j, hmem, hentry, -⟩ := leaf_mem_trail hlookup
  rw [rightBit, ← htrail, Bool.eq_iff_iff, List.all_eq_true]
  constructor
  · intro hall
    rw [← hentry]
    exact hall (d, t, j) hmem
  · intro hleaf x hx
    obtain ⟨px, hpx, hlen, hpath⟩ := h.labelled.label_of_mem_trail (p := []) hroot hx
    rcases links_of_mem_trail hlookup hx with ⟨t', hnext⟩ | ⟨-, heq⟩
    · rw [← hlen] at hnext
      exact hlinks hpx hpath hnext
    · rw [heq]
      exact hleaf

/-- Writes are allowed if the entry that maps the page allows them. -/
theorem SoundLinks.rightBit_write {own : BitVec 64 → BitVec 64} {d : ℕ} {e : BitVec 64}
    (hl : SoundLinks m roots label own) (h : Paging held m roots label)
    (hroot : label root = some []) (hlookup : lookup m root w = some (d, e)) :
    rightBit m root w 1 = e.getLsbD 1 :=
  h.rightBit_eq hroot hlookup fun ht _ hnext => hl.write ht hnext

/-- A page that is mapped by a page table, as the processor finds it. -/
theorem SoundLinks.hardwareAccess_page {own : BitVec 64 → BitVec 64} {e : BitVec 64}
    (hl : SoundLinks m roots label own) (h : Paging held m roots label)
    (hroot : label root = some []) (hw : nonCanonical w = false)
    (hlookup : lookup m root w = some (3, e)) :
    hardwareAccess m root w = some ⟨leafPhys w 3 e, e.getLsbD 1, rightBit m root w 2⟩ := by
  rw [hardwareAccess, hw, if_neg (by simp), ← (h.hardwareWalk_eq hroot w).1, hlookup,
    hl.rightBit_write h hroot hlookup]
  rfl

/-- Without a translation the processor finds nothing. -/
theorem Paging.hardwareAccess_none (h : Paging held m roots label) (hroot : label root = some [])
    (hlookup : lookup m root w = none) : hardwareAccess m root w = none := by
  rw [hardwareAccess, ← (h.hardwareWalk_eq hroot w).1, hlookup, Option.map_none, ite_self]

/-- Looking for a page table changes nothing that the processor finds. -/
theorem Grows.hardwareAccess_eq {base : Set (BitVec 64)}
    (h : Grows held base roots root virt m m' label label') (hp : Paging held m roots label)
    (hu : label u = some []) : hardwareAccess m' u w = hardwareAccess m u w :=
  hp.hardwareAccess_congr h.paging hu (h.mono hu) (h.walk_eq (path w) hu)
    fun ht _ hpresent => h.entry_of_present ht hpresent

/-- Mapping a page changes nothing that the processor finds in other pages. -/
theorem Mapped.hardwareAccess_eq {e : BitVec 64}
    (h : Mapped held roots root virt e m m' label label') (hp : Paging held m roots label)
    (hroot : label root = some []) (hu : label u = some []) (hvirt : nonCanonical virt = false)
    (hne : pageBase w ≠ pageBase virt) : hardwareAccess m' u w = hardwareAccess m u w := by
  cases hw : nonCanonical w with
  | true => rw [hardwareAccess, hardwareAccess, hw, if_pos rfl, if_pos rfl]
  | false =>
    refine hp.hardwareAccess_congr (h.paging hroot) hu (h.mono hu)
      (h.walk_eq hroot hu (not_prefix_path hvirt hw hne)) fun ht hpath hpresent => ?_
    refine h.entry_of_present hroot ht (fun heq => ?_) hpresent
    exact path_ne hvirt hw hne ((heq ▸ hpath).eq_of_length rfl).symm

/-! ## Runs -/

namespace TablesState

/-- The links between the structures of all page tables are sound. -/
def Links (held : σ → Set (BitVec 64)) (s : TablesState σ) : Prop :=
  ∃ label own, Paging held s.machine s.roots label ∧ SoundLinks s.machine s.roots label own

variable {s s' : TablesState σ}

theorem Links.inv (hs : s.Links held) : s.Inv held := by
  obtain ⟨label, own, hp, -⟩ := hs
  exact ⟨label, hp⟩

/-- Every operation keeps the links sound. -/
theorem Links.step (hA : HandsOutFresh A held) {op : TablesOp} (hs : s.Links held)
    (hstep : TablesStep A s op s') : s'.Links held := by
  obtain ⟨label, own, hp, hl⟩ := hs
  have hroot : ∀ {i : ℕ} {pt : PageTable}, s.tables[i]? = some pt →
      label pt.pml4Phys = some [] :=
    fun hi => hp.labelled.root _ (mem_roots (List.mem_of_getElem? hi))
  -- what clearing entries keeps
  let good (m : Machine σ) : Prop :=
    Paging held m s.roots label ∧ SoundLinks m s.roots label own
  have hgood : good s.machine := ⟨hp, hl⟩
  have hclear : ∀ {r : BitVec 64}, label r = some [] → ∀ m m' v,
      Paging held m s.roots label → Cleared r v m m' → good m → good m' :=
    fun hr m m' v hp hc hl => ⟨hc.paging hp hr, hl.2.cleared hp hr hc⟩
  cases hstep with
  | @create m' _ _ pt hnames hnew =>
    obtain ⟨label', hp', hfresh, hold, hentry, -, hunlinked, -⟩ :=
      hp.new_ok hA (TablesStep.label_of_names hp hnames) hnew
    have hl' := hl.new hp (TablesStep.label_of_names hp hnames) hfresh hold hentry hunlinked
    have hsub : ∀ r ∈ roots ⟨m', s.tables ++ [pt]⟩, r ∈ pt.pml4Phys :: s.roots := by
      intro r hr
      simpa [roots, or_comm] using hr
    exact ⟨label', _, hp'.of_subset hsub, ⟨fun r hr => hl'.root r (hsub r hr), hl'.write, hl'.user,
      hl'.own⟩⟩
  | mapPage hi hmap =>
    obtain ⟨label', ⟨-, hgrows⟩ | ⟨-, -, hmapped⟩⟩ := hp.mapPage_ok hA (hroot hi) hmap
    · obtain ⟨own', hl', -⟩ := hl.grows hgrows
      exact ⟨label', own', hgrows.paging, hl'⟩
    · obtain ⟨own', hl', -⟩ := hl.mapped hmapped (hroot hi)
      exact ⟨label', own', hmapped.paging (hroot hi), hl'⟩
  | unmapPage hi hunmap =>
    exact ⟨label, own, hp.unmapPage_preserves (hroot hi)
      (fun m' hc => hclear (hroot hi) _ m' _ hp hc) hunmap hgood⟩
  | unmap hi hunmap =>
    exact ⟨label, own, hp.unmap_preserves (hroot hi) (hclear (hroot hi)) hunmap hgood⟩
  | finishedEarlyBoot =>
    exact ⟨label, own, TablesStep.finishedEarlyBoot_sound hp,
      ⟨hl.root, hl.write, hl.user, hl.own⟩⟩

/-- The links do not depend on the allocator's state. -/
theorem Links.setAllocator {m : Machine σ} {tables : List PageTable}
    (hs : TablesState.Links held ⟨m, tables⟩) {a : σ} (ha : held m.allocator ⊆ held a) :
    TablesState.Links held ⟨{ m with allocator := a }, tables⟩ := by
  obtain ⟨label, own, hp, hl⟩ := hs
  exact ⟨label, own, hp.setAllocator ha, ⟨hl.root, hl.write, hl.user, hl.own⟩⟩

/-- In every state of every run the links are sound. -/
theorem Links.run (hA : HandsOutFresh A held) {m : Machine σ} {ops : List TablesOp}
    (hrun : Run (TablesStep A) ⟨m, []⟩ ops s) : s.Links held :=
  hrun.preserves (fun _ _ _ hs hstep => hs.step hA hstep)
    ⟨fun _ => none, id, ⟨⟨by simp [roots], by simp⟩, by simp⟩,
      ⟨by simp [roots], by simp, by simp, by simp⟩⟩

end TablesState

end KushOs.Vm
