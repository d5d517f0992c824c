import KushOs.Kernel.Vm.Aperture
import KushOs.Kernel.Vm.MapPage
import KushOs.Kernel.Vm.PageRange

/-!
# Unmapping a range

`PageTable::unmap` visits the pages of the range one by one. Where a visited page is mapped by a
large page, the whole large page goes, with the addresses outside the range that it maps. The call
stops at the first page that is not canonical; the pages before it stay unmapped.

## Main definitions

* `MappedTogether`: one page, of whatever size, maps both addresses.
* `LeavesRemoved`: the pages that map the visited addresses are unmapped and no others.

## Main results

* `Paging.unmapLoop_leaves`: the loop of `unmap`, for every range.
* `unmap_removes_leaves`: `unmap` in every state of every run.
-/

namespace KushOs.Vm

open Memory RadixTable KernelM PageTable PageAllocator Transition

variable {σ : Type} {A : PhysicalAllocator σ} {held : σ → Set (BitVec 64)} {m m' m'' : Machine σ}
variable {roots : List (BitVec 64)} {label : Labels (BitVec 64) Index} {pt : PageTable}
variable {root v w : BitVec 64}

/-! ## Pages of any size -/

/-- Binary logarithm of the size of the pages that the entries of a level map. -/
def leafShift (d : ℕ) : ℕ := 39 - 9 * d

/-- The page that maps `v`, of 1 GB, 2 MB or 4 KB, contains `w`. -/
def MappedTogether (m : Machine σ) (root v w : BitVec 64) : Prop :=
  ∃ d e, lookup m root v = some (d, e) ∧ v >>> leafShift d = w >>> leafShift d

/-- Walks end at one of the three lower levels. -/
theorem depth_of_lookup {d : ℕ} {e : BitVec 64} (h : lookup m root v = some (d, e)) :
    1 ≤ d ∧ d ≤ 3 := by
  obtain ⟨-, -, -, -, hleaf⟩ := leaf_mem_trail h
  match d with
  | 0 =>
    simp only [slot] at hleaf
    split at hleaf <;> cases hleaf
  | 1 | 2 | 3 => omega
  | _ + 4 => cases hleaf

theorem ushiftRight_eq_iff {k : ℕ} :
    v >>> k = w >>> k ↔ v.toNat / 2 ^ k = w.toNat / 2 ^ k := by
  rw [← BitVec.toNat_inj, BitVec.toNat_ushiftRight, BitVec.toNat_ushiftRight,
    Nat.shiftRight_eq_div_pow, Nat.shiftRight_eq_div_pow]

/-- The addresses of a page are those whose paths start with the indices that select it. -/
theorem ushiftRight_eq_iff_take (hv : nonCanonical v = false) (hw : nonCanonical w = false)
    {d : ℕ} (hd : 1 ≤ d) (hd' : d ≤ 3) :
    v >>> leafShift d = w >>> leafShift d ↔ (path v).take (d + 1) <+: path w := by
  have hv := nonCanonical_eq_false hv
  have hw := nonCanonical_eq_false hw
  have hvlt := v.isLt
  have hwlt := w.isLt
  have hindex : ∀ s, v.extractLsb' s 9 = w.extractLsb' s 9 ↔
      v.toNat / 2 ^ s % 512 = w.toNat / 2 ^ s % 512 := by
    intro s
    rw [← BitVec.toNat_inj, toNat_extract, toNat_extract]
  rw [ushiftRight_eq_iff]
  obtain rfl | rfl | rfl : d = 1 ∨ d = 2 ∨ d = 3 := by omega
  all_goals
    simp only [path, leafShift, List.take_succ_cons, List.take_zero, List.cons_prefix_cons,
      List.nil_prefix, and_true, hindex]
    omega

namespace MappedTogether

theorem iff_take (hv : nonCanonical v = false) (hw : nonCanonical w = false) :
    MappedTogether m root v w ↔
      ∃ d e, lookup m root v = some (d, e) ∧ (path v).take (d + 1) <+: path w := by
  refine exists_congr fun d => exists_congr fun e => and_congr_right fun hlookup => ?_
  obtain ⟨hd, hd'⟩ := depth_of_lookup hlookup
  exact ushiftRight_eq_iff_take hv hw hd hd'

/-- The addresses of a page are mapped by the same entry. -/
theorem lookup_eq (h : MappedTogether m root v w) (hv : nonCanonical v = false)
    (hw : nonCanonical w = false) : lookup m root w = lookup m root v := by
  obtain ⟨d, e, hlookup, htake⟩ := (iff_take hv hw).mp h
  rw [hlookup]
  exact (walk_of_take hlookup htake).2

theorem trans {x : BitVec 64} (h : MappedTogether m root v w) (h' : MappedTogether m root w x)
    (hv : nonCanonical v = false) (hw : nonCanonical w = false) : MappedTogether m root v x := by
  obtain ⟨d', e', hlookup', hsame'⟩ := h'
  rw [h.lookup_eq hv hw] at hlookup'
  obtain ⟨d, e, hlookup, hsame⟩ := h
  obtain ⟨rfl, rfl⟩ : d = d' ∧ e = e' := by simpa using hlookup.symm.trans hlookup'
  exact ⟨d, e, hlookup, hsame.trans hsame'⟩

/-- Only the entry at which the walk of the first address ends matters. -/
theorem congr (h : MappedTogether m root v w) (heq : lookup m' root v = lookup m root v) :
    MappedTogether m' root v w := by
  obtain ⟨d, e, hlookup, hsame⟩ := h
  exact ⟨d, e, heq.trans hlookup, hsame⟩

theorem self {d : ℕ} {e : BitVec 64} (h : lookup m root v = some (d, e)) :
    MappedTogether m root v v :=
  ⟨d, e, h, rfl⟩

end MappedTogether

/-! ## Unmapping one page -/

theorem take_length_succ (p : List Index) (i : Index) (rest : List Index) :
    (p ++ i :: rest).take (p.length + 1) = p ++ [i] := by
  simp [List.take_append]

/-- The entry at which the walk of `v` ends is cleared: what it maps is unmapped. -/
theorem Cleared.lookup_none (hc : Cleared root v m m') (h : Paging held m roots label)
    (hroot : label root = some []) (hv : nonCanonical v = false) (hw : nonCanonical w = false)
    (hsame : MappedTogether m root v w) : lookup m' root w = none := by
  obtain ⟨d, e, hlookup, htake⟩ := (MappedTogether.iff_take hv hw).mp hsame
  obtain ⟨t, p, i, rest, hleads, -, hpath, hslot, rfl⟩ := hc
  have hframe := h.isFrame (hleads.label_eq h.labelled hroot)
  -- the walk ended at the cleared entry
  have hlen : p.length = d := by
    rw [lookup, ← hpath, hleads.walk_append] at hlookup
    rcases hs : slot p.length (entries m t i) with _ | t' | _
    · rw [walk_of_absent hs] at hlookup
      cases hlookup
    · exact absurd hs (hslot t')
    · rw [walk_of_leaf hs, Option.some.injEq, Prod.mk.injEq] at hlookup
      exact hlookup.1
  rw [← hpath, ← hlen, take_length_succ] at htake
  obtain ⟨more, hmore⟩ := htake
  have hentry := entries_write (m := m) hframe hframe i i 0
  rw [if_pos rfl] at hentry
  rw [lookup, ← hmore, List.append_assoc, List.singleton_append,
    (h.leads_write hroot hleads i 0).walk_append,
    walk_of_absent (Paging.slot_of_absent (by rw [hentry]; rfl) _)]

/-- Nothing else is unmapped, in any page table. -/
theorem Cleared.lookup_of_apart (hc : Cleared root v m m') (h : Paging held m roots label)
    (hroot : label root = some []) (hv : nonCanonical v = false) (hw : nonCanonical w = false)
    (hapart : ¬ MappedTogether m root v w) {u : BitVec 64} (hu : label u = some []) :
    lookup m' u w = lookup m u w := by
  rw [MappedTogether.iff_take hv hw] at hapart
  obtain ⟨t, p, i, rest, hleads, -, hpath, hslot, rfl⟩ := hc
  have ht := hleads.label_eq h.labelled hroot
  have hlookup : lookup m root v = walk slot (entries m) p.length t (i :: rest) := by
    rw [lookup, ← hpath, hleads.walk_append]
  rcases hs : slot p.length (entries m t i) with _ | t' | _
  · -- an absent entry was cleared
    have hframe : ∀ u pu j, label u = some pu → (u, j) ≠ (t, i) →
        entries (m.write t i 0) u j = entries m u j := by
      intro u pu j hu hne
      rw [entries_write (h.isFrame ht) (h.isFrame hu), if_neg hne]
    refine h.labelled.walk_absent ht hframe hs ?_ hu
    rw [entries_write (h.isFrame ht) (h.isFrame ht), if_pos rfl]
    exact Paging.slot_of_absent rfl _
  · exact absurd hs (hslot t')
  · rw [walk_of_leaf hs] at hlookup
    refine h.walk_write ht i 0 hu fun htake => hapart ⟨_, _, hlookup, ?_⟩
    rw [← hpath, take_length_succ]
    simpa using htake

/-- Entries that are present stay, except that at which the walk of `v` ends. -/
theorem Cleared.entry_of_apart (hc : Cleared root v m m') (h : Paging held m roots label)
    (hroot : label root = some []) (hv : nonCanonical v = false) (hw : nonCanonical w = false)
    (hapart : ¬ MappedTogether m root v w) {t : BitVec 64} {p : List Index} {j : Index}
    (ht : label t = some p) (hpath : p ++ [j] <+: path w)
    (hpresent : present (entries m t j) = true) : entries m' t j = entries m t j := by
  rw [MappedTogether.iff_take hv hw] at hapart
  obtain ⟨t₀, p₀, i, rest, hleads, -, hpath₀, hslot, rfl⟩ := hc
  have ht₀ := hleads.label_eq h.labelled hroot
  rw [entries_write (h.isFrame ht₀) (h.isFrame ht), if_neg]
  rintro ⟨⟩
  obtain rfl : p₀ = p := Option.some.inj (ht₀.symm.trans ht)
  -- the entry maps the page that contains both addresses
  have hlen : p₀.length ≤ 3 := by
    have hlength := congrArg List.length hpath₀
    simp only [List.length_append, List.length_cons, path, List.length_nil] at hlength
    omega
  have hleaf : slot p₀.length (entries m t j) = .leaf := by
    rcases hs : slot p₀.length (entries m t j) with _ | t' | _
    · exact absurd hs (Paging.slot_ne_absent hlen hpresent)
    · exact absurd hs (hslot t')
    · rfl
  refine hapart ⟨p₀.length, entries m t j, ?_, ?_⟩
  · rw [lookup, ← hpath₀, hleads.walk_append, walk_of_leaf hleaf]
  · rwa [← hpath₀, take_length_succ]

/-- What a loop over the first `k` pages from `start` on does to the page table with the PML4 at
`root` and to all others: the pages that map the visited addresses are unmapped, and no others. -/
structure LeavesRemoved (m m' : Machine σ) (roots : List (BitVec 64)) (root start : BitVec 64)
    (k : ℕ) : Prop where
  removed : ∀ i < k, ∀ w, nonCanonical w = false → MappedTogether m root (pageAt start i) w →
    lookup m' root w = none
  kept : ∀ u ∈ roots, ∀ w, nonCanonical w = false →
    (∀ i < k, ¬ MappedTogether m root (pageAt start i) w) →
      lookup m' u w = lookup m u w ∧ hardwareAccess m' u w = hardwareAccess m u w

/-- `unmapPage` of a canonical address. -/
theorem Paging.unmapPage_leaf (h : Paging held m roots label) (hroot : label pt.pml4Phys = some [])
    (hv : nonCanonical v = false) :
    ∃ c m', unmapPage pt v true m = .ok (c, m') ∧ 0 ≤ c ∧ Keeps held roots m m' label ∧
      LeavesRemoved m m' roots pt.pml4Phys v 1 := by
  obtain ⟨c, m', heq, hcases⟩ := h.unmapPage_cases hroot hv true
  have hone : ∀ i < 1, pageAt v i = v := by
    intro i hi
    obtain rfl : i = 0 := by omega
    exact pageAt_zero v
  refine ⟨c, m', heq, ?_, h.unmapPage_keeps hroot heq, ?_⟩
  -- large pages are removed too, so no call is refused
  · rcases hcases with ⟨-, -, hflag⟩ | ⟨-, hc, -⟩ | ⟨hc, -⟩
    · cases hflag
    · omega
    · omega
  · rcases hcases with ⟨-, -, hflag⟩ | ⟨rfl, -, hnone⟩ | ⟨-, hcleared, -⟩
    · cases hflag
    · refine ⟨fun i hi w _ htogether => ?_, fun _ _ _ _ _ => ⟨rfl, rfl⟩⟩
      obtain ⟨d, e, hsome, -⟩ := htogether
      rw [hone i hi, hnone] at hsome
      cases hsome
    · refine ⟨fun i hi w hw htogether => ?_, fun u hu w hw hapart => ?_⟩
      · rw [hone i hi] at htogether
        exact hcleared.lookup_none h hroot hv hw htogether
      · have hapart := hapart 0 (by omega)
        rw [pageAt_zero] at hapart
        have hlabel := h.labelled.root u hu
        have hlookup := hcleared.lookup_of_apart h hroot hv hw hapart hlabel
        exact ⟨hlookup, h.hardwareAccess_congr (hcleared.paging h hroot) hlabel hlabel hlookup
          fun ht => hcleared.entry_of_apart h hroot hv hw hapart ht⟩

/-! ## The loop -/

/-- The first page, and then the others. -/
theorem LeavesRemoved.succ {start : BitVec 64} {k : ℕ} (hroot : root ∈ roots)
    (hcanon : ∀ i < k + 1, nonCanonical (pageAt start i) = false)
    (hfirst : LeavesRemoved m m' roots root start 1)
    (hrest : LeavesRemoved m' m'' roots root (start + BitVec.ofNat 64 pageSize) k) :
    LeavesRemoved m m'' roots root start (k + 1) := by
  have hstart : nonCanonical start = false := by
    have hzero := hcanon 0 (by omega)
    rwa [pageAt_zero] at hzero
  -- what is unmapped stays so
  have hnone : ∀ w, nonCanonical w = false → lookup m' root w = none →
      lookup m'' root w = none := by
    intro w hw hnone
    by_cases htogether : ∃ i < k, MappedTogether m' root
        (pageAt (start + BitVec.ofNat 64 pageSize) i) w
    · obtain ⟨i, hi, htogether⟩ := htogether
      exact hrest.removed i hi w hw htogether
    · rw [(hrest.kept root hroot w hw fun i hi hi' => htogether ⟨i, hi, hi'⟩).1, hnone]
  have hgone : ∀ w, nonCanonical w = false → MappedTogether m root start w →
      lookup m' root w = none := by
    intro w hw htogether
    refine hfirst.removed 0 (by omega) w hw ?_
    rwa [pageAt_zero]
  have hsame : ∀ u ∈ roots, ∀ w, nonCanonical w = false → ¬ MappedTogether m root start w →
      lookup m' u w = lookup m u w ∧ hardwareAccess m' u w = hardwareAccess m u w := by
    intro u hu w hw hapart
    refine hfirst.kept u hu w hw fun i hi => ?_
    obtain rfl : i = 0 := by omega
    rwa [pageAt_zero]
  refine ⟨fun i hi w hw htogether => ?_, fun u hu w hw hapart => ?_⟩
  · cases i with
    | zero => exact hnone w hw (hfirst.removed 0 (by omega) w hw htogether)
    | succ i =>
      have hpage := hcanon (i + 1) hi
      by_cases hboth : MappedTogether m root start (pageAt start (i + 1))
      · -- the page was unmapped with the first one
        exact hnone w hw (hgone w hw (hboth.trans htogether hstart hpage))
      · have htogether' := htogether.congr (hsame root hroot _ hpage hboth).1
        rw [pageAt_succ] at htogether'
        exact hrest.removed i (by omega) w hw htogether'
  · have hfirst' : ¬ MappedTogether m root start w := by
      have hapart := hapart 0 (by omega)
      rwa [pageAt_zero] at hapart
    have hrest' : ∀ i < k, ¬ MappedTogether m' root
        (pageAt (start + BitVec.ofNat 64 pageSize) i) w := by
      intro i hi htogether
      rw [← pageAt_succ] at htogether
      have hpage := hcanon (i + 1) (by omega)
      by_cases hboth : MappedTogether m root start (pageAt start (i + 1))
      · obtain ⟨d, e, hsome, -⟩ := htogether
        rw [hgone _ hpage hboth] at hsome
        cases hsome
      · exact hapart (i + 1) (by omega) (htogether.congr (hsame root hroot _ hpage hboth).1.symm)
    obtain ⟨hlookup, haccess⟩ := hrest.kept u hu w hw hrest'
    obtain ⟨hlookup', haccess'⟩ := hsame u hu w hw hfirst'
    exact ⟨hlookup.trans hlookup', haccess.trans haccess'⟩

/-- The loop of `unmap` visits the pages up to the first one that is not canonical. -/
theorem Paging.unmapLoop_leaves (h : Paging held m roots label)
    (hroot : pt.pml4Phys ∈ roots) (start : BitVec 64) (n : ℕ) :
    ∃ k c m', unmapLoop pt start n m = .ok (c, m') ∧
      LeavesRemoved m m' roots pt.pml4Phys start k ∧
      (∀ i < k, nonCanonical (pageAt start i) = false) ∧
      (c = 0 ∧ k = n ∨ c < 0 ∧ k < n ∧ nonCanonical (pageAt start k) = true) := by
  have hlabel := h.labelled.root _ hroot
  induction n generalizing start m with
  | zero =>
    exact ⟨0, 0, m, rfl, ⟨by simp, fun _ _ _ _ _ => ⟨rfl, rfl⟩⟩, by simp, Or.inl ⟨rfl, rfl⟩⟩
  | succ n ih =>
    rcases hstart : nonCanonical start with _ | _
    · obtain ⟨err, m₁, hpage, hnonneg, hkeeps, hfirst⟩ := h.unmapPage_leaf hlabel hstart
      obtain ⟨k, c, m', hloop, hrest, hcanon, hend⟩ :=
        ih hkeeps.paging (start + BitVec.ofNat 64 pageSize)
      have hcanon' : ∀ i < k + 1, nonCanonical (pageAt start i) = false := by
        intro i hi
        cases i with
        | zero => rwa [pageAt_zero]
        | succ i =>
          rw [pageAt_succ]
          exact hcanon i (by omega)
      refine ⟨k + 1, c, m', ?_, hfirst.succ hroot hcanon' hrest, hcanon', ?_⟩
      · rw [unmapLoop, bind_of_ok hpage, if_neg (by omega), hloop]
      · rcases hend with ⟨rfl, rfl⟩ | ⟨hneg, hlt, hnon⟩
        · exact Or.inl ⟨rfl, rfl⟩
        · exact Or.inr ⟨hneg, by omega, by rwa [pageAt_succ]⟩
    · -- the call stops at the first page
      have hpage : unmapPage pt start true m = .ok (-1000, m) := by
        rw [unmapPage, hstart]
        rfl
      refine ⟨0, -1000, m, ?_, ⟨by simp, fun _ _ _ _ _ => ⟨rfl, rfl⟩⟩, by simp,
        Or.inr ⟨by omega, by omega, by rwa [pageAt_zero]⟩⟩
      rw [unmapLoop, bind_of_ok hpage, if_pos (by omega)]
      rfl

/-! ## `unmap` -/

/-- The addresses from `virt` on, `length` bytes. -/
def InRange (virt : BitVec 64) (length : ℕ) (w : BitVec 64) : Prop :=
  virt.toNat ≤ w.toNat ∧ w.toNat < virt.toNat + length

/-- The addresses of a range lie in its pages. -/
theorem InRange.exists_page {virt : BitVec 64} {length : ℕ} (halign : virt.toNat % pageSize = 0)
    (hlength : length % pageSize = 0) (h : InRange virt length w) :
    ∃ i < length / pageSize, pageBase w = pageAt virt i := by
  obtain ⟨hlo, hhi⟩ := h
  have hwlt := w.isLt
  simp only [pageSize] at *
  refine ⟨(w.toNat - virt.toNat) / 4096, by omega, BitVec.eq_of_toNat_eq ?_⟩
  rw [toNat_pageBase, pageAt, BitVec.toNat_add, BitVec.toNat_ofNat]
  simp only [pageSize]
  omega

/-- After all pages of a range were visited, none of its addresses is mapped. -/
theorem LeavesRemoved.range_none {virt : BitVec 64} {length : ℕ}
    (h : LeavesRemoved m m' roots root virt (length / pageSize)) (hroot : root ∈ roots)
    (hcanon : ∀ i < length / pageSize, nonCanonical (pageAt virt i) = false)
    (halign : virt.toNat % pageSize = 0) (hlength : length % pageSize = 0)
    (hw : InRange virt length w) : lookup m' root w = none := by
  obtain ⟨i, hi, hpage⟩ := hw.exists_page halign hlength
  have hcanon' := hcanon i hi
  rw [← lookup_pageBase, hpage]
  by_cases htogether :
      ∃ j < length / pageSize, MappedTogether m root (pageAt virt j) (pageAt virt i)
  · obtain ⟨j, hj, htogether⟩ := htogether
    exact h.removed j hj _ hcanon' htogether
  · rw [(h.kept root hroot _ hcanon' fun j hj hj' => htogether ⟨j, hj, hj'⟩).1]
    rcases hlookup : lookup m root (pageAt virt i) with _ | ⟨d, e⟩
    · rfl
    · exact absurd ⟨i, hi, .self hlookup⟩ htogether

/-- What `unmap` of a range does: it returns zero after it visited all pages, or it fails at the
first page that is not canonical. -/
theorem Paging.unmap_leaves (h : Paging held m roots label) (hroot : pt.pml4Phys ∈ roots)
    {virt : BitVec 64} {length : ℕ} (hvirt : virt ≠ 0) (halign : virt.toNat % pageSize = 0)
    (hpos : length ≠ 0) (hlength : length % pageSize = 0) :
    ∃ c m', PageTable.unmap pt virt length m = .ok (c, m') ∧
      ((c = 0 ∧ (∀ i < length / pageSize, nonCanonical (pageAt virt i) = false) ∧
          LeavesRemoved m m' roots pt.pml4Phys virt (length / pageSize) ∧
          ∀ w, InRange virt length w → lookup m' pt.pml4Phys w = none) ∨
        (c < 0 ∧ ∃ k < length / pageSize, nonCanonical (pageAt virt k) = true ∧
          (∀ i < k, nonCanonical (pageAt virt i) = false) ∧
          LeavesRemoved m m' roots pt.pml4Phys virt k)) := by
  obtain ⟨k, c, m', hloop, hremoved, hcanon, hend⟩ :=
    h.unmapLoop_leaves hroot virt (length / pageSize)
  refine ⟨c, m', ?_, ?_⟩
  · have hvalid : ¬(virt = 0 ∨ virt.toNat % pageSize ≠ 0 ∨ length = 0 ∨ length % pageSize ≠ 0) := by
      rw [not_or, not_or, not_or, not_not, not_not]
      exact ⟨hvirt, halign, hpos, hlength⟩
    rw [PageTable.unmap, if_neg hvalid]
    exact hloop
  · rcases hend with ⟨rfl, rfl⟩ | ⟨hneg, hlt, hnon⟩
    · exact Or.inl ⟨rfl, hcanon, hremoved,
        fun w hw => hremoved.range_none hroot hcanon halign hlength hw⟩
    · exact Or.inr ⟨hneg, k, hlt, hnon, hcanon, hremoved⟩

/-- In every state of every run `unmap` of a range returns. If it returns zero, all pages of the
range are canonical, no address of the range is mapped, and of the others those lost their mapping
that a page maps which also maps a visited page. If it fails, the same holds of the pages before
the first one that is not canonical. -/
theorem unmap_removes_leaves (hA : HandsOutFresh A held) {s : TablesState σ} {ops : List TablesOp}
    {virt : BitVec 64} {length : ℕ} (hrun : Run (TablesStep A) ⟨m, []⟩ ops s) (hpt : pt ∈ s.tables)
    (hvirt : virt ≠ 0) (halign : virt.toNat % pageSize = 0) (hpos : length ≠ 0)
    (hlength : length % pageSize = 0) :
    ∃ c m', PageTable.unmap pt virt length s.machine = .ok (c, m') ∧
      ((c = 0 ∧ (∀ i < length / pageSize, nonCanonical (pageAt virt i) = false) ∧
          LeavesRemoved s.machine m' s.roots pt.pml4Phys virt (length / pageSize) ∧
          ∀ w, InRange virt length w → lookup m' pt.pml4Phys w = none) ∨
        (c < 0 ∧ ∃ k < length / pageSize, nonCanonical (pageAt virt k) = true ∧
          (∀ i < k, nonCanonical (pageAt virt i) = false) ∧
          LeavesRemoved s.machine m' s.roots pt.pml4Phys virt k)) := by
  obtain ⟨label, hp⟩ := (TablesState.Inv.init m).run hA hrun
  exact hp.unmap_leaves (TablesState.mem_roots hpt) hvirt halign hpos hlength

/-- The small machine before its first page table is constructed. -/
def bootMachine : Machine (ReachedPool smallRanges) :=
  { smallMachine with isFirstPageTable := false }

/-- The constructor returns on the small machine. -/
theorem exists_new_boot :
    ∃ pt m₁, PageTable.new (poolAllocator smallRanges) none bootMachine = .ok (pt, m₁) := by
  obtain ⟨pt, m₁, hnew, -⟩ := exists_of_returns (p := fun _ => true)
    (show returns (PageTable.new (poolAllocator smallRanges) none) bootMachine (fun _ => true) =
      true by decide +kernel)
  exact ⟨pt, m₁, hnew⟩

/-- A page is mapped and then unmapped. -/
theorem unmap_removes_leaves_small : ∃ pt m₁ m₂ m₃,
    PageTable.new (poolAllocator smallRanges) none smallMachine = .ok (pt, m₁) ∧
      mapPage (poolAllocator smallRanges) pt 0x300000#64 0x400000#64 Mode.userRW m₁ = .ok (0, m₂) ∧
        PageTable.unmap pt 0x400000#64 0x1000 m₂ = .ok (0, m₃) ∧
          lookup m₃ pt.pml4Phys 0x400123#64 = none := by
  obtain ⟨pt, m₁, m₂, hnew, hmap⟩ :=
    exists_mapPage_small 0x300000#64 0x400000#64 Mode.userRW (by decide +kernel)
  have hrun : Run (TablesStep (poolAllocator smallRanges)) ⟨smallMachine, []⟩
      [.create none, .mapPage 0 0x300000#64 0x400000#64 Mode.userRW] ⟨m₂, [] ++ [pt]⟩ :=
    .cons (.create rfl hnew) (.cons (.mapPage rfl hmap) (.nil _))
  obtain ⟨c, m₃, hunmap, ⟨rfl, -, -, hnone⟩ | ⟨-, k, hk, hnon, -⟩⟩ :=
    unmap_removes_leaves smallRanges_handsOutFresh hrun (List.mem_singleton_self pt)
      (by decide : (0x400000#64 : BitVec 64) ≠ 0) (by decide) (by decide : 0x1000 ≠ 0) (by decide)
  · exact ⟨pt, m₁, m₂, m₃, hnew, hmap, hunmap, hnone _ ⟨by decide, by decide⟩⟩
  · obtain rfl : k = 0 := Nat.lt_one_iff.mp hk
    rw [pageAt_zero] at hnon
    exact absurd hnon (by decide)

/-- On the first page table of the small machine, unmapping one page of the aperture unmaps another
one, too. -/
theorem exists_unmap_aperture : ∃ pt m₁ m₂,
    PageTable.new (poolAllocator smallRanges) none bootMachine = .ok (pt, m₁) ∧
      PageTable.unmap pt physApertureStart 0x1000 m₁ = .ok (0, m₂) ∧
        lookup m₂ pt.pml4Phys (physApertureStart + 0x1000#64) = none ∧
          ∃ leaf, lookup m₁ pt.pml4Phys (physApertureStart + 0x1000#64) = some leaf := by
  obtain ⟨pt, m₁, hnew⟩ := exists_new_boot
  have hrun : RunWhere (TablesStep (poolAllocator smallRanges)) (fun _ op => op.adds = true)
      ⟨bootMachine, []⟩ [.create none] ⟨m₁, [] ++ [pt]⟩ :=
    .cons ⟨.create rfl hnew, rfl⟩ (.nil _)
  obtain ⟨hnil, -⟩ | ⟨first, rest, label, htables, hp, hparts⟩ :=
    TablesState.ApertureReady.run smallRanges_handsOutFresh rfl hrun
  · cases hnil
  obtain ⟨rfl, rfl⟩ : pt = first ∧ [] = rest := by simpa using htables
  have hroot : pt.pml4Phys ∈ TablesState.roots ⟨m₁, [] ++ [pt]⟩ :=
    TablesState.mem_roots (List.mem_singleton_self pt)
  -- both addresses are in the first page of 1 GB
  have hleaf : ∀ p : BitVec 64, p.toNat < 2 ^ 30 →
      ∃ e, lookup m₁ pt.pml4Phys (physApertureStart + p) = some (1, e) := by
    intro p hp'
    have hlt : p < physApertureLen := BitVec.lt_def.mpr (hp'.trans (by decide))
    have hpart := hparts (p.toNat / 2 ^ 39) (by simp only [numAperturePdpts]; omega)
    obtain ⟨-, base, -, -, hwalk, -⟩ := hpart.walk_eq hlt
    exact ⟨_, (hp.hardwareWalk_eq (hp.labelled.root _ hroot) _).1.trans hwalk⟩
  obtain ⟨e, hvisited⟩ := hleaf 0#64 (by decide)
  obtain ⟨e', hother⟩ := hleaf 0x1000#64 (by decide)
  obtain ⟨c, m₂, hunmap, ⟨rfl, -, hremoved, -⟩ | ⟨-, k, hk, hnon, -⟩⟩ :=
    hp.unmap_leaves hroot (by decide : physApertureStart ≠ 0) (by decide) (by decide : 0x1000 ≠ 0)
      (by decide)
  · have htogether : MappedTogether m₁ pt.pml4Phys (pageAt physApertureStart 0)
        (physApertureStart + 0x1000#64) := by
      rw [pageAt_zero, ← BitVec.add_zero physApertureStart]
      exact ⟨1, e, hvisited, by decide⟩
    exact ⟨pt, m₁, m₂, hnew, hunmap, hremoved.removed 0 (by decide) _ (by decide) htogether, _,
      hother⟩
  · obtain rfl : k = 0 := Nat.lt_one_iff.mp hk
    rw [pageAt_zero] at hnon
    exact absurd hnon (by decide)

/-- On the small machine, a range that starts with the last page before the addresses that are not
canonical: the call fails, and the page is unmapped. -/
theorem exists_unmap_hole : ∃ pt m₁ m₂ m₃ c,
    PageTable.new (poolAllocator smallRanges) none smallMachine = .ok (pt, m₁) ∧
      mapPage (poolAllocator smallRanges) pt 0x300000#64 0x7ffffffff000#64 Mode.kernelRW m₁ =
        .ok (0, m₂) ∧
      PageTable.unmap pt 0x7ffffffff000#64 0x2000 m₂ = .ok (c, m₃) ∧ c < 0 ∧
        lookup m₃ pt.pml4Phys 0x7ffffffff000#64 = none ∧
          ∃ leaf, lookup m₂ pt.pml4Phys 0x7ffffffff000#64 = some leaf := by
  obtain ⟨pt, m₁, m₂, hnew, hmap⟩ :=
    exists_mapPage_small 0x300000#64 0x7ffffffff000#64 Mode.kernelRW (by decide +kernel)
  have hrun : Run (TablesStep (poolAllocator smallRanges)) ⟨smallMachine, []⟩
      [.create none, .mapPage 0 0x300000#64 0x7ffffffff000#64 Mode.kernelRW] ⟨m₂, [] ++ [pt]⟩ :=
    .cons (.create rfl hnew) (.cons (.mapPage rfl hmap) (.nil _))
  obtain ⟨label, hp⟩ := (TablesState.Inv.init smallMachine).run smallRanges_handsOutFresh hrun
  have hroot : pt.pml4Phys ∈ TablesState.roots ⟨m₂, [] ++ [pt]⟩ :=
    TablesState.mem_roots (List.mem_singleton_self pt)
  -- the page is mapped
  have hrun₁ : Run (TablesStep (poolAllocator smallRanges)) ⟨smallMachine, []⟩ [.create none]
      ⟨m₁, [] ++ [pt]⟩ := .cons (.create rfl hnew) (.nil _)
  obtain ⟨label₁, hp₁⟩ := (TablesState.Inv.init smallMachine).run smallRanges_handsOutFresh hrun₁
  have hroot₁ : label₁ pt.pml4Phys = some [] := hp₁.labelled.root _ (List.mem_singleton_self _)
  obtain ⟨label', ⟨hneg, -⟩ | ⟨-, -, hmapped⟩⟩ :=
    hp₁.mapPage_ok smallRanges_handsOutFresh hroot₁ hmap
  · cases hneg
  have hleaf := hmapped.lookup_eq hroot₁ (present_pageEntry _ _)
  obtain ⟨c, m₃, hunmap, ⟨-, hcanon, -⟩ | ⟨hneg, k, hk, hnon, -, hremoved⟩⟩ :=
    hp.unmap_leaves hroot (by decide : (0x7ffffffff000#64 : BitVec 64) ≠ 0) (by decide)
      (by decide : 0x2000 ≠ 0) (by decide)
  · exact absurd (hcanon 1 (by decide)) (by decide)
  · have hpos : 0 < k := by
      rw [Nat.pos_iff_ne_zero]
      rintro rfl
      exact absurd hnon (by decide)
    refine ⟨pt, m₁, m₂, m₃, c, hnew, hmap, hunmap, hneg, ?_, _, hleaf⟩
    have htogether := MappedTogether.self hleaf
    exact hremoved.removed 0 hpos _ (by decide) (by rwa [pageAt_zero])

/-- Neither half of what one might expect holds: a call that returns zero may unmap an address
outside the range, and a call that fails may unmap an address. -/
theorem unmap_not_exact :
    (¬∀ (σ : Type) (A : PhysicalAllocator σ) (held : σ → Set (BitVec 64)) (m m' : Machine σ)
      (s : TablesState σ) (ops : List TablesOp) (pt : PageTable) (virt : BitVec 64) (length : ℕ),
      HandsOutFresh A held → Run (TablesStep A) ⟨m, []⟩ ops s → pt ∈ s.tables → virt ≠ 0 →
      virt.toNat % pageSize = 0 → length ≠ 0 → length % pageSize = 0 →
      PageTable.unmap pt virt length s.machine = .ok (0, m') →
      ∀ w, nonCanonical w = false → ¬ InRange virt length w →
        lookup m' pt.pml4Phys w = lookup s.machine pt.pml4Phys w) ∧
    (¬∀ (σ : Type) (A : PhysicalAllocator σ) (held : σ → Set (BitVec 64)) (m m' : Machine σ)
      (s : TablesState σ) (ops : List TablesOp) (pt : PageTable) (virt : BitVec 64) (length : ℕ)
      (c : ℤ),
      HandsOutFresh A held → Run (TablesStep A) ⟨m, []⟩ ops s → pt ∈ s.tables → virt ≠ 0 →
      virt.toNat % pageSize = 0 → length ≠ 0 → length % pageSize = 0 → c < 0 →
      PageTable.unmap pt virt length s.machine = .ok (c, m') →
      ∀ w, nonCanonical w = false → lookup m' pt.pml4Phys w = lookup s.machine pt.pml4Phys w) := by
  constructor
  · intro h
    obtain ⟨pt, m₁, m₂, hnew, hunmap, hnone, leaf, hmapped⟩ := exists_unmap_aperture
    have hrun : Run (TablesStep (poolAllocator smallRanges)) ⟨bootMachine, []⟩ [.create none]
        ⟨m₁, [] ++ [pt]⟩ := .cons (.create rfl hnew) (.nil _)
    have hsame := h _ _ _ _ m₂ _ _ pt physApertureStart 0x1000 smallRanges_handsOutFresh hrun
      (List.mem_singleton_self pt) (by decide) (by decide) (by decide) (by decide) hunmap
      (physApertureStart + 0x1000#64) (by decide) (fun hin => absurd hin.2 (by decide))
    rw [hnone] at hsame
    cases hsame.trans hmapped
  · intro h
    obtain ⟨pt, m₁, m₂, m₃, c, hnew, hmap, hunmap, hneg, hnone, leaf, hmapped⟩ := exists_unmap_hole
    have hrun : Run (TablesStep (poolAllocator smallRanges)) ⟨smallMachine, []⟩
        [.create none, .mapPage 0 0x300000#64 0x7ffffffff000#64 Mode.kernelRW] ⟨m₂, [] ++ [pt]⟩ :=
      .cons (.create rfl hnew) (.cons (.mapPage rfl hmap) (.nil _))
    have hsame := h _ _ _ _ m₃ _ _ pt 0x7ffffffff000#64 0x2000 c smallRanges_handsOutFresh hrun
      (List.mem_singleton_self pt) (by decide) (by decide) (by decide) (by decide) hneg hunmap
      0x7ffffffff000#64 (by decide)
    rw [hnone] at hsame
    cases hsame.trans hmapped

end KushOs.Vm
