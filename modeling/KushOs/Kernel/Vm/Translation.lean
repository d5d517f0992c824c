import KushOs.Foundation.RadixTable
import KushOs.Kernel.Vm.PageTable

/-!
# Paging structures as radix tables

A paging structure is identified by its physical address and has 512 entries, so the structures in
memory are the tables of a store (`entries`), the level of a structure decides what its entries
stand for (`slot`), and a virtual address is a path of four indices (`path`). The code of
`PageTable.cpp` is expressed in these terms here, once for each memory access and for the walk of
`getPhysAddr`.

## Main results

* `PageTable.readTable_eq`, `PageTable.writeTable_eq`, `PageTable.allocPage_ok`: the accesses to
  paging structures.
* `entries_write`: writing an entry changes that entry only.
* `path_ne`: canonical addresses in different pages have different paths.
-/

namespace KushOs

/-- Write entry `i` of the paging structure at `t`. -/
def Machine.write {σ : Type} (m : Machine σ) (t : BitVec 64) (i : BitVec 9) (e : BitVec 64) :
    Machine σ :=
  { m with mem := Function.update m.mem (t + i.setWidth 64 * 8#64) e }

/-- Zero the page frame at `t`. -/
def Machine.zero {σ : Type} (m : Machine σ) (t : BitVec 64) : Machine σ :=
  { m with mem := fun a => if a - t < BitVec.ofNat 64 pageSize then 0 else m.mem a }

end KushOs

namespace KushOs.Vm

open Memory RadixTable KernelM

variable {σ : Type}

/-- Index of an entry in a paging structure. -/
abbrev Index := BitVec 9

/-- The entries of the paging structures in memory. -/
def entries (m : Machine σ) : Store (BitVec 64) Index (BitVec 64) :=
  fun t i => m.mem (t + i.setWidth 64 * 8#64)

/-- What an entry stands for: the PML4 names PDPTs, a PDPT names page directories or maps 1 GB
pages, a page directory names page tables or maps 2 MB pages, a page table maps pages. -/
def slot : Format (BitVec 64) (BitVec 64)
  | 0, e => if present e then .next (tableAddr e) else .absent
  | 1, e | 2, e =>
      if present e then (if large e then .leaf else .next (tableAddr e)) else .absent
  | 3, e => if present e then .leaf else .absent
  | _, _ => .absent

/-- The indices that a virtual address selects, level by level. -/
def path (virt : BitVec 64) : List Index :=
  [virt.extractLsb' 39 9, virt.extractLsb' 30 9, virt.extractLsb' 21 9, virt.extractLsb' 12 9]

/-- The walk of a virtual address from the PML4 at `root`. -/
def lookup (m : Machine σ) (root virt : BitVec 64) : Option (ℕ × BitVec 64) :=
  walk slot (entries m) 0 root (path virt)

/-- What `getPhysAddr` makes of the entry at which the walk of `virt` ends. -/
def translation (virt : BitVec 64) : Option (ℕ × BitVec 64) → ℤ × Option (BitVec 64 × Mode)
  | none => (0, none)
  | some (1, e) =>
      (0, some (((decodePTE e).1 &&& ~~~0x3FFFFFFF#64) + (virt &&& 0x3FFFFFFF#64),
        (decodePTE e).2))
  | some (2, e) =>
      (0, some (((decodePTE e).1 &&& ~~~0x1FFFFF#64) + (virt &&& 0x1FFFFF#64), (decodePTE e).2))
  | some (_, e) => (1, some ((decodePTE e).1 + (virt &&& 0xFFF#64), (decodePTE e).2))

/-! ## Addresses of entries -/

theorem toNat_entryAddr {t : BitVec 64} (ht : IsFrame t) (i : Index) :
    (t + i.setWidth 64 * 8#64).toNat = t.toNat + 8 * i.toNat := by
  have hi := i.isLt
  obtain ⟨-, hlt⟩ := ht
  rw [BitVec.toNat_add, BitVec.toNat_mul, BitVec.toNat_setWidth, BitVec.toNat_ofNat]
  omega

/-- Entries of frames are at different addresses. -/
theorem entryAddr_inj {t u : BitVec 64} (ht : IsFrame t) (hu : IsFrame u) {i j : Index}
    (h : t + i.setWidth 64 * 8#64 = u + j.setWidth 64 * 8#64) : t = u ∧ i = j := by
  have heq := congrArg BitVec.toNat h
  rw [toNat_entryAddr ht, toNat_entryAddr hu] at heq
  have hi := i.isLt
  have hj := j.isLt
  obtain ⟨ht, -⟩ := ht
  obtain ⟨hu, -⟩ := hu
  simp only [pageSize] at ht hu
  exact ⟨BitVec.eq_of_toNat_eq (by omega), BitVec.eq_of_toNat_eq (by omega)⟩

/-- Writing an entry changes that entry only. -/
theorem entries_write {m : Machine σ} {t u : BitVec 64} (ht : IsFrame t) (hu : IsFrame u)
    (i j : Index) (e : BitVec 64) :
    entries (m.write t i e) u j = if (u, j) = (t, i) then e else entries m u j := by
  unfold entries Machine.write
  split
  next heq =>
    obtain ⟨rfl, rfl⟩ := Prod.mk.inj heq
    exact Function.update_self _ _ _
  next hne =>
    refine Function.update_of_ne (fun h => hne ?_) _ _
    obtain ⟨rfl, rfl⟩ := entryAddr_inj hu ht h
    rfl

@[simp]
theorem allocator_write (m : Machine σ) (t : BitVec 64) (i : Index) (e : BitVec 64) :
    (m.write t i e).allocator = m.allocator := rfl

@[simp]
theorem isFirstPageTable_write (m : Machine σ) (t : BitVec 64) (i : Index) (e : BitVec 64) :
    (m.write t i e).isFirstPageTable = m.isFirstPageTable := rfl

@[simp]
theorem accessible_write (m : Machine σ) (t : BitVec 64) (i : Index) (e : BitVec 64) :
    (m.write t i e).Accessible = m.Accessible := rfl

/-! ## Bits of entries -/

theorem getLsbD_tableAddr (e : BitVec 64) (i : ℕ) :
    (tableAddr e).getLsbD i = (decide (12 ≤ i ∧ i < 63) && e.getLsbD i) := by
  by_cases hi : i < 64
  · have hlow : ∀ j < 64, (0xFFF#64).getLsbD j = decide (j < 12) := by decide
    have hflags : ∀ j < 64, flagsMask.getLsbD j = decide (j < 9 ∨ j = 63) := by decide
    simp only [tableAddr, BitVec.getLsbD_and, BitVec.getLsbD_not, hlow i hi, hflags i hi, hi]
    rcases Nat.lt_or_ge i 12 with h12 | h12
    · simp [h12, Nat.not_le.mpr h12]
    · have h9 : ¬ i < 9 := by omega
      have h63 : (i < 63) = ¬ (i = 63) := by
        rw [eq_iff_iff]
        omega
      simp [h12, Nat.not_lt.mpr h12, h9, h63, Bool.and_comm]
  · rw [BitVec.getLsbD_of_ge _ _ (by omega), BitVec.getLsbD_of_ge e _ (by omega), Bool.and_false]

/-- The entry of a linked structure names the structure. -/
theorem tableAddr_tableEntry {page virt : BitVec 64} (h : IsFrame page) :
    tableAddr (tableEntry page virt) = page := by
  have hthree : ∀ j < 64, 12 ≤ j → (0b11#64).getLsbD j = false := by decide
  have huser : ∀ j < 64, 12 ≤ j → (4#64).getLsbD j = false := by decide
  apply BitVec.eq_of_getLsbD_eq
  intro i hi
  rw [getLsbD_tableAddr]
  by_cases hmid : 12 ≤ i ∧ i < 63
  · unfold tableEntry
    split <;> simp [hmid, hthree i hi hmid.1, huser i hi hmid.1]
  · rw [h.getLsbD (by omega)]
    simp [hmid]

theorem present_tableEntry (page virt : BitVec 64) : present (tableEntry page virt) = true := by
  unfold present tableEntry
  split <;> simp

theorem large_tableEntry {page virt : BitVec 64} (h : IsFrame page) :
    large (tableEntry page virt) = false := by
  have hpage : page[7] = false := h.getLsbD (i := 7) (Or.inl (by omega))
  unfold large tableEntry
  split <;> simp [hpage]

/-- Only structures below the kernel's half are linked with the user bit. -/
theorem user_tableEntry {page virt : BitVec 64} (h : IsFrame page) :
    (tableEntry page virt).getLsbD 2 = decide (virt < kernelBoundary) := by
  have hpage : page[2] = false := h.getLsbD (i := 2) (Or.inl (by omega))
  unfold tableEntry
  split
  next hlt => simp [hlt]
  next hge => simp [hpage, hge]

theorem present_pageEntry (phys : BitVec 64) (mode : Mode) :
    present (pageEntry phys mode) = true := by
  unfold present pageEntry
  split <;> split <;> simp

/-- The entry of a page has the write bit if the mode has one of its own. -/
theorem write_pageEntry (phys : BitVec 64) (mode : Mode) :
    (pageEntry phys mode).getLsbD 1 = mode.test Mode.write := by
  have haddr : (tableAddr phys).getLsbD 1 = false := by
    rw [getLsbD_tableAddr]
    rfl
  have hone : (1#64).getLsbD 1 = false := by decide
  have htwo : (1#64 <<< 1).getLsbD 1 = true := by decide
  have hfour : (1#64 <<< 2).getLsbD 1 = false := by decide
  unfold pageEntry
  rcases mode.test Mode.write with _ | _ <;> rcases mode.test Mode.userMask with _ | _ <;>
    simp only [if_true, if_false, Bool.false_eq_true, BitVec.getLsbD_or, haddr, hone, htwo, hfour,
      Bool.or_false, Bool.or_true]

/-- The mode that an entry decodes to allows writes if the entry does. -/
theorem decodePTE_write (pte : BitVec 64) : (decodePTE pte).2.test Mode.write = pte.getLsbD 1 := by
  unfold decodePTE
  rcases pte.getLsbD 2 with _ | _ <;> rcases pte.getLsbD 1 with _ | _ <;>
    rcases pte.getLsbD 63 with _ | _ <;>
    simp only [Bool.false_eq_true, if_true, if_false] <;> decide

/-- The entry of a mapped page decodes to the page's address. -/
theorem decodePTE_pageEntry {phys : BitVec 64} (h : IsFrame phys) (mode : Mode) :
    (decodePTE (pageEntry phys mode)).1 = phys := by
  have hmask : ∀ j < 64, (0xFFFFFFFFFF000#64).getLsbD j = decide (12 ≤ j ∧ j < 52) := by decide
  have hone : ∀ j < 64, 12 ≤ j → (1#64).getLsbD j = false := by decide
  have hwrite : ∀ j < 64, 12 ≤ j → (2#64).getLsbD j = false := by decide
  have huser : ∀ j < 64, 12 ≤ j → (4#64).getLsbD j = false := by decide
  apply BitVec.eq_of_getLsbD_eq
  intro i hi
  rw [decodePTE, BitVec.getLsbD_and, hmask i hi]
  by_cases hmid : 12 ≤ i ∧ i < 52
  · have haddr : (tableAddr phys).getLsbD i = phys.getLsbD i := by
      have hlt : i < 63 := by omega
      simp [getLsbD_tableAddr, hmid, hlt]
    unfold pageEntry
    split <;> split <;>
      simp [hmid, haddr, hone i hi hmid.1, hwrite i hi hmid.1, huser i hi hmid.1]
  · rw [h.getLsbD (by omega)]
    simp [hmid]

/-! ## Indices and pages -/

/-- First address of the page that contains `virt`. -/
def pageBase (virt : BitVec 64) : BitVec 64 := virt >>> 12 <<< 12

theorem toNat_pageBase (virt : BitVec 64) :
    (pageBase virt).toNat = virt.toNat - virt.toNat % 4096 := by
  have hlt := virt.isLt
  rw [pageBase, BitVec.toNat_shiftLeft, BitVec.toNat_ushiftRight, Nat.shiftRight_eq_div_pow,
    Nat.shiftLeft_eq]
  omega

/-- The index that the code computes for a level is the level's nine bits of the address. -/
theorem tableIndex_eq (virt : BitVec 64) {shift : ℕ} (h : shift + 9 ≤ 48) :
    tableIndex virt shift = (virt.extractLsb' shift 9).setWidth 64 := by
  have h48 : ∀ j < 64, (0xFFFFFFFFFFFF#64).getLsbD j = decide (j < 48) := by decide
  have h9 : ∀ j < 64, (0x1FF#64).getLsbD j = decide (j < 9) := by decide
  apply BitVec.eq_of_getLsbD_eq
  intro i hi
  simp only [tableIndex, BitVec.getLsbD_and, BitVec.getLsbD_ushiftRight, BitVec.getLsbD_setWidth,
    BitVec.getLsbD_extractLsb', h9 i hi, hi, decide_true, Bool.true_and]
  by_cases hlow : i < 9
  · rw [h48 _ (by omega)]
    have : shift + i < 48 := by omega
    simp [hlow, this]
  · simp [hlow]

theorem toNat_extract (virt : BitVec 64) (shift : ℕ) :
    (virt.extractLsb' shift 9).toNat = virt.toNat / 2 ^ shift % 512 := by
  rw [BitVec.extractLsb'_toNat, Nat.shiftRight_eq_div_pow]

theorem nonCanonical_eq_false {virt : BitVec 64} (h : nonCanonical virt = false) :
    virt.toNat < 2 ^ 47 ∨ 2 ^ 64 - 2 ^ 47 ≤ virt.toNat := by
  simp only [nonCanonical, Bool.and_eq_false_iff, decide_eq_false_iff_not, BitVec.lt_def,
    BitVec.toNat_ofNat] at h
  omega

/-- The upper half of a PML4 stands for the kernel's half of the address space. -/
theorem upper_iff {virt : BitVec 64} (h : nonCanonical virt = false) :
    256 ≤ (virt.extractLsb' 39 9).toNat ↔ kernelBoundary ≤ virt := by
  have hlt := virt.isLt
  have hboundary : kernelBoundary.toNat = 2 ^ 63 := rfl
  rw [toNat_extract, BitVec.le_def, hboundary]
  rcases nonCanonical_eq_false h with hlow | hhigh <;> omega

/-- Canonical addresses in different pages have different paths. -/
theorem path_ne {v w : BitVec 64} (hv : nonCanonical v = false) (hw : nonCanonical w = false)
    (hne : pageBase w ≠ pageBase v) : path w ≠ path v := by
  intro heq
  simp only [path, List.cons.injEq, and_true] at heq
  obtain ⟨h39, h30, h21, h12⟩ := heq
  have hidx : ∀ s, w.extractLsb' s 9 = v.extractLsb' s 9 →
      w.toNat / 2 ^ s % 512 = v.toNat / 2 ^ s % 512 := by
    intro s h
    rw [← toNat_extract, ← toNat_extract, h]
  have h39 := hidx _ h39
  have h30 := hidx _ h30
  have h21 := hidx _ h21
  have h12 := hidx _ h12
  have hv := nonCanonical_eq_false hv
  have hw := nonCanonical_eq_false hw
  have hvlt := v.isLt
  have hwlt := w.isLt
  refine hne (BitVec.eq_of_toNat_eq ?_)
  rw [toNat_pageBase, toNat_pageBase]
  omega

/-- A path is no prefix of the path of an address in another page. -/
theorem not_prefix_path {v w : BitVec 64} (hv : nonCanonical v = false)
    (hw : nonCanonical w = false) (hne : pageBase w ≠ pageBase v) :
    ¬ path v <+: [] ++ path w := by
  intro hpath
  exact path_ne hv hw hne (hpath.eq_of_length rfl).symm

/-- The addresses of a page share its path. -/
theorem path_page (virt : BitVec 64) {o : ℕ} (ho : o < 4096) :
    path (pageBase virt + BitVec.ofNat 64 o) = path virt := by
  have haddr : (pageBase virt + BitVec.ofNat 64 o).toNat =
      virt.toNat - virt.toNat % 4096 + o := by
    have hlt := virt.isLt
    rw [BitVec.toNat_add, toNat_pageBase, BitVec.toNat_ofNat]
    omega
  simp only [path, List.cons.injEq, and_true]
  refine ⟨?_, ?_, ?_, ?_⟩ <;>
  · apply BitVec.eq_of_toNat_eq
    rw [toNat_extract, toNat_extract, haddr]
    omega

theorem lookup_page (m : Machine σ) (root virt : BitVec 64) {o : ℕ} (ho : o < 4096) :
    lookup m root (pageBase virt + BitVec.ofNat 64 o) = lookup m root virt := by
  rw [lookup, lookup, path_page virt ho]

theorem lookup_pageBase (m : Machine σ) (root virt : BitVec 64) :
    lookup m root (pageBase virt) = lookup m root virt := by
  simpa using lookup_page m root virt (o := 0) (by omega)

/-- The offset of an address in its page. -/
theorem page_offset (virt : BitVec 64) {o : ℕ} (ho : o < 4096) :
    (pageBase virt + BitVec.ofNat 64 o) &&& 0xFFF#64 = BitVec.ofNat 64 o := by
  apply BitVec.eq_of_toNat_eq
  have hlt := virt.isLt
  have hmask : (0xFFF#64).toNat = 2 ^ 12 - 1 := rfl
  rw [BitVec.toNat_and, hmask, Nat.and_two_pow_sub_one_eq_mod, BitVec.toNat_add, toNat_pageBase,
    BitVec.toNat_ofNat]
  omega

/-- The addresses of a canonical page are canonical. -/
theorem nonCanonical_page (virt : BitVec 64) {o : ℕ} (ho : o < 4096) :
    nonCanonical (pageBase virt + BitVec.ofNat 64 o) = nonCanonical virt := by
  have hlt := virt.isLt
  rw [Bool.eq_iff_iff]
  simp only [nonCanonical, Bool.and_eq_true, decide_eq_true_eq, BitVec.lt_def, BitVec.toNat_add,
    toNat_pageBase, BitVec.toNat_ofNat]
  omega

/-- The translation of an address in a page that was mapped. -/
theorem translation_pageEntry {phys : BitVec 64} (hphys : IsFrame phys) (virt : BitVec 64)
    (mode : Mode) {o : ℕ} (ho : o < 4096) :
    translation (pageBase virt + BitVec.ofNat 64 o) (some (3, pageEntry phys mode)) =
      (1, some (phys + BitVec.ofNat 64 o, (decodePTE (pageEntry phys mode)).2)) := by
  rw [← page_offset virt ho]
  simp only [translation, decodePTE_pageEntry hphys, page_offset virt ho]

/-! ## Accesses to paging structures -/

namespace PageTable

/-- Physical address behind the pointer to a frame. -/
theorem behind_add (m : Machine σ) (t off : BitVec 64) :
    behind m ((if m.earlyBoot then t else physApertureStart + t) + off) = t + off := by
  unfold behind
  split
  · rfl
  · rw [BitVec.add_assoc, BitVec.add_comm physApertureStart, BitVec.add_sub_cancel]

theorem zeroPage_eq (m : Machine σ) (t : BitVec 64) :
    zeroPage (if m.earlyBoot then t else physApertureStart + t) m = .ok ((), m.zero t) := by
  have hbehind := behind_add m t 0#64
  rw [BitVec.add_zero, BitVec.add_zero] at hbehind
  rw [zeroPage, modify_eq, Machine.zero, hbehind]

theorem getTableVmAddr_eq_ok {m m' : Machine σ} {t ptr : BitVec 64} :
    getTableVmAddr t m = .ok (ptr, m') ↔
      m.Accessible t ∧ m = m' ∧ (if m.earlyBoot then t else physApertureStart + t) = ptr := by
  unfold getTableVmAddr Machine.Accessible
  rw [get_bind]
  split
  · simp only [bind_eq_ok, requireM_eq_ok, pure_eq_ok, decide_eq_true_eq]
    constructor
    · rintro ⟨_, _, ⟨hlt, rfl⟩, rfl, rfl⟩
      exact ⟨hlt, rfl, rfl⟩
    · rintro ⟨hlt, rfl, rfl⟩
      exact ⟨(), m, ⟨hlt, rfl⟩, rfl, rfl⟩
  · simp only [bind_eq_ok, requireM_eq_ok, pure_eq_ok, decide_eq_true_eq]
    constructor
    · rintro ⟨_, _, ⟨hlt, rfl⟩, rfl, rfl⟩
      exact ⟨hlt, rfl, rfl⟩
    · rintro ⟨hlt, rfl, rfl⟩
      exact ⟨(), m, ⟨hlt, rfl⟩, rfl, rfl⟩

theorem setWidth_le_511 (i : Index) : decide (i.setWidth 64 ≤ 511#64) = true := by
  have hi := i.isLt
  rw [decide_eq_true_eq, BitVec.le_def, BitVec.toNat_setWidth, BitVec.toNat_ofNat]
  omega

/-- Reading an entry of a paging structure. -/
theorem readTable_eq {m : Machine σ} {t : BitVec 64} (ht : m.Accessible t) (i : Index) :
    readTable t (i.setWidth 64) m = .ok (entries m t i, m) := by
  unfold readTable
  rw [bind_of_ok (requireM_of_true (setWidth_le_511 i)),
    bind_of_ok (getTableVmAddr_eq_ok.mpr ⟨ht, rfl, rfl⟩), load, get_bind, behind_add]
  rfl

/-- What follows the reading of an entry returns only if the structure can be reached. -/
theorem readTable_bind_eq_ok {α : Type} {f : BitVec 64 → KernelM σ α} {m m' : Machine σ}
    {t : BitVec 64} {i : Index} {a : α} :
    (readTable t (i.setWidth 64) >>= f) m = .ok (a, m') ↔
      m.Accessible t ∧ f (entries m t i) m = .ok (a, m') := by
  constructor
  · intro h
    obtain ⟨e, m₁, hread, hrest⟩ := bind_eq_ok.mp h
    have hacc : m.Accessible t := by
      unfold readTable at hread
      rw [bind_of_ok (requireM_of_true (setWidth_le_511 i))] at hread
      obtain ⟨ptr, m₂, hptr, -⟩ := bind_eq_ok.mp hread
      exact (getTableVmAddr_eq_ok.mp hptr).1
    rw [bind_of_ok (readTable_eq hacc i)] at h
    exact ⟨hacc, h⟩
  · rintro ⟨hacc, h⟩
    rw [bind_of_ok (readTable_eq hacc i)]
    exact h

/-- Writing an entry of a paging structure. -/
theorem writeTable_eq {m : Machine σ} {t : BitVec 64} (ht : m.Accessible t) (i : Index)
    (e : BitVec 64) : writeTable t (i.setWidth 64) e m = .ok ((), m.write t i e) := by
  unfold writeTable
  rw [bind_of_ok (requireM_of_true (setWidth_le_511 i)),
    bind_of_ok (getTableVmAddr_eq_ok.mpr ⟨ht, rfl, rfl⟩), store, modify_eq, behind_add]
  rfl

theorem entries_zero_self (m : Machine σ) (t : BitVec 64) (i : Index) :
    entries (m.zero t) t i = 0 := by
  unfold entries Machine.zero
  have hi := i.isLt
  refine if_pos ?_
  rw [BitVec.add_comm, BitVec.add_sub_cancel, BitVec.lt_def, BitVec.toNat_mul,
    BitVec.toNat_setWidth, BitVec.toNat_ofNat, BitVec.toNat_ofNat]
  simp only [pageSize]
  omega

/-- Zeroing a frame leaves the other frames alone. -/
theorem entries_zero_of_ne (m : Machine σ) {t u : BitVec 64} (ht : IsFrame t) (hu : IsFrame u)
    (hne : u ≠ t) (i : Index) : entries (m.zero t) u i = entries m u i := by
  unfold entries Machine.zero
  refine if_neg ?_
  have hi := i.isLt
  have hne' : u.toNat ≠ t.toNat := fun h => hne (BitVec.eq_of_toNat_eq h)
  obtain ⟨ht, htlt⟩ := ht
  obtain ⟨hu', hult⟩ := hu
  rw [BitVec.lt_def, BitVec.toNat_sub, toNat_entryAddr ⟨hu', hult⟩, BitVec.toNat_ofNat]
  simp only [pageSize] at *
  omega

variable {A : PhysicalAllocator σ} {held : σ → Set (BitVec 64)}

/-- `AllocPage` returns a zeroed frame that the kernel can reach and that was not held; it becomes
held. -/
theorem allocPage_ok (hA : HandsOutFresh A held) {m m' : Machine σ} {page : BitVec 64}
    (h : allocPage A m = .ok (page, m')) :
    IsFrame page ∧ m.Accessible page ∧ page ∉ held m.allocator ∧
      ∃ s, held s = held m.allocator ∪ {page} ∧
        m' = Machine.zero { m with allocator := s } page := by
  unfold allocPage at h
  simp only [bind_eq_ok, allocatePages_eq_ok, requireM_eq_ok, getTableVmAddr_eq_ok, pure_eq_ok]
    at h
  obtain ⟨⟨err, out⟩, _, ⟨s, halloc, rfl⟩, _, _, ⟨hone, rfl⟩, _, _, ⟨hacc, rfl, rfl⟩, _, _, hzero,
    rfl, rfl⟩ := h
  obtain rfl : err = 1 := by simpa using hone
  have hpage : handedOut 1 out = [out 0] := rfl
  obtain ⟨-, hfresh, hheld⟩ := hA.allocate halloc
  dsimp only at hfresh hheld
  rw [hpage] at hfresh hheld
  obtain ⟨hframe, hnew⟩ := hfresh _ (List.mem_singleton_self _)
  refine ⟨hframe, hacc, hnew, s, ?_, ?_⟩
  · rw [hheld]
    congr 1
    ext a
    simp
  · rw [zeroPage_eq, Except.ok.injEq, Prod.mk.injEq] at hzero
    exact hzero.2.symm

end PageTable

end KushOs.Vm
