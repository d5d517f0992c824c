import KushOs.Kernel.Vm.Paging

/-!
# The walk of the processor

The processor reads bits 12 to 51 of an entry as a physical address, and takes the rights of an
access from all entries that it meets. The kernel takes bits 12 to 62 of an entry that names a
paging structure, and bits 12 to 51 of one that maps a page.

## Main definitions

* `hardwareWalk`, `hardwareAccess`: what the processor makes of a virtual address.
* `MatchesHardware`: `getPhysAddr` reports that.

## Main results

* `software_walk_matches`: for which contents of the paging structures it does.
* `Paging.hardwareWalk_eq`: in structures that the kernel built both walks are the same.
-/

namespace KushOs.Vm

open Memory RadixTable KernelM PageTable Paging

variable {σ : Type}

/-! ## The processor -/

/-- The physical address in an entry, as the processor reads it: bits 12 to 51. -/
def hardwareAddr (entry : BitVec 64) : BitVec 64 := entry &&& 0xFFFFFFFFFF000#64

/-- What an entry stands for to the processor, by the depth of its structure. -/
def hardwareSlot : Format (BitVec 64) (BitVec 64)
  | 0, e => if present e then .next (hardwareAddr e) else .absent
  | 1, e | 2, e =>
      if present e then (if large e then .leaf else .next (hardwareAddr e)) else .absent
  | 3, e => if present e then .leaf else .absent
  | _, _ => .absent

/-- The leaf at which the walk of the processor ends, with its depth. -/
def hardwareWalk (m : Machine σ) (root virt : BitVec 64) : Option (ℕ × BitVec 64) :=
  walk hardwareSlot (entries m) 0 root (path virt)

/-- The bits of an address that select a byte of the page that a leaf maps: pages have 1 GB, 2 MB
or 4 KB. -/
def offsetMask : ℕ → BitVec 64
  | 1 => 0x3FFFFFFF#64
  | 2 => 0x1FFFFF#64
  | _ => 0xFFF#64

/-- The physical address of `virt` in the page that a leaf maps. -/
def leafPhys (virt : BitVec 64) (depth : ℕ) (e : BitVec 64) : BitVec 64 :=
  (hardwareAddr e &&& ~~~offsetMask depth) + (virt &&& offsetMask depth)

/-- Every entry that the walk of the processor meets has the bit. -/
def rightBit (m : Machine σ) (root virt : BitVec 64) (bit : ℕ) : Bool :=
  (trail hardwareSlot (entries m) 0 root (path virt)).all
    fun x => (entries m x.2.1 x.2.2).getLsbD bit

/-- What the processor finds for a virtual address. -/
structure Access where
  /-- The physical address. -/
  phys : BitVec 64
  /-- Writes are allowed. -/
  write : Bool
  /-- User mode is allowed. -/
  user : Bool
  deriving DecidableEq, Repr

/-- The translation and the rights of a virtual address, if it is canonical and mapped. -/
def hardwareAccess (m : Machine σ) (root virt : BitVec 64) : Option Access :=
  if nonCanonical virt then none
  else (hardwareWalk m root virt).map fun leaf =>
    ⟨leafPhys virt leaf.1 leaf.2, rightBit m root virt 1, rightBit m root virt 2⟩

/-! ## Entries as the kernel and the processor read them -/

/-- The bits of an entry that the kernel takes for a part of the address and the processor does
not. -/
def strayBits : BitVec 64 := 0x7FF0000000000000#64

theorem getLsbD_hardwareAddr (e : BitVec 64) (i : ℕ) :
    (hardwareAddr e).getLsbD i = (decide (12 ≤ i ∧ i < 52) && e.getLsbD i) := by
  by_cases hi : i < 64
  · have hmask : ∀ j < 64, (0xFFFFFFFFFF000#64).getLsbD j = decide (12 ≤ j ∧ j < 52) := by decide
    rw [hardwareAddr, BitVec.getLsbD_and, hmask i hi, Bool.and_comm]
  · rw [BitVec.getLsbD_of_ge _ _ (by omega), BitVec.getLsbD_of_ge e _ (by omega), Bool.and_false]

/-- Both read the same address if the stray bits are clear. -/
theorem tableAddr_eq_hardwareAddr {e : BitVec 64} (h : e &&& strayBits = 0#64) :
    tableAddr e = hardwareAddr e := by
  have hmask : ∀ j < 64, strayBits.getLsbD j = decide (52 ≤ j ∧ j < 63) := by decide
  apply BitVec.eq_of_getLsbD_eq
  intro i hi
  have hbit : (e &&& strayBits).getLsbD i = false := by
    rw [h]
    exact BitVec.getLsbD_zero
  rw [BitVec.getLsbD_and, hmask i hi] at hbit
  rw [getLsbD_tableAddr, getLsbD_hardwareAddr]
  by_cases hstray : 52 ≤ i ∧ i < 63
  · simp only [hstray, and_self, decide_true, Bool.and_true] at hbit
    simp [hbit]
  · have hiff : (12 ≤ i ∧ i < 63) ↔ (12 ≤ i ∧ i < 52) := by omega
    rw [decide_eq_decide.mpr hiff]

/-- The stray bits of an entry are clear if the kernel reads a small address in it. -/
theorem stray_eq_zero {e : BitVec 64} (h : (tableAddr e).toNat < 2 ^ 52) :
    e &&& strayBits = 0#64 := by
  have hmask : ∀ j < 64, strayBits.getLsbD j = decide (52 ≤ j ∧ j < 63) := by decide
  apply BitVec.eq_of_getLsbD_eq
  intro i hi
  rw [BitVec.getLsbD_and, hmask i hi, BitVec.getLsbD_zero]
  by_cases hstray : 52 ≤ i ∧ i < 63
  · have hbit : (tableAddr e).getLsbD i = false := by
      rw [← BitVec.testBit_toNat]
      exact Nat.testBit_lt_two_pow (h.trans_le (Nat.pow_le_pow_right (by omega) hstray.1))
    rw [getLsbD_tableAddr] at hbit
    have hmid : 12 ≤ i ∧ i < 63 := by omega
    simp only [hmid, and_self, decide_true, Bool.true_and] at hbit
    simp [hbit]
  · simp [hstray]

/-- The kernel reaches frames of 41 bits at most. -/
theorem toNat_lt_of_accessible {m : Machine σ} {t : BitVec 64} (h : m.Accessible t) :
    t.toNat < 2 ^ 52 := by
  have hbound : (physApertureLen - BitVec.ofNat 64 pageSize).toNat < 2 ^ 52 := by decide
  unfold Machine.Accessible at h
  split at h
  · have hlt := BitVec.lt_def.mp h
    rw [BitVec.toNat_ofNat] at hlt
    omega
  · exact (BitVec.lt_def.mp h).trans hbound

/-- Without stray bits an entry stands for the same to both. -/
theorem slot_eq_hardwareSlot {e : BitVec 64} (h : e &&& strayBits = 0#64) (d : ℕ) :
    slot d e = hardwareSlot d e := by
  have haddr := tableAddr_eq_hardwareAddr h
  match d with
  | 0 | 1 | 2 => simp only [slot, hardwareSlot, haddr]
  | 3 | _ + 4 => rfl

/-- An entry that links nothing stands for the same to both. -/
theorem hardwareSlot_eq_slot_of_not_next {d : ℕ} {e : BitVec 64} (h : ∀ t, slot d e ≠ .next t) :
    hardwareSlot d e = slot d e := by
  match d with
  | 0 =>
    simp only [slot, hardwareSlot] at h ⊢
    cases hp : present e <;> simp_all
  | 1 | 2 =>
    simp only [slot, hardwareSlot] at h ⊢
    cases hp : present e <;> cases hl : large e <;> simp_all
  | 3 | _ + 4 => rfl

/-- The same entries link structures. -/
theorem slot_links_iff {d : ℕ} {e : BitVec 64} :
    (∃ t, slot d e = .next t) ↔ ∃ t, hardwareSlot d e = .next t := by
  match d with
  | 0 =>
    simp only [slot, hardwareSlot]
    cases present e <;> simp
  | 1 | 2 =>
    simp only [slot, hardwareSlot]
    cases present e <;> cases large e <;> simp
  | 3 | _ + 4 => rfl

/-- Only entries of the three upper levels link structures. -/
theorem slot_eq_next {d : ℕ} {e t : BitVec 64} (h : slot d e = .next t) :
    d ≤ 2 ∧ tableAddr e = t := by
  match d with
  | 0 =>
    simp only [slot] at h
    split at h
    · exact ⟨by omega, Slot.next.inj h⟩
    · cases h
  | 1 | 2 =>
    simp only [slot] at h
    split at h
    · split at h
      · cases h
      · exact ⟨by omega, Slot.next.inj h⟩
    · cases h
  | 3 =>
    simp only [slot] at h
    split at h <;> cases h
  | _ + 4 => cases h

/-! ## The walks of both -/

/-- If the kernel can reach the structures that its walk meets, the entries that link them have no
stray bits. -/
theorem stray_of_accessible {m : Machine σ} {d : ℕ} {t : BitVec 64} {q : List Index}
    (hlen : 4 ≤ d + q.length)
    (hacc : ∀ x ∈ trail slot (entries m) d t q, m.Accessible x.2.1) :
    ∀ x ∈ trail hardwareSlot (entries m) d t q, ∀ t',
      hardwareSlot x.1 (entries m x.2.1 x.2.2) = .next t' →
        entries m x.2.1 x.2.2 &&& strayBits = 0#64 := by
  induction q generalizing d t with
  | nil => simp [trail]
  | cons i rest ih =>
    intro x hx t' hnext
    by_cases hlinks : ∃ u, slot d (entries m t i) = .next u
    · obtain ⟨u, hslot⟩ := hlinks
      obtain ⟨hdepth, rfl⟩ := slot_eq_next hslot
      obtain ⟨j, rest, rfl⟩ : ∃ j l, rest = j :: l := by
        refine List.exists_cons_of_length_pos ?_
        rw [List.length_cons] at hlen
        omega
      -- the kernel reads an entry of the structure, so its address is small
      rw [trail_of_next hslot, List.forall_mem_cons] at hacc
      have hreach := hacc.2 _ (head_mem_trail slot (entries m) (d + 1) _ j rest)
      have hstray := stray_eq_zero (toNat_lt_of_accessible hreach)
      rw [trail_of_next ((slot_eq_hardwareSlot hstray d).symm.trans hslot), List.mem_cons] at hx
      rcases hx with rfl | hx
      · exact hstray
      · exact ih (by simp only [List.length_cons] at hlen ⊢; omega) hacc.2 x hx t' hnext
    · -- what links nothing to the kernel links nothing to the processor either
      rw [not_exists] at hlinks
      rw [← hardwareSlot_eq_slot_of_not_next hlinks] at hlinks
      rw [trail_of_not_next hlinks, List.mem_singleton] at hx
      rw [hx] at hnext
      exact absurd hnext (hlinks t')

/-! ## `getPhysAddr` -/

/-- `getPhysAddr` reports what the walk of the processor finds: it returns 1 exactly if there is a
leaf, with the physical address, and 0 without writing an output exactly if there is none. -/
def MatchesHardware (m : Machine σ) (pt : PageTable) (virt : BitVec 64) : Prop :=
  ∃ c out m', getPhysAddr pt virt m = .ok ((c, out), m') ∧
    (c = 1 ↔ ∃ leaf, hardwareWalk m pt.pml4Phys virt = some leaf) ∧
    (∀ d e, hardwareWalk m pt.pml4Phys virt = some (d, e) →
      ∃ mode, out = some (leafPhys virt d e, mode)) ∧
    (c = 0 ∧ out = none ↔ hardwareWalk m pt.pml4Phys virt = none)

/-- The walk of the processor ends at a page of 4 KB or at an absent entry, and the entries on it
that link structures have no stray bits. -/
structure PlainWalk (m : Machine σ) (root virt : BitVec 64) : Prop where
  small : ∀ d e, hardwareWalk m root virt = some (d, e) → d = 3
  links : ∀ x ∈ trail hardwareSlot (entries m) 0 root (path virt), ∀ t,
    hardwareSlot x.1 (entries m x.2.1 x.2.2) = .next t → entries m x.2.1 x.2.2 &&& strayBits = 0#64

/-- Both walks meet the same entries if the entries that link structures have no stray bits. -/
theorem lookup_eq_of_links {m : Machine σ} {root virt : BitVec 64}
    (h : ∀ x ∈ trail hardwareSlot (entries m) 0 root (path virt), ∀ t,
      hardwareSlot x.1 (entries m x.2.1 x.2.2) = .next t →
        entries m x.2.1 x.2.2 &&& strayBits = 0#64) :
    lookup m root virt = hardwareWalk m root virt ∧
      trail slot (entries m) 0 root (path virt) =
        trail hardwareSlot (entries m) 0 root (path virt) := by
  refine walk_trail_congr fun x hx => ⟨rfl, ?_⟩
  by_cases hlinks : ∃ t, hardwareSlot x.1 (entries m x.2.1 x.2.2) = .next t
  · obtain ⟨t, hnext⟩ := hlinks
    exact slot_eq_hardwareSlot (h x hx t hnext) x.1
  · rw [← slot_links_iff, not_exists] at hlinks
    exact (hardwareSlot_eq_slot_of_not_next hlinks).symm

/-- For the leaves of page tables the code and the processor compute the same address. -/
theorem translation_page (virt e : BitVec 64) :
    translation virt (some (3, e)) = (1, some (leafPhys virt 3 e, (decodePTE e).2)) := by
  have hlow : hardwareAddr e &&& ~~~0xFFF#64 = hardwareAddr e := by
    have hmask : ∀ j < 64, (0xFFF#64).getLsbD j = decide (j < 12) := by decide
    apply BitVec.eq_of_getLsbD_eq
    intro i hi
    rw [BitVec.getLsbD_and, BitVec.getLsbD_not, hmask i hi, getLsbD_hardwareAddr]
    by_cases h12 : i < 12
    · have hnot : ¬ (12 ≤ i ∧ i < 52) := by omega
      simp [hnot]
    · simp [h12, hi]
  have hphys : leafPhys virt 3 e = hardwareAddr e + (virt &&& 0xFFF#64) := by
    rw [leafPhys, offsetMask, hlow]
    · omega
    · omega
  rw [hphys]
  rfl

/-- For every content of the paging structures and every canonical address: if the structures that
the processor's walk meets can be reached, `getPhysAddr` matches it exactly if the walk ends at a
page of 4 KB or at an absent entry and meets no stray bits. -/
theorem software_walk_matches {m : Machine σ} {pt : PageTable} {virt : BitVec 64}
    (hv : nonCanonical virt = false)
    (hacc : ∀ x ∈ trail hardwareSlot (entries m) 0 pt.pml4Phys (path virt),
      m.Accessible x.2.1) :
    MatchesHardware m pt virt ↔ PlainWalk m pt.pml4Phys virt := by
  constructor
  · rintro ⟨c, out, m', hreturns, hone, -, -⟩
    obtain ⟨hreach, htranslate, -⟩ := (getPhysAddr_eq_ok hv).mp hreturns
    have hlinks := stray_of_accessible (by simp [path]) hreach
    rw [(lookup_eq_of_links hlinks).1] at htranslate
    refine ⟨fun d e hleaf => ?_, hlinks⟩
    -- the code returns 1 for leaves of page tables only
    obtain rfl : c = 1 := hone.mpr ⟨_, hleaf⟩
    rw [hleaf] at htranslate
    obtain ⟨-, -, -, -, hslot⟩ := leaf_mem_trail hleaf
    rcases d with _ | _ | _ | _ | d
    · simp only [hardwareSlot] at hslot
      split at hslot <;> cases hslot
    · simp [translation] at htranslate
    · simp [translation] at htranslate
    · rfl
    · cases hslot
  · rintro ⟨hsmall, hlinks⟩
    obtain ⟨hlookup, htrail⟩ := lookup_eq_of_links hlinks
    have hreturns : getPhysAddr pt virt m = .ok (translation virt (lookup m pt.pml4Phys virt), m) :=
      (getPhysAddr_eq_ok hv).mpr ⟨htrail ▸ hacc, rfl, rfl⟩
    rw [hlookup] at hreturns
    rcases hleaf : hardwareWalk m pt.pml4Phys virt with _ | ⟨d, e⟩
    · rw [hleaf] at hreturns
      exact ⟨0, none, m, hreturns, by simp [hleaf], by simp [hleaf], by simp [hleaf]⟩
    · obtain rfl := hsmall d e hleaf
      rw [hleaf, translation_page] at hreturns
      refine ⟨1, _, m, hreturns, by simp [hleaf], fun d e' heq => ?_, by simp [hleaf]⟩
      rw [hleaf, Option.some.injEq, Prod.mk.injEq] at heq
      obtain ⟨rfl, rfl⟩ := heq
      exact ⟨_, rfl⟩

/-- A machine in early boot with the given words in memory and zeros elsewhere. -/
def machineWith (words : List (BitVec 64 × BitVec 64)) : Machine Unit where
  mem a := (words.lookup a).getD 0
  earlyBoot := true
  isFirstPageTable := true
  allocator := ()

/-- A page of 4 KB is mapped through four structures. -/
def smallPageMachine : Machine Unit :=
  machineWith [(0x1000#64, 0x2003#64), (0x2000#64, 0x3003#64), (0x3000#64, 0x4003#64),
    (0x4028#64, 0x7001#64)]

/-- A page of 1 GB is mapped. -/
def largePageMachine : Machine Unit :=
  machineWith [(0x1000#64, 0x2003#64), (0x2000#64, 0x83#64)]

/-- The address of a byte in the page of 4 KB. -/
theorem software_walk_matches_small_page :
    MatchesHardware smallPageMachine ⟨0x1000#64⟩ 0x5123#64 := by
  refine (software_walk_matches (by decide) (by decide)).mpr ⟨fun d e hleaf => ?_, ?_⟩
  · have hpage : hardwareWalk smallPageMachine 0x1000#64 0x5123#64 = some (3, 0x7001#64) := by
      decide
    rw [hpage, Option.some.injEq, Prod.mk.injEq] at hleaf
    exact hleaf.1.symm
  · have hclear : ∀ x ∈ trail hardwareSlot (entries smallPageMachine) 0 0x1000#64
        (path 0x5123#64), entries smallPageMachine x.2.1 x.2.2 &&& strayBits = 0#64 := by decide
    exact fun x hx _ _ => hclear x hx

/-- The code returns 0 for an address in the page of 1 GB. -/
theorem software_walk_not_matches :
    ¬∀ (σ : Type) (m : Machine σ) (pt : PageTable) (virt : BitVec 64),
      nonCanonical virt = false →
      (∀ x ∈ trail hardwareSlot (entries m) 0 pt.pml4Phys (path virt), m.Accessible x.2.1) →
      MatchesHardware m pt virt := by
  intro h
  obtain ⟨c, out, m', hreturns, hone, -, -⟩ :=
    h Unit largePageMachine ⟨0x1000#64⟩ 0x5000#64 (by decide) (by decide)
  have hzero : returns (getPhysAddr ⟨0x1000#64⟩ 0x5000#64) largePageMachine (·.1 == 0) = true := by
    decide
  have hleaf : hardwareWalk largePageMachine 0x1000#64 0x5000#64 = some (1, 0x83#64) := by decide
  rw [returns, hreturns, hone.mpr ⟨_, hleaf⟩] at hzero
  cases hzero

/-! ## Structures that the kernel built -/

section

variable {held : σ → Set (BitVec 64)} {m : Machine σ} {roots : List (BitVec 64)}
variable {label : Labels (BitVec 64) Index} {root : BitVec 64}

/-- In structures that the kernel built both walks meet the same entries. -/
theorem Paging.hardwareWalk_eq (h : Paging held m roots label) (hroot : label root = some [])
    (virt : BitVec 64) : lookup m root virt = hardwareWalk m root virt ∧
      trail slot (entries m) 0 root (path virt) =
        trail hardwareSlot (entries m) 0 root (path virt) :=
  lookup_eq_of_links (stray_of_accessible (by simp [path])
    fun _ hx => h.accessible_of_mem_trail hroot hx)

end

end KushOs.Vm
