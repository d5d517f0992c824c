import KushOs.Foundation.ByteBuffer
import KushOs.Kernel.Gdt.Descriptor
import KushOs.Kernel.Platform

/-!
# The global descriptor table

`Gdt::Set32` writes the descriptor of a segment, one entry of the table; `Gdt::InstallTss` writes
the descriptor of a task state segment, two entries behind the ones of the segments. The number of
task state segments that the header declares counts entries instead of pairs, so the descriptors of
the upper half of them lie behind the table.

## Main definitions

* `Table`: the entries from the start of the table on, and the ranges that were written.
* `Call`, `Slot`: the calls, and the places that descriptors have in the table.
* `StaysInSlot`: what a sequence of calls is to keep to.

## Main results

* `Call.run_eq`: what a call writes.
* `decode_write`, `entry_write`: the descriptor of the slot, and every other one, after a call.
* `staysInSlot_iff`: which sequences of calls keep to it.
-/

namespace KushOs.Gdt

open ByteBuffer

/-! ## The code -/

/-- `GDT_KERN_CODE_SEG` -/
def gdtKernCodeSeg : ℕ := 0x08
/-- `GDT_KERN_DATA_SEG` -/
def gdtKernDataSeg : ℕ := 0x10
/-- `GDT_USER_CODE_SEG` -/
def gdtUserCodeSeg : ℕ := 0x18
/-- `GDT_USER_DATA_SEG` -/
def gdtUserDataSeg : ℕ := 0x20
/-- `GDT_USER_CODE64_SEG` -/
def gdtUserCode64Seg : ℕ := 0x28
/-- `GDT_FIRST_TSS` -/
def gdtFirstTss : ℕ := 0x30

/-- Total number of GDT entries to allocate. -/
def kGdtSize : ℕ := 64
/-- Total number of TSS slots to allocate. -/
def kTssSlots : ℕ := kGdtSize - gdtFirstTss / 8

/-- `sizeof(Tss)`: `reserved1`, `rsp`, `reserved2`, `ist`, `reserved3`, `reserved4` and `ioMap`. -/
def sizeofTss : ℕ := 4 + 3 * (4 + 4) + 2 * 4 + 7 * (4 + 4) + 2 * 4 + 2 + 2

/-- `gGdt`, and the memory behind it, in entries; with the ranges of entries that were written. -/
structure Table where
  gGdt : ℕ → GdtDescriptor
  writes : List Range

namespace Table

/-- Entries from `num` on are overwritten. -/
def write (t : Table) (num : ℕ) (entries : List GdtDescriptor) : Table where
  gGdt n := if num ≤ n then entries.getD (n - num) (t.gGdt n) else t.gGdt n
  writes := t.writes ++ [⟨num, entries.length⟩]

/-- `Gdt::Set32` -/
def set32 (t : Table) (num : ℕ) (base limit : BitVec 32) (flags gran : BitVec 8) :
    Except Fault Table := do
  require (num ≤ gdtUserCode64Seg / 8)
  let d := { t.gGdt num with
    baseLow := (base &&& 0xFFFF).setWidth 16
    baseMiddle := (base >>> 16 &&& 0xFF).setWidth 8
    baseHigh := (base >>> 24 &&& 0xFF).setWidth 8
    limitLow := (limit &&& 0xFFFF).setWidth 16
    granularity := (limit >>> 16 &&& 0x0F).setWidth 8 }
  let d := { d with granularity := d.granularity ||| gran &&& 0xF0 }
  let d := { d with access := flags }
  return t.write num [d]

/-- `Gdt::Set64` -/
def set64 (t : Table) (num : ℕ) (base : BitVec 64) (limit : BitVec 32)
    (flags granularity : BitVec 8) : Except Fault Table := do
  require (num ≥ gdtUserCode64Seg / 8)
  let desc : GdtDescriptor64 :=
    { limit0 := (limit &&& 0xFFFF).setWidth 16
      granularityLimit := (limit >>> 16 &&& 0x0F).setWidth 8
      base0 := (base &&& 0xFFFF).setWidth 16
      base1 := (base >>> 16 &&& 0xFF).setWidth 8
      base2 := (base >>> 24 &&& 0xFF).setWidth 8
      base3 := (base >>> 32).setWidth 32
      typeFlags := flags
      reserved := 0 }
  let desc := { desc with granularityLimit := desc.granularityLimit ||| granularity &&& 0xF0 }
  return t.write num [desc.halves.1, desc.halves.2]

/-- `Gdt::InstallTss`; the index is computed in a `size_t`. -/
def installTss (t : Table) (i : ℕ) (tss : BitVec 64) : Except Fault Table :=
  t.set64 ((i * 2 + gdtFirstTss / 8) % 2 ^ 64) tss (BitVec.ofNat 32 (sizeofTss - 1)) 0x89 0

end Table

/-- The calls that write descriptors. -/
inductive Call
  | set32 (num : ℕ) (base limit : BitVec 32) (flags gran : BitVec 8)
  | installTss (i : ℕ) (tss : BitVec 64)
  deriving DecidableEq, Repr

/-- A place for a descriptor: an entry for a segment, or a pair of entries for a task state
segment. -/
inductive Slot
  | segment (num : ℕ)
  | tss (i : ℕ)
  deriving DecidableEq, Repr

namespace Call

/-- The call is made. -/
def run (t : Table) : Call → Except Fault Table
  | set32 num base limit flags gran => t.set32 num base limit flags gran
  | installTss i tss => t.installTss i tss

/-- The call passes its own check, or has an index below the declared number of slots. -/
def Allowed : Call → Prop
  | set32 num _ _ _ _ => num ≤ gdtUserCode64Seg / 8
  | installTss i _ => i < kTssSlots

/-- The slot that the call is for. -/
def slot : Call → Slot
  | set32 num _ _ _ _ => .segment num
  | installTss i _ => .tss i

/-- What is passed to the call, as far as a descriptor has room for it: of the limit 20 bits, of the
granularity byte the upper half. -/
def segment : Call → Segment
  | set32 _ base limit flags gran =>
      ⟨base.setWidth 64, limit.setWidth 20, flags, (gran >>> 4).setWidth 4⟩
  | installTss _ tss => ⟨tss, BitVec.ofNat 20 (sizeofTss - 1), 0x89, 0⟩

instance (c : Call) : Decidable c.Allowed := by
  cases c <;> unfold Allowed <;> infer_instance

end Call

namespace Slot

/-- The entries of the slot. -/
def range : Slot → Range
  | segment num => ⟨num, 1⟩
  | tss i => ⟨i * 2 + gdtFirstTss / 8, 2⟩

/-- The entries in front of the first task state segment are those of the segments. -/
def Valid : Slot → Prop
  | segment num => num ≤ gdtUserCode64Seg / 8
  | tss _ => True

end Slot

/-- The descriptor in a slot. -/
def Table.decode (t : Table) : Slot → Segment
  | .segment num => (t.gGdt num).decode
  | .tss i => (t.gGdt (i * 2 + gdtFirstTss / 8)).decodeSystem (t.gGdt (i * 2 + gdtFirstTss / 8 + 1))

/-- The calls are made in order. -/
def Table.run (t : Table) (calls : List Call) : Except Fault Table := calls.foldlM Call.run t

/-- Every write of the calls lies inside the table, the descriptor in a slot is the one passed to
the last call for the slot, and no call changes an entry of another slot. A limit that has no more
bits than a descriptor has room for comes back as a number as well. -/
structure StaysInSlot (gGdt : ℕ → GdtDescriptor) (calls : List Call) : Prop where
  returns : ∃ t, Table.run ⟨gGdt, []⟩ calls = .ok t
  inside : ∀ t, Table.run ⟨gGdt, []⟩ calls = .ok t → ∀ r ∈ t.writes, r.limit ≤ kGdtSize
  decodes : ∀ t before c after, Table.run ⟨gGdt, []⟩ calls = .ok t → calls = before ++ c :: after →
    (∀ d ∈ after, d.slot ≠ c.slot) → t.decode c.slot = c.segment
  limit : ∀ t before num base limit flags gran after, Table.run ⟨gGdt, []⟩ calls = .ok t →
    calls = before ++ .set32 num base limit flags gran :: after →
    (∀ d ∈ after, d.slot ≠ .segment num) → limit.toNat < 2 ^ 20 →
    (t.decode (.segment num)).limit.toNat = limit.toNat
  frame : ∀ t t' before c after, calls = before ++ c :: after →
    Table.run ⟨gGdt, []⟩ before = .ok t → c.run t = .ok t' →
    ∀ s : Slot, s.Valid → s ≠ c.slot → ∀ n, s.range.offset ≤ n → n < s.range.limit →
      t'.gGdt n = t.gGdt n

/-! ## What a call does -/

section Calls

variable {t : Table} {c : Call}

/-- The descriptor that `Set32` builds. -/
def segmentDescriptor (base limit : BitVec 32) (flags gran : BitVec 8) : GdtDescriptor where
  limitLow := (limit &&& 0xFFFF).setWidth 16
  baseLow := (base &&& 0xFFFF).setWidth 16
  baseMiddle := (base >>> 16 &&& 0xFF).setWidth 8
  access := flags
  granularity := (limit >>> 16 &&& 0x0F).setWidth 8 ||| gran &&& 0xF0
  baseHigh := (base >>> 24 &&& 0xFF).setWidth 8

/-- The descriptor that `Set64` builds. -/
def systemDescriptor (base : BitVec 64) (limit : BitVec 32) (flags gran : BitVec 8) :
    GdtDescriptor64 where
  limit0 := (limit &&& 0xFFFF).setWidth 16
  base0 := (base &&& 0xFFFF).setWidth 16
  base1 := (base >>> 16 &&& 0xFF).setWidth 8
  typeFlags := flags
  granularityLimit := (limit >>> 16 &&& 0x0F).setWidth 8 ||| gran &&& 0xF0
  base2 := (base >>> 24 &&& 0xFF).setWidth 8
  base3 := (base >>> 32).setWidth 32
  reserved := 0

/-- What the descriptor of a segment says. -/
theorem decode_segmentDescriptor (base limit : BitVec 32) (flags gran : BitVec 8) :
    (segmentDescriptor base limit flags gran).decode =
      ⟨base.setWidth 64, limit.setWidth 20, flags, (gran >>> 4).setWidth 4⟩ := by
  obtain ⟨hlimit, hgran⟩ := granularity_halves limit gran
  unfold segmentDescriptor GdtDescriptor.decode GdtDescriptor.base GdtDescriptor.limit
  rw [base_fields, hlimit, limit_fields, hgran, BitVec.extractLsb'_eq_self]

/-- What the descriptor of a task state segment says, in the two entries that it fills. -/
theorem decodeSystem_systemDescriptor (base : BitVec 64) (limit : BitVec 32)
    (flags gran : BitVec 8) :
    (systemDescriptor base limit flags gran).halves.1.decodeSystem
        (systemDescriptor base limit flags gran).halves.2 =
      ⟨base, limit.setWidth 20, flags, (gran >>> 4).setWidth 4⟩ := by
  obtain ⟨hlimit, hgran⟩ := granularity_halves limit gran
  unfold systemDescriptor GdtDescriptor64.halves GdtDescriptor.decodeSystem GdtDescriptor.base
    GdtDescriptor.limit
  rw [base_fields, hlimit, limit_fields, hgran, upper_fields]

/-- The entries that the call writes. -/
def Call.entries : Call → List GdtDescriptor
  | set32 _ base limit flags gran => [segmentDescriptor base limit flags gran]
  | installTss _ tss =>
      let desc := systemDescriptor tss (BitVec.ofNat 32 (sizeofTss - 1)) 0x89 0
      [desc.halves.1, desc.halves.2]

theorem Call.length_entries (c : Call) : c.entries.length = c.slot.range.size := by
  cases c <;> rfl

/-- A call that is allowed writes the entries of its slot. -/
theorem Call.run_eq (h : c.Allowed) : c.run t = .ok (t.write c.slot.range.offset c.entries) := by
  cases c with
  | set32 num base limit flags gran =>
      have hnum : require (num ≤ gdtUserCode64Seg / 8) = .ok () :=
        require_eq_ok.mpr (decide_eq_true h)
      show t.set32 num base limit flags gran = _
      rw [Table.set32, hnum]
      rfl
  | installTss i tss =>
      have hi : i < 58 := h
      have hindex : (i * 2 + gdtFirstTss / 8) % 2 ^ 64 = i * 2 + gdtFirstTss / 8 :=
        Nat.mod_eq_of_lt (by rw [gdtFirstTss]; omega)
      have hnum : require (i * 2 + gdtFirstTss / 8 ≥ gdtUserCode64Seg / 8) = .ok () :=
        require_eq_ok.mpr (decide_eq_true (by rw [gdtFirstTss, gdtUserCode64Seg]; omega))
      show t.installTss i tss = _
      rw [Table.installTss, hindex, Table.set64, hnum]
      rfl

/-- An entry of the range that is written. -/
theorem Table.gGdt_write_of_mem {num n : ℕ} {entries : List GdtDescriptor} {d : GdtDescriptor}
    (hd : entries[n]? = some d) : (t.write num entries).gGdt (num + n) = d := by
  rw [Table.write]
  simp [List.getD, hd]

/-- An entry outside the range that is written. -/
theorem Table.gGdt_write_of_not_mem {num n : ℕ} {entries : List GdtDescriptor}
    (hn : n < num ∨ num + entries.length ≤ n) : (t.write num entries).gGdt n = t.gGdt n := by
  show (if num ≤ n then entries.getD (n - num) (t.gGdt n) else t.gGdt n) = t.gGdt n
  split
  · rw [List.getD_eq_getElem?_getD, List.getElem?_eq_none (by omega)]
    rfl
  · rfl

/-- After the call, the descriptor in its slot is the one passed. -/
theorem decode_write (c : Call) : (t.write c.slot.range.offset c.entries).decode c.slot =
    c.segment := by
  cases c with
  | set32 num base limit flags gran =>
      have hentry : (t.write num [segmentDescriptor base limit flags gran]).gGdt (num + 0) =
          segmentDescriptor base limit flags gran := Table.gGdt_write_of_mem rfl
      show ((t.write num [segmentDescriptor base limit flags gran]).gGdt num).decode = _
      rw [Nat.add_zero] at hentry
      rw [hentry, decode_segmentDescriptor]
      rfl
  | installTss i tss =>
      set num := i * 2 + gdtFirstTss / 8
      set desc := systemDescriptor tss (BitVec.ofNat 32 (sizeofTss - 1)) 0x89 0
      have hlower : (t.write num [desc.halves.1, desc.halves.2]).gGdt (num + 0) =
          desc.halves.1 := Table.gGdt_write_of_mem rfl
      have hupper : (t.write num [desc.halves.1, desc.halves.2]).gGdt (num + 1) =
          desc.halves.2 := Table.gGdt_write_of_mem rfl
      show ((t.write num [desc.halves.1, desc.halves.2]).gGdt num).decodeSystem
        ((t.write num [desc.halves.1, desc.halves.2]).gGdt (num + 1)) = _
      rw [Nat.add_zero] at hlower
      rw [hlower, hupper, decodeSystem_systemDescriptor]
      rfl

/-- Different slots share no entry. -/
theorem Slot.disjoint {s s' : Slot} (hs : s.Valid) (hs' : s'.Valid) (hne : s ≠ s') :
    s.range.Disjoint s'.range := by
  unfold Slot.Valid at hs hs'
  unfold Range.Disjoint Range.limit Slot.range
  rw [gdtFirstTss]
  rw [gdtUserCode64Seg] at hs hs'
  -- segments lie in front of the first task state segment, which has two entries
  cases s with
  | segment num =>
      cases s' with
      | segment num' =>
          have hnum : num ≠ num' := fun h => hne (congrArg _ h)
          dsimp only at hs hs' ⊢
          omega
      | tss i' =>
          dsimp only at hs ⊢
          omega
  | tss i =>
      cases s' with
      | segment num' =>
          dsimp only at hs' ⊢
          omega
      | tss i' =>
          have hi : i ≠ i' := fun h => hne (congrArg _ h)
          dsimp only
          omega

theorem Call.Allowed.valid (h : c.Allowed) : c.slot.Valid := by
  cases c with
  | set32 num base limit flags gran => exact h
  | installTss i tss => trivial

/-- The call changes no entry of another slot. -/
theorem entry_write (h : c.Allowed) {s : Slot} (hs : s.Valid) (hne : s ≠ c.slot) {n : ℕ}
    (hle : s.range.offset ≤ n) (hlt : n < s.range.limit) :
    (t.write c.slot.range.offset c.entries).gGdt n = t.gGdt n := by
  have hdisjoint := Slot.disjoint hs h.valid hne
  have hlen := c.length_entries
  unfold Range.Disjoint Range.limit at hdisjoint
  unfold Range.limit at hlt
  exact Table.gGdt_write_of_not_mem (by omega)

/-- The descriptor in a slot is made of the entries of the slot. -/
theorem Table.decode_congr {t' : Table} {s : Slot}
    (h : ∀ n, s.range.offset ≤ n → n < s.range.limit → t'.gGdt n = t.gGdt n) :
    t'.decode s = t.decode s := by
  cases s with
  | segment num =>
      have hentry : t'.gGdt num = t.gGdt num := h num (le_refl _) (Nat.lt_succ_self _)
      rw [Table.decode, Table.decode, hentry]
  | tss i =>
      have hlimit : (Slot.tss i).range.limit = i * 2 + gdtFirstTss / 8 + 2 := rfl
      have hlower := h (i * 2 + gdtFirstTss / 8) (le_refl _) (by omega)
      have hupper := h (i * 2 + gdtFirstTss / 8 + 1) (Nat.le_succ _) (by omega)
      rw [Table.decode, Table.decode, hlower, hupper]

end Calls

/-! ## Sequences of calls -/

section Runs

variable {t : Table} {calls : List Call}

/-- Calls that are allowed return, and each writes the entries of its slot. -/
theorem Table.run_eq (h : ∀ c ∈ calls, c.Allowed) :
    t.run calls =
      .ok (calls.foldl (fun t c => t.write c.slot.range.offset c.entries) t) := by
  induction calls generalizing t with
  | nil => rfl
  | cons c calls ih =>
      have hc := h c List.mem_cons_self
      show (c.run t >>= fun t => t.run calls) = _
      rw [Call.run_eq hc]
      exact ih fun d hd => h d (List.mem_cons_of_mem c hd)

/-- The ranges that calls write are those of their slots. -/
theorem writes_foldl (calls : List Call) :
    (calls.foldl (fun t c => t.write c.slot.range.offset c.entries) t).writes =
      t.writes ++ calls.map fun c => c.slot.range := by
  induction calls generalizing t with
  | nil => exact (List.append_nil _).symm
  | cons c calls ih =>
      have hrange : (⟨c.slot.range.offset, c.entries.length⟩ : Range) = c.slot.range := by
        rw [c.length_entries]
      rw [List.foldl_cons, ih, Table.write, hrange, List.map_cons, List.append_assoc]
      rfl

/-- Calls for other slots leave the descriptor in a slot as it is. -/
theorem decode_foldl (h : ∀ c ∈ calls, c.Allowed) {s : Slot} (hs : s.Valid)
    (hne : ∀ c ∈ calls, c.slot ≠ s) :
    (calls.foldl (fun t c => t.write c.slot.range.offset c.entries) t).decode s = t.decode s := by
  induction calls generalizing t with
  | nil => rfl
  | cons c calls ih =>
      have hstep : (t.write c.slot.range.offset c.entries).decode s = t.decode s :=
        Table.decode_congr fun n hle hlt =>
          entry_write (h c List.mem_cons_self) hs (hne c List.mem_cons_self).symm hle hlt
      rw [List.foldl_cons, ← hstep]
      exact ih (fun d hd => h d (List.mem_cons_of_mem c hd))
        fun d hd => hne d (List.mem_cons_of_mem c hd)

/-- The slot of a call lies inside the table, unless it is one of the slots for which there are no
pairs of entries left. -/
theorem limit_slot_le_iff {c : Call} (h : c.Allowed) :
    c.slot.range.limit ≤ kGdtSize ↔
      ∀ i tss, c = .installTss i tss → i < (kGdtSize - gdtFirstTss / 8) / 2 := by
  cases c with
  | set32 num base limit flags gran =>
      have hnum : num ≤ 5 := h
      refine iff_of_true ?_ (by rintro i tss ⟨⟩)
      show num + 1 ≤ 64
      omega
  | installTss i tss =>
      show i * 2 + 6 + 2 ≤ 64 ↔ _
      constructor
      · rintro hle i' tss' ⟨⟩
        show i < 29
        omega
      · intro hall
        have hi : i < 29 := hall i tss rfl
        omega

end Runs

/-- Sequences of calls that the code allows keep to their slots exactly when no task state segment
is installed in a slot whose two entries are not in the table any more. -/
theorem staysInSlot_iff (gGdt : ℕ → GdtDescriptor) (calls : List Call)
    (hallowed : ∀ c ∈ calls, c.Allowed) :
    StaysInSlot gGdt calls ↔
      ∀ i tss, .installTss i tss ∈ calls → i < (kGdtSize - gdtFirstTss / 8) / 2 := by
  have hrun := Table.run_eq (t := ⟨gGdt, []⟩) hallowed
  have hwrites := writes_foldl (t := ⟨gGdt, []⟩) calls
  rw [List.nil_append] at hwrites
  constructor
  · intro h i tss hmem
    have hinside := h.inside _ hrun (Call.installTss i tss).slot.range
      (hwrites ▸ List.mem_map_of_mem hmem)
    exact (limit_slot_le_iff (hallowed _ hmem)).mp hinside i tss rfl
  · intro h
    -- the calls after the last one for a slot are for other slots
    have hdecodes : ∀ t before c after, Table.run ⟨gGdt, []⟩ calls = .ok t →
        calls = before ++ c :: after → (∀ d ∈ after, d.slot ≠ c.slot) →
        t.decode c.slot = c.segment := by
      rintro t before c after ht rfl hlast
      obtain rfl : _ = t := Except.ok.inj (hrun.symm.trans ht)
      have hc : c.Allowed := hallowed c (by simp)
      have hafter : ∀ d ∈ after, d.Allowed := fun d hd => hallowed d (by simp [hd])
      rw [List.foldl_append, List.foldl_cons, decode_foldl hafter hc.valid hlast]
      exact decode_write c
    refine ⟨⟨_, hrun⟩, ?_, hdecodes, ?_, ?_⟩
    · intro t ht r hr
      obtain rfl : _ = t := Except.ok.inj (hrun.symm.trans ht)
      rw [hwrites] at hr
      obtain ⟨c, hc, rfl⟩ := List.mem_map.mp hr
      exact (limit_slot_le_iff (hallowed c hc)).mpr fun i tss heq => h i tss (heq ▸ hc)
    · intro t before num base limit flags gran after ht heq hlast hlt
      have hdecode : t.decode (.segment num) = (Call.set32 num base limit flags gran).segment :=
        hdecodes t before _ after ht heq hlast
      rw [hdecode]
      show (limit.setWidth 20).toNat = limit.toNat
      rw [BitVec.toNat_setWidth, Nat.mod_eq_of_lt hlt]
    · rintro t t' before c after rfl - hstep s hs hne n hle hlt
      have hc : c.Allowed := hallowed c (by simp)
      rw [Call.run_eq hc] at hstep
      obtain rfl : _ = t' := Except.ok.inj hstep
      exact entry_write hc hs hne hle hlt

/-- The calls of `Gdt::Init`. -/
def initCalls (bspTss : BitVec 64) : List Call :=
  [.set32 (gdtKernCodeSeg / 8) 0x00000000 0xFFFFFFFF 0x9A 0xAF,
    .set32 (gdtKernDataSeg / 8) 0x00000000 0xFFFFFFFF 0x92 0xCF,
    .set32 (gdtUserCodeSeg / 8) 0x00000000 0xFFFFFFFF 0xFA 0xAF,
    .set32 (gdtUserCode64Seg / 8) 0x00000000 0xFFFFFFFF 0xFA 0xAF,
    .set32 (gdtUserDataSeg / 8) 0x00000000 0xFFFFFFFF 0xF2 0xCF,
    .installTss 0 bspTss]

/-- They keep to their slots. -/
theorem staysInSlot_init :
    StaysInSlot (fun _ => ⟨0, 0, 0, 0, 0, 0⟩) (initCalls 0xFFFFFFFF80400000) := by
  refine (staysInSlot_iff _ _ (by decide)).mpr ?_
  intro i tss hmem
  have hfirst : i = 0 ∧ tss = 0xFFFFFFFF80400000 := by simpa [initCalls] using hmem
  rw [hfirst.1]
  decide

/-- The slot 29 is below the declared number of slots, but its entries are 64 and 65. -/
theorem not_staysInSlot_29 :
    (∀ c ∈ [Call.installTss 29 0xFFFFFFFF80400000], c.Allowed) ∧
      ¬StaysInSlot (fun _ => ⟨0, 0, 0, 0, 0, 0⟩) [.installTss 29 0xFFFFFFFF80400000] := by
  refine ⟨by decide, fun h => ?_⟩
  have hinside := h.inside _ rfl ⟨64, 2⟩ (by decide)
  exact absurd hinside (by decide)

end KushOs.Gdt
