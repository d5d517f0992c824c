import KushOs.Kernel.Gdt.Table
import Mathlib.Data.Fintype.Basic

/-!
# The task state segment

`Gdt::Init` fills the global descriptor table and the task state segment of the bootstrap processor,
which holds the tops of the seven interrupt stacks, and loads both into the processor.

## Main definitions

* `Tss`: the structure of `GdtTypes.h`.
* `Descriptors.init`: `Gdt::Init`, for the addresses that the linker gave its objects.
* `Descriptors.segment`, `taskState`: what the processor finds under a selector, and in its task
  register.

## Main results

* `init_eq`: what the processor finds after `Gdt::Init`.
-/

namespace KushOs.Gdt

/-! ## The code -/

/-- A pointer in two halves, as in `rsp` and `ist` of a `Tss`. -/
structure SplitPointer where
  low : BitVec 32
  high : BitVec 32
  deriving DecidableEq, Repr

/-- The pointer that the processor puts together. -/
def SplitPointer.address (p : SplitPointer) : BitVec 64 := p.high ++ p.low

/-- `Tss` -/
structure Tss where
  reserved1 : BitVec 32
  /-- stack pointers (RSP0 - RSP2) -/
  rsp : Fin 3 → SplitPointer
  reserved2 : Fin 2 → BitVec 32
  /-- interrupt stacks -/
  ist : Fin 7 → SplitPointer
  reserved3 : Fin 2 → BitVec 32
  reserved4 : BitVec 16
  /-- IO map offset -/
  ioMap : BitVec 16
  deriving DecidableEq

/-- Number of words (8 byte units) of an interrupt stack. -/
def kIrqStackSize : ℕ := 512

/-- `Gdt::InitTss`; all of the structure is overwritten. -/
def initTss : Tss where
  reserved1 := 0
  rsp _ := ⟨0, 0⟩
  reserved2 _ := 0
  ist _ := ⟨0, 0⟩
  reserved3 _ := 0
  reserved4 := 0
  ioMap := BitVec.ofNat 16 (sizeofTss - 1)

/-- One turn of the loop of `Gdt::Init` over the interrupt stacks, which start at `irqStacks`. -/
def Tss.setIrqStack (irqStacks : BitVec 64) (tss : Tss) (i : Fin 7) : Tss :=
  let stack := irqStacks + BitVec.ofNat 64 (i * (kIrqStackSize * 8)) +
    BitVec.ofNat 64 (kIrqStackSize * 8)
  let pointer : SplitPointer := ⟨(stack &&& 0xFFFFFFFF).setWidth 32, (stack >>> 32).setWidth 32⟩
  { tss with ist := Function.update tss.ist i pointer }

/-- The operand of `lgdt`. -/
structure Gdtr where
  length : BitVec 16
  base : BitVec 64
  deriving DecidableEq, Repr

/-- `Gdt::Load`, for the table at `gGdt`. -/
def load (gGdt : BitVec 64) (numTss : ℕ) : Except Fault Gdtr := do
  require (numTss ≠ 0 && numTss < kTssSlots)
  return ⟨BitVec.ofNat 16 (gdtFirstTss + numTss * 16 - 1), gGdt⟩

/-- The selector that `Gdt::ActivateTask` loads into the task register. -/
def activateTask (task : ℕ) : BitVec 16 := BitVec.ofNat 16 (task * 2 * 0x8 + gdtFirstTss)

/-- Where the linker put the objects of `Gdt.cpp`. -/
structure Addresses where
  gGdt : BitVec 64
  gBspTss : BitVec 64
  gBspIrqStacks : BitVec 64

/-- The table and the task state segment in memory, and the registers that refer to them. -/
structure Descriptors where
  table : Table
  bspTss : Tss
  gdtr : Gdtr
  tr : BitVec 16

namespace Descriptors

/-- `Gdt::Init`, on a table of any contents. -/
def init (a : Addresses) (gGdt : ℕ → GdtDescriptor) : Except Fault Descriptors := do
  let t : Table := ⟨fun n => if n < kGdtSize then ⟨0, 0, 0, 0, 0, 0⟩ else gGdt n, []⟩
  let t ← t.set32 (gdtKernCodeSeg / 8) 0x00000000 0xFFFFFFFF 0x9A 0xAF
  let t ← t.set32 (gdtKernDataSeg / 8) 0x00000000 0xFFFFFFFF 0x92 0xCF
  let t ← t.set32 (gdtUserCodeSeg / 8) 0x00000000 0xFFFFFFFF 0xFA 0xAF
  let t ← t.set32 (gdtUserCode64Seg / 8) 0x00000000 0xFFFFFFFF 0xFA 0xAF
  let t ← t.set32 (gdtUserDataSeg / 8) 0x00000000 0xFFFFFFFF 0xF2 0xCF
  let bspTss := (List.finRange 7).foldl (Tss.setIrqStack a.gBspIrqStacks) initTss
  let table ← t.installTss 0 a.gBspTss
  let gdtr ← load a.gGdt 1
  return { table, bspTss, gdtr, tr := activateTask 0 }

/-! ## What the processor finds -/

/-- The segment under a selector for the global table, if the entry lies within the limit. -/
def segment (d : Descriptors) (selector : BitVec 16) : Option Segment :=
  if selector.getLsbD 2 = false ∧ (selector.toNat / 8) * 8 + 7 ≤ d.gdtr.length.toNat then
    some (d.table.decode (.segment (selector.toNat / 8)))
  else none

/-- The segment in the task register, which takes two entries. -/
def taskState (d : Descriptors) : Option Segment :=
  if (d.tr.toNat / 8) * 8 + 15 ≤ d.gdtr.length.toNat then
    some ((d.table.gGdt (d.tr.toNat / 8)).decodeSystem (d.table.gGdt (d.tr.toNat / 8 + 1)))
  else none

end Descriptors

/-- The first address behind the interrupt stack `i`. -/
def irqStackTop (irqStacks : BitVec 64) (i : Fin 7) : BitVec 64 :=
  irqStacks + BitVec.ofNat 64 ((i + 1) * (kIrqStackSize * 8))

/-! ## Facts -/

/-- Both halves of a pointer. -/
theorem address_halves (p : BitVec 64) :
    SplitPointer.address ⟨(p &&& 0xFFFFFFFF).setWidth 32, (p >>> 32).setWidth 32⟩ = p := by
  have hlow : (p &&& 0xFFFFFFFF).setWidth 32 = p.extractLsb' 0 32 := setWidth_and_low p 32
  have hhigh : (p >>> 32).setWidth 32 = p.extractLsb' 32 32 :=
    BitVec.setWidth_ushiftRight_eq_extractLsb
  unfold SplitPointer.address
  rw [hlow, hhigh]
  refine (BitVec.extractLsb'_append_extractLsb'_eq_extractLsb' rfl).trans ?_
  exact BitVec.extractLsb'_eq_self

/-- What the loop stores for a stack. -/
theorem address_setIrqStack (irqStacks : BitVec 64) (tss : Tss) (i : Fin 7) :
    ((tss.setIrqStack irqStacks i).ist i).address = irqStackTop irqStacks i := by
  have htop : irqStackTop irqStacks i = irqStacks + BitVec.ofNat 64 (i * (kIrqStackSize * 8)) +
      BitVec.ofNat 64 (kIrqStackSize * 8) := by
    rw [irqStackTop, Nat.add_mul, Nat.one_mul, BitVec.ofNat_add, BitVec.add_assoc]
  rw [htop, ← address_halves (irqStacks + _ + _), Tss.setIrqStack]
  dsimp only
  rw [Function.update_self]

/-- Turns of the loop for other stacks. -/
theorem ist_foldl_of_not_mem (irqStacks : BitVec 64) (tss : Tss) {is : List (Fin 7)} {i : Fin 7}
    (hi : i ∉ is) : (is.foldl (Tss.setIrqStack irqStacks) tss).ist i = tss.ist i := by
  induction is generalizing tss with
  | nil => rfl
  | cons j is ih =>
    have hne : i ≠ j := List.ne_of_not_mem_cons hi
    rw [List.foldl_cons, ih _ (List.not_mem_of_not_mem_cons hi), Tss.setIrqStack]
    exact Function.update_of_ne hne _ _

/-- The loop stores one pointer for each stack that it is run for. -/
theorem address_foldl (irqStacks : BitVec 64) (tss : Tss) {is : List (Fin 7)} {i : Fin 7}
    (hi : i ∈ is) (hnodup : is.Nodup) :
    ((is.foldl (Tss.setIrqStack irqStacks) tss).ist i).address = irqStackTop irqStacks i := by
  induction is generalizing tss with
  | nil => cases hi
  | cons j is ih =>
    obtain ⟨hj, hrest⟩ := List.nodup_cons.mp hnodup
    rcases List.mem_cons.mp hi with rfl | hi
    · rw [List.foldl_cons, ist_foldl_of_not_mem irqStacks _ hj, address_setIrqStack]
    · exact ih _ hi hrest

/-- The descriptor that a call left in its slot, if no later call was for the slot. -/
theorem decode_run (t : Table) (before : List Call) (c : Call) (after : List Call)
    (h : ∀ d ∈ before ++ c :: after, d.Allowed) (hlast : ∀ d ∈ after, d.slot ≠ c.slot) :
    ∃ t', t.run (before ++ c :: after) = .ok t' ∧ t'.decode c.slot = c.segment := by
  refine ⟨_, Table.run_eq h, ?_⟩
  have hc : c.Allowed := h c (by simp)
  rw [List.foldl_append, List.foldl_cons,
    decode_foldl (fun d hd => h d (by simp [hd])) hc.valid hlast, decode_write]

variable {a : Addresses} {gGdt : ℕ → GdtDescriptor}

/-- The table that `Gdt::Init` starts from. -/
def clearedTable (gGdt : ℕ → GdtDescriptor) : Table :=
  ⟨fun n => if n < kGdtSize then ⟨0, 0, 0, 0, 0, 0⟩ else gGdt n, []⟩

/-- `Gdt::Init` makes the calls of `initCalls`. -/
theorem init_eq_run : Descriptors.init a gGdt =
    (clearedTable gGdt).run (initCalls a.gBspTss) >>= fun t => .ok
      { table := t
        bspTss := (List.finRange 7).foldl (Tss.setIrqStack a.gBspIrqStacks) initTss
        gdtr := ⟨63, a.gGdt⟩
        tr := 0x30 } := by
  simp only [Descriptors.init, clearedTable, Table.run, initCalls, List.foldlM_cons,
    List.foldlM_nil, Call.run, bind_assoc, pure_bind]
  rfl

/-- All of them are allowed. -/
theorem allowed_initCalls (tss : BitVec 64) : ∀ c ∈ initCalls tss, c.Allowed := by
  simp [initCalls, Call.Allowed, gdtKernCodeSeg, gdtKernDataSeg, gdtUserCodeSeg, gdtUserCode64Seg,
    gdtUserDataSeg, kTssSlots, kGdtSize, gdtFirstTss]

/-- The entry of the kernel's code segment lies within the limit of one task state segment. -/
theorem segment_kernCode {d : Descriptors} (h : d.gdtr.length = 63) :
    d.segment 0x08 = some (d.table.decode (.segment (gdtKernCodeSeg / 8))) := by
  rw [Descriptors.segment, h]
  exact if_pos (by decide)

/-- So do the two entries of that segment. -/
theorem taskState_first {d : Descriptors} (h : d.gdtr.length = 63) (htr : d.tr = 0x30) :
    d.taskState = some (d.table.decode (.tss 0)) := by
  rw [Descriptors.taskState, h, htr]
  exact if_pos (by decide)

/-- The processor finds 64-bit code of the most privileged level under the kernel's selector, the
task state segment in its task register, and in it the tops of the interrupt stacks. -/
structure Initialized (a : Addresses) (d : Descriptors) : Prop where
  code : d.segment 0x08 = some ⟨0, 0xFFFFF, 0x9A, 0xA⟩
  taskState : d.taskState = some ⟨a.gBspTss, BitVec.ofNat 20 (sizeofTss - 1), 0x89, 0⟩
  irqStacks : ∀ i, (d.bspTss.ist i).address = irqStackTop a.gBspIrqStacks i

/-- `Gdt::Init` returns, and the processor finds what it needs. -/
theorem init_eq (a : Addresses) (gGdt : ℕ → GdtDescriptor) :
    ∃ d, Descriptors.init a gGdt = .ok d ∧ Initialized a d := by
  have hall := allowed_initCalls a.gBspTss
  obtain ⟨t, ht, hcode⟩ := decode_run (clearedTable gGdt) []
    (.set32 (gdtKernCodeSeg / 8) 0x00000000 0xFFFFFFFF 0x9A 0xAF) _ hall
    (by simp [Call.slot, gdtKernCodeSeg, gdtKernDataSeg, gdtUserCodeSeg, gdtUserCode64Seg,
      gdtUserDataSeg])
  obtain ⟨t', ht', htss⟩ := decode_run (clearedTable gGdt) ((initCalls a.gBspTss).take 5)
    (.installTss 0 a.gBspTss) [] hall (by simp)
  obtain rfl : t = t' := Except.ok.inj (ht.symm.trans ht')
  have hrun : (clearedTable gGdt).run (initCalls a.gBspTss) = .ok t := ht
  refine ⟨_, by rw [init_eq_run, hrun]; rfl, ?_, ?_, fun i => ?_⟩
  · rw [segment_kernCode rfl]
    exact congrArg some hcode
  · rw [taskState_first rfl rfl]
    exact congrArg some htss
  · exact address_foldl a.gBspIrqStacks initTss (List.mem_finRange i) (List.nodup_finRange 7)

end KushOs.Gdt
