import KushOs.Kernel.Gdt.TaskState

/-!
# The interrupt descriptor table

An `Idt` is created with gates for the processor's exceptions. The gates come from a table that
names, for each exception, the assembly routine that handles it and the interrupt stack that it runs
on; every other gate is left absent.

## Main definitions

* `IdtEntry`, `Idt`: the structures, with `Idt::set`.
* `Routine`: the assembly routines. `gDefaultHandlers`: the table of them, with `install`.
* `Gate`: what the processor takes from an entry.

## Main results

* `gate_create`: the gate of every vector in a table that was created.
-/

namespace KushOs.Exceptions

open Gdt

/-! ## The code -/

/-- `IdtEntry` -/
structure IdtEntry where
  /-- offset bits 0..15 -/
  offset1 : BitVec 16
  /-- a code segment selector in GDT/LDT -/
  selector : BitVec 16
  /-- which interrupt stack table to use, if any -/
  ist : BitVec 8
  /-- type and attributes -/
  flags : BitVec 8
  /-- offset bits 16..31 -/
  offset2 : BitVec 16
  /-- offset bits 32..63 -/
  offset3 : BitVec 32
  reserved : BitVec 32
  deriving DecidableEq, Repr

/-- `Idt::Stack` -/
inductive Stack
  | none
  | stack1
  | stack2
  | stack3
  | stack4
  | stack5
  | stack6
  | stack7
  deriving DecidableEq, Repr

/-- The value of the enumeration. -/
def Stack.value : Stack → BitVec 8
  | none => 0
  | stack1 => 1
  | stack2 => 2
  | stack3 => 3
  | stack4 => 4
  | stack5 => 5
  | stack6 => 6
  | stack7 => 7

/-- IDT flags for an ISR: present, DPL=0, 64-bit interrupt gate. -/
def kIsrFlags : BitVec 8 := 0x8E
/-- IDT flags for an exception/trap handler: present, DPL=0, 64-bit trap gate. -/
def kTrapFlags : BitVec 8 := 0x8F
/-- Total number of IDT entries to reserve space for. -/
def kNumIdt : ℕ := 256

/-- The entries of an `Idt`. -/
abbrev Idt := ℕ → IdtEntry

/-- `Idt::set` -/
def Idt.set (idt : Idt) (entry : ℕ) (function segment flags : BitVec 64) (stack : Stack) :
    Except Fault Idt := do
  require (entry < kNumIdt)
  return Function.update idt entry { idt entry with
    offset1 := (function &&& 0xFFFF).setWidth 16
    offset2 := (function >>> 16).setWidth 16
    selector := segment.setWidth 16
    ist := stack.value
    flags := flags.setWidth 8
    offset3 := (function >>> 32).setWidth 32 }

/-- The routines of `ExceptionHandlers.S`, without `amd64_exception_`. -/
inductive Routine
  | div0
  | debug
  | nmi
  | breakpoint
  | overflow
  | bounds
  | invalidInstruction
  | deviceUnavailable
  | doubleFault
  | tssInvalid
  | segmentMissing
  | ssInvalid
  | gpf
  | pagefault
  | float
  | alignmentCheck
  | machineCheck
  | simd
  | virtualization
  deriving DecidableEq, Repr

/-- An element of `gDefaultHandlers`. -/
structure DefaultHandler where
  function : Option Routine
  idtIndex : BitVec 8 := 0
  segment : BitVec 8 := 0
  flags : BitVec 8 := 0
  stack : Stack := .none
  deriving DecidableEq, Repr

/-- `GDT_KERN_CODE_SEG`, as an element of the table holds it. -/
def kernCodeSeg : BitVec 8 := BitVec.ofNat 8 gdtKernCodeSeg

/-- `gDefaultHandlers` -/
def gDefaultHandlers : List DefaultHandler :=
  [⟨some .div0, 0, kernCodeSeg, kTrapFlags, .stack1⟩,
    ⟨some .debug, 1, kernCodeSeg, kTrapFlags, .stack4⟩,
    ⟨some .nmi, 2, kernCodeSeg, kIsrFlags, .stack3⟩,
    ⟨some .breakpoint, 3, kernCodeSeg, kTrapFlags, .stack4⟩,
    ⟨some .overflow, 4, kernCodeSeg, kTrapFlags, .stack1⟩,
    ⟨some .bounds, 5, kernCodeSeg, kTrapFlags, .stack1⟩,
    ⟨some .invalidInstruction, 6, kernCodeSeg, kTrapFlags, .stack2⟩,
    ⟨some .deviceUnavailable, 7, kernCodeSeg, kTrapFlags, .stack2⟩,
    ⟨some .doubleFault, 8, kernCodeSeg, kTrapFlags, .stack2⟩,
    ⟨some .tssInvalid, 10, kernCodeSeg, kTrapFlags, .stack1⟩,
    ⟨some .segmentMissing, 11, kernCodeSeg, kTrapFlags, .stack1⟩,
    ⟨some .ssInvalid, 12, kernCodeSeg, kTrapFlags, .stack1⟩,
    ⟨some .gpf, 13, kernCodeSeg, kTrapFlags, .stack2⟩,
    ⟨some .pagefault, 14, kernCodeSeg, kTrapFlags, .stack7⟩,
    ⟨some .float, 16, kernCodeSeg, kTrapFlags, .stack2⟩,
    ⟨some .alignmentCheck, 17, kernCodeSeg, kTrapFlags, .stack2⟩,
    ⟨some .machineCheck, 18, kernCodeSeg, kTrapFlags, .stack4⟩,
    ⟨some .simd, 19, kernCodeSeg, kTrapFlags, .stack1⟩,
    ⟨some .virtualization, 20, kernCodeSeg, kTrapFlags, .stack1⟩,
    ⟨none, 0, 0, 0, .none⟩]

/-- The loop of `ExceptionHandlers::Install` over the elements that are left, for the addresses
`code` of the routines. Behind the last element there is none to read. -/
def installFrom (code : Routine → BitVec 64) : List DefaultHandler → Idt → Except Fault Idt
  | [], _ => .error .overrun
  | handler :: rest, idt =>
    match handler.function with
    | none => .ok idt
    | some function => do
      let idt ← idt.set handler.idtIndex.toNat (code function) (handler.segment.setWidth 64)
        (handler.flags.setWidth 64) handler.stack
      installFrom code rest idt

/-- `ExceptionHandlers::Install` -/
def install (code : Routine → BitVec 64) (idt : Idt) : Except Fault Idt :=
  installFrom code gDefaultHandlers idt

/-- `Idt::Idt`, on memory of any contents, up to the loading of the table. -/
def Idt.create (code : Routine → BitVec 64) (storage : Idt) : Except Fault Idt :=
  install code fun n => if n < kNumIdt then ⟨0, 0, 0, 0, 0, 0, 0⟩ else storage n

/-- The length that `Idt::load` gives the processor. -/
def idtrLength : BitVec 16 := BitVec.ofNat 16 (16 * kNumIdt - 1)

/-! ## What the processor finds -/

/-- What the processor takes from a gate. -/
structure Gate where
  offset : BitVec 64
  selector : BitVec 16
  ist : BitVec 3
  type : BitVec 4
  dpl : BitVec 2
  deriving DecidableEq, Repr

/-- The gate in an entry, if it is present; a gate is a descriptor of the system. -/
def IdtEntry.gate (e : IdtEntry) : Option Gate :=
  if e.flags.getLsbD 7 = true ∧ e.flags.getLsbD 4 = false then
    some
      { offset := e.offset3 ++ e.offset2 ++ e.offset1
        selector := e.selector
        ist := e.ist.setWidth 3
        type := e.flags.setWidth 4
        dpl := (e.flags >>> 5).setWidth 2 }
  else none

/-- The gate of a vector, if its entry lies within the limit. -/
def Idt.gate (idt : Idt) (vector : ℕ) : Option Gate :=
  if vector * 16 + 15 ≤ idtrLength.toNat then (idt vector).gate else none

/-- The element of the table for a vector. -/
def handlerOf (vector : ℕ) : Option DefaultHandler :=
  gDefaultHandlers.find? fun h => h.function.isSome && h.idtIndex.toNat == vector

/-- The gate that an element asks for. -/
def DefaultHandler.gate (code : Routine → BitVec 64) (h : DefaultHandler) : Option Gate :=
  h.function.map fun function =>
    { offset := code function
      selector := h.segment.setWidth 16
      ist := h.stack.value.setWidth 3
      type := h.flags.setWidth 4
      dpl := (h.flags >>> 5).setWidth 2 }

/-! ## Facts -/

/-- The three parts of an address. -/
theorem offset_parts (function : BitVec 64) :
    ((function >>> 32).setWidth 32 ++ (function >>> 16).setWidth 16 ++
      (function &&& 0xFFFF).setWidth 16 : BitVec 64) = function := by
  have hlow : (function &&& 0xFFFF).setWidth 16 = function.extractLsb' 0 16 :=
    setWidth_and_low function 16
  have hmiddle : (function >>> 16).setWidth 16 = function.extractLsb' 16 16 :=
    BitVec.setWidth_ushiftRight_eq_extractLsb
  have hhigh : (function >>> 32).setWidth 32 = function.extractLsb' 32 32 :=
    BitVec.setWidth_ushiftRight_eq_extractLsb
  have hupper : function.extractLsb' 32 32 ++ function.extractLsb' 16 16 =
      function.extractLsb' 16 48 := BitVec.extractLsb'_append_extractLsb'_eq_extractLsb' rfl
  rw [hlow, hmiddle, hhigh, hupper]
  refine (BitVec.extractLsb'_append_extractLsb'_eq_extractLsb' rfl).trans ?_
  exact BitVec.extractLsb'_eq_self

section Install

variable {code : Routine → BitVec 64}

/-- The entry that `set` writes for an element of the table. -/
def DefaultHandler.entry (code : Routine → BitVec 64) (h : DefaultHandler) (function : Routine)
    (old : IdtEntry) : IdtEntry :=
  { old with
    offset1 := (code function &&& 0xFFFF).setWidth 16
    offset2 := (code function >>> 16).setWidth 16
    selector := (h.segment.setWidth 64).setWidth 16
    ist := h.stack.value
    flags := (h.flags.setWidth 64).setWidth 8
    offset3 := (code function >>> 32).setWidth 32 }

/-- The gate in that entry is the one asked for. -/
theorem gate_entry {h : DefaultHandler} {function : Routine} (old : IdtEntry)
    (hfunction : h.function = some function) (hflags : h.flags = kTrapFlags ∨ h.flags = kIsrFlags) :
    (h.entry code function old).gate = h.gate code := by
  have hpresent : h.flags.getLsbD 7 = true ∧ h.flags.getLsbD 4 = false := by
    rcases hflags with hflags | hflags <;> rw [hflags] <;> decide
  have hwidth : (h.flags.setWidth 64).setWidth 8 = h.flags := by simp
  have hselector : (h.segment.setWidth 64).setWidth 16 = h.segment.setWidth 16 := by simp
  unfold DefaultHandler.gate DefaultHandler.entry IdtEntry.gate
  rw [hfunction, hwidth, hselector, if_pos hpresent]
  simp only [offset_parts, Option.map_some]

/-- A vector is an index of a byte, so `set` does not fail. -/
theorem set_eq (idt : Idt) {h : DefaultHandler} (function : Routine) :
    idt.set h.idtIndex.toNat (code function) (h.segment.setWidth 64) (h.flags.setWidth 64) h.stack =
      .ok (Function.update idt h.idtIndex.toNat
        (h.entry code function (idt h.idtIndex.toNat))) := by
  have hindex : require (h.idtIndex.toNat < kNumIdt) = .ok () :=
    require_eq_ok.mpr (decide_eq_true h.idtIndex.isLt)
  rw [Idt.set, hindex]
  rfl

/-- The loop over elements with different vectors: the gate of a vector is the one that its element
asks for, and other gates stay. -/
theorem gate_installFrom (code : Routine → BitVec 64) (hs : List DefaultHandler)
    {last : DefaultHandler} (idt : Idt)
    (hsome : ∀ h ∈ hs, h.function.isSome) (hlast : last.function = none)
    (hflags : ∀ h ∈ hs, h.flags = kTrapFlags ∨ h.flags = kIsrFlags)
    (hnodup : (hs.map fun h => h.idtIndex.toNat).Nodup) :
    ∃ idt', installFrom code (hs ++ [last]) idt = .ok idt' ∧ ∀ v, (idt' v).gate =
      (hs.find? fun h => h.idtIndex.toNat == v).elim (idt v).gate (DefaultHandler.gate code) := by
  induction hs generalizing idt with
  | nil => exact ⟨idt, by rw [List.nil_append, installFrom, hlast], fun v => rfl⟩
  | cons h hs ih =>
    obtain ⟨hfresh, hnodup⟩ := List.nodup_cons.mp hnodup
    obtain ⟨function, hfunction⟩ := Option.isSome_iff_exists.mp (hsome h List.mem_cons_self)
    set next := Function.update idt h.idtIndex.toNat
      (h.entry code function (idt h.idtIndex.toNat)) with hnext
    obtain ⟨idt', hrun, hgate⟩ := ih next (fun g hg => hsome g (List.mem_cons_of_mem h hg))
      (fun g hg => hflags g (List.mem_cons_of_mem h hg)) hnodup
    refine ⟨idt', ?_, fun v => (hgate v).trans ?_⟩
    · rw [List.cons_append, installFrom, hfunction]
      dsimp only
      rw [set_eq, ← hnext]
      exact hrun
    · rcases eq_or_ne v h.idtIndex.toNat with rfl | hv
      · -- no later element is for the same vector
        have hnone : hs.find? (fun g => g.idtIndex.toNat == h.idtIndex.toNat) = none := by
          refine List.find?_eq_none.mpr fun g hg heq => hfresh ?_
          exact List.mem_map.mpr ⟨g, hg, eq_of_beq heq⟩
        rw [hnone, List.find?_cons, beq_self_eq_true, hnext]
        show (Function.update idt _ _ _).gate = h.gate code
        rw [Function.update_self]
        exact gate_entry _ hfunction (hflags h List.mem_cons_self)
      · rw [List.find?_cons, beq_false_of_ne hv.symm, hnext, Function.update_of_ne hv]

/-- The elements in front of the last one are those with a routine. -/
theorem handlerOf_eq (vector : ℕ) :
    handlerOf vector = gDefaultHandlers.dropLast.find? fun h => h.idtIndex.toNat == vector := by
  have hsome : ∀ h ∈ gDefaultHandlers.dropLast, h.function.isSome = true := by decide
  have hsplit : gDefaultHandlers = gDefaultHandlers.dropLast ++ [⟨none, 0, 0, 0, .none⟩] := rfl
  rw [handlerOf, hsplit, List.find?_append, ← hsplit]
  have hlast : [(⟨none, 0, 0, 0, .none⟩ : DefaultHandler)].find?
      (fun h => h.function.isSome && h.idtIndex.toNat == vector) = none := rfl
  rw [hlast, Option.or_none, ← List.head?_filter, ← List.head?_filter]
  refine congrArg List.head? (List.filter_congr fun h hh => ?_)
  rw [hsome h hh, Bool.true_and]

/-- Only exceptions of the processor have a handler. -/
theorem handlerOf_le {vector : ℕ} {h : DefaultHandler} (hh : handlerOf vector = some h) :
    vector ≤ 20 := by
  have hindex : h.function.isSome = true ∧ h.idtIndex.toNat = vector := by
    simpa using List.find?_some hh
  have hle : ∀ g ∈ gDefaultHandlers, g.idtIndex.toNat ≤ 20 := by decide
  exact hindex.2 ▸ hle h (List.mem_of_find?_eq_some hh)

/-- A table that was created has the gate to the routine named in the table of handlers for each
vector there, and no others. -/
theorem gate_create (code : Routine → BitVec 64) (storage : Idt) :
    ∃ idt, Idt.create code storage = .ok idt ∧
      ∀ v, idt.gate v = (handlerOf v).bind (DefaultHandler.gate code) := by
  set cleared : Idt := fun n => if n < kNumIdt then ⟨0, 0, 0, 0, 0, 0, 0⟩ else storage n
  have hlast : (⟨none, 0, 0, 0, .none⟩ : DefaultHandler).function = none := rfl
  obtain ⟨idt, hrun, hgate⟩ := gate_installFrom code gDefaultHandlers.dropLast cleared (by decide)
    hlast (by decide) (by decide)
  refine ⟨idt, hrun, fun v => ?_⟩
  have hlimit : v * 16 + 15 ≤ idtrLength.toNat ↔ v < kNumIdt := by
    show v * 16 + 15 ≤ 4095 ↔ v < 256
    omega
  rw [Idt.gate, hgate, ← handlerOf_eq]
  cases hh : handlerOf v with
  | some h => rw [if_pos (hlimit.mpr (Nat.lt_of_le_of_lt (handlerOf_le hh) (by decide)))]; rfl
  | none =>
    -- the entry was cleared, or is not there
    split
    · next hle =>
      show (cleared v).gate = none
      rw [show cleared v = ⟨0, 0, 0, 0, 0, 0, 0⟩ from if_pos (hlimit.mp hle)]
      rfl
    · rfl

end Install

end KushOs.Exceptions
