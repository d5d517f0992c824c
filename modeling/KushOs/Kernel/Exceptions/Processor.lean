import KushOs.Foundation.WordStack
import KushOs.Kernel.Exceptions.Idt

/-!
# Delivery of an exception

The part of the processor that the exception routines depend on: how an exception is delivered
through the tables in memory, and the instructions that the routines are made of. Status flags,
which arithmetic changes, are left out; the last instruction of a routine restores them with the
rest of the flags.

## Main definitions

* `Context`: what an exception interrupts. `Regs`: the structure of `Processor.h`, in which a
  routine saves it.
* `Cpu`, `Instr.run`: the processor, and its instructions.
* `System.boot`, `System.deliver`: the tables as the kernel creates them, and what the processor
  does with them.

## Main results

* `Regs.ofMemory_eq`: the structure that lies in memory where its words do.
* `deliver_boot`: where an exception arrives.
-/

namespace KushOs.Exceptions

open WordStack Gdt

/-! ## Registers -/

/-- The general purpose registers without the stack pointer, as `Regs` has them in order. -/
inductive Reg
  | rax
  | rbx
  | rcx
  | rdx
  | rsi
  | rdi
  | rbp
  | r8
  | r9
  | r10
  | r11
  | r12
  | r13
  | r14
  | r15
  deriving DecidableEq, Repr

/-- The position of a register in `Regs`. -/
def Reg.slot : Reg → ℕ
  | rax => 0
  | rbx => 1
  | rcx => 2
  | rdx => 3
  | rsi => 4
  | rdi => 5
  | rbp => 6
  | r8 => 7
  | r9 => 8
  | r10 => 9
  | r11 => 10
  | r12 => 11
  | r13 => 12
  | r14 => 13
  | r15 => 14

/-- The registers in the order of their positions. -/
def Reg.all : List Reg :=
  [rax, rbx, rcx, rdx, rsi, rdi, rbp, r8, r9, r10, r11, r12, r13, r14, r15]

/-- What an exception interrupts. -/
structure Context where
  gpr : Reg → BitVec 64
  /-- program counter -/
  rip : BitVec 64
  /-- code segment -/
  cs : BitVec 64
  rflags : BitVec 64
  /-- stack pointer -/
  rsp : BitVec 64
  /-- stack segment -/
  ss : BitVec 64

/-- `Processor::Regs` -/
structure Regs extends Context where
  /-- vector number -/
  irq : BitVec 64
  /-- error code -/
  errorCode : BitVec 64

namespace Regs

/-- The words of the structure in memory. -/
def words (r : Regs) : List (BitVec 64) :=
  Reg.all.map r.gpr ++ [r.irq, r.errorCode, r.rip, r.cs, r.rflags, r.rsp, r.ss]

/-- The structure at an address. -/
def ofMemory (mem : BitVec 64 → BitVec 64) (addr : BitVec 64) : Regs where
  gpr r := mem (addr + BitVec.ofNat 64 (8 * r.slot))
  irq := mem (addr + 120)
  errorCode := mem (addr + 128)
  rip := mem (addr + 136)
  cs := mem (addr + 144)
  rflags := mem (addr + 152)
  rsp := mem (addr + 160)
  ss := mem (addr + 168)

/-- The structure is determined by its words. -/
theorem words_injective : Function.Injective words := by
  rintro ⟨⟨gpr, rip, cs, rflags, rsp, ss⟩, irq, errorCode⟩
    ⟨⟨gpr', rip', cs', rflags', rsp', ss'⟩, irq', errorCode'⟩ h
  simp only [words, Reg.all, List.map_cons, List.map_nil, List.cons_append, List.nil_append,
    List.cons.injEq, and_true] at h
  have hgpr : gpr = gpr' := by
    funext r
    cases r <;> simp only [h]
  simp only [h, hgpr]

/-- Its words, read from memory. -/
theorem words_ofMemory (mem : BitVec 64 → BitVec 64) (addr : BitVec 64) :
    (ofMemory mem addr).words = wordsAt 8 mem addr 22 := by
  simp [words, Reg.all, ofMemory, Reg.slot, wordsAt, BitVec.add_assoc]

/-- The structure is where its words are. -/
theorem ofMemory_eq {mem : BitVec 64 → BitVec 64} {addr : BitVec 64} {r : Regs} :
    ofMemory mem addr = r ↔ wordsAt 8 mem addr 22 = r.words := by
  rw [← words_ofMemory]
  exact words_injective.eq_iff.symm

end Regs

/-! ## Instructions -/

/-- The processor and its memory, which is accessed in words of 8 bytes. -/
structure Cpu extends Context where
  cr2 : BitVec 64
  mem : BitVec 64 → BitVec 64

/-- The interrupt flag. -/
def interruptFlag : BitVec 64 := 0x200

/-- The C++ functions that the routines call. -/
inductive Callee
  | handle
  | pageFault
  deriving DecidableEq, Repr

/-- The instructions of `ExceptionHandlers.S`. -/
inductive Instr
  | cli
  /-- `pushq $imm` -/
  | pushq (imm : BitVec 64)
  /-- `pushq %reg` -/
  | push (reg : Reg)
  /-- `popq %reg` -/
  | pop (reg : Reg)
  /-- `xor %reg, %reg` -/
  | clear (reg : Reg)
  /-- `mov %rsp, %reg` -/
  | movRsp (reg : Reg)
  /-- `mov %cr2, %reg` -/
  | movCr2 (reg : Reg)
  /-- `add $imm, %rsp` -/
  | addRsp (imm : BitVec 64)
  | iretq
  deriving DecidableEq, Repr

namespace Cpu

/-- Words are pushed on the stack in order. -/
def pushAll (s : Cpu) (ws : List (BitVec 64)) : Cpu :=
  let (mem, rsp) := WordStack.pushAll 8 (s.mem, s.rsp) ws
  { s with mem, rsp }

/-- A register is written. -/
def setGpr (s : Cpu) (reg : Reg) (value : BitVec 64) : Cpu :=
  { s with gpr := Function.update s.gpr reg value }

end Cpu

/-- The instruction is executed. -/
def Instr.run (s : Cpu) : Instr → Cpu
  | cli => { s with rflags := s.rflags &&& ~~~interruptFlag }
  | pushq imm => s.pushAll [imm]
  | push reg => s.pushAll [s.gpr reg]
  | pop reg => { s.setGpr reg (s.mem s.rsp) with rsp := s.rsp + 8 }
  | clear reg => s.setGpr reg 0
  | movRsp reg => s.setGpr reg s.rsp
  | movCr2 reg => s.setGpr reg s.cr2
  | addRsp imm => { s with rsp := s.rsp + imm }
  | iretq =>
    { s with
      rip := s.mem s.rsp
      cs := s.mem (s.rsp + 8)
      rflags := s.mem (s.rsp + 16)
      rsp := s.mem (s.rsp + 24)
      ss := s.mem (s.rsp + 32) }

/-- Instructions are executed in order. -/
def Cpu.run (s : Cpu) (code : List Instr) : Cpu := code.foldl Instr.run s

/-! ## Delivery -/

/-- An exception: its vector, and the code that the processor reports with some of them. -/
structure Exception where
  vector : ℕ
  errorCode : BitVec 64
  deriving DecidableEq, Repr

/-- Whether the processor pushes the error code. -/
def Exception.hasErrorCode (x : Exception) : Bool :=
  x.vector ∈ [8, 10, 11, 12, 13, 14, 17, 21, 29, 30]

/-- The error code, if it is pushed. -/
def Exception.pushedCode (x : Exception) : Option (BitVec 64) :=
  if x.hasErrorCode then some x.errorCode else none

/-- The trap, nested task, resume and virtual 8086 flags. -/
def clearedFlags : BitVec 64 := 0x34100

/-- The processor enters the code behind a gate, with the pointer of the stack to change to. The
privilege changes if the interrupted code does not have the highest one. -/
def Cpu.interrupt (s : Cpu) (gate : Gate) (stack : BitVec 64) (code : Option (BitVec 64)) : Cpu :=
  let entered := { s with rsp := stack &&& ~~~0xF }.pushAll
    ([s.ss, s.rsp, s.rflags, s.cs, s.rip] ++ code.toList)
  let rflags := s.rflags &&& ~~~clearedFlags
  { entered with
    rip := gate.offset
    cs := gate.selector.setWidth 64 &&& ~~~3
    ss := if s.cs &&& 3 = 0 then s.ss else 0
    rflags := if gate.type = 0xE then rflags &&& ~~~interruptFlag else rflags }

/-- The tables of the kernel in memory. -/
structure System where
  addresses : Addresses
  descriptors : Descriptors
  idt : Idt

namespace System

/-- What the platform's entry code does before interrupts can occur: `Gdt::Init` and
`Idt::InitBsp`. -/
def boot (addresses : Addresses) (code : Routine → BitVec 64) (gGdt : ℕ → GdtDescriptor)
    (storage : Idt) : Except Fault System := do
  let descriptors ← Descriptors.init addresses gGdt
  let idt ← Idt.create code storage
  return { addresses, descriptors, idt }

/-- The task state segment that the task register refers to. -/
def tss (sys : System) : Option Tss := do
  let segment ← sys.descriptors.taskState
  if segment.base = sys.addresses.gBspTss then some sys.descriptors.bspTss else none

/-- The stack that a gate asks for: the interrupt stack that it names, or else the stack of the
highest privilege, which is the current one if the privilege stays. -/
def stackOf (sys : System) (gate : Gate) (s : Cpu) : Option (BitVec 64) := do
  let tss ← sys.tss
  if h : gate.ist.toNat = 0 then
    return if s.cs &&& 3 = 0 then s.rsp else (tss.rsp 0).address
  else
    return (tss.ist ⟨gate.ist.toNat - 1, by omega⟩).address

/-- A segment for 64-bit code of the highest privilege: present, not of the system, executable and
not conforming, with the L flag and without the D flag. -/
def isKernelCode (segment : Segment) : Bool :=
  segment.access &&& 0xFC = 0x98 && segment.granularity &&& 0x6 = 0x2

/-- The processor delivers an exception, if it finds what it needs for that in the tables. -/
def deliver (sys : System) (x : Exception) (s : Cpu) : Option Cpu := do
  let gate ← sys.idt.gate x.vector
  let segment ← sys.descriptors.segment gate.selector
  let stack ← sys.stackOf gate s
  if isKernelCode segment then some (s.interrupt gate stack x.pushedCode) else none

end System

/-! ## Where an exception arrives -/

/-- The interrupt stack that an element of the table of handlers names. -/
def Stack.slot : Stack → Option (Fin 7)
  | none => Option.none
  | stack1 => some 0
  | stack2 => some 1
  | stack3 => some 2
  | stack4 => some 3
  | stack5 => some 4
  | stack6 => some 5
  | stack7 => some 6

/-- Every exception has a routine, the kernel's code segment and an interrupt stack. -/
theorem handlerOf_spec {vector : ℕ} {h : DefaultHandler} (hh : handlerOf vector = some h) :
    h.segment = kernCodeSeg ∧ (∃ r, h.function = some r) ∧ ∃ i, h.stack.slot = some i := by
  have hsome : h.function.isSome = true ∧ h.idtIndex.toNat = vector := by
    simpa using List.find?_some hh
  have hall : ∀ g ∈ gDefaultHandlers, g.function.isSome = true → g.segment = kernCodeSeg ∧
      g.stack.slot.isSome = true := by decide
  obtain ⟨hsegment, hstack⟩ := hall h (List.mem_of_find?_eq_some hh) hsome.1
  exact ⟨hsegment, Option.isSome_iff_exists.mp hsome.1, Option.isSome_iff_exists.mp hstack⟩

section Deliver

variable {addresses : Addresses} {code : Routine → BitVec 64} {gGdt : ℕ → GdtDescriptor}
  {storage : Idt} {sys : System}

/-- The entry code returns, and this is what the processor finds then. -/
theorem boot_eq (addresses : Addresses) (code : Routine → BitVec 64) (gGdt : ℕ → GdtDescriptor)
    (storage : Idt) :
    ∃ sys, System.boot addresses code gGdt storage = .ok sys ∧ sys.addresses = addresses ∧
      Initialized addresses sys.descriptors ∧
      ∀ v, sys.idt.gate v = (handlerOf v).bind (DefaultHandler.gate code) := by
  obtain ⟨d, hd, hinit⟩ := init_eq addresses gGdt
  obtain ⟨idt, hidt, hgate⟩ := gate_create code storage
  refine ⟨⟨addresses, d, idt⟩, ?_, rfl, hinit, hgate⟩
  simp only [System.boot, hd, hidt]
  rfl

/-- What the processor finds after the entry code. -/
theorem boot_spec (hboot : System.boot addresses code gGdt storage = .ok sys) :
    sys.addresses = addresses ∧ Initialized addresses sys.descriptors ∧
      ∀ v, sys.idt.gate v = (handlerOf v).bind (DefaultHandler.gate code) := by
  obtain ⟨sys', hsys, hspec⟩ := boot_eq addresses code gGdt storage
  obtain rfl : sys' = sys := Except.ok.inj (hsys.symm.trans hboot)
  exact hspec

/-- The stack of a gate that names an interrupt stack. -/
theorem stackOf_boot (hboot : System.boot addresses code gGdt storage = .ok sys) (gate : Gate)
    {stack : Stack} {i : Fin 7} (hist : gate.ist = stack.value.setWidth 3)
    (hi : stack.slot = some i) (s : Cpu) :
    sys.stackOf gate s = some (irqStackTop addresses.gBspIrqStacks i) := by
  obtain ⟨haddresses, hinit, -⟩ := boot_spec hboot
  have htss : sys.tss = some sys.descriptors.bspTss := by
    rw [System.tss, hinit.taskState, haddresses]
    exact if_pos rfl
  have hnumber : gate.ist.toNat = i + 1 := by
    rw [hist]
    cases stack <;> simp [Stack.slot] at hi <;> subst hi <;> rfl
  rw [System.stackOf, htss]
  show (if h : gate.ist.toNat = 0 then _ else _) = _
  rw [dif_neg (by omega), ← hinit.irqStacks i]
  congr
  omega

/-- An exception with a handler arrives at the routine named for its vector, on the interrupt stack
named there; no other exception is delivered. -/
theorem deliver_boot (hboot : System.boot addresses code gGdt storage = .ok sys) (x : Exception)
    (s : Cpu) :
    sys.deliver x s = (handlerOf x.vector).bind fun h => (h.gate code).bind fun gate =>
      h.stack.slot.map fun i =>
        s.interrupt gate (irqStackTop addresses.gBspIrqStacks i) x.pushedCode := by
  obtain ⟨haddresses, hinit, hgate⟩ := boot_spec hboot
  rw [System.deliver, hgate]
  cases hh : handlerOf x.vector with
  | none => rfl
  | some h =>
    obtain ⟨hsegment, ⟨r, hr⟩, i, hi⟩ := handlerOf_spec hh
    have hfound : h.gate code = some
        { offset := code r
          selector := 0x08
          ist := h.stack.value.setWidth 3
          type := h.flags.setWidth 4
          dpl := (h.flags >>> 5).setWidth 2 } := by
      rw [DefaultHandler.gate, hr, hsegment]
      rfl
    have hstack := stackOf_boot hboot ⟨code r, 0x08, h.stack.value.setWidth 3,
      h.flags.setWidth 4, (h.flags >>> 5).setWidth 2⟩ rfl hi s
    simp only [Option.bind_some, hfound, hi, Option.map_some, Option.bind_eq_bind, hinit.code,
      hstack]
    exact if_pos (by decide)

end Deliver

end KushOs.Exceptions
