import KushOs.Foundation.Run
import KushOs.Kernel.Exceptions.Routines

/-!
# Nested exceptions

An exception can occur while another one is handled. Each gate names one of seven interrupt stacks,
and the processor starts at its top, so an exception overwrites what an earlier one left on the same
stack, and nothing of what others left on theirs.

## Main definitions

* `Pending`: an exception that is being handled.
* `NestStep`: exceptions arrive, are worked on, and leave.
* `Intact`: the structures of all pending exceptions whose stack was not taken since.

## Main results

* `Intact.step`: every step keeps them.
* `leave_context`: such an exception leaves to the context that it interrupted.
-/

namespace KushOs.Exceptions

open WordStack Gdt Transition

/-! ## Frames -/

/-- The structure that a routine leaves on its interrupt stack. -/
def frameOf (irqStacks : BitVec 64) (i : Fin 7) : BitVec 64 :=
  framePointer (irqStackTop irqStacks i)

/-- The interrupt stack of a vector. -/
def slotOf (vector : ℕ) : Option (Fin 7) := (handlerOf vector).bind fun h => h.stack.slot

/-- A multiple of 16 has no bits to clear. -/
theorem and_not_low {x : BitVec 64} (h : x.toNat % 16 = 0) : x &&& ~~~0xF = x := by
  have hlow : x.setWidth 4 = 0 := BitVec.eq_of_toNat_eq (by rw [BitVec.toNat_setWidth]; exact h)
  refine BitVec.eq_of_getLsbD_eq fun n hn => ?_
  rw [BitVec.getLsbD_and]
  by_cases hbit : n < 4
  · have hclear : x.getLsbD n = false := by
      have h0 := congrArg (fun y : BitVec 4 => y.getLsbD n) hlow
      simpa [BitVec.getLsbD_setWidth, hbit] using h0
    rw [hclear, Bool.false_and]
  · have hset : ∀ n < 64, ¬n < 4 → (~~~(0xF : BitVec 64)).getLsbD n = true := by decide
    rw [hset n hn hbit, Bool.and_true]

section Frames

variable {irqStacks : BitVec 64}

/-- The stacks are so aligned that the processor does not move their tops. -/
theorem irqStackTop_aligned (h : irqStacks.toNat % 64 = 0) (i : Fin 7) :
    irqStackTop irqStacks i &&& ~~~0xF = irqStackTop irqStacks i := by
  refine and_not_low ?_
  rw [irqStackTop, kIrqStackSize, BitVec.toNat_add, BitVec.toNat_ofNat]
  omega

/-- Words on different stacks, at most 22 words below the tops, have different addresses. -/
theorem stack_ne {i j : Fin 7} (hij : i ≠ j) {a k : ℕ} (ha : a < 22) (hpos : 0 < k) (hk : k ≤ 22) :
    irqStackTop irqStacks j - 176 + a • (8 : BitVec 64) ≠
      irqStackTop irqStacks i - k • (8 : BitVec 64) := by
  have hmul : ∀ n : ℕ, n • (8 : BitVec 64) = BitVec.ofNat 64 (n * 8) := by
    intro n
    rw [nsmul_eq_mul, BitVec.ofNat_mul]
    rfl
  have hne : (i : ℕ) ≠ j := fun h => hij (Fin.ext h)
  have hi := i.isLt
  have hj := j.isLt
  intro h
  have hnat := congrArg BitVec.toNat h
  rw [hmul, hmul, irqStackTop, irqStackTop, kIrqStackSize] at hnat
  simp only [BitVec.ofNat_eq_ofNat, BitVec.toNat_add, BitVec.toNat_sub, BitVec.toNat_ofNat] at hnat
  omega

/-- Where a frame lies below the top of its stack. -/
theorem frameOf_eq (h : irqStacks.toNat % 64 = 0) (i : Fin 7) :
    frameOf irqStacks i = irqStackTop irqStacks i - 176 := by
  rw [frameOf, framePointer, irqStackTop_aligned h]

/-- A routine leaves the frames on other stacks as they are. -/
theorem Entered.frame (haligned : irqStacks.toNat % 64 = 0) {x : Exception} {s t : Cpu}
    {r : Routine} {i j : Fin 7} (h : Entered x s r (irqStackTop irqStacks i) t) (hij : i ≠ j) :
    Regs.ofMemory t.mem (frameOf irqStacks j) = Regs.ofMemory s.mem (frameOf irqStacks j) := by
  refine Regs.ofMemory_eq.mpr ((wordsAt_congr fun n hn => ?_).trans (Regs.words_ofMemory _ _).symm)
  rw [h.mem, irqStackTop_aligned haligned, frameOf_eq haligned]
  exact pushAll_outside _ _ fun k hpos hk => stack_ne hij hn hpos hk

end Frames

/-! ## Steps -/

/-- An exception that is being handled. -/
structure Pending where
  exception : Exception
  /-- what it interrupted -/
  context : Context
  /-- the stack that its routine runs on -/
  slot : Fin 7
  /-- whether a later exception took that stack -/
  taken : Bool

/-- The processor, and the exceptions that are being handled, the innermost one first. -/
structure NestState where
  cpu : Cpu
  pending : List Pending

/-- What can happen while exceptions are handled. -/
inductive NestEvent
  | enter (x : Exception)
  | work
  | leave

/-- One event: an exception arrives and its routine gets to its call; code runs that leaves the
structures of the pending exceptions as they are; or the innermost exception's routine runs from its
call to its end. -/
inductive NestStep (sys : System) (code : Routine → BitVec 64) :
    NestState → NestEvent → NestState → Prop
  | enter {s : NestState} {x : Exception} {m : Cpu} {r : Routine} {i : Fin 7} :
      sys.deliver x s.cpu = some m → m.rip = code r → slotOf x.vector = some i →
      NestStep sys code s (.enter x)
        ⟨m.run r.body.entry, ⟨x, s.cpu.toContext, i, false⟩ ::
          s.pending.map fun p => { p with taken := p.taken || p.slot == i }⟩
  | work {s : NestState} {t : Cpu} :
      (∀ p ∈ s.pending, Regs.ofMemory t.mem (frameOf sys.addresses.gBspIrqStacks p.slot) =
        Regs.ofMemory s.cpu.mem (frameOf sys.addresses.gBspIrqStacks p.slot)) →
      NestStep sys code s .work ⟨t, s.pending⟩
  | leave {s : NestState} {p : Pending} {rest : List Pending} {r : Routine} :
      s.pending = p :: rest → routineOf p.exception.vector = some r →
      s.cpu.rsp = frameOf sys.addresses.gBspIrqStacks p.slot →
      NestStep sys code s .leave ⟨s.cpu.run r.body.exit, rest⟩

/-- The structures of the pending exceptions whose stack was not taken hold what they
interrupted. -/
def Intact (irqStacks : BitVec 64) (s : NestState) : Prop :=
  ∀ p ∈ s.pending, p.taken = false →
    Regs.ofMemory s.cpu.mem (frameOf irqStacks p.slot) = p.exception.regs p.context

section Nest

variable {addresses : Addresses} {code : Routine → BitVec 64} {gGdt : ℕ → GdtDescriptor}
  {storage : Idt} {sys : System}

/-- The end of a routine writes no memory. -/
theorem mem_run_restoreRegisters (s : Cpu) : (s.run restoreRegisters).mem = s.mem := by
  have hpops : restoreRegisters = Reg.all.map .pop ++ [.addRsp 0x10, .iretq] := rfl
  rw [hpops, Cpu.run_append, Cpu.run_pop _ _ (by decide)]
  rfl

/-- An exception arrives on the stack of its vector. -/
theorem entered_slot (hboot : System.boot addresses code gGdt storage = .ok sys)
    (hcode : Function.Injective code) {x : Exception} {s m : Cpu} {r : Routine} {i : Fin 7}
    (hm : sys.deliver x s = some m) (hrip : m.rip = code r) (hi : slotOf x.vector = some i) :
    Entered x s r (irqStackTop addresses.gBspIrqStacks i) (m.run r.body.entry) := by
  obtain ⟨h, hh, hfunction⟩ := Option.bind_eq_some_iff.mp (routineOf_eq hboot hcode hm hrip)
  have hslot : h.stack.slot = some i := by
    rw [slotOf, hh] at hi
    exact hi
  obtain ⟨gate, hgate⟩ : ∃ gate, h.gate code = some gate := by
    rw [DefaultHandler.gate, hfunction]
    exact ⟨_, rfl⟩
  rw [deliver_boot hboot, hh] at hm
  simp only [Option.bind_some, hgate, hslot, Option.map_some, Option.some.injEq] at hm
  rw [← hm]
  exact entered hh hfunction s gate _

/-- Every step keeps the structures that it does not take the stack of. -/
theorem Intact.step (hboot : System.boot addresses code gGdt storage = .ok sys)
    (hcode : Function.Injective code) (haligned : addresses.gBspIrqStacks.toNat % 64 = 0)
    {s t : NestState} {e : NestEvent} (hs : Intact addresses.gBspIrqStacks s)
    (hstep : NestStep sys code s e t) : Intact addresses.gBspIrqStacks t := by
  have haddresses : sys.addresses = addresses := (boot_spec hboot).1
  cases hstep with
  | @enter x m r i hm hrip hi =>
    have hentered := entered_slot hboot hcode hm hrip hi
    intro p hp htaken
    rcases List.mem_cons.mp hp with rfl | hp
    · have hrsp : (m.run r.body.entry).rsp = frameOf addresses.gBspIrqStacks i := hentered.rsp
      rw [← hentered.regs, hrsp]
    · obtain ⟨q, hq, rfl⟩ := List.mem_map.mp hp
      obtain ⟨hq', hslot⟩ : q.taken = false ∧ q.slot ≠ i := by simpa using htaken
      exact (hentered.frame haligned hslot.symm).trans (hs q hq hq')
  | work hkept =>
    intro p hp htaken
    rw [haddresses] at hkept
    exact (hkept p hp).trans (hs p hp htaken)
  | @leave p rest r hpending hr hrsp =>
    intro q hq htaken
    rw [exit_of_routine hr, mem_run_restoreRegisters]
    exact hs q (hpending ▸ List.mem_cons_of_mem p hq) htaken

/-- Whatever exceptions arrive while an exception is handled, it leaves to the context that it
interrupted, unless one of them took its stack. -/
theorem leave_context (hboot : System.boot addresses code gGdt storage = .ok sys)
    (hcode : Function.Injective code) (haligned : addresses.gBspIrqStacks.toNat % 64 = 0)
    {s : Cpu} {es : List NestEvent} {t u : NestState} {p : Pending} {rest : List Pending}
    (hrun : Run (NestStep sys code) ⟨s, []⟩ es t) (hpending : t.pending = p :: rest)
    (htaken : p.taken = false) (hleave : NestStep sys code t .leave u) :
    u.cpu.toContext = p.context ∧ u.pending = rest := by
  have haddresses : sys.addresses = addresses := (boot_spec hboot).1
  have hintact : Intact addresses.gBspIrqStacks t :=
    hrun.preserves (fun _ _ _ hs hstep => hs.step hboot hcode haligned hstep) (by simp [Intact])
  cases hleave with
  | @leave q rest' r hq hr hrsp =>
    obtain ⟨rfl, rfl⟩ := List.cons.inj (hpending.symm.trans hq)
    refine ⟨?_, rfl⟩
    have hregs := hintact p (hpending ▸ List.mem_cons_self) htaken
    rw [exit_of_routine hr, run_restoreRegisters, hrsp, haddresses, hregs]
    rfl

/-- A non-maskable interrupt in the middle of a page fault leaves to the page fault's routine. -/
theorem leave_context_nmi :
    let s : Cpu := ⟨⟨fun _ => 0, 0x400000, 0x2B, 0x202, 0x7FF000, 0x23⟩, 0x1234, fun _ => 0⟩
    ∃ sys t p q u, System.boot ⟨0xFFFFFFFF80400000, 0xFFFFFFFF80400400, 0xFFFFFFFF80401000⟩
        spacedCode (fun _ => ⟨0, 0, 0, 0, 0, 0⟩) (fun _ => ⟨0, 0, 0, 0, 0, 0, 0⟩) = .ok sys ∧
      Run (NestStep sys spacedCode) ⟨s, []⟩ [.enter ⟨14, 4⟩, .enter ⟨2, 0⟩] t ∧
        t.pending = [p, q] ∧ NestStep sys spacedCode t .leave u ∧
          u.cpu.toContext = p.context ∧ u.pending = [q] := by
  intro s
  obtain ⟨sys, hboot, haddresses, -⟩ := boot_eq
    ⟨0xFFFFFFFF80400000, 0xFFFFFFFF80400400, 0xFFFFFFFF80401000⟩ spacedCode
    (fun _ => ⟨0, 0, 0, 0, 0, 0⟩) (fun _ => ⟨0, 0, 0, 0, 0, 0, 0⟩)
  have hinjective := spacedCode_injective
  have hfirst : routineOf (Exception.mk 14 4).vector = some .pagefault := by decide
  have hsecond : routineOf (Exception.mk 2 0).vector = some .nmi := by decide
  obtain ⟨m, -, hm, hrip, -⟩ := exists_delivery hboot hfirst s
  set outer := m.run Routine.pagefault.body.entry
  obtain ⟨m', -, hm', hrip', -⟩ := exists_delivery hboot hsecond outer
  have hentered := entered_slot hboot hinjective hm' hrip' (show slotOf 2 = some 2 by decide)
  have hrun : Run (NestStep sys spacedCode) ⟨s, []⟩ [.enter ⟨14, 4⟩, .enter ⟨2, 0⟩]
      ⟨m'.run Routine.nmi.body.entry, [⟨⟨2, 0⟩, outer.toContext, 2, false⟩,
        ⟨⟨14, 4⟩, s.toContext, 6, false⟩]⟩ :=
    .cons (.enter hm hrip (by decide)) (.cons (.enter hm' hrip' (by decide)) (.nil _))
  have hleave : NestStep sys spacedCode ⟨m'.run Routine.nmi.body.entry,
      [⟨⟨2, 0⟩, outer.toContext, 2, false⟩, ⟨⟨14, 4⟩, s.toContext, 6, false⟩]⟩ .leave _ :=
    .leave rfl hsecond (by rw [haddresses]; exact hentered.rsp)
  exact ⟨sys, _, _, _, _, hboot, hrun, rfl, hleave,
    leave_context hboot hinjective (by decide) hrun rfl rfl hleave⟩

end Nest

end KushOs.Exceptions
