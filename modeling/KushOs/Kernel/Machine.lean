import KushOs.Kernel.Memory.PoolRun
import Mathlib.Data.Nat.Bitwise
import Mathlib.Data.Set.Insert

/-!
# The machine state of the kernel

Kernel code runs in a state monad over physical memory and the global variables that paging uses;
`REQUIRE` and `PANIC` end it with a `Fault`.

The physical allocator behind it is a parameter: the page tables rely on what `AllocatePages`
promises, not on how regions keep their bitmaps. `HandsOutFresh` is that promise.

## Main definitions

* `PhysicalAllocator`, `HandsOutFresh`: the allocator and what its callers rely on.
* `Machine`, `KernelM`: the state and the monad.
* `Machine.Accessible`: the page frames that the kernel can reach.

## Main results

* `KernelM.bind_eq_ok`: a sequence of operations returns exactly when its parts do.
-/

namespace KushOs

open Memory

/-! ## The physical allocator -/

/-- The static functions of `PhysicalAllocator` that paging calls, on allocator states `σ`. -/
structure PhysicalAllocator (σ : Type) where
  /-- `AllocatePages`: the result, the caller's array and the new state. -/
  allocatePages : σ → ℕ → AddrBuffer → Except Fault (ℤ × AddrBuffer × σ)
  /-- `FreePages`: the result and the new state. -/
  freePages : σ → List (BitVec 64) → Except Fault (ℤ × σ)

/-- A page frame: page aligned, and within the 52 bits of a physical address. -/
def IsFrame (a : BitVec 64) : Prop := a.toNat % pageSize = 0 ∧ a.toNat < 2 ^ 52

instance (a : BitVec 64) : Decidable (IsFrame a) := inferInstanceAs (Decidable (_ ∧ _))

/-- The bits of a frame's address outside the page number are clear. -/
theorem IsFrame.getLsbD {a : BitVec 64} (h : IsFrame a) {i : ℕ} (hi : i < 12 ∨ 52 ≤ i) :
    a.getLsbD i = false := by
  obtain ⟨halign, hlt⟩ := h
  rw [← BitVec.testBit_toNat]
  rcases hi with hi | hi
  · have hbit := Nat.testBit_mod_two_pow a.toNat 12 i
    rw [show a.toNat % 2 ^ 12 = 0 from halign, Nat.zero_testBit] at hbit
    simpa [hi] using hbit.symm
  · exact Nat.testBit_lt_two_pow (hlt.trans_le (Nat.pow_le_pow_right (by omega) hi))

/-- What callers of the allocator rely on; `held` is the set of page frames that are handed out in
a state. -/
structure HandsOutFresh {σ : Type} (A : PhysicalAllocator σ) (held : σ → Set (BitVec 64)) :
    Prop where
  /-- The frames handed out are distinct, were not held, and are the only ones that become held. -/
  allocate : ∀ {s s' : σ} {n : ℕ} {buffer out : AddrBuffer} {count : ℤ},
    A.allocatePages s n buffer = .ok (count, out, s') →
      (handedOut count out).Nodup ∧ (∀ a ∈ handedOut count out, IsFrame a ∧ a ∉ held s) ∧
        held s' = held s ∪ {a | a ∈ handedOut count out}
  /-- Frames that are not named by the caller stay held. -/
  free : ∀ {s s' : σ} {addrs : List (BitVec 64)} {count : ℤ},
    A.freePages s addrs = .ok (count, s') → ∀ a ∈ held s, a ∉ addrs → a ∈ held s'

namespace PhysicalAllocator

variable {σ : Type}

/-- While the state is `good`, `A'` hands out what `A` does. -/
def Agree (good : σ → Prop) (A A' : PhysicalAllocator σ) : Prop :=
  ∀ {s s' : σ} {n : ℕ} {buffer out : AddrBuffer} {count : ℤ},
    A.allocatePages s n buffer = .ok (count, out, s') → good s' →
      good s ∧ A'.allocatePages s n buffer = .ok (count, out, s')

/-- An allocator whose allocations keep a property agrees with itself while it does not hold. -/
theorem Agree.of_keeps {A : PhysicalAllocator σ} {inv : σ → Prop}
    (hA : ∀ {s s' : σ} {n : ℕ} {buffer out : AddrBuffer} {count : ℤ},
      A.allocatePages s n buffer = .ok (count, out, s') → inv s → inv s') :
    Agree (fun s => ¬ inv s) A A :=
  fun halloc hnot => ⟨fun hinv => hnot (hA halloc hinv), halloc⟩

end PhysicalAllocator

/-! ## Machine states -/

/-- Physical memory and the global variables that paging depends on. -/
structure Machine (σ : Type) where
  /-- The 64-bit word at a physical address. -/
  mem : BitVec 64 → BitVec 64
  /-- `PhysicalMap::gIsEarlyBoot`. -/
  earlyBoot : Bool
  /-- `isFirstPageTable`: whether a page table has been constructed. -/
  isFirstPageTable : Bool
  /-- State of the physical allocator. -/
  allocator : σ

/-- Kernel code: it changes the machine and returns a value, or it fails. -/
abbrev KernelM (σ : Type) := StateT (Machine σ) (Except Fault)

namespace KernelM

variable {σ α β : Type}

/-- `REQUIRE(cond, …)`. -/
def requireM (cond : Bool) : KernelM σ Unit := fun m => do
  require cond
  return ((), m)

/-- `PhysicalAllocator::AllocatePages`, as called from kernel code. -/
def allocatePages (A : PhysicalAllocator σ) (n : ℕ) (buffer : AddrBuffer) :
    KernelM σ (ℤ × AddrBuffer) := fun m => do
  let (count, out, s) ← A.allocatePages m.allocator n buffer
  return ((count, out), { m with allocator := s })

/-- `PhysicalAllocator::FreePages`, as called from kernel code. -/
def freePages (A : PhysicalAllocator σ) (addrs : List (BitVec 64)) : KernelM σ ℤ := fun m => do
  let (count, s) ← A.freePages m.allocator addrs
  return (count, { m with allocator := s })

/-- A value leaves the machine as it is. -/
@[simp]
theorem pure_eq_ok {a b : α} {m m' : Machine σ} :
    (pure a : KernelM σ α) m = .ok (b, m') ↔ a = b ∧ m = m' := by
  change Except.ok (a, m) = Except.ok (b, m') ↔ a = b ∧ m = m'
  rw [Except.ok.injEq, Prod.mk.injEq]

/-- A sequence returns exactly when its parts do. -/
theorem bind_eq_ok {x : KernelM σ α} {f : α → KernelM σ β} {m m'' : Machine σ} {b : β} :
    (x >>= f) m = .ok (b, m'') ↔ ∃ a m', x m = .ok (a, m') ∧ f a m' = .ok (b, m'') := by
  simp only [bind, StateT.bind, Except.bind]
  cases hx : x m with
  | error e => simp
  | ok am =>
    obtain ⟨a, m'⟩ := am
    simp

/-- What follows an operation that returned. -/
theorem bind_of_ok {x : KernelM σ α} {f : α → KernelM σ β} {m m' : Machine σ} {a : α}
    (h : x m = .ok (a, m')) : (x >>= f) m = f a m' := by
  simp only [bind, StateT.bind, Except.bind, h]

/-- Whether `x` returns a value with `p`. -/
def returns (x : KernelM σ α) (m : Machine σ) (p : α → Bool) : Bool :=
  match x m with
  | .ok (a, _) => p a
  | .error _ => false

/-- What a run that has been evaluated shows. -/
theorem exists_of_returns {x : KernelM σ α} {m : Machine σ} {p : α → Bool}
    (h : returns x m p = true) : ∃ a m', x m = .ok (a, m') ∧ p a = true := by
  unfold returns at h
  split at h
  next a m' hx => exact ⟨a, m', hx, h⟩
  next => cases h

@[simp]
theorem get_bind {f : Machine σ → KernelM σ β} {m : Machine σ} : (get >>= f) m = f m m := rfl

@[simp]
theorem set_bind {f : PUnit → KernelM σ β} {m m' : Machine σ} : (set m' >>= f) m = f ⟨⟩ m' := rfl

@[simp]
theorem modify_eq {f : Machine σ → Machine σ} {m : Machine σ} :
    (modify f : KernelM σ Unit) m = .ok ((), f m) := rfl

/-- A modification returns the modified machine. -/
@[simp]
theorem modify_eq_ok {f : Machine σ → Machine σ} {u : Unit} {m m' : Machine σ} :
    (modify f : KernelM σ Unit) m = .ok (u, m') ↔ f m = m' := by
  simp [modify_eq]

/-- A `REQUIRE` that holds does nothing. -/
theorem requireM_of_true {cond : Bool} {m : Machine σ} (h : cond = true) :
    requireM cond m = .ok ((), m) := by
  simp [requireM, require, h, bind, Except.bind, pure, Except.pure]

/-- A `REQUIRE` returns if its condition holds. -/
@[simp]
theorem requireM_eq_ok {cond : Bool} {u : Unit} {m m' : Machine σ} :
    requireM cond m = .ok (u, m') ↔ cond = true ∧ m = m' := by
  cases cond <;> simp [requireM, require, bind, Except.bind, pure, Except.pure]

/-- An allocation changes the state of the allocator only. -/
@[simp]
theorem allocatePages_eq_ok {A : PhysicalAllocator σ} {n : ℕ} {buffer : AddrBuffer}
    {m m' : Machine σ} {r : ℤ × AddrBuffer} :
    allocatePages A n buffer m = .ok (r, m') ↔
      ∃ s, A.allocatePages m.allocator n buffer = .ok (r.1, r.2, s) ∧
        { m with allocator := s } = m' := by
  obtain ⟨count, out⟩ := r
  simp only [allocatePages, bind, Except.bind, pure, Except.pure]
  rcases A.allocatePages m.allocator n buffer with e | ⟨count', out', s⟩
  · simp
  · simp [and_assoc]

/-- A release changes the state of the allocator only. -/
@[simp]
theorem freePages_eq_ok {A : PhysicalAllocator σ} {addrs : List (BitVec 64)} {m m' : Machine σ}
    {count : ℤ} :
    freePages A addrs m = .ok (count, m') ↔
      ∃ s, A.freePages m.allocator addrs = .ok (count, s) ∧ { m with allocator := s } = m' := by
  simp only [freePages, bind, Except.bind, pure, Except.pure]
  rcases A.freePages m.allocator addrs with e | ⟨count', s⟩
  · simp
  · simp [and_assoc]

/-- If the operation returns, the allocator's state has `inv` if it had before. -/
def KeepsAllocator (inv : σ → Prop) (x : KernelM σ α) : Prop :=
  ∀ m a m', x m = .ok (a, m') → inv m.allocator → inv m'.allocator

namespace KeepsAllocator

variable {inv : σ → Prop}

/-- Operations that do not use the allocator. -/
theorem of_eq {x : KernelM σ α}
    (h : ∀ m a m', x m = .ok (a, m') → m'.allocator = m.allocator) : KeepsAllocator inv x :=
  fun m a m' hx hm => (h m a m' hx).symm ▸ hm

theorem pure (a : α) : KeepsAllocator inv (Pure.pure a : KernelM σ α) :=
  of_eq fun _ _ _ h => by rw [(pure_eq_ok.mp h).2]

theorem bind {x : KernelM σ α} {f : α → KernelM σ β} (hx : KeepsAllocator inv x)
    (hf : ∀ a, KeepsAllocator inv (f a)) : KeepsAllocator inv (x >>= f) := by
  intro m b m'' h hm
  obtain ⟨a, m', hxa, hfa⟩ := bind_eq_ok.mp h
  exact hf a m' b m'' hfa (hx m a m' hxa hm)

theorem get : KeepsAllocator inv (MonadState.get : KernelM σ (Machine σ)) :=
  of_eq fun _ _ _ h => by rw [(pure_eq_ok.mp h).2]

theorem requireM (cond : Bool) : KeepsAllocator inv (requireM cond : KernelM σ Unit) :=
  of_eq fun _ _ _ h => by rw [(requireM_eq_ok.mp h).2]

theorem modify {f : Machine σ → Machine σ} (hf : ∀ m, (f m).allocator = m.allocator) :
    KeepsAllocator inv (modify f : KernelM σ Unit) :=
  of_eq fun m _ _ h => by rw [← modify_eq_ok.mp h, hf]

/-- Allocations keep what `AllocatePages` keeps. -/
theorem allocatePages {A : PhysicalAllocator σ}
    (hA : ∀ {s s' : σ} {n : ℕ} {buffer out : AddrBuffer} {count : ℤ},
      A.allocatePages s n buffer = .ok (count, out, s') → inv s → inv s')
    (n : ℕ) (buffer : AddrBuffer) : KeepsAllocator inv (allocatePages A n buffer) := by
  intro m r m' h hm
  obtain ⟨s, hs, rfl⟩ := allocatePages_eq_ok.mp h
  exact hA hs hm

end KeepsAllocator

/-- While the allocator's state is `good`, the operations do the same: what the first one returns in
a good state, the second one returns as well, and the state was good before. -/
def Agree (good : σ → Prop) (x x' : KernelM σ α) : Prop :=
  ∀ m a m', x m = .ok (a, m') → good m'.allocator → good m.allocator ∧ x' m = .ok (a, m')

namespace Agree

variable {good inv : σ → Prop}

/-- An operation that keeps every property of the allocator's state agrees with itself. -/
theorem of_keeps {x : KernelM σ α} (h : ∀ inv, KeepsAllocator inv x) : Agree good x x := by
  intro m a m' hx hgood
  have hsame : m'.allocator = m.allocator := h (· = m.allocator) m a m' hx rfl
  exact ⟨hsame ▸ hgood, hx⟩

theorem pure (a : α) : Agree good (Pure.pure a : KernelM σ α) (Pure.pure a) :=
  of_keeps fun _ => .pure a

theorem bind {x x' : KernelM σ α} {f f' : α → KernelM σ β} (hx : Agree good x x')
    (hf : ∀ a, Agree good (f a) (f' a)) : Agree good (x >>= f) (x' >>= f') := by
  intro m b m'' h hgood
  obtain ⟨a, m', hxa, hfa⟩ := bind_eq_ok.mp h
  obtain ⟨hgood', hfa'⟩ := hf a m' b m'' hfa hgood
  obtain ⟨hgood, hxa'⟩ := hx m a m' hxa hgood'
  exact ⟨hgood, bind_eq_ok.mpr ⟨a, m', hxa', hfa'⟩⟩

theorem allocatePages {A A' : PhysicalAllocator σ} (hA : A.Agree good A') (n : ℕ)
    (buffer : AddrBuffer) : Agree good (allocatePages A n buffer) (allocatePages A' n buffer) := by
  intro m r m' h hgood
  obtain ⟨s, hs, rfl⟩ := allocatePages_eq_ok.mp h
  obtain ⟨hgood, hs'⟩ := hA hs hgood
  exact ⟨hgood, allocatePages_eq_ok.mpr ⟨s, hs', rfl⟩⟩

/-- Operations that agree while a property does not hold keep it. -/
theorem keeps {x x' : KernelM σ α} (h : Agree (fun s => ¬ inv s) x x') : KeepsAllocator inv x := by
  intro m a m' hx hinv
  by_contra hnot
  exact (h m a m' hx hnot).1 hinv

end Agree

end KernelM

namespace Machine

variable {σ : Type}

/-- The frame at `a` is one that the kernel can reach: in the identity-mapped low memory during
early boot, in the aperture afterwards. -/
def Accessible (m : Machine σ) (a : BitVec 64) : Prop :=
  if m.earlyBoot then a < 0x100000000#64 else a < physApertureLen - BitVec.ofNat 64 pageSize

instance (m : Machine σ) (a : BitVec 64) : Decidable (m.Accessible a) :=
  inferInstanceAs (Decidable (ite _ _ _))

end Machine

end KushOs
