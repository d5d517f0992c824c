import KushOs.Kernel.Machine
import KushOs.Kernel.Memory.Exclusivity

/-!
# The pool as the physical allocator

Paging relies on `HandsOutFresh`. The pool keeps that promise as long as allocations are served in
range, so `poolAllocator` is the pool with that condition checked before each call; its states
carry the invariant of pool runs.

## Main results

* `poolAllocator_handsOutFresh`: the pool hands out fresh frames.
-/

namespace KushOs.Memory

/-- A pool over the registered ranges `specs` with the record of the held pages, in a state that a
run may reach. -/
abbrev ReachedPool (specs : List (BitVec 64 × ℕ)) := { s : PoolState // s.Inv specs }

/-- The pages that are held. -/
def heldPages {specs : List (BitVec 64 × ℕ)} (s : ReachedPool specs) : Set (BitVec 64) :=
  {a | a ∈ s.val.held}

/-- `AllocatePages` and `FreePages`. A request that is not served in range, or that frees what is
not held, is refused. -/
def poolAllocator (specs : List (BitVec 64 × ℕ)) : PhysicalAllocator (ReachedPool specs) where
  allocatePages s num buffer :=
    if h : num < 2 ^ 64 ∧ ServedInRange s.val (.allocatePages num buffer) then
      match hr : Memory.allocatePages s.val.pool num buffer with
      | .ok (count, out, pool) =>
          .ok (count, out, ⟨⟨pool, s.val.held ++ handedOut count out⟩,
            s.property.allocatePages h.2 h.1 hr⟩)
      | .error fault => .error fault
    else .error .panic
  freePages s addrs :=
    if h : addrs.Nodup ∧ ∀ a ∈ addrs, a ∈ s.val.held then
      match hr : Memory.freePages s.val.pool addrs with
      | .ok (count, pool) =>
          .ok (count, ⟨⟨pool, s.val.held.filter fun a => a ∉ addrs⟩,
            s.property.freePages h.1 h.2 hr⟩)
      | .error fault => .error fault
    else .error .panic

section

variable {specs : List (BitVec 64 × ℕ)} {s s' : ReachedPool specs} {count : ℤ}

/-- A request that is served in range is the one to the pool, with a record of its pages. -/
theorem poolAllocator_allocatePages_eq_ok {num : ℕ} {buffer out : AddrBuffer} :
    (poolAllocator specs).allocatePages s num buffer = .ok (count, out, s') ↔
      (num < 2 ^ 64 ∧ ServedInRange s.val (.allocatePages num buffer)) ∧
        Memory.allocatePages s.val.pool num buffer = .ok (count, out, s'.val.pool) ∧
        s'.val.held = s.val.held ++ handedOut count out := by
  unfold poolAllocator
  dsimp only
  constructor
  · intro h
    -- the guard is met, and the pool itself returned
    split at h
    swap
    · cases h
    next hcond =>
    split at h
    swap
    · cases h
    next hr =>
    simp only [Except.ok.injEq, Prod.mk.injEq] at h
    obtain ⟨rfl, rfl, rfl⟩ := h
    exact ⟨hcond, hr, rfl⟩
  · rintro ⟨hcond, hr, hheld⟩
    rw [dif_pos hcond]
    split
    next hr' =>
      obtain ⟨rfl, rfl, rfl⟩ : _ = count ∧ _ = out ∧ _ = s'.val.pool := by
        simpa using hr'.symm.trans hr
      simp only [← hheld]
    next hr' => cases hr'.symm.trans hr

/-- A release of held pages is the one of the pool, which takes them off the record. -/
theorem poolAllocator_freePages_eq_ok {addrs : List (BitVec 64)} :
    (poolAllocator specs).freePages s addrs = .ok (count, s') ↔
      (addrs.Nodup ∧ ∀ a ∈ addrs, a ∈ s.val.held) ∧
        Memory.freePages s.val.pool addrs = .ok (count, s'.val.pool) ∧
        s'.val.held = s.val.held.filter fun a => a ∉ addrs := by
  unfold poolAllocator
  dsimp only
  constructor
  · intro h
    -- the guard is met, and the pool itself returned
    split at h
    swap
    · cases h
    next hcond =>
    split at h
    swap
    · cases h
    next hr =>
    simp only [Except.ok.injEq, Prod.mk.injEq] at h
    obtain ⟨rfl, rfl⟩ := h
    exact ⟨hcond, hr, rfl⟩
  · rintro ⟨hcond, hr, hheld⟩
    rw [dif_pos hcond]
    split
    next hr' =>
      obtain ⟨rfl, rfl⟩ : _ = count ∧ _ = s'.val.pool := by simpa using hr'.symm.trans hr
      simp only [← hheld]
    next hr' => cases hr'.symm.trans hr

end

/-- Frames that a caller can rely on: distinct page frames that no one holds. -/
def FreshFrames (held frames : List (BitVec 64)) : Prop :=
  frames.Nodup ∧ ∀ a ∈ frames, IsFrame a ∧ a ∉ held

/-- Decided by going through the list, not through all addresses. -/
instance (held frames : List (BitVec 64)) : Decidable (FreshFrames held frames) :=
  have : Decidable (∀ a ∈ frames, IsFrame a ∧ a ∉ held) := List.decidableBAll _ frames
  inferInstanceAs (Decidable (_ ∧ _))

/-- A request that is served in range is handed such frames, if physical addresses have at most 52
bits. -/
theorem PoolState.Inv.freshFrames {specs : List (BitVec 64 × ℕ)} {s : PoolState} {num : ℕ}
    {buffer out : AddrBuffer} {count : ℤ} {pool : Pool} (hinv : PoolState.Inv specs s)
    (hspecs : ∀ x ∈ specs, x.1.toNat + x.2 ≤ 2 ^ 52)
    (hserved : ServedInRange s (.allocatePages num buffer)) (hnum : num < 2 ^ 64)
    (h : Memory.allocatePages s.pool num buffer = .ok (count, out, pool)) :
    FreshFrames s.held (handedOut count out) := by
  -- the pages held afterwards are distinct, so the new ones are not among the old ones
  have hexcl := (hinv.allocatePages hserved hnum h).exclusive
  obtain ⟨-, hnodup, hne⟩ := List.nodup_append.mp hexcl.nodup
  refine ⟨hnodup, fun a ha => ⟨⟨hexcl.aligned a (List.mem_append_right _ ha), ?_⟩,
    fun hold => hne a hold a ha rfl⟩⟩
  obtain ⟨spec, hspec, -, hlt⟩ := hexcl.inRange a (List.mem_append_right _ ha)
  exact hlt.trans_le (hspecs spec hspec)

/-- The pool hands out fresh frames, if physical addresses have at most 52 bits. -/
theorem poolAllocator_handsOutFresh {specs : List (BitVec 64 × ℕ)}
    (hspecs : ∀ x ∈ specs, x.1.toNat + x.2 ≤ 2 ^ 52) :
    HandsOutFresh (poolAllocator specs) heldPages where
  allocate {s s' num buffer out count} h := by
    obtain ⟨hcond, hr, hheld⟩ := poolAllocator_allocatePages_eq_ok.mp h
    obtain ⟨hnodup, hframes⟩ := s.property.freshFrames hspecs hcond.2 hcond.1 hr
    refine ⟨hnodup, hframes, ?_⟩
    ext a
    change a ∈ s'.val.held ↔ _
    rw [hheld]
    exact List.mem_append
  free {s s' addrs count} h a ha hnot := by
    obtain ⟨-, -, hheld⟩ := poolAllocator_freePages_eq_ok.mp h
    change a ∈ s'.val.held
    rw [hheld]
    simpa [heldPages, hnot] using ha

/-- A small machine: sixteen pages of physical memory, the first of which holds the bitmap. -/
def smallRanges : List (BitVec 64 × ℕ) := [(0x100000#64, 0x10000)]

theorem boot_smallRanges :
    addRegions true (fun _ _ => 0) Pool.empty smallRanges = .ok (bootPool smallRanges) := rfl

/-- The small machine in early boot, with page tables that do not get an aperture. -/
def smallMachine : Machine (ReachedPool smallRanges) where
  mem _ := 0
  earlyBoot := true
  isFirstPageTable := true
  allocator := ⟨⟨bootPool smallRanges, []⟩,
    .of_addRegions boot_smallRanges (by decide) (List.pairwise_singleton _ _)⟩

theorem smallRanges_handsOutFresh : HandsOutFresh (poolAllocator smallRanges) heldPages :=
  poolAllocator_handsOutFresh (by decide)

/-- A larger machine, whose region recognises its first pages. -/
def largeRanges : List (BitVec 64 × ℕ) := [(0x100000#64, 0x2001000)]

theorem boot_largeRanges :
    addRegions true (fun _ _ => 0) Pool.empty largeRanges = .ok (bootPool largeRanges) := rfl

/-- It is in early boot, with page tables that do not get an aperture. -/
def largeMachine : Machine (ReachedPool largeRanges) where
  mem _ := 0
  earlyBoot := true
  isFirstPageTable := true
  allocator := ⟨⟨bootPool largeRanges, []⟩,
    .of_addRegions boot_largeRanges (by decide) (List.pairwise_singleton _ _)⟩

end KushOs.Memory
