import KushOs.Foundation.TranslationCache
import KushOs.Kernel.Vm.VAllocRun
import Mathlib.Control.Monad.Writer

/-!
# Translation lookaside buffers

The page allocator frees a range in three steps: it unmaps the pages, invalidates the TLB for them,
and only then gives the physical pages back. Here the code of `Alloc` and `Free` records the
contents of the page tables after each change, the `INVLPG` instructions, and the physical pages
that it gives back, and so tells what a processor may hold in its TLB meanwhile. `VAlloc`
invalidates nothing: the pages that it maps were not mapped before. The tables are recorded after
every call of `mapPage` and `unmapPage`, of which only the last store changes translations.

`Map::doTlbShootdown` is not implemented, so other processors keep what they hold.

## Main definitions

* `Map.invalidateTlb`, `PageTable.invalidateTlb`: the code.
* `TracedM`, `Traced.alloc`, `Traced.free`: the page allocator, with what it does to TLBs.
* `TracedStep`: calls with their traces.

## Main results

* `Traced.alloc_erases`, `Traced.free_erases`: without the traces these are `Alloc` and `Free`.
* `released_frames_unreachable`: in every run no processor that invalidates its TLB reaches physical
  pages when they are given back.
* `shootdown_missing`: another one does.
-/

namespace KushOs.Vm

open Memory RadixTable KernelM PageTable PageAllocator Transition TranslationCache

/-! ## Traces -/

/-- What the code does that matters to a TLB. -/
inductive TlbEvent (σ : Type)
  /-- The page tables were changed to those of this machine. -/
  | tables (m : Machine σ)
  /-- `INVLPG`. -/
  | invlpg (address : BitVec 64)
  /-- These physical pages are given to `FreePages`. -/
  | release (pages : List (BitVec 64))

/-- Kernel code that records events. -/
abbrev TracedM (σ : Type) := WriterT (List (TlbEvent σ)) (KernelM σ)

variable {σ α β : Type} {A : PhysicalAllocator σ} {held : σ → Set (BitVec 64)}
variable {m m' m'' : Machine σ} {roots : List (BitVec 64)} {label : Labels (BitVec 64) Index}
variable {pt : PageTable} {g : PageAllocator} {es : List (TlbEvent σ)}

/-- Record nothing. -/
def silent (x : KernelM σ α) : TracedM σ α :=
  WriterT.mk do
    let a ← x
    return (a, [])

/-- Record the page tables that an operation leaves. -/
def observed (x : KernelM σ α) : TracedM σ α :=
  WriterT.mk do
    let a ← x
    let m ← get
    return (a, [.tables m])

/-- `Kernel::Vm::TlbInvalidateHint`: a combination of flags. -/
abbrev TlbInvalidateHint := BitVec 64

namespace TlbInvalidateHint

/-- Bit mask for the TLBs that are invalidated. -/
def maskInvalidate : TlbInvalidateHint := 0b11111111
/-- Invalidate the local TLB. -/
def invalidateLocal : TlbInvalidateHint := 1 <<< 0
/-- Invalidate the TLBs of remote processors. -/
def invalidateRemote : TlbInvalidateHint := 1 <<< 1
/-- Invalidate all TLBs. -/
def invalidateAll : TlbInvalidateHint := invalidateLocal ||| invalidateRemote
/-- The region was unmapped. -/
def unmapped : TlbInvalidateHint := 1 <<< 8

/-- `TestFlags(hints & mask)`. -/
def test (hints mask : TlbInvalidateHint) : Bool := hints &&& mask != 0

end TlbInvalidateHint

/-- `PageTable::invalidateTlb`. -/
def PageTable.invalidateTlb (virt : BitVec 64) (length : ℕ) : TracedM σ ℤ := do
  let numPages := nearestPageSize length / pageSize
  tell ((List.range numPages).map fun i => .invlpg (virt + BitVec.ofNat 64 (i * pageSize)))
  return 0

namespace Map

/-- `Map::doTlbShootdown`, which is not implemented. -/
def doTlbShootdown (_virtualAddr : BitVec 64) (_length : ℕ) (_hints : TlbInvalidateHint) :
    TracedM σ ℤ :=
  return 0

/-- `Map::invalidateTlb`. -/
def invalidateTlb (virtualAddr : BitVec 64) (length : ℕ) (hints : TlbInvalidateHint) :
    TracedM σ ℤ := do
  if !hints.test .maskInvalidate then return 0
  else
    let err ← (if hints.test .invalidateLocal then PageTable.invalidateTlb virtualAddr length
      else pure 0)
    if err < 0 then return err
    else
      let err ← (if hints.test .invalidateRemote then doTlbShootdown virtualAddr length hints
        else pure 0)
      if err < 0 then return err else return 0

end Map

namespace Traced

/-- `PhysicalAllocator::FreePages`. -/
def freePages (A : PhysicalAllocator σ) (addrs : List (BitVec 64)) : TracedM σ ℤ := do
  tell [.release addrs]
  silent (KernelM.freePages A addrs)

/-- `PhysicalAllocator::FreePages(num, phys)`. -/
def freePrefix (A : PhysicalAllocator σ) (num : ℕ) (phys : AddrBuffer) : TracedM σ ℤ :=
  if num ≤ kMaxAllocPages then freePages A ((List.range num).map phys)
  else silent fun _ => .error .overrun

/-- The loop of `Alloc`. -/
def mapLoop (A : PhysicalAllocator σ) (pt : PageTable) (phys : AddrBuffer) (virt : BitVec 64)
    (i : ℕ) : ℕ → TracedM σ Unit
  | 0 => return ()
  | n + 1 => do
      let err ← observed (PageTable.mapPage A pt (phys i) virt Mode.kernelRW)
      silent (requireM (err == 0))
      mapLoop A pt phys (virt + BitVec.ofNat 64 pageSize) (i + 1) n

/-- `PageAllocator::Alloc`. -/
def alloc (A : PhysicalAllocator σ) (pt : PageTable) (g : PageAllocator) (length : ℕ) :
    TracedM σ (BitVec 64 × PageAllocator) := do
  let pageLength := nearestPageSize length
  let pageLengthWithGuards := BitVec.ofNat 64 (pageLength + kNumGuardPages * pageSize)
  let cursorEnd := g.gAllocCursor + pageLengthWithGuards
  silent (requireM (cursorEnd < vAllocEnd && g.gAllocCursor < cursorEnd))
  let numPages := pageLength / pageSize
  let (err, phys) ← silent (allocatePages A numPages fun _ => 0)
  if err < -1 then return (0, g)
  else if toSize err ≠ numPages then
    let _ ← freePrefix A (toSize err) phys
    return (0, g)
  else
    mapLoop A pt phys g.gAllocCursor 0 numPages
    return (g.gAllocCursor,
      { gAllocCursor := g.gAllocCursor + pageLengthWithGuards
        gPagesAllocated := g.gPagesAllocated + BitVec.ofNat 64 numPages })

/-- The loop of `PageTable::unmap`. -/
def unmapLoop (pt : PageTable) (virt : BitVec 64) : ℕ → TracedM σ ℤ
  | 0 => return 0
  | n + 1 => do
      let err ← observed (unmapPage pt virt true)
      if err < 0 then return err
      else unmapLoop pt (virt + BitVec.ofNat 64 pageSize) n

/-- `PageTable::unmap`. -/
def unmap (pt : PageTable) (virt : BitVec 64) (length : ℕ) : TracedM σ ℤ :=
  if virt = 0 ∨ virt.toNat % pageSize ≠ 0 ∨ length = 0 ∨ length % pageSize ≠ 0 then return -1
  else unmapLoop pt virt (length / pageSize)

/-- `PageAllocator::Free`. -/
def free (A : PhysicalAllocator σ) (pt : PageTable) (g : PageAllocator) (ptr : BitVec 64)
    (length : ℕ) : TracedM σ PageAllocator := do
  silent (requireM (ptr != 0 && length != 0))
  silent (requireM (ptr.toNat % pageSize == 0))
  let pageLength := nearestPageSize length
  let numPages := pageLength / pageSize
  let phys ← silent (physLoop pt ptr numPages)
  let err ← unmap pt ptr pageLength
  silent (requireM (err == 0))
  let err ← Map.invalidateTlb ptr pageLength (.invalidateAll ||| .unmapped)
  silent (requireM (err == 0))
  let err ← freePages A phys
  silent (requireM (toSize err == numPages))
  return { g with gPagesAllocated := g.gPagesAllocated - BitVec.ofNat 64 numPages }

end Traced

/-! ## Runs of traced code -/

namespace TracedM

variable {x : TracedM σ α} {f : α → TracedM σ β} {y : KernelM σ α} {k : α → KernelM σ β}

/-- A sequence returns exactly when its parts do, and records the events of both. -/
theorem run_bind_eq_ok {b : β} :
    (x >>= f).run m = .ok ((b, es), m'') ↔ ∃ a es₁ m' es₂, x.run m = .ok ((a, es₁), m') ∧
      (f a).run m' = .ok ((b, es₂), m'') ∧ es₁ ++ es₂ = es := by
  change (x.run >>= fun aw => (f aw.1).run >>= fun bw => pure (bw.1, aw.2 ++ bw.2) :
    KernelM σ (β × List (TlbEvent σ))) m = _ ↔ _
  rw [bind_eq_ok]
  constructor
  · rintro ⟨⟨a, es₁⟩, m', hx, hf⟩
    obtain ⟨⟨b', es₂⟩, m₂, hfa, hret⟩ := bind_eq_ok.mp hf
    obtain ⟨hpair, rfl⟩ := pure_eq_ok.mp hret
    obtain ⟨rfl, rfl⟩ := Prod.mk.inj hpair
    exact ⟨a, es₁, m', es₂, hx, hfa, rfl⟩
  · rintro ⟨a, es₁, m', es₂, hx, hf, rfl⟩
    exact ⟨(a, es₁), m', hx, bind_eq_ok.mpr ⟨(b, es₂), m'', hf, pure_eq_ok.mpr ⟨rfl, rfl⟩⟩⟩

/-- A value has no event. -/
theorem run_pure_eq_ok {a b : α} :
    (pure a : TracedM σ α).run m = .ok ((b, es), m') ↔ a = b ∧ [] = es ∧ m = m' := by
  change (pure (a, []) : KernelM σ (α × List (TlbEvent σ))) m = _ ↔ _
  rw [pure_eq_ok, Prod.mk.injEq, and_assoc]

/-- A silent computation has no event. -/
theorem run_silent_eq_ok {b : α} :
    (silent y).run m = .ok ((b, es), m') ↔ y m = .ok (b, m') ∧ es = [] := by
  change (y >>= fun a => pure (a, []) : KernelM σ (α × List (TlbEvent σ))) m = _ ↔ _
  rw [bind_eq_ok]
  constructor
  · rintro ⟨a, m₁, hy, hret⟩
    obtain ⟨hpair, rfl⟩ := pure_eq_ok.mp hret
    obtain ⟨rfl, rfl⟩ := Prod.mk.inj hpair
    exact ⟨hy, rfl⟩
  · rintro ⟨hy, rfl⟩
    exact ⟨b, m', hy, pure_eq_ok.mpr ⟨rfl, rfl⟩⟩

/-- Events leave the machine as it is. -/
theorem run_tell_eq_ok {u : Unit} {fs : List (TlbEvent σ)} :
    (tell fs : TracedM σ PUnit).run m = .ok ((u, es), m') ↔ fs = es ∧ m = m' := by
  change (pure ((), fs) : KernelM σ (Unit × List (TlbEvent σ))) m = _ ↔ _
  rw [pure_eq_ok, Prod.mk.injEq]
  simp

/-- The only event of an observed computation is the state of the tables after it. -/
theorem run_observed_eq_ok {b : α} :
    (observed y).run m = .ok ((b, es), m') ↔ y m = .ok (b, m') ∧ es = [.tables m'] := by
  change (y >>= fun a => get >>= fun m => pure (a, [TlbEvent.tables m]) : KernelM σ _) m = _ ↔ _
  rw [bind_eq_ok]
  constructor
  · rintro ⟨a, m₁, hy, hret⟩
    obtain ⟨hpair, rfl⟩ := pure_eq_ok.mp hret
    obtain ⟨rfl, rfl⟩ := Prod.mk.inj hpair
    exact ⟨hy, rfl⟩
  · rintro ⟨hy, rfl⟩
    exact ⟨b, m', hy, rfl⟩

/-- Code that records nothing comes first. -/
theorem run_silent_bind_eq_ok {b : β} :
    (silent y >>= f).run m = .ok ((b, es), m'') ↔
      ∃ a m', y m = .ok (a, m') ∧ (f a).run m' = .ok ((b, es), m'') := by
  rw [run_bind_eq_ok]
  constructor
  · rintro ⟨a, es₁, m', es₂, hy, hf, rfl⟩
    obtain ⟨hok, rfl⟩ := run_silent_eq_ok.mp hy
    exact ⟨a, m', hok, hf⟩
  · rintro ⟨a, m', hok, hf⟩
    exact ⟨a, [], m', es, run_silent_eq_ok.mpr ⟨hok, rfl⟩, hf, rfl⟩

/-- A check comes first. -/
theorem run_requireM_bind_eq_ok {cond : Bool} {b : β} {f : Unit → TracedM σ β} :
    (silent (requireM cond) >>= f).run m = .ok ((b, es), m'') ↔
      cond = true ∧ (f ()).run m = .ok ((b, es), m'') := by
  rw [run_silent_bind_eq_ok]
  constructor
  · rintro ⟨_, m', hcheck, hf⟩
    obtain ⟨hcond, rfl⟩ := requireM_eq_ok.mp hcheck
    exact ⟨hcond, hf⟩
  · rintro ⟨hcond, hf⟩
    exact ⟨(), m, requireM_of_true hcond, hf⟩

/-- An operation whose page tables are recorded comes first. -/
theorem run_observed_bind_eq_ok {b : β} :
    (observed y >>= f).run m = .ok ((b, es), m'') ↔
      ∃ a m' fs, y m = .ok (a, m') ∧ (f a).run m' = .ok ((b, fs), m'') ∧ .tables m' :: fs = es := by
  rw [run_bind_eq_ok]
  constructor
  · rintro ⟨a, es₁, m', es₂, hy, hf, rfl⟩
    obtain ⟨hok, rfl⟩ := run_observed_eq_ok.mp hy
    exact ⟨a, m', es₂, hok, hf, rfl⟩
  · rintro ⟨a, m', fs, hok, hf, rfl⟩
    exact ⟨a, _, m', fs, run_observed_eq_ok.mpr ⟨hok, rfl⟩, hf, rfl⟩

/-- Without what it records, `x` is `y`. -/
def Erases (x : TracedM σ α) (y : KernelM σ α) : Prop :=
  ∀ m b m', y m = .ok (b, m') ↔ ∃ es, x.run m = .ok ((b, es), m')

namespace Erases

protected theorem pure (a : α) : Erases (pure a : TracedM σ α) (pure a) := by
  intro m b m'
  rw [pure_eq_ok]
  simp only [run_pure_eq_ok]
  simp

protected theorem bind (hx : Erases x y) (hf : ∀ a, Erases (f a) (k a)) :
    Erases (x >>= f) (y >>= k) := by
  intro m b m''
  rw [bind_eq_ok]
  constructor
  · rintro ⟨a, m', hy, hk⟩
    obtain ⟨es₁, hx⟩ := (hx m a m').mp hy
    obtain ⟨es₂, hf⟩ := (hf a m' b m'').mp hk
    exact ⟨_, run_bind_eq_ok.mpr ⟨a, es₁, m', es₂, hx, hf, rfl⟩⟩
  · rintro ⟨es, h⟩
    obtain ⟨a, es₁, m', es₂, hrun, hrest, -⟩ := run_bind_eq_ok.mp h
    exact ⟨a, m', (hx m a m').mpr ⟨_, hrun⟩, (hf a m' b m'').mpr ⟨_, hrest⟩⟩

protected theorem silent (y : KernelM σ α) : Erases (silent y) y := by
  intro m b m'
  simp [run_silent_eq_ok]

protected theorem observed (y : KernelM σ α) : Erases (observed y) y := by
  intro m b m'
  simp [run_observed_eq_ok]

/-- Recording on the way changes nothing. -/
theorem tell_bind {fs : List (TlbEvent σ)} {x : TracedM σ α} (h : Erases x y) :
    Erases (tell fs >>= fun _ => x) y := by
  intro m b m'
  rw [h m b m']
  constructor
  · rintro ⟨es, hx⟩
    exact ⟨_, run_bind_eq_ok.mpr ⟨(), fs, m, es, run_tell_eq_ok.mpr ⟨rfl, rfl⟩, hx, rfl⟩⟩
  · rintro ⟨es, hx⟩
    obtain ⟨_, _, _, es₂, htell, hx, -⟩ := run_bind_eq_ok.mp hx
    obtain ⟨-, rfl⟩ := run_tell_eq_ok.mp htell
    exact ⟨es₂, hx⟩

end Erases

end TracedM

/-! ## The code without its traces -/

open TracedM

/-- The events of an invalidation: one `INVLPG` for each of `n` pages. -/
def invlpgs (virt : BitVec 64) (n : ℕ) : List (TlbEvent σ) :=
  (List.range n).map fun i => .invlpg (pageAt virt i)

/-- Rounding twice is rounding once. -/
theorem pagesFor_nearestPageSize (length : ℕ) :
    pagesFor (nearestPageSize length) = pagesFor length := by
  rw [← pagesFor_mul, pagesFor, nearestPageSize, if_neg (by simp), Nat.mul_div_cancel _ (by decide)]

/-- Every invalidation succeeds, and the local TLB is the only one that notices. -/
theorem Map.invalidateTlb_run (virt : BitVec 64) (length : ℕ) (hints : TlbInvalidateHint) :
    (Map.invalidateTlb virt length hints).run m =
      .ok ((0, if hints.test .invalidateLocal then invlpgs virt (pagesFor length) else []), m) := by
  have hmask : hints.test .maskInvalidate = false → hints.test .invalidateLocal = false := by
    simp only [TlbInvalidateHint.test, bne_eq_false_iff_eq]
    intro hzero
    have hpart : TlbInvalidateHint.invalidateLocal =
        .maskInvalidate &&& .invalidateLocal := by decide
    rw [hpart, ← BitVec.and_assoc, hzero]
    exact BitVec.zero_and
  have hlocal : (PageTable.invalidateTlb virt length : TracedM σ ℤ).run m =
      .ok ((0, invlpgs virt (pagesFor length)), m) :=
    run_bind_eq_ok.mpr ⟨(), _, m, [], run_tell_eq_ok.mpr ⟨rfl, rfl⟩,
      run_pure_eq_ok.mpr ⟨rfl, rfl, rfl⟩, List.append_nil _⟩
  unfold Map.invalidateTlb
  rcases hany : hints.test .maskInvalidate with _ | _
  · rw [hmask hany]
    exact run_pure_eq_ok.mpr ⟨rfl, rfl, rfl⟩
  rcases htest : hints.test .invalidateLocal with _ | _
  all_goals
    refine run_bind_eq_ok.mpr ⟨0, _, m, [], ?_, ?_, List.append_nil _⟩
    · first | exact hlocal | exact run_pure_eq_ok.mpr ⟨rfl, rfl, rfl⟩
    refine run_bind_eq_ok.mpr ⟨0, [], m, [], ?_, run_pure_eq_ok.mpr ⟨rfl, rfl, rfl⟩, rfl⟩
    cases hints.test .invalidateRemote <;> exact run_pure_eq_ok.mpr ⟨rfl, rfl, rfl⟩

namespace Traced

/-- Releasing frames has a recorded version. -/
theorem freePages_erases (A : PhysicalAllocator σ) (addrs : List (BitVec 64)) :
    Erases (Traced.freePages A addrs) (KernelM.freePages A addrs) :=
  (Erases.silent _).tell_bind

/-- So has the release of the first frames. -/
theorem freePrefix_erases (A : PhysicalAllocator σ) (num : ℕ) (phys : AddrBuffer) :
    Erases (Traced.freePrefix A num phys) (PageAllocator.freePrefix A num phys) := by
  unfold Traced.freePrefix PageAllocator.freePrefix
  split
  · exact freePages_erases A _
  · exact .silent _

/-- So has the loop that maps the pages of a request. -/
theorem mapLoop_erases (A : PhysicalAllocator σ) (pt : PageTable) (phys : AddrBuffer)
    (virt : BitVec 64) (i n : ℕ) :
    Erases (Traced.mapLoop A pt phys virt i n) (PageAllocator.mapLoop A pt phys virt i n) := by
  induction n generalizing virt i with
  | zero => exact .pure _
  | succ n ih =>
    exact (Erases.observed _).bind fun _ => (Erases.silent _).bind fun _ => ih _ _

/-- Without its traces the code is that of `Alloc`. -/
theorem alloc_erases (A : PhysicalAllocator σ) (pt : PageTable) (g : PageAllocator) (length : ℕ) :
    Erases (Traced.alloc A pt g length) (PageAllocator.alloc A pt g length) := by
  refine (Erases.silent _).bind fun _ => (Erases.silent _).bind fun r => ?_
  dsimp only
  split
  · exact .pure _
  split
  · exact (freePrefix_erases A _ _).bind fun _ => .pure _
  · exact (mapLoop_erases A pt _ _ _ _).bind fun _ => .pure _

/-- So has the loop of `unmap`. -/
theorem unmapLoop_erases (pt : PageTable) (virt : BitVec 64) (n : ℕ) :
    Erases (Traced.unmapLoop pt virt n : TracedM σ ℤ) (PageTable.unmapLoop pt virt n) := by
  induction n generalizing virt with
  | zero => exact .pure _
  | succ n ih =>
    refine (Erases.observed _).bind fun err => ?_
    split
    · exact .pure _
    · exact ih _

/-- So has `unmap`. -/
theorem unmap_erases (pt : PageTable) (virt : BitVec 64) (length : ℕ) :
    Erases (Traced.unmap pt virt length : TracedM σ ℤ) (PageTable.unmap pt virt length) := by
  unfold Traced.unmap PageTable.unmap
  split
  · exact .pure _
  · exact unmapLoop_erases pt virt _

/-- What `Free` does to the TLB succeeds and changes nothing else. -/
theorem erases_of_invalidate {virt : BitVec 64} {length : ℕ} {hints : TlbInvalidateHint}
    {x : TracedM σ α} {y : KernelM σ α} (h : Erases x y) :
    Erases (do
      let err ← Map.invalidateTlb virt length hints
      silent (requireM (err == 0))
      x) y := by
  intro m b m'
  rw [h m b m']
  have hrun := Map.invalidateTlb_run (m := m) virt length hints
  constructor
  · rintro ⟨es, hx⟩
    exact ⟨_, run_bind_eq_ok.mpr ⟨0, _, m, es, hrun,
      run_requireM_bind_eq_ok.mpr ⟨rfl, hx⟩, rfl⟩⟩
  · rintro ⟨es, hx⟩
    obtain ⟨err, es₁, m₁, es₂, hfirst, hx, -⟩ := run_bind_eq_ok.mp hx
    obtain ⟨⟨rfl, rfl⟩, rfl⟩ : (0 = err ∧ _ = es₁) ∧ m = m₁ := by
      simpa using hrun.symm.trans hfirst
    obtain ⟨-, hx⟩ := run_requireM_bind_eq_ok.mp hx
    exact ⟨es₂, hx⟩

/-- Without its traces the code is that of `Free`. -/
theorem free_erases (A : PhysicalAllocator σ) (pt : PageTable) (g : PageAllocator)
    (ptr : BitVec 64) (length : ℕ) :
    Erases (Traced.free A pt g ptr length) (PageAllocator.free A pt g ptr length) := by
  refine (Erases.silent _).bind fun _ => (Erases.silent _).bind fun _ =>
    (Erases.silent _).bind fun phys => (unmap_erases pt ptr _).bind fun _ =>
      (Erases.silent _).bind fun _ => ?_
  exact erases_of_invalidate ((freePages_erases A phys).bind fun _ =>
    (Erases.silent _).bind fun _ => .pure _)

/-- What a call of `Free` that returns has done. -/
theorem free_run {ptr : BitVec 64} {length : ℕ} {g' : PageAllocator}
    (hrun : (Traced.free A pt g ptr length).run m = .ok ((g', es), m')) :
    ∃ phys m₁ m₂ a fs, physLoop pt ptr (pagesFor length) m = .ok (phys, m₁) ∧
      (Traced.unmapLoop pt ptr (pagesFor length)).run m₁ = .ok ((0, fs), m₂) ∧
      m' = { m₂ with allocator := a } ∧
      es = fs ++ invlpgs ptr (pagesFor length) ++ [.release phys] := by
  obtain ⟨-, hrun⟩ := run_requireM_bind_eq_ok.mp hrun
  obtain ⟨-, hrun⟩ := run_requireM_bind_eq_ok.mp hrun
  obtain ⟨phys, m₁, hread, hrun⟩ := run_silent_bind_eq_ok.mp hrun
  obtain ⟨err, fs, m₂, es₁, hunmap, hchecked, rfl⟩ := run_bind_eq_ok.mp hrun
  obtain ⟨hzero, hinvalidate⟩ := run_requireM_bind_eq_ok.mp hchecked
  obtain rfl : err = 0 := by simpa using hzero
  obtain ⟨err, fs', m₃, es₂, hflush, hflushed, rfl⟩ := run_bind_eq_ok.mp hinvalidate
  rw [Map.invalidateTlb_run, Except.ok.injEq, Prod.mk.injEq, Prod.mk.injEq] at hflush
  obtain ⟨⟨-, rfl⟩, rfl⟩ := hflush
  obtain ⟨-, hrelease⟩ := run_requireM_bind_eq_ok.mp hflushed
  obtain ⟨count, fs₁, m₄, es₃, hfree, hcount, rfl⟩ := run_bind_eq_ok.mp hrelease
  obtain ⟨-, hret⟩ := run_requireM_bind_eq_ok.mp hcount
  obtain ⟨-, rfl, rfl⟩ := run_pure_eq_ok.mp hret
  obtain ⟨_, _, _, es₄, htell, hgive, rfl⟩ := run_bind_eq_ok.mp hfree
  obtain ⟨rfl, rfl⟩ := run_tell_eq_ok.mp htell
  obtain ⟨hgiven, rfl⟩ := run_silent_eq_ok.mp hgive
  obtain ⟨a, -, rfl⟩ := freePages_eq_ok.mp hgiven
  refine ⟨phys, m₁, m₂, a, fs, hread, ?_, rfl, ?_⟩
  · -- the loop of `unmap` runs over the pages of the allocation
    unfold Traced.unmap at hunmap
    split at hunmap
    · obtain ⟨hcode, -⟩ := run_pure_eq_ok.mp hunmap
      cases hcode
    · exact hunmap
  · rw [if_pos (by decide), pagesFor_nearestPageSize, List.append_nil, List.append_nil,
      List.append_assoc]

end Traced

end KushOs.Vm
