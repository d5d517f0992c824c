import KushOs.Kernel.Vm.PageTable

/-!
# The virtual page allocator

`Kernel::Vm::PageAllocator` moves a cursor through the region reserved for it and never reuses
virtual addresses. It maps the pages of an allocation in the kernel map and leaves guard pages
behind them.

## Main definitions

* `PageAllocator.alloc`, `PageAllocator.free`: the code of `PageAllocator.cpp`.
-/

namespace KushOs.Vm

open Memory KernelM

/-- The static variables of `PageAllocator`. -/
structure PageAllocator where
  /-- Start of the virtual memory that was not allocated yet. -/
  gAllocCursor : BitVec 64
  /-- Number of allocated pages. -/
  gPagesAllocated : BitVec 64
  deriving DecidableEq, Repr

namespace PageAllocator

variable {σ : Type}

/-- Number of guard pages between allocations. -/
abbrev kNumGuardPages : ℕ := 2
/-- Maximum number of pages in one allocation, and entries of the arrays of physical addresses. -/
abbrev kMaxAllocPages : ℕ := 16

/-- `PageAllocator::Init`. -/
def init : PageAllocator where
  gAllocCursor := vAllocStart
  gPagesAllocated := 0

/-- `PhysicalAllocator::FreePages(num, phys)`, which reads `num` entries of an array of
`kMaxAllocPages`. -/
def freePrefix (A : PhysicalAllocator σ) (num : ℕ) (phys : AddrBuffer) : KernelM σ ℤ :=
  if num ≤ kMaxAllocPages then freePages A ((List.range num).map phys)
  else fun _ => .error .overrun

/-- The loop of `Alloc` that maps the `n` pages from number `i` on. -/
def mapLoop (A : PhysicalAllocator σ) (pt : PageTable) (phys : AddrBuffer) (virt : BitVec 64)
    (i : ℕ) : ℕ → KernelM σ Unit
  | 0 => return ()
  | n + 1 => do
      let err ← PageTable.mapPage A pt (phys i) virt Mode.kernelRW
      requireM (err == 0)
      mapLoop A pt phys (virt + BitVec.ofNat 64 pageSize) (i + 1) n

/-- `PageAllocator::Alloc`, with the page table of the kernel map: the pointer and the static
variables afterwards. -/
def alloc (A : PhysicalAllocator σ) (pt : PageTable) (g : PageAllocator) (length : ℕ) :
    KernelM σ (BitVec 64 × PageAllocator) := do
  let pageLength := nearestPageSize length
  let pageLengthWithGuards := BitVec.ofNat 64 (pageLength + kNumGuardPages * pageSize)
  let cursorEnd := g.gAllocCursor + pageLengthWithGuards
  requireM (cursorEnd < vAllocEnd && g.gAllocCursor < cursorEnd)
  let numPages := pageLength / pageSize
  let (err, phys) ← allocatePages A numPages fun _ => 0
  if err < -1 then return (0, g)
  else if toSize err ≠ numPages then
    -- the count goes to `FreePages` as a `size_t`
    let _ ← freePrefix A (toSize err) phys
    return (0, g)
  else
    mapLoop A pt phys g.gAllocCursor 0 numPages
    return (g.gAllocCursor,
      { gAllocCursor := g.gAllocCursor + pageLengthWithGuards
        gPagesAllocated := g.gPagesAllocated + BitVec.ofNat 64 numPages })

/-- The loop of `Free` that reads the physical addresses of the `n` pages from `virt` on. -/
def physLoop (pt : PageTable) (virt : BitVec 64) : ℕ → KernelM σ (List (BitVec 64))
  | 0 => return []
  | n + 1 => do
      let (err, out) ← PageTable.getPhysAddr pt virt
      requireM (err == 1)
      let rest ← physLoop pt (virt + BitVec.ofNat 64 pageSize) n
      return (out.map Prod.fst).getD 0 :: rest

/-- `PageAllocator::Free`, with the page table of the kernel map. Invalidating the TLB does not
change the state and does not fail. -/
def free (A : PhysicalAllocator σ) (pt : PageTable) (g : PageAllocator) (ptr : BitVec 64)
    (length : ℕ) : KernelM σ PageAllocator := do
  requireM (ptr != 0 && length != 0)
  requireM (ptr.toNat % pageSize == 0)
  let pageLength := nearestPageSize length
  let numPages := pageLength / pageSize
  let phys ← physLoop pt ptr numPages
  let err ← PageTable.unmap pt ptr pageLength
  requireM (err == 0)
  let err ← freePages A phys
  requireM (toSize err == numPages)
  return { g with gPagesAllocated := g.gPagesAllocated - BitVec.ofNat 64 numPages }

end PageAllocator

end KushOs.Vm
