import Mathlib.Algebra.Group.Int.Defs
import Mathlib.Algebra.Group.Nat.Defs
import Mathlib.Data.Int.Notation
import Mathlib.Data.Nat.Notation
import Mathlib.Tactic.Common

/-!
# Platform constants and failures of the amd64 kernel

The kernel's two ways of failing (`REQUIRE`/`PANIC`, and an access outside an object), the
conversion of a count to the C `int` that functions return, the address layout of
`KernelMemoryMap.h`, and `PhysicalMap`, which turns a physical address into the virtual address
under which the kernel reaches it.
-/

namespace KushOs

/-- How a kernel function can fail to return. -/
inductive Fault
  /-- `REQUIRE` or `PANIC`: the kernel stops. -/
  | panic
  /-- An access outside the object it goes through; the language gives it no meaning. -/
  | overrun
  deriving DecidableEq, Repr

/-- `REQUIRE(cond, …)`. -/
def require (cond : Bool) : Except Fault Unit :=
  if cond then .ok () else .error .panic

/-- A `REQUIRE` is passed exactly when its condition holds. -/
@[simp]
theorem require_eq_ok {cond : Bool} {u : Unit} : require cond = .ok u ↔ cond = true := by
  cases cond <;> simp [require]

/-- Conversion of a `size_t` to the 32-bit `int` a function returns. -/
def toInt32 (n : ℤ) : ℤ := n.bmod (2 ^ 32)

/-- Counts below `2 ^ 31` survive the conversion. -/
theorem toInt32_natCast {n : ℕ} (h : n < 2 ^ 31) : toInt32 n = n := by
  unfold toInt32
  rw [Int.bmod_eq_of_le] <;> omega

/-- The conversion never increases a count. -/
theorem toInt32_le (n : ℕ) : toInt32 n ≤ n := by
  unfold toInt32 Int.bmod
  dsimp only
  split <;> omega

/-- Conversion of an `int` to `size_t`, as in a comparison of the two: the sign is extended. -/
def toSize (n : ℤ) : ℕ := (n % 2 ^ 64).toNat

/-- A non-negative `int` keeps its value as a `size_t`. -/
theorem toSize_natCast {n : ℕ} (h : n < 2 ^ 64) : toSize n = n := by
  unfold toSize
  omega

/-! ## Address layout -/

/-- Start of the kernel's half of the address space. -/
def kernelBoundary : BitVec 64 := 0x8000000000000000#64
/-- Start of the aperture into physical memory. -/
def physApertureStart : BitVec 64 := 0xffff800000000000#64
/-- Last address of the aperture. -/
def physApertureEnd : BitVec 64 := 0xffff81ffffffffff#64
/-- Start of the window for the physical allocator's bitmaps. -/
def physAllocatorMetadataStart : BitVec 64 := 0xffff820000000000#64
/-- Last address of the window for the bitmaps. -/
def physAllocatorMetadataEnd : BitVec 64 := 0xffff82003fffffff#64
/-- Start of the virtual allocator's region. -/
def vAllocStart : BitVec 64 := 0xffff900000000000#64
/-- Last address of the virtual allocator's region. -/
def vAllocEnd : BitVec 64 := 0xffff90ffffffffff#64

/-- Bytes covered by the aperture: `PhysApertureEnd + 1 - PhysApertureStart`. -/
def physApertureLen : BitVec 64 := physApertureEnd + 1 - physApertureStart

/-- Size of a page in bytes; also the page size the platform gives the physical allocator. -/
abbrev pageSize : ℕ := 0x1000

/-- `PageTable::NearestPageSize`: round up to a multiple of the page size, in a `size_t`. -/
def nearestPageSize (n : ℕ) : ℕ :=
  if n % pageSize ≠ 0 then (n + (pageSize - n % pageSize)) % 2 ^ 64 else n

namespace PhysicalMap

/-- `PhysicalMap::Add`: virtual address of the physical range `[physical, physical + length)`.
During early boot the low 4 GB are identity mapped; later the aperture is used. -/
def add (earlyBoot : Bool) (physical : BitVec 64) (length : ℕ) : Except Fault (BitVec 64) := do
  require (length ≠ 0 && length % pageSize = 0)
  if earlyBoot then
    require (physical < 0x100000000#64)
    return physical
  else
    require (physical < physApertureLen)
    return physApertureStart + physical

end PhysicalMap

end KushOs
