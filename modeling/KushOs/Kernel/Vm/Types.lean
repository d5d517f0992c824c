import Mathlib.Data.Nat.Notation
import Mathlib.Tactic.Common

/-!
# Access modes and the record of a contiguous mapping

`Kernel::Vm::Mode` is a set of flags in a 64-bit word, so any word is a mode. The flags of the
enumeration are listed under their own names.
-/

namespace KushOs.Vm

/-- `Kernel::Vm::Mode`: a combination of access flags. -/
abbrev Mode := BitVec 64

namespace Mode

/-- The kernel may read. -/
def kernelRead : Mode := 1#64 <<< 0
/-- The kernel may write. -/
def kernelWrite : Mode := 1#64 <<< 1
/-- The kernel may execute. -/
def kernelExec : Mode := 1#64 <<< 2
/-- The kernel may read and write. -/
def kernelRW : Mode := kernelRead ||| kernelWrite
/-- Userspace may read. -/
def userRead : Mode := 1#64 <<< 8
/-- Userspace may write. -/
def userWrite : Mode := 1#64 <<< 9
/-- Userspace may execute. -/
def userExec : Mode := 1#64 <<< 10
/-- Userspace may read and write. -/
def userRW : Mode := userRead ||| userWrite
/-- Any of these bits makes a mapping accessible to userspace. -/
def userMask : Mode := userRead ||| userWrite ||| userExec
/-- The write bits. -/
def write : Mode := kernelWrite ||| userWrite
/-- `TestFlags(mode & mask)`. -/
def test (mode mask : Mode) : Bool := mode &&& mask != 0

end Mode

/-- `ContiguousPhysRegion`: a map entry backed by one contiguous range of physical memory. -/
structure ContiguousPhysRegion where
  /-- Physical base address of the mapping. -/
  physBase : BitVec 64
  /-- Size of the mapping in bytes. -/
  length : ℕ
  /-- Access mode of its pages. -/
  accessMode : Mode
  deriving DecidableEq, Repr

end KushOs.Vm
