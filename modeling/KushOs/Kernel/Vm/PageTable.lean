import KushOs.Kernel.Machine

/-!
# Page tables

`Platform::Amd64Uefi::PageTable`: 4-level paging structures in physical memory. The structures are
reached through the virtual address that `GetTableVmAddr` computes, which lies in the identity
mapping during early boot and in the aperture afterwards; `load` and `store` undo that computation.

`kNoExecuteEnabled` is false, so no entry gets the execute-disable bit, and `mapPage` never sets
the global bit.

## Main definitions

* `PageTable.mapPage`, `PageTable.unmapPage`, `PageTable.unmap`, `PageTable.getPhysAddr`,
  `PageTable.new`: the code of `PageTable.cpp`.
* `PageTable.descend`: the step that `mapPage` repeats for the three upper levels.
-/

namespace KushOs.Vm

open KernelM

/-! ## Entries -/

/-- `PageFlags::FlagsMask`: the bits of an entry that are flags. -/
def flagsMask : BitVec 64 := 0x80000000000001FF#64

/-- `entry & (1 << 0)`: the entry is present. -/
def present (entry : BitVec 64) : Bool := entry.getLsbD 0

/-- `entry & (1 << 7)`: the entry maps a large page. -/
def large (entry : BitVec 64) : Bool := entry.getLsbD 7

/-- `(entry & ~0xFFF) & ~FlagsMask`: the physical address in an entry. -/
def tableAddr (entry : BitVec 64) : BitVec 64 := entry &&& ~~~0xFFF#64 &&& ~~~flagsMask

/-- The entry that links a paging structure: present, writable, and open to userspace below the
kernel's half of the address space. -/
def tableEntry (page virt : BitVec 64) : BitVec 64 :=
  let entry := page ||| 0b11#64
  if virt < kernelBoundary then entry ||| 1#64 <<< 2 else entry

/-- The entry that maps a page. -/
def pageEntry (phys : BitVec 64) (mode : Mode) : BitVec 64 :=
  let pte := tableAddr phys ||| 1#64
  let pte := if mode.test Mode.write then pte ||| 1#64 <<< 1 else pte
  if mode.test Mode.userMask then pte ||| 1#64 <<< 2 else pte

/-- `DecodePTE`: the physical address and the access mode of an entry. -/
def decodePTE (pte : BitVec 64) : BitVec 64 × Mode :=
  let temp : Mode :=
    if pte.getLsbD 2 then
      (if pte.getLsbD 1 then Mode.userRW else Mode.userRead) |||
        (if pte.getLsbD 63 then 0 else Mode.userExec)
    else
      (if pte.getLsbD 1 then Mode.kernelRW else Mode.kernelRead) |||
        (if pte.getLsbD 63 then 0 else Mode.kernelExec)
  (pte &&& 0xFFFFFFFFFF000#64, temp)

/-! ## Virtual addresses -/

/-- The address is not canonical. -/
def nonCanonical (virt : BitVec 64) : Bool :=
  0x00007FFFFFFFFFFF#64 < virt && virt < 0xFFFF800000000000#64

/-- The index into the table of a level: nine bits of the address, from bit `shift` on. -/
def tableIndex (virt : BitVec 64) (shift : ℕ) : BitVec 64 :=
  (virt &&& 0xFFFFFFFFFFFF#64) >>> shift &&& 0x1FF#64

/-- Physical address behind a pointer that `GetTableVmAddr` returned. -/
def behind {σ : Type} (m : Machine σ) (ptr : BitVec 64) : BitVec 64 :=
  if m.earlyBoot then ptr else ptr - physApertureStart

/-- `PageTable`: the physical address of its PML4. -/
structure PageTable where
  /-- Physical address of the PML4. -/
  pml4Phys : BitVec 64
  deriving DecidableEq, Repr

namespace PageTable

variable {σ : Type}

/-! ## Access to paging structures -/

/-- `GetTableVmAddr`. -/
def getTableVmAddr (phys : BitVec 64) : KernelM σ (BitVec 64) := do
  let m ← get
  if m.earlyBoot then
    -- slow path: `PhysicalMap::Add` of one page
    requireM (phys < 0x100000000#64)
    return phys
  else
    requireM (phys < physApertureLen - BitVec.ofNat 64 pageSize)
    return physApertureStart + phys

/-- Read the word at a pointer. -/
def load (ptr : BitVec 64) : KernelM σ (BitVec 64) := do
  let m ← get
  return m.mem (behind m ptr)

/-- Write the word at a pointer. -/
def store (ptr val : BitVec 64) : KernelM σ Unit :=
  modify fun m => { m with mem := Function.update m.mem (behind m ptr) val }

/-- `memset(ptr, 0, PageSize())`. -/
def zeroPage (ptr : BitVec 64) : KernelM σ Unit :=
  modify fun m =>
    { m with
      mem := fun a => if a - behind m ptr < BitVec.ofNat 64 pageSize then 0 else m.mem a }

/-- `ReadTable`. -/
def readTable (tableBase offset : BitVec 64) : KernelM σ (BitVec 64) := do
  requireM (offset ≤ 511#64)
  let ptr ← getTableVmAddr tableBase
  load (ptr + offset * 8#64)

/-- `WriteTable`. -/
def writeTable (tableBase offset val : BitVec 64) : KernelM σ Unit := do
  requireM (offset ≤ 511#64)
  let ptr ← getTableVmAddr tableBase
  store (ptr + offset * 8#64) val

/-- `AllocPage`: a zeroed page for a paging structure. -/
def allocPage (A : PhysicalAllocator σ) : KernelM σ (BitVec 64) := do
  let (err, out) ← allocatePages A 1 fun _ => 0
  requireM (err == 1)
  let page := out 0
  let ptr ← getTableVmAddr page
  zeroPage ptr
  return page

/-! ## Mapping -/

/-- One level of `mapPage`: find the structure that entry `offset` of the structure at `tableBase`
names, and allocate it if the entry is absent. The result is its address, or the error code that
`mapPage` returns; `largeError` is the code for an entry that maps a large page, at the levels
where that is checked. -/
def descend (A : PhysicalAllocator σ) (virt tableBase offset : BitVec 64) (largeError : Option ℤ) :
    KernelM σ (Except ℤ (BitVec 64)) := do
  let entry ← readTable tableBase offset
  if present entry then
    match largeError with
    | some code => if large entry then return .error code else return .ok (tableAddr entry)
    | none => return .ok (tableAddr entry)
  else
    let page ← allocPage A
    if page = 0 then return .error (-1001)
    else
      let entry := tableEntry page virt
      writeTable tableBase offset entry
      return .ok (tableAddr entry)

/-- `PageTable::mapPage`. -/
def mapPage (A : PhysicalAllocator σ) (pt : PageTable) (phys virt : BitVec 64) (mode : Mode) :
    KernelM σ ℤ := do
  if nonCanonical virt then return -1000
  else
    match ← descend A virt pt.pml4Phys (tableIndex virt 39) none with
    | .error code => return code
    | .ok pdptAddr =>
      match ← descend A virt pdptAddr (tableIndex virt 30) (some (-1002)) with
      | .error code => return code
      | .ok pdtAddr =>
        match ← descend A virt pdtAddr (tableIndex virt 21) (some (-1003)) with
        | .error code => return code
        | .ok ptAddr =>
          writeTable ptAddr (tableIndex virt 12) (pageEntry phys mode)
          return 0

/-- `PageTable::unmapPage`. -/
def unmapPage (pt : PageTable) (virt : BitVec 64) (unmapLargePages : Bool) : KernelM σ ℤ := do
  if nonCanonical virt then return -1000
  else
    let pml4e ← readTable pt.pml4Phys (tableIndex virt 39)
    if !present pml4e then return 0
    else
      let pdptAddr := tableAddr pml4e
      let pdpte ← readTable pdptAddr (tableIndex virt 30)
      if !present pdpte then return 0
      else if large pdpte then
        if !unmapLargePages then return -1
        else
          writeTable pdptAddr (tableIndex virt 30) 0
          return 1
      else
        let pdtAddr := tableAddr pdpte
        let pdte ← readTable pdtAddr (tableIndex virt 21)
        if !present pdte then return 0
        else if large pdte then
          if !unmapLargePages then return -1
          else
            writeTable pdtAddr (tableIndex virt 21) 0
            return 1
        else
          writeTable (tableAddr pdte) (tableIndex virt 12) 0
          return 1

/-- The loop of `PageTable::unmap` over the `n` pages from `virt` on. -/
def unmapLoop (pt : PageTable) (virt : BitVec 64) : ℕ → KernelM σ ℤ
  | 0 => return 0
  | n + 1 => do
      let err ← unmapPage pt virt true
      if err < 0 then return err
      else unmapLoop pt (virt + BitVec.ofNat 64 pageSize) n

/-- `PageTable::unmap`. -/
def unmap (pt : PageTable) (virt : BitVec 64) (length : ℕ) : KernelM σ ℤ :=
  if virt = 0 ∨ virt.toNat % pageSize ≠ 0 ∨ length = 0 ∨ length % pageSize ≠ 0 then return -1
  else unmapLoop pt virt (length / pageSize)

/-- `PageTable::getPhysAddr`: the result, and the physical address and the mode if they were
written. -/
def getPhysAddr (pt : PageTable) (virt : BitVec 64) :
    KernelM σ (ℤ × Option (BitVec 64 × Mode)) := do
  if nonCanonical virt then return (-1, none)
  else
    let pml4e ← readTable pt.pml4Phys (tableIndex virt 39)
    if !present pml4e then return (0, none)
    else
      let pdpte ← readTable (tableAddr pml4e) (tableIndex virt 30)
      if !present pdpte then return (0, none)
      else if large pdpte then
        let (outPhys, outMode) := decodePTE pdpte
        return (0, some ((outPhys &&& ~~~0x3FFFFFFF#64) + (virt &&& 0x3FFFFFFF#64), outMode))
      else
        let pdte ← readTable (tableAddr pdpte) (tableIndex virt 21)
        if !present pdte then return (0, none)
        else if large pdte then
          let (outPhys, outMode) := decodePTE pdte
          return (0, some ((outPhys &&& ~~~0x1FFFFF#64) + (virt &&& 0x1FFFFF#64), outMode))
        else
          let pte ← readTable (tableAddr pdte) (tableIndex virt 12)
          if !present pte then return (0, none)
          else
            let (outPhys, outMode) := decodePTE pte
            return (1, some (outPhys + (virt &&& 0xFFF#64), outMode))

/-! ## Construction -/

/-- The loop of `copyPml4Upper` over the `n` entries from `j` on. -/
def copyPml4UpperLoop (pt parent : PageTable) (j : ℕ) : ℕ → KernelM σ Unit
  | 0 => return ()
  | n + 1 => do
      let pml4e ← readTable parent.pml4Phys (BitVec.ofNat 64 j)
      writeTable pt.pml4Phys (BitVec.ofNat 64 j) pml4e
      copyPml4UpperLoop pt parent (j + 1) n

/-- `copyPml4Upper`. -/
def copyPml4Upper (pt parent : PageTable) : KernelM σ Unit :=
  copyPml4UpperLoop pt parent 0x100 0x100

/-- The entry of the aperture's 1 GB page at the physical address `phys`: present, writable,
supervisor, large, global. -/
def apertureEntry (phys : BitVec 64) : BitVec 64 := phys ||| 0b10000011#64 ||| 1#64 <<< 8

/-- The inner loop of `mapPhysAperture`: fill the `n` entries from `j` on. -/
def fillPdpt (pdpt physBase : BitVec 64) (j : ℕ) : ℕ → KernelM σ Unit
  | 0 => return ()
  | n + 1 => do
      writeTable pdpt (BitVec.ofNat 64 j)
        (apertureEntry (physBase + BitVec.ofNat 64 j * 0x40000000#64))
      fillPdpt pdpt physBase (j + 1) n

/-- The outer loop of `mapPhysAperture` over the `n` PDPTs from number `i` on. -/
def mapPhysApertureLoop (A : PhysicalAllocator σ) (pt : PageTable) (i : ℕ) : ℕ → KernelM σ Unit
  | 0 => return ()
  | n + 1 => do
      let pdpt ← allocPage A
      requireM (pdpt ≠ 0)
      fillPdpt pdpt (BitVec.ofNat 64 i * 0x8000000000#64) 0 512
      let pml4e := (pdpt &&& ~~~0xFFF#64) ||| 0b11#64
      writeTable pt.pml4Phys (BitVec.ofNat 64 (256 + i)) pml4e
      mapPhysApertureLoop A pt (i + 1) n

/-- `mapPhysAperture`. -/
def mapPhysAperture (A : PhysicalAllocator σ) (pt : PageTable) : KernelM σ Unit :=
  mapPhysApertureLoop A pt 0 (physApertureLen / 0x8000000000#64).toNat

/-- The part of the constructor that copies PML4 entries from the parent, if there is one. -/
def copyParent (pt : PageTable) : Option PageTable → KernelM σ Unit
  | some parent => copyPml4Upper pt parent
  | none => return ()

/-- The part of the constructor that adds the aperture to the first page table; the flag is
exchanged atomically. -/
def addAperture (A : PhysicalAllocator σ) (pt : PageTable) : KernelM σ Unit := do
  let m ← get
  if m.isFirstPageTable then return ()
  else
    set { m with isFirstPageTable := true }
    mapPhysAperture A pt

/-- `PageTable::PageTable`. -/
def new (A : PhysicalAllocator σ) (parent : Option PageTable) : KernelM σ PageTable := do
  let pml4Phys ← allocPage A
  let pt : PageTable := { pml4Phys }
  copyParent pt parent
  addAperture A pt
  return pt

end PageTable

end KushOs.Vm
