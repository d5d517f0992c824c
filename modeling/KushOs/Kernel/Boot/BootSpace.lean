import KushOs.Kernel.Memory.PoolRun
import KushOs.Kernel.Vm.AddressSpace

/-!
# The address space of the kernel at boot

What the bootloader and the linker say describes an address space: the aperture, the sections of the
kernel's image one behind the other, the framebuffer, and the bitmaps of the registered memory in
their window. The code that is to build it is in `KushOs.Kernel.Boot.KernelMap`.

The header with the structures of the boot protocol is not part of the repository; its structures
have the fields that the kernel reads.

## Main definitions

* `BootInfo`: what boot reads.
* `BootInfo.bootSpace`: the address space that it describes.
* `BootInfo.Placed`: the image and the framebuffer are page aligned and have room.

## Main results

* `mem_sections`, `mem_bitmaps`, `pairwise_bitmaps`: where the regions are.
-/

namespace KushOs.Boot

open Memory Vm

/-! ## Boot information -/

/-- `limine_kernel_address_response`. -/
structure KernelAddress where
  /-- `physical_base`. -/
  physicalBase : BitVec 64
  /-- `virtual_base`. -/
  virtualBase : BitVec 64
  deriving DecidableEq, Repr

/-- `limine_framebuffer`, with the fields that mapping it reads. -/
structure Framebuffer where
  /-- `address`. -/
  address : BitVec 64
  /-- `height`, in rows. -/
  height : ℕ
  /-- `pitch`, the bytes of a row. -/
  pitch : ℕ
  deriving DecidableEq, Repr

/-- The sizes that the linker script defines. -/
structure SectionSizes where
  /-- `__kernel_text_size`. -/
  text : ℕ
  /-- `__kernel_rodata_size`. -/
  rodata : ℕ
  /-- `__kernel_data_size`. -/
  data : ℕ
  deriving DecidableEq, Repr

/-- What the bootloader and the linker tell. -/
structure BootInfo where
  /-- `gKernelAddress.response`, unless it is null. -/
  kernelAddress : Option KernelAddress
  /-- The symbols of the linker script. -/
  sizes : SectionSizes
  /-- `gFramebuffer.response`, unless it is null: an array of pointers, which may be null. -/
  framebuffers : Option (List (Option Framebuffer))

/-- Base address for the framebuffer. -/
def kFramebufferBase : BitVec 64 := 0xffffe80000000000#64

/-- `SectionInfo`, without the name. -/
structure SectionInfo where
  /-- Size in bytes. -/
  size : ℕ
  /-- Access mode. -/
  mode : Mode
  deriving DecidableEq, Repr

/-- `kSectionInfo`: the sections `.text`, `.rodata` and `.data`. -/
def kSectionInfo (sizes : SectionSizes) : List SectionInfo :=
  [⟨sizes.text, Mode.kernelExec⟩, ⟨sizes.rodata, Mode.kernelRead⟩, ⟨sizes.data, Mode.kernelRW⟩]

/-- The bases that `MapKernelSections` goes by. -/
def kernelBase (base : Option KernelAddress) : KernelAddress :=
  base.getD ⟨0, 0xffffffff80000000#64⟩

/-- Bytes of a framebuffer in whole pages; the product is one of 64-bit numbers. -/
def fbLength (fbInfo : Framebuffer) : ℕ :=
  nearestPageSize (fbInfo.height * fbInfo.pitch % 2 ^ 64)

/-- The VM object for a framebuffer. The bootloader gives the address in its own mapping of physical
memory. -/
def framebufferRegion (fbInfo : Framebuffer) : ContiguousPhysRegion :=
  ⟨fbInfo.address &&& 0xffffffff#64, fbLength fbInfo, Mode.kernelRW⟩

/-! ## The address space that the boot information describes -/

/-- The sections, one behind the other. -/
def sections (phys virt : BitVec 64) : List SectionInfo → List (BitVec 64 × ContiguousPhysRegion)
  | [] => []
  | info :: rest =>
      (virt, ⟨phys, nearestPageSize info.size, info.mode⟩) ::
        sections (phys + BitVec.ofNat 64 (nearestPageSize info.size))
          (virt + BitVec.ofNat 64 (nearestPageSize info.size)) rest

/-- The bitmap of a range of physical memory: it is at the start of the range. -/
def bitmapRegion (range : BitVec 64 × ℕ) : ContiguousPhysRegion :=
  ⟨range.1, Region.bitmapPages (range.2 / pageSize) * pageSize, Mode.kernelRW⟩

/-- The bitmaps of ranges, one behind the other with a guard page in between. -/
def bitmaps (g : BitVec 64) : List (BitVec 64 × ℕ) → List (BitVec 64 × ContiguousPhysRegion)
  | [] => []
  | range :: rest =>
      (g, bitmapRegion range) ::
        bitmaps (g + BitVec.ofNat 64 ((bitmapRegion range).length + pageSize)) rest

theorem placeAll_bitmaps_cons (l : AddressSpace) (g : BitVec 64) (range : BitVec 64 × ℕ)
    (rest : List (BitVec 64 × ℕ)) :
    l.placeAll (bitmaps g (range :: rest)) =
      (l.place g (bitmapRegion range)).placeAll
        (bitmaps (g + BitVec.ofNat 64 ((bitmapRegion range).length + pageSize)) rest) := rfl

theorem map_snd_bitmaps (g : BitVec 64) (ranges : List (BitVec 64 × ℕ)) :
    (bitmaps g ranges).map Prod.snd = ranges.map bitmapRegion := by
  induction ranges generalizing g with
  | nil => rfl
  | cons range rest ih => rw [bitmaps, List.map_cons, ih, List.map_cons]

/-- Addresses from the first bitmap to behind the last guard page. -/
def bitmapSpan (ranges : List (BitVec 64 × ℕ)) : ℕ :=
  (ranges.map fun range => (bitmapRegion range).length + pageSize).sum

namespace BootInfo

/-- The first framebuffer. -/
def framebuffer (info : BootInfo) : Option Framebuffer :=
  (info.framebuffers.getD []).head?.join

/-- The aperture and the sections of the kernel. -/
def kernelSpace (info : BootInfo) : AddressSpace :=
  AddressSpace.aperture.placeAll (sections (kernelBase info.kernelAddress).physicalBase
    (kernelBase info.kernelAddress).virtualBase (kSectionInfo info.sizes))

/-- The address space after boot: with a framebuffer, also the framebuffer and the bitmaps of the
registered ranges. -/
def bootSpace (info : BootInfo) (specs : List (BitVec 64 × ℕ)) : AddressSpace :=
  match info.framebuffer with
  | none => info.kernelSpace
  | some fbInfo => (info.kernelSpace.place kFramebufferBase (framebufferRegion fbInfo)).placeAll
      (bitmaps physAllocatorMetadataStart specs)

/-- The pointers to the bitmaps after boot: those in the window, or those of early boot. -/
def bitmapPointers (info : BootInfo) (specs : List (BitVec 64 × ℕ)) : List (BitVec 64) :=
  match info.framebuffer with
  | none => specs.map Prod.fst
  | some _ => (bitmaps physAllocatorMetadataStart specs).map Prod.fst

/-- Bytes of the mapped image. -/
def imageLength (info : BootInfo) : ℕ :=
  ((kSectionInfo info.sizes).map fun s => nearestPageSize s.size).sum

/-- The image and the framebuffer are page aligned, in physical memory and in the addresses for
them: the image lies in the region for the kernel's executable, which ends with the address space,
and the framebuffer has 16 TB at most. -/
structure Placed (info : BootInfo) : Prop where
  physAligned : (kernelBase info.kernelAddress).physicalBase.toNat % pageSize = 0
  virtAligned : (kernelBase info.kernelAddress).virtualBase.toNat % pageSize = 0
  phys : (kernelBase info.kernelAddress).physicalBase.toNat + info.imageLength ≤ 2 ^ 52
  virt : 0xffffffff80000000 ≤ (kernelBase info.kernelAddress).virtualBase.toNat
  fits : (kernelBase info.kernelAddress).virtualBase.toNat + info.imageLength < 2 ^ 64
  framebuffer : ∀ fbInfo ∈ info.framebuffer,
    fbInfo.address.toNat % pageSize = 0 ∧ fbLength fbInfo ≤ 2 ^ 44

end BootInfo

/-! ## Where regions are -/

/-- The sections lie in the image. -/
theorem mem_sections {phys virt : BitVec 64} {infos : List SectionInfo}
    (hhi : virt.toNat + (infos.map fun s => nearestPageSize s.size).sum < 2 ^ 64)
    {x : BitVec 64 × ContiguousPhysRegion} (hx : x ∈ sections phys virt infos) :
    virt.toNat ≤ x.1.toNat := by
  induction infos generalizing phys virt with
  | nil => cases hx
  | cons info rest ih =>
    rw [List.map_cons, List.sum_cons] at hhi
    rcases List.mem_cons.mp hx with rfl | hx
    · exact le_rfl
    have hnext : (virt + BitVec.ofNat 64 (nearestPageSize info.size)).toNat =
        virt.toNat + nearestPageSize info.size := by
      rw [BitVec.toNat_add, BitVec.toNat_ofNat]
      omega
    have hle := ih (by omega) hx
    omega

/-- A bitmap lies between the first one and the last guard page. -/
theorem mem_bitmaps {g : BitVec 64} {ranges : List (BitVec 64 × ℕ)}
    (hhi : g.toNat + bitmapSpan ranges < 2 ^ 64) {x : BitVec 64 × ContiguousPhysRegion}
    (hx : x ∈ bitmaps g ranges) :
    g.toNat ≤ x.1.toNat ∧ x.1.toNat + x.2.length + pageSize ≤ g.toNat + bitmapSpan ranges := by
  induction ranges generalizing g with
  | nil => cases hx
  | cons range rest ih =>
    rw [bitmapSpan, List.map_cons, List.sum_cons] at hhi ⊢
    rcases List.mem_cons.mp hx with rfl | hx
    · refine ⟨le_rfl, ?_⟩
      dsimp only
      omega
    have hnext : (g + BitVec.ofNat 64 ((bitmapRegion range).length + pageSize)).toNat =
        g.toNat + ((bitmapRegion range).length + pageSize) := by
      rw [BitVec.toNat_add, BitVec.toNat_ofNat]
      omega
    obtain ⟨hlo, hend⟩ := ih (by rw [hnext, bitmapSpan]; omega) hx
    rw [hnext, bitmapSpan] at hend
    exact ⟨by omega, by omega⟩

/-- The bitmaps lie one behind the other. -/
theorem pairwise_bitmaps {g : BitVec 64} {ranges : List (BitVec 64 × ℕ)}
    (hhi : g.toNat + bitmapSpan ranges < 2 ^ 64) :
    (bitmaps g ranges).Pairwise fun x y => x.1.toNat + x.2.length ≤ y.1.toNat := by
  induction ranges generalizing g with
  | nil => exact .nil
  | cons range rest ih =>
    rw [bitmapSpan, List.map_cons, List.sum_cons] at hhi
    have hnext : (g + BitVec.ofNat 64 ((bitmapRegion range).length + pageSize)).toNat =
        g.toNat + ((bitmapRegion range).length + pageSize) := by
      rw [BitVec.toNat_add, BitVec.toNat_ofNat]
      omega
    have hrest : (g + BitVec.ofNat 64 ((bitmapRegion range).length + pageSize)).toNat +
        bitmapSpan rest < 2 ^ 64 := by
      rw [hnext, bitmapSpan]
      omega
    refine List.pairwise_cons.mpr ⟨fun y hy => ?_, ih hrest⟩
    have hlo := (mem_bitmaps hrest hy).1
    dsimp only
    omega

/-- Below the region for the executable the kernel's space is the aperture. -/
theorem BootInfo.Placed.kernelSpace_eq {info : BootInfo} (h : info.Placed) {w : BitVec 64}
    (hw : w.toNat < 0xffffffff80000000) : info.kernelSpace w = AddressSpace.aperture w := by
  refine AddressSpace.placeAll_of_forall fun x hx hin => ?_
  have hlo := (h.virt.trans (mem_sections h.fits hx)).trans hin.1
  omega

/-! ## Regions that fit -/

/-- Whole pages. -/
theorem nearestPageSize_mod (n : ℕ) : nearestPageSize n % pageSize = 0 := by
  unfold nearestPageSize
  simp only [pageSize]
  split <;> omega

/-- A region of whole frames fits at a page-aligned address behind the start of the kernel's half,
if the address space has room for it. -/
theorem fits_of_upper {region : ContiguousPhysRegion} {base : BitVec 64}
    (haligned : region.physBase.toNat % pageSize = 0)
    (hbound : region.physBase.toNat + region.length ≤ 2 ^ 52)
    (hwhole : region.length % pageSize = 0) (hbase : base.toNat % pageSize = 0)
    (hlo : physApertureStart.toNat ≤ base.toNat) (hhi : base.toNat + region.length ≤ 2 ^ 64) :
    region.Fits base := by
  have hpages := Nat.div_mul_le_self region.length pageSize
  refine ⟨haligned, hbound, hwhole, hbase, by omega, fun i hi => nonCanonical_of_upper ?_⟩
  have hlt : i * pageSize < region.length / pageSize * pageSize :=
    Nat.mul_lt_mul_of_pos_right hi (by norm_num)
  rw [pageAt, BitVec.toNat_add, BitVec.toNat_ofNat]
  omega

/-- Sections of whole pages, from `phys` and `virt` on, have room. -/
structure SectionsFit (phys virt : BitVec 64) (infos : List SectionInfo) : Prop where
  physAligned : phys.toNat % pageSize = 0
  virtAligned : virt.toNat % pageSize = 0
  phys_le : phys.toNat + (infos.map fun s => nearestPageSize s.size).sum ≤ 2 ^ 52
  le_virt : 0xffffffff80000000 ≤ virt.toNat
  virt_lt : virt.toNat + (infos.map fun s => nearestPageSize s.size).sum < 2 ^ 64

theorem BootInfo.Placed.sectionsFit {info : BootInfo} (h : info.Placed) :
    SectionsFit (kernelBase info.kernelAddress).physicalBase
      (kernelBase info.kernelAddress).virtualBase (kSectionInfo info.sizes) :=
  ⟨h.physAligned, h.virtAligned, h.phys, h.virt, h.fits⟩

namespace SectionsFit

variable {phys virt : BitVec 64} {info : SectionInfo} {rest : List SectionInfo}

theorem upper {infos : List SectionInfo} (h : SectionsFit phys virt infos) :
    physApertureEnd.toNat < virt.toNat :=
  lt_of_lt_of_le (by decide) h.le_virt

/-- The first section fits. -/
theorem head (h : SectionsFit phys virt (info :: rest)) :
    (⟨phys, nearestPageSize info.size, info.mode⟩ : ContiguousPhysRegion).Fits virt := by
  obtain ⟨hphys, hvirt, hbound, hlo, hhi⟩ := h
  rw [List.map_cons, List.sum_cons] at hbound hhi
  have hupper : physApertureStart.toNat ≤ 0xffffffff80000000 := by decide
  exact fits_of_upper hphys (by dsimp only; omega) (nearestPageSize_mod info.size) hvirt
    (hupper.trans hlo) (by dsimp only; omega)

/-- The others follow behind it. -/
theorem tail (h : SectionsFit phys virt (info :: rest)) :
    SectionsFit (phys + BitVec.ofNat 64 (nearestPageSize info.size))
      (virt + BitVec.ofNat 64 (nearestPageSize info.size)) rest := by
  obtain ⟨hphys, hvirt, hbound, hlo, hhi⟩ := h
  rw [List.map_cons, List.sum_cons] at hbound hhi
  have hwhole := nearestPageSize_mod info.size
  set size := nearestPageSize info.size
  have hphys' : (phys + BitVec.ofNat 64 size).toNat = phys.toNat + size := by
    rw [BitVec.toNat_add, BitVec.toNat_ofNat]
    omega
  have hvirt' : (virt + BitVec.ofNat 64 size).toNat = virt.toNat + size := by
    rw [BitVec.toNat_add, BitVec.toNat_ofNat]
    omega
  constructor
  · rw [hphys', Nat.add_mod, hphys, hwhole, Nat.add_zero, Nat.zero_mod]
  · rw [hvirt', Nat.add_mod, hvirt, hwhole, Nat.add_zero, Nat.zero_mod]
  · rw [hphys', Nat.add_assoc]
    exact hbound
  · rw [hvirt']
    exact hlo.trans (Nat.le_add_right _ _)
  · rw [hvirt', Nat.add_assoc]
    exact hhi

end SectionsFit

/-- Addresses behind the start of the aperture are in the kernel's half. -/
theorem upper_of_le {base : BitVec 64} (h : physApertureStart.toNat ≤ base.toNat) :
    kernelBoundary ≤ base := by
  have hboundary : kernelBoundary.toNat ≤ physApertureStart.toNat := by decide
  exact BitVec.le_def.mpr (hboundary.trans h)

/-- Page-aligned addresses below 4 GB. -/
theorem framebufferRegion_physBase {fbInfo : Framebuffer}
    (h : fbInfo.address.toNat % pageSize = 0) :
    (framebufferRegion fbInfo).physBase.toNat % pageSize = 0 ∧
      (framebufferRegion fbInfo).physBase.toNat < 2 ^ 32 := by
  have hmask : (0xffffffff#64).toNat = 2 ^ 32 - 1 := rfl
  rw [framebufferRegion, BitVec.toNat_and, hmask, Nat.and_two_pow_sub_one_eq_mod]
  simp only [pageSize] at *
  omega

/-- A framebuffer fits at its base. -/
theorem framebufferRegion_fits {fbInfo : Framebuffer}
    (haligned : fbInfo.address.toNat % pageSize = 0)
    (hlength : fbLength fbInfo ≤ 2 ^ 44) : (framebufferRegion fbInfo).Fits kFramebufferBase := by
  obtain ⟨hmod, hlow⟩ := framebufferRegion_physBase haligned
  have hbase : kFramebufferBase.toNat = 0xffffe80000000000 := rfl
  have hlen : (framebufferRegion fbInfo).length = fbLength fbInfo := rfl
  refine fits_of_upper hmod (by omega) (nearestPageSize_mod _) (by decide) (by decide) ?_
  omega

end KushOs.Boot
