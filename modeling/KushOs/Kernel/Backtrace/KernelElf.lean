import KushOs.Kernel.Backtrace.Symbolicate

/-!
# The symbol tables of the kernel image

`Backtrace::ParseKernelElf` looks for the symbol table in an ELF image and stores where it and its
string table are. It is given the length of the image and does not use it, it accepts a link to the
header behind the last one, and it stores the symbol table before it looks at the link.

The address of a header is computed in 64 bits, so headers are named by their offset from the start
of the image modulo `2 ^ 64`. What is behind the image is what memory holds there. A field that the
code reads again while it handles one section is read once.

## Main definitions

* `Image`: a buffer in memory, with the fields of its headers.
* `parseKernelElf`: the function.
* `Image.visited`: the section headers that it looks at.
* `ScansSafely`: what it is to do.

## Main results

* `only_parseKernelElf`: the images of which it reads nothing outside.
* `value_parseKernelElf`, `value_scanSections`: what it leaves in the globals.
* `kernel_elf_scan`: the images for which both are as they should be.
-/

namespace KushOs.Backtrace

open ByteBuffer ReadTrace

/-- A buffer in memory. -/
structure Image where
  base : BitVec 64
  len : ℕ
  memory : BitVec 64 → UInt8

namespace Image

variable (image : Image)

/-- The number at an offset. -/
def field (off : BitVec 64) (width : ℕ) : ℕ := load image.memory (image.base + off) width

/-- It is read. -/
def read (off : BitVec 64) (width : ℕ) : Reads (BitVec 64 × ℕ) ℕ :=
  Reads.read (off, width) (image.field off width)

/-! ## The fields of the file header and of section headers -/

/-- `Elf64_Ehdr::ident`. -/
def ident (i : ℕ) : Reads (BitVec 64 × ℕ) ℕ := image.read (BitVec.ofNat 64 i) 1

/-- `Elf64_Ehdr::secHdrOff`. -/
def secHdrOff : Reads (BitVec 64 × ℕ) ℕ := image.read 40 8

/-- `Elf64_Ehdr::secHdrSize`. -/
def secHdrSize : Reads (BitVec 64 × ℕ) ℕ := image.read 58 2

/-- `Elf64_Ehdr::numSecHdr`. -/
def numSecHdr : Reads (BitVec 64 × ℕ) ℕ := image.read 60 2

/-- The offset of section header `i`. -/
def shdr (i : ℕ) : Reads (BitVec 64 × ℕ) (BitVec 64) := do
  let secHdrOff ← image.secHdrOff
  let secHdrSize ← image.secHdrSize
  return BitVec.ofNat 64 secHdrOff + BitVec.ofNat 64 (secHdrSize * i)

/-- `Elf64_Shdr::sh_type`. -/
def sh_type (shdr : BitVec 64) : Reads (BitVec 64 × ℕ) ℕ := image.read (shdr + 4) 4

/-- `Elf64_Shdr::sh_offset`. -/
def sh_offset (shdr : BitVec 64) : Reads (BitVec 64 × ℕ) ℕ := image.read (shdr + 24) 8

/-- `Elf64_Shdr::sh_size`. -/
def sh_size (shdr : BitVec 64) : Reads (BitVec 64 × ℕ) ℕ := image.read (shdr + 32) 8

/-- `Elf64_Shdr::sh_link`. -/
def sh_link (shdr : BitVec 64) : Reads (BitVec 64 × ℕ) ℕ := image.read (shdr + 40) 4

end Image

/-! ## The function -/

/-- The warnings that the function logs. -/
inductive ElfWarning
  /-- `Invalid ELF magic (%02x %02x %02x %02x)`. -/
  | magic (i0 i1 i2 i3 : ℕ)
  /-- `Invalid ELF section hdr size: %zu`. -/
  | sectionHdrSize (size : ℕ)
  /-- `Invalid ELF symbol string table index: %zu`. -/
  | stringTableIndex (link : ℕ)
  deriving DecidableEq

/-- `SHT_SYMTAB`. -/
def SHT_SYMTAB : ℕ := 2

/-- `SHT_STRTAB`. -/
def SHT_STRTAB : ℕ := 3

/-- `sizeof(Elf64_Shdr)`. -/
def shdrSize : ℕ := 64

/-- One of the bytes of the magic number is wrong; they are compared in order up to that one. -/
def badMagic (image : Image) : List (ℕ × Char) → Reads (BitVec 64 × ℕ) Bool
  | [] => return false
  | (i, c) :: rest => do
      if (← image.ident i) ≠ c.toNat then return true else badMagic image rest

/-- `ELFMAG0` to `ELFMAG3`, with their places. -/
def elfMag : List (ℕ × Char) := [(0, '\x7f'), (1, 'E'), (2, 'L'), (3, 'F')]

/-- The loop over the section headers that are left. -/
def scanSections (image : Image) :
    List ℕ → Globals → Reads (BitVec 64 × ℕ) (Globals × Option ElfWarning)
  | [], g => do
      -- the last comparison of the index
      let _ ← image.numSecHdr
      return (g, none)
  | i :: rest, g => do
      let _ ← image.numSecHdr
      let shdr ← image.shdr i
      if (← image.sh_type shdr) = SHT_SYMTAB then
        -- the globals are set before the link is checked
        let g := { g with gSymtab := image.base + BitVec.ofNat 64 (← image.sh_offset shdr) }
        let g := { g with gSymtabLen := ← image.sh_size shdr }
        let link ← image.sh_link shdr
        -- the number of section headers is let through as a link
        if link > (← image.numSecHdr) ∨ link = 0 then return (g, some (.stringTableIndex link))
        else
          let strtabShdr ← image.shdr link
          let g :=
            { g with gStrtab := image.base + BitVec.ofNat 64 (← image.sh_offset strtabShdr) }
          let g := { g with gStrtabLen := ← image.sh_size strtabShdr }
          scanSections image rest g
      else scanSections image rest g

/-- `Backtrace::ParseKernelElf`: the globals that it leaves, and what it warns about. -/
def parseKernelElf (image : Image) (g : Globals) :
    Reads (BitVec 64 × ℕ) (Globals × Option ElfWarning) := do
  if image.base = 0 ∧ image.len = 0 then return (⟨0, 0, 0, 0⟩, none)
  else if (← badMagic image elfMag) then
    let warning := ElfWarning.magic (← image.ident 0) (← image.ident 1) (← image.ident 2)
      (← image.ident 3)
    return (g, some warning)
  else if shdrSize < (← image.secHdrSize) then
    return (g, some (.sectionHdrSize (← image.secHdrSize)))
  else scanSections image (List.range (image.field 60 2)) g

/-! ## What is read -/

namespace Image

variable (image : Image)

/-- A read inside the buffer. -/
def InBuffer (r : BitVec 64 × ℕ) : Prop := r.1.toNat + r.2 ≤ image.len

instance (r : BitVec 64 × ℕ) : Decidable (image.InBuffer r) := inferInstanceAs (Decidable (_ ≤ _))

/-- The number of section headers. -/
def count : ℕ := image.field 60 2

/-- The offset of a section header. -/
def header (i : ℕ) : BitVec 64 :=
  BitVec.ofNat 64 (image.field 40 8) + BitVec.ofNat 64 (image.field 58 2 * i)

/-- The section header with which a section is linked. -/
def link (i : ℕ) : ℕ := image.field (image.header i + 40) 4

/-- The type of a section. -/
def type (i : ℕ) : ℕ := image.field (image.header i + 4) 4

/-- Where a section is in the image, and its size. -/
def extent (i : ℕ) : BitVec 64 × ℕ :=
  (BitVec.ofNat 64 (image.field (image.header i + 24) 8), image.field (image.header i + 32) 8)

/-- The link of a section is one that the code accepts. -/
def LinkAccepted (i : ℕ) : Prop := image.link i ≤ image.count ∧ image.link i ≠ 0

instance (i : ℕ) : Decidable (image.LinkAccepted i) := inferInstanceAs (Decidable (_ ∧ _))

/-- The test of the code is for the links that are not accepted. -/
theorem not_linkAccepted_iff (i : ℕ) :
    ¬image.LinkAccepted i ↔ image.link i > image.count ∨ image.link i = 0 := by
  rw [LinkAccepted, not_and_or, not_le, not_not]

/-- The section headers that the loop looks at: up to the first symbol table with a link that is
not accepted. -/
def visitedFrom : List ℕ → List ℕ
  | [] => []
  | i :: rest =>
      if image.type i = SHT_SYMTAB ∧ ¬image.LinkAccepted i then [i] else i :: visitedFrom rest

/-- The fields that are read of a section header that the loop looks at, and of the one that it is
linked with, are inside the buffer. -/
def HeaderInside (i : ℕ) : Prop :=
  image.InBuffer (image.header i + 4, 4) ∧
    (image.type i = SHT_SYMTAB →
      image.InBuffer (image.header i + 24, 8) ∧ image.InBuffer (image.header i + 32, 8) ∧
      image.InBuffer (image.header i + 40, 4) ∧
      (image.LinkAccepted i → image.InBuffer (image.header (image.link i) + 24, 8) ∧
        image.InBuffer (image.header (image.link i) + 32, 8)))

instance (i : ℕ) : Decidable (image.HeaderInside i) := inferInstanceAs (Decidable (_ ∧ _))

end Image

section Scan

variable {image : Image}

open Reads Image

/-- The globals after a symbol table and its string table were found. -/
def found (image : Image) (i j : ℕ) : Globals where
  gSymtab := image.base + (image.extent i).1
  gSymtabLen := (image.extent i).2
  gStrtab := image.base + (image.extent j).1
  gStrtabLen := (image.extent j).2

/-- The globals after a symbol table was found whose link is not accepted. -/
def foundSymtab (image : Image) (g : Globals) (i : ℕ) : Globals :=
  { g with
    gSymtab := image.base + (image.extent i).1
    gSymtabLen := (image.extent i).2 }

/-- One turn of the loop: what is read does not depend on what was read before, as each value is
that of a field. -/
theorem scanSections_cons (i : ℕ) (rest : List ℕ) (g : Globals) :
    scanSections image (i :: rest) g = (do
      let _ ← image.numSecHdr
      let _ ← image.shdr i
      let _ ← image.sh_type (image.header i)
      if image.type i = SHT_SYMTAB then
        let _ ← image.sh_offset (image.header i)
        let _ ← image.sh_size (image.header i)
        let _ ← image.sh_link (image.header i)
        let _ ← image.numSecHdr
        if image.link i > image.count ∨ image.link i = 0 then
          return (foundSymtab image g i, some (.stringTableIndex (image.link i)))
        else
          let _ ← image.shdr (image.link i)
          let _ ← image.sh_offset (image.header (image.link i))
          let _ ← image.sh_size (image.header (image.link i))
          scanSections image rest (found image i (image.link i))
      else scanSections image rest g) := rfl

theorem only_field (P : BitVec 64 × ℕ → Prop) (off : BitVec 64) (width : ℕ) :
    Only P (image.read off width) ↔ P (off, width) := only_read _ _

theorem only_shdr (P : BitVec 64 × ℕ → Prop) (i : ℕ) :
    Only P (image.shdr i) ↔ P (40, 8) ∧ P (58, 2) := by
  simp only [shdr, secHdrOff, secHdrSize, only_bind, only_field, only_pure, and_true]

/-- The fields of the file header that locate section headers are before the last one. -/
theorem inBuffer_header (h : image.InBuffer (60, 2)) :
    image.InBuffer (40, 8) ∧ image.InBuffer (58, 2) := by
  have h60 : 60 + 2 ≤ image.len := h
  exact ⟨show 40 + 8 ≤ image.len by omega, show 58 + 2 ≤ image.len by omega⟩

/-- What the loop over the section headers reads. -/
theorem only_scanSections (sections : List ℕ) (g : Globals) :
    Only image.InBuffer (scanSections image sections g) ↔
      image.InBuffer (60, 2) ∧ ∀ i ∈ image.visitedFrom sections, image.HeaderInside i := by
  induction sections generalizing g with
  | nil => simp [scanSections, visitedFrom, numSecHdr, only_field]
  | cons i rest ih =>
      rw [scanSections_cons]
      by_cases hcount : image.InBuffer (60, 2)
      swap
      · -- the number of section headers is read in every turn
        exact iff_of_false (fun h => hcount ((only_field _ _ _).mp ((only_bind _ _).mp h).1))
          fun h => hcount h.1
      obtain ⟨hoff, hsize⟩ := inBuffer_header hcount
      by_cases htype : image.type i = SHT_SYMTAB
      · rw [if_pos htype]
        by_cases hlink : image.LinkAccepted i
        · -- the string table is read, and the loop goes on
          have hlink' := mt (image.not_linkAccepted_iff i).mpr (not_not.mpr hlink)
          rw [if_neg hlink', visitedFrom, if_neg (fun h => h.2 hlink), List.forall_mem_cons]
          simp only [only_bind, numSecHdr, only_field, only_shdr, sh_type, sh_offset, sh_size,
            sh_link, ih, HeaderInside, hcount, hoff, hsize, htype, hlink, true_and, and_assoc,
            forall_const]
        · -- the loop is left
          have hlink' := (image.not_linkAccepted_iff i).mp hlink
          rw [if_pos hlink', visitedFrom, if_pos ⟨htype, hlink⟩, List.forall_mem_singleton]
          simp only [only_bind, numSecHdr, only_field, only_shdr, sh_type, sh_offset, sh_size,
            sh_link, only_pure, HeaderInside, hcount, hoff, hsize, htype, hlink, true_and, and_true,
            forall_const, false_implies]
      · rw [if_neg htype, visitedFrom, if_neg (fun h => htype h.1), List.forall_mem_cons]
        simp only [only_bind, numSecHdr, only_field, only_shdr, sh_type, ih, HeaderInside, hcount,
          hoff, hsize, htype, true_and, false_implies, and_true]

/-- What the comparison with the magic number reads and finds. -/
theorem badMagic_spec (P : BitVec 64 × ℕ → Prop) (magic : List (ℕ × Char)) :
    ((badMagic image magic).value = true ↔
        ¬∀ p ∈ magic, image.field (BitVec.ofNat 64 p.1) 1 = p.2.toNat) ∧
      ((∀ p ∈ magic, P (BitVec.ofNat 64 p.1, 1)) → Only P (badMagic image magic)) ∧
      ((badMagic image magic).value = false → Only P (badMagic image magic) →
        ∀ p ∈ magic, P (BitVec.ofNat 64 p.1, 1)) := by
  induction magic with
  | nil => simp [badMagic]
  | cons p rest ih =>
      obtain ⟨i, c⟩ := p
      obtain ⟨hvalue, honly, hread⟩ := ih
      have hcons : badMagic image ((i, c) :: rest) = (do
          let _ ← image.ident i
          if image.field (BitVec.ofNat 64 i) 1 ≠ c.toNat then return true
          else badMagic image rest) := rfl
      rw [hcons]
      by_cases hbyte : image.field (BitVec.ofNat 64 i) 1 = c.toNat
      · -- the next byte is compared only if this one is right
        rw [if_neg (not_not.mpr hbyte)]
        simp only [value_bind, only_bind, ident, only_field, List.forall_mem_cons, hbyte, true_and]
        exact ⟨hvalue, fun h => ⟨h.1, honly h.2⟩, fun hfalse h => ⟨h.1, hread hfalse h.2⟩⟩
      · rw [if_pos hbyte]
        simp only [value_bind, only_bind, ident, only_field, List.forall_mem_cons, hbyte, false_and,
          value_pure, only_pure, and_true, not_false_eq_true]
        exact ⟨trivial, fun h => h.1, fun h => by cases h⟩

end Scan

namespace Image

variable (image : Image)

/-- The image starts with the magic number. -/
def HasMagic : Prop := ∀ p ∈ elfMag, image.field (BitVec.ofNat 64 p.1) 1 = p.2.toNat

/-- The size of a section header is one that the code accepts. -/
def SizeAccepted : Prop := image.field 58 2 ≤ shdrSize

/-- The section headers that the function looks at. -/
def visited : List ℕ := image.visitedFrom (List.range image.count)

/-- All headers that the function gets to are inside the buffer, as far as it reads them. -/
def HeadersInside : Prop :=
  4 ≤ image.len ∧ (image.HasMagic → 60 ≤ image.len ∧
    (image.SizeAccepted → 62 ≤ image.len ∧ ∀ i ∈ image.visited, image.HeaderInside i))

instance : Decidable image.HasMagic := inferInstanceAs (Decidable (∀ _ ∈ elfMag, _))

instance : Decidable image.SizeAccepted := inferInstanceAs (Decidable (_ ≤ _))

instance : Decidable image.HeadersInside := inferInstanceAs (Decidable (_ ∧ _))

end Image

section Parse

variable {image : Image}

open Reads Image

/-- The bytes of the magic number are the first four. -/
theorem inBuffer_ident :
    (∀ p ∈ elfMag, image.InBuffer (BitVec.ofNat 64 p.1, 1)) ↔ 4 ≤ image.len := by
  constructor
  · intro h
    exact h (3, 'F') (by simp [elfMag])
  · -- each of the four bytes is before the last one
    intro hlen p hp
    simp only [elfMag, List.mem_cons, List.not_mem_nil, or_false] at hp
    rcases hp with rfl | rfl | rfl | rfl
    · exact show 0 + 1 ≤ image.len by omega
    · exact show 1 + 1 ≤ image.len by omega
    · exact show 2 + 1 ≤ image.len by omega
    · exact show 3 + 1 ≤ image.len by omega

/-- The function after the test for a null buffer. -/
theorem parseKernelElf_eq (hlen : 0 < image.len) (g : Globals) :
    parseKernelElf image g = (do
      if (← badMagic image elfMag) then
        let warning := ElfWarning.magic (← image.ident 0) (← image.ident 1) (← image.ident 2)
          (← image.ident 3)
        return (g, some warning)
      else if shdrSize < (← image.secHdrSize) then
        return (g, some (.sectionHdrSize (← image.secHdrSize)))
      else scanSections image (List.range image.count) g) :=
  if_neg fun h => hlen.ne' h.2

/-- What the function reads. -/
theorem only_parseKernelElf (hlen : 0 < image.len) (g : Globals) :
    Only image.InBuffer (parseKernelElf image g) ↔ image.HeadersInside := by
  obtain ⟨hvalue, honly, hread⟩ := @badMagic_spec image image.InBuffer elfMag
  rw [inBuffer_ident] at honly hread
  rw [parseKernelElf_eq hlen, only_bind]
  by_cases hmagic : image.HasMagic
  · have hgood : (badMagic image elfMag).value = false := by
      rw [← Bool.not_eq_true, hvalue]
      exact not_not.mpr hmagic
    have hident : Only image.InBuffer (badMagic image elfMag) ↔ 4 ≤ image.len :=
      ⟨hread hgood, honly⟩
    rw [hgood, if_neg Bool.false_ne_true, only_bind, hident]
    by_cases hsize : image.SizeAccepted
    · have hsize' : ¬shdrSize < image.field 58 2 := not_lt.mpr hsize
      rw [show (image.secHdrSize).value = image.field 58 2 from rfl, if_neg hsize',
        only_scanSections, secHdrSize, only_field]
      exact ⟨fun h => ⟨h.1, fun _ => ⟨h.2.1, fun _ => h.2.2⟩⟩,
        fun h => ⟨h.1, (h.2 hmagic).1, (h.2 hmagic).2 hsize⟩⟩
    · have hsize' : shdrSize < image.field 58 2 := not_le.mp hsize
      rw [show (image.secHdrSize).value = image.field 58 2 from rfl, if_pos hsize', only_bind,
        secHdrSize, only_field]
      exact ⟨fun h => ⟨h.1, fun _ => ⟨h.2.1, fun h' => absurd h' hsize⟩⟩,
        fun h => ⟨h.1, (h.2 hmagic).1, (h.2 hmagic).1, only_pure _⟩⟩
  · -- the warning shows all four bytes
    have hbad : (badMagic image elfMag).value = true := hvalue.mpr hmagic
    rw [hbad, if_pos rfl]
    simp only [only_bind, ident, only_field, only_pure, and_true]
    constructor
    · rintro ⟨-, -, -, -, hlast⟩
      exact ⟨hlast, fun h => absurd h hmagic⟩
    · rintro ⟨hfour, -⟩
      exact ⟨honly hfour, show 0 + 1 ≤ image.len by omega, show 1 + 1 ≤ image.len by omega,
        show 2 + 1 ≤ image.len by omega, show 3 + 1 ≤ image.len by omega⟩

end Parse

/-! ## What is left in the globals -/

namespace Globals

/-- Where the symbol table is, and its size. -/
def symtab (g : Globals) : BitVec 64 × ℕ := (g.gSymtab, g.gSymtabLen)

/-- Where the string table is, and its size. -/
def strtab (g : Globals) : BitVec 64 × ℕ := (g.gStrtab, g.gStrtabLen)

theorem eq_iff {g g' : Globals} : g = g' ↔ g.symtab = g'.symtab ∧ g.strtab = g'.strtab := by
  cases g
  cases g'
  simp [symtab, strtab, and_assoc]

end Globals

namespace Image

variable (image : Image)

/-- Where a section is in memory, and its size. -/
def place (i : ℕ) : BitVec 64 × ℕ := (image.base + (image.extent i).1, (image.extent i).2)

/-- Those of some section headers that are of symbol tables. -/
def symtabsOf (sections : List ℕ) : List ℕ :=
  (image.visitedFrom sections).filter (image.type · = SHT_SYMTAB)

/-- The last place that a link led to which was accepted, or that of the previous string table. -/
def strtabOf (g : Globals) (symtabs : List ℕ) : BitVec 64 × ℕ :=
  (((symtabs.filter (image.LinkAccepted ·)).getLast?.map image.link).map image.place).getD g.strtab

end Image

section Value

variable {image : Image}

open Reads Image

@[simp]
theorem strtab_found (i j : ℕ) : (found image i j).strtab = image.place j := rfl

@[simp]
theorem symtab_foundSymtab (g : Globals) (i : ℕ) :
    (foundSymtab image g i).symtab = image.place i := rfl

@[simp]
theorem strtab_foundSymtab (g : Globals) (i : ℕ) :
    (foundSymtab image g i).strtab = g.strtab := by
  simp only [foundSymtab, Globals.strtab]

theorem symtabsOf_cons_of_not {i : ℕ} (htype : image.type i ≠ SHT_SYMTAB) (rest : List ℕ) :
    image.symtabsOf (i :: rest) = image.symtabsOf rest := by
  rw [symtabsOf, visitedFrom, if_neg (fun h => htype h.1), List.filter_cons,
    if_neg (by simpa using htype), symtabsOf]

theorem symtabsOf_cons_of_accepted {i : ℕ} (htype : image.type i = SHT_SYMTAB)
    (hlink : image.LinkAccepted i) (rest : List ℕ) :
    image.symtabsOf (i :: rest) = i :: image.symtabsOf rest := by
  rw [symtabsOf, visitedFrom, if_neg (fun h => h.2 hlink), List.filter_cons,
    if_pos (by simpa using htype), symtabsOf]

theorem symtabsOf_cons_of_not_accepted {i : ℕ} (htype : image.type i = SHT_SYMTAB)
    (hlink : ¬image.LinkAccepted i) (rest : List ℕ) : image.symtabsOf (i :: rest) = [i] := by
  rw [symtabsOf, visitedFrom, if_pos ⟨htype, hlink⟩, List.filter_cons,
    if_pos (by simpa using htype), List.filter_nil]

/-- The last of a list that starts with some element. -/
theorem getLast?_map_cons {α β : Type} (f : α → β) (a : α) (l : List α) (b : β) :
    ((a :: l).getLast?.map f).getD b = (l.getLast?.map f).getD (f a) := by
  rw [List.getLast?_cons]
  cases l.getLast? <;> rfl

/-- The tables after the loop: the last symbol table that it came to, and the last string table. -/
theorem value_scanSections (sections : List ℕ) (g : Globals) :
    (scanSections image sections g).value.1.symtab =
        ((image.symtabsOf sections).getLast?.map image.place).getD g.symtab ∧
      (scanSections image sections g).value.1.strtab =
        image.strtabOf g (image.symtabsOf sections) := by
  induction sections generalizing g with
  | nil => exact ⟨rfl, rfl⟩
  | cons i rest ih =>
      rw [scanSections_cons]
      simp only [value_bind]
      by_cases htype : image.type i = SHT_SYMTAB
      · rw [if_pos htype]
        by_cases hlink : image.LinkAccepted i
        · -- both tables are set, and then perhaps set again
          have hlink' := mt (image.not_linkAccepted_iff i).mpr (not_not.mpr hlink)
          obtain ⟨hsymtab, hstrtab⟩ := ih (found image i (image.link i))
          rw [if_neg hlink', symtabsOf_cons_of_accepted htype hlink, getLast?_map_cons]
          refine ⟨hsymtab, hstrtab.trans ?_⟩
          rw [strtabOf, strtabOf, List.filter_cons, if_pos (by simpa using hlink), Option.map_map,
            Option.map_map, getLast?_map_cons, strtab_found, Function.comp_apply]
        · -- only the symbol table is set, and the loop is left
          have hlink' := (image.not_linkAccepted_iff i).mp hlink
          rw [if_pos hlink', symtabsOf_cons_of_not_accepted htype hlink]
          simp only [value_bind, value_pure, symtab_foundSymtab, strtab_foundSymtab]
          rw [strtabOf, List.filter_cons, if_neg (by simpa using hlink), List.filter_nil]
          exact ⟨rfl, rfl⟩
      · rw [if_neg htype, symtabsOf_cons_of_not htype]
        exact ih g

/-- The comparison with the magic number, as a condition. -/
theorem value_badMagic : (badMagic image elfMag).value = true ↔ ¬image.HasMagic :=
  (badMagic_spec (fun _ => True) elfMag).1

/-- An image that is not accepted leaves the globals alone. -/
theorem value_parseKernelElf_rejected (hlen : 0 < image.len)
    (h : ¬(image.HasMagic ∧ image.SizeAccepted)) (g : Globals) :
    (parseKernelElf image g).value.1 = g := by
  rw [parseKernelElf_eq hlen, value_bind]
  by_cases hmagic : image.HasMagic
  · have hsize : shdrSize < image.field 58 2 := not_le.mp fun hsize => h ⟨hmagic, hsize⟩
    rw [if_neg (fun hbad => value_badMagic.mp hbad hmagic), value_bind,
      show (image.secHdrSize).value = image.field 58 2 from rfl, if_pos hsize]
    rfl
  · rw [if_pos (value_badMagic.mpr hmagic)]
    rfl

/-- For one that is accepted, they are those of the loop. -/
theorem value_parseKernelElf (hlen : 0 < image.len) (hmagic : image.HasMagic)
    (hsize : image.SizeAccepted) (g : Globals) :
    (parseKernelElf image g).value = (scanSections image (List.range image.count) g).value := by
  rw [parseKernelElf_eq hlen, value_bind, if_neg (fun hbad => value_badMagic.mp hbad hmagic),
    value_bind, show (image.secHdrSize).value = image.field 58 2 from rfl,
    if_neg (not_lt.mpr hsize)]

end Value

/-! ## What the function is to do -/

namespace Image

variable (image : Image) (Strtab : ℕ → Prop)

/-- Section `i` is a symbol table that is linked with a string table, and both are inside the
buffer. Which types a string table can have is `Strtab`. -/
structure SymtabSection (i : ℕ) : Prop where
  lt_count : i < image.count
  type_eq : image.type i = SHT_SYMTAB
  link_pos : 0 < image.link i
  link_lt_count : image.link i < image.count
  type_link : Strtab (image.type (image.link i))
  inBuffer : image.InBuffer (image.extent i)
  inBuffer_link : image.InBuffer (image.extent (image.link i))

/-- The link is accepted by the code. -/
theorem SymtabSection.linkAccepted {i : ℕ} (h : image.SymtabSection Strtab i) :
    image.LinkAccepted i := ⟨h.link_lt_count.le, h.link_pos.ne'⟩

/-- The tables are those of one symbol table and of the string table with which it is linked. -/
def Describes (symtab strtab : BitVec 64 × ℕ) : Prop :=
  ∃ k, image.SymtabSection Strtab k ∧ symtab = image.place k ∧ strtab = image.place (image.link k)

/-- The symbol tables that the function comes to, in order. -/
def symtabs : List ℕ := image.symtabsOf (List.range image.count)

/-- The last symbol table that the function comes to is one that is linked with a string table, both
inside the buffer; or else it, and where the last link that was accepted leads to, happen to be the
tables that the globals had before or those of another such section. -/
def LastSymtabGood (g : Globals) : Prop :=
  ∀ i ∈ image.symtabs.getLast?, image.SymtabSection Strtab i ∨
    (image.place i = g.symtab ∧ image.strtabOf g image.symtabs = g.strtab) ∨
    image.Describes Strtab (image.place i) (image.strtabOf g image.symtabs)

end Image

/-- The function reads only the buffer, and the globals are unchanged or describe a symbol table and
its string table, both inside the buffer. -/
def ScansSafely (Strtab : ℕ → Prop) (image : Image) (g : Globals) : Prop :=
  let scan := parseKernelElf image g
  Reads.Only image.InBuffer scan ∧
    (scan.value.1 = g ∨ image.Describes Strtab scan.value.1.symtab scan.value.1.strtab)

/-- The bytes of an image at address `0x1000`, and zero behind it. -/
def imageOf (bytes : List UInt8) : Image where
  base := 0x1000
  len := bytes.length
  memory addr := bytes.getD (addr - 0x1000).toNat 0

/-- A file header with the magic number and some section headers that follow it. -/
def elfOf (sections : List (List UInt8)) : Image :=
  imageOf ([0x7f, 0x45, 0x4c, 0x46] ++ List.replicate 36 0 ++ [64, 0, 0, 0, 0, 0, 0, 0] ++
    List.replicate 10 0 ++ [64, 0, sections.length.toUInt8, 0, 0, 0] ++ sections.flatten)

/-- A section header: the type, the offset, the size and the link. -/
def sectionHeader (type off size link : UInt8) : List UInt8 :=
  List.replicate 4 0 ++ [type] ++ List.replicate 19 0 ++ [off, 0, 0, 0, 0, 0, 0, 0] ++
    [size, 0, 0, 0, 0, 0, 0, 0] ++ [link] ++ List.replicate 23 0

/-- A symbol table in section 1 that is linked with section 2. -/
def linkedImage : Image :=
  elfOf [sectionHeader 0 0 0 0, sectionHeader 2 64 24 2, sectionHeader 3 88 8 0]

/-- A symbol table that is linked with no section. -/
def unlinkedImage : Image := elfOf [sectionHeader 0 0 0 0, sectionHeader 2 64 24 0]

section Safety

variable {image : Image} {Strtab : ℕ → Prop}

open Reads Image

/-- The string table of a last symbol table whose link is accepted is the one it is linked with. -/
theorem strtabOf_of_getLast? {symtabs : List ℕ} {i : ℕ} (hlast : symtabs.getLast? = some i)
    (hlink : image.LinkAccepted i) (g : Globals) :
    image.strtabOf g symtabs = image.place (image.link i) := by
  obtain ⟨init, rfl⟩ := List.getLast?_eq_some_iff.mp hlast
  rw [strtabOf, List.filter_append, List.filter_cons, if_pos (by simpa using hlink),
    List.filter_nil, List.getLast?_concat]
  rfl

/-- What the loop leaves in the globals is as it should be if the last symbol table is. -/
theorem globals_scanSections_iff (g : Globals) :
    let g' := (scanSections image (List.range image.count) g).value.1
    (g' = g ∨ image.Describes Strtab g'.symtab g'.strtab) ↔ image.LastSymtabGood Strtab g := by
  intro g'
  obtain ⟨hsymtab, hstrtab⟩ := @value_scanSections image (List.range image.count) g
  rw [Globals.eq_iff, show g'.symtab = _ from hsymtab, show g'.strtab = _ from hstrtab,
    LastSymtabGood, ← symtabs]
  cases hlast : image.symtabs.getLast? with
  | none =>
      have hnil : image.symtabs = [] := List.getLast?_eq_none_iff.mp hlast
      rw [hnil]
      exact iff_of_true (.inl ⟨rfl, rfl⟩) (by simp)
  | some i =>
      simp only [Option.map_some, Option.getD_some, Option.mem_def, Option.some.injEq,
        forall_eq']
      constructor
      · exact Or.inr
      · rintro (hgood | h)
        · exact .inr ⟨i, hgood, rfl, strtabOf_of_getLast? hlast hgood.linkAccepted g⟩
        · exact h

/-- The function reads only the buffer and leaves the globals as it should for exactly the images
whose headers are inside the buffer, as far as it gets to them, and of which the last symbol table
that it comes to is good. -/
theorem kernel_elf_scan (hlen : 0 < image.len) (g : Globals) :
    ScansSafely Strtab image g ↔
      image.HeadersInside ∧
        (image.HasMagic → image.SizeAccepted → image.LastSymtabGood Strtab g) := by
  rw [ScansSafely, only_parseKernelElf hlen]
  refine and_congr_right fun _ => ?_
  by_cases haccepted : image.HasMagic ∧ image.SizeAccepted
  · rw [value_parseKernelElf hlen haccepted.1 haccepted.2]
    exact (globals_scanSections_iff g).trans ⟨fun h _ _ => h, fun h => h haccepted.1 haccepted.2⟩
  · exact iff_of_true (.inl (value_parseKernelElf_rejected hlen haccepted g))
      fun hmagic hsize => absurd ⟨hmagic, hsize⟩ haccepted

end Safety

theorem kernel_elf_scan_linked :
    0 < linkedImage.len ∧ ScansSafely (· = SHT_STRTAB) linkedImage ⟨0, 0, 0, 0⟩ := by
  have hlen : 0 < linkedImage.len := by decide +kernel
  refine ⟨hlen, (kernel_elf_scan hlen _).mpr ⟨by decide +kernel, fun _ _ i hi => .inl ?_⟩⟩
  have hlast : linkedImage.symtabs.getLast? = some 1 := by decide +kernel
  obtain rfl : 1 = i := Option.some.inj (hlast.symm.trans hi)
  exact {
    lt_count := by decide +kernel
    type_eq := by decide +kernel
    link_pos := by decide +kernel
    link_lt_count := by decide +kernel
    type_link := by decide +kernel
    inBuffer := by decide +kernel
    inBuffer_link := by decide +kernel }

/-- The only symbol table of the first image is stored although it has no string table; of the
second image, which has one byte, the next byte is read. -/
theorem not_kernel_elf_scan :
    (¬∃ Strtab, ScansSafely Strtab unlinkedImage ⟨0, 0, 0, 0⟩) ∧
      ¬∃ Strtab, ScansSafely Strtab (imageOf [0x7f]) ⟨0, 0, 0, 0⟩ := by
  constructor
  · rintro ⟨Strtab, -, hsame | ⟨k, hk, -, -⟩⟩
    · exact absurd hsame (by decide +kernel)
    · -- section 0 is of another type, and section 1 has no link
      have hcount : unlinkedImage.count = 2 := by decide +kernel
      have hk_lt : k < 2 := hcount ▸ hk.lt_count
      obtain rfl | rfl : k = 0 ∨ k = 1 := by omega
      · exact absurd hk.type_eq (by decide +kernel)
      · exact absurd hk.link_pos (by decide +kernel)
  · rintro ⟨Strtab, honly, -⟩
    have hread : (1, 1) ∈ (parseKernelElf (imageOf [0x7f]) ⟨0, 0, 0, 0⟩).reads := by
      decide +kernel
    exact absurd (honly _ hread) (by decide)

end KushOs.Backtrace
