import KushOs.Foundation.ByteBuffer
import KushOs.Foundation.Reads
import Mathlib.Data.BitVec
import Mathlib.Data.List.MinMax

/-!
# Symbol lookup

`Backtrace::Symbolicate` looks for the function whose address is closest below a program counter. It
computes the number of symbols from the length of the string table instead of that of the symbol
table, and it takes the least difference of unsigned addresses without excluding symbols above the
program counter, whose differences wrap around.

## Main definitions

* `Globals`: the static members. `SymbolTables`: with the memory that they point to.
* `symbolicate`: the function.
* `LooksUp`: what it is to do.

## Main results

* `closest_eq`: the loop finds the first symbol at the least distance.
* `symbol_lookup`: the tables and program counters for which it does what it is to do.
-/

namespace KushOs.Backtrace

open ByteBuffer ReadTrace

/-- The little endian number of some bytes in memory. -/
def load (m : BitVec 64 → UInt8) (addr : BitVec 64) (width : ℕ) : ℕ :=
  ofLittleEndian ((List.range width).map fun i => m (addr + BitVec.ofNat 64 i))

/-- The fields of `Elf64_Sym` that are used. -/
structure Elf64_Sym where
  /-- String table index of the name. -/
  st_name : BitVec 32
  /-- Type and binding information. -/
  st_info : BitVec 8
  /-- Symbol value. -/
  st_value : BitVec 64

/-- `sizeof(Elf64_Sym)`. -/
def symSize : ℕ := 24

/-- `ELF64_ST_TYPE(info) == STT_FUNC`. -/
def Elf64_Sym.isFunc (sym : Elf64_Sym) : Bool := sym.st_info &&& 0xf == 2

/-- The static members of `Backtrace`: the tables in the image of the kernel. -/
structure Globals where
  gSymtab : BitVec 64
  gSymtabLen : ℕ
  gStrtab : BitVec 64
  gStrtabLen : ℕ
  deriving DecidableEq

/-- The globals, and the memory that they point to. -/
structure SymbolTables extends Globals where
  memory : BitVec 64 → UInt8
  /-- `__kernel_text_start` and `__kernel_text_end`. -/
  textStart : BitVec 64
  textEnd : BitVec 64

/-- What `Symbolicate` returns, and the name and the offset that it formats as `%s+0x%0llx`. -/
structure Symbolication where
  result : ℤ
  formatted : Option (BitVec 64 × BitVec 64)
  deriving DecidableEq

namespace SymbolTables

variable (t : SymbolTables) (pc : BitVec 64)

/-- Entry `i` from `gSymtab` on. -/
def sym (i : ℕ) : Elf64_Sym :=
  let addr := t.gSymtab + BitVec.ofNat 64 (symSize * i)
  { st_name := BitVec.ofNat 32 (load t.memory addr 4)
    st_info := BitVec.ofNat 8 (load t.memory (addr + 4) 1)
    st_value := BitVec.ofNat 64 (load t.memory (addr + 8) 8) }

/-- The body of the loop over the symbols; `closest` comes with `closestDiff`. -/
def compare (closest : Option Elf64_Sym × BitVec 64) (sym : Elf64_Sym) :
    Option Elf64_Sym × BitVec 64 :=
  if sym.isFunc then
    let diff := pc - sym.st_value
    if closest.1.isNone ∨ closest.2 > diff then (some sym, diff) else closest
  else closest

/-- The loop over the symbols; the entries that it reads are recorded. -/
def scan (numSyms : ℕ) : Reads ℕ (Option Elf64_Sym × BitVec 64) :=
  (List.range numSyms).foldlM
    (fun closest i => do return compare pc closest (← Reads.read i (t.sym i)))
    (none, BitVec.allOnes 64)

/-- `Backtrace::Symbolicate`. -/
def symbolicate : Reads ℕ Symbolication := do
  if pc < t.textStart ∨ pc > t.textEnd then return ⟨0, none⟩
  else if t.gSymtab = 0 ∨ t.gSymtabLen = 0 ∨ t.gStrtab = 0 ∨ t.gStrtabLen = 0 then
    return ⟨0, none⟩
  else
    let numSyms := t.gStrtabLen / symSize
    let (closest, _) ← t.scan pc numSyms
    match closest with
    | some sym =>
        return ⟨1, some (t.gStrtab + sym.st_name.setWidth 64, pc - sym.st_value)⟩
    | none => return ⟨0, none⟩

/-! ## The closest symbol -/

/-- How far the program counter is from a symbol, for the code. -/
def distance (sym : Elf64_Sym) : ℕ := (pc - sym.st_value).toNat

/-- The first `numSyms` entries that are functions. -/
def functions (numSyms : ℕ) : List Elf64_Sym :=
  ((List.range numSyms).map t.sym).filter Elf64_Sym.isFunc

/-- The loop finds the first function at the least distance. -/
theorem foldl_compare (syms : List Elf64_Sym) :
    (syms.foldl (compare pc) (none, BitVec.allOnes 64)).1 =
        (syms.filter Elf64_Sym.isFunc).argmin (distance pc) ∧
      ∀ sym ∈ (syms.filter Elf64_Sym.isFunc).argmin (distance pc),
        (syms.foldl (compare pc) (none, BitVec.allOnes 64)).2 = pc - sym.st_value := by
  induction syms using List.reverseRecOn with
  | nil => simp
  | append_singleton syms sym ih =>
      obtain ⟨hclosest, hdiff⟩ := ih
      rw [List.foldl_concat, List.filter_append]
      generalize syms.foldl (compare pc) (none, BitVec.allOnes 64) = closest at hclosest hdiff
      by_cases hfunc : sym.isFunc = true
      · -- a later function replaces the closest one only if it is strictly closer
        have hone : [sym].filter Elf64_Sym.isFunc = [sym] := by simp [hfunc]
        rw [compare, if_pos hfunc, hone, List.argmin_concat]
        cases hmin : (syms.filter Elf64_Sym.isFunc).argmin (distance pc) with
        | none =>
            rw [hmin] at hclosest
            simp [hclosest]
        | some best =>
            rw [hmin] at hclosest hdiff
            have hbest : closest.2 = pc - best.st_value := hdiff best rfl
            have hless : closest.2 > pc - sym.st_value ↔ distance pc sym < distance pc best := by
              rw [hbest]
              exact BitVec.lt_def
            by_cases hcloser : distance pc sym < distance pc best
            · simp [hless, hcloser]
            · have hkeep : ¬(closest.1.isNone = true ∨ closest.2 > pc - sym.st_value) := by
                rw [hless, hclosest]
                simpa using hcloser
              rw [if_neg hkeep]
              simpa [hcloser] using ⟨hclosest, hbest⟩
      · rw [compare, if_neg hfunc]
        simpa [hfunc] using ⟨hclosest, hdiff⟩

/-- The loop reads one entry after the other and finds the closest function. -/
theorem scan_spec (numSyms : ℕ) :
    (t.scan pc numSyms).reads = List.range numSyms ∧
      (t.scan pc numSyms).value.1 = (t.functions numSyms).argmin (distance pc) := by
  constructor
  · rw [scan, Reads.reads_foldlM (g := fun i => [i]) (fun _ _ => by simp)]
    simp
  · rw [scan, Reads.value_foldlM]
    have hmap : (List.range numSyms).foldl (fun closest i => compare pc closest (t.sym i))
        (none, BitVec.allOnes 64) =
          ((List.range numSyms).map t.sym).foldl (compare pc) (none, BitVec.allOnes 64) :=
      List.foldl_map.symm
    exact (congrArg Prod.fst hmap).trans (foldl_compare pc _).1

/-- A symbol that is not above the program counter is closer than one that is. -/
theorem distance_of_le {sym : Elf64_Sym} (h : sym.st_value ≤ pc) :
    distance pc sym = pc.toNat - sym.st_value.toNat := BitVec.toNat_sub_of_le h

theorem lt_distance_of_lt {sym : Elf64_Sym} (h : pc < sym.st_value) :
    pc.toNat < distance pc sym := by
  have hlt := BitVec.lt_def.mp h
  have hbound := sym.st_value.isLt
  rw [distance, BitVec.toNat_sub]
  omega

/-- If there is a function that is not above the program counter, the closest one is such a
function, and it has the greatest value. -/
theorem argmin_distance {syms : List Elf64_Sym} {best : Elf64_Sym}
    (hbest : best ∈ syms.argmin (distance pc)) (hbelow : ∃ sym ∈ syms, sym.st_value ≤ pc) :
    best.st_value ≤ pc ∧
      ∀ sym ∈ syms, sym.st_value ≤ pc → sym.st_value ≤ best.st_value := by
  have hmin : ∀ sym ∈ syms, distance pc best ≤ distance pc sym := fun sym hsym =>
    List.le_of_mem_argmin hsym hbest
  have hle : best.st_value ≤ pc := by
    obtain ⟨sym, hsym, hle⟩ := hbelow
    by_contra hgt
    have hfar := lt_distance_of_lt pc (BitVec.not_le.mp hgt)
    have hnear := distance_of_le pc hle
    have hclosest := hmin sym hsym
    omega
  refine ⟨hle, fun sym hsym hsymle => ?_⟩
  have hclosest := hmin sym hsym
  have hpc := BitVec.le_def.mp hle
  have hpc' := BitVec.le_def.mp hsymle
  rw [distance_of_le pc hle, distance_of_le pc hsymle] at hclosest
  rw [BitVec.le_def]
  omega

/-! ## The lookup -/

/-- Some function of the table is not above the program counter. -/
def HasFunctionBelow : Prop :=
  ∃ sym ∈ t.functions (t.gSymtabLen / symSize), sym.st_value ≤ pc

/-- The lookup reads exactly the whole entries of the symbol table, it returns 1 if some function is
not above the program counter and 0 otherwise, and it names the one with the greatest value,
together with the offset from it. -/
structure LooksUp : Prop where
  reads : (t.symbolicate pc).reads = List.range (t.gSymtabLen / symSize)
  result : (t.symbolicate pc).value.result = 0 ∨ (t.symbolicate pc).value.result = 1
  result_iff : (t.symbolicate pc).value.result = 1 ↔ t.HasFunctionBelow pc
  formatted : (t.symbolicate pc).value.result = 1 →
    ∃ best ∈ t.functions (t.gSymtabLen / symSize), best.st_value ≤ pc ∧
      (∀ sym ∈ t.functions (t.gSymtabLen / symSize), sym.st_value ≤ pc →
        sym.st_value ≤ best.st_value) ∧
      (t.symbolicate pc).value.formatted =
        some (t.gStrtab + best.st_name.setWidth 64, pc - best.st_value)

variable {t pc}

/-- Without a table, nothing is read and no symbol is found. -/
theorem symbolicate_of_empty (hpc : t.textStart ≤ pc ∧ pc ≤ t.textEnd)
    (hempty : t.gSymtabLen = 0 ∨ t.gStrtabLen = 0) : t.symbolicate pc = ⟨⟨0, none⟩, []⟩ := by
  have hinside : ¬(pc < t.textStart ∨ pc > t.textEnd) :=
    not_or.mpr ⟨BitVec.not_lt.mpr hpc.1, BitVec.not_lt.mpr hpc.2⟩
  have hnone : t.gSymtab = 0 ∨ t.gSymtabLen = 0 ∨ t.gStrtab = 0 ∨ t.gStrtabLen = 0 := by tauto
  rw [symbolicate, if_neg hinside, if_pos hnone]
  rfl

/-- With both tables, the closest of the first functions is taken, and the string table tells how
many entries these are among. -/
theorem symbolicate_eq (hpc : t.textStart ≤ pc ∧ pc ≤ t.textEnd) (hsymtab : t.gSymtab ≠ 0)
    (hstrtab : t.gStrtab ≠ 0) (hsymtabLen : t.gSymtabLen ≠ 0) (hstrtabLen : t.gStrtabLen ≠ 0) :
    (t.symbolicate pc).reads = List.range (t.gStrtabLen / symSize) ∧
      (t.symbolicate pc).value =
        match (t.functions (t.gStrtabLen / symSize)).argmin (distance pc) with
        | some sym => ⟨1, some (t.gStrtab + sym.st_name.setWidth 64, pc - sym.st_value)⟩
        | none => ⟨0, none⟩ := by
  have hinside : ¬(pc < t.textStart ∨ pc > t.textEnd) :=
    not_or.mpr ⟨BitVec.not_lt.mpr hpc.1, BitVec.not_lt.mpr hpc.2⟩
  have htables : ¬(t.gSymtab = 0 ∨ t.gSymtabLen = 0 ∨ t.gStrtab = 0 ∨ t.gStrtabLen = 0) := by
    tauto
  obtain ⟨hreads, hclosest⟩ := t.scan_spec pc (t.gStrtabLen / symSize)
  rw [symbolicate, if_neg hinside, if_neg htables, ← hclosest]
  dsimp only
  rw [Reads.reads_bind, Reads.value_bind, hreads]
  rcases (t.scan pc (t.gStrtabLen / symSize)).value with ⟨_ | sym, diff⟩
  · simp
  · simp

/-- The table has no function at all. -/
def NoFunction (t : SymbolTables) : Prop := t.functions (t.gSymtabLen / symSize) = []

/-- A table without entries. -/
theorem looksUp_of_no_entries (hempty : t.gSymtabLen / symSize = 0)
    (hnothing : t.symbolicate pc = ⟨⟨0, none⟩, []⟩) : LooksUp t pc := by
  have hfunctions : t.functions (t.gSymtabLen / symSize) = [] := by
    rw [hempty]
    rfl
  refine ⟨?_, ?_, ?_, ?_⟩
  · rw [hnothing, hempty]
    rfl
  · rw [hnothing]
    exact .inl rfl
  · rw [hnothing, HasFunctionBelow, hfunctions]
    simp
  · rw [hnothing]
    intro h
    cases h

/-- Tables with the same number of entries are looked up exactly if a function is not above the
program counter or there is none at all. -/
theorem looksUp_iff (hpc : t.textStart ≤ pc ∧ pc ≤ t.textEnd) (hsymtab : t.gSymtab ≠ 0)
    (hstrtab : t.gStrtab ≠ 0) (hsymtabLen : t.gSymtabLen ≠ 0) (hstrtabLen : t.gStrtabLen ≠ 0)
    (hsame : t.gStrtabLen / symSize = t.gSymtabLen / symSize) :
    LooksUp t pc ↔ t.HasFunctionBelow pc ∨ t.NoFunction := by
  obtain ⟨hreads, hvalue⟩ := symbolicate_eq hpc hsymtab hstrtab hsymtabLen hstrtabLen
  rw [hsame] at hreads hvalue
  cases hmin : (t.functions (t.gSymtabLen / symSize)).argmin (distance pc) with
  | none =>
      -- the code finds nothing, and there is nothing to find
      have hnone : t.NoFunction := List.argmin_eq_none.mp hmin
      have hbelow : ¬t.HasFunctionBelow pc := by
        rintro ⟨sym, hsym, -⟩
        rw [hnone] at hsym
        cases hsym
      rw [hmin] at hvalue
      refine iff_of_true ⟨hreads, ?_, ?_, ?_⟩ (.inr hnone)
      · exact .inl (congrArg _ hvalue)
      · rw [hvalue]
        exact iff_of_false (fun h => by cases h) hbelow
      · rw [hvalue]
        intro h
        cases h
  | some best =>
      have hbest : best ∈ t.functions (t.gSymtabLen / symSize) := List.argmin_mem hmin
      rw [hmin] at hvalue
      have hone : (t.symbolicate pc).value.result = 1 := congrArg _ hvalue
      constructor
      · exact fun hlookup => .inl (hlookup.result_iff.mp hone)
      · intro hbelow
        have hbelow : t.HasFunctionBelow pc := by
          refine hbelow.resolve_right fun hnone => ?_
          rw [hnone] at hbest
          cases hbest
        obtain ⟨hle, hgreatest⟩ := argmin_distance pc hmin hbelow
        exact ⟨hreads, .inr hone, iff_of_true hone hbelow,
          fun _ => ⟨best, hbest, hle, hgreatest, congrArg _ hvalue⟩⟩

end SymbolTables

open SymbolTables

/-- For every symbol table, string table and program counter in the text of the kernel: the lookup
does what it is to do exactly if the symbol table is empty, or both tables have the length of the
same number of symbols and some function is not above the program counter or there is none at
all. -/
theorem symbol_lookup {t : SymbolTables} {pc : BitVec 64}
    (hpc : t.textStart ≤ pc ∧ pc ≤ t.textEnd) (hsymtab : t.gSymtab ≠ 0) (hstrtab : t.gStrtab ≠ 0) :
    LooksUp t pc ↔ t.gSymtabLen = 0 ∨
      t.gStrtabLen / symSize = t.gSymtabLen / symSize ∧
        (t.HasFunctionBelow pc ∨ t.NoFunction) := by
  by_cases hsymtabLen : t.gSymtabLen = 0
  · have hempty : t.gSymtabLen / symSize = 0 := by rw [hsymtabLen, Nat.zero_div]
    exact iff_of_true (looksUp_of_no_entries hempty (symbolicate_of_empty hpc (.inl hsymtabLen)))
      (.inl hsymtabLen)
  rw [or_iff_right hsymtabLen]
  by_cases hstrtabLen : t.gStrtabLen = 0
  · have hnothing := symbolicate_of_empty hpc (.inr hstrtabLen)
    constructor
    · -- nothing is read, so there is no entry
      intro hlookup
      have hlength := congrArg List.length hlookup.reads
      rw [hnothing, List.length_range] at hlength
      refine ⟨by rw [hstrtabLen, Nat.zero_div]; exact hlength, .inr ?_⟩
      rw [NoFunction, ← hlength]
      rfl
    · rintro ⟨hsame, -⟩
      rw [hstrtabLen, Nat.zero_div] at hsame
      exact looksUp_of_no_entries hsame.symm hnothing
  constructor
  · intro hlookup
    have hreads := (symbolicate_eq hpc hsymtab hstrtab hsymtabLen hstrtabLen).1
    have hsame : t.gStrtabLen / symSize = t.gSymtabLen / symSize := by
      have hlength := congrArg List.length (hreads.symm.trans hlookup.reads)
      rwa [List.length_range, List.length_range] at hlength
    exact ⟨hsame, (looksUp_iff hpc hsymtab hstrtab hsymtabLen hstrtabLen hsame).mp hlookup⟩
  · rintro ⟨hsame, hbelow⟩
    exact (looksUp_iff hpc hsymtab hstrtab hsymtabLen hstrtabLen hsame).mpr hbelow

/-! ### Small tables -/

/-- A symbol table with functions at `0x8010` and `0x8018`, whose names are at 1 and 7 in a string
table of 50 bytes. -/
def twoSymbols : SymbolTables where
  gSymtab := 0x1000
  gSymtabLen := 48
  gStrtab := 0x2000
  gStrtabLen := 50
  memory addr :=
    if addr = 0x1000 then 1 else if addr = 0x1018 then 7
    else if addr = 0x1004 ∨ addr = 0x101c then 2
    else if addr = 0x1008 then 0x10 else if addr = 0x1020 then 0x18
    else if addr = 0x1009 ∨ addr = 0x1021 then 0x80 else 0
  textStart := 0x8000
  textEnd := 0x9000

/-- The closer function is found. -/
theorem symbol_lookup_two : LooksUp twoSymbols 0x8020 ∧
    (twoSymbols.symbolicate 0x8020).value = ⟨1, some (0x2007, 8)⟩ := by
  have hbelow : twoSymbols.HasFunctionBelow 0x8020 :=
    ⟨twoSymbols.sym 0, List.mem_filter.mpr ⟨List.mem_cons_self, by decide +kernel⟩,
      by decide +kernel⟩
  exact ⟨(symbol_lookup (by decide) (by decide) (by decide)).mpr
    (.inr ⟨by decide, .inl hbelow⟩), by decide +kernel⟩

/-- A symbol table with one function at `0x8010`, and a string table of 48 bytes. -/
def oneSymbol : SymbolTables where
  gSymtab := 0x1000
  gSymtabLen := 24
  gStrtab := 0x2000
  gStrtabLen := 48
  memory addr := if addr = 0x1004 then 2 else if addr = 0x1008 then 0x10
    else if addr = 0x1009 then 0x80 else 0
  textStart := 0x8000
  textEnd := 0x9000

/-- An entry behind the symbol table is read. -/
theorem not_symbol_lookup : ¬LooksUp oneSymbol 0x8020 := by
  intro hlookup
  have hreads := (@symbolicate_eq oneSymbol 0x8020 (by decide) (by decide)
    (by decide) (by decide) (by decide)).1
  exact absurd (hreads.symm.trans hlookup.reads) (by decide)

end KushOs.Backtrace
