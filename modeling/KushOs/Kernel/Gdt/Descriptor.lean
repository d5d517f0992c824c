import Mathlib.Data.BitVec
import Mathlib.Tactic.Common
import Mathlib.Tactic.IntervalCases

/-!
# Segment descriptors

The two formats of `GdtTypes.h`. A `GdtDescriptor` is one entry of the table; a `GdtDescriptor64`
has the size of two, and its first half has the layout of a `GdtDescriptor`. Both scatter the base
and the limit of their segment over several fields, which the processor puts together again.

## Main definitions

* `GdtDescriptor`, `GdtDescriptor64`: the structures, with their bytes in memory.
* `GdtDescriptor64.halves`: the two entries that a 64-bit descriptor fills.
* `GdtDescriptor.decode`, `decodeSystem`: what a descriptor says about its segment.

## Main results

* `bytes_halves`: the two entries have the bytes of the descriptor.
-/

namespace KushOs.Gdt

/-! ## Layouts -/

/-- `GdtDescriptor` -/
structure GdtDescriptor where
  limitLow : BitVec 16
  baseLow : BitVec 16
  baseMiddle : BitVec 8
  access : BitVec 8
  granularity : BitVec 8
  baseHigh : BitVec 8
  deriving DecidableEq, Repr

/-- `GdtDescriptor64` -/
structure GdtDescriptor64 where
  /-- limit 15..0 -/
  limit0 : BitVec 16
  /-- base 15..0 -/
  base0 : BitVec 16
  /-- base 23..16 -/
  base1 : BitVec 8
  /-- present flag, DPL, type -/
  typeFlags : BitVec 8
  /-- granularity, available flag, bits 19..16 of limit -/
  granularityLimit : BitVec 8
  /-- base address 31..24 -/
  base2 : BitVec 8
  /-- base address 63..32 -/
  base3 : BitVec 32
  /-- reserved (always zero) -/
  reserved : BitVec 32
  deriving DecidableEq, Repr

/-- The `n` bytes of a field in memory, the least significant one first. -/
def fieldBytes {w : ℕ} : ℕ → BitVec w → List (BitVec 8)
  | 0, _ => []
  | n + 1, x => x.setWidth 8 :: fieldBytes n (x >>> 8)

/-- The bytes of a packed `GdtDescriptor`. -/
def GdtDescriptor.bytes (d : GdtDescriptor) : List (BitVec 8) :=
  fieldBytes 2 d.limitLow ++ fieldBytes 2 d.baseLow ++ [d.baseMiddle, d.access, d.granularity,
    d.baseHigh]

/-- The bytes of a packed `GdtDescriptor64`. -/
def GdtDescriptor64.bytes (d : GdtDescriptor64) : List (BitVec 8) :=
  fieldBytes 2 d.limit0 ++ fieldBytes 2 d.base0 ++ [d.base1, d.typeFlags, d.granularityLimit,
    d.base2] ++ fieldBytes 4 d.base3 ++ fieldBytes 4 d.reserved

/-- The two entries that a copy of the descriptor fills. -/
def GdtDescriptor64.halves (d : GdtDescriptor64) : GdtDescriptor × GdtDescriptor :=
  (⟨d.limit0, d.base0, d.base1, d.typeFlags, d.granularityLimit, d.base2⟩,
    ⟨d.base3.setWidth 16, (d.base3 >>> 16).setWidth 16, d.reserved.setWidth 8,
      (d.reserved >>> 8).setWidth 8, (d.reserved >>> 16).setWidth 8,
      (d.reserved >>> 24).setWidth 8⟩)

/-- The low byte of a part of a number. -/
theorem setWidth_setWidth {w : ℕ} (x : BitVec w) : (x.setWidth 16).setWidth 8 = x.setWidth 8 := by
  ext i hi
  simp

/-- The high byte of a part of 16 bits. -/
theorem setWidth_shiftRight_setWidth {w : ℕ} (x : BitVec w) :
    (x.setWidth 16 >>> 8).setWidth 8 = (x >>> 8).setWidth 8 := by
  ext i hi
  simp
  omega

/-! ## What a descriptor says -/

/-- What the processor takes from the descriptor of a segment. The limit has 20 bits, and the
granularity byte shares its low half with it. -/
structure Segment where
  base : BitVec 64
  limit : BitVec 20
  access : BitVec 8
  granularity : BitVec 4
  deriving DecidableEq, Repr

namespace GdtDescriptor

variable (d : GdtDescriptor)

/-- The base in the fields of one entry. -/
def base : BitVec 32 := d.baseHigh ++ d.baseMiddle ++ d.baseLow

/-- The limit in the fields of one entry. -/
def limit : BitVec 20 := d.granularity.setWidth 4 ++ d.limitLow

/-- The segment of a descriptor of one entry. -/
def decode : Segment where
  base := d.base.setWidth 64
  limit := d.limit
  access := d.access
  granularity := (d.granularity >>> 4).setWidth 4

/-- The segment of a descriptor of two entries: the upper one starts with the rest of the base. -/
def decodeSystem (upper : GdtDescriptor) : Segment where
  base := upper.baseLow ++ upper.limitLow ++ d.base
  limit := d.limit
  access := d.access
  granularity := (d.granularity >>> 4).setWidth 4

end GdtDescriptor

/-! ## Fields -/

section Fields

variable {w : ℕ}

/-- Bits of a number, as the code cuts them out. -/
theorem setWidth_shiftRight_and (x : BitVec w) (n k : ℕ) :
    (x >>> n &&& BitVec.ofNat w (2 ^ k - 1)).setWidth k = x.extractLsb' n k := by
  ext i hi
  simp only [BitVec.getElem_setWidth, BitVec.getLsbD_and, BitVec.getLsbD_ushiftRight,
    BitVec.getLsbD_ofNat, Nat.testBit_two_pow_sub_one, hi, decide_true, Bool.and_true,
    BitVec.getElem_extractLsb', Bool.and_eq_left_iff_imp, decide_eq_true_eq]
  intro hbit
  have := BitVec.lt_of_getLsbD hbit
  omega

/-- The low bits of a number, as the code cuts them out. -/
theorem setWidth_and_low (x : BitVec w) (k : ℕ) :
    (x &&& BitVec.ofNat w (2 ^ k - 1)).setWidth k = x.extractLsb' 0 k := by
  have h := setWidth_shiftRight_and x 0 k
  rwa [BitVec.ushiftRight_zero] at h

/-- Two halves of a byte, put together as the code does. -/
theorem halves_or (low high : BitVec 8) :
    (low &&& 0x0F ||| high &&& 0xF0).setWidth 4 = low.setWidth 4 ∧
      ((low &&& 0x0F ||| high &&& 0xF0) >>> 4).setWidth 4 = (high >>> 4).setWidth 4 := by
  constructor
  · ext i hi
    interval_cases i <;> simp
  · ext i hi
    interval_cases i <;> simp

/-- The byte that holds the upper half of a limit next to the granularity. -/
theorem granularity_halves (limit : BitVec 32) (gran : BitVec 8) :
    ((limit >>> 16 &&& 0x0F).setWidth 8 ||| gran &&& 0xF0).setWidth 4 =
        limit.extractLsb' 16 4 ∧
      (((limit >>> 16 &&& 0x0F).setWidth 8 ||| gran &&& 0xF0) >>> 4).setWidth 4 =
        (gran >>> 4).setWidth 4 := by
  have hmask : (limit >>> 16 &&& 0x0F).setWidth 8 = (limit >>> 16).setWidth 8 &&& 0x0F := by
    rw [BitVec.setWidth_and]
    rfl
  rw [hmask]
  refine ⟨(halves_or _ _).1.trans ?_, (halves_or _ _).2⟩
  rw [BitVec.setWidth_setWidth_of_le _ (by decide), BitVec.setWidth_ushiftRight_eq_extractLsb]

/-- Three fields that hold the low 32 bits of a base. -/
theorem base_fields (base : BitVec w) :
    ((base >>> 24 &&& 0xFF).setWidth 8 ++ (base >>> 16 &&& 0xFF).setWidth 8 ++
      (base &&& 0xFFFF).setWidth 16 : BitVec 32) = base.extractLsb' 0 32 := by
  have hhigh : (base >>> 24 &&& 0xFF).setWidth 8 = base.extractLsb' 24 8 :=
    setWidth_shiftRight_and base 24 8
  have hmiddle : (base >>> 16 &&& 0xFF).setWidth 8 = base.extractLsb' 16 8 :=
    setWidth_shiftRight_and base 16 8
  have hlow : (base &&& 0xFFFF).setWidth 16 = base.extractLsb' 0 16 := setWidth_and_low base 16
  have hupper : base.extractLsb' 24 8 ++ base.extractLsb' 16 8 = base.extractLsb' 16 16 :=
    BitVec.extractLsb'_append_extractLsb'_eq_extractLsb' rfl
  rw [hhigh, hmiddle, hlow, hupper]
  exact BitVec.extractLsb'_append_extractLsb'_eq_extractLsb' rfl

/-- Two fields that hold the low 20 bits of a limit. -/
theorem limit_fields (limit : BitVec 32) :
    (limit.extractLsb' 16 4 ++ (limit &&& 0xFFFF).setWidth 16 : BitVec 20) =
      limit.setWidth 20 := by
  have hlow : (limit &&& 0xFFFF).setWidth 16 = limit.extractLsb' 0 16 := setWidth_and_low limit 16
  rw [hlow, BitVec.setWidth_eq_extractLsb' (by decide)]
  exact BitVec.extractLsb'_append_extractLsb'_eq_extractLsb' rfl

/-- The upper 32 bits of a base, in the first two fields of the second entry. -/
theorem upper_fields (base : BitVec 64) :
    (((base >>> 32).setWidth 32 >>> 16).setWidth 16 ++ ((base >>> 32).setWidth 32).setWidth 16 ++
      base.extractLsb' 0 32 : BitVec 64) = base := by
  have hupper : (base >>> 32).setWidth 32 = base.extractLsb' 32 32 :=
    BitVec.setWidth_ushiftRight_eq_extractLsb
  have hhalves : (base.extractLsb' 32 32 >>> 16).setWidth 16 ++
      (base.extractLsb' 32 32).setWidth 16 = base.extractLsb' 32 32 := by
    rw [BitVec.setWidth_ushiftRight_eq_extractLsb, BitVec.setWidth_eq_extractLsb' (by decide)]
    refine (BitVec.extractLsb'_append_extractLsb'_eq_extractLsb' rfl).trans ?_
    exact BitVec.extractLsb'_eq_self
  rw [hupper, hhalves]
  refine (BitVec.extractLsb'_append_extractLsb'_eq_extractLsb' rfl).trans ?_
  exact BitVec.extractLsb'_eq_self

end Fields

end KushOs.Gdt
