import Mathlib.Data.List.Basic
import Mathlib.Data.Nat.ModEq
import Mathlib.Tactic.Common

/-!
# Buffers, the ranges inside them, and little-endian numbers

A buffer is a list of cells. The module covers what an encoder and a decoder do with one: cut out
the cells of a range, overwrite the cells of a range in place, and keep ranges apart. The number
format at the end is the fixed-width little-endian one.

## Main results

* `slice_overwrite_self`, `slice_overwrite_of_disjoint`, `slice_overwrite_of_apart`: what a read
  sees after an overwrite.
* `Tiles.pairwise_disjoint`, `Tiles.le_limit`: ranges laid end to end are disjoint and stay inside
  the interval that they tile.
* `ofLittleEndian_toLittleEndian`: the number read back is the number written, modulo its width.
-/

namespace ByteBuffer

/-- A range of cells. -/
structure Range where
  offset : ℕ
  size : ℕ
  deriving DecidableEq, Repr

namespace Range

/-- The first offset behind the range. -/
def limit (r : Range) : ℕ := r.offset + r.size

/-- The ranges share no cell: one of them ends before the other starts. -/
def Disjoint (r s : Range) : Prop := r.limit ≤ s.offset ∨ s.limit ≤ r.offset

@[simp]
theorem limit_mk (offset size : ℕ) : limit ⟨offset, size⟩ = offset + size := rfl

/-- Disjointness is symmetric. -/
theorem Disjoint.symm {r s : Range} (h : r.Disjoint s) : s.Disjoint r := Or.symm h

/-- The ranges have no cell in common. An empty range is apart from every other one, wherever it
lies. -/
def Apart (r s : Range) : Prop := ∀ i, r.offset ≤ i → i < r.limit → s.offset ≤ i → s.limit ≤ i

/-- Disjoint ranges share no byte. -/
theorem Disjoint.apart {r s : Range} (h : r.Disjoint s) : r.Apart s := by
  intro i _ hr hs
  unfold Disjoint at h
  omega

/-- Sharing no byte is symmetric. -/
theorem Apart.symm {r s : Range} (h : r.Apart s) : s.Apart r := by
  intro i hs hs' hr
  by_contra hlt
  exact absurd (h i hr (not_le.1 hlt) hs) (not_le.2 hs')

end Range

section Buffers

variable {α : Type*}

/-- The cells of a range. -/
def slice (b : List α) (r : Range) : List α := (b.drop r.offset).take r.size

/-- The buffer with the cells from `offset` on replaced by `src`. -/
def overwrite (b : List α) (offset : ℕ) (src : List α) : List α :=
  b.take offset ++ (src ++ b.drop (offset + src.length))

/-- A range inside of a buffer has as many bytes as its size says. -/
theorem length_slice {b : List α} {r : Range} (h : r.limit ≤ b.length) :
    (slice b r).length = r.size := by
  unfold Range.limit at h
  rw [slice, List.length_take, List.length_drop]
  omega

/-- Where the bytes of a slice come from. -/
theorem getElem?_slice (b : List α) (r : Range) (i : ℕ) :
    (slice b r)[i]? = if i < r.size then b[r.offset + i]? else none := by
  rw [slice, List.getElem?_take, List.getElem?_drop]

/-- A buffer keeps its length when it is written inside. -/
theorem length_overwrite {b src : List α} {offset : ℕ} (h : offset + src.length ≤ b.length) :
    (overwrite b offset src).length = b.length := by
  rw [overwrite, List.length_append, List.length_append, List.length_take, List.length_drop]
  omega

/-- Where the bytes of a buffer come from that has been written. -/
theorem getElem?_overwrite {b src : List α} {offset : ℕ} (h : offset ≤ b.length) (i : ℕ) :
    (overwrite b offset src)[i]? =
      if i < offset then b[i]?
      else if i < offset + src.length then src[i - offset]? else b[i]? := by
  have htake : (b.take offset).length = offset := by rw [List.length_take]; omega
  by_cases hlow : i < offset
  · rw [if_pos hlow, overwrite, List.getElem?_append_left (by omega), List.getElem?_take_of_lt hlow]
  · rw [if_neg hlow, overwrite, List.getElem?_append_right (by omega), htake]
    by_cases hmid : i < offset + src.length
    · rw [if_pos hmid, List.getElem?_append_left (by omega)]
    · rw [if_neg hmid, List.getElem?_append_right (by omega), List.getElem?_drop]
      congr 1
      omega

/-- The range just overwritten holds the new cells. -/
theorem slice_overwrite_self {b src : List α} {offset size : ℕ} (h : offset ≤ b.length)
    (hsize : src.length = size) : slice (overwrite b offset src) ⟨offset, size⟩ = src := by
  subst hsize
  apply List.ext_getElem?
  intro i
  rw [getElem?_slice, getElem?_overwrite h]
  by_cases hi : i < src.length
  · have hlow : ¬ offset + i < offset := by omega
    have hmid : offset + i < offset + src.length := by omega
    rw [if_pos hi, if_neg hlow, if_pos hmid, Nat.add_sub_cancel_left]
  · rw [if_neg hi, List.getElem?_eq_none (by omega)]

/-- A range apart from the one overwritten keeps its cells. -/
theorem slice_overwrite_of_disjoint {b src : List α} {offset : ℕ} {r : Range}
    (h : offset ≤ b.length) (hr : r.Disjoint ⟨offset, src.length⟩) :
    slice (overwrite b offset src) r = slice b r := by
  apply List.ext_getElem?
  intro i
  rw [getElem?_slice, getElem?_slice, getElem?_overwrite h]
  by_cases hi : i < r.size
  · rw [if_pos hi, if_pos hi]
    rcases hr with hr | hr
    · unfold Range.limit at hr
      have hlow : r.offset + i < offset := by simp only at hr; omega
      rw [if_pos hlow]
    · simp only [Range.limit_mk] at hr
      have hlow : ¬ r.offset + i < offset := by omega
      have hmid : ¬ r.offset + i < offset + src.length := by omega
      rw [if_neg hlow, if_neg hmid]
  · rw [if_neg hi, if_neg hi]

/-- So does one that only has no cell in common with it. -/
theorem slice_overwrite_of_apart {b src : List α} {offset : ℕ} {r : Range}
    (h : offset ≤ b.length) (hr : r.Apart ⟨offset, src.length⟩) :
    slice (overwrite b offset src) r = slice b r := by
  apply List.ext_getElem?
  intro i
  rw [getElem?_slice, getElem?_slice, getElem?_overwrite h]
  by_cases hi : i < r.size
  · have hcell := hr (r.offset + i) (Nat.le_add_right _ _) (Nat.add_lt_add_left hi _)
    rw [if_pos hi, if_pos hi]
    by_cases hlow : r.offset + i < offset
    · rw [if_pos hlow]
    · have hmid : ¬ r.offset + i < offset + src.length := not_lt.2 (hcell (not_lt.1 hlow))
      rw [if_neg hlow, if_neg hmid]
  · rw [if_neg hi, if_neg hi]

/-- An overwrite of the whole buffer leaves the new cells. -/
theorem overwrite_all {b src : List α} (h : b.length = src.length) : overwrite b 0 src = src := by
  rw [overwrite, List.take_zero, List.nil_append, Nat.zero_add, ← h, List.drop_length,
    List.append_nil]

/-- A slice of a slice is the slice at the sum of the offsets. -/
theorem slice_slice {b : List α} {r s : Range} (h : s.limit ≤ r.size) :
    slice (slice b r) s = slice b ⟨r.offset + s.offset, s.size⟩ := by
  unfold Range.limit at h
  apply List.ext_getElem?
  intro i
  rw [getElem?_slice, getElem?_slice, getElem?_slice]
  by_cases hi : i < s.size
  · have hr : s.offset + i < r.size := by omega
    rw [if_pos hi, if_pos hr, if_pos hi, Nat.add_assoc]
  · rw [if_neg hi, if_neg hi]

/-- The whole buffer. -/
theorem slice_self {b : List α} {size : ℕ} (h : b.length = size) : slice b ⟨0, size⟩ = b := by
  rw [slice, List.drop_zero, ← h, List.take_length]

/-- A range of the first part of a buffer is one of that part. -/
theorem slice_append_left {b c : List α} {r : Range} (h : r.limit ≤ b.length) :
    slice (b ++ c) r = slice b r := by
  unfold Range.limit at h
  rw [slice, slice, List.drop_append_of_le_length (by omega),
    List.take_append_of_le_length (by rw [List.length_drop]; omega)]

/-- A range behind the first part of a buffer is one of the second part. -/
theorem slice_append_right {b c : List α} {offset size : ℕ} (h : b.length ≤ offset) :
    slice (b ++ c) ⟨offset, size⟩ = slice c ⟨offset - b.length, size⟩ := by
  rw [slice, slice, List.drop_append, List.drop_eq_nil_of_le h, List.nil_append]

end Buffers

section Tiling

/-- The ranges lie end to end, in order, and fill the interval from `start` to `limit`. -/
def Tiles : ℕ → List Range → ℕ → Prop
  | start, [], limit => start = limit
  | start, r :: rs, limit => r.offset = start ∧ Tiles r.limit rs limit

/-- Ranges that lie end to end go upwards. -/
theorem Tiles.le {rs : List Range} {start limit : ℕ} (h : Tiles start rs limit) :
    start ≤ limit := by
  induction rs generalizing start with
  | nil => exact le_of_eq h
  | cons r rs ih =>
    have := ih h.2
    have := h.1
    unfold Range.limit at *
    omega

/-- Two rows of ranges can be put end to end. -/
theorem Tiles.append {rs ss : List Range} {start mid limit : ℕ} (hr : Tiles start rs mid)
    (hs : Tiles mid ss limit) : Tiles start (rs ++ ss) limit := by
  induction rs generalizing start with
  | nil => rwa [show start = mid from hr]
  | cons r rs ih => exact ⟨hr.1, ih hr.2⟩

/-- A tile stays inside the interval. -/
theorem Tiles.start_le {rs : List Range} {start limit : ℕ} (h : Tiles start rs limit) {r : Range}
    (hr : r ∈ rs) : start ≤ r.offset := by
  induction rs generalizing start with
  | nil => cases hr
  | cons s rs ih =>
    rcases List.mem_cons.1 hr with rfl | hr
    · exact le_of_eq h.1.symm
    · have hs : start ≤ s.limit := by rw [Range.limit, h.1]; exact Nat.le_add_right _ _
      exact hs.trans (ih h.2 hr)

/-- A tile stays inside the interval. -/
theorem Tiles.le_limit {rs : List Range} {start limit : ℕ} (h : Tiles start rs limit) {r : Range}
    (hr : r ∈ rs) : r.limit ≤ limit := by
  induction rs generalizing start with
  | nil => cases hr
  | cons s rs ih =>
    rcases List.mem_cons.1 hr with rfl | hr
    · exact h.2.le
    · exact ih h.2 hr

/-- Tiles are pairwise disjoint. -/
theorem Tiles.pairwise_disjoint {rs : List Range} {start limit : ℕ} (h : Tiles start rs limit) :
    rs.Pairwise Range.Disjoint := by
  induction rs generalizing start with
  | nil => exact List.Pairwise.nil
  | cons r rs ih => exact List.Pairwise.cons (fun s hs => Or.inl (h.2.start_le hs)) (ih h.2)

end Tiling

section LittleEndian

/-- The `width` low-order bytes of a number, the least significant one first. -/
def toLittleEndian : ℕ → ℕ → List UInt8
  | 0, _ => []
  | width + 1, n => UInt8.ofNat n :: toLittleEndian width (n / 256)

/-- The number whose bytes are given, the least significant one first. -/
def ofLittleEndian : List UInt8 → ℕ
  | [] => 0
  | b :: bs => b.toNat + 256 * ofLittleEndian bs

/-- A number takes the bytes that it is given. -/
@[simp]
theorem length_toLittleEndian (width n : ℕ) : (toLittleEndian width n).length = width := by
  induction width generalizing n with
  | zero => rfl
  | succ width ih => rw [toLittleEndian, List.length_cons, ih]

/-- Reading back what was written gives the number modulo its width. -/
theorem ofLittleEndian_toLittleEndian (width n : ℕ) :
    ofLittleEndian (toLittleEndian width n) = n % 256 ^ width := by
  induction width generalizing n with
  | zero => rw [pow_zero, Nat.mod_one]; rfl
  | succ width ih =>
    have hsplit : n % 256 ^ (width + 1) = n % 256 + 256 * (n / 256 % 256 ^ width) := by
      rw [pow_succ', Nat.mod_mul]
    rw [toLittleEndian, ofLittleEndian, ih, hsplit, UInt8.toNat_ofNat']

/-- A number that fits its width is read back unchanged. -/
theorem ofLittleEndian_toLittleEndian_of_lt {width n : ℕ} (h : n < 256 ^ width) :
    ofLittleEndian (toLittleEndian width n) = n := by
  rw [ofLittleEndian_toLittleEndian, Nat.mod_eq_of_lt h]

/-- How large a number is that has so many bytes. -/
theorem ofLittleEndian_lt (bs : List UInt8) : ofLittleEndian bs < 256 ^ bs.length := by
  induction bs with
  | nil => decide
  | cons b bs ih =>
    have hb := b.toNat_lt
    rw [ofLittleEndian, List.length_cons, pow_succ']
    omega

/-- Numbers of one width are equal only if all of their bytes are. -/
theorem ofLittleEndian_inj {bs cs : List UInt8} (hlength : bs.length = cs.length)
    (h : ofLittleEndian bs = ofLittleEndian cs) : bs = cs := by
  induction bs generalizing cs with
  | nil => exact (List.length_eq_zero_iff.mp hlength.symm).symm
  | cons b bs ih =>
    cases cs with
    | nil => cases hlength
    | cons c cs =>
      have hb := b.toNat_lt
      have hc := c.toNat_lt
      rw [ofLittleEndian, ofLittleEndian] at h
      have hfirst : b = c := UInt8.toNat_inj.mp (by omega)
      rw [hfirst, ih (Nat.succ_inj.mp hlength) (by omega)]

end LittleEndian

end ByteBuffer
