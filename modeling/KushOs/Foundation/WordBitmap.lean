import Mathlib.Data.Finset.Card
import Mathlib.Data.Finset.Range
import Mathlib.Data.List.Sort
import Mathlib.Data.List.Basic
import Mathlib.Logic.Function.Basic
import Mathlib.Tactic.Common

/-!
# Bitmaps stored in 64-bit words

A bitmap is a sequence of 64-bit words; bit `b` is bit `b % 64` of word `b / 64`. The module
covers what allocators do with such a bitmap: set and clear one bit, find the least significant
set bit of a word, fill a prefix of the bytes, and list the set bits of a range of words.

## Main results

* `ext_bit`: a bitmap is determined by its bits.
* `bit_setBit`, `bit_clearBit`, `bit_memset`: the bits after an update.
* `bitPositions_eq_cons`: removing the least significant set bit removes the head of the list of
  positions, which is what a loop around `ffs` relies on.
* `mem_setBits`, `setBits_pairwise`: the listing of the set bits is sound, complete and sorted.
-/

namespace WordBitmap

/-- The words of a bitmap, by word index. -/
abbrev Words := ℕ → BitVec 64

/-- Bit `b` of the bitmap. -/
def bit (m : Words) (b : ℕ) : Bool := (m (b / 64)).getLsbD (b % 64)

/-- `m[b / 64] |= 1 << (b % 64)`. -/
def setBit (m : Words) (b : ℕ) : Words :=
  Function.update m (b / 64) (m (b / 64) ||| 1#64 <<< (b % 64))

/-- `m[b / 64] &= ~(1 << (b % 64))`. -/
def clearBit (m : Words) (b : ℕ) : Words :=
  Function.update m (b / 64) (m (b / 64) &&& ~~~(1#64 <<< (b % 64)))

/-- Two bitmaps agree on a word when they agree on its bits. -/
theorem word_eq_of_bit {m m' : Words} {w : ℕ}
    (h : ∀ i < 64, bit m (64 * w + i) = bit m' (64 * w + i)) : m w = m' w := by
  apply BitVec.eq_of_getLsbD_eq
  intro i hi
  have hdiv : (64 * w + i) / 64 = w := by omega
  have hmod : (64 * w + i) % 64 = i := by omega
  simpa [bit, hdiv, hmod] using h i hi

/-- A bitmap is determined by its bits. -/
theorem ext_bit {m m' : Words} (h : ∀ b, bit m b = bit m' b) : m = m' := by
  funext w
  exact word_eq_of_bit fun i _ => h (64 * w + i)

/-- A one-bit mask has exactly its own bit. -/
theorem getLsbD_one_shiftLeft {i j : ℕ} (hi : i < 64) :
    (1#64 <<< i).getLsbD j = decide (j = i) := by
  rw [BitVec.getLsbD_shiftLeft, BitVec.getLsbD_one]
  by_cases hj : j = i
  · subst hj
    simp [hi]
  · have : j < i ∨ j - i ≠ 0 := by omega
    rcases this with h | h
    · simp [h, hj]
    · simp [h, hj]

/-- Setting a bit changes that bit only. -/
@[simp]
theorem bit_setBit (m : Words) (b c : ℕ) : bit (setBit m b) c = (decide (c = b) || bit m c) := by
  unfold bit setBit
  by_cases hw : c / 64 = b / 64
  · rw [hw, Function.update_self, BitVec.getLsbD_or, getLsbD_one_shiftLeft (by omega),
      Bool.or_comm]
    have hiff : c % 64 = b % 64 ↔ c = b := by omega
    simp only [hiff]
  · have hne : c ≠ b := fun h => hw (by rw [h])
    simp [Function.update_of_ne hw, hne]

/-- Clearing a bit changes that bit only. -/
@[simp]
theorem bit_clearBit (m : Words) (b c : ℕ) :
    bit (clearBit m b) c = (decide (c ≠ b) && bit m c) := by
  unfold bit clearBit
  by_cases hw : c / 64 = b / 64
  · have hlt : c % 64 < 64 := Nat.mod_lt _ (by omega)
    have hiff : c % 64 = b % 64 ↔ c = b := by omega
    rw [hw, Function.update_self, BitVec.getLsbD_and, BitVec.getLsbD_not,
      getLsbD_one_shiftLeft (by omega), Bool.and_comm]
    simp [hlt, hiff]
  · have hne : c ≠ b := fun h => hw (by rw [h])
    simp [Function.update_of_ne hw, hne]

/-- Clearing bit `i` of word `w` clears bit `64 * w + i` of the bitmap. -/
theorem update_word_eq_clearBit (m : Words) (w : ℕ) {i : ℕ} (hi : i < 64) :
    Function.update m w (m w &&& ~~~(1#64 <<< i)) = clearBit m (64 * w + i) := by
  have hdiv : (64 * w + i) / 64 = w := by omega
  have hmod : (64 * w + i) % 64 = i := by omega
  rw [clearBit, hdiv, hmod]

/-- Clear the bits `bs`, one after the other. -/
def clearBits (m : Words) (bs : List ℕ) : Words := bs.foldl clearBit m

@[simp]
theorem clearBits_nil (m : Words) : clearBits m [] = m := rfl

@[simp]
theorem clearBits_cons (m : Words) (b : ℕ) (bs : List ℕ) :
    clearBits m (b :: bs) = clearBits (clearBit m b) bs := rfl

/-- Clearing several bits changes those bits only. -/
@[simp]
theorem bit_clearBits (m : Words) (bs : List ℕ) (c : ℕ) :
    bit (clearBits m bs) c = (decide (c ∉ bs) && bit m c) := by
  induction bs generalizing m with
  | nil => simp
  | cons b bs ih =>
    rw [clearBits_cons, ih, bit_clearBit]
    by_cases hb : c = b <;> by_cases hbs : c ∈ bs <;> simp [hb, hbs]

/-! ## Filling bytes -/

/-- Store byte `k` of the bitmap's storage; the words are little-endian. -/
def storeByte (m : Words) (k : ℕ) (v : BitVec 8) : Words :=
  Function.update m (k / 8)
    (m (k / 8) &&& ~~~(0xFF#64 <<< (8 * (k % 8))) ||| v.zeroExtend 64 <<< (8 * (k % 8)))

/-- `memset(m, v, n)`: store `v` into the first `n` bytes. -/
def memset (m : Words) (v : BitVec 8) : ℕ → Words
  | 0 => m
  | n + 1 => storeByte (memset m v n) n v

/-- A byte-wide mask covers the eight bits from its shift on. -/
theorem getLsbD_byteMask {i j : ℕ} (hi : i < 8) (hj : j < 64) :
    (0xFF#64 <<< (8 * i)).getLsbD j = decide (j / 8 = i) := by
  have hff : ∀ k < 64, (0xFF#64).getLsbD k = decide (k < 8) := by decide
  rw [BitVec.getLsbD_shiftLeft]
  by_cases hlt : j < 8 * i
  · have hne : j / 8 ≠ i := by omega
    simp [hlt, hne]
  · rw [hff _ (by omega)]
    have hiff : j - 8 * i < 8 ↔ j / 8 = i := by omega
    simp [hlt, hj, hiff]

/-- Storing a byte replaces the eight bits it covers. -/
theorem bit_storeByte (m : Words) (k : ℕ) (v : BitVec 8) (b : ℕ) :
    bit (storeByte m k v) b = if b / 8 = k then v.getLsbD (b % 8) else bit m b := by
  unfold bit storeByte
  by_cases hw : b / 64 = k / 8
  · have hlt : b % 64 < 64 := Nat.mod_lt _ (by omega)
    have hiff : b % 64 / 8 = k % 8 ↔ b / 8 = k := by omega
    rw [hw, Function.update_self, BitVec.getLsbD_or, BitVec.getLsbD_and, BitVec.getLsbD_not,
      getLsbD_byteMask (by omega) hlt, BitVec.getLsbD_shiftLeft, BitVec.getLsbD_setWidth]
    by_cases hb : b / 8 = k
    · have hsub : b % 64 - 8 * (k % 8) = b % 8 := by omega
      have hge : ¬ b % 64 < 8 * (k % 8) := by omega
      have hlt8 : b % 8 < 64 := by omega
      simp [hiff, hb, hsub, hge, hlt, hlt8]
    · have hout : b % 64 < 8 * (k % 8) ∨ 8 ≤ b % 64 - 8 * (k % 8) := by omega
      rcases hout with h | h
      · simp [hiff, hb, hlt, h]
      · simp [hiff, hb, hlt, BitVec.getLsbD_of_ge v _ h]
  · have hne : b / 8 ≠ k := by omega
    simp [Function.update_of_ne hw, hne]

/-- After filling `n` bytes, the bits they cover are those of the fill byte. -/
theorem bit_memset (m : Words) (v : BitVec 8) (n b : ℕ) :
    bit (memset m v n) b = if b / 8 < n then v.getLsbD (b % 8) else bit m b := by
  induction n with
  | zero => simp [memset]
  | succ n ih =>
    rw [memset, bit_storeByte, ih]
    by_cases hb : b / 8 = n
    · simp [hb]
    · have hiff : b / 8 < n + 1 ↔ b / 8 < n := by omega
      simp [hb, hiff]

/-! ## Listing set bits -/

/-- The positions of the set bits of a word, least significant first. -/
def bitPositions (v : BitVec 64) : List ℕ := (List.range 64).filter fun i => v.getLsbD i

/-- `__builtin_ffsll`: one plus the index of the least significant set bit, zero if there is
none. -/
def ffs (v : BitVec 64) : ℕ :=
  match bitPositions v with
  | [] => 0
  | i :: _ => i + 1

/-- A position is listed exactly when the bit is set. -/
@[simp]
theorem mem_bitPositions {v : BitVec 64} {i : ℕ} : i ∈ bitPositions v ↔ v.getLsbD i = true := by
  simp only [bitPositions, List.mem_filter, List.mem_range, and_iff_right_iff_imp]
  intro h
  by_contra hge
  simp [BitVec.getLsbD_of_ge v i (by omega)] at h

/-- Positions are listed in increasing order. -/
theorem bitPositions_pairwise (v : BitVec 64) : (bitPositions v).Pairwise (· < ·) :=
  List.Pairwise.filter _ List.pairwise_lt_range

/-- Only the zero word has no set bit. -/
theorem bitPositions_eq_nil {v : BitVec 64} : bitPositions v = [] ↔ v = 0 := by
  constructor
  · intro h
    apply BitVec.eq_of_getLsbD_eq
    intro i _
    have hnot : i ∉ bitPositions v := by simp [h]
    simpa using hnot
  · rintro rfl
    rw [List.eq_nil_iff_forall_not_mem]
    simp

/-- Clearing the least significant set bit of a word removes the first position and keeps the
others. -/
theorem bitPositions_eq_cons {v : BitVec 64} (hv : v ≠ 0) :
    bitPositions v = (ffs v - 1) :: bitPositions (v &&& ~~~(1#64 <<< (ffs v - 1))) := by
  obtain ⟨i, rest, hlist⟩ := List.exists_cons_of_ne_nil (mt bitPositions_eq_nil.mp hv)
  have hffs : ffs v - 1 = i := by simp [ffs, hlist]
  have hi : v.getLsbD i = true := mem_bitPositions.mp (by simp [hlist])
  have hi64 : i < 64 := by
    by_contra hge
    simp [BitVec.getLsbD_of_ge v i (by omega)] at hi
  have hsorted := bitPositions_pairwise v
  rw [hlist, List.pairwise_cons] at hsorted
  rw [hffs, hlist]
  congr 1
  -- both lists are sorted, so it is enough that they have the same members
  refine hsorted.2.eq_of_mem_iff (bitPositions_pairwise _) fun j => ?_
  have hmem : j ∈ bitPositions v ↔ j = i ∨ j ∈ rest := by simp [hlist]
  have hni : i ∉ rest := fun h => lt_irrefl i (hsorted.1 i h)
  rw [mem_bitPositions, BitVec.getLsbD_and, BitVec.getLsbD_not, getLsbD_one_shiftLeft hi64]
  rw [mem_bitPositions] at hmem
  constructor
  · intro hj
    have hjv : v.getLsbD j = true := hmem.mpr (Or.inr hj)
    have hj64 : j < 64 := by
      by_contra hge
      simp [BitVec.getLsbD_of_ge v j (by omega)] at hjv
    have hji : j ≠ i := fun h => hni (h ▸ hj)
    simp [hjv, hj64, hji]
  · intro h
    simp only [Bool.and_eq_true, Bool.not_eq_true', decide_eq_false_iff_not] at h
    exact (hmem.mp h.1).resolve_left h.2.2

/-- The set bits in the `n` words from word `w` on, in increasing order. -/
def setBits (m : Words) (w : ℕ) : ℕ → List ℕ
  | 0 => []
  | n + 1 => (bitPositions (m w)).map (64 * w + ·) ++ setBits m (w + 1) n

/-- A bit is listed exactly when it is set and its word is in the range. -/
theorem mem_setBits {m : Words} {w n b : ℕ} :
    b ∈ setBits m w n ↔ w ≤ b / 64 ∧ b / 64 < w + n ∧ bit m b = true := by
  induction n generalizing w with
  | zero =>
    simp only [setBits, List.not_mem_nil, false_iff]
    omega
  | succ n ih =>
    simp only [setBits, List.mem_append, List.mem_map, ih, mem_bitPositions]
    constructor
    · rintro (⟨i, hi, rfl⟩ | ⟨hlo, hhi, hb⟩)
      · have hi64 : i < 64 := by
          by_contra hge
          simp [BitVec.getLsbD_of_ge (m w) i (by omega)] at hi
        have hdiv : (64 * w + i) / 64 = w := by omega
        have hmod : (64 * w + i) % 64 = i := by omega
        exact ⟨by omega, by omega, by simpa [bit, hdiv, hmod] using hi⟩
      · exact ⟨by omega, by omega, hb⟩
    · rintro ⟨hlo, hhi, hb⟩
      by_cases hw : b / 64 = w
      · left
        refine ⟨b % 64, ?_, by omega⟩
        simpa [bit, hw] using hb
      · right
        exact ⟨by omega, by omega, hb⟩

/-- The set bits are listed in increasing order. -/
theorem setBits_pairwise (m : Words) (w n : ℕ) : (setBits m w n).Pairwise (· < ·) := by
  induction n generalizing w with
  | zero => simp [setBits]
  | succ n ih =>
    rw [setBits, List.pairwise_append]
    refine ⟨?_, ih (w + 1), ?_⟩
    · rw [List.pairwise_map]
      exact (bitPositions_pairwise (m w)).imp fun h => by omega
    · intro a ha b hb
      obtain ⟨i, hi, rfl⟩ := List.mem_map.mp ha
      have hi64 : i < 64 := by
        by_contra hge
        rw [mem_bitPositions, BitVec.getLsbD_of_ge (m w) i (by omega)] at hi
        cases hi
      have hlo := (mem_setBits.mp hb).1
      omega

/-- No bit is listed twice. -/
theorem setBits_nodup (m : Words) (w n : ℕ) : (setBits m w n).Nodup :=
  (setBits_pairwise m w n).imp fun h => Nat.ne_of_lt h

/-- The listing depends on the words of its range only. -/
theorem setBits_congr {m m' : Words} {w n : ℕ} (h : ∀ k, w ≤ k → m k = m' k) :
    setBits m w n = setBits m' w n := by
  induction n generalizing w with
  | zero => rfl
  | succ n ih =>
    rw [setBits, setBits, h w le_rfl, ih fun k hk => h k (by omega)]

/-! ## Counting clear bits -/

/-- Number of clear bits among the first `n`. -/
def clearCount (m : Words) (n : ℕ) : ℕ := ((Finset.range n).filter fun b => bit m b = false).card

theorem clearCount_le (m : Words) (n : ℕ) : clearCount m n ≤ n :=
  (Finset.card_filter_le _ _).trans (by simp)

/-- Clearing a set bit makes one more bit clear. -/
theorem clearCount_clearBit {m : Words} {n b : ℕ} (hb : b < n) (hset : bit m b = true) :
    clearCount (clearBit m b) n = clearCount m n + 1 := by
  have hinsert : (Finset.range n).filter (fun c => bit (clearBit m b) c = false) =
      insert b ((Finset.range n).filter fun c => bit m c = false) := by
    ext c
    by_cases hc : c = b <;> simp [hc, hb]
  rw [clearCount, hinsert, Finset.card_insert_of_notMem (by simp [hset])]
  rfl

/-- Setting a clear bit makes one bit less clear. -/
theorem clearCount_setBit {m : Words} {n b : ℕ} (hb : b < n) (hclear : bit m b = false) :
    clearCount (setBit m b) n + 1 = clearCount m n := by
  have hback : clearBit (setBit m b) b = m := by
    apply ext_bit
    intro c
    by_cases hc : c = b <;> simp [hc, hclear]
  rw [← clearCount_clearBit hb (by simp : bit (setBit m b) b = true), hback]

/-- Clearing distinct set bits makes as many more bits clear. -/
theorem clearCount_clearBits {m : Words} {n : ℕ} {bs : List ℕ} (hnodup : bs.Nodup)
    (hbs : ∀ b ∈ bs, b < n ∧ bit m b = true) :
    clearCount (clearBits m bs) n = clearCount m n + bs.length := by
  induction bs generalizing m with
  | nil => simp
  | cons b bs ih =>
    rw [List.nodup_cons] at hnodup
    have hb := hbs b List.mem_cons_self
    have hrest : ∀ c ∈ bs, c < n ∧ bit (clearBit m b) c = true := by
      intro c hc
      have hne : c ≠ b := fun h => hnodup.1 (h ▸ hc)
      have := hbs c (List.mem_cons_of_mem b hc)
      simp [this, hne]
    rw [clearBits_cons, ih hnodup.2 hrest, clearCount_clearBit hb.1 hb.2, List.length_cons]
    omega

end WordBitmap
