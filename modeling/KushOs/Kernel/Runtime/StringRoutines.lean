import KushOs.Kernel.Console.Scrolling

/-!
# The routines of `Runtime/String.cpp`

`memmove` copies from the start of the blocks or from their end, whichever does not overwrite what
is still to be read, and in words where both addresses can be aligned. `memcpy` copies from the
start, and panics where the blocks overlap. `strncpy` stops at the end of the string and fills the
rest of the target.

## Main definitions

* `memset`, `memmove`, `strncpy`: the routines, on memory.
* `cString`: a string and the padding behind it.

## Main results

* `memmove_copies`: `memmove` copies blocks that overlap in any way.
* `memcpy_agrees`: where `memcpy` returns it does what `memmove` does, and where it panics.
* `strncpy_copies`: what `strncpy` leaves in the target.
-/

namespace KushOs.Runtime

open BlockMemory FbCons

/-- The bytes of memory. -/
abbrev Bytes : Type := BitVec 64 → BitVec 8

/-! ## The routines -/

/-- The loop of `memset`. -/
def fillLoop (c : BitVec 8) : ℕ → BitVec 64 → Bytes → Bytes
  | 0, _, m => m
  | n + 1, d, m => fillLoop c n (d + 1) (store 1 (fun _ => c) d m)

/-- `memset`: the lowest byte of `c` is written. -/
def memset (dst : BitVec 64) (c : BitVec 32) (n : BitVec 64) (m : Bytes) : Bytes :=
  if n ≠ 0 then fillLoop (c.setWidth 8) (turns n) dst m else m

/-- The end of the second branch of `memmove`: whole words, and the bytes before them. -/
def copyWordsDown (dst src length : BitVec 64) (m : Bytes) : Bytes :=
  let (dst, src, m) := copyLoopDown 8 (length / wsize).toNat dst src m
  (copyLoopDown 1 (length &&& wmask).toNat dst src m).2.2

/-- The second branch of `memmove`, from the ends of the blocks on. The bytes behind an aligned
address are copied first, or all bytes if the addresses cannot both be aligned. -/
def copyBackward (dst src length : BitVec 64) (m : Bytes) : Bytes :=
  if (src ||| dst) &&& wmask ≠ 0 then
    let t := if (src ^^^ dst) &&& wmask ≠ 0 ∨ length ≤ wsize then length else src &&& wmask
    let (dst, src, m) := copyLoopDown 1 (turns t) dst src m
    copyWordsDown dst src (length - t) m
  else copyWordsDown dst src length m

/-- `memmove`. Its first branch is that of `memcpy`. -/
def memmove (dst src length : BitVec 64) (m : Bytes) : Bytes :=
  if length = 0 ∨ dst = src then m
  else if dst < src then copyForward dst src length m
  else copyBackward (dst + length) (src + length) length m

/-- The loop of `strncpy` over the characters; the string ends at a zero, which is copied too. -/
def strncpyLoop : ℕ → BitVec 64 → BitVec 64 → Bytes → Bytes
  | 0, _, _, m => m
  | n + 1, d, s, m =>
      let ch := m s
      let m := store 1 (fun _ => ch) d m
      if ch = 0 then fillLoop 0 n (d + 1) m else strncpyLoop n (d + 1) (s + 1) m

/-- `strncpy`. -/
def strncpy (dst src n : BitVec 64) (m : Bytes) : Bytes :=
  if n ≠ 0 then strncpyLoop (turns n) dst src m else m

theorem turns_of_ne {n : BitVec 64} (h : n ≠ 0) : turns n = n.toNat := if_neg h

/-! ## Filling -/

/-- One cell, and the block behind it. -/
theorem store_cons (f : ℕ → BitVec 8) (d : BitVec 64) (m : Bytes) {n : ℕ} (hn : n < 2 ^ 64) :
    store n (fun i => f (i + 1)) (d + 1) (store 1 (fun _ => f 0) d m) = store (n + 1) f d m := by
  have hfirst : store 1 (fun _ => f 0) d m = store 1 f d m :=
    store_congr (fun i hi => by rw [Nat.lt_one_iff.mp hi]) _ _
  have hsplit : _ = store (1 + n) f d m := store_store f d m (by omega)
  rw [hfirst, Nat.add_comm n 1, ← hsplit]
  simp only [Nat.add_comm 1]
  rfl

theorem fillLoop_eq (c : BitVec 8) {n : ℕ} (hn : n ≤ 2 ^ 64) (d : BitVec 64) (m : Bytes) :
    fillLoop c n d m = store n (fun _ => c) d m := by
  induction n generalizing d m with
  | zero => exact (store_zero _ _ _).symm
  | succ n ih =>
      rw [fillLoop, ih (by omega)]
      exact store_cons (fun _ => c) d m (by omega)

/-- `memset` fills the block. -/
theorem memset_eq (dst : BitVec 64) (c : BitVec 32) (n : BitVec 64) (m : Bytes) :
    memset dst c n m = store n.toNat (fun _ => c.setWidth 8) dst m := by
  by_cases hn : n = 0
  · rw [memset, if_neg (not_not.mpr hn), hn]
    exact (store_zero _ _ _).symm
  · rw [memset, if_pos hn, turns_of_ne hn, fillLoop_eq _ n.isLt.le]

/-! ## Moving -/

/-- Two addresses with the same low bits, of which the one is aligned. -/
theorem or_and_of_xor_and {a b mask : BitVec 64} (hsame : (a ^^^ b) &&& mask = 0)
    (ha : a &&& mask = 0) : (a ||| b) &&& mask = 0 := by
  refine BitVec.eq_of_getLsbD_eq fun i hi => ?_
  have hsame := congrArg (·.getLsbD i) hsame
  have ha := congrArg (·.getLsbD i) ha
  simp only [BitVec.getLsbD_and, BitVec.getLsbD_xor, BitVec.getLsbD_or] at hsame ha ⊢
  revert hsame ha
  cases a.getLsbD i <;> cases mask.getLsbD i <;> simp

section Moving

variable {dst src length : BitVec 64} (m : Bytes)

/-- Whole words, and the rest, upwards. -/
theorem copyWords_of_ahead (h : Ahead length.toNat dst src) :
    copyWords dst src length m = copy length.toNat dst src m := by
  have hlt : length.toNat < 2 ^ 64 := length.isLt
  have hwords : (length / wsize).toNat = length.toNat / 8 := BitVec.toNat_udiv
  have hrest := toNat_and_wmask length
  have hsplit : (length / wsize).toNat * 8 + (length &&& wmask).toNat * 1 = length.toNat := by
    omega
  rw [← hsplit] at h
  rw [copyWords, (h.of_le (Nat.le_add_right _ _)).copyLoop_eq m (by omega)]
  dsimp only
  rw [((h.of_le (Nat.le_add_left _ _)).shift _).copyLoop_eq _ (by omega),
    h.copy_copy m (by omega), hsplit]

/-- Whole words, and the rest, downwards. -/
theorem copyWordsDown_of_behind (h : Behind length.toNat dst src) :
    copyWordsDown (dst + length) (src + length) length m = copy length.toNat dst src m := by
  have hlt : length.toNat < 2 ^ 64 := length.isLt
  have hwords : (length / wsize).toNat = length.toNat / 8 := BitVec.toNat_udiv
  have hrest := toNat_and_wmask length
  have hsplit : (length &&& wmask).toNat * 1 + (length / wsize).toNat * 8 = length.toNat := by
    omega
  -- the words start behind the bytes that no word takes
  have hend : ∀ a : BitVec 64, a + length =
      a + BitVec.ofNat 64 ((length &&& wmask).toNat * 1) +
        BitVec.ofNat 64 ((length / wsize).toNat * 8) := by
    intro a
    rw [BitVec.add_assoc, ← BitVec.ofNat_add, hsplit, BitVec.ofNat_toNat, BitVec.setWidth_eq]
  rw [← hsplit] at h
  rw [copyWordsDown, hend, hend,
    ((h.of_le (Nat.le_add_left _ _)).shift _).copyLoopDown_eq m (by omega)]
  dsimp only
  rw [(h.of_le (Nat.le_add_right _ _)).copyLoopDown_eq _ (by omega), h.copy_copy m (by omega),
    hsplit]

/-- The first branch of `memmove`, whatever the alignment. -/
theorem copyForward_of_ahead (hlength : length ≠ 0) (h : Ahead length.toNat dst src) :
    copyForward dst src length m = copy length.toNat dst src m := by
  have hlt : length.toNat < 2 ^ 64 := length.isLt
  by_cases hlow : (src ||| dst) &&& wmask ≠ 0
  · rw [copyForward, if_pos hlow]
    generalize ht : (if (src ^^^ dst) &&& wmask ≠ 0 ∨ length < wsize then length
      else wsize - (src &&& wmask)) = t
    -- the bytes before the words: at least one, and not more than there are
    have hbytes : 0 < t.toNat ∧ t.toNat ≤ length.toNat := by
      have hpos : length.toNat ≠ 0 := fun h0 => hlength (BitVec.eq_of_toNat_eq h0)
      have hwsize : wsize.toNat = 8 := rfl
      have hlowBits := toNat_and_wmask src
      rw [← ht]
      split
      · omega
      · rename_i haligned
        have hlong : wsize.toNat ≤ length.toNat :=
          BitVec.le_def.mp (BitVec.not_lt.mp (not_or.mp haligned).2)
        rw [BitVec.toNat_sub_of_le (BitVec.le_def.mpr (by omega))]
        omega
    have hturns : turns t = t.toNat := turns_of_ne (by rintro rfl; simp at hbytes)
    have hrest : (length - t).toNat = length.toNat - t.toNat :=
      BitVec.toNat_sub_of_le (BitVec.le_def.mpr hbytes.2)
    have hsplit : t.toNat * 1 + (length - t).toNat = length.toNat := by omega
    rw [← hsplit] at h
    dsimp only
    rw [hturns, (h.of_le (Nat.le_add_right _ _)).copyLoop_eq m (by omega)]
    dsimp only
    rw [copyWords_of_ahead _ ((h.of_le (Nat.le_add_left _ _)).shift _),
      h.copy_copy m (by omega), hsplit]
  · rw [copyForward, if_neg hlow]
    exact copyWords_of_ahead m h

/-- The second branch of `memmove`, whatever the alignment. -/
theorem copyBackward_of_behind (hlength : length ≠ 0) (h : Behind length.toNat dst src) :
    copyBackward (dst + length) (src + length) length m = copy length.toNat dst src m := by
  have hlt : length.toNat < 2 ^ 64 := length.isLt
  by_cases hlow : ((src + length) ||| (dst + length)) &&& wmask ≠ 0
  · rw [copyBackward, if_pos hlow]
    generalize ht : (if ((src + length) ^^^ (dst + length)) &&& wmask ≠ 0 ∨ length ≤ wsize
      then length else (src + length) &&& wmask) = t
    have hbytes : 0 < t.toNat ∧ t.toNat ≤ length.toNat := by
      have hpos : length.toNat ≠ 0 := fun h0 => hlength (BitVec.eq_of_toNat_eq h0)
      have hwsize : wsize.toNat = 8 := rfl
      have hlowBits := toNat_and_wmask (src + length)
      rw [← ht]
      split
      · omega
      · rename_i haligned
        obtain ⟨hsame, hlong⟩ := not_or.mp haligned
        have hlong : wsize.toNat < length.toNat := BitVec.lt_def.mp (BitVec.not_le.mp hlong)
        refine ⟨Nat.pos_of_ne_zero fun hzero => hlow ?_, by omega⟩
        -- the low bits are the same, so if those of the one address are clear, all are
        exact or_and_of_xor_and (not_not.mp hsame) (BitVec.eq_of_toNat_eq hzero)
    have hturns : turns t = t.toNat := turns_of_ne (by rintro rfl; simp at hbytes)
    have hrest : (length - t).toNat = length.toNat - t.toNat :=
      BitVec.toNat_sub_of_le (BitVec.le_def.mpr hbytes.2)
    have hsplit : (length - t).toNat + t.toNat * 1 = length.toNat := by omega
    have hend : ∀ a : BitVec 64, a + length =
        a + BitVec.ofNat 64 (length - t).toNat + BitVec.ofNat 64 (t.toNat * 1) := by
      intro a
      rw [BitVec.add_assoc, ← BitVec.ofNat_add, hsplit, BitVec.ofNat_toNat, BitVec.setWidth_eq]
    have hwords : ∀ a : BitVec 64, a + BitVec.ofNat 64 (length - t).toNat = a + (length - t) := by
      intro a
      rw [BitVec.ofNat_toNat, BitVec.setWidth_eq]
    rw [← hsplit] at h
    dsimp only
    rw [hturns, hend, hend,
      ((h.of_le (Nat.le_add_left _ _)).shift _).copyLoopDown_eq m (by omega)]
    dsimp only
    rw [hwords, hwords, copyWordsDown_of_behind _ (h.of_le (Nat.le_add_right _ _)), ← hwords,
      ← hwords, h.copy_copy m (by omega), hsplit]
  · rw [copyBackward, if_neg hlow]
    exact copyWordsDown_of_behind m h

theorem copy_self (n : ℕ) (a : BitVec 64) : copy n a a m = m := by
  ext b
  rw [copy, store]
  split
  · rw [BitVec.ofNat_toNat, BitVec.setWidth_eq, add_sub_cancel]
  · rfl

/-- `memmove` copies blocks that overlap. -/
theorem memmove_eq (hdst : dst.toNat + length.toNat ≤ 2 ^ 64)
    (hsrc : src.toNat + length.toNat ≤ 2 ^ 64) :
    memmove dst src length m = copy length.toNat dst src m := by
  by_cases hwork : length = 0 ∨ dst = src
  · rw [memmove, if_pos hwork]
    rcases hwork with rfl | rfl
    · exact (store_zero _ _ _).symm
    · exact (copy_self m _ _).symm
  rw [memmove, if_neg hwork]
  have hlength := (not_or.mp hwork).1
  by_cases hlt : dst < src
  · rw [if_pos hlt]
    exact copyForward_of_ahead m hlength (ahead_of_le (BitVec.le_of_lt hlt) hsrc)
  · rw [if_neg hlt]
    exact copyBackward_of_behind m hlength (behind_of_le (BitVec.not_lt.mp hlt) hdst)

end Moving

/-- `memmove` copies blocks that overlap in any way, and nothing else changes. -/
theorem memmove_copies {dst src length : BitVec 64} (m : Bytes)
    (hdst : dst.toNat + length.toNat ≤ 2 ^ 64) (hsrc : src.toNat + length.toNat ≤ 2 ^ 64) :
    (∀ i < length.toNat, memmove dst src length m (dst + BitVec.ofNat 64 i) =
      m (src + BitVec.ofNat 64 i)) ∧
    ∀ a, (∀ i < length.toNat, a ≠ dst + BitVec.ofNat 64 i) →
      memmove dst src length m a = m a := by
  have hlt : length.toNat < 2 ^ 64 := length.isLt
  rw [memmove_eq m hdst hsrc]
  constructor
  · intro i hi
    rw [copy_add dst src m hlt.le (by omega), if_pos hi]
  · intro a ha
    refine if_neg fun hin => ha _ hin ?_
    rw [BitVec.ofNat_toNat, BitVec.setWidth_eq, add_sub_cancel]

/-- The memory of the examples below: every cell holds the low byte of its address. -/
def lowBytes : Bytes := fun a => a.setWidth 8

/-- Sixteen bytes are moved up by three, which no word copy can do: the first one, the last one and
the byte behind them. -/
theorem memmove_copies_unaligned :
    memmove 0x1003 0x1000 16 lowBytes 0x1003 = 0x00 ∧
      memmove 0x1003 0x1000 16 lowBytes 0x1012 = 0x0F ∧
      memmove 0x1003 0x1000 16 lowBytes 0x1013 = 0x13 := by
  have hmoved := @memmove_copies 0x1003 0x1000 16 lowBytes (by decide) (by decide)
  exact ⟨hmoved.1 0 (by decide), hmoved.1 15 (by decide), hmoved.2 0x1013 (by decide)⟩

/-! ## Blocks that `memcpy` refuses -/

/-- Two blocks have a cell in common. -/
def Share (dst src length : BitVec 64) : Prop :=
  ∃ i < length.toNat, ∃ j < length.toNat, dst + BitVec.ofNat 64 i = src + BitVec.ofNat 64 j

theorem toNat_offset {a : BitVec 64} {n i : ℕ} (h : a.toNat + n < 2 ^ 64) (hi : i ≤ n) :
    (a + BitVec.ofNat 64 i).toNat = a.toNat + i := by
  rw [BitVec.toNat_add, BitVec.toNat_ofNat, Nat.add_mod_mod, Nat.mod_eq_of_lt (by omega)]

/-- Blocks of one length share a cell exactly when their addresses are closer than that. -/
theorem share_iff {dst src length : BitVec 64} (hdst : dst.toNat + length.toNat < 2 ^ 64)
    (hsrc : src.toNat + length.toNat < 2 ^ 64) :
    Share dst src length ↔
      src.toNat < dst.toNat + length.toNat ∧ dst.toNat < src.toNat + length.toNat := by
  constructor
  · rintro ⟨i, hi, j, hj, heq⟩
    have heq := congrArg BitVec.toNat heq
    rw [toNat_offset hdst hi.le, toNat_offset hsrc hj.le] at heq
    omega
  · rintro ⟨hlo, hhi⟩
    -- the higher of the two addresses is in both blocks
    rcases Nat.le_total dst.toNat src.toNat with hle | hle
    · refine ⟨src.toNat - dst.toNat, by omega, 0, by omega, BitVec.eq_of_toNat_eq ?_⟩
      rw [toNat_offset hdst (by omega), toNat_offset hsrc (by omega)]
      omega
    · refine ⟨0, by omega, dst.toNat - src.toNat, by omega, BitVec.eq_of_toNat_eq ?_⟩
      rw [toNat_offset hdst (by omega), toNat_offset hsrc (by omega)]
      omega

/-- `memcpy` panics exactly for different blocks that share a cell. Where it returns, memory is what
`memmove` makes it. -/
theorem memcpy_agrees {dst src length : BitVec 64} (m : Bytes)
    (hdst : dst.toNat + length.toNat < 2 ^ 64) (hsrc : src.toNat + length.toNat < 2 ^ 64) :
    (memcpy dst src length = .error .panic ↔ dst ≠ src ∧ Share dst src length) ∧
      ∀ writes, memcpy dst src length = .ok writes →
        writes.foldl FbWrite.apply m = memmove dst src length m := by
  have hend : ∀ a : BitVec 64, a.toNat + length.toNat < 2 ^ 64 →
      (a + length).toNat = a.toNat + length.toNat := by
    intro a ha
    rw [BitVec.toNat_add, Nat.mod_eq_of_lt ha]
  by_cases hwork : length = 0 ∨ dst = src
  · rw [memcpy, if_pos hwork]
    refine ⟨iff_of_false (by simp) ?_, ?_⟩
    · rintro ⟨hne, i, hi, -⟩
      rcases hwork with rfl | rfl
      · exact absurd hi (Nat.not_lt_zero i)
      · exact hne rfl
    · rintro writes ⟨⟩
      rw [memmove, if_pos hwork]
      rfl
  obtain ⟨hlength, hne⟩ := not_or.mp hwork
  have hne' : dst.toNat ≠ src.toNat := fun h => hne (BitVec.eq_of_toNat_eq h)
  rw [memcpy, if_neg hwork, share_iff hdst hsrc]
  split
  · rename_i hoverlap
    simp only [BitVec.lt_def, hend dst hdst, hend src hsrc] at hoverlap
    refine ⟨iff_of_true rfl ⟨hne, by omega⟩, ?_⟩
    rintro writes ⟨⟩
  · rename_i hapart
    simp only [BitVec.lt_def, hend dst hdst, hend src hsrc] at hapart
    refine ⟨iff_of_false (by simp) (by omega), ?_⟩
    rintro writes ⟨⟩
    rw [memmove_eq m hdst.le hsrc.le]
    -- blocks that are apart are copied upwards, whichever comes first
    refine copyForward_of_ahead m hlength fun i hi => ?_
    rcases Nat.lt_or_gt_of_ne hne' with hlt | hgt
    · exact ahead_of_le (BitVec.le_def.mpr hlt.le) hsrc.le i hi
    · have hbehind := behind_of_le (BitVec.le_def.mpr hgt.le) hdst.le i hi
      have hbelow : (src + BitVec.ofNat 64 i).toNat < dst.toNat := by
        rw [toNat_offset hsrc hi.le]
        omega
      rw [BitVec.toNat_sub, Nat.mod_eq_of_lt (by omega)] at hbehind ⊢
      omega

/-- Two blocks of eight bytes, one behind the other, are copied; shifted by a byte, they are not. -/
theorem memcpy_agrees_adjacent :
    memcpy 0x1000 0x1001 8 = .error .panic ∧
      [FbWrite.copy 0x1000 0x1008 8].foldl FbWrite.apply lowBytes =
        memmove 0x1000 0x1008 8 lowBytes :=
  ⟨(memcpy_agrees lowBytes (by decide) (by decide)).1.mpr
      ⟨by decide, (share_iff (by decide) (by decide)).mpr (by decide)⟩,
    (memcpy_agrees lowBytes (by decide) (by decide)).2 _ (by decide)⟩

/-! ## Copying strings -/

/-- The string at `src`, and the padding behind it. -/
def cString (m : Bytes) (src : BitVec 64) (i : ℕ) : BitVec 8 :=
  if ∃ j < i, m (src + BitVec.ofNat 64 j) = 0 then 0 else m (src + BitVec.ofNat 64 i)

/-- The characters that are copied are not overwritten before they are read. -/
def Readable (m : Bytes) (dst src : BitVec 64) (n : ℕ) : Prop :=
  ∀ i < n, (∀ j < i, m (src + BitVec.ofNat 64 j) ≠ 0) → i ≤ (src + BitVec.ofNat 64 i - dst).toNat

theorem cString_zero (m : Bytes) (src : BitVec 64) : cString m src 0 = m src := by
  simp [cString]

theorem cString_eq_zero_iff (m : Bytes) (src : BitVec 64) (i : ℕ) :
    cString m src i = 0 ↔ ∃ j ≤ i, m (src + BitVec.ofNat 64 j) = 0 := by
  unfold cString
  split
  · rename_i hend
    obtain ⟨j, hj, hzero⟩ := hend
    exact iff_of_true rfl ⟨j, hj.le, hzero⟩
  · rename_i hno
    refine ⟨fun h => ⟨i, le_rfl, h⟩, ?_⟩
    rintro ⟨j, hj, hzero⟩
    obtain rfl | hlt := hj.eq_or_lt
    · exact hzero
    · exact absurd ⟨j, hlt, hzero⟩ hno

section Strncpy

variable {m : Bytes} {dst src : BitVec 64} {n : ℕ}

/-- Up to the end of the string, the first store leaves the characters alone. -/
theorem Readable.store_first (h : Readable m dst src (n + 1)) {i : ℕ} (hi : 0 < i) (hin : i ≤ n)
    (hno : ∀ j < i, m (src + BitVec.ofNat 64 j) ≠ 0) (c : BitVec 8) :
    store 1 (fun _ => c) dst m (src + BitVec.ofNat 64 i) = m (src + BitVec.ofNat 64 i) := by
  have hread := h i (by omega) hno
  exact if_neg (by omega)

/-- A zero that the loop will meet is in memory before and after the first store. -/
theorem Readable.exists_zero_iff (h : Readable m dst src (n + 1)) (hfirst : m src ≠ 0) {i : ℕ}
    (hi : i ≤ n) (c : BitVec 8) :
    (∃ j < i, store 1 (fun _ => c) dst m (src + 1 + BitVec.ofNat 64 j) = 0) ↔
      ∃ j < i + 1, m (src + BitVec.ofNat 64 j) = 0 := by
  have hnext : ∀ j : ℕ, src + 1 + BitVec.ofNat 64 j = src + BitVec.ofNat 64 (j + 1) := by
    intro j
    rw [Nat.add_comm, BitVec.ofNat_add, ← BitVec.add_assoc]
    rfl
  have hstart : src + BitVec.ofNat 64 0 = src := by simp
  by_cases hex : ∃ j, m (src + BitVec.ofNat 64 j) = 0 ∧ j < i + 1
  · -- the first zero is not overwritten
    classical
    obtain ⟨hzero, hlt⟩ := Nat.find_spec hex
    generalize hp : Nat.find hex = p at hzero hlt
    have hpos : 0 < p := by
      rcases Nat.eq_zero_or_pos p with rfl | hpos
      · rw [hstart] at hzero
        exact absurd hzero hfirst
      · exact hpos
    have hno : ∀ j < p, m (src + BitVec.ofNat 64 j) ≠ 0 := fun j hj hz =>
      Nat.find_min hex (hp ▸ hj) ⟨hz, by omega⟩
    refine iff_of_true ⟨p - 1, by omega, ?_⟩ ⟨p, hlt, hzero⟩
    rw [hnext, Nat.sub_add_cancel hpos, h.store_first hpos (by omega) hno]
    exact hzero
  · have hno : ∀ j < i + 1, m (src + BitVec.ofNat 64 j) ≠ 0 := fun j hj hz => hex ⟨j, hz, hj⟩
    refine iff_of_false ?_ ?_
    · rintro ⟨j, hj, hz⟩
      rw [hnext, h.store_first (Nat.succ_pos j) (by omega) fun k hk => hno k (by omega)] at hz
      exact hno (j + 1) (by omega) hz
    · rintro ⟨j, hj, hz⟩
      exact hno j hj hz

/-- What is left of the string after the first character. -/
theorem Readable.cString_next (h : Readable m dst src (n + 1)) (hfirst : m src ≠ 0) {i : ℕ}
    (hi : i < n) (c : BitVec 8) :
    cString (store 1 (fun _ => c) dst m) (src + 1) i = cString m src (i + 1) := by
  have hiff := h.exists_zero_iff hfirst hi.le c
  unfold cString
  by_cases hex : ∃ j < i + 1, m (src + BitVec.ofNat 64 j) = 0
  · rw [if_pos (hiff.mpr hex), if_pos hex]
  · have hnext : src + 1 + BitVec.ofNat 64 i = src + BitVec.ofNat 64 (i + 1) := by
      rw [Nat.add_comm, BitVec.ofNat_add, ← BitVec.add_assoc]
      rfl
    rw [if_neg (fun hz => hex (hiff.mp hz)), if_neg hex, hnext]
    exact h.store_first (Nat.succ_pos i) hi (fun j hj hz => hex ⟨j, hj, hz⟩) c

theorem Readable.next (h : Readable m dst src (n + 1)) (hfirst : m src ≠ 0) (c : BitVec 8) :
    Readable (store 1 (fun _ => c) dst m) (dst + 1) (src + 1) n := by
  intro i hi hno
  have hno' : ∀ j < i + 1, m (src + BitVec.ofNat 64 j) ≠ 0 := by
    intro j hj hz
    obtain ⟨k, hk, hz⟩ := (h.exists_zero_iff hfirst hi.le c).mpr ⟨j, hj, hz⟩
    exact hno k hk hz
  have hread := h (i + 1) (by omega) hno'
  -- both pointers have moved on by one
  have hdistance : src + 1 + BitVec.ofNat 64 i - (dst + 1) =
      src + BitVec.ofNat 64 (i + 1) - dst - 1 := by
    rw [BitVec.ofNat_add, show BitVec.ofNat 64 1 = 1 from rfl]
    ring
  rw [hdistance, BitVec.toNat_sub_of_le]
  · show i ≤ _ - 1
    omega
  · rw [BitVec.le_def]
    show 1 ≤ _
    omega

theorem strncpyLoop_eq (h : Readable m dst src n) (hn : n ≤ 2 ^ 64) :
    strncpyLoop n dst src m = store n (cString m src) dst m := by
  induction n generalizing m dst src with
  | zero => exact (store_zero _ _ _).symm
  | succ n ih =>
      rw [strncpyLoop, ← store_cons (cString m src) dst m (by omega), cString_zero]
      by_cases hzero : m src = 0
      · -- the rest is padding
        rw [if_pos hzero, fillLoop_eq _ (by omega)]
        refine store_congr (fun i _ => Eq.symm ?_) _ _
        exact (cString_eq_zero_iff m src _).mpr ⟨0, Nat.zero_le _, by simpa using hzero⟩
      · rw [if_neg hzero, ih (h.next hzero _) (by omega)]
        exact store_congr (fun i hi => h.cString_next hzero hi _) _ _

end Strncpy

/-- `strncpy` fills its target with the string and zeros, and with nothing but characters if the
string is too long. So there is a zero in the target exactly when there is one among the characters
that were read. -/
theorem strncpy_copies {dst src n : BitVec 64} {m : Bytes} (h : Readable m dst src n.toNat) :
    strncpy dst src n m = store n.toNat (cString m src) dst m ∧
      ((∃ i < n.toNat, strncpy dst src n m (dst + BitVec.ofNat 64 i) = 0) ↔
        ∃ i < n.toNat, m (src + BitVec.ofNat 64 i) = 0) := by
  have hlt : n.toNat < 2 ^ 64 := n.isLt
  have heq : strncpy dst src n m = store n.toNat (cString m src) dst m := by
    by_cases hn : n = 0
    · rw [strncpy, if_neg (not_not.mpr hn), hn]
      exact (store_zero _ _ _).symm
    · rw [strncpy, if_pos hn, turns_of_ne hn, strncpyLoop_eq h hlt.le]
  refine ⟨heq, ?_⟩
  rw [heq]
  constructor
  · rintro ⟨i, hi, hz⟩
    rw [store_add _ dst m hlt.le (by omega), if_pos hi, cString_eq_zero_iff] at hz
    obtain ⟨j, hj, hz⟩ := hz
    exact ⟨j, by omega, hz⟩
  · rintro ⟨i, hi, hz⟩
    refine ⟨i, hi, ?_⟩
    rw [store_add _ dst m hlt.le (by omega), if_pos hi, cString_eq_zero_iff]
    exact ⟨i, le_rfl, hz⟩

/-- The memory of the example below: two characters at `0x1000`. -/
def twoCharacters (a : BitVec 64) : BitVec 8 :=
  if a = 0x1000 then 0x68 else if a = 0x1001 then 0x69 else 0

/-- Two characters and two zeros. -/
theorem strncpy_copies_short :
    strncpy 0x2000 0x1000 4 twoCharacters =
      store 4 (cString twoCharacters 0x1000) 0x2000 twoCharacters := by
  have hread : Readable twoCharacters 0x2000 0x1000 (4#64).toNat := by
    intro i hi _
    have hi : i < 4 := hi
    obtain rfl | rfl | rfl | rfl : i = 0 ∨ i = 1 ∨ i = 2 ∨ i = 3 := by omega
    all_goals decide
  exact (strncpy_copies hread).1

end KushOs.Runtime
