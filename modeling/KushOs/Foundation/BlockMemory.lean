import Mathlib.Data.BitVec
import Mathlib.Tactic.Ring

/-!
# Blocks of memory

A memory maps addresses of a fixed width to cells. Storing a block overwrites the cells from an
address on; copying a block stores cells that are read from another address on. A loop that copies
unit by unit copies the whole block if the target does not contain a cell that is still to be read.

## Main definitions

* `store`: a block of cells is overwritten.
* `copy`: a block is copied at once. `copyLoop`: unit by unit, with pointers that move on.
* `copyLoopDown`: the same from the end of the blocks to their start.
* `Apart`: no cell of the source block is in the target block. `Ahead`, `Behind`: no cell is
  overwritten by the one or the other loop before it is read.

## Main results

* `store_offset`: what a cell holds after a block was stored, by its offset.
* `copyLoop_eq`: the loop copies the block.
* `Ahead.copyLoop_eq`, `Behind.copyLoopDown_eq`: so it does when the blocks overlap, if it goes in
  the right direction; `ahead_of_le` and `behind_of_le` say which one that is.
-/

namespace BlockMemory

variable {w : ℕ} {β : Type}

/-- `n` cells from `addr` on are overwritten. -/
def store (n : ℕ) (f : ℕ → β) (addr : BitVec w) (m : BitVec w → β) : BitVec w → β :=
  fun a => if (a - addr).toNat < n then f (a - addr).toNat else m a

theorem store_zero (f : ℕ → β) (addr : BitVec w) (m : BitVec w → β) : store 0 f addr m = m :=
  funext fun _ => if_neg (Nat.not_lt_zero _)

/-- Only the values that are stored matter. -/
theorem store_congr {n : ℕ} {f g : ℕ → β} (h : ∀ i < n, f i = g i) (addr : BitVec w)
    (m : BitVec w → β) : store n f addr m = store n g addr m := by
  ext a
  unfold store
  split
  · rename_i hlt
    exact h _ hlt
  · rfl

/-- The distance between two offsets from the same address. -/
theorem toNat_offset_sub (base : BitVec w) {p i : ℕ} (hp : p ≤ 2 ^ w) (hi : i < 2 ^ w) :
    (base + BitVec.ofNat w i - (base + BitVec.ofNat w p)).toNat =
      if p ≤ i then i - p else i + 2 ^ w - p := by
  rw [add_sub_add_left_eq_sub, BitVec.toNat_sub, BitVec.toNat_ofNat, BitVec.toNat_ofNat,
    Nat.mod_eq_of_lt hi]
  rcases Nat.lt_or_eq_of_le hp with hlt | rfl
  · rw [Nat.mod_eq_of_lt hlt]
    split
    · rename_i hle
      rw [show 2 ^ w - p + i = i - p + 2 ^ w by omega, Nat.add_mod_right,
        Nat.mod_eq_of_lt (by omega)]
    · rw [Nat.mod_eq_of_lt (by omega)]
      omega
  · rw [Nat.mod_self, Nat.sub_zero, Nat.add_mod_left, Nat.mod_eq_of_lt hi,
      if_neg (Nat.not_le_of_lt hi), Nat.add_sub_cancel]

/-- What a cell holds after a block was stored, by its offset. -/
theorem store_offset (f : ℕ → β) (base : BitVec w) (m : BitVec w → β) {n p i : ℕ}
    (hp : p + n ≤ 2 ^ w) (hi : i < 2 ^ w) :
    store n f (base + BitVec.ofNat w p) m (base + BitVec.ofNat w i) =
      if p ≤ i ∧ i < p + n then f (i - p) else m (base + BitVec.ofNat w i) := by
  rw [store, toNat_offset_sub base (by omega) hi]
  by_cases hle : p ≤ i
  · rw [if_pos hle]
    congr 1
    rw [eq_iff_iff]
    omega
  · rw [if_neg hle, if_neg (by omega), if_neg (by omega)]

/-- The same for the address of the block. -/
theorem store_add (f : ℕ → β) (addr : BitVec w) (m : BitVec w → β) {n i : ℕ} (hn : n ≤ 2 ^ w)
    (hi : i < 2 ^ w) :
    store n f addr m (addr + BitVec.ofNat w i) =
      if i < n then f i else m (addr + BitVec.ofNat w i) := by
  have h := store_offset f addr m (n := n) (p := 0) (by omega) hi
  simpa using h

/-- Two blocks that follow each other are one block. -/
theorem store_store (f : ℕ → β) (addr : BitVec w) (m : BitVec w → β) {n₁ n₂ : ℕ}
    (hn : n₁ + n₂ ≤ 2 ^ w) :
    store n₂ (fun i => f (n₁ + i)) (addr + BitVec.ofNat w n₁) (store n₁ f addr m) =
      store (n₁ + n₂) f addr m := by
  ext a
  -- every address is at some offset from `addr`
  have ha : a = addr + BitVec.ofNat w (a - addr).toNat := by
    rw [BitVec.ofNat_toNat, BitVec.setWidth_eq, add_sub_cancel]
  have hlt : (a - addr).toNat < 2 ^ w := BitVec.isLt _
  generalize (a - addr).toNat = i at ha hlt
  rw [ha, store_offset _ addr _ hn hlt, store_add f addr m (by omega) hlt,
    store_add f addr m hn hlt]
  by_cases hle : n₁ ≤ i
  · rw [if_neg (show ¬i < n₁ by omega), Nat.add_sub_cancel' hle]
    simp [hle]
  · rw [if_neg (by omega), if_pos (show i < n₁ by omega), if_pos (by omega)]

/-! ## Copying -/

/-- `n` cells from `src` on are copied to `dst`: all of them are read before one is stored. -/
def copy (n : ℕ) (dst src : BitVec w) (m : BitVec w → β) : BitVec w → β :=
  store n (fun i => m (src + BitVec.ofNat w i)) dst m

/-- What a cell holds after a block was copied. -/
theorem copy_add (dst src : BitVec w) (m : BitVec w → β) {n i : ℕ} (hn : n ≤ 2 ^ w)
    (hi : i < 2 ^ w) :
    copy n dst src m (dst + BitVec.ofNat w i) =
      if i < n then m (src + BitVec.ofNat w i) else m (dst + BitVec.ofNat w i) :=
  store_add _ dst m hn hi

/-- A loop that copies `k` cells in each of its turns: the pointers after it, and the memory. -/
def copyLoop (k : ℕ) :
    ℕ → BitVec w → BitVec w → (BitVec w → β) → BitVec w × BitVec w × (BitVec w → β)
  | 0, dst, src, m => (dst, src, m)
  | t + 1, dst, src, m =>
      copyLoop k t (dst + BitVec.ofNat w k) (src + BitVec.ofNat w k) (copy k dst src m)

/-- No cell of the source block is in the target block. -/
def Apart (n : ℕ) (dst src : BitVec w) : Prop :=
  ∀ i < n, n ≤ (src + BitVec.ofNat w i - dst).toNat

theorem Apart.of_le {n k : ℕ} {dst src : BitVec w} (h : Apart n dst src) (hk : k ≤ n) :
    Apart k dst src := fun i hi => hk.trans (h i (hi.trans_le hk))

theorem Apart.shift {n : ℕ} {dst src : BitVec w} (h : Apart n dst src) (c : BitVec w) :
    Apart n (dst + c) (src + c) := by
  intro i hi
  rw [show src + c + BitVec.ofNat w i - (dst + c) = src + BitVec.ofNat w i - dst by ring]
  exact h i hi

/-- Two copies of blocks that follow each other. -/
theorem copy_copy {dst src : BitVec w} (m : BitVec w → β) {n₁ n₂ : ℕ}
    (h : Apart (n₁ + n₂) dst src) (hn : n₁ + n₂ ≤ 2 ^ w) :
    copy n₂ (dst + BitVec.ofNat w n₁) (src + BitVec.ofNat w n₁) (copy n₁ dst src m) =
      copy (n₁ + n₂) dst src m := by
  rw [copy, copy, copy, ← store_store _ dst m hn]
  refine store_congr (fun i hi => ?_) _ _
  -- the second block is read behind the target of the first
  have hread := h (n₁ + i) (by omega)
  rw [BitVec.add_assoc, ← BitVec.ofNat_add]
  exact if_neg (by omega)

/-- The loop copies the block. -/
theorem copyLoop_eq {k t : ℕ} {dst src : BitVec w} (m : BitVec w → β)
    (h : Apart (t * k) dst src) (hn : t * k ≤ 2 ^ w) :
    copyLoop k t dst src m =
      (dst + BitVec.ofNat w (t * k), src + BitVec.ofNat w (t * k), copy (t * k) dst src m) := by
  induction t generalizing dst src m with
  | zero => simp [copyLoop, copy, store_zero]
  | succ t ih =>
      have hsplit : (t + 1) * k = k + t * k := by ring
      rw [hsplit] at h hn
      rw [copyLoop, ih _ ((h.of_le (by omega)).shift _) (by omega), copy_copy m h hn, hsplit,
        BitVec.add_assoc, BitVec.add_assoc, ← BitVec.ofNat_add]

/-! ## Blocks that overlap -/

/-- The loop that copies `k` cells in each of its turns, with pointers that move down. -/
def copyLoopDown (k : ℕ) :
    ℕ → BitVec w → BitVec w → (BitVec w → β) → BitVec w × BitVec w × (BitVec w → β)
  | 0, dst, src, m => (dst, src, m)
  | t + 1, dst, src, m =>
      copyLoopDown k t (dst - BitVec.ofNat w k) (src - BitVec.ofNat w k)
        (copy k (dst - BitVec.ofNat w k) (src - BitVec.ofNat w k) m)

/-- No source cell is in the part of the target block that comes before it. -/
def Ahead (n : ℕ) (dst src : BitVec w) : Prop :=
  ∀ i < n, i ≤ (src + BitVec.ofNat w i - dst).toNat

/-- No source cell is in the part of the target block that comes behind it. -/
def Behind (n : ℕ) (dst src : BitVec w) : Prop :=
  ∀ i < n, (src + BitVec.ofNat w i - dst).toNat ≤ i ∨ n ≤ (src + BitVec.ofNat w i - dst).toNat

section Overlap

variable {n n₁ n₂ k t : ℕ} {dst src : BitVec w} (m : BitVec w → β)

theorem Ahead.of_le (h : Ahead n dst src) (hk : k ≤ n) : Ahead k dst src :=
  fun i hi => h i (hi.trans_le hk)

theorem Ahead.shift (h : Ahead n dst src) (c : BitVec w) : Ahead n (dst + c) (src + c) := by
  intro i hi
  rw [show src + c + BitVec.ofNat w i - (dst + c) = src + BitVec.ofNat w i - dst by ring]
  exact h i hi

theorem Behind.of_le (h : Behind n dst src) (hk : k ≤ n) : Behind k dst src :=
  fun i hi => (h i (hi.trans_le hk)).imp_right hk.trans

theorem Behind.shift (h : Behind n dst src) (c : BitVec w) : Behind n (dst + c) (src + c) := by
  intro i hi
  rw [show src + c + BitVec.ofNat w i - (dst + c) = src + BitVec.ofNat w i - dst by ring]
  exact h i hi

/-- A target that starts below the source can be filled from its start. -/
theorem ahead_of_le (hle : dst ≤ src) (hsrc : src.toNat + n ≤ 2 ^ w) : Ahead n dst src := by
  intro i hi
  have hle := BitVec.le_def.mp hle
  have hpos : 0 < 2 ^ w := Nat.two_pow_pos w
  have hdistance : (src + BitVec.ofNat w i - dst).toNat = src.toNat + i - dst.toNat := by
    rw [BitVec.toNat_sub_of_le, BitVec.toNat_add, BitVec.toNat_ofNat, Nat.add_mod_mod,
      Nat.mod_eq_of_lt (by omega)]
    rw [BitVec.le_def, BitVec.toNat_add, BitVec.toNat_ofNat, Nat.add_mod_mod,
      Nat.mod_eq_of_lt (by omega)]
    omega
  omega

/-- A target that starts above the source can be filled from its end. -/
theorem behind_of_le (hle : src ≤ dst) (hdst : dst.toNat + n ≤ 2 ^ w) : Behind n dst src := by
  intro i hi
  have hle := BitVec.le_def.mp hle
  have hdstlt := dst.isLt
  have hread : (src + BitVec.ofNat w i).toNat = src.toNat + i := by
    rw [BitVec.toNat_add, BitVec.toNat_ofNat, Nat.add_mod_mod, Nat.mod_eq_of_lt (by omega)]
  rw [BitVec.toNat_sub, hread]
  -- a cell below the target block is at a distance that wraps around
  rcases Nat.lt_or_ge (src.toNat + i) dst.toNat with hbelow | habove
  · rw [Nat.mod_eq_of_lt (by omega)]
    omega
  · rw [show 2 ^ w - dst.toNat + (src.toNat + i) = src.toNat + i - dst.toNat + 2 ^ w by omega,
      Nat.add_mod_right, Nat.mod_eq_of_lt (by omega)]
    omega

/-- The start of a block is copied first. -/
theorem Ahead.copy_copy (h : Ahead (n₁ + n₂) dst src) (hn : n₁ + n₂ ≤ 2 ^ w) :
    copy n₂ (dst + BitVec.ofNat w n₁) (src + BitVec.ofNat w n₁) (copy n₁ dst src m) =
      copy (n₁ + n₂) dst src m := by
  rw [copy, copy, copy, ← store_store _ dst m hn]
  refine store_congr (fun i hi => ?_) _ _
  -- the end of the block is still as it was
  have hread := h (n₁ + i) (by omega)
  rw [BitVec.add_assoc, ← BitVec.ofNat_add]
  exact if_neg (by omega)

/-- The end of a block is copied first. -/
theorem Behind.copy_copy (h : Behind (n₁ + n₂) dst src) (hn : n₁ + n₂ ≤ 2 ^ w) :
    copy n₁ dst src (copy n₂ (dst + BitVec.ofNat w n₁) (src + BitVec.ofNat w n₁) m) =
      copy (n₁ + n₂) dst src m := by
  ext a
  -- every address is at some offset from the target
  have ha : a = dst + BitVec.ofNat w (a - dst).toNat := by
    rw [BitVec.ofNat_toNat, BitVec.setWidth_eq, add_sub_cancel]
  have hlt : (a - dst).toNat < 2 ^ w := BitVec.isLt _
  generalize (a - dst).toNat = i at ha hlt
  subst ha
  rw [copy_add dst src _ (by omega) hlt, copy_add dst src m hn hlt]
  -- what a cell holds after the end was copied, by its offset
  have htop : ∀ j < 2 ^ w, copy n₂ (dst + BitVec.ofNat w n₁) (src + BitVec.ofNat w n₁) m
      (dst + BitVec.ofNat w j) = if n₁ ≤ j ∧ j < n₁ + n₂ then m (src + BitVec.ofNat w j)
        else m (dst + BitVec.ofNat w j) := by
    intro j hj
    rw [copy, store_offset _ dst m hn hj]
    split
    · rename_i hin
      rw [BitVec.add_assoc, ← BitVec.ofNat_add, Nat.add_sub_cancel' hin.1]
    · rfl
  rcases Nat.lt_or_ge i n₁ with hi | hi
  · -- the cell to be read is not in the part that was filled
    have hread := h i (by omega)
    have hoffset : src + BitVec.ofNat w i =
        dst + BitVec.ofNat w (src + BitVec.ofNat w i - dst).toNat := by
      rw [BitVec.ofNat_toNat, BitVec.setWidth_eq, add_sub_cancel]
    rw [if_pos hi, if_pos (by omega), hoffset, htop _ (BitVec.isLt _), if_neg (by omega)]
  · rw [if_neg (by omega), htop i hlt]
    congr 1
    rw [eq_iff_iff]
    omega

/-- The loop copies the block, from its start. -/
theorem Ahead.copyLoop_eq (h : Ahead (t * k) dst src) (hn : t * k ≤ 2 ^ w) :
    copyLoop k t dst src m =
      (dst + BitVec.ofNat w (t * k), src + BitVec.ofNat w (t * k), copy (t * k) dst src m) := by
  induction t generalizing dst src m with
  | zero => simp [copyLoop, copy, store_zero]
  | succ t ih =>
      have hsplit : (t + 1) * k = k + t * k := by ring
      rw [hsplit] at h hn
      rw [copyLoop, ih _ ((h.of_le (by omega)).shift _) (by omega), h.copy_copy m hn, hsplit,
        BitVec.add_assoc, BitVec.add_assoc, ← BitVec.ofNat_add]

/-- The loop that moves down copies the block, from its end. -/
theorem Behind.copyLoopDown_eq (h : Behind (t * k) dst src) (hn : t * k ≤ 2 ^ w) :
    copyLoopDown k t (dst + BitVec.ofNat w (t * k)) (src + BitVec.ofNat w (t * k)) m =
      (dst, src, copy (t * k) dst src m) := by
  induction t generalizing m with
  | zero => simp [copyLoopDown, copy, store_zero]
  | succ t ih =>
      have hsplit : (t + 1) * k = t * k + k := Nat.succ_mul t k
      have hback : ∀ a : BitVec w,
          a + BitVec.ofNat w (t * k + k) - BitVec.ofNat w k = a + BitVec.ofNat w (t * k) := by
        intro a
        rw [BitVec.ofNat_add]
        ring
      rw [hsplit] at h hn ⊢
      rw [copyLoopDown, hback, hback, ih _ (h.of_le (by omega)) (by omega), h.copy_copy m hn]

end Overlap

end BlockMemory
