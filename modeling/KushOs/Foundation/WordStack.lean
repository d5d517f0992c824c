import Mathlib.Algebra.Group.Basic
import Mathlib.Data.List.Basic
import Mathlib.Logic.Function.Basic
import Mathlib.Tactic.Abel

/-!
# Stacks in memory

A stack in memory grows down: pushing a word moves the pointer down by the size of a word and stores
the word there. Words that were pushed one after the other lie in memory in the reverse order, from
the new pointer up, as long as the stack does not come back to where it started. Reading that block
gives the words, and a push changes nothing outside it.

## Main definitions

* `wordsAt`: the words in memory from an address on.
* `Fits`: that many words have different addresses.
* `push`, `pushAll`: words are pushed on the stack.

## Main results

* `wordsAt_pushAll`: the words that were pushed, read from the pointer.
* `pushAll_outside`: a cell that is none of theirs.
-/

namespace WordStack

variable {A α : Type} [AddCommGroup A]

/-! ## Reading -/

section Read

variable (u : A)

/-- The words from an address on. -/
def wordsAt (mem : A → α) (a : A) : ℕ → List α
  | 0 => []
  | n + 1 => mem a :: wordsAt mem (a + u) n

/-- No two of `n` consecutive words have the same address. -/
def Fits (n : ℕ) : Prop := ∀ i < n, 0 < i → i • u ≠ 0

variable {u}

/-- Only the words of the block matter. -/
theorem wordsAt_congr {mem mem' : A → α} {a : A} {n : ℕ}
    (h : ∀ i < n, mem (a + i • u) = mem' (a + i • u)) : wordsAt u mem a n = wordsAt u mem' a n := by
  induction n generalizing a with
  | zero => rfl
  | succ n ih =>
    have hfirst : mem a = mem' a := by simpa using h 0 n.succ_pos
    rw [wordsAt, wordsAt, hfirst, ih]
    intro i hi
    have hnext := h (i + 1) (Nat.succ_lt_succ hi)
    rwa [succ_nsmul', ← add_assoc] at hnext

/-- The words from an address on, and those behind them. -/
theorem wordsAt_add (mem : A → α) (a : A) (m n : ℕ) :
    wordsAt u mem a (m + n) = wordsAt u mem a m ++ wordsAt u mem (a + m • u) n := by
  induction m generalizing a with
  | zero => simp [wordsAt]
  | succ m ih =>
    rw [Nat.add_right_comm, wordsAt, ih, wordsAt, List.cons_append, add_assoc, ← succ_nsmul']

/-- Fewer words fit as well. -/
theorem Fits.mono {m n : ℕ} (h : Fits u n) (hle : m ≤ n) : Fits u m :=
  fun i hi => h i (Nat.lt_of_lt_of_le hi hle)

end Read

/-! ## Pushing -/

section Push

variable [DecidableEq A] (u : A)

/-- Memory and the stack pointer. -/
abbrev Stack (A α : Type) := (A → α) × A

/-- A word is pushed. -/
def push (s : Stack A α) (w : α) : Stack A α := (Function.update s.1 (s.2 - u) w, s.2 - u)

/-- Words are pushed in order. -/
def pushAll (s : Stack A α) (ws : List α) : Stack A α := ws.foldl (push u) s

variable {u}

theorem pushAll_cons (s : Stack A α) (w : α) (ws : List α) :
    pushAll u s (w :: ws) = pushAll u (push u s w) ws := rfl

/-- The pointer after words were pushed. -/
theorem pushAll_snd (s : Stack A α) (ws : List α) :
    (pushAll u s ws).2 = s.2 - ws.length • u := by
  induction ws generalizing s with
  | nil => simp [pushAll]
  | cons w ws ih =>
    rw [pushAll_cons, ih, List.length_cons, succ_nsmul]
    simp only [push]
    abel

/-- Memory outside the words that were pushed. -/
theorem pushAll_outside (s : Stack A α) (ws : List α) {a : A}
    (ha : ∀ i, 0 < i → i ≤ ws.length → a ≠ s.2 - i • u) : (pushAll u s ws).1 a = s.1 a := by
  induction ws generalizing s with
  | nil => rfl
  | cons w ws ih =>
    have hfirst : a ≠ s.2 - u := by
      have h1 := ha 1 Nat.one_pos (by simp)
      rwa [one_nsmul] at h1
    rw [pushAll_cons, ih]
    · exact Function.update_of_ne hfirst _ _
    · intro i hpos hle heq
      refine ha (i + 1) (Nat.succ_pos _) (Nat.succ_le_succ hle) (heq.trans ?_)
      rw [succ_nsmul]
      simp only [push]
      abel

/-- What was pushed last lies lowest. -/
theorem wordsAt_pushAll (s : Stack A α) (ws : List α) (hfits : Fits u ws.length) :
    wordsAt u (pushAll u s ws).1 (pushAll u s ws).2 ws.length = ws.reverse := by
  induction ws generalizing s with
  | nil => rfl
  | cons w ws ih =>
    -- The first word lies highest, and the others are pushed below it.
    have hpointer : (pushAll u s (w :: ws)).2 + ws.length • u = s.2 - u := by
      rw [pushAll_snd, List.length_cons, succ_nsmul]
      abel
    have hkept : (pushAll u (push u s w) ws).1 (s.2 - u) = w := by
      rw [pushAll_outside]
      · exact Function.update_self _ _ _
      · intro i hpos hle heq
        have hzero : s.2 - u = s.2 - u - i • u := heq
        exact hfits i (Nat.lt_succ_of_le hle) hpos (sub_eq_self.mp hzero.symm)
    rw [List.length_cons, wordsAt_add, hpointer, List.reverse_cons, pushAll_cons,
      ih _ (hfits.mono (Nat.le_succ _))]
    simp only [wordsAt, hkept]

end Push

end WordStack
