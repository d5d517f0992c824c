import Mathlib.Algebra.Order.Group.Nat
import Mathlib.Tactic.Common

/-!
# Numerals with a limit

A numeral is read from the left: what was read before is multiplied by the base, and the next digit
is added. A reader whose numbers have a limit answers with the limit as soon as it is passed. It
finds that out from the quotient and the remainder of the limit by the base, before it computes
anything that is above the limit.

## Main definitions

* `read`: the number that digits stand for, after another number.
* `saturate`: one more digit, up to a limit.

## Main results

* `lt_mul_add_iff`: the test by quotient and remainder.
* `foldl_saturate`: reading with a limit is the lesser of the limit and the number.
-/

namespace Numeral

variable {base limit acc digit : ℕ}

/-- The number that digits stand for which follow those of `acc`. -/
def read (base acc : ℕ) (digits : List ℕ) : ℕ :=
  digits.foldl (fun acc digit => acc * base + digit) acc

@[simp]
theorem read_cons (base acc digit : ℕ) (digits : List ℕ) :
    read base acc (digit :: digits) = read base (acc * base + digit) digits := rfl

/-- Digits that follow never make a number less. -/
theorem le_read (hbase : 0 < base) (acc : ℕ) (digits : List ℕ) : acc ≤ read base acc digits := by
  induction digits generalizing acc with
  | nil => exact le_rfl
  | cons digit digits ih =>
      calc acc ≤ acc * base := Nat.le_mul_of_pos_right acc hbase
        _ ≤ acc * base + digit := Nat.le_add_right _ _
        _ ≤ read base acc (digit :: digits) := ih _

/-- One more digit, up to a limit. -/
def saturate (limit base acc digit : ℕ) : ℕ := min limit (acc * base + digit)

/-- At the limit nothing changes any more. -/
theorem saturate_limit (hbase : 0 < base) (limit digit : ℕ) :
    saturate limit base limit digit = limit :=
  min_eq_left ((Nat.le_mul_of_pos_right limit hbase).trans (Nat.le_add_right _ _))

/-- The test for the limit that computes nothing above it. -/
theorem lt_mul_add_iff (hdigit : digit < base) :
    limit < acc * base + digit ↔
      limit / base < acc ∨ acc = limit / base ∧ limit % base < digit := by
  have hlimit : base * (limit / base) + limit % base = limit := Nat.div_add_mod limit base
  have hrem : limit % base < base := Nat.mod_lt limit (by omega)
  rcases Nat.lt_trichotomy (limit / base) acc with hlt | heq | hgt
  · have hmul : base * (limit / base + 1) ≤ base * acc := Nat.mul_le_mul_left base hlt
    rw [Nat.mul_add, Nat.mul_one, Nat.mul_comm base acc] at hmul
    exact iff_of_true (by omega) (.inl hlt)
  · rw [← heq, Nat.mul_comm (limit / base) base]
    omega
  · have hmul : base * (acc + 1) ≤ base * (limit / base) := Nat.mul_le_mul_left base hgt
    rw [Nat.mul_add, Nat.mul_one, Nat.mul_comm base acc] at hmul
    exact iff_of_false (by omega) (by omega)

/-- Reading with a limit. -/
theorem foldl_saturate (hbase : 0 < base) (hacc : acc ≤ limit) (digits : List ℕ) :
    digits.foldl (saturate limit base) acc = min limit (read base acc digits) := by
  induction digits generalizing acc with
  | nil => exact (min_eq_right hacc).symm
  | cons digit digits ih =>
      have hstep : saturate limit base acc digit ≤ limit := min_le_left _ _
      rw [List.foldl_cons, ih hstep, read_cons, saturate]
      rcases le_total (acc * base + digit) limit with hle | hle
      · rw [min_eq_right hle]
      · -- both have passed the limit
        rw [min_eq_left hle, min_eq_left (le_read hbase limit digits),
          min_eq_left (hle.trans (le_read hbase _ digits))]

end Numeral
