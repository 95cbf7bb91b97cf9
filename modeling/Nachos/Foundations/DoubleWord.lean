import Mathlib.Algebra.Order.Ring.Nat
import Mathlib.Data.Nat.Notation
import Mathlib.Tactic.Ring

/-!
# Double words

Arithmetic on words of the double width, computed on their two halves: a sum with the carry of the
low halves, the double, and the negative.

## Main results

* `append_add_append`, `append_add_self`, `neg_append`.
-/

namespace Foundations

variable {w : ℕ}

theorem toNat_append_eq {v : ℕ} (hi : BitVec v) (lo : BitVec w) :
    (hi ++ lo).toNat = hi.toNat * 2 ^ w + lo.toNat := by
  rw [BitVec.toNat_append, ← Nat.shiftLeft_add_eq_or_of_lt lo.isLt, Nat.shiftLeft_eq]

/-- What does not fit into the low half is carried to the high one. -/
theorem ofNat_eq_append (q r : ℕ) : BitVec.ofNat (w + w) (q * 2 ^ w + r) =
    BitVec.ofNat w (q + r / 2 ^ w) ++ BitVec.ofNat w r := by
  refine BitVec.eq_of_toNat_eq ?_
  have hlow : (q * 2 ^ w + r) % 2 ^ w = r % 2 ^ w := Nat.mul_add_mod_self_right q (2 ^ w) r
  have hhigh : (q * 2 ^ w + r) / 2 ^ w = q + r / 2 ^ w := by
    rw [Nat.add_comm, Nat.add_mul_div_right _ _ (Nat.two_pow_pos w), Nat.add_comm]
  rw [toNat_append_eq]
  simp only [BitVec.toNat_ofNat]
  rw [Nat.pow_add, Nat.mod_mul, hlow, hhigh]
  ring

/-- The sum of the low halves is smaller than a summand if there is a carry. -/
theorem add_lt_iff_carry (x y : BitVec w) : x + y < y ↔ 2 ^ w ≤ x.toNat + y.toNat := by
  have hx := x.isLt
  have hy := y.isLt
  rw [BitVec.lt_def, BitVec.toNat_add]
  rcases Nat.lt_or_ge (x.toNat + y.toNat) (2 ^ w) with h | h
  · rw [Nat.mod_eq_of_lt h]
    omega
  · rw [Nat.mod_eq_sub_mod h, Nat.mod_eq_of_lt (by omega)]
    omega

theorem ofNat_carry (hi x y : BitVec w) :
    BitVec.ofNat w (hi.toNat + (x.toNat + y.toNat) / 2 ^ w) =
      if x + y < y then hi + 1#w else hi := by
  have hx := x.isLt
  have hy := y.isLt
  split_ifs with h
  · rw [add_lt_iff_carry] at h
    have hcarry : (x.toNat + y.toNat) / 2 ^ w = 1 := by
      rw [Nat.div_eq_of_lt_le] <;> omega
    rw [hcarry, BitVec.ofNat_add, BitVec.ofNat_toNat, BitVec.setWidth_eq]
  · rw [add_lt_iff_carry] at h
    rw [Nat.div_eq_of_lt (by omega), Nat.add_zero, BitVec.ofNat_toNat, BitVec.setWidth_eq]

theorem ofNat_add_toNat (x y : BitVec w) : BitVec.ofNat w (x.toNat + y.toNat) = x + y := by
  rw [BitVec.ofNat_add, BitVec.ofNat_toNat, BitVec.ofNat_toNat, BitVec.setWidth_eq,
    BitVec.setWidth_eq]

/-- The sum of two double words. -/
theorem append_add_append (hi lo hi' lo' : BitVec w) : (hi ++ lo) + (hi' ++ lo') =
    ((if lo + lo' < lo' then hi + 1#w else hi) + hi') ++ (lo + lo') := by
  have hsum : (hi ++ lo) + (hi' ++ lo') = BitVec.ofNat (w + w)
      ((hi.toNat + hi'.toNat) * 2 ^ w + (lo.toNat + lo'.toNat)) := by
    refine BitVec.eq_of_toNat_eq ?_
    rw [BitVec.toNat_add, toNat_append_eq, toNat_append_eq, BitVec.toNat_ofNat]
    congr 1
    ring
  rw [hsum, ofNat_eq_append, ofNat_add_toNat, Nat.add_right_comm, ← ofNat_carry, BitVec.ofNat_add]
  congr 2
  rw [BitVec.ofNat_toNat, BitVec.setWidth_eq]

theorem add_self_eq_shiftLeft (x : BitVec w) : x + x = x <<< 1 := by
  refine BitVec.eq_of_toNat_eq ?_
  rw [BitVec.toNat_add, BitVec.toNat_shiftLeft, Nat.shiftLeft_eq, Nat.pow_one, Nat.mul_two]

theorem shiftLeft_add_one (x : BitVec w) : x <<< 1 + 1#w = x <<< 1 ||| 1#w := by
  refine BitVec.add_eq_or_of_and_eq_zero _ _ ?_
  ext i hi
  by_cases h : i = 0 <;> simp [h]

/-- The double of a double word. -/
theorem append_add_self (hi lo : BitVec w) : (hi ++ lo) + (hi ++ lo) =
    (if lo.msb then hi <<< 1 ||| 1#w else hi <<< 1) ++ (lo <<< 1) := by
  have hcarry : lo + lo < lo ↔ lo.msb = true := by
    rw [add_lt_iff_carry, BitVec.msb_eq_true_iff_two_mul_ge, Nat.two_mul]
  have hhigh : (if lo + lo < lo then hi + 1#w else hi) + hi =
      if lo.msb then hi <<< 1 ||| 1#w else hi <<< 1 := by
    simp only [hcarry]
    split_ifs
    · rw [BitVec.add_assoc, BitVec.add_comm 1#w, ← BitVec.add_assoc, add_self_eq_shiftLeft,
        shiftLeft_add_one]
    · exact add_self_eq_shiftLeft hi
  rw [append_add_append, hhigh, add_self_eq_shiftLeft]

/-- The negative of a double word. -/
theorem neg_append (hw : 0 < w) (hi lo : BitVec w) :
    -(hi ++ lo) = (if ~~~lo + 1#w = 0#w then ~~~hi + 1#w else ~~~hi) ++ (~~~lo + 1#w) := by
  have hone : 1#(w + w) = 0#w ++ 1#w := by
    refine BitVec.eq_of_toNat_eq ?_
    rw [toNat_append_eq, BitVec.toNat_one (by omega), BitVec.toNat_one hw]
    simp
  have hlt (x : BitVec w) : x < 1#w ↔ x = 0#w := by
    rw [BitVec.lt_def, BitVec.toNat_one hw, Nat.lt_one_iff, BitVec.toNat_eq]
    simp
  rw [BitVec.neg_eq_not_add, BitVec.not_append, hone, append_add_append]
  simp only [hlt, BitVec.add_zero]

end Foundations
