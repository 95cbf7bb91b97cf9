import Mathlib.Data.BitVec
import Mathlib.Tactic.IntervalCases
import Nachos.Foundations.DoubleWord
import Nachos.Machine.MipsSim

/-!
# Multiplication

`Mult` of `machine/mipssim.cc` adds the multiples of `b` by the bits of `a`, on two words with
carries, and stops early when no further bit of `a` is set. Negative operands are made positive
before, and the sign is put on the double word afterwards. The result is exact.

## Main results

* `append_multLoop`: what the loop adds.
* `mult_exact`: the products of signed and of unsigned operands.
-/

namespace Nachos

open Foundations

namespace Machine

/-- The sign bit. -/
theorem isNegative_iff (w : Word) : IsNegative w ↔ w.msb = true := by
  have hbit : w &&& 0x80000000 = if w.getLsbD 31 then 0x80000000 else 0 :=
    BitVec.and_twoPow w 31
  rw [IsNegative, hbit, BitVec.msb_eq_getLsbD_last]
  cases w.getLsbD 31 with
  | false => exact iff_of_false (fun hne => hne rfl) Bool.false_ne_true
  | true => exact iff_of_true (by decide) rfl

end Machine

/-! ### The bits of `a` -/

/-- The lowest bit. -/
theorem and_one_ne_zero_iff (a : Word) : a &&& 1 ≠ 0 ↔ a.toNat % 2 = 1 := by
  have hbit : (a &&& 1).toNat = a.toNat % 2 := by
    simp [BitVec.toNat_and, Nat.and_one_is_mod]
  rw [Ne, BitVec.toNat_eq, hbit]
  simp

/-- No bit but the lowest one is set. -/
theorem eq_one_of_and_eq_zero {a : Word} (hodd : a &&& 1 ≠ 0) (h : a &&& 0xfffffffe = 0) :
    a = 1 := by
  have hsplit : a = a &&& 0xfffffffe ||| a &&& 1 := by
    ext i hi
    interval_cases i <;> simp
  have hone : a &&& 1 = 1 := by
    refine BitVec.eq_of_toNat_eq ?_
    rw [BitVec.toNat_and]
    simpa [Nat.and_one_is_mod] using (and_one_ne_zero_iff a).1 hodd
  rw [hsplit, h, hone]
  rfl

/-- Shifting the word by one place drops its lowest bit; the copy of the sign is not among the
bits that are left to add. -/
theorem sshiftRight_one_mod (a : Word) {n : ℕ} (hn : n < 32) :
    (a.sshiftRight 1).toNat % 2 ^ n = a.toNat % 2 ^ (n + 1) / 2 := by
  refine Nat.eq_of_testBit_eq fun i => ?_
  rw [← Nat.testBit_succ, Nat.testBit_mod_two_pow, Nat.testBit_mod_two_pow]
  by_cases hi : i < n
  · have hbit := BitVec.getLsbD_sshiftRight a 1 i
    rw [if_pos (by omega)] at hbit
    simpa [hi, BitVec.getLsbD, Nat.add_comm 1 i, show ¬32 ≤ i by omega] using hbit
  · simp [hi]

/-! ### The loop -/

/-- The double of the shifted operand. -/
theorem append_shift (bHi bLo : Word) :
    (if bLo &&& 0x80000000 ≠ 0 then bHi <<< 1 ||| 1 else bHi <<< 1) ++ (bLo <<< 1) =
      (bHi ++ bLo) + (bHi ++ bLo) := by
  have hmsb : bLo &&& 0x80000000 ≠ 0 ↔ bLo.msb = true := Machine.isNegative_iff bLo
  rw [append_add_self]
  simp only [hmsb]
  rfl

/-- The lowest bit of `a` apart from the others. -/
theorem ofNat_mod_two_pow_succ (a : Word) {n : ℕ} (hn : n < 32) :
    BitVec.ofNat 64 (a.toNat % 2 ^ (n + 1)) = BitVec.ofNat 64 (a.toNat % 2) +
      (BitVec.ofNat 64 ((a.sshiftRight 1).toNat % 2 ^ n) +
        BitVec.ofNat 64 ((a.sshiftRight 1).toNat % 2 ^ n)) := by
  have hlow : a.toNat % 2 ^ (n + 1) % 2 = a.toNat % 2 :=
    Nat.mod_mod_of_dvd _ (Dvd.intro_left (2 ^ n) rfl)
  rw [← BitVec.ofNat_add, ← BitVec.ofNat_add, sshiftRight_one_mod a hn]
  congr 1
  omega

/-- The loop adds the product of `b` with the lowest `n` bits of `a`. -/
theorem append_multLoop {n : ℕ} (hn : n ≤ 32) (a bLo bHi lo hi : Word) :
    (multLoop n a bLo bHi lo hi).1 ++ (multLoop n a bLo bHi lo hi).2 =
      (hi ++ lo) + BitVec.ofNat 64 (a.toNat % 2 ^ n) * (bHi ++ bLo) := by
  induction n generalizing a bLo bHi lo hi with
  | zero => simp [multLoop, Nat.mod_one]
  | succ n ih =>
    have hsum : (if lo + bLo < bLo then hi + 1 else hi) + bHi ++ (lo + bLo) =
        (hi ++ lo) + (bHi ++ bLo) := (append_add_append hi lo bHi bLo).symm
    simp only [multLoop]
    by_cases hodd : a &&& 1 ≠ 0
    · simp only [if_pos hodd]
      by_cases hlast : a &&& 0xfffffffe = 0
      · obtain rfl := eq_one_of_and_eq_zero hodd hlast
        have hone : (1 : Word).toNat % 2 ^ (n + 1) = 1 := Nat.one_mod_two_pow (Nat.succ_pos n)
        rw [if_pos ⟨hodd, hlast⟩, hsum, hone]
        exact congrArg _ (BitVec.one_mul _).symm
      · rw [if_neg fun h => hlast h.2, ih (by omega), hsum, append_shift,
          ofNat_mod_two_pow_succ a (by omega), (and_one_ne_zero_iff a).1 hodd,
          show BitVec.ofNat 64 1 = 1 from rfl]
        ring
    · have heven : a.toNat % 2 = 0 := by
        rw [and_one_ne_zero_iff] at hodd
        omega
      simp only [if_neg hodd]
      rw [if_neg fun h => hodd h.1, ih (by omega), append_shift,
        ofNat_mod_two_pow_succ a (by omega), heven, show BitVec.ofNat 64 0 = 0 from rfl]
      ring

/-- The loop multiplies unsigned operands. -/
theorem append_multLoop_zero (a b : Word) :
    (multLoop 32 a b 0 0 0).1 ++ (multLoop 32 a b 0 0 0).2 =
      BitVec.ofNat 64 (a.toNat * b.toNat) := by
  have hb : (0 : Word) ++ b = BitVec.ofNat 64 b.toNat := by
    refine BitVec.eq_of_toNat_eq ?_
    rw [toNat_append_eq]
    simp
    omega
  rw [append_multLoop le_rfl, Nat.mod_eq_of_lt a.isLt, hb, BitVec.ofNat_mul]
  exact BitVec.zero_add _

/-! ### The sign -/

/-- An operand is made positive, but for the least one, which is its own negative. -/
theorem toNat_of_slt (a : Word) : (if a.slt 0 then -a else a).toNat = a.toInt.natAbs := by
  have ha := a.isLt
  have habs : (if a.slt 0 then -a else a) = a.abs := by
    rw [BitVec.abs, ← BitVec.slt_zero_eq_msb]
    rfl
  rw [habs, BitVec.toNat_abs, BitVec.toInt_eq_msb_cond]
  split_ifs <;> omega

/-- The sign of the product. -/
theorem mul_toInt_eq (a b : Word) : a.toInt * b.toInt =
    if a.slt 0 ≠ b.slt 0 then -((a.toInt.natAbs * b.toInt.natAbs : ℕ) : ℤ)
    else ((a.toInt.natAbs * b.toInt.natAbs : ℕ) : ℤ) := by
  simp only [BitVec.slt_eq_decide, show (0 : Word).toInt = 0 from rfl]
  rcases lt_or_ge a.toInt 0 with ha | ha <;> rcases lt_or_ge b.toInt 0 with hb | hb
  · simp [ha, hb, abs_of_neg ha, abs_of_neg hb]
  · simp [ha, hb.not_gt, abs_of_neg ha, abs_of_nonneg hb]
  · simp [ha.not_gt, hb, abs_of_nonneg ha, abs_of_neg hb]
  · simp [ha.not_gt, hb.not_gt, abs_of_nonneg ha, abs_of_nonneg hb]

theorem append_mult_unsigned (a b : Word) :
    (mult a b false).1 ++ (mult a b false).2 = BitVec.ofNat 64 (a.toNat * b.toNat) := by
  unfold mult
  split_ifs with h
  · rcases h with rfl | rfl <;> simp
  · exact append_multLoop_zero a b

theorem append_mult_signed (a b : Word) :
    (mult a b true).1 ++ (mult a b true).2 = BitVec.ofInt 64 (a.toInt * b.toInt) := by
  unfold mult
  by_cases h : a = 0 ∨ b = 0
  · rw [if_pos h]
    rcases h with rfl | rfl <;> simp
  · have hloop := append_multLoop_zero (if a.slt 0 then -a else a) (if b.slt 0 then -b else b)
    rw [toNat_of_slt, toNat_of_slt] at hloop
    rw [if_neg h, mul_toInt_eq]
    simp only [Bool.true_and]
    generalize multLoop 32 _ _ 0 0 0 = product at hloop ⊢
    by_cases hneg : a.slt 0 ≠ b.slt 0
    · simp only [if_pos hneg]
      rw [BitVec.ofInt_neg, BitVec.ofInt_natCast, ← hloop, neg_append (by decide)]
      rfl
    · simp only [if_neg hneg]
      rw [BitVec.ofInt_natCast, ← hloop]

/-- `Mult` is exact for signed and for unsigned operands. -/
theorem mult_exact (a b : Word) :
    ((mult a b true).1 ++ (mult a b true).2).toInt = a.toInt * b.toInt ∧
      ((mult a b false).1 ++ (mult a b false).2).toNat = a.toNat * b.toNat := by
  constructor
  · have hle := @BitVec.toInt_mul_toInt_le 32 a b
    have hge := @BitVec.le_toInt_mul_toInt 32 a b
    rw [append_mult_signed]
    refine BitVec.toInt_ofInt_eq_self (by decide) ?_ ?_ <;> omega
  · rw [append_mult_unsigned, BitVec.toNat_ofNat]
    refine Nat.mod_eq_of_lt ?_
    calc a.toNat * b.toNat < 2 ^ 32 * 2 ^ 32 := Nat.mul_lt_mul'' a.isLt b.isLt
      _ = 2 ^ 64 := rfl

end Nachos
