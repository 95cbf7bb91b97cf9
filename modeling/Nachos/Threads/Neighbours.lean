import Mathlib.Data.Fin.Basic
import Mathlib.Tactic.SplitIfs

/-!
# The neighbours at a round table

The indices by which the dining philosophers name their neighbours and their chopsticks.

## Main definitions

* `leftOf`, `rightOf`: the neighbours of `i`.
-/

namespace Nachos.Threads

variable {P : ℕ}

/-- `(i-1+P) % P`. -/
def leftOf (i : Fin P) : Fin P := ⟨(i + (P - 1)) % P, Nat.mod_lt _ i.pos⟩

/-- `(i+1) % P`. -/
def rightOf (i : Fin P) : Fin P := ⟨(i + 1) % P, Nat.mod_lt _ i.pos⟩

theorem leftOf_val (i : Fin P) : (leftOf i : ℕ) = if (i : ℕ) = 0 then P - 1 else (i : ℕ) - 1 := by
  have hi := i.isLt
  simp only [leftOf]
  split_ifs with h
  · rw [h, Nat.zero_add, Nat.mod_eq_of_lt (by omega)]
  · rw [show (i : ℕ) + (P - 1) = (i - 1) + P by omega, Nat.add_mod_right,
      Nat.mod_eq_of_lt (by omega)]

theorem rightOf_val (i : Fin P) :
    (rightOf i : ℕ) = if (i : ℕ) + 1 = P then (0 : ℕ) else (i : ℕ) + 1 := by
  have hi := i.isLt
  simp only [rightOf]
  split_ifs with h
  · rw [h, Nat.mod_self]
  · exact Nat.mod_eq_of_lt (by omega)

@[simp]
theorem leftOf_rightOf (i : Fin P) : leftOf (rightOf i) = i := by
  have hi := i.isLt
  have hr := rightOf_val i
  rw [Fin.ext_iff, leftOf_val]
  split_ifs at hr ⊢ <;> omega

@[simp]
theorem rightOf_leftOf (i : Fin P) : rightOf (leftOf i) = i := by
  have hi := i.isLt
  have hl := leftOf_val i
  rw [Fin.ext_iff, rightOf_val]
  split_ifs at hl ⊢ <;> omega

theorem rightOf_ne (hP : 2 ≤ P) (i : Fin P) : rightOf i ≠ i := by
  have hi := i.isLt
  rw [Ne, Fin.ext_iff, rightOf_val]
  split_ifs <;> omega

theorem leftOf_ne (hP : 2 ≤ P) (i : Fin P) : leftOf i ≠ i := by
  intro h
  exact rightOf_ne hP i (by rw [← h, rightOf_leftOf, h])

/-- With two philosophers both neighbours are the other one. -/
theorem leftOf_eq_rightOf (hP : P = 2) (i : Fin P) : leftOf i = rightOf i := by
  have hi := i.isLt
  rw [Fin.ext_iff, leftOf_val, rightOf_val]
  split_ifs <;> omega

end Nachos.Threads
