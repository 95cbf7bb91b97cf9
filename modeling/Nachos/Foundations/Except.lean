import Mathlib.Tactic.TypeStar

/-!
# Fallible computations

Inversion of a sequence of fallible computations that has succeeded.
-/

namespace Foundations

variable {α β : Type} {φ : Type*}

@[simp]
theorem ok_bind (a : α) (f : α → Except φ β) : (Except.ok a >>= f) = f a := rfl

@[simp]
theorem error_bind (e : φ) (f : α → Except φ β) : (Except.error e >>= f) = .error e := rfl

@[simp]
theorem map_ok (a : α) (f : α → β) : (Except.ok a : Except φ α).map f = .ok (f a) := rfl

@[simp]
theorem map_error (e : φ) (f : α → β) : (Except.error e : Except φ α).map f = .error e := rfl

/-- A sequence of two computations succeeds if both succeed. -/
theorem bind_eq_ok {x : Except φ α} {f : α → Except φ β} {b : β} :
    (x >>= f) = .ok b ↔ ∃ a, x = .ok a ∧ f a = .ok b := by
  cases x with
  | error e => simp
  | ok a => simp

theorem map_eq_ok {x : Except φ α} {f : α → β} {b : β} :
    x.map f = .ok b ↔ ∃ a, x = .ok a ∧ f a = b := by
  cases x with
  | error e => simp
  | ok a => simp

theorem map_eq_error {x : Except φ α} {f : α → β} {e : φ} : x.map f = .error e ↔ x = .error e := by
  cases x with
  | error e => simp
  | ok a => simp

theorem toOption_eq_some {x : Except φ α} {a : α} : x.toOption = some a ↔ x = .ok a := by
  cases x <;> simp [Except.toOption]

end Foundations
