import Mathlib.Data.Nat.Notation
import Mathlib.Data.List.Nodup
import Mathlib.Logic.Function.Basic
import Mathlib.Tactic.Common

/-!
# Singly linked lists

Cells that point to the next cell of a list. A null pointer is `none`.

## Main definitions

* `Segment next p l q`: from the pointer `p` on, the cells of `l` follow each other, and the last
  one points to where `q` points.
* `NullTerminated next p l`: a segment that ends with a null pointer.

## Main results

* `Segment.append`: segments are put together.
* `Segment.update`: a cell that is not in a segment does not matter to it.
* `NullTerminated.cons`, `NullTerminated.insert`: a new cell is linked in front of the first one,
  or behind another one.
-/

namespace Foundations

open Function

variable {α : Type*} {next next' : α → Option α} {l l' : List α} {a b : α} {p q r : Option α}

/-- From `p` on, the cells of `l` follow each other up to `q`. -/
def Segment (next : α → Option α) : Option α → List α → Option α → Prop
  | p, [], q => p = q
  | p, a :: l, q => p = some a ∧ Segment next (next a) l q

namespace Segment

@[simp]
theorem nil : Segment next p [] q ↔ p = q := Iff.rfl

@[simp]
theorem cons : Segment next p (a :: l) q ↔ p = some a ∧ Segment next (next a) l q := Iff.rfl

theorem append :
    Segment next p (l ++ l') q ↔ ∃ r, Segment next p l r ∧ Segment next r l' q := by
  induction l generalizing p with
  | nil => simp
  | cons a l ih => simp [ih, and_assoc]

theorem congr (h : Segment next p l q) (hnext : ∀ a ∈ l, next' a = next a) :
    Segment next' p l q := by
  induction l generalizing p with
  | nil => exact h
  | cons a l ih =>
    obtain ⟨rfl, htail⟩ := cons.1 h
    rw [← hnext a List.mem_cons_self] at htail
    exact cons.2 ⟨rfl, ih htail fun b hb => hnext b (List.mem_cons_of_mem a hb)⟩

/-- A cell outside of a segment does not matter to it. -/
theorem update [DecidableEq α] (h : Segment next p l q) (ha : a ∉ l) (v : Option α) :
    Segment (update next a v) p l q :=
  h.congr fun _ hb => update_of_ne (ne_of_mem_of_not_mem hb ha) _ _

end Segment

/-- The list of the cells from `p` on ends with a null pointer. -/
def NullTerminated (next : α → Option α) (p : Option α) (l : List α) : Prop :=
  Segment next p l none

namespace NullTerminated

@[simp]
theorem nil : NullTerminated next p [] ↔ p = none := Iff.rfl

@[simp]
theorem cons_iff :
    NullTerminated next p (a :: l) ↔ p = some a ∧ NullTerminated next (next a) l := Iff.rfl

theorem append_iff :
    NullTerminated next p (l ++ a :: l') ↔
      Segment next p l (some a) ∧ NullTerminated next (next a) l' := by
  rw [NullTerminated, Segment.append]
  exact ⟨fun ⟨_, hl, rfl, hl'⟩ => ⟨hl, hl'⟩, fun ⟨hl, hl'⟩ => ⟨_, hl, rfl, hl'⟩⟩

theorem eq_head? (h : NullTerminated next p l) : p = l.head? := by
  cases l with
  | nil => exact h
  | cons a l => exact h.1

theorem eq_none_iff (h : NullTerminated next p l) : p = none ↔ l = [] := by
  rw [h.eq_head?, List.head?_eq_none_iff]

/-- The last cell points to nothing. -/
theorem next_getLast (h : NullTerminated next p l) (ha : l.getLast? = some a) : next a = none := by
  obtain ⟨l', rfl⟩ := List.getLast?_eq_some_iff.1 ha
  exact (append_iff.1 h).2

variable [DecidableEq α]

theorem update (h : NullTerminated next p l) (ha : a ∉ l) (v : Option α) :
    NullTerminated (update next a v) p l :=
  Segment.update h ha v

/-- A new cell in front of the first one. -/
theorem cons (h : NullTerminated next p l) (ha : a ∉ l) :
    NullTerminated (Function.update next a p) (some a) (a :: l) := by
  rw [cons_iff, update_self]
  exact ⟨rfl, h.update ha p⟩

/-- A new cell behind the cell `b`. -/
theorem insert (h : NullTerminated next p (l ++ b :: l')) (hnodup : (l ++ b :: l').Nodup)
    (ha : a ∉ l ++ b :: l') :
    NullTerminated (Function.update (Function.update next a (next b)) b (some a)) p
      (l ++ b :: a :: l') := by
  obtain ⟨hl, hl'⟩ := append_iff.1 h
  simp only [List.nodup_append, List.nodup_cons, List.mem_append, List.mem_cons, not_or]
    at hnodup ha
  have hbl : b ∉ l := fun hb => hnodup.2.2 b hb b (.inl rfl) rfl
  rw [append_iff, update_self, cons_iff, update_of_ne ha.2.1, update_self]
  exact ⟨(hl.update ha.1 _).update hbl _, rfl, (hl'.update ha.2.2 _).update hnodup.2.1.1 _⟩

end NullTerminated

end Foundations
