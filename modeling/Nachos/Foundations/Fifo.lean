import Mathlib.Data.List.Basic
import Mathlib.Data.Nat.Notation
import Mathlib.Tactic.Common

/-!
# Queues with a log

A log of what has entered a queue and of what has left it explains what the queue holds if
everything has left in the order in which it entered. The rule for a step says when a log that is
continued explains the queue after the step.

## Main definitions

* `FifoLog`, `FifoLog.Explains`, `FifoLog.Continues`.

## Main results

* `FifoLog.Explains.step`: the log after some elements have entered and some have left.
* `FifoLog.Explains.getElem?_left`: nothing overtakes an element of the queue.
-/

namespace Foundations

variable {α : Type*}

/-- What has entered a queue and what has left it, in order. -/
structure FifoLog (α : Type*) where
  entered : List α
  left : List α

namespace FifoLog

variable {l l' l'' : FifoLog α} {q q' ins outs : List α} {a : α}

/-- Nothing has happened. -/
def empty : FifoLog α := ⟨[], []⟩

/-- The log after an element has entered. -/
@[simps]
def enter (l : FifoLog α) (a : α) : FifoLog α := { l with entered := l.entered ++ [a] }

/-- The log after an element has left. -/
@[simps]
def leave (l : FifoLog α) (a : α) : FifoLog α := { l with left := l.left ++ [a] }

/-- What has entered has left in the same order, except for what is still in the queue. -/
def Explains (l : FifoLog α) (q : List α) : Prop := l.entered = l.left ++ q

/-- A later log. -/
def Continues (l l' : FifoLog α) : Prop := l.entered <+: l'.entered ∧ l.left <+: l'.left

theorem Continues.refl (l : FifoLog α) : l.Continues l := ⟨List.prefix_rfl, List.prefix_rfl⟩

theorem Continues.trans (h : l.Continues l') (h' : l'.Continues l'') : l.Continues l'' :=
  ⟨h.1.trans h'.1, h.2.trans h'.2⟩

theorem continues_enter (l : FifoLog α) (a : α) : l.Continues (l.enter a) :=
  ⟨List.prefix_append _ _, List.prefix_rfl⟩

theorem continues_leave (l : FifoLog α) (a : α) : l.Continues (l.leave a) :=
  ⟨List.prefix_rfl, List.prefix_append _ _⟩

theorem explains_empty : (empty : FifoLog α).Explains [] := rfl

/-- Elements enter behind the others, and elements leave at the front. -/
theorem Explains.step (h : l.Explains q) (hq : q ++ ins = outs ++ q') :
    Explains ⟨l.entered ++ ins, l.left ++ outs⟩ q' := by
  rw [Explains] at h ⊢
  rw [h, List.append_assoc, hq, ← List.append_assoc]

theorem Explains.enter (h : l.Explains q) (a : α) : (l.enter a).Explains (q ++ [a]) := by
  have hstep : Explains ⟨l.entered ++ [a], l.left ++ []⟩ (q ++ [a]) := h.step rfl
  rwa [List.append_nil] at hstep

theorem Explains.leave (h : l.Explains (a :: q)) : (l.leave a).Explains q := by
  have hstep : Explains ⟨l.entered ++ [], l.left ++ [a]⟩ q := h.step (by simp)
  rwa [List.append_nil] at hstep

/-- An element leaves after those that are before it in the queue, and before all others. -/
theorem Explains.getElem?_left (h : l.Explains q) (h' : l'.Explains q') (hc : l.Continues l')
    {j : ℕ} (hj : q[j]? = some a) (hlen : l.left.length + j < l'.left.length) :
    l'.left[l.left.length + j]? = some a := by
  obtain ⟨⟨more, hentered⟩, -⟩ := hc
  have hj' : j < q.length := (List.getElem?_eq_some_iff.1 hj).1
  have hold : (l.left ++ q ++ more)[l.left.length + j]? = some a := by
    rw [List.append_assoc, List.getElem?_append_right (Nat.le_add_right _ _),
      Nat.add_sub_cancel_left, List.getElem?_append_left hj', hj]
  rw [← h, hentered, h', List.getElem?_append_left hlen] at hold
  exact hold

end FifoLog

end Foundations
