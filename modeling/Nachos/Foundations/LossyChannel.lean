import Mathlib.Data.List.Basic
import Mathlib.Logic.Relation

/-!
# Channels that lose items

A channel in which items are lost, but neither changed, repeated nor brought into another order.

## Main definitions

* `LossyChannel`, `LossyChannel.Step`.
* `LossyChannel.InOrder`: what has arrived, with what is under way, is a part of what was sent, in
  the order in which it was sent.

* `LossyChannel.Whole`: nothing that was sent has been lost.

## Main results

* `LossyChannel.InOrder.step`, `LossyChannel.InOrder.reflGen`: the steps keep the order.
-/

namespace Foundations

/-- The items that were sent, those that are under way, and those that have arrived. -/
@[ext]
structure LossyChannel (α : Type*) where
  sent : List α
  transit : List α
  arrived : List α

namespace LossyChannel

variable {α : Type*}

/-- An item is sent, it is lost when it is sent, or the first item that is under way arrives. -/
inductive Step : LossyChannel α → LossyChannel α → Prop
  | send (c : LossyChannel α) (x : α) :
      Step c { c with sent := c.sent ++ [x], transit := c.transit ++ [x] }
  | lose (c : LossyChannel α) (x : α) : Step c { c with sent := c.sent ++ [x] }
  | arrive (sent : List α) (x : α) (transit arrived : List α) :
      Step ⟨sent, x :: transit, arrived⟩ ⟨sent, transit, arrived ++ [x]⟩

/-- What has arrived comes before what is under way, and both are parts of what was sent. -/
def InOrder (c : LossyChannel α) : Prop := (c.arrived ++ c.transit).Sublist c.sent

variable {c d : LossyChannel α}

theorem InOrder.step (h : c.InOrder) (hs : Step c d) : d.InOrder := by
  cases hs with
  | send _ x =>
    change (c.arrived ++ (c.transit ++ [x])).Sublist (c.sent ++ [x])
    rw [← List.append_assoc]
    exact h.append_right [x]
  | lose _ x => exact h.trans (List.sublist_append_left _ _)
  | arrive sent x transit arrived =>
    change (arrived ++ [x] ++ transit).Sublist sent
    rw [List.append_assoc]
    exact h

theorem InOrder.reflGen (h : c.InOrder) (hs : Relation.ReflGen Step c d) : d.InOrder := by
  induction hs with
  | refl => exact h
  | single hs => exact h.step hs

theorem InOrder.arrived (h : c.InOrder) : c.arrived.Sublist c.sent :=
  (List.sublist_append_left _ _).trans h

/-- What has arrived, with what is under way, is all that was sent. -/
def Whole (c : LossyChannel α) : Prop := c.arrived ++ c.transit = c.sent

/-- An item that is neither sent nor lost can only arrive. -/
theorem Whole.reflGen (h : c.Whole) (hs : Relation.ReflGen Step c d) (hsent : d.sent = c.sent) :
    d.Whole := by
  cases hs with
  | refl => exact h
  | single hs =>
    cases hs with
    | send _ x | lose _ x => exact absurd hsent (by simp)
    | arrive sent x transit arrived =>
      change arrived ++ [x] ++ transit = sent
      rw [List.append_assoc]
      exact h

theorem Whole.append (h : c.Whole) (xs : List α) :
    Whole ⟨c.sent ++ xs, c.transit ++ xs, c.arrived⟩ := by
  change c.arrived ++ (c.transit ++ xs) = c.sent ++ xs
  rw [← List.append_assoc, h]

end LossyChannel

end Foundations
