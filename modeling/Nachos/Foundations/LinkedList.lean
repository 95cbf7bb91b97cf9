import Mathlib.Data.List.Chain
import Mathlib.Data.Nat.Notation
import Mathlib.Logic.Function.Basic
import Mathlib.Tactic.Common

/-!
# Doubly linked lists

Elements that point to the next and the previous element of a list. What the last element points
to as its next one, and the first as its previous one, is left open.

## Main definitions

* `Linked next previous l`: the elements of `l` point to each other in this order.

## Main results

* `Linked.concat`, `Linked.bypass`: an element is linked behind the last one, and unlinked from
  between two others.
-/

namespace Foundations

open Function

variable {α : Type*} {next previous : α → Option α} {l l' : List α} {a b c : α}

/-- The elements of `l` point to each other in this order. -/
def Linked (next previous : α → Option α) (l : List α) : Prop :=
  l.IsChain fun a b => next a = some b ∧ previous b = some a

namespace Linked

@[simp]
theorem singleton (a : α) : Linked next previous [a] := List.isChain_singleton a

@[simp]
theorem nil : Linked next previous [] := List.isChain_nil

theorem cons_cons : Linked next previous (a :: b :: l) ↔
    (next a = some b ∧ previous b = some a) ∧ Linked next previous (b :: l) :=
  List.isChain_cons_cons

theorem of_cons (h : Linked next previous (a :: l)) : Linked next previous l :=
  List.IsChain.tail h

theorem append_cons_cons : Linked next previous (l ++ a :: b :: l') ↔
    Linked next previous (l ++ [a]) ∧ (next a = some b ∧ previous b = some a) ∧
      Linked next previous (b :: l') :=
  List.isChain_append_cons_cons

variable [DecidableEq α]

/-- The next element of the last element does not matter. -/
theorem update_next (h : Linked next previous l) (ha : a ∉ l.dropLast) (v : Option α) :
    Linked (update next a v) previous l := by
  induction l with
  | nil => exact nil
  | cons b l ih =>
    cases l with
    | nil => exact singleton b
    | cons c l =>
      rw [List.dropLast_cons_cons, List.mem_cons, not_or] at ha
      obtain ⟨⟨hnext, hprevious⟩, hl⟩ := cons_cons.1 h
      refine cons_cons.2 ⟨⟨?_, hprevious⟩, ih hl ha.2⟩
      rw [update_of_ne (Ne.symm ha.1), hnext]

/-- The previous element of the first element does not matter. -/
theorem update_previous (h : Linked next previous l) (ha : a ∉ l.tail) (v : Option α) :
    Linked next (update previous a v) l := by
  induction l with
  | nil => exact nil
  | cons b l ih =>
    cases l with
    | nil => exact singleton b
    | cons c l =>
      rw [List.tail_cons, List.mem_cons, not_or] at ha
      obtain ⟨⟨hnext, hprevious⟩, hl⟩ := cons_cons.1 h
      refine cons_cons.2 ⟨⟨hnext, ?_⟩, ih hl ha.2⟩
      rw [update_of_ne (Ne.symm ha.1), hprevious]

/-- An element is linked behind the last one. -/
theorem concat (h : Linked next previous (l ++ [a])) (hl : (l ++ [a]).Nodup)
    (hb : b ∉ l ++ [a]) :
    Linked (update next a (some b)) (update previous b (some a)) (l ++ [a, b]) := by
  have ha : a ∉ (l ++ [a]).dropLast := by
    rw [List.dropLast_concat]
    exact fun ha => (List.nodup_append.1 hl).2.2 a ha a (by simp) rfl
  refine append_cons_cons.2 ⟨?_, by simp, singleton b⟩
  exact (h.update_next ha _).update_previous (fun hb' => hb (List.mem_of_mem_tail hb')) _

/-- The element between two others is unlinked. -/
theorem bypass (h : Linked next previous (l ++ a :: b :: c :: l'))
    (hl : (l ++ a :: b :: c :: l').Nodup) :
    Linked (update next a (some c)) (update previous c (some a)) (l ++ a :: c :: l') := by
  obtain ⟨hfirst, -, hrest⟩ := append_cons_cons.1 h
  have hlast := hrest.of_cons
  simp only [List.nodup_append, List.nodup_cons, List.mem_cons] at hl
  refine append_cons_cons.2 ⟨?_, by simp, ?_⟩
  · refine (hfirst.update_next ?_ _).update_previous ?_ _
    · rw [List.dropLast_concat]
      exact fun ha => hl.2.2 a ha a (.inl rfl) rfl
    · intro hc
      have hc' : c ∈ l ++ [a] := List.mem_of_mem_tail hc
      grind
  · refine (hlast.update_next ?_ _).update_previous ?_ _
    · intro ha
      have ha' : a ∈ c :: l' := (List.dropLast_sublist _).subset ha
      grind
    · rw [List.tail_cons]
      grind

end Linked

end Foundations
