import Mathlib.Data.List.Sort
import Mathlib.Order.Defs.LinearOrder
import Mathlib.Tactic.Common

/-!
# Queues that are sorted by a key

An item is put behind those whose key is not larger. The first item of the queue has the smallest
key, and items with the same key stay in the order in which they came.

## Main definitions

* `sortedInsert`.

## Main results

* `perm_sortedInsert`, `pairwise_sortedInsert`: the queue has one item more, and stays sorted.
* `sortedInsert_append`, `filter_sortedInsert`: where an item goes.
* `sortedInsert_eq_cons_iff`: when the first item that is put back becomes the first again.
-/

namespace Foundations

variable {α κ : Type*} [LinearOrder κ] {key : α → κ} {x y : α} {l : List α}

/-- Put an item into a queue that is sorted by a key. -/
def sortedInsert (key : α → κ) (x : α) (l : List α) : List α :=
  l.orderedInsert (fun y z => key y < key z) x

theorem perm_sortedInsert (key : α → κ) (x : α) (l : List α) :
    (sortedInsert key x l).Perm (x :: l) :=
  List.perm_orderedInsert _ x l

theorem mem_sortedInsert : y ∈ sortedInsert key x l ↔ y = x ∨ y ∈ l :=
  List.mem_orderedInsert _

theorem pairwise_sortedInsert (h : l.Pairwise fun y z => key y ≤ key z) (x : α) :
    (sortedInsert key x l).Pairwise fun y z => key y ≤ key z := by
  induction l with
  | nil => exact List.pairwise_singleton _ x
  | cons y l ih =>
    obtain ⟨hy, hl⟩ := List.pairwise_cons.1 h
    rw [sortedInsert, List.orderedInsert_cons]
    split_ifs with hlt
    · refine List.pairwise_cons.2 ⟨fun z hz => ?_, h⟩
      rcases List.mem_cons.1 hz with rfl | hz
      · exact hlt.le
      · exact hlt.le.trans (hy z hz)
    · refine List.pairwise_cons.2 ⟨fun z hz => ?_, ih hl⟩
      rcases mem_sortedInsert.1 hz with rfl | hz
      · exact le_of_not_gt hlt
      · exact hy z hz

/-- An item goes behind those whose key is not larger, also in a queue that is not sorted. -/
theorem sortedInsert_append {l' : List α} (h : ∀ y ∈ l, key y ≤ key x) :
    sortedInsert key x (l ++ l') = l ++ sortedInsert key x l' := by
  induction l with
  | nil => rfl
  | cons y l ih =>
    obtain ⟨hy, hl⟩ := List.forall_mem_cons.1 h
    rw [sortedInsert, List.cons_append, List.orderedInsert_cons, if_neg hy.not_gt, List.cons_append]
    exact congrArg _ (ih hl)

theorem sortedInsert_of_lt (h : ∀ y ∈ l.head?, key x < key y) :
    sortedInsert key x l = x :: l := by
  cases l with
  | nil => rfl
  | cons y l => exact (List.orderedInsert_cons _ _ _ _).trans (if_pos (h y rfl))

/-- Among the items with one key, an item goes to the end. -/
theorem filter_sortedInsert (h : l.Pairwise fun y z => key y ≤ key z) (x : α) (k : κ) :
    (sortedInsert key x l).filter (fun y => decide (key y = k)) =
      l.filter (fun y => decide (key y = k)) ++ [x].filter (fun y => decide (key y = k)) := by
  induction l with
  | nil => rfl
  | cons y l ih =>
    obtain ⟨hy, hl⟩ := List.pairwise_cons.1 h
    rw [sortedInsert, List.orderedInsert_cons]
    split_ifs with hlt
    · by_cases hk : key x = k
      · have hnil : (y :: l).filter (fun y => decide (key y = k)) = [] := by
          refine List.filter_eq_nil_iff.2 fun z hz => ?_
          have hxz : key x < key z := by
            rcases List.mem_cons.1 hz with rfl | hz
            · exact hlt
            · exact hlt.trans_le (hy z hz)
          simpa [hk] using (hk ▸ hxz).ne'
        rw [List.filter_cons, hnil, List.nil_append, List.filter_cons]
        simp [hk]
      · simp [hk]
    · have ih := ih hl
      rw [sortedInsert] at ih
      rw [List.filter_cons (x := y), List.filter_cons (x := y), ih]
      split_ifs <;> rfl

/-- The first item that is put back is behind all others with its key. -/
theorem sortedInsert_eq_cons_iff (h : (x :: l).Pairwise fun y z => key y ≤ key z) :
    sortedInsert key x l = x :: l ↔ ∀ y ∈ l, key y = key x → y = x := by
  induction l with
  | nil => exact iff_of_true rfl nofun
  | cons y l ih =>
    obtain ⟨hx, hy, hl⟩ := List.pairwise_cons.1 h |>.imp_right List.pairwise_cons.1
    have hxl := List.pairwise_cons.2 ⟨fun z hz => hx z (List.mem_cons_of_mem _ hz), hl⟩
    rw [sortedInsert, List.orderedInsert_cons]
    split_ifs with hlt
    · refine iff_of_true rfl fun z hz heq => absurd heq (ne_of_gt ?_)
      rcases List.mem_cons.1 hz with rfl | hz
      · exact hlt
      · exact hlt.trans_le (hy z hz)
    · have hkey : key y = key x := le_antisymm (le_of_not_gt hlt) (hx y List.mem_cons_self)
      rw [List.forall_mem_cons, ← ih hxl, List.cons.injEq]
      constructor
      · rintro ⟨rfl, hinsert⟩
        exact ⟨fun _ => rfl, hinsert⟩
      · rintro ⟨hyx, hinsert⟩
        obtain rfl := hyx hkey
        exact ⟨rfl, hinsert⟩

end Foundations
