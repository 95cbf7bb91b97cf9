import Mathlib.Data.Int.Notation
import Mathlib.Data.List.Basic
import Mathlib.Data.Nat.Notation
import Mathlib.Tactic.Common

/-!
# Arrays with a cursor

An array of a fixed length that is read and written in parts: at a given position, or at a cursor,
which then moves on by the length of the part. A request that reaches beyond the end is cut off
there. This is what a file is to its users.

## Main definitions

* `CursorArray`, `CursorArray.count`, `CursorArray.fetch`, `CursorArray.overwrite`.
* `CursorArray.Request`, `CursorArray.Reply`, `CursorArray.perform`, `CursorArray.run`.

## Main results

* `CursorArray.fetch_eq`, `CursorArray.overwrite_eq`: what determines the buffer after a read
  request and the array after a write request.
-/

namespace Foundations

variable {α : Type*}

/-- An array and a position in it, or behind its end. -/
structure CursorArray (α : Type*) where
  items : List α
  cursor : ℕ

namespace CursorArray

/-- The number of items that a request for `n` items at the position `p` transfers. -/
def count (items : List α) (n : ℤ) (p : ℕ) : ℕ := (max 0 (min n (items.length - p))).toNat

/-- The buffer after a request has read the items at the position `p`. -/
def fetch (items : List α) (into : ℕ → α) (n : ℤ) (p : ℕ) : ℕ → α := fun i =>
  if i < count items n p then items.getD (p + i) (into i) else into i

/-- The items after a request has written at the position `p`. -/
def overwrite (items : List α) (source : ℕ → α) (n : ℤ) (p : ℕ) : List α :=
  items.mapIdx fun i x => if p ≤ i ∧ i < p + count items n p then source (i - p) else x

/-- A request. A read request comes with the buffer `into`, and a write request with the buffer
`source`. -/
inductive Request (α : Type*)
  | seek (p : ℕ)
  | read (into : ℕ → α) (n : ℤ)
  | write (source : ℕ → α) (n : ℤ)
  | readAt (into : ℕ → α) (n : ℤ) (p : ℕ)
  | writeAt (source : ℕ → α) (n : ℤ) (p : ℕ)

/-- The reply to a request: the number of items, and the buffer after a read request. -/
inductive Reply (α : Type*)
  | done
  | read (result : ℕ) (into : ℕ → α)
  | written (result : ℕ)

/-- What a request does. -/
def perform (a : CursorArray α) : Request α → CursorArray α × Reply α
  | .seek p => (⟨a.items, p⟩, .done)
  | .read into n =>
    let result := count a.items n a.cursor
    (⟨a.items, a.cursor + result⟩, .read result (fetch a.items into n a.cursor))
  | .write source n =>
    let result := count a.items n a.cursor
    (⟨overwrite a.items source n a.cursor, a.cursor + result⟩, .written result)
  | .readAt into n p => (a, .read (count a.items n p) (fetch a.items into n p))
  | .writeAt source n p =>
    (⟨overwrite a.items source n p, a.cursor⟩, .written (count a.items n p))

/-- The array after requests, and the replies. -/
def run (a : CursorArray α) : List (Request α) → CursorArray α × List (Reply α)
  | [] => (a, [])
  | r :: rs => (((a.perform r).1.run rs).1, (a.perform r).2 :: ((a.perform r).1.run rs).2)

/-- The position that a request reaches. -/
def reach (a : CursorArray α) : Request α → ℤ
  | .seek p => p
  | .read _ n | .write _ n => a.cursor + n
  | .readAt _ n p | .writeAt _ n p => p + n

/-- Every request stays below a limit. -/
def RunsBelow (limit : ℤ) : CursorArray α → List (Request α) → Prop
  | _, [] => True
  | a, r :: rs => a.reach r < limit ∧ RunsBelow limit (a.perform r).1 rs

variable {items : List α} {n : ℤ} {p : ℕ}

theorem count_eq (items : List α) (n : ℤ) (p : ℕ) :
    count items n p = min n.toNat (items.length - p) := by
  rw [count]
  omega

/-- The buffer after a read request, when `item` are the items of the array. -/
theorem fetch_eq {item : ℕ → α} (into : ℕ → α)
    (h : ∀ i < items.length, items[i]? = some (item i)) :
    fetch items into n p = fun i => if i < count items n p then item (p + i) else into i := by
  funext i
  rw [fetch]
  split_ifs with hi
  · rw [count_eq] at hi
    rw [List.getD_eq_getElem?_getD, h (p + i) (by omega), Option.getD_some]
  · rfl

/-- The array after a write request, item by item. -/
theorem overwrite_eq {items' : List α} {source : ℕ → α} (hlen : items'.length = items.length)
    (h : ∀ i < items.length, items'[i]? =
      if p ≤ i ∧ i < p + count items n p then some (source (i - p)) else items[i]?) :
    items' = overwrite items source n p := by
  refine List.ext_getElem? fun i => ?_
  rw [overwrite, List.getElem?_mapIdx]
  by_cases hi : i < items.length
  · rw [h i hi, List.getElem?_eq_getElem hi, Option.map_some]
    split_ifs <;> rfl
  · rw [List.getElem?_eq_none (by omega), List.getElem?_eq_none (by omega), Option.map_none]

end CursorArray

end Foundations
