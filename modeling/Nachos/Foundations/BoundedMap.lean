import Mathlib.Data.Finmap
import Mathlib.Data.Nat.Notation

/-!
# Maps of bounded size

A finite map that holds at most `n` keys. A key is added if the map does not have it and is not
full, and removed if the map has it. What a map holds after a sequence of requests is determined by
the requests and by which of them succeeded.

## Main definitions

* `BoundedMap`, `BoundedMap.add`, `BoundedMap.remove`, `BoundedMap.perform`, `BoundedMap.run`.
* `BoundedMap.latest`: the value that a key has after a history of requests.

## Main results

* `BoundedMap.lookup_perform_of_ne`: a request changes the value of its own key only.
* `BoundedMap.lookup_run`: the map after a sequence of requests holds the latest values.
-/

namespace Foundations

variable {κ ν : Type} {n : ℕ}

/-- A finite map with at most `n` keys. -/
structure BoundedMap (κ ν : Type) (n : ℕ) where
  entries : Finmap fun _ : κ => ν
  card_le : entries.keys.card ≤ n

namespace BoundedMap

/-- The map without keys. -/
def empty : BoundedMap κ ν n := ⟨∅, by simp⟩

/-- A request to add a key with a value, or to remove a key. -/
inductive Request (κ ν : Type)
  | add (k : κ) (v : ν)
  | remove (k : κ)

/-- The key that a request is about. -/
def Request.key : Request κ ν → κ
  | .add k _ => k
  | .remove k => k

/-- The value that a key has after a history of requests, when it has had the value `found` before.
Each request comes with whether it succeeded. -/
def latest [DecidableEq κ] (k : κ) : Option ν → List (Request κ ν × Bool) → Option ν
  | found, [] => found
  | found, (.add k' v, true) :: history => latest k (if k' = k then some v else found) history
  | found, (.remove k', true) :: history => latest k (if k' = k then none else found) history
  | found, (_, false) :: history => latest k found history

variable [DecidableEq κ] {m : BoundedMap κ ν n} {k : κ} {v : ν}

/-- The value of a key. -/
def lookup (m : BoundedMap κ ν n) (k : κ) : Option ν := m.entries.lookup k

theorem card_insert_le (h : k ∉ m.entries ∧ m.entries.keys.card < n) :
    (m.entries.insert k v).keys.card ≤ n := by
  have hkeys : (m.entries.insert k v).keys = Insert.insert k m.entries.keys := by
    ext
    simp [Finmap.mem_keys]
  rw [hkeys]
  exact (Finset.card_insert_le _ _).trans h.2

/-- Add a key, and tell whether the map did not have it and was not full. -/
def add (m : BoundedMap κ ν n) (k : κ) (v : ν) : Bool × BoundedMap κ ν n :=
  if h : k ∉ m.entries ∧ m.entries.keys.card < n then
    (true, ⟨m.entries.insert k v, card_insert_le h⟩)
  else (false, m)

theorem card_erase_le (m : BoundedMap κ ν n) (k : κ) : (m.entries.erase k).keys.card ≤ n := by
  rw [Finmap.keys_erase]
  exact (Finset.card_le_card (Finset.erase_subset _ _)).trans m.card_le

/-- Remove a key, and tell whether the map had it. -/
def remove (m : BoundedMap κ ν n) (k : κ) : Bool × BoundedMap κ ν n :=
  if k ∈ m.entries then (true, ⟨m.entries.erase k, m.card_erase_le k⟩) else (false, m)

/-- Perform a request. -/
def perform (m : BoundedMap κ ν n) : Request κ ν → Bool × BoundedMap κ ν n
  | .add k v => m.add k v
  | .remove k => m.remove k

/-- Perform requests one after the other. The result lists which of them succeeded. -/
def run (m : BoundedMap κ ν n) : List (Request κ ν) → List Bool × BoundedMap κ ν n
  | [] => ([], m)
  | r :: rs => ((m.perform r).1 :: ((m.perform r).2.run rs).1, ((m.perform r).2.run rs).2)

/-! ### What the requests do -/

@[simp]
theorem lookup_empty (k : κ) : (empty : BoundedMap κ ν n).lookup k = none := Finmap.lookup_empty k

theorem lookup_eq_none : m.lookup k = none ↔ k ∉ m.entries := Finmap.lookup_eq_none

theorem add_eq_true_iff :
    (m.add k v).1 = true ↔ m.lookup k = none ∧ m.entries.keys.card < n := by
  rw [lookup_eq_none, add]
  split_ifs with h <;> simpa using h

theorem remove_eq_true_iff : (m.remove k).1 = true ↔ m.lookup k ≠ none := by
  rw [Ne, lookup_eq_none, remove]
  split_ifs with h <;> simpa using h

theorem lookup_add (h : (m.add k v).1 = true) (k' : κ) :
    (m.add k v).2.lookup k' = if k = k' then some v else m.lookup k' := by
  rw [add] at h ⊢
  split_ifs at h ⊢ with hadd hk
  · subst hk
    exact Finmap.lookup_insert m.entries
  · exact Finmap.lookup_insert_of_ne m.entries (Ne.symm hk)

theorem lookup_remove (h : (m.remove k).1 = true) (k' : κ) :
    (m.remove k).2.lookup k' = if k = k' then none else m.lookup k' := by
  rw [remove] at h ⊢
  split_ifs at h ⊢ with hrem hk
  · subst hk
    exact Finmap.lookup_erase k m.entries
  · exact Finmap.lookup_erase_ne (Ne.symm hk)

/-- A request that fails changes nothing. -/
theorem perform_of_false {r : Request κ ν} (h : (m.perform r).1 = false) : (m.perform r).2 = m := by
  cases r with
  | add k v =>
    simp only [perform, add] at h ⊢
    split_ifs at h ⊢
    rfl
  | remove k =>
    simp only [perform, remove] at h ⊢
    split_ifs at h ⊢
    rfl

/-- The values after a request are the latest ones. -/
theorem lookup_perform (m : BoundedMap κ ν n) (r : Request κ ν) (k : κ) :
    (m.perform r).2.lookup k = latest k (m.lookup k) [(r, (m.perform r).1)] := by
  cases h : (m.perform r).1 with
  | false =>
    rw [perform_of_false h]
    cases r <;> rfl
  | true =>
    cases r with
    | add k' v => exact lookup_add h k
    | remove k' => exact lookup_remove h k

/-- A request changes the value of its own key only. -/
theorem lookup_perform_of_ne {r : Request κ ν} (h : r.key ≠ k) :
    (m.perform r).2.lookup k = m.lookup k := by
  rw [lookup_perform]
  cases (m.perform r).1 <;> cases r <;> simp_all [latest, Request.key]

theorem latest_cons (found : Option ν) (e : Request κ ν × Bool)
    (history : List (Request κ ν × Bool)) :
    latest k found (e :: history) = latest k (latest k found [e]) history := by
  obtain ⟨r, success⟩ := e
  cases success <;> cases r <;> rfl

/-- The map after a sequence of requests holds the latest values. -/
theorem lookup_run (m : BoundedMap κ ν n) (rs : List (Request κ ν)) (k : κ) :
    (m.run rs).2.lookup k = latest k (m.lookup k) (rs.zip (m.run rs).1) := by
  induction rs generalizing m with
  | nil => rfl
  | cons r rs ih =>
    rw [run, ih, lookup_perform, List.zip_cons_cons]
    exact (latest_cons ..).symm

end BoundedMap

end Foundations
