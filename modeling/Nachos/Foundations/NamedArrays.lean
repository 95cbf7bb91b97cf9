import Mathlib.Algebra.BigOperators.Group.Finset.Basic
import Mathlib.Algebra.BigOperators.Fin
import Nachos.Foundations.BoundedMap
import Nachos.Foundations.CursorArray

/-!
# Named arrays

A collection of arrays that are found by their names. An array is created with a size that it keeps,
and takes up a number of blocks that depends on the size; the names and the blocks are limited. An
array is read and written through handles, each of which has a cursor of its own. A handle to an
array that has been removed is dead: there is nothing it could be used for.

## Main definitions

* `BoundedMap.replace`, `BoundedMap.weight`.
* `NamedArrays`, `NamedArrays.Limits`, `NamedArrays.perform`, `NamedArrays.run`.
* `NamedArrays.Permits`: the requests that have a result.

## Main results

* `NamedArrays.lookup_perform`: a request changes an array only if it touches it.
* `NamedArrays.lookup_run`: an array that no request touches stays as it is.
-/

namespace Foundations

namespace BoundedMap

variable {κ ν : Type} {n : ℕ} [DecidableEq κ] {m m' : BoundedMap κ ν n} {k : κ} {v : ν} {f : ν → ℕ}

theorem card_replace_le (h : k ∈ m.entries) : (m.entries.insert k v).keys.card ≤ n := by
  have hkeys : (m.entries.insert k v).keys = m.entries.keys := by
    ext k'
    simp only [Finmap.mem_keys, Finmap.mem_insert, or_iff_right_iff_imp]
    rintro rfl
    exact h
  rw [hkeys]
  exact m.card_le

/-- Give a key that the map has another value. -/
def replace (m : BoundedMap κ ν n) (k : κ) (v : ν) : BoundedMap κ ν n :=
  if h : k ∈ m.entries then ⟨m.entries.insert k v, card_replace_le h⟩ else m

theorem lookup_replace (h : m.lookup k ≠ none) (k' : κ) :
    (m.replace k v).lookup k' = if k = k' then some v else m.lookup k' := by
  rw [Ne, lookup_eq_none, not_not] at h
  rw [replace, dif_pos h]
  split_ifs with hk
  · subst hk
    exact Finmap.lookup_insert m.entries
  · exact Finmap.lookup_insert_of_ne m.entries (Ne.symm hk)

theorem lookup_remove_snd (m : BoundedMap κ ν n) (k k' : κ) :
    (m.remove k).2.lookup k' = if k = k' then none else m.lookup k' := by
  by_cases h : m.lookup k = none
  · have hfst : (m.remove k).1 = false := by
      rw [← Bool.not_eq_true, remove_eq_true_iff, not_not]
      exact h
    have hsnd : (m.remove k).2 = m := perform_of_false (r := .remove k) hfst
    rw [hsnd]
    split_ifs with hk
    · rw [← hk, h]
    · rfl
  · exact lookup_remove (remove_eq_true_iff.2 h) k'

/-- The number of keys. -/
def size (m : BoundedMap κ ν n) : ℕ := m.entries.keys.card

/-- The weights of all values. -/
def weight (m : BoundedMap κ ν n) (f : ν → ℕ) : ℕ :=
  ∑ k ∈ m.entries.keys, (m.lookup k).elim 0 f

theorem mem_keys_iff : k ∈ m.entries.keys ↔ m.lookup k ≠ none := by
  rw [Finmap.mem_keys, Ne, lookup_eq_none, not_not]

/-- The weights may be added up over more names. -/
theorem weight_eq_sum {s : Finset κ} (hs : ∀ k, m.lookup k ≠ none → k ∈ s) :
    m.weight f = ∑ k ∈ s, (m.lookup k).elim 0 f := by
  refine Finset.sum_subset (fun k hk => hs k (mem_keys_iff.1 hk)) fun k _ hk => ?_
  rw [mem_keys_iff, not_not] at hk
  rw [hk, Option.elim_none]

/-- The number of keys is the weight of a map whose values all have the weight 1. -/
theorem size_eq_weight (m : BoundedMap κ ν n) : m.size = m.weight fun _ => 1 := by
  rw [size, weight, Finset.card_eq_sum_ones]
  refine Finset.sum_congr rfl fun k hk => ?_
  obtain ⟨v, hv⟩ := Option.ne_none_iff_exists'.1 (mem_keys_iff.1 hk)
  rw [hv, Option.elim_some]

end BoundedMap

/-- Whether a request may change the items of an array. -/
def CursorArray.Request.Writes {α : Type*} : CursorArray.Request α → Prop
  | .write .. | .writeAt .. => True
  | .seek _ | .read .. | .readAt .. => False

theorem CursorArray.items_perform {α : Type*} {a : CursorArray α} {r : CursorArray.Request α}
    (h : ¬r.Writes) : (a.perform r).1.items = a.items := by
  cases r with
  | write source n => exact absurd trivial h
  | writeAt source n p => exact absurd trivial h
  | seek p => rfl
  | read into n => rfl
  | readAt into n p => rfl

/-- Arrays with names, and the handles that have been given out: a name and a cursor, or nothing for
a handle that is dead. -/
structure NamedArrays (κ α : Type) (n : ℕ) where
  arrays : BoundedMap κ (List α) n
  opened : List (Option (κ × ℕ))

namespace NamedArrays

/-- The blocks of an array of a given size, the number of all blocks, and the limit that a request
to an array may not reach. -/
structure Limits where
  blocks : ℕ → ℕ
  total : ℕ
  reach : ℤ

/-- A request. -/
inductive Request (κ α : Type)
  | create (k : κ) (size : ℕ)
  | remove (k : κ)
  | openArray (k : κ)
  | access (handle : ℕ) (r : CursorArray.Request α)
  | restart

/-- The reply to a request. -/
inductive Reply (α : Type)
  | created (success : Bool)
  | removed (success : Bool)
  | opened (handle : Option ℕ)
  | accessed (reply : CursorArray.Reply α)
  | restarted

variable {κ α : Type} {n : ℕ} [DecidableEq κ]

/-- The number of blocks that are taken. -/
def used (s : NamedArrays κ α n) (limits : Limits) : ℕ :=
  s.arrays.weight fun items => limits.blocks items.length

/-- There is no array of the name yet, and the limits allow one of the size. -/
def HasRoom (limits : Limits) (s : NamedArrays κ α n) (k : κ) (size : ℕ) : Prop :=
  s.arrays.lookup k = none ∧ s.arrays.size < n ∧
    s.used limits + limits.blocks size ≤ limits.total

instance (limits : Limits) (s : NamedArrays κ α n) (k : κ) (size : ℕ) :
    Decidable (s.HasRoom limits k size) :=
  inferInstanceAs (Decidable (_ ∧ _ ∧ _))

/-- A handle after an array has been removed. -/
def forget (k : κ) : Option (κ × ℕ) → Option (κ × ℕ)
  | some (k', p) => if k' = k then none else some (k', p)
  | none => none

/-- What a request does. A new array contains `fresh`. There is no result for a request that is not
permitted. -/
def perform (limits : Limits) (s : NamedArrays κ α n) (fresh : ℕ → α) :
    Request κ α → Option (NamedArrays κ α n × Reply α)
  | .create k size =>
    if s.HasRoom limits k size then
      some ({ s with arrays := (s.arrays.add k ((List.range size).map fresh)).2 }, .created true)
    else some (s, .created false)
  | .remove k =>
    if s.arrays.lookup k = none then some (s, .removed false)
    else some ({ arrays := (s.arrays.remove k).2, opened := s.opened.map (forget k) },
      .removed true)
  | .openArray k =>
    if s.arrays.lookup k = none then some (s, .opened none)
    else some ({ s with opened := s.opened ++ [some (k, 0)] }, .opened s.opened.length)
  | .access handle r =>
    match s.opened[handle]? with
    | some (some (k, p)) =>
      match s.arrays.lookup k with
      | some items =>
        if (CursorArray.mk items p).reach r < limits.reach then
          let result := (CursorArray.mk items p).perform r
          some ({ arrays := s.arrays.replace k result.1.items,
                  opened := s.opened.set handle (some (k, result.1.cursor)) },
            .accessed result.2)
        else none
      | none => none
    | _ => none
  | .restart => some ({ s with opened := [] }, .restarted)

/-- A request may not use a handle that does not exist or is dead, nor reach too far. -/
def Permits (limits : Limits) (s : NamedArrays κ α n) : Request κ α → Prop
  | .access handle r => ∃ k p items, s.opened[handle]? = some (some (k, p)) ∧
      s.arrays.lookup k = some items ∧ (CursorArray.mk items p).reach r < limits.reach
  | .create .. | .remove _ | .openArray _ | .restart => True

/-- Requests one after the other, each with what a new array contains, and the replies. -/
def run (limits : Limits) (s : NamedArrays κ α n) :
    List ((ℕ → α) × Request κ α) → Option (NamedArrays κ α n × List (Reply α))
  | [] => some (s, [])
  | (fresh, r) :: rs => do
    let (s, reply) ← s.perform limits fresh r
    let (s, replies) ← s.run limits rs
    return (s, reply :: replies)

/-- No arrays. -/
def empty : NamedArrays κ α n := ⟨.empty, []⟩

/-- Whether a request may change the array of a name. -/
def Touches (s : NamedArrays κ α n) (k : κ) : Request κ α → Prop
  | .create k' _ => k' = k
  | .remove k' => k' = k
  | .access handle r => (∃ p, s.opened[handle]? = some (some (k, p))) ∧ r.Writes
  | .openArray _ | .restart => False

/-- No request of a run may change the array of a name. -/
def RunAvoids (limits : Limits) (k : κ) :
    NamedArrays κ α n → List ((ℕ → α) × Request κ α) → Prop
  | _, [] => True
  | s, (fresh, r) :: rs => ¬s.Touches k r ∧
    ∀ s' reply, s.perform limits fresh r = some (s', reply) → RunAvoids limits k s' rs

variable {limits : Limits} {s s' : NamedArrays κ α n} {k : κ} {fresh : ℕ → α} {reply : Reply α}

theorem run_cons {r : Request κ α} {rs : List ((ℕ → α) × Request κ α)} {s₁ : NamedArrays κ α n}
    {replies : List (Reply α)} (h : s.perform limits fresh r = some (s₁, reply))
    (hrs : s₁.run limits rs = some (s', replies)) :
    s.run limits ((fresh, r) :: rs) = some (s', reply :: replies) := by
  simp only [run, h, Option.bind_eq_bind, Option.bind_some, hrs]
  rfl

theorem perform_eq_none_iff {r : Request κ α} :
    s.perform limits fresh r = none ↔ ¬s.Permits limits r := by
  cases r with
  | create k size =>
    simp only [perform, Permits]
    split_ifs <;> simp
  | remove k =>
    simp only [perform, Permits]
    split_ifs <;> simp
  | openArray k =>
    simp only [perform, Permits]
    split_ifs <;> simp
  | restart => simp [perform, Permits]
  | access handle r =>
    constructor
    · rintro h ⟨k, p, items, hopened, hitems, hreach⟩
      simp [perform, hopened, hitems, hreach] at h
    · intro h
      by_contra hp
      refine h ?_
      simp only [perform] at hp
      split at hp
      · rename_i k p hopened
        split at hp
        · rename_i items hitems
          split_ifs at hp with hreach
          · exact ⟨k, p, items, hopened, hitems, hreach⟩
          · exact absurd rfl hp
        · exact absurd rfl hp
      · exact absurd rfl hp

/-- A request changes no array that it does not touch. -/
theorem lookup_perform {r : Request κ α} (h : s.perform limits fresh r = some (s', reply))
    (hk : ¬s.Touches k r) : s'.arrays.lookup k = s.arrays.lookup k := by
  cases r with
  | create k' size =>
    simp only [perform] at h
    split_ifs at h with hnew
    · obtain ⟨rfl, -⟩ := Prod.mk.inj (Option.some.inj h)
      rw [BoundedMap.lookup_add (BoundedMap.add_eq_true_iff.2 ⟨hnew.1, hnew.2.1⟩)]
      exact if_neg hk
    · obtain ⟨rfl, -⟩ := Prod.mk.inj (Option.some.inj h)
      rfl
  | remove k' =>
    simp only [perform] at h
    split_ifs at h with hnone
    · obtain ⟨rfl, -⟩ := Prod.mk.inj (Option.some.inj h)
      rfl
    · obtain ⟨rfl, -⟩ := Prod.mk.inj (Option.some.inj h)
      rw [BoundedMap.lookup_remove (BoundedMap.remove_eq_true_iff.2 hnone)]
      exact if_neg hk
  | openArray k' =>
    simp only [perform] at h
    split_ifs at h <;>
    · obtain ⟨rfl, -⟩ := Prod.mk.inj (Option.some.inj h)
      rfl
  | access handle r =>
    simp only [perform] at h
    split at h
    · rename_i k' p hopened
      split at h
      · rename_i items hitems
        split_ifs at h
        obtain ⟨rfl, -⟩ := Prod.mk.inj (Option.some.inj h)
        rw [BoundedMap.lookup_replace (by rw [hitems]; exact Option.some_ne_none _)]
        split_ifs with hkk
        · subst hkk
          have hreads : ¬r.Writes := fun hw => hk ⟨⟨p, hopened⟩, hw⟩
          rw [hitems, CursorArray.items_perform hreads]
        · rfl
      · cases h
    · cases h
  | restart =>
    obtain ⟨rfl, -⟩ := Prod.mk.inj (Option.some.inj h)
    rfl

/-- A run avoids a name if none of its requests touches the array, whatever has happened before. -/
theorem runAvoids_of_forall {rs : List ((ℕ → α) × Request κ α)}
    (h : ∀ r ∈ rs, ∀ s : NamedArrays κ α n, ¬s.Touches k r.2) : RunAvoids limits k s rs := by
  induction rs generalizing s with
  | nil => trivial
  | cons r rs ih =>
    obtain ⟨hr, hrs⟩ := List.forall_mem_cons.1 h
    exact ⟨hr s, fun _ _ _ => ih hrs⟩

/-- An array that no request of a run touches stays as it is. -/
theorem lookup_run {rs : List ((ℕ → α) × Request κ α)} {replies : List (Reply α)}
    (h : s.run limits rs = some (s', replies)) (hk : RunAvoids limits k s rs) :
    s'.arrays.lookup k = s.arrays.lookup k := by
  induction rs generalizing s replies with
  | nil =>
    obtain ⟨rfl, -⟩ := Prod.mk.inj (Option.some.inj h)
    rfl
  | cons r rs ih =>
    obtain ⟨fresh, r⟩ := r
    rw [run, Option.bind_eq_bind, Option.bind_eq_some_iff] at h
    obtain ⟨⟨s₁, reply⟩, hperform, h⟩ := h
    rw [Option.bind_eq_bind, Option.bind_eq_some_iff] at h
    obtain ⟨⟨s₂, replies'⟩, hrun, h⟩ := h
    obtain ⟨rfl, -⟩ := Prod.mk.inj (Option.some.inj h)
    exact (ih hrun (hk.2 s₁ reply hperform)).trans (lookup_perform hperform hk.1)

end NamedArrays

end Foundations
