import Mathlib.Data.Set.Lattice
import Mathlib.Logic.Function.Basic

/-!
# Resources with one owner each

A set of resources is in use, and each of them belongs to exactly one owner. `Partition` says so,
and its rules say when the set and the owners may change together: an owner that has nothing
takes resources that are not in use, and an owner gives back all it has.
-/

namespace Foundations

open Function

variable {α ι : Type*}

/-- The resources in `used` are those that the owners have, and no two owners share one. -/
structure Partition (used : Set α) (part : ι → Set α) : Prop where
  disjoint : ∀ {i j a}, a ∈ part i → a ∈ part j → i = j
  mem_iff : ∀ a, a ∈ used ↔ ∃ i, a ∈ part i

namespace Partition

variable {used : Set α} {part : ι → Set α}

theorem empty : Partition (∅ : Set α) fun _ : ι => ∅ := by
  constructor <;> simp

/-- A resource is in use if exactly one owner has it. -/
theorem mem_iff_existsUnique (h : Partition used part) (a : α) :
    a ∈ used ↔ ∃! i, a ∈ part i := by
  rw [h.mem_iff]
  exact ⟨fun ⟨i, hi⟩ => ⟨i, hi, fun j hj => h.disjoint hj hi⟩, fun ⟨i, hi, _⟩ => ⟨i, hi⟩⟩

theorem subset (h : Partition used part) (i : ι) : part i ⊆ used :=
  fun a ha => (h.mem_iff a).2 ⟨i, ha⟩

variable [DecidableEq ι]

/-- An owner that has nothing takes resources that are not in use. -/
theorem take (h : Partition used part) {i : ι} (hi : part i = ∅) {s : Set α}
    (hs : ∀ a ∈ s, a ∉ used) : Partition (used ∪ s) (update part i s) := by
  have hmem : ∀ j a, a ∈ update part i s j ↔ a ∈ part j ∨ j = i ∧ a ∈ s := by
    intro j a
    by_cases hj : j = i
    · subst hj
      simp [hi]
    · simp [hj]
  constructor
  · intro j k a hj hk
    rcases (hmem j a).1 hj with hj' | ⟨rfl, hj'⟩ <;> rcases (hmem k a).1 hk with hk' | ⟨rfl, hk'⟩
    · exact h.disjoint hj' hk'
    · exact absurd (h.subset j hj') (hs a hk')
    · exact absurd (h.subset k hk') (hs a hj')
    · rfl
  · intro a
    simp only [hmem, Set.mem_union, h.mem_iff, exists_or, exists_eq_left]

/-- An owner gives back all it has. -/
theorem release (h : Partition used part) (i : ι) :
    Partition (used \ part i) (update part i ∅) := by
  have hmem : ∀ j a, a ∈ update part i ∅ j ↔ a ∈ part j ∧ j ≠ i := by
    intro j a
    by_cases hj : j = i
    · subst hj
      simp
    · simp [hj]
  constructor
  · exact fun hj hk => h.disjoint ((hmem _ _).1 hj).1 ((hmem _ _).1 hk).1
  · intro a
    simp only [hmem, Set.mem_sdiff, h.mem_iff]
    constructor
    · rintro ⟨⟨j, hj⟩, hi⟩
      exact ⟨j, hj, fun he => hi (he ▸ hj)⟩
    · rintro ⟨j, hj, hne⟩
      exact ⟨⟨j, hj⟩, fun hi => hne (h.disjoint hj hi)⟩

end Partition

end Foundations
