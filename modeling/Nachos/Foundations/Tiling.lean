import Mathlib.Algebra.BigOperators.Group.List.Basic
import Mathlib.Algebra.GroupWithZero.Nat
import Mathlib.Data.Nat.Notation
import Mathlib.Tactic.Common

/-!
# Intervals of numbers that are contiguous

Items have a beginning and a length. They tile the numbers from `x` on if the first one begins at
`x` and every other one begins where the one before it ends.

## Main definitions

* `Tiles`.

## Main results

* `Tiles.mem_iff`: the items make up one interval.
* `exists_perm_tiles_iff`: items that make up an interval which is as long as they are together
  tile it in some order.
-/

namespace Foundations

variable {α : Type*} {lo len : α → ℕ} {x : ℕ} {l : List α}

/-- The items are contiguous from `x` on. -/
def Tiles (lo len : α → ℕ) : ℕ → List α → Prop
  | _, [] => True
  | x, i :: l => lo i = x ∧ Tiles lo len (x + len i) l

/-- The item contains the number. -/
def Contains (lo len : α → ℕ) (i : α) (a : ℕ) : Prop := lo i ≤ a ∧ a < lo i + len i

theorem tiles_iff : Tiles lo len x l ↔
    (∀ i ∈ l.head?, lo i = x) ∧ l.IsChain fun i j => lo j = lo i + len i := by
  induction l generalizing x with
  | nil => simp [Tiles]
  | cons i l ih =>
    rw [Tiles, ih]
    cases l with
    | nil => simp
    | cons j l =>
      rw [List.isChain_cons_cons]
      simp only [List.head?_cons, Option.mem_some_iff, forall_eq']
      constructor
      · rintro ⟨rfl, hj, hl⟩
        exact ⟨rfl, hj, hl⟩
      · rintro ⟨rfl, hj, hl⟩
        exact ⟨rfl, hj, hl⟩

/-- Together the items are an interval. -/
theorem Tiles.mem_iff (h : Tiles lo len x l) (a : ℕ) :
    (∃ i ∈ l, Contains lo len i a) ↔ x ≤ a ∧ a < x + (l.map len).sum := by
  induction l generalizing x with
  | nil => simp
  | cons i l ih =>
    obtain ⟨rfl, hl⟩ := h
    rw [List.exists_mem_cons_iff, ih hl, List.map_cons, List.sum_cons, Contains]
    omega

/-- The item that begins where the items begin is the first one. -/
theorem Tiles.head?_eq {i : α} (h : Tiles lo len (lo i) l) (hpos : ∀ j ∈ l, 0 < len j)
    (hi : i ∈ l) : l.head? = some i := by
  obtain ⟨j, rest, rfl⟩ := List.exists_cons_of_ne_nil (List.ne_nil_of_mem hi)
  rcases List.mem_cons.1 hi with rfl | hrest
  · rfl
  · have hbegin := (h.2.mem_iff (lo i)).1 ⟨i, hrest, Nat.le_refl _, by have := hpos i hi; omega⟩
    have hj := hpos j List.mem_cons_self
    omega

theorem sum_map_middle (len : α → ℕ) (pre : List α) (i : α) (post : List α) :
    ((pre ++ i :: post).map len).sum = len i + ((pre ++ post).map len).sum := by
  rw [(List.perm_middle.map len).sum_eq, List.map_cons, List.sum_cons]

/-- Items that cover an interval which is as long as they are together tile it in some order: the
one that covers the first number cannot begin before it, since the others would have to cover more
than they can. -/
theorem exists_perm_tiles (hpos : ∀ i ∈ l, 0 < len i)
    (hcover : ∀ a, x ≤ a → a < x + (l.map len).sum → ∃ i ∈ l, Contains lo len i a) :
    ∃ l', l'.Perm l ∧ Tiles lo len x l' := by
  induction hn : l.length generalizing l x with
  | zero => exact ⟨[], by rw [List.eq_nil_of_length_eq_zero hn], trivial⟩
  | succ n ih =>
    obtain ⟨i, hi, hle, hlt⟩ : ∃ i ∈ l, Contains lo len i x := by
      obtain ⟨j, rest, rfl⟩ := List.exists_cons_of_length_eq_add_one hn
      have hj := hpos j List.mem_cons_self
      rw [List.map_cons, List.sum_cons] at hcover
      exact hcover x (Nat.le_refl x) (by omega)
    obtain ⟨pre, post, rfl⟩ := List.append_of_mem hi
    rw [sum_map_middle] at hcover
    have hrest (a : ℕ) (ha : lo i + len i ≤ a)
        (ha' : a < x + (len i + ((pre ++ post).map len).sum)) :
        ∃ j ∈ pre ++ post, Contains lo len j a := by
      obtain ⟨j, hj, hja⟩ := hcover a (by omega) ha'
      rcases List.mem_cons.1 (List.perm_middle.mem_iff.1 hj) with rfl | hj
      · exact absurd hja.2 (by omega)
      · exact ⟨j, hj, hja⟩
    obtain ⟨l', hperm, htiles⟩ : ∃ l', l'.Perm (pre ++ post) ∧ Tiles lo len (lo i + len i) l' := by
      refine ih (fun j hj => ?_) (fun a ha ha' => hrest a ha (by omega)) ?_
      · exact hpos j (List.perm_middle.mem_iff.2 (List.mem_cons_of_mem _ hj))
      · rw [List.perm_middle.length_eq, List.length_cons] at hn
        omega
    have hlo : lo i = x := by
      by_contra hne
      -- the number behind those that the others tile
      obtain ⟨j, hj, hja⟩ :=
        hrest (lo i + len i + ((pre ++ post).map len).sum) (by omega) (by omega)
      have hlast := (htiles.mem_iff _).1 ⟨j, hperm.mem_iff.2 hj, hja⟩
      rw [(hperm.map len).sum_eq] at hlast
      omega
    exact ⟨i :: l', (hperm.cons i).trans List.perm_middle.symm, hlo, hlo ▸ htiles⟩

theorem exists_perm_tiles_iff (hpos : ∀ i ∈ l, 0 < len i) :
    (∃ l', l'.Perm l ∧ Tiles lo len x l') ↔
      ∀ a, (x ≤ a ∧ a < x + (l.map len).sum) ↔ ∃ i ∈ l, Contains lo len i a := by
  constructor
  · rintro ⟨l', hperm, htiles⟩ a
    have hmem := htiles.mem_iff a
    rw [(hperm.map len).sum_eq] at hmem
    rw [← hmem]
    simp only [hperm.mem_iff]
  · exact fun h => exists_perm_tiles hpos fun a ha ha' => (h a).1 ⟨ha, ha'⟩

end Foundations
