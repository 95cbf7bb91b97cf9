import Mathlib.Data.Nat.Notation
import Mathlib.Data.Fin.Basic
import Mathlib.Tactic.Common

/-!
# Memory layouts

How values are stored as consecutive bytes: a layout has a size, the bytes of each value, and the
value that bytes stand for. Layouts of structures and arrays are built from those of their parts.

## Main definitions

* `Layout`.
* `Layout.word`, `Layout.byte`, `Layout.bool`, `Layout.padding`: little-endian words of 32 bits,
  bytes, truth values, and bytes without a meaning.
* `Layout.prod`, `Layout.array`, `Layout.map`.
-/

namespace Foundations

/-- Bytes by their offsets. -/
abbrev Bytes : Type := ℕ → BitVec 8

/-- The values of a type as bytes. A value is determined by the first `size` of its bytes. -/
structure Layout (α : Type) where
  size : ℕ
  store : α → Bytes
  fetch : Bytes → α
  fetch_eq (a : α) (b : Bytes) : (∀ i < size, b i = store a i) → fetch b = a

namespace Layout

variable {α β : Type}

/-- A byte. -/
def byte : Layout (BitVec 8) where
  size := 1
  store a _ := a
  fetch b := b 0
  fetch_eq _ _ h := h 0 Nat.one_pos

/-- A truth value. -/
def bool : Layout Bool where
  size := 1
  store a _ := if a then 1 else 0
  fetch b := b 0 != 0
  fetch_eq a b h := by
    rw [h 0 Nat.one_pos]
    cases a <;> rfl

/-- Bytes without a meaning, which are stored as zeros. -/
def padding (n : ℕ) : Layout Unit where
  size := n
  store _ _ := 0
  fetch _ := ()
  fetch_eq _ _ _ := rfl

/-- A word of 32 bits, with the lowest byte first. -/
def word : Layout (BitVec 32) where
  size := 4
  store w i := w.extractLsb' (8 * i) 8
  fetch b := b 3 ++ b 2 ++ b 1 ++ b 0
  fetch_eq w b h := by
    rw [h 0 (by omega), h 1 (by omega), h 2 (by omega), h 3 (by omega)]
    ext i hi
    simp only [BitVec.getElem_append, BitVec.getElem_extractLsb']
    split_ifs
    all_goals
      rw [BitVec.getLsbD_eq_getElem (by omega)]
      congr 1
      omega

/-- A value behind another one. -/
def prod (L : Layout α) (M : Layout β) : Layout (α × β) where
  size := L.size + M.size
  store a i := if i < L.size then L.store a.1 i else M.store a.2 (i - L.size)
  fetch b := (L.fetch b, M.fetch fun i => b (L.size + i))
  fetch_eq a b h := by
    refine Prod.ext (L.fetch_eq a.1 b fun i hi => ?_) (M.fetch_eq a.2 _ fun i hi => ?_)
    · rw [h i (by omega), if_pos hi]
    · rw [h _ (by omega), if_neg (by omega), Nat.add_sub_cancel_left]

/-- Values one behind the other. -/
def array (L : Layout α) (n : ℕ) : Layout (Fin n → α) where
  size := n * L.size
  store a i := if h : i / L.size < n then L.store (a ⟨i / L.size, h⟩) (i % L.size) else 0
  fetch b j := L.fetch fun i => b (j * L.size + i)
  fetch_eq a b h := by
    funext j
    refine L.fetch_eq _ _ fun i hi => ?_
    have hd : (j * L.size + i) / L.size = j := by
      rw [Nat.mul_comm, Nat.mul_add_div (by omega), Nat.div_eq_of_lt hi, Nat.add_zero]
    have hm : (j * L.size + i) % L.size = i := by
      rw [Nat.mul_comm, Nat.mul_add_mod, Nat.mod_eq_of_lt hi]
    have hlt : j * L.size + i < n * L.size := by
      have := Nat.mul_le_mul_right L.size (Nat.succ_le_of_lt j.isLt)
      rw [Nat.succ_mul] at this
      omega
    rw [h _ hlt, dif_pos (hd.symm ▸ j.isLt)]
    congr 1
    exact congrArg a (Fin.ext hd)

/-- The values of a type as those of another one. -/
def map (L : Layout α) (f : β → α) (g : α → β) (h : ∀ b, g (f b) = b) : Layout β where
  size := L.size
  store b := L.store (f b)
  fetch b := g (L.fetch b)
  fetch_eq b bytes hb := by rw [L.fetch_eq (f b) bytes hb, h]

end Layout

end Foundations
