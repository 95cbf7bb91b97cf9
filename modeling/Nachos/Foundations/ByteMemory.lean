import Mathlib.Algebra.Group.Nat.Defs
import Mathlib.Data.Nat.Notation
import Mathlib.Data.Set.Function
import Mathlib.Data.Set.Lattice
import Mathlib.Order.CompletePartialOrder
import Mathlib.Tactic.Common

/-!
# Words in a memory of bytes

A memory holds a byte at each address of 32 bits; a word is four bytes, the lowest at the lowest
address. Addresses wrap around, so a range of addresses is given by its first address and its
length, and no range has to be checked for an overflow.

## Main definitions

* `Memory.bytes`, `Memory.between`: a range of addresses.
* `Memory.load`, `Memory.store`: a word is read and written.

## Main results

* `Memory.load_store`: a word that was stored is loaded again.
* `Memory.load_congr`, `Memory.store_eqOn`: what a load depends on and what a store leaves alone.
* `Memory.disjoint_bytes`, `Memory.disjoint_bytes_add`: ranges that do not meet.
-/

namespace Foundations

/-- A byte at each address. -/
abbrev Memory : Type := BitVec 32 → BitVec 8

namespace Memory

/-- The `n` addresses from `a` on. -/
def bytes (a : BitVec 32) (n : ℕ) : Set (BitVec 32) := {b | (b - a).toNat < n}

/-- The addresses from `a` on and before `b`. -/
def between (a b : BitVec 32) : Set (BitVec 32) := bytes a (b - a).toNat

theorem add_sub_self (a i : BitVec 32) : a + i - a = i := by
  rw [BitVec.add_comm, BitVec.add_sub_cancel]

theorem mem_bytes {a b : BitVec 32} {n : ℕ} : b ∈ bytes a n ↔ (b - a).toNat < n := Iff.rfl

/-- The word at the address `a`. -/
def load (m : Memory) (a : BitVec 32) : BitVec 32 := m (a + 3) ++ m (a + 2) ++ m (a + 1) ++ m a

/-- The word `w` is written at the address `a`. -/
def store (a w : BitVec 32) (m : Memory) : Memory := fun b =>
  if (b - a).toNat < 4 then w.extractLsb' (8 * (b - a).toNat) 8 else m b

theorem store_of_mem {a b : BitVec 32} (w : BitVec 32) (m : Memory) (h : b ∈ bytes a 4) :
    store a w m b = w.extractLsb' (8 * (b - a).toNat) 8 :=
  if_pos h

theorem store_of_notMem {a b : BitVec 32} (w : BitVec 32) (m : Memory) (h : b ∉ bytes a 4) :
    store a w m b = m b :=
  if_neg h

/-- A store leaves the bytes at other addresses alone. -/
theorem store_eqOn (a w : BitVec 32) (m : Memory) : Set.EqOn (store a w m) m (bytes a 4)ᶜ :=
  fun _ hb => store_of_notMem w m hb

/-- The four bytes of a word. -/
theorem append_extractLsb' (w : BitVec 32) :
    w.extractLsb' 24 8 ++ w.extractLsb' 16 8 ++ w.extractLsb' 8 8 ++ w.extractLsb' 0 8 = w := by
  apply BitVec.eq_of_getLsbD_eq
  intro i hi
  simp only [BitVec.getLsbD_append, BitVec.getLsbD_extractLsb']
  split_ifs with h₀ h₁ h₂
  · simp [h₀]
  · simp [h₁, show 8 + (i - 8) = i by omega]
  · simp [h₂, show 16 + (i - 8 - 8) = i by omega]
  · simp [show i - 8 - 8 - 8 < 8 by omega, show 24 + (i - 8 - 8 - 8) = i by omega]

/-- A word that was stored is loaded again. -/
@[simp]
theorem load_store (a w : BitVec 32) (m : Memory) : (store a w m).load a = w := by
  have h (i : BitVec 32) (hi : i.toNat < 4) :
      store a w m (a + i) = w.extractLsb' (8 * i.toNat) 8 := by
    rw [store_of_mem w m (by rwa [mem_bytes, add_sub_self]),
      add_sub_self]
  have h₀ : store a w m a = w.extractLsb' 0 8 := by simpa using h 0 (by decide)
  rw [load, h 3 (by decide), h 2 (by decide), h 1 (by decide), h₀]
  exact append_extractLsb' w

/-! ### Ranges of addresses -/

/-- A range inside a range. -/
theorem bytes_add_subset (a : BitVec 32) {i : BitVec 32} {n k : ℕ} (h : i.toNat + n ≤ k) :
    bytes (a + i) n ⊆ bytes a k := by
  intro b hb
  rw [mem_bytes] at *
  bv_omega

theorem bytes_subset (a : BitVec 32) {n k : ℕ} (h : n ≤ k) : bytes a n ⊆ bytes a k :=
  fun _ hb => lt_of_lt_of_le (mem_bytes.mp hb) h

/-- The rest of a range. -/
theorem between_subset {a b c : BitVec 32} (h : (b - a).toNat ≤ (c - a).toNat) :
    between b c ⊆ between a c := by
  intro d hd
  rw [between, mem_bytes] at *
  bv_omega

theorem bytes_subset_between {a b : BitVec 32} {n : ℕ} (h : n ≤ (b - a).toNat) :
    bytes a n ⊆ between a b :=
  bytes_subset a h

/-- Two ranges, neither of which reaches the other. -/
theorem disjoint_bytes {a b : BitVec 32} {n k : ℕ} (h : n ≤ (b - a).toNat)
    (h' : k ≤ (a - b).toNat) : Disjoint (bytes a n) (bytes b k) := by
  rw [Set.disjoint_left]
  intro c hc hc'
  rw [mem_bytes] at *
  bv_omega

/-- Words at different offsets from one address. -/
theorem disjoint_words (a : BitVec 32) {i j : BitVec 32}
    (h : 4 ≤ (i - j).toNat ∧ 4 ≤ (j - i).toNat) :
    Disjoint (bytes (a + i) 4) (bytes (a + j) 4) := by
  refine disjoint_bytes ?_ ?_ <;> bv_omega

/-- Ranges at different offsets from one address. -/
theorem disjoint_bytes_add (a : BitVec 32) {i j : BitVec 32} {n k : ℕ}
    (h : i.toNat + n ≤ j.toNat) (hk : j.toNat + k ≤ 2 ^ 32) :
    Disjoint (bytes (a + i) n) (bytes (a + j) k) := by
  rw [Set.disjoint_left]
  intro b hb hb'
  rw [mem_bytes] at *
  bv_omega

/-- What a load depends on. -/
theorem load_congr {m m' : Memory} {a : BitVec 32} (h : Set.EqOn m m' (bytes a 4)) :
    m.load a = m'.load a := by
  have h' (i : BitVec 32) (hi : i.toNat < 4) : m (a + i) = m' (a + i) :=
    h (by rwa [mem_bytes, add_sub_self])
  have h₀ : m a = m' a := by simpa using h' 0 (by decide)
  rw [load, load, h' 3 (by decide), h' 2 (by decide), h' 1 (by decide), h₀]

/-- A store elsewhere does not matter to a load. -/
theorem load_store_of_disjoint {a b : BitVec 32} (w : BitVec 32) (m : Memory)
    (h : Disjoint (bytes a 4) (bytes b 4)) : (store b w m).load a = m.load a :=
  load_congr ((store_eqOn b w m).mono h.subset_compl_right)

end Memory

end Foundations
