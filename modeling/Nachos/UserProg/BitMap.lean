import Mathlib.Data.Nat.Notation
import Mathlib.Tactic.Common
import Mathlib.Data.Finset.Card
import Mathlib.Data.Finset.Range
import Nachos.Foundations.Except
import Nachos.Foundations.Loop
import Nachos.Machine.Fault

/-!
# Bitmaps

`BitMap` of `userprog/bitmap.cc`: an array of 32-bit words of which one bit stands for one item.
`Mark`, `Clear` and `Test` assert that the bit number is in range; that the word they access
exists is a consequence, which the type of the array records. The constructor clears the bits of
whatever the allocated words contain.

## Main definitions

* `BitMap`, `BitMap.mark`, `BitMap.clear`, `BitMap.test`, `BitMap.new`.
* `BitMap.find`, `BitMap.numClear`.
* `BitMap.isSet`: the items in a bitmap. `BitMap.freeItems`: the others.

## Main results

* `BitMap.test_of_lt`: `Test` returns whether an item is in the bitmap.
* `BitMap.isSet_setBit`, `BitMap.isSet_clearBit`: `Mark` and `Clear` change one item.
* `BitMap.new_spec`: a new bitmap is empty.
* `BitMap.find_spec`: `Find` marks an item that was not in the bitmap, if there is one.
* `BitMap.numClear_eq`: `NumClear` counts the items that are not in the bitmap.
-/

namespace Nachos.UserProg

open Foundations

/-- `divRoundUp`. -/
def divRoundUp (n s : ℕ) : ℕ := n / s + if n % s > 0 then 1 else 0

theorem le_divRoundUp_mul (n : ℕ) {s : ℕ} (hs : 0 < s) : n ≤ divRoundUp n s * s := by
  have h := Nat.div_add_mod n s
  have hlt := Nat.mod_lt n hs
  have hc : n / s * s = s * (n / s) := Nat.mul_comm _ _
  unfold divRoundUp
  split_ifs with hr
  · rw [Nat.add_mul]
    omega
  · rw [Nat.add_zero]
    omega

theorem div_lt_divRoundUp {i n s : ℕ} (hi : i < n) (hs : 0 < s) : i / s < divRoundUp n s :=
  (Nat.div_lt_iff_lt_mul hs).2 (Nat.lt_of_lt_of_le hi (le_divRoundUp_mul n hs))

/-- A bitmap for `numBits` items. -/
structure BitMap (numBits : ℕ) where
  map : Vector (BitVec 32) (divRoundUp numBits 32)
  deriving DecidableEq

namespace BitMap

variable {n : ℕ}

/-- The word that holds the bit of an item. -/
def word (b : BitMap n) (which : ℕ) (h : which < n) : BitVec 32 :=
  have := div_lt_divRoundUp h (show 0 < 32 by decide)
  b.map[which / 32]

/-- Replace the word that holds the bit of an item. -/
def setWord (b : BitMap n) (which : ℕ) (h : which < n) (w : BitVec 32) : BitMap n :=
  ⟨b.map.set (which / 32) w (div_lt_divRoundUp h (by decide))⟩

/-- The mask `1 << (which % BitsInWord)`. -/
def mask (which : ℕ) : BitVec 32 := 1#32 <<< (which % 32)

def setBit (b : BitMap n) (which : ℕ) (h : which < n) : BitMap n :=
  b.setWord which h (b.word which h ||| mask which)

def clearBit (b : BitMap n) (which : ℕ) (h : which < n) : BitMap n :=
  b.setWord which h (b.word which h &&& ~~~mask which)

/-- `BitMap::Mark`. -/
def mark (b : BitMap n) (which : ℕ) : Except Fault (BitMap n) :=
  if h : which < n then .ok (b.setBit which h) else .error .assertion

/-- `BitMap::Clear`. -/
def clear (b : BitMap n) (which : ℕ) : Except Fault (BitMap n) :=
  if h : which < n then .ok (b.clearBit which h) else .error .assertion

/-- `BitMap::Test`. -/
def test (b : BitMap n) (which : ℕ) : Except Fault Bool :=
  if h : which < n then .ok (b.word which h &&& mask which != 0) else .error .assertion

/-- The constructor, for an array that contains the words `map` when it is allocated. -/
def new (map : Vector (BitVec 32) (divRoundUp n 32)) : Except Fault (BitMap n) :=
  forLoop clear n ⟨map⟩

/-- The loop of `Find` from item `i` on, which has at most `k` iterations left. -/
def findFrom (b : BitMap n) : ℕ → ℕ → Except Fault (Option ℕ × BitMap n)
  | 0, _ => .ok (none, b)
  | k + 1, i => do
    if !(← b.test i) then
      let b ← b.mark i
      return (some i, b)
    else findFrom b k (i + 1)

/-- `BitMap::Find`. The result is `none` for -1. -/
def find (b : BitMap n) : Except Fault (Option ℕ × BitMap n) := b.findFrom n 0

/-- `BitMap::NumClear`. -/
def numClear (b : BitMap n) : Except Fault ℕ :=
  forLoop (fun count i => do return if !(← b.test i) then count + 1 else count) n 0

/-! ### A bitmap is a set of items -/

/-- The item is in the bitmap. -/
def isSet (b : BitMap n) (i : ℕ) : Bool :=
  if h : i < n then (b.word i h).getLsbD (i % 32) else false

theorem getLsbD_mask (i j : ℕ) : (mask i).getLsbD (j % 32) = decide (i % 32 = j % 32) := by
  have hj : j % 32 < 32 := Nat.mod_lt _ (by decide)
  rw [mask, BitVec.getLsbD_shiftLeft, BitVec.getLsbD_one]
  by_cases h : i % 32 = j % 32 <;> simp [h, hj]
  omega

theorem isSet_of_lt (b : BitMap n) {i : ℕ} (h : i < n) :
    b.isSet i = (b.word i h).getLsbD (i % 32) :=
  dif_pos h

theorem lt_of_isSet {b : BitMap n} {i : ℕ} (h : b.isSet i = true) : i < n := by
  by_contra hi
  simp [isSet, hi] at h

/-- The word of another item after a word has been replaced. -/
theorem word_setWord (b : BitMap n) {i j : ℕ} (hi : i < n) (hj : j < n) (w : BitVec 32) :
    (b.setWord i hi w).word j hj = if i / 32 = j / 32 then w else b.word j hj := by
  simp [word, setWord, Vector.getElem_set]

/-- Items that share the bit number of their words are the same if they share the word. -/
theorem mod_eq_iff {i j : ℕ} (h : i / 32 = j / 32) : i % 32 = j % 32 ↔ i = j := by
  omega

theorem isSet_setWord (b : BitMap n) {i : ℕ} (h : i < n) (w : BitVec 32) (j : ℕ) :
    (b.setWord i h w).isSet j =
      if i / 32 = j / 32 ∧ j < n then w.getLsbD (j % 32) else b.isSet j := by
  by_cases hj : j < n
  · rw [isSet_of_lt _ hj, isSet_of_lt _ hj, word_setWord]
    by_cases hw : i / 32 = j / 32 <;> simp [hw, hj]
  · simp [isSet, hj]

theorem word_eq_of_div_eq (b : BitMap n) {i j : ℕ} (hi : i < n) (hj : j < n)
    (h : i / 32 = j / 32) : b.word i hi = b.word j hj := by
  simp only [word, h]

theorem isSet_setBit (b : BitMap n) {i : ℕ} (h : i < n) (j : ℕ) :
    (b.setBit i h).isSet j = (decide (i = j) || b.isSet j) := by
  rw [setBit, isSet_setWord]
  split_ifs with hj
  · rw [BitVec.getLsbD_or, getLsbD_mask, isSet_of_lt b hj.2, word_eq_of_div_eq b h hj.2 hj.1,
      Bool.or_comm]
    simp only [mod_eq_iff hj.1]
  · have hij : i ≠ j := fun he => hj ⟨he ▸ rfl, he ▸ h⟩
    simp [hij]

theorem isSet_clearBit (b : BitMap n) {i : ℕ} (h : i < n) (j : ℕ) :
    (b.clearBit i h).isSet j = (!decide (i = j) && b.isSet j) := by
  rw [clearBit, isSet_setWord]
  split_ifs with hj
  · rw [BitVec.getLsbD_and, BitVec.getLsbD_not, getLsbD_mask, isSet_of_lt b hj.2,
      word_eq_of_div_eq b h hj.2 hj.1, Bool.and_comm]
    simp [mod_eq_iff hj.1, Nat.mod_lt]
  · have hij : i ≠ j := fun he => hj ⟨he ▸ rfl, he ▸ h⟩
    simp [hij]

theorem mark_of_lt (b : BitMap n) {i : ℕ} (h : i < n) : b.mark i = .ok (b.setBit i h) := dif_pos h

theorem clear_of_lt (b : BitMap n) {i : ℕ} (h : i < n) : b.clear i = .ok (b.clearBit i h) :=
  dif_pos h

/-- A bit of a word is the test of the word against a mask. -/
theorem and_mask_ne_zero (w : BitVec 32) (i : ℕ) : (w &&& mask i != 0) = w.getLsbD (i % 32) := by
  by_cases h : w.getLsbD (i % 32) = true
  · have hne : ¬w &&& mask i = 0#32 := fun h0 => by
      have := congrArg (BitVec.getLsbD · (i % 32)) h0
      simp [getLsbD_mask, h] at this
    simp [h, hne]
  · have h0 : w &&& mask i = 0 := by
      refine BitVec.eq_of_getLsbD_eq fun j hj => ?_
      have hm := getLsbD_mask i j
      rw [Nat.mod_eq_of_lt hj] at hm
      by_cases hij : i % 32 = j
      · subst hij
        simpa using fun h' => absurd h' h
      · simp [hm, hij]
    simp [h, h0]

theorem test_of_lt (b : BitMap n) {i : ℕ} (h : i < n) : b.test i = .ok (b.isSet i) := by
  simp only [test, h, dif_pos, and_mask_ne_zero, isSet_of_lt]

/-! ### A new bitmap -/

/-- Whatever the allocated words contain, the constructor returns an empty bitmap. -/
theorem new_spec (map : Vector (BitVec 32) (divRoundUp n 32)) :
    ∃ b : BitMap n, new map = .ok b ∧ ∀ i, b.isSet i = false := by
  obtain ⟨b, hb, hclear⟩ := forLoop_spec (f := clear) (s := (⟨map⟩ : BitMap n)) (n := n)
    (fun m b => ∀ i < m, b.isSet i = false) (by simp) fun i b hi hb =>
      ⟨b.clearBit i hi, clear_of_lt b hi, fun j hj => by
        rw [isSet_clearBit]
        by_cases hij : i = j
        · simp [hij]
        · simp [hb j (by omega)]⟩
  refine ⟨b, hb, fun i => ?_⟩
  by_cases hi : i < n
  · exact hclear i hi
  · simp [isSet, hi]

/-! ### Items that are not in a bitmap -/

/-- The items that are not in a bitmap. -/
def freeItems (b : BitMap n) : Finset ℕ := (Finset.range n).filter fun i => b.isSet i = false

@[simp]
theorem mem_freeItems {b : BitMap n} {i : ℕ} : i ∈ b.freeItems ↔ i < n ∧ b.isSet i = false := by
  simp [freeItems]

theorem freeItems_setBit (b : BitMap n) {i : ℕ} (h : i < n) :
    (b.setBit i h).freeItems = b.freeItems.erase i := by
  ext j
  simp only [mem_freeItems, isSet_setBit, Finset.mem_erase, Bool.or_eq_false_iff,
    decide_eq_false_iff_not, ne_eq, eq_comm (a := i)]
  tauto

theorem findFrom_spec (b : BitMap n) {k i : ℕ} (hk : i + k = n) :
    (∃ j, ∃ h : j < n, b.isSet j = false ∧ b.findFrom k i = .ok (some j, b.setBit j h)) ∨
      (∀ j, i ≤ j → j < n → b.isSet j = true) ∧ b.findFrom k i = .ok (none, b) := by
  induction k generalizing i with
  | zero => exact .inr ⟨fun j h h' => by omega, rfl⟩
  | succ k ih =>
    have hi : i < n := by omega
    simp only [findFrom, test_of_lt b hi, ok_bind]
    cases hb : b.isSet i with
    | false => exact .inl ⟨i, hi, hb, by simp [mark_of_lt b hi]⟩
    | true =>
      refine (ih (by omega)).imp id fun ⟨hall, hf⟩ => ⟨fun j h h' => ?_, hf⟩
      rcases Nat.eq_or_lt_of_le h with rfl | h
      · exact hb
      · exact hall j h h'

/-- `Find` returns an item that is not in the bitmap and marks it. It returns -1 only if there is
none. -/
theorem find_spec (b : BitMap n) :
    (∃ i, ∃ h : i < n, b.isSet i = false ∧ b.find = .ok (some i, b.setBit i h)) ∨
      b.freeItems = ∅ ∧ b.find = .ok (none, b) :=
  (b.findFrom_spec (Nat.zero_add n)).imp id fun ⟨hall, hf⟩ =>
    ⟨Finset.eq_empty_of_forall_notMem fun j hj => by
      rw [mem_freeItems] at hj
      simp [hall j (Nat.zero_le j) hj.1] at hj, hf⟩

theorem numClear_eq (b : BitMap n) : b.numClear = .ok b.freeItems.card := by
  obtain ⟨count, hc, rfl⟩ := forLoop_spec
    (f := fun count i => do return if !(← b.test i) then count + 1 else count) (n := n) (s := 0)
    (fun m count => count = ((Finset.range m).filter fun i => b.isSet i = false).card) rfl
    fun i count hi hcount => ⟨_, by rw [test_of_lt b hi]; rfl, by
      rw [Finset.range_add_one, Finset.filter_insert, hcount]
      cases b.isSet i <;> simp⟩
  exact hc

end BitMap

end Nachos.UserProg
