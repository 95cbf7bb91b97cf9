import Mathlib.Data.Finset.Max
import Nachos.UserProg.BitMap

/-!
# Bitmaps as sets

A `BitMap` is the finite set of the items whose bits are set. Calls of `Mark`, `Clear` and `Find`,
one after the other, change the set as they should, whatever the allocated words contain.

## Main definitions

* `BitMap.items`: the items in a bitmap.
* `BitMapOp.apply`: the operations on sets.

## Main results

* `BitMap.perform_refines`: one call.
* `BitMap.bitMap_spec`: any calls after the construction.
-/

namespace Nachos.UserProg

open Foundations

variable {n : ℕ}

/-- A call of a function that changes a bitmap. -/
inductive BitMapOp
  | mark (which : ℕ)
  | clear (which : ℕ)
  | find
  deriving DecidableEq

namespace BitMapOp

/-- The argument passes the assertion. -/
def InRange (n : ℕ) : BitMapOp → Prop
  | mark which | clear which => which < n
  | find => True

/-- The least number below `n` that is absent. -/
def leastAbsent (n : ℕ) (s : Finset ℕ) : Option ℕ :=
  if h : (Finset.range n \ s).Nonempty then some ((Finset.range n \ s).min' h) else none

/-- What a call does to the set, and what `Find` returns. -/
def apply (n : ℕ) (s : Finset ℕ) : BitMapOp → Finset ℕ × Option (Option ℕ)
  | mark which => (insert which s, none)
  | clear which => (s.erase which, none)
  | find => ((leastAbsent n s).elim s (insert · s), some (leastAbsent n s))

/-- Calls one after the other. -/
def applyAll (n : ℕ) (s : Finset ℕ) : List BitMapOp → Finset ℕ × List (Option (Option ℕ))
  | [] => (s, [])
  | op :: ops =>
    let (s, reply) := op.apply n s
    let (s, replies) := applyAll n s ops
    (s, reply :: replies)

theorem leastAbsent_eq_some_iff {s : Finset ℕ} {i : ℕ} :
    leastAbsent n s = some i ↔ IsLeast {i | i < n ∧ i ∉ s} i := by
  have hcoe : ((Finset.range n \ s : Finset ℕ) : Set ℕ) = {i | i < n ∧ i ∉ s} := by
    ext j
    simp
  rw [leastAbsent, ← hcoe]
  split_ifs with h
  · rw [Option.some.injEq]
    exact ⟨fun hi => hi ▸ Finset.isLeast_min' _ h, fun hi => (Finset.isLeast_min' _ h).unique hi⟩
  · exact iff_of_false nofun fun hi => h ⟨i, hi.1⟩

theorem leastAbsent_eq_none_iff {s : Finset ℕ} : leastAbsent n s = none ↔ ∀ i < n, i ∈ s := by
  rw [leastAbsent]
  split_ifs with h
  · obtain ⟨i, hi⟩ := h
    rw [Finset.mem_sdiff, Finset.mem_range] at hi
    exact iff_of_false nofun fun hall => hi.2 (hall i hi.1)
  · refine iff_of_true rfl fun i hi => ?_
    by_contra hs
    exact h ⟨i, by simp [hi, hs]⟩

end BitMapOp

namespace BitMap

/-- The items in a bitmap. -/
def items (b : BitMap n) : Finset ℕ := (Finset.range n).filter fun i => b.isSet i = true

/-- A call. -/
def perform (b : BitMap n) : BitMapOp → Except Fault (BitMap n × Option (Option ℕ))
  | .mark which => (b.mark which).map (·, none)
  | .clear which => (b.clear which).map (·, none)
  | .find => b.find.map fun r => (r.2, some r.1)

/-- Calls one after the other. -/
def run (b : BitMap n) : List BitMapOp → Except Fault (BitMap n × List (Option (Option ℕ)))
  | [] => .ok (b, [])
  | op :: ops => do
    let (b, reply) ← b.perform op
    let (b, replies) ← b.run ops
    return (b, reply :: replies)

variable {b : BitMap n} {i : ℕ}

@[simp]
theorem mem_items : i ∈ b.items ↔ b.isSet i = true := by
  simp only [items, Finset.mem_filter, Finset.mem_range, and_iff_right_iff_imp]
  exact lt_of_isSet

theorem items_setBit (h : i < n) : (b.setBit i h).items = insert i b.items := by
  ext j
  rw [mem_items, isSet_setBit, Finset.mem_insert, mem_items, Bool.or_eq_true, decide_eq_true_eq,
    eq_comm]

theorem items_clearBit (h : i < n) : (b.clearBit i h).items = b.items.erase i := by
  ext j
  rw [mem_items, isSet_clearBit, Finset.mem_erase, mem_items, Bool.and_eq_true, Bool.not_eq_true',
    decide_eq_false_iff_not, ne_eq, eq_comm]

theorem card_freeItems (b : BitMap n) : b.freeItems.card = n - b.items.card := by
  have hsdiff : b.freeItems = Finset.range n \ b.items := by
    ext j
    simp
  have hsub : b.items ⊆ Finset.range n := Finset.filter_subset _ _
  rw [hsdiff, Finset.card_sdiff_of_subset hsub, Finset.card_range]

/-- `Find` passes over the items that are in the bitmap. -/
theorem isSet_of_findFrom {k j m : ℕ} {b' : BitMap n} (hk : i + k = n)
    (h : b.findFrom k i = .ok (some j, b')) (hm : i ≤ m) (hmj : m < j) : b.isSet m = true := by
  induction k generalizing i with
  | zero => cases h
  | succ k ih =>
    have hi : i < n := by omega
    simp only [findFrom, test_of_lt b hi, ok_bind] at h
    cases hb : b.isSet i with
    | false =>
      simp only [hb, Bool.not_false, if_true, mark_of_lt b hi, ok_bind] at h
      obtain ⟨hij, -⟩ := Prod.mk.inj (Except.ok.inj h)
      cases hij
      omega
    | true =>
      rcases Nat.eq_or_lt_of_le hm with rfl | hm
      · exact hb
      · exact ih (by omega) (by simpa [hb] using h) hm

theorem test_eq (b : BitMap n) (h : i < n) : b.test i = .ok (decide (i ∈ b.items)) := by
  rw [test_of_lt b h]
  simp

theorem test_setBit (h : i < n) {j : ℕ} (hj : j < n) :
    (b.setBit i h).test j = if j = i then .ok true else b.test j := by
  rw [test_of_lt _ hj, isSet_setBit, test_of_lt b hj]
  by_cases hij : j = i
  · simp [hij]
  · simp [hij, Ne.symm hij]

theorem test_clearBit (h : i < n) {j : ℕ} (hj : j < n) :
    (b.clearBit i h).test j = if j = i then .ok false else b.test j := by
  rw [test_of_lt _ hj, isSet_clearBit, test_of_lt b hj]
  by_cases hij : j = i
  · simp [hij]
  · simp [hij, Ne.symm hij]

/-- `Find` takes the least number that is absent. -/
theorem find_isLeast (b : BitMap n) :
    (∃ i, ∃ h : i < n, IsLeast {i | i < n ∧ i ∉ b.items} i ∧
        b.find = .ok (some i, b.setBit i h)) ∨
      (∀ i < n, i ∈ b.items) ∧ b.find = .ok (none, b) := by
  rcases b.find_spec with ⟨i, hi, hb, hfind⟩ | ⟨hnone, hfind⟩
  · refine .inl ⟨i, hi, ⟨⟨hi, by simp [hb]⟩, fun j ⟨hj, hmem⟩ => ?_⟩, hfind⟩
    by_contra! hlt
    exact hmem (mem_items.2 (isSet_of_findFrom (Nat.zero_add n) hfind (Nat.zero_le j) hlt))
  · refine .inr ⟨fun i hi => ?_, hfind⟩
    by_contra hmem
    have hfree : i ∈ b.freeItems := mem_freeItems.2 ⟨hi, by simpa using hmem⟩
    simp [hnone] at hfree

theorem find_eq (b : BitMap n) :
    ∃ b', b.find = .ok (BitMapOp.leastAbsent n b.items, b') ∧
      b'.items = (BitMapOp.leastAbsent n b.items).elim b.items (insert · b.items) := by
  rcases b.find_isLeast with ⟨i, hi, hleast, hfind⟩ | ⟨hall, hfind⟩
  · rw [BitMapOp.leastAbsent_eq_some_iff.2 hleast]
    exact ⟨_, hfind, items_setBit hi⟩
  · rw [BitMapOp.leastAbsent_eq_none_iff.2 hall]
    exact ⟨b, hfind, rfl⟩

/-- A call does to the bitmap what it does to the set. -/
theorem perform_refines (b : BitMap n) {op : BitMapOp} (hop : op.InRange n) :
    ∃ b', b.perform op = .ok (b', (op.apply n b.items).2) ∧ b'.items = (op.apply n b.items).1 := by
  cases op with
  | mark which => exact ⟨_, by rw [perform, mark_of_lt b hop]; rfl, items_setBit hop⟩
  | clear which => exact ⟨_, by rw [perform, clear_of_lt b hop]; rfl, items_clearBit hop⟩
  | find =>
    obtain ⟨b', hfind, hitems⟩ := b.find_eq
    exact ⟨b', by rw [perform, hfind]; rfl, hitems⟩

theorem run_refines (b : BitMap n) {ops : List BitMapOp} (hops : ∀ op ∈ ops, op.InRange n) :
    ∃ b', b.run ops = .ok (b', (BitMapOp.applyAll n b.items ops).2) ∧
      b'.items = (BitMapOp.applyAll n b.items ops).1 := by
  induction ops generalizing b with
  | nil => exact ⟨b, rfl, rfl⟩
  | cons op ops ih =>
    obtain ⟨hop, hops⟩ := List.forall_mem_cons.1 hops
    obtain ⟨b₁, hb₁, hitems⟩ := b.perform_refines hop
    obtain ⟨b', hb', hitems'⟩ := ih b₁ hops
    rw [hitems] at hb' hitems'
    exact ⟨b', by simp [run, hb₁, hb', BitMapOp.applyAll, pure, Except.pure], hitems'⟩

/-- **`BitMap` is a finite set of bit numbers.** After the construction and any calls, the replies
are the ones of a set that is empty at first, `Test` is membership and `NumClear` counts the
others. The next call changes only the membership of its own number, and `Find` takes the least
absent number, or returns -1 and changes nothing if there is none. -/
theorem bitMap_spec (map : Vector (BitVec 32) (divRoundUp n 32)) {ops : List BitMapOp}
    (hops : ∀ op ∈ ops, op.InRange n) :
    ∃ b₀ b : BitMap n, ∃ replies, new map = .ok b₀ ∧ b₀.run ops = .ok (b, replies) ∧
      replies = (BitMapOp.applyAll n ∅ ops).2 ∧
      (∀ i < n, b.test i = .ok (decide (i ∈ (BitMapOp.applyAll n ∅ ops).1))) ∧
      b.numClear = .ok (n - (BitMapOp.applyAll n ∅ ops).1.card) ∧
      (∀ i < n, ∃ b', b.mark i = .ok b' ∧
        ∀ j < n, b'.test j = if j = i then .ok true else b.test j) ∧
      (∀ i < n, ∃ b', b.clear i = .ok b' ∧
        ∀ j < n, b'.test j = if j = i then .ok false else b.test j) ∧
      ((∃ i b', b.find = .ok (some i, b') ∧
          IsLeast {i | i < n ∧ i ∉ (BitMapOp.applyAll n ∅ ops).1} i ∧
          ∀ j < n, b'.test j = if j = i then .ok true else b.test j) ∨
        b.find = .ok (none, b) ∧ ∀ i < n, i ∈ (BitMapOp.applyAll n ∅ ops).1) := by
  obtain ⟨b₀, hnew, hempty⟩ := new_spec map
  have hitems₀ : b₀.items = ∅ := by
    ext i
    simp [hempty]
  obtain ⟨b, hrun, hitems⟩ := b₀.run_refines hops
  rw [hitems₀] at hrun hitems
  rw [← hitems]
  refine ⟨b₀, b, _, hnew, hrun, rfl, fun i hi => b.test_eq hi, by rw [numClear_eq, card_freeItems],
    fun i hi => ⟨_, mark_of_lt b hi, fun j hj => test_setBit hi hj⟩,
    fun i hi => ⟨_, clear_of_lt b hi, fun j hj => test_clearBit hi hj⟩, ?_⟩
  refine b.find_isLeast.imp ?_ And.symm
  rintro ⟨i, hi, hleast, hfind⟩
  exact ⟨i, _, hfind, hleast, fun j hj => test_setBit hi hj⟩

/-- The sign bit of a word, and a part of the next word. The words are not zero at first. -/
theorem bitMap_spec_example :
    let map : Vector (BitVec 32) (divRoundUp 35 32) := ⟨#[0xffffffff, 0xdeadbeef], rfl⟩
    let ops : List BitMapOp := [.mark 31, .find, .mark 34, .clear 31, .find]
    ∃ b₀ b : BitMap 35, ∃ replies, new map = .ok b₀ ∧ b₀.run ops = .ok (b, replies) ∧
      replies = [none, some (some 0), none, none, some (some 1)] ∧ b.numClear = .ok 32 := by
  intro map ops
  have hops : ∀ op ∈ ops, op.InRange 35 := by simp [ops, BitMapOp.InRange]
  have hset : BitMapOp.applyAll 35 ∅ ops =
      ({34, 0, 1}, [none, some (some 0), none, none, some (some 1)]) := by decide +kernel
  obtain ⟨b₀, b, replies, hnew, hrun, hreplies, -, hclear, -⟩ := bitMap_spec map hops
  rw [hset] at hreplies hclear
  exact ⟨b₀, b, replies, hnew, hrun, hreplies, hclear⟩

end BitMap

end Nachos.UserProg
