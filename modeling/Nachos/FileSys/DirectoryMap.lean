import Mathlib.Data.Fintype.Card
import Nachos.FileSys.Directory
import Nachos.Foundations.BoundedMap

/-!
# Directories as maps

A directory is a map of bounded size from names to sectors, where names that share their first
`FileNameMaxLen` characters are the same. Entries that are not in use keep old names, which do not
matter.

## Main definitions

* `nameKey`: what `strncmp` compares of a name.
* `Directory.perform`, `Directory.run`: `Add` and `Remove` requests.
* `Directory.Represents`: a table and the map that it stands for.
* `Directory.lastAdded`: the sector with which a name was last added.
* `Directory.IsMapOf`: a table answers according to the requests it has performed.

## Main results

* `Directory.Represents.perform`: the requests do to a table what they do to the map.
* `Directory.run_isMapOf`: a directory is a map after any sequence of requests.
-/

namespace Nachos.FileSys

open Foundations

/-! ### Names -/

/-- The characters of a name up to its end, at most `FileNameMaxLen` of them. -/
def nameKey (name : Bytes) : List (BitVec 8) :=
  ((List.range fileNameMaxLen).map name).takeWhile (· != 0)

theorem map_range_succ (a : Bytes) (n : ℕ) :
    (List.range (n + 1)).map a = a 0 :: (List.range n).map fun i => a (i + 1) := by
  rw [List.range_succ_eq_map, List.map_cons, List.map_map]
  rfl

/-- `strncmp` returns 0 if and only if the compared characters are the same. -/
theorem strncmpEq_iff (a b : Bytes) (n : ℕ) : strncmpEq a b n = true ↔
    ((List.range n).map a).takeWhile (· != 0) = ((List.range n).map b).takeWhile (· != 0) := by
  induction n generalizing a b with
  | zero => simp [strncmpEq]
  | succ n ih =>
    rw [strncmpEq, map_range_succ, map_range_succ, List.takeWhile_cons, List.takeWhile_cons]
    by_cases ha : a 0 = 0#8 <;> by_cases hb : b 0 = 0#8
    · simp [ha, hb]
    · simp [ha, hb, Ne.symm hb]
    · simp [ha, hb]
    · simp [ha, hb, ih]

theorem takeWhile_charAt (s : CString) (n : ℕ) :
    ((List.range n).map s.charAt).takeWhile (· != 0) = s.chars.take n := by
  obtain ⟨chars, hchars⟩ := s
  induction n generalizing chars with
  | zero => rfl
  | succ n ih =>
    rw [map_range_succ, List.takeWhile_cons]
    cases chars with
    | nil => rfl
    | cons c chars =>
      rw [List.mem_cons, not_or] at hchars
      have hc : (c != 0) = true := by simpa using Ne.symm hchars.1
      simp only [CString.charAt, List.getD_cons_zero, hc, if_true, List.take_succ_cons]
      exact congrArg _ (ih chars hchars.2)

theorem nameKey_charAt (s : CString) : nameKey s.charAt = s.chars.take fileNameMaxLen :=
  takeWhile_charAt s fileNameMaxLen

theorem nameKey_strncpy (dest : FileName) (source : CString) :
    nameKey (strncpy dest source).charAt = nameKey source.charAt := by
  have h : (List.range fileNameMaxLen).map (strncpy dest source).charAt =
      (List.range fileNameMaxLen).map source.charAt :=
    List.map_congr_left fun i hi => charAt_strncpy _ _ (List.mem_range.1 hi)
  rw [nameKey, h, nameKey]

namespace Directory

/-! ### Requests -/

/-- A call of `Add` or `Remove`. -/
inductive Request
  | add (name : CString) (newSector : BitVec 32)
  | remove (name : CString)

/-- The name that a request is about. -/
def Request.name : Request → CString
  | .add name _ => name
  | .remove name => name

variable {n : ℕ} {table : Directory n} {name : CString} {i : Fin n}

/-- Perform a request. -/
def perform (table : Directory n) : Request → Bool × Directory n
  | .add name newSector => table.add name newSector
  | .remove name => table.remove name

/-- Perform requests one after the other. The result lists their return values. -/
def run (table : Directory n) : List Request → List Bool × Directory n
  | [] => ([], table)
  | r :: rs => ((table.perform r).1 :: (run (table.perform r).2 rs).1,
      (run (table.perform r).2 rs).2)

/-- The number of entries that are in use. -/
def numInUse (table : Directory n) : ℕ := (Finset.univ.filter fun i => (table i).inUse = true).card

theorem numInUse_lt_iff : table.numInUse < n ↔ ∃ i, (table i).inUse = false := by
  have hle : table.numInUse ≤ n := by
    simpa [numInUse] using Finset.card_filter_le Finset.univ fun i => (table i).inUse = true
  have heq : table.numInUse = n ↔ ∀ i, (table i).inUse = true := by
    have := Finset.card_filter_eq_iff (s := Finset.univ) (p := fun i => (table i).inUse = true)
    simpa [numInUse] using this
  rw [lt_iff_le_and_ne, Ne, heq, not_forall]
  simp [hle]

/-! ### The map that a table stands for -/

/-- A request in terms of the map. -/
def Request.onKeys : Request → BoundedMap.Request (List (BitVec 8)) (BitVec 32)
  | .add name newSector => .add (nameKey name.charAt) newSector
  | .remove name => .remove (nameKey name.charAt)

/-- A table stands for a map from names to sectors. -/
structure Represents (table : Directory n) (map : BoundedMap (List (BitVec 8)) (BitVec 32) n) :
    Prop where
  distinct : table.DistinctNames
  lookup_iff (key : List (BitVec 8)) (sector : BitVec 32) : map.lookup key = some sector ↔
    ∃ i, (table i).inUse = true ∧ nameKey (table i).name.charAt = key ∧ (table i).sector = sector

theorem of_findIndex_eq_some (h : table.findIndex name = some i) :
    (table i).inUse = true ∧ nameKey (table i).name.charAt = nameKey name.charAt := by
  have hi := matchesName_of_findIndex h
  rw [matchesName, Bool.and_eq_true, strncmpEq_iff] at hi
  exact hi

theorem nameKey_ne_of_findIndex (h : table.findIndex name = none) (hi : (table i).inUse = true) :
    nameKey (table i).name.charAt ≠ nameKey name.charAt := by
  have hmatch := not_matchesName_of_findIndex h i
  rw [matchesName, hi, Bool.true_and] at hmatch
  exact fun hk => absurd ((strncmpEq_iff ..).2 hk) (by simp [hmatch])

namespace Represents

variable {map : BoundedMap (List (BitVec 8)) (BitVec 32) n}

theorem lookup_eq_none_iff (h : Represents table map) :
    map.lookup (nameKey name.charAt) = none ↔ table.findIndex name = none := by
  constructor
  · intro hl
    by_contra hf
    obtain ⟨i, hi⟩ := Option.ne_none_iff_exists'.1 hf
    obtain ⟨huse, hkey⟩ := of_findIndex_eq_some hi
    rw [(h.lookup_iff _ _).2 ⟨i, huse, hkey, rfl⟩] at hl
    cases hl
  · intro hf
    by_contra hl
    obtain ⟨sector, hs⟩ := Option.ne_none_iff_exists'.1 hl
    obtain ⟨i, huse, hkey, -⟩ := (h.lookup_iff _ _).1 hs
    exact nameKey_ne_of_findIndex hf huse hkey

theorem find_eq (h : Represents table map) (name : CString) :
    table.find name = (map.lookup (nameKey name.charAt)).getD (-1) := by
  rw [find]
  cases hf : table.findIndex name with
  | none => rw [h.lookup_eq_none_iff.2 hf]; rfl
  | some i =>
    obtain ⟨huse, hkey⟩ := of_findIndex_eq_some hf
    rw [(h.lookup_iff _ _).2 ⟨i, huse, hkey, rfl⟩]
    rfl

/-- The map has as many keys as there are entries in use. -/
theorem card_keys (h : Represents table map) : map.entries.keys.card = table.numInUse := by
  have hkeys : map.entries.keys = (Finset.univ.filter fun i => (table i).inUse = true).image
      fun i => nameKey (table i).name.charAt := by
    ext key
    rw [Finmap.mem_keys, Finmap.mem_iff]
    simp only [Finset.mem_image, Finset.mem_filter, Finset.mem_univ, true_and]
    exact ⟨fun ⟨sector, hs⟩ => let ⟨i, huse, hkey, _⟩ := (h.lookup_iff _ _).1 hs; ⟨i, huse, hkey⟩,
      fun ⟨i, huse, hkey⟩ => ⟨_, (h.lookup_iff _ _).2 ⟨i, huse, hkey, rfl⟩⟩⟩
  rw [hkeys, numInUse]
  refine Finset.card_image_of_injOn fun i hi j hj hij => ?_
  simp only [Finset.coe_filter, Finset.mem_univ, true_and, Set.mem_ofPred_eq] at hi hj
  exact h.distinct i j hi hj ((strncmpEq_iff ..).2 hij)

theorem add_fst (h : Represents table map) (name : CString) (newSector : BitVec 32) :
    (table.add name newSector).1 = (map.add (nameKey name.charAt) newSector).1 := by
  rw [Bool.eq_iff_iff, add_eq_true_iff, BoundedMap.add_eq_true_iff, h.lookup_eq_none_iff,
    h.card_keys, numInUse_lt_iff]

theorem remove_fst (h : Represents table map) (name : CString) :
    (table.remove name).1 = (map.remove (nameKey name.charAt)).1 := by
  rw [Bool.eq_iff_iff, remove_eq_true_iff, BoundedMap.remove_eq_true_iff, Ne, Ne,
    h.lookup_eq_none_iff]

/-- The entry of a new name. -/
theorem update_add (h : Represents table map) (hname : table.findIndex name = none)
    (hi : (table i).inUse = false) {newSector : BitVec 32}
    (hadd : (map.add (nameKey name.charAt) newSector).1 = true) :
    Represents (Function.update table i ⟨true, newSector, strncpy (table i).name name⟩)
      (map.add (nameKey name.charAt) newSector).2 := by
  refine ⟨h.distinct.add hname i newSector, fun key sector => ?_⟩
  rw [BoundedMap.lookup_add hadd]
  constructor
  · intro hl
    split_ifs at hl with hkey
    · exact ⟨i, by simpa [nameKey_strncpy, hkey] using hl⟩
    · obtain ⟨j, huse, hj, hs⟩ := (h.lookup_iff _ _).1 hl
      have hji : j ≠ i := by
        rintro rfl
        exact absurd huse (by simp [hi])
      exact ⟨j, by rw [Function.update_of_ne hji]; exact ⟨huse, hj, hs⟩⟩
  · rintro ⟨j, huse, hj, hs⟩
    by_cases hji : j = i
    · subst hji
      rw [Function.update_self] at hj hs
      rw [if_pos ((nameKey_strncpy _ _).symm.trans hj)]
      exact congrArg some hs
    · rw [Function.update_of_ne hji] at huse hj hs
      rw [if_neg fun hkey => nameKey_ne_of_findIndex hname huse (hj.trans hkey.symm)]
      exact (h.lookup_iff _ _).2 ⟨j, huse, hj, hs⟩

/-- The entry of a name that is removed. -/
theorem update_remove (h : Represents table map) (hname : table.findIndex name = some i)
    (hrem : (map.remove (nameKey name.charAt)).1 = true) :
    Represents (Function.update table i { table i with inUse := false })
      (map.remove (nameKey name.charAt)).2 := by
  obtain ⟨hi, hkey⟩ := of_findIndex_eq_some hname
  refine ⟨h.distinct.remove i, fun key sector => ?_⟩
  rw [BoundedMap.lookup_remove hrem]
  constructor
  · intro hl
    split_ifs at hl with hne
    obtain ⟨j, huse, hj, hs⟩ := (h.lookup_iff _ _).1 hl
    have hji : j ≠ i := by
      rintro rfl
      exact hne (hkey.symm.trans hj)
    exact ⟨j, by rw [Function.update_of_ne hji]; exact ⟨huse, hj, hs⟩⟩
  · rintro ⟨j, huse, hj, hs⟩
    by_cases hji : j = i
    · subst hji
      simp at huse
    · rw [Function.update_of_ne hji] at huse hj hs
      rw [if_neg fun he => hji (h.distinct j i huse hi ((strncmpEq_iff ..).2 ?_))]
      · exact (h.lookup_iff _ _).2 ⟨j, huse, hj, hs⟩
      · exact hj.trans (he.symm.trans hkey.symm)

/-- A request does to a table what it does to the map. -/
theorem perform (h : Represents table map) (r : Request) :
    (table.perform r).1 = (map.perform r.onKeys).1 ∧
      Represents (table.perform r).2 (map.perform r.onKeys).2 := by
  cases r with
  | add name newSector =>
    have hfst := h.add_fst name newSector
    refine ⟨hfst, ?_⟩
    rcases add_cases table name newSector with hadd | ⟨hname, i, hi, hadd⟩
    · rw [hadd] at hfst
      have hmap : (map.perform (Request.add name newSector).onKeys).2 = map :=
        BoundedMap.perform_of_false hfst.symm
      rw [hmap, Directory.perform, hadd]
      exact h
    · rw [hadd] at hfst
      rw [Directory.perform, hadd]
      exact h.update_add hname (inUse_of_firstFree hi) hfst.symm
  | remove name =>
    have hfst := h.remove_fst name
    refine ⟨hfst, ?_⟩
    rcases remove_cases table name with hrem | ⟨i, hname, hrem⟩
    · rw [hrem] at hfst
      have hmap : (map.perform (Request.remove name).onKeys).2 = map :=
        BoundedMap.perform_of_false hfst.symm
      rw [hmap, Directory.perform, hrem]
      exact h
    · rw [hrem] at hfst
      rw [Directory.perform, hrem]
      exact h.update_remove hname hfst.symm

/-- Requests one after the other do to a table what they do to the map. -/
theorem run (h : Represents table map) (rs : List Request) :
    (table.run rs).1 = (map.run (rs.map Request.onKeys)).1 ∧
      Represents (table.run rs).2 (map.run (rs.map Request.onKeys)).2 := by
  induction rs generalizing table map with
  | nil => exact ⟨rfl, h⟩
  | cons r rs ih =>
    obtain ⟨hfst, hperform⟩ := h.perform r
    obtain ⟨hreplies, hrun⟩ := ih hperform
    exact ⟨congrArg₂ List.cons hfst hreplies, hrun⟩

end Represents

theorem represents_new (heap : Bytes) (n : ℕ) : Represents (new heap n) .empty := by
  constructor
  · intro i j hi
    cases hi
  · simp [new]

/-! ### The answers of a directory -/

/-- The sector with which a name was last added, if it has not been removed since. Each request
comes with its return value. -/
def lastAdded (history : List (Request × Bool)) (name : CString) : Option (BitVec 32) :=
  BoundedMap.latest (nameKey name.charAt) none (history.map fun e => (e.1.onKeys, e.2))

/-- A table answers according to the requests it has performed. -/
structure IsMapOf (table : Directory n) (history : List (Request × Bool)) : Prop where
  distinct : table.DistinctNames
  find (name : CString) : table.find name = (lastAdded history name).getD (-1)
  add (name : CString) (newSector : BitVec 32) : (table.add name newSector).1 = true ↔
    lastAdded history name = none ∧ table.numInUse < n
  remove (name : CString) : (table.remove name).1 = true ↔ lastAdded history name ≠ none
  others (r : Request) (name : CString) :
    r.name.chars.take fileNameMaxLen ≠ name.chars.take fileNameMaxLen →
      (table.perform r).2.find name = table.find name

/-- A directory that was empty is a map of bounded size after any sequence of requests. -/
theorem run_isMapOf (heap : Bytes) (n : ℕ) (rs : List Request) :
    ((new heap n).run rs).2.IsMapOf (rs.zip ((new heap n).run rs).1) := by
  obtain ⟨hreplies, h⟩ := (represents_new heap n).run rs
  have hlookup (name : CString) : lastAdded (rs.zip ((new heap n).run rs).1) name =
      (BoundedMap.run (n := n) .empty (rs.map Request.onKeys)).2.lookup (nameKey name.charAt) := by
    rw [BoundedMap.lookup_run, BoundedMap.lookup_empty, lastAdded, hreplies, List.zip_map_left]
    rfl
  refine ⟨h.distinct, fun name => ?_, fun name newSector => ?_, fun name => ?_,
    fun r name hr => ?_⟩
  · rw [hlookup]
    exact h.find_eq name
  · rw [hlookup, h.add_fst, BoundedMap.add_eq_true_iff, h.card_keys]
  · rw [hlookup, h.remove_fst, BoundedMap.remove_eq_true_iff]
  · rw [(h.perform r).2.find_eq, h.find_eq, BoundedMap.lookup_perform_of_ne]
    rw [← nameKey_charAt, ← nameKey_charAt] at hr
    cases r <;> exact hr

end Directory

end Nachos.FileSys
