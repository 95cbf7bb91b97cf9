import Nachos.FileSys.OpenFile
import Mathlib.Data.List.FinRange

/-!
# Directories

`filesys/directory.cc`: a table of entries, which is stored in a file; the file system has one with
`NumDirEntries` entries. Names are compared and copied up to `FileNameMaxLen` characters.

## Main definitions

* `CString`, `strncmpEq`, `strncpy`.
* `DirectoryEntry`, `Directory`.
* `Directory.findIndex`, `Directory.find`, `Directory.add`, `Directory.remove`.

## Main results

* `Directory.DistinctNames`: entries that are in use have different names. `add` and `remove` keep
  this.
-/

namespace Nachos.FileSys

open Foundations

/-! ### Names -/

/-- A C string without its end. -/
structure CString where
  chars : List (BitVec 8)
  nonzero : 0 ∉ chars

/-- The characters of a string, its end, and zeros behind it. -/
def CString.charAt (s : CString) : Bytes := fun i => s.chars.getD i 0

/-- Whether `strncmp` returns 0. -/
def strncmpEq (a b : Bytes) : ℕ → Bool
  | 0 => true
  | n + 1 =>
    a 0 == b 0 && (a 0 == 0 || strncmpEq (fun i => a (i + 1)) (fun i => b (i + 1)) n)

/-- `FileNameMaxLen`. -/
abbrev fileNameMaxLen : ℕ := 9

/-- `char name[FileNameMaxLen + 1]`. -/
abbrev FileName : Type := Fin (fileNameMaxLen + 1) → BitVec 8

/-- The characters of a name in the table. -/
def FileName.charAt (name : FileName) : Bytes := fun i =>
  if h : i < fileNameMaxLen + 1 then name ⟨i, h⟩ else 0

/-- `strncpy(dest, source, FileNameMaxLen)`, which fills up with zeros. -/
def strncpy (dest : FileName) (source : CString) : FileName := fun i =>
  if i < fileNameMaxLen then source.charAt i else dest i

theorem strncmpEq_congr {a b c d : Bytes} {n : ℕ} (h : ∀ i < n, a i = c i)
    (h' : ∀ i < n, b i = d i) : strncmpEq a b n = strncmpEq c d n := by
  induction n generalizing a b c d with
  | zero => rfl
  | succ n ih =>
    rw [strncmpEq, strncmpEq, h 0 (by omega), h' 0 (by omega),
      ih (fun i hi => h (i + 1) (by omega)) fun i hi => h' (i + 1) (by omega)]

theorem strncmpEq_comm (a b : Bytes) (n : ℕ) : strncmpEq a b n = strncmpEq b a n := by
  induction n generalizing a b with
  | zero => rfl
  | succ n ih =>
    rw [strncmpEq, strncmpEq, ih]
    by_cases h : a 0 = b 0
    · rw [h]
    · rw [beq_eq_false_iff_ne.2 h, beq_eq_false_iff_ne.2 (Ne.symm h)]
      rfl

theorem charAt_strncpy (dest : FileName) (source : CString) {i : ℕ} (hi : i < fileNameMaxLen) :
    (strncpy dest source).charAt i = source.charAt i := by
  simp [FileName.charAt, strncpy, hi, Nat.lt_succ_of_lt hi]

/-! ### Tables -/

/-- `DirectoryEntry`. -/
structure DirectoryEntry where
  inUse : Bool
  sector : BitVec 32
  name : FileName

/-- An entry in memory, which is aligned to words. -/
def DirectoryEntry.layout : Layout DirectoryEntry :=
  (Layout.bool.prod ((Layout.padding 3).prod (Layout.word.prod
    ((Layout.byte.array (fileNameMaxLen + 1)).prod (Layout.padding 2))))).map
    (fun e => (e.inUse, (), e.sector, e.name, ())) (fun w => ⟨w.1, w.2.2.1, w.2.2.2.1⟩) fun _ => rfl

/-- `NumDirEntries`. -/
abbrev numDirEntries : ℕ := 10

/-- `Directory`, with `n` entries. -/
abbrev Directory (n : ℕ := numDirEntries) : Type := Fin n → DirectoryEntry

/-- `DirectoryFileSize`. -/
def directoryFileSize : ℕ := DirectoryEntry.layout.size * numDirEntries

namespace Directory

variable {n : ℕ}

/-- The table in memory. -/
def layout : Layout (Directory n) := DirectoryEntry.layout.array n

/-- The constructor, for a table that contains `heap` when it is allocated. -/
def new (heap : Bytes) (n : ℕ := numDirEntries) : Directory n := fun i =>
  { layout.fetch heap i with inUse := false }

/-- `Directory::FetchFrom`. -/
def fetchFrom (table : Directory n) (file : OpenFile) (disk : Disk) :
    Except Fault (Directory n) := do
  let (_, into) ← file.readAt disk (layout.store table) (n * DirectoryEntry.layout.size) 0
  return layout.fetch into

/-- `Directory::WriteBack`. -/
def writeBack (table : Directory n) (file : OpenFile) (disk : Disk) (heap : Bytes) :
    Except Fault Disk := do
  let (_, disk) ← file.writeAt disk (layout.store table) (n * DirectoryEntry.layout.size) 0 heap
  return disk

/-- Whether an entry is the one of a file. -/
def matchesName (table : Directory n) (name : Bytes) (i : Fin n) : Bool :=
  (table i).inUse && strncmpEq (table i).name.charAt name fileNameMaxLen

/-- `Directory::FindIndex`. The result is `none` for -1. -/
def findIndex (table : Directory n) (name : CString) : Option (Fin n) :=
  (List.finRange n).find? (table.matchesName name.charAt)

/-- `Directory::Find`. -/
def find (table : Directory n) (name : CString) : BitVec 32 :=
  match table.findIndex name with
  | some i => (table i).sector
  | none => -1

/-- `Directory::Add`. -/
def add (table : Directory n) (name : CString) (newSector : BitVec 32) : Bool × Directory n :=
  if (table.findIndex name).isSome then (false, table)
  else
    match (List.finRange n).find? fun i => !(table i).inUse with
    | some i =>
      (true, Function.update table i ⟨true, newSector, strncpy (table i).name name⟩)
    | none => (false, table)

/-- The entry that `Add` takes for a new name. -/
def firstFree (table : Directory n) : Option (Fin n) :=
  (List.finRange n).find? fun i => !(table i).inUse

/-- `Directory::Remove`. -/
def remove (table : Directory n) (name : CString) : Bool × Directory n :=
  match table.findIndex name with
  | some i => (true, Function.update table i { table i with inUse := false })
  | none => (false, table)

/-! ### What the operations do -/

variable {table : Directory n} {name : CString} {i : Fin n}

theorem matchesName_of_findIndex (h : table.findIndex name = some i) :
    table.matchesName name.charAt i = true :=
  List.find?_some h

theorem not_matchesName_of_findIndex (h : table.findIndex name = none) (i : Fin n) :
    table.matchesName name.charAt i = false := by
  simpa using List.find?_eq_none.1 h i (List.mem_finRange i)

/-- Two entries that are in use have different names. -/
def DistinctNames (table : Directory n) : Prop :=
  ∀ i j, (table i).inUse = true → (table j).inUse = true →
    strncmpEq (table i).name.charAt (table j).name.charAt fileNameMaxLen = true → i = j

theorem inUse_of_firstFree (h : table.firstFree = some i) : (table i).inUse = false := by
  simpa using List.find?_some h

/-- `Add` fails and changes nothing, or it is for a new name and takes an entry. -/
theorem add_cases (table : Directory n) (name : CString) (newSector : BitVec 32) :
    table.add name newSector = (false, table) ∨ table.findIndex name = none ∧
      ∃ i, table.firstFree = some i ∧ table.add name newSector =
        (true, Function.update table i ⟨true, newSector, strncpy (table i).name name⟩) := by
  cases h : table.findIndex name with
  | some i => exact .inl (by simp [add, h])
  | none =>
    cases hfree : table.firstFree with
    | none =>
      rw [firstFree] at hfree
      exact .inl (by simp [add, h, hfree])
    | some i =>
      rw [firstFree] at hfree
      exact .inr ⟨rfl, i, rfl, by simp [add, h, hfree]⟩

/-- `Remove` fails and changes nothing, or it gives up the entry of the name. -/
theorem remove_cases (table : Directory n) (name : CString) :
    table.remove name = (false, table) ∨ ∃ i, table.findIndex name = some i ∧
      table.remove name = (true, Function.update table i { table i with inUse := false }) := by
  cases h : table.findIndex name with
  | none => exact .inl (by simp [remove, h])
  | some i => exact .inr ⟨i, rfl, by simp [remove, h]⟩

/-- `Add` returns `TRUE` if and only if no entry has the name and some entry is not in use. -/
theorem add_eq_true_iff (newSector : BitVec 32) : (table.add name newSector).1 = true ↔
    table.findIndex name = none ∧ ∃ i, (table i).inUse = false := by
  rw [add]
  cases hname : table.findIndex name with
  | some i => simp
  | none =>
    cases hfree : (List.finRange n).find? fun i => !(table i).inUse with
    | some i => simpa using ⟨i, by simpa using List.find?_some hfree⟩
    | none => simpa using hfree

/-- `Remove` returns `TRUE` if and only if some entry has the name. -/
theorem remove_eq_true_iff : (table.remove name).1 = true ↔ table.findIndex name ≠ none := by
  rw [remove]
  cases table.findIndex name <;> simp

theorem DistinctNames.add (hd : table.DistinctNames) (h : table.findIndex name = none)
    (i : Fin n) (newSector : BitVec 32) :
    DistinctNames (Function.update table i ⟨true, newSector, strncpy (table i).name name⟩) := by
  have hnew (j : Fin n) (hj : (table j).inUse = true) :
      strncmpEq (table j).name.charAt (strncpy (table i).name name).charAt fileNameMaxLen =
        false := by
    have := not_matchesName_of_findIndex h j
    rw [matchesName, hj, Bool.true_and] at this
    rwa [strncmpEq_congr (fun _ _ => rfl) fun k hk => charAt_strncpy _ _ hk]
  intro j k hj hk hjk
  by_cases hji : j = i <;> by_cases hki : k = i
  · rw [hji, hki]
  · subst hji
    rw [Function.update_of_ne hki] at hk hjk
    rw [Function.update_self, strncmpEq_comm, hnew k hk] at hjk
    cases hjk
  · subst hki
    rw [Function.update_of_ne hji] at hj hjk
    rw [Function.update_self, hnew j hj] at hjk
    cases hjk
  · rw [Function.update_of_ne hji] at hj hjk
    rw [Function.update_of_ne hki] at hk hjk
    exact hd j k hj hk hjk

theorem DistinctNames.remove (hd : table.DistinctNames) (i : Fin n) :
    DistinctNames (Function.update table i { table i with inUse := false }) := by
  intro j k hj hk hjk
  have hji : j ≠ i := by
    rintro rfl
    simp at hj
  have hki : k ≠ i := by
    rintro rfl
    simp at hk
  rw [Function.update_of_ne hji] at hj hjk
  rw [Function.update_of_ne hki] at hk hjk
  exact hd j k hj hk hjk

end Directory

end Nachos.FileSys
