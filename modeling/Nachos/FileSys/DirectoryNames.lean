import Nachos.FileSys.DirectoryMap
import Nachos.FileSys.FileContents
import Nachos.Foundations.Run

/-!
# The names in a directory

A name field has room for `FileNameMaxLen` characters and a zero byte. `Add` copies at most
`FileNameMaxLen` bytes and never writes the last one, which keeps what the table contained when it
was allocated or fetched. It therefore has to be zero when a name of `FileNameMaxLen` or more
characters is added.

The system below is a directory whose table is written to a file and fetched from it. It records
the name with which each entry was added.

## Main definitions

* `FileName.Holds`: a name field contains a name and its end.
* `Directory.list`: what `List` prints.
* `directorySystem`, `KeepsEnd`.

## Main results

* `FileName.holds_strncpy_iff`: the names that are stored with their end.
* `directorySystem_names_terminated`: the names of all entries end if the steps meet `KeepsEnd`.
-/

namespace Nachos.FileSys

open Foundations

/-! ### Name fields -/

theorem CString.charAt_eq_zero_iff (s : CString) {i : ℕ} :
    s.charAt i = 0 ↔ s.chars.length ≤ i := by
  rw [CString.charAt]
  rcases lt_or_ge i s.chars.length with h | h
  · refine iff_of_false (fun h₀ => s.nonzero ?_) (by omega)
    rw [List.getD_eq_getElem?_getD, List.getElem?_eq_getElem h, Option.getD_some] at h₀
    exact h₀ ▸ List.getElem_mem h
  · rw [List.getD_eq_getElem?_getD, List.getElem?_eq_none h, Option.getD_none]
    exact iff_of_true rfl h

namespace FileName

/-- The last byte of a name field. -/
def lastByte (name : FileName) : BitVec 8 := name (Fin.last fileNameMaxLen)

/-- A name field contains a zero byte, and before it the first `FileNameMaxLen` characters of a
name. -/
def Holds (name : FileName) (s : CString) : Prop :=
  0 ∈ List.ofFn name ∧ (List.ofFn name).takeWhile (· != 0) = s.chars.take fileNameMaxLen

/-- `printf("%s\n", name)`, which reads up to a zero byte. -/
def print (name : FileName) : Except Fault (List (BitVec 8)) :=
  if 0 ∈ List.ofFn name then .ok ((List.ofFn name).takeWhile (· != 0)) else .error .undefined

theorem Holds.print {name : FileName} {s : CString} (h : name.Holds s) :
    name.print = .ok (s.chars.take fileNameMaxLen) := by
  rw [FileName.print, if_pos h.1, h.2]

/-- The copied characters and the last byte. -/
theorem ofFn_strncpy (dest : FileName) (source : CString) : List.ofFn (strncpy dest source) =
    (List.range fileNameMaxLen).map source.charAt ++ [dest.lastByte] := by
  rw [List.ofFn_succ', List.concat_eq_append]
  congr 1

/-- A name is stored with its end if and only if it is short or the last byte is zero. -/
theorem holds_strncpy_iff (dest : FileName) (source : CString) :
    (strncpy dest source).Holds source ↔
      (fileNameMaxLen ≤ source.chars.length → dest.lastByte = 0) := by
  have hcopied := takeWhile_charAt source fileNameMaxLen
  have hmem : 0 ∈ (List.range fileNameMaxLen).map source.charAt ↔
      source.chars.length < fileNameMaxLen := by
    simp only [List.mem_map, List.mem_range, source.charAt_eq_zero_iff]
    exact ⟨fun ⟨i, hi, hle⟩ => hle.trans_lt hi, fun h => ⟨_, h, le_rfl⟩⟩
  have hlen : ((List.range fileNameMaxLen).map source.charAt).length = fileNameMaxLen := by simp
  rw [Holds, ofFn_strncpy, List.takeWhile_append, hcopied, List.mem_append, List.mem_singleton,
    hmem, hlen, List.length_take]
  rcases lt_or_ge source.chars.length fileNameMaxLen with h | h
  · -- the end of the name is among the copied characters
    rw [if_neg (by omega)]
    exact iff_of_true ⟨.inl h, rfl⟩ fun hle => absurd h (by omega)
  · have hall : (List.range fileNameMaxLen).map source.charAt =
        source.chars.take fileNameMaxLen := by
      rw [← hcopied]
      refine ((List.takeWhile_sublist _).eq_of_length ?_).symm
      rw [hcopied, hlen, List.length_take]
      omega
    rw [if_pos (by omega), hall]
    constructor
    · exact fun hd _ => (hd.1.resolve_left (by omega)).symm
    · intro hd
      simp [hd h]

end FileName

namespace Directory

variable {n : ℕ} {table : Directory n} {added : Fin n → CString}

/-- `Directory::List`. -/
def list (table : Directory n) : Except Fault (List (List (BitVec 8))) :=
  ((List.finRange n).filter fun i => (table i).inUse).mapM fun i => (table i).name.print

/-- The entries that are in use hold the names `added`. -/
def HoldsNames (table : Directory n) (added : Fin n → CString) : Prop :=
  ∀ i, (table i).inUse = true → (table i).name.Holds (added i)

/-- `List` prints the names if all of them have an end. -/
theorem HoldsNames.list (h : table.HoldsNames added) :
    table.list = .ok (((List.finRange n).filter fun i => (table i).inUse).map fun i =>
      (added i).chars.take fileNameMaxLen) := by
  have hall : ∀ i ∈ (List.finRange n).filter fun i => (table i).inUse,
      (table i).name.print = .ok ((added i).chars.take fileNameMaxLen) := fun i hi =>
    (h i (List.mem_filter.1 hi).2).print
  rw [Directory.list]
  generalize (List.finRange n).filter (fun i => (table i).inUse) = l at hall ⊢
  induction l with
  | nil => rfl
  | cons i l ih =>
    rw [List.forall_mem_cons] at hall
    rw [List.mapM_cons, hall.1, ok_bind, ih hall.2]
    rfl

end Directory

/-! ### The system -/

/-- A directory and the disk with its file. For each entry the name that it was added with is
recorded, and likewise for the table that was last written to the file. -/
structure NamedDirectory (n : ℕ) where
  table : Directory n
  disk : Disk
  added : Fin n → CString
  saved : Option (Fin n → CString)

/-- A new table, a call of `Add` or `Remove`, or a transfer of the table. -/
inductive DirectoryEvent
  | new (heap : Bytes)
  | perform (r : Directory.Request)
  | writeBack (heap : Bytes)
  | fetchFrom

/-- A table of `n` entries with a file. An entry has been added when it has come into use. -/
def directorySystem (file : OpenFile) (n : ℕ) :
    StepSystem (NamedDirectory n) DirectoryEvent Fault where
  init s := (∃ heap, s.table = .new heap n) ∧ s.saved = none
  step s
    | .new heap => .ok { s with table := .new heap n }
    | .perform r =>
      let table := (s.table.perform r).2
      .ok { s with
        table := table
        added := fun i => if (table i).inUse && !(s.table i).inUse then r.name else s.added i }
    | .writeBack heap => do
      let disk ← s.table.writeBack file s.disk heap
      return { s with disk := disk, saved := some s.added }
    | .fetchFrom => do
      let table ← s.table.fetchFrom file s.disk
      return { s with table := table, added := s.saved.getD s.added }

section

variable {n : ℕ} {file : OpenFile} {s s' : NamedDirectory n} {e : DirectoryEvent}

/-- A long name is added only to an entry of which the last byte is zero. The file has room for the
table, and it is read after it has been written. -/
def KeepsEnd (file : OpenFile) (s : NamedDirectory n) : DirectoryEvent → Prop
  | .perform (.add name _) => fileNameMaxLen ≤ name.chars.length →
      s.table.findIndex name = none → ∀ i ∈ s.table.firstFree, (s.table i).name.lastByte = 0
  | .writeBack _ => file.hdr.Lists ∧ n * DirectoryEntry.layout.size ≤ file.hdr.length
  | .fetchFrom => s.saved.isSome = true
  | _ => True

/-- The names in the table have ends, and so have those in the file. -/
structure NamesEnd (file : OpenFile) (s : NamedDirectory n) : Prop where
  table : s.table.HoldsNames s.added
  file (names : Fin n → CString) : s.saved = some names →
    file.hdr.Lists ∧ n * DirectoryEntry.layout.size ≤ file.hdr.length ∧
      ∃ stored : Directory n, stored.HoldsNames names ∧
        ∀ a < n * DirectoryEntry.layout.size,
          file.hdr.byteAt s.disk a = Directory.layout.store stored a

theorem holdsNames_new (heap : Bytes) (n : ℕ) (added : Fin n → CString) :
    (Directory.new heap n).HoldsNames added :=
  fun _ hi => nomatch hi

/-- The table after a request. -/
theorem NamesEnd.perform (h : NamesEnd file s) {r : Directory.Request}
    (hc : KeepsEnd file s (.perform r)) : (s.table.perform r).2.HoldsNames fun i =>
      if ((s.table.perform r).2 i).inUse && !(s.table i).inUse then r.name else s.added i := by
  -- what a request leaves as it is
  have hkeep {table : Directory n} {name : CString} {j : Fin n} (hj : table j = s.table j)
      (huse : (table j).inUse = true) : (table j).name.Holds
        (if (table j).inUse && !(s.table j).inUse then name else s.added j) := by
    rw [hj] at huse ⊢
    rw [huse, Bool.not_true, Bool.and_false, if_neg Bool.false_ne_true]
    exact h.table j huse
  intro j
  cases r with
  | add name newSector =>
    rcases Directory.add_cases s.table name newSector with hadd | ⟨hname, i, hi, hadd⟩
    · rw [Directory.perform, hadd]
      exact hkeep rfl
    · rw [Directory.perform, hadd]
      by_cases hji : j = i
      · subst hji
        intro _
        simp only [Function.update_self, Directory.inUse_of_firstFree hi, Bool.not_false,
          Bool.and_true, if_true]
        exact (FileName.holds_strncpy_iff _ _).2 fun hlen => hc hlen hname j hi
      · exact hkeep (Function.update_of_ne hji _ _)
  | remove name =>
    rcases Directory.remove_cases s.table name with hrem | ⟨i, -, hrem⟩
    · rw [Directory.perform, hrem]
      exact hkeep rfl
    · rw [Directory.perform, hrem]
      by_cases hji : j = i
      · subst hji
        intro hj
        simp at hj
      · exact hkeep (Function.update_of_ne hji _ _)

theorem NamesEnd.writeBack (h : NamesEnd file s) {heap : Bytes} {disk : Disk}
    (hc : file.hdr.Lists ∧ n * DirectoryEntry.layout.size ≤ file.hdr.length)
    (hw : s.table.writeBack file s.disk heap = .ok disk) :
    NamesEnd file { s with disk := disk, saved := some s.added } := by
  obtain ⟨hlists, hlen⟩ := hc
  obtain ⟨disk', hwrite, hbytes, -⟩ := OpenFile.writeAt_spec hlists s.disk
    (Directory.layout.store s.table) (n * DirectoryEntry.layout.size) 0 heap
  obtain rfl : disk' = disk := by
    rw [Directory.writeBack, hwrite] at hw
    exact Except.ok.inj hw
  refine ⟨h.table, fun names hn => ?_⟩
  obtain rfl : s.added = names := Option.some.inj hn
  refine ⟨hlists, hlen, s.table, h.table, fun a ha => ?_⟩
  rw [hbytes a (ha.trans_le hlen), if_pos (by omega), Nat.sub_zero]

theorem NamesEnd.fetchFrom (h : NamesEnd file s) {names : Fin n → CString} {table : Directory n}
    (hn : s.saved = some names) (hf : s.table.fetchFrom file s.disk = .ok table) :
    table.HoldsNames names := by
  obtain ⟨hlists, hlen, stored, hstored, hbytes⟩ := h.file names hn
  rw [Directory.fetchFrom, OpenFile.readAt_eq hlists] at hf
  have hfetch := Except.ok.inj hf
  rw [Directory.layout.fetch_eq stored _ fun i hi => ?_] at hfetch
  · exact hfetch ▸ hstored
  · have hi : i < n * DirectoryEntry.layout.size := hi
    rw [if_pos (by omega), Nat.zero_add]
    exact hbytes i hi

theorem NamesEnd.step (h : NamesEnd file s) (hc : KeepsEnd file s e)
    (hs : (directorySystem file n).step s e = .ok s') : NamesEnd file s' := by
  cases e with
  | new heap =>
    cases hs
    exact ⟨holdsNames_new _ _ _, h.file⟩
  | perform r =>
    cases hs
    exact ⟨h.perform hc, h.file⟩
  | writeBack heap =>
    obtain ⟨disk, hw, hs⟩ := bind_eq_ok.1 hs
    cases hs
    exact h.writeBack hc hw
  | fetchFrom =>
    obtain ⟨table, hf, hs⟩ := bind_eq_ok.1 hs
    obtain ⟨names, hn⟩ := Option.isSome_iff_exists.1 hc
    cases hs
    refine ⟨?_, h.file⟩
    simp only [hn, Option.getD_some]
    exact h.fetchFrom hn hf

/-- In every run in which long names are added only to entries of which the last byte is zero, the
entries in use hold the names with which they were added, and `List` prints these names. -/
theorem directorySystem_names_terminated
    (h : (directorySystem file n).Reachable (KeepsEnd file) s) :
    s.table.HoldsNames s.added ∧
      s.table.list = .ok (((List.finRange n).filter fun i => (s.table i).inUse).map fun i =>
        (s.added i).chars.take fileNameMaxLen) := by
  have hinv : NamesEnd file s := h.invariant (NamesEnd file)
    (fun s hs => by
      obtain ⟨⟨heap, ht⟩, hsaved⟩ := hs
      exact ⟨ht ▸ holdsNames_new _ _ _, fun names hn => by simp [hsaved] at hn⟩)
    fun s e s' hI hc hs => hI.step hc hs
  exact ⟨hinv.table, hinv.table.list⟩

/-- A directory with one entry, of which `heap` are the bytes. -/
def oneEntry (heap : Bytes) : NamedDirectory 1 :=
  ⟨.new heap 1, fun _ _ => 0, fun _ => ⟨[], by simp⟩, none⟩

/-- The name `aaaaaaaaa`. -/
def longName : CString := ⟨List.replicate 9 97, by decide⟩

/-- A file without bytes. -/
def noBytes : OpenFile := ⟨⟨0, 0, fun _ => 0⟩⟩

theorem init_oneEntry (heap : Bytes) : (directorySystem noBytes 1).init (oneEntry heap) :=
  ⟨⟨heap, rfl⟩, rfl⟩

/-- The name `aaaaaaaaa` in a table that is filled with zeros. -/
theorem directorySystem_names_terminated_of_zeros :
    ∃ s : NamedDirectory 1, (s.table 0).inUse = true ∧ s.table.list = .ok [longName.chars] := by
  have hreach := StepSystem.Reachable.step (C := KeepsEnd noBytes)
    (i := .perform (.add longName 0)) (.init (init_oneEntry fun _ => 0)) (fun _ _ _ _ => rfl) rfl
  exact ⟨_, rfl, (directorySystem_names_terminated hreach).2⟩

/-- The name `aaaaaaaaa` in a table that is filled with ones has no end, and `List` reads beyond
it. -/
theorem directorySystem_names_run_on :
    ∃ s, (directorySystem noBytes 1).Reachable StepSystem.Always s ∧
      (s.table 0).inUse = true ∧ 0 ∉ List.ofFn (s.table 0).name ∧
      s.table.list = .error .undefined := by
  have hreach := StepSystem.Reachable.step (C := StepSystem.Always)
    (i := .perform (.add longName 0)) (.init (init_oneEntry fun _ => 255)) trivial rfl
  exact ⟨_, hreach, rfl, by decide, rfl⟩

end

end Nachos.FileSys
