import Nachos.FileSys.Consistency
import Nachos.FileSys.DirectoryMap

/-!
# Creating a file

`Create` either makes a file or changes nothing on the disk: the directory, the header and the
bitmap are written only when nothing can fail any more.

## Main definitions

* `KeepsFiles`: the files of a file system have the same names, headers and contents as before.

## Main results

* `Created.openFile`: `Open` finds the new file.
* `create_all_or_nothing`: when `Create` succeeds, and what has changed.
-/

namespace Nachos.FileSys

open Foundations UserProg

variable {fs fs' : FileSystem} {freeMap : BitMap numSectors} {table table' : Directory}
  {m d s : ℕ} {name : CString} {initialSize : ℤ} {i : Fin numDirEntries}

/-- The entries that were in use, the sectors of their files, and what these contain are the same
in a file system that is sound. -/
def KeepsFiles (fs fs' : FileSystem) (table : Directory) (m d : ℕ) : Prop :=
  ∃ freeMap' table', Sound fs' freeMap' table' m d ∧ ∀ i, (table i).inUse = true →
    table' i = table i ∧
    sectorsOf fs'.disk table' (some i) = sectorsOf fs.disk table (some i) ∧
    ∀ s ∈ sectorsOf fs.disk table (some i), fs'.disk s = fs.disk s

/-- No entry has a name if and only if none has its first characters. -/
theorem Directory.findIndex_eq_none_iff : table.findIndex name = none ↔
    ∀ i, (table i).inUse = true →
      nameKey (table i).name.charAt ≠ name.chars.take fileNameMaxLen := by
  constructor
  · intro h i hi
    rw [← nameKey_charAt]
    exact nameKey_ne_of_findIndex h hi
  · intro h
    by_contra hname
    obtain ⟨i, hi⟩ := Option.ne_none_iff_exists'.1 hname
    obtain ⟨huse, hkey⟩ := of_findIndex_eq_some hi
    exact h i huse (hkey.trans (nameKey_charAt name))

namespace Created

/-- The sector of the header of the new file. -/
theorem find_eq (h : Created fs fs' freeMap table table' m d name initialSize i s) :
    table'.find name = FileHeader.sectorNumber (some s) := by
  obtain ⟨freeMap', hsound⟩ := h.sound
  have hentry : table' i =
      ⟨true, FileHeader.sectorNumber (some s), strncpy (table i).name name⟩ := by
    rw [h.table_eq, Function.update_self]
  have hkey : nameKey (table' i).name.charAt = nameKey name.charAt := by
    rw [hentry, nameKey_strncpy]
  cases hf : table'.findIndex name with
  | none => exact absurd hkey (Directory.nameKey_ne_of_findIndex hf (by rw [hentry]))
  | some j =>
    obtain ⟨hj, hkey'⟩ := Directory.of_findIndex_eq_some hf
    obtain rfl : j = i := hsound.distinctNames j i hj (by rw [hentry])
      ((strncmpEq_iff ..).2 (hkey'.trans hkey.symm))
    rw [Directory.find, hf]
    exact congrArg DirectoryEntry.sector hentry

/-- `Open` finds the new file. -/
theorem openFile (h : Created fs fs' freeMap table table' m d name initialSize i s) (heap : Bytes) :
    ∃ file, fs'.openFile name heap = .ok (some file) ∧ file.hdr.fileLength = initialSize := by
  obtain ⟨freeMap', hsound⟩ := h.sound
  have hlt := h.lt
  have hlt' : s < 1024 := hlt
  have hs : (FileHeader.sectorNumber (some s)).toNat = s :=
    (BitVec.toNat_ofNat ..).trans (Nat.mod_eq_of_lt (hlt.trans (by decide)))
  have hnonneg : 0 ≤ (FileHeader.sectorNumber (some s)).toInt := by
    rw [BitVec.toInt_eq_toNat_of_lt (by omega)]
    omega
  refine ⟨⟨headerAt fs'.disk s⟩, ?_, h.fileLength⟩
  simp only [FileSystem.openFile, hsound.fetch_table, ok_bind, h.find_eq, hnonneg, if_true,
    OpenFile.new, FileHeader.fetchFrom, hs, Disk.readSector_of_lt hlt]
  rfl

/-- The other files are as they were. -/
theorem keepsFiles (h : Created fs fs' freeMap table table' m d name initialSize i s)
    (h₀ : Sound fs freeMap table m d) : KeepsFiles fs fs' table m d := by
  obtain ⟨freeMap', hsound⟩ := h.sound
  refine ⟨freeMap', table', hsound, fun j hj => ?_⟩
  have hji : j ≠ i := by
    rintro rfl
    exact absurd hj (by simp [h.free])
  have hentry : table' j = table j := by
    rw [h.table_eq, Function.update_of_ne hji]
  refine ⟨hentry, h₀.sectorsOf_eq h.disk_eq fun k hk => ?_, fun t ht => ?_⟩
  · cases hk
    exact hentry
  · have hne {u : ℕ} (hu : u ∈ sectorsOf fs.disk table none) : t ≠ u := by
      rintro rfl
      cases h₀.owner_eq ht hu
    rw [h₀.sectorsOf_none] at hne
    exact h.disk_eq t (h₀.isSet_of_mem ht) (hne (by simp)) (hne (by simp))

end Created

/-- `Create` succeeds if and only if no file has the name, an entry is free, and there are sectors
for the header and the data. If it fails, nothing has changed. If it succeeds, `Open` finds a file
of the given size, and all other files are as they were. -/
theorem create_all_or_nothing (h : Sound fs freeMap table m d) (name : CString)
    (h₀ : 0 ≤ initialSize) (hle : initialSize ≤ maxFileSize) (heap : ℕ → Bytes) :
    ∃ success fs', fs.create name initialSize heap = .ok (success, fs') ∧
      (success = true ↔
        (∀ i, (table i).inUse = true →
          nameKey (table i).name.charAt ≠ name.chars.take fileNameMaxLen) ∧
        (∃ i, (table i).inUse = false) ∧
        1 + FileHeader.divRoundUpInt initialSize sectorSize ≤ freeMap.freeItems.card) ∧
      (success = false → fs' = fs) ∧
      (success = true →
        (∀ heap', ∃ file, fs'.openFile name heap' = .ok (some file) ∧
          file.hdr.fileLength = initialSize) ∧
        KeepsFiles fs fs' table m d) := by
  simp only [← Directory.findIndex_eq_none_iff]
  rcases h.create_spec name h₀ hle heap with ⟨hc, hnot⟩ | ⟨fs', table', i, s, hc, hcan, hcreated⟩
  · refine ⟨false, fs, hc, iff_of_false Bool.false_ne_true fun hcan => ?_, fun _ => rfl,
      fun hf => absurd hf Bool.false_ne_true⟩
    exact hnot ⟨hcan.1, hcan.2.1, hcan.2.2⟩
  · refine ⟨true, fs', hc, iff_of_true rfl ⟨hcan.newName, hcan.entry, hcan.sectors⟩,
      fun hf => absurd hf.symm Bool.false_ne_true, fun _ => ⟨hcreated.openFile, ?_⟩⟩
    exact hcreated.keepsFiles h

/-- The first file on a disk that has been formatted. -/
theorem create_all_or_nothing_of_new :
    ∃ fs fs' : FileSystem, fs.create ⟨[97], by decide⟩ 1000 (fun _ _ => 0) = .ok (true, fs') ∧
      ∀ heap, ∃ file, fs'.openFile ⟨[97], by decide⟩ heap = .ok (some file) ∧
        file.hdr.fileLength = 1000 := by
  obtain ⟨fs, freeMap, table, m, d, -, h, hunused, hcard⟩ := new_spec (fun _ _ => 0) fun _ _ => 0
  obtain ⟨success, fs', hc, hiff, -, hopen⟩ := create_all_or_nothing h ⟨[97], by decide⟩
    (by decide : (0 : ℤ) ≤ 1000) (by decide) fun _ _ => 0
  have hs : success = true := hiff.2 ⟨fun i hi => absurd hi (by simp [hunused]), ⟨0, hunused 0⟩,
    by rw [hcard]; decide⟩
  exact ⟨fs, fs', hs ▸ hc, (hopen hs).1⟩

end Nachos.FileSys
