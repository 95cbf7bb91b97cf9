import Nachos.Foundations.Partition
import Nachos.FileSys.FileSystem

/-!
# Consistency of the file system

Every sector that the bitmap on the disk marks belongs to the file system itself or to one entry
of the directory: it is a header or contains data of one file. `Create` and `Remove` keep this,
whatever else they find on the disk.

## Main definitions

* `usedSectors`: the sectors that the headers on the disk account for.
* `Consistent`: the bitmap marks these sectors, they are distinct, and the names in the directory
  are different.
* `Sound`: the invariant, with an owner for each sector.
* `CanCreate`, `Created`: when `Create` succeeds, and what it has done then.

## Main results

* `Sound.create_spec`, `Sound.create`, `Sound.remove`: one request.
* `run_consistent`: requests to a file system on a disk that has been formatted.
-/

namespace Nachos.FileSys

open Foundations UserProg

/-- The header in a sector. -/
def headerAt (disk : Disk) (sector : ℕ) : FileHeader := FileHeader.layout.fetch (disk sector)

/-- The file system itself, or an entry of the directory. -/
abbrev Owner : Type := Option (Fin numDirEntries)

/-- The sectors of an owner: the sectors 0 and 1 and the data of the files of the bitmap and of the
directory, or the header and the data of the file of an entry that is in use. -/
def sectorsOf (disk : Disk) (table : Directory) : Owner → List ℕ
  | none =>
    [freeMapSector, directorySector] ++ (headerAt disk freeMapSector).sectors ++
      (headerAt disk directorySector).sectors
  | some i =>
    if (table i).inUse then
      (table i).sector.toNat :: (headerAt disk (table i).sector.toNat).sectors
    else []

/-- The sectors of all owners. -/
def usedSectors (disk : Disk) (table : Directory) : List ℕ :=
  (none :: (List.finRange numDirEntries).map some).flatMap (sectorsOf disk table)

/-- The file system on the disk, with the bitmap and the directory that it fetches. -/
structure Consistent (fs : FileSystem) (freeMap : BitMap numSectors) (table : Directory) :
    Prop where
  fetch_freeMap (map : BitMap numSectors) :
    BitMap.fetchFrom map fs.freeMapFile fs.disk = .ok freeMap
  fetch_table (directory : Directory) :
    directory.fetchFrom fs.directoryFile fs.disk = .ok table
  isSet_iff (s : ℕ) : freeMap.isSet s = true ↔ s ∈ usedSectors fs.disk table
  nodup : (usedSectors fs.disk table).Nodup
  lt {s : ℕ} : s ∈ usedSectors fs.disk table → s < numSectors
  distinctNames : table.DistinctNames

/-- The sectors of an owner as a set. -/
def part (disk : Disk) (table : Directory) (o : Owner) : Set ℕ := {s | s ∈ sectorsOf disk table o}

/-- The invariant. The sectors `m` and `d` contain the bitmap and the directory. -/
structure Sound (fs : FileSystem) (freeMap : BitMap numSectors) (table : Directory) (m d : ℕ) :
    Prop where
  mapHdr : headerAt fs.disk freeMapSector = fs.freeMapFile.hdr
  dirHdr : headerAt fs.disk directorySector = fs.directoryFile.hdr
  mapFile : fs.freeMapFile.IsOneSector (BitMap.layout numSectors).size m
  dirFile : fs.directoryFile.IsOneSector directoryFileSize d
  mapSectors : fs.freeMapFile.hdr.sectors = [m]
  dirSectors : fs.directoryFile.hdr.sectors = [d]
  map_bytes : ∀ i < (BitMap.layout numSectors).size,
    fs.disk m i = (BitMap.layout numSectors).store freeMap i
  table_bytes : ∀ i < directoryFileSize, fs.disk d i = Directory.layout.store table i
  partition : Partition {s | freeMap.isSet s = true} (part fs.disk table)
  nodup (o : Owner) : (sectorsOf fs.disk table o).Nodup
  headers (i : Fin numDirEntries) : (table i).inUse = true →
    (headerAt fs.disk (table i).sector.toNat).numSectors.toInt.toNat ≤ numDirect
  distinctNames : table.DistinctNames

/-- `Create` succeeds if the name is new, an entry is free, and there are sectors for the header and
the data. -/
structure CanCreate (freeMap : BitMap numSectors) (table : Directory) (name : CString)
    (initialSize : ℤ) : Prop where
  newName : table.findIndex name = none
  entry : ∃ i, (table i).inUse = false
  sectors : 1 + FileHeader.divRoundUpInt initialSize sectorSize ≤ freeMap.freeItems.card

/-- `Create` has made a file of which the entry `i` has the name and the sector `s` the header. -/
structure Created (fs fs' : FileSystem) (freeMap : BitMap numSectors) (table table' : Directory)
    (m d : ℕ) (name : CString) (initialSize : ℤ) (i : Fin numDirEntries) (s : ℕ) : Prop where
  sound : ∃ freeMap', Sound fs' freeMap' table' m d
  free : (table i).inUse = false
  table_eq : table' = Function.update table i
    ⟨true, FileHeader.sectorNumber (some s), strncpy (table i).name name⟩
  lt : s < numSectors
  fileLength : (headerAt fs'.disk s).fileLength = initialSize
  disk_eq (t : ℕ) : freeMap.isSet t = true → t ≠ m → t ≠ d → fs'.disk t = fs.disk t

namespace Sound

variable {fs : FileSystem} {freeMap freeMap' : BitMap numSectors} {table table' : Directory}
  {m d : ℕ} {disk' : Disk}

theorem isSet_of_mem (h : Sound fs freeMap table m d) {o : Owner} {s : ℕ}
    (hs : s ∈ sectorsOf fs.disk table o) : freeMap.isSet s = true :=
  (h.partition.mem_iff s).2 ⟨o, hs⟩

/-- The owner of a sector. -/
theorem owner_eq (h : Sound fs freeMap table m d) {o o' : Owner} {s : ℕ}
    (hs : s ∈ sectorsOf fs.disk table o) (hs' : s ∈ sectorsOf fs.disk table o') : o = o' :=
  h.partition.disjoint hs hs'

/-! ### What the requests fetch -/

theorem fetch_freeMap (h : Sound fs freeMap table m d) (map : BitMap numSectors) :
    BitMap.fetchFrom map fs.freeMapFile fs.disk = .ok freeMap := by
  obtain ⟨into, hread, hinto⟩ :=
    h.mapFile.readAt fs.disk ((BitMap.layout numSectors).store map) le_rfl
  simp only [BitMap.fetchFrom, hread, ok_bind]
  exact congrArg _ ((BitMap.layout numSectors).fetch_eq _ _ fun i hi =>
    (hinto i hi).trans (h.map_bytes i hi))

theorem fetch_table (h : Sound fs freeMap table m d) (directory : Directory) :
    directory.fetchFrom fs.directoryFile fs.disk = .ok table := by
  obtain ⟨into, hread, hinto⟩ := h.dirFile.readAt fs.disk (Directory.layout.store directory) le_rfl
  rw [directoryFileSize, Nat.mul_comm] at hread
  simp only [Directory.fetchFrom, hread, ok_bind]
  exact congrArg _ (Directory.layout.fetch_eq _ _ fun i hi =>
    (hinto i (by rwa [directoryFileSize, Nat.mul_comm])).trans
      (h.table_bytes i (by rwa [directoryFileSize, Nat.mul_comm])))

theorem sectorsOf_none (h : Sound fs freeMap table m d) :
    sectorsOf fs.disk table none = [freeMapSector, directorySector, m, d] := by
  simp [sectorsOf, h.mapHdr, h.dirHdr, h.mapSectors, h.dirSectors]

theorem sectorsOf_some {i : Fin numDirEntries} (hi : (table i).inUse = true) (disk : Disk) :
    sectorsOf disk table (some i) =
      (table i).sector.toNat :: (headerAt disk (table i).sector.toNat).sectors :=
  if_pos hi

theorem mem_usedSectors {disk : Disk} {s : ℕ} :
    s ∈ usedSectors disk table ↔ ∃ o, s ∈ sectorsOf disk table o := by
  simp only [usedSectors, List.mem_flatMap]
  refine exists_congr fun o => and_iff_right ?_
  cases o <;> simp

/-- The invariant in the terms of lists of sectors. -/
theorem consistent (h : Sound fs freeMap table m d) : Consistent fs freeMap table where
  fetch_freeMap := h.fetch_freeMap
  fetch_table := h.fetch_table
  isSet_iff s := (h.partition.mem_iff s).trans mem_usedSectors.symm
  nodup := by
    have howners : (none :: (List.finRange numDirEntries).map some : List Owner).Nodup :=
      List.nodup_cons.2
        ⟨by simp, (List.nodup_finRange _).map (Option.some_injective _)⟩
    exact List.nodup_flatMap.2 ⟨fun o _ => h.nodup o, howners.pairwise_of_forall_ne
      fun o _ o' _ hne s hs hs' => hne (h.owner_eq hs hs')⟩
  lt hs := BitMap.lt_of_isSet ((h.partition.mem_iff _).2 (mem_usedSectors.1 hs))
  distinctNames := h.distinctNames

/-! ### Writing to the disk -/

/-- The headers of the file system itself are not written. -/
theorem reserved_eq (h : Sound fs freeMap table m d)
    (hdisk : ∀ t, freeMap.isSet t = true → t ≠ m → t ≠ d → disk' t = fs.disk t) :
    disk' freeMapSector = fs.disk freeMapSector ∧
      disk' directorySector = fs.disk directorySector := by
  have hnodup := h.nodup none
  rw [h.sectorsOf_none] at hnodup
  have hmem {t : ℕ} (ht : t ∈ [freeMapSector, directorySector, m, d]) : freeMap.isSet t = true :=
    h.isSet_of_mem (h.sectorsOf_none ▸ ht)
  constructor
  · exact hdisk _ (hmem (by simp)) (by grind) (by grind)
  · exact hdisk _ (hmem (by simp)) (by grind) (by grind)

/-- Nor are those of the other files. -/
theorem header_eq (h : Sound fs freeMap table m d)
    (hdisk : ∀ t, freeMap.isSet t = true → t ≠ m → t ≠ d → disk' t = fs.disk t)
    {j : Fin numDirEntries} (hj : (table j).inUse = true) :
    disk' (table j).sector.toNat = fs.disk (table j).sector.toNat := by
  have hs : (table j).sector.toNat ∈ sectorsOf fs.disk table (some j) := by
    rw [sectorsOf_some hj]
    exact List.mem_cons_self
  have hne {t : ℕ} (ht : t ∈ [freeMapSector, directorySector, m, d]) :
      (table j).sector.toNat ≠ t := by
    rintro rfl
    cases h.owner_eq hs (h.sectorsOf_none ▸ ht)
  exact hdisk _ (h.isSet_of_mem hs) (hne (by simp)) (hne (by simp))

/-- The sectors of an owner whose entry stays. -/
theorem sectorsOf_eq (h : Sound fs freeMap table m d)
    (hdisk : ∀ t, freeMap.isSet t = true → t ≠ m → t ≠ d → disk' t = fs.disk t) {o : Owner}
    (ho : ∀ j, o = some j → table' j = table j) :
    sectorsOf disk' table' o = sectorsOf fs.disk table o := by
  cases o with
  | none =>
    obtain ⟨h₀, h₁⟩ := h.reserved_eq hdisk
    simp only [sectorsOf, headerAt, h₀, h₁]
  | some j =>
    simp only [sectorsOf, ho j rfl]
    split_ifs with hj
    · rw [headerAt, headerAt, h.header_eq hdisk hj]
    · rfl

/-- An entry changes together with what its owner has. -/
theorem update (h : Sound fs freeMap table m d) {i : Fin numDirEntries}
    (hdisk : ∀ t, freeMap.isSet t = true → t ≠ m → t ≠ d → disk' t = fs.disk t)
    (htable : ∀ j, j ≠ i → table' j = table j)
    (hm : ∀ a < (BitMap.layout numSectors).size,
      disk' m a = (BitMap.layout numSectors).store freeMap' a)
    (hd : ∀ a < directoryFileSize, disk' d a = Directory.layout.store table' a)
    (hpart : Partition {s | freeMap'.isSet s = true}
      (Function.update (part fs.disk table) (some i) (part disk' table' (some i))))
    (hnodup : (sectorsOf disk' table' (some i)).Nodup)
    (hheader : (table' i).inUse = true →
      (headerAt disk' (table' i).sector.toNat).numSectors.toInt.toNat ≤ numDirect)
    (hnames : table'.DistinctNames) :
    Sound { fs with disk := disk' } freeMap' table' m d := by
  obtain ⟨h₀, h₁⟩ := h.reserved_eq hdisk
  have hother {o : Owner} (ho : o ≠ some i) :
      sectorsOf disk' table' o = sectorsOf fs.disk table o :=
    h.sectorsOf_eq hdisk fun j hj => htable j fun hji => ho (hj.trans (congrArg some hji))
  refine ⟨?_, ?_, h.mapFile, h.dirFile, h.mapSectors, h.dirSectors, hm, hd, ?_, fun o => ?_,
    fun j hj => ?_, hnames⟩
  · exact (congrArg _ h₀).trans h.mapHdr
  · exact (congrArg _ h₁).trans h.dirHdr
  · have heq : part disk' table' =
        Function.update (part fs.disk table) (some i) (part disk' table' (some i)) := by
      funext o
      by_cases ho : o = some i
      · rw [ho, Function.update_self]
      · rw [Function.update_of_ne ho, part, hother ho]
        rfl
    rw [heq]
    exact hpart
  · by_cases ho : o = some i
    · exact ho ▸ hnodup
    · rw [hother ho]
      exact h.nodup o
  · by_cases hji : j = i
    · subst hji
      exact hheader hj
    · rw [htable j hji] at hj ⊢
      have hle := h.headers j hj
      rwa [headerAt, ← h.header_eq hdisk hj] at hle

/-! ### Requests -/

theorem m_ne_d (h : Sound fs freeMap table m d) : m ≠ d := by
  have hnodup := h.nodup none
  rw [h.sectorsOf_none] at hnodup
  grind

theorem isSet_m (h : Sound fs freeMap table m d) : freeMap.isSet m = true :=
  h.isSet_of_mem (h.sectorsOf_none ▸ by simp : m ∈ sectorsOf fs.disk table none)

theorem isSet_d (h : Sound fs freeMap table m d) : freeMap.isSet d = true :=
  h.isSet_of_mem (h.sectorsOf_none ▸ by simp : d ∈ sectorsOf fs.disk table none)

/-- `Find` returns -1 only for a name that no entry has. -/
theorem find_eq_neg_one (h : Sound fs freeMap table m d) (name : CString) :
    table.find name = -1 ↔ table.findIndex name = none := by
  unfold Directory.find
  rcases hi : table.findIndex name with _ | i
  · simp
  · have huse := Directory.matchesName_of_findIndex hi
    rw [Directory.matchesName, Bool.and_eq_true] at huse
    have hs : (table i).sector.toNat ∈ sectorsOf fs.disk table (some i) := by
      rw [sectorsOf_some huse.1]
      exact List.mem_cons_self
    have hlt := BitMap.lt_of_isSet (h.isSet_of_mem hs)
    simp only [reduceCtorEq, iff_false]
    intro he
    rw [he] at hlt
    exact absurd hlt (by decide)

theorem writeBack_freeMap (h : Sound fs freeMap table m d) (map : BitMap numSectors) (disk : Disk)
    (heap : Bytes) : ∃ data, BitMap.writeBack map fs.freeMapFile disk heap =
      .ok (disk.put m data) ∧
      ∀ i < (BitMap.layout numSectors).size, data i = (BitMap.layout numSectors).store map i := by
  obtain ⟨data, hwrite, hdata⟩ :=
    h.mapFile.writeAt disk ((BitMap.layout numSectors).store map) heap
  exact ⟨data, by simp only [BitMap.writeBack, hwrite, ok_bind]; rfl, hdata⟩

theorem writeBack_table (h : Sound fs freeMap table m d) (directory : Directory) (disk : Disk)
    (heap : Bytes) : ∃ data, directory.writeBack fs.directoryFile disk heap =
      .ok (disk.put d data) ∧
      ∀ i < directoryFileSize, data i = Directory.layout.store directory i := by
  obtain ⟨data, hwrite, hdata⟩ := h.dirFile.writeAt disk (Directory.layout.store directory) heap
  rw [directoryFileSize, Nat.mul_comm] at hwrite
  exact ⟨data, by simp only [Directory.writeBack, hwrite, ok_bind]; rfl, hdata⟩

/-- The disk after `Create` has written a header, the directory and the bitmap. -/
theorem disk_of_create (h : Sound fs freeMap table m d) {s : ℕ} (hfree : freeMap.isSet s = false)
    (hdr : FileHeader) (dataD dataM : Bytes)
    (hdisk : disk' = ((fs.disk.put s (FileHeader.layout.store hdr)).put d dataD).put m dataM) :
    headerAt disk' s = hdr ∧
      ∀ t, freeMap.isSet t = true → t ≠ m → t ≠ d → disk' t = fs.disk t := by
  have hsm : s ≠ m := fun he => by simp [he, h.isSet_m] at hfree
  have hsd : s ≠ d := fun he => by simp [he, h.isSet_d] at hfree
  subst hdisk
  refine ⟨FileHeader.layout.fetch_eq _ _ fun a ha => ?_, fun t hset htm htd => ?_⟩
  · rw [Disk.put_of_ne hsm, Disk.put_of_ne hsd]
    exact Disk.put_self ha
  · have hts : t ≠ s := fun he => by simp [he, hfree] at hset
    rw [Disk.put_of_ne htm, Disk.put_of_ne htd, Disk.put_of_ne hts]

/-- The file system with a new file, whose header is in the sector `s`. -/
theorem add_file (h : Sound fs freeMap table m d) {s : ℕ} (hs : s < numSectors)
    (hfree : freeMap.isSet s = false) {hdr : FileHeader}
    (ht : FileHeader.Taken (freeMap.setBit s hs) hdr hdr.numSectors.toInt.toNat freeMap')
    (hn : hdr.numSectors.toInt.toNat ≤ numDirect) {name : CString}
    (hname : table.findIndex name = none) {i : Fin numDirEntries} (hi : (table i).inUse = false)
    (htable : table' = Function.update table i
      ⟨true, FileHeader.sectorNumber (some s), strncpy (table i).name name⟩) {dataD dataM : Bytes}
    (hD : ∀ a < directoryFileSize, dataD a = Directory.layout.store table' a)
    (hM : ∀ a < (BitMap.layout numSectors).size,
      dataM a = (BitMap.layout numSectors).store freeMap' a) :
    Sound { fs with
      disk := ((fs.disk.put s (FileHeader.layout.store hdr)).put d dataD).put m dataM }
      freeMap' table' m d := by
  have hentry : table' i =
      ⟨true, FileHeader.sectorNumber (some s), strncpy (table i).name name⟩ := by
    rw [htable, Function.update_self]
  have hnum : (table' i).sector.toNat = s := by
    rw [hentry]
    simp only [FileHeader.sectorNumber, BitVec.toNat_ofNat]
    exact Nat.mod_eq_of_lt (hs.trans (by decide))
  set disk' := ((fs.disk.put s (FileHeader.layout.store hdr)).put d dataD).put m dataM with hdisk'
  obtain ⟨hheader, hkeep⟩ := h.disk_of_create hfree hdr dataD dataM hdisk'
  have hsectors : sectorsOf disk' table' (some i) = s :: hdr.sectors := by
    rw [sectorsOf_some (by rw [hentry]), hnum, hheader]
  have hfresh {t : ℕ} (htm : t ∈ s :: hdr.sectors) : freeMap.isSet t = false := by
    rcases List.mem_cons.1 htm with rfl | htm
    · exact hfree
    · have := (ht.free htm).2
      rw [BitMap.isSet_setBit, Bool.or_eq_false_iff] at this
      exact this.2
  refine h.update (i := i) hkeep (fun j hj => ?_) (fun a ha => ?_) (fun a ha => ?_) ?_ ?_
    (fun _ => ?_) ?_
  · rw [htable, Function.update_of_ne hj]
  · rw [hdisk', Disk.put_self (ha.trans_le h.mapFile.le), hM a ha]
  · rw [hdisk', Disk.put_of_ne h.m_ne_d.symm, Disk.put_self (ha.trans_le h.dirFile.le), hD a ha]
  · have hempty : part fs.disk table (some i) = ∅ := by
      simp [part, sectorsOf, hi]
    convert h.partition.take hempty (s := part disk' table' (some i)) fun t hmem => ?_ using 1
    · ext t
      simp only [Set.mem_ofPred_eq, Set.mem_union, part, hsectors, List.mem_cons, ht.isSet_iff,
        BitMap.isSet_setBit, Bool.or_eq_true, decide_eq_true_eq, FileHeader.sectors,
        eq_comm (a := s)]
      tauto
    · rw [part, Set.mem_ofPred_eq, hsectors] at hmem
      simp [hfresh hmem]
  · rw [hsectors, List.nodup_cons]
    refine ⟨fun hmem => ?_, ht.nodup⟩
    have := (ht.free hmem).2
    rw [BitMap.isSet_setBit] at this
    simp at this
  · rwa [hnum, hheader]
  · rw [htable]
    exact h.distinctNames.add hname i _

/-- `Create` makes a file, whose header counts the sectors of the data, or changes nothing. -/
theorem create_numSectors (h : Sound fs freeMap table m d) (name : CString) {initialSize : ℤ}
    (h₀ : 0 ≤ initialSize) (hle : initialSize ≤ maxFileSize) (heap : ℕ → Bytes) :
    fs.create name initialSize heap = .ok (false, fs) ∧
        ¬CanCreate freeMap table name initialSize ∨
      ∃ fs' table' i s, fs.create name initialSize heap = .ok (true, fs') ∧
        CanCreate freeMap table name initialSize ∧
        Created fs fs' freeMap table table' m d name initialSize i s ∧
        (headerAt fs'.disk s).numSectors.toInt =
          FileHeader.divRoundUpInt initialSize sectorSize := by
  obtain ⟨map₀, hnew, -⟩ := BitMap.new_spec ((BitMap.layout numSectors).fetch (heap 1)).map
  have hneeded := (FileHeader.divRoundUpInt_le h₀ hle).1
  simp only [FileSystem.create, h.fetch_table, ok_bind]
  by_cases hf : table.find name = -1
  swap
  · rw [if_pos hf]
    exact .inl ⟨rfl, fun hc => hf ((h.find_eq_neg_one name).2 hc.newName)⟩
  rw [if_neg (not_not.2 hf)]
  have hname := (h.find_eq_neg_one name).1 hf
  simp only [newFreeMap, hnew, h.fetch_freeMap, ok_bind]
  rcases freeMap.find_spec with ⟨s, hs, hfree, hfind⟩ | ⟨hempty, hfind⟩
  swap
  · simp only [hfind, ok_bind]
    refine .inl ⟨rfl, fun hc => ?_⟩
    have hsectors := hc.sectors
    rw [hempty, Finset.card_empty] at hsectors
    omega
  simp only [hfind, ok_bind]
  have hcard : (freeMap.setBit s hs).freeItems.card + 1 = freeMap.freeItems.card := by
    rw [BitMap.freeItems_setBit]
    exact Finset.card_erase_add_one (BitMap.mem_freeItems.2 ⟨hs, hfree⟩)
  rcases Directory.add_cases table name (FileHeader.sectorNumber (some s)) with
    hadd | ⟨-, i, hi, hadd⟩
  · simp only [hadd]
    refine .inl ⟨rfl, fun hc => ?_⟩
    have htrue := (Directory.add_eq_true_iff (FileHeader.sectorNumber (some s))).2 ⟨hname, hc.entry⟩
    rw [hadd] at htrue
    cases htrue
  have hi := Directory.inUse_of_firstFree hi
  simp only [hadd]
  rcases FileHeader.allocate_spec (FileHeader.layout.fetch (heap 2)) (freeMap.setBit s hs)
    h₀ hle with ⟨hdr, hal, hfull⟩ | ⟨hdr, map', hal, hbytes, hsec, ht⟩
  · simp only [hal, ok_bind]
    refine .inl ⟨rfl, fun hc => ?_⟩
    have hsectors := hc.sectors
    omega
  · simp only [hal, ok_bind, if_true, FileHeader.writeBack, Disk.writeSector_of_lt hs]
    obtain ⟨dataD, hwD, hD⟩ := h.writeBack_table (Function.update table i
      ⟨true, FileHeader.sectorNumber (some s), strncpy (table i).name name⟩)
      (fs.disk.put s (FileHeader.layout.store hdr)) (heap 3)
    obtain ⟨dataM, hwM, hM⟩ := h.writeBack_freeMap map'
      ((fs.disk.put s (FileHeader.layout.store hdr)).put d dataD) (heap 4)
    simp only [hwD, hwM, ok_bind]
    have hn := (FileHeader.divRoundUpInt_le h₀ hle).2
    obtain ⟨hheader, hkeep⟩ := h.disk_of_create hfree hdr dataD dataM rfl
    have htaken := ht.card
    exact .inr ⟨_, _, i, s, rfl, ⟨hname, ⟨i, hi⟩, by omega⟩,
      ⟨⟨map', h.add_file hs hfree ht (by omega) hname hi rfl hD hM⟩, hi, rfl, hs,
        (congrArg FileHeader.fileLength hheader).trans hbytes, hkeep⟩,
      (congrArg (fun hdr : FileHeader => hdr.numSectors.toInt) hheader).trans hsec⟩

/-- `Create` makes a file or changes nothing. -/
theorem create_spec (h : Sound fs freeMap table m d) (name : CString) {initialSize : ℤ}
    (h₀ : 0 ≤ initialSize) (hle : initialSize ≤ maxFileSize) (heap : ℕ → Bytes) :
    fs.create name initialSize heap = .ok (false, fs) ∧
        ¬CanCreate freeMap table name initialSize ∨
      ∃ fs' table' i s, fs.create name initialSize heap = .ok (true, fs') ∧
        CanCreate freeMap table name initialSize ∧
        Created fs fs' freeMap table table' m d name initialSize i s := by
  refine (h.create_numSectors name h₀ hle heap).imp_right ?_
  rintro ⟨fs', table', i, s, hc, hcan, hcreated, -⟩
  exact ⟨fs', table', i, s, hc, hcan, hcreated⟩

theorem create (h : Sound fs freeMap table m d) (name : CString) {initialSize : ℤ}
    (h₀ : 0 ≤ initialSize) (hle : initialSize ≤ maxFileSize) (heap : ℕ → Bytes) :
    ∃ success fs' freeMap' table', fs.create name initialSize heap = .ok (success, fs') ∧
      Sound fs' freeMap' table' m d := by
  rcases h.create_spec name h₀ hle heap with ⟨hc, -⟩ | ⟨fs', table', i, s, hc, -, hcreated⟩
  · exact ⟨false, fs, freeMap, table, hc, h⟩
  · obtain ⟨freeMap', h'⟩ := hcreated.sound
    exact ⟨true, fs', freeMap', table', hc, h'⟩

/-- The file system without the file of an entry. -/
theorem remove_file (h : Sound fs freeMap table m d) {i : Fin numDirEntries}
    (hmap : ∀ t, freeMap'.isSet t = true ↔
      freeMap.isSet t = true ∧ t ∉ sectorsOf fs.disk table (some i))
    (htable : table' = Function.update table i { table i with inUse := false })
    {dataD dataM : Bytes}
    (hD : ∀ a < directoryFileSize, dataD a = Directory.layout.store table' a)
    (hM : ∀ a < (BitMap.layout numSectors).size,
      dataM a = (BitMap.layout numSectors).store freeMap' a) :
    Sound { fs with disk := (fs.disk.put m dataM).put d dataD } freeMap' table' m d := by
  have hentry : (table' i).inUse = false := by
    rw [htable, Function.update_self]
  have hsectors (disk : Disk) : sectorsOf disk table' (some i) = [] := by
    simp [sectorsOf, hentry]
  refine h.update (i := i) (fun t _ htm htd => ?_) (fun j hj => ?_) (fun a ha => ?_)
    (fun a ha => ?_) ?_ ?_ (fun hu => ?_) ?_
  · rw [Disk.put_of_ne htd, Disk.put_of_ne htm]
  · rw [htable, Function.update_of_ne hj]
  · rw [Disk.put_of_ne h.m_ne_d, Disk.put_self (ha.trans_le h.mapFile.le), hM a ha]
  · rw [Disk.put_self (ha.trans_le h.dirFile.le), hD a ha]
  · convert h.partition.release (some i) using 1
    · ext t
      simp only [Set.mem_ofPred_eq, Set.mem_sdiff, part, hmap]
    · simp [part, hsectors]
  · rw [hsectors]
    exact List.nodup_nil
  · simp [hentry] at hu
  · rw [htable]
    exact h.distinctNames.remove i

/-- `Remove` gives up the entry of a name, or changes nothing because no entry has the name. -/
theorem remove_spec (h : Sound fs freeMap table m d) (name : CString) (heap : ℕ → Bytes) :
    fs.remove name heap = .ok (false, fs) ∧ table.findIndex name = none ∨
      ∃ fs' freeMap' i, fs.remove name heap = .ok (true, fs') ∧ table.findIndex name = some i ∧
        Sound fs' freeMap' (Function.update table i { table i with inUse := false }) m d ∧
        ∀ t, t ≠ m → t ≠ d → fs'.disk t = fs.disk t := by
  obtain ⟨map₀, hnew, -⟩ := BitMap.new_spec ((BitMap.layout numSectors).fetch (heap 1)).map
  simp only [FileSystem.remove, h.fetch_table, ok_bind]
  split_ifs with hf
  · exact .inl ⟨rfl, (h.find_eq_neg_one name).1 hf⟩
  · have hname : table.findIndex name ≠ none := fun he => hf ((h.find_eq_neg_one name).2 he)
    obtain ⟨i, hi⟩ := Option.ne_none_iff_exists'.1 hname
    have huse := Directory.matchesName_of_findIndex hi
    rw [Directory.matchesName, Bool.and_eq_true] at huse
    have hlist := sectorsOf_some huse.1 fs.disk
    have hfind : table.find name = (table i).sector := by simp [Directory.find, hi]
    have hset {t : ℕ} (ht : t ∈ sectorsOf fs.disk table (some i)) : freeMap.isSet t = true :=
      h.isSet_of_mem ht
    have hnodup := h.nodup (some i)
    rw [hlist] at hnodup hset
    have hs := BitMap.lt_of_isSet (hset List.mem_cons_self)
    obtain ⟨map₁, hdealloc, hmap₁⟩ := FileHeader.deallocate_spec (h.headers i huse.1)
      (List.nodup_cons.1 hnodup).2 fun t ht => hset (List.mem_cons_of_mem _ ht)
    have hremove : table.remove name =
        (true, Function.update table i { table i with inUse := false }) := by
      simp [Directory.remove, hi]
    simp only [headerAt] at hdealloc
    simp only [hfind, FileHeader.fetchFrom, Disk.readSector_of_lt hs, newFreeMap, hnew,
      h.fetch_freeMap, ok_bind, pure, Except.pure, hdealloc, BitMap.clear_of_lt _ hs, hremove]
    obtain ⟨dataM, hwM, hM⟩ := h.writeBack_freeMap (map₁.clearBit (table i).sector.toNat hs)
      fs.disk (heap 2)
    obtain ⟨dataD, hwD, hD⟩ := h.writeBack_table
      (Function.update table i { table i with inUse := false }) (fs.disk.put m dataM) (heap 3)
    simp only [hwM, hwD, ok_bind]
    refine .inr ⟨_, map₁.clearBit (table i).sector.toNat hs, i, rfl, hi,
      h.remove_file (fun t => ?_) rfl hD hM, fun t htm htd => ?_⟩
    · rw [BitMap.isSet_clearBit, Bool.and_eq_true, hmap₁, hlist, List.mem_cons]
      rw [Bool.not_eq_true', decide_eq_false_iff_not, eq_comm, not_or]
      exact and_left_comm
    · exact (Disk.put_of_ne htd).trans (Disk.put_of_ne htm)

theorem remove (h : Sound fs freeMap table m d) (name : CString) (heap : ℕ → Bytes) :
    ∃ success fs' freeMap' table', fs.remove name heap = .ok (success, fs') ∧
      Sound fs' freeMap' table' m d := by
  rcases h.remove_spec name heap with ⟨hr, -⟩ | ⟨fs', freeMap', i, hr, -, h', -⟩
  · exact ⟨false, fs, freeMap, table, hr, h⟩
  · exact ⟨true, fs', freeMap', _, hr, h'⟩

end Sound

/-! ### Formatting -/

/-- The bitmap after the sectors of the two headers have been marked. -/
theorem exists_reserved (heap : Bytes) : ∃ map₀ map₁ map₂, newFreeMap heap = .ok map₀ ∧
    map₀.mark freeMapSector = .ok map₁ ∧ map₁.mark directorySector = .ok map₂ ∧
    (∀ t, map₂.isSet t = true ↔ t = freeMapSector ∨ t = directorySector) ∧
    map₂.freeItems.card = numSectors - 2 := by
  obtain ⟨map₀, hnew, hclear⟩ := BitMap.new_spec ((BitMap.layout numSectors).fetch heap).map
  have h₀ : freeMapSector < numSectors := by decide
  have h₁ : directorySector < numSectors := by decide
  have hall : map₀.freeItems = Finset.range numSectors := by
    ext t
    simp [hclear]
  refine ⟨map₀, _, _, hnew, BitMap.mark_of_lt _ h₀, BitMap.mark_of_lt _ h₁, fun t => ?_, ?_⟩
  · rw [BitMap.isSet_setBit, BitMap.isSet_setBit, hclear, Bool.or_false, Bool.or_eq_true,
      decide_eq_true_eq, decide_eq_true_eq, eq_comm, or_comm, eq_comm]
  · have hmem : directorySector ∈ (Finset.range numSectors).erase freeMapSector :=
      Finset.mem_erase.2 ⟨by decide, Finset.mem_range.2 h₁⟩
    rw [BitMap.freeItems_setBit, BitMap.freeItems_setBit, hall, Finset.card_erase_of_mem hmem,
      Finset.card_erase_of_mem (Finset.mem_range.2 h₀), Finset.card_range, Nat.sub_sub]

/-- A file of at most one sector is allocated if a sector is free. -/
theorem exists_allocated (hdr : FileHeader) (freeMap : BitMap numSectors) {n : ℕ}
    (hpos : 0 < n) (hle : n ≤ sectorSize) (hfree : 0 < freeMap.freeItems.card) :
    ∃ hdr' map' s, hdr.allocate freeMap n = .ok (true, hdr', map') ∧
      OpenFile.IsOneSector ⟨hdr'⟩ n s ∧ hdr'.sectors = [s] ∧ freeMap.isSet s = false ∧
      (∀ t, map'.isSet t = true ↔ freeMap.isSet t = true ∨ t = s) ∧
      map'.freeItems.card + 1 = freeMap.freeItems.card := by
  have hcount : FileHeader.divRoundUpInt n sectorSize = 1 := by
    rw [FileHeader.divRoundUpInt, Int.tdiv_eq_ediv_of_nonneg (by omega),
      Int.tmod_eq_emod_of_nonneg (by omega)]
    simp only [sectorSize] at hle ⊢
    split_ifs <;> omega
  have hmax : (n : ℤ) ≤ maxFileSize := by
    simp only [sectorSize, maxFileSize, numDirect] at hle ⊢
    omega
  rcases FileHeader.allocate_spec hdr freeMap (Int.natCast_nonneg n) hmax with
    ⟨_, -, hfull⟩ | ⟨hdr', map', hal, hlen, hnum, ht⟩
  · rw [hcount] at hfull
    omega
  · have hone : hdr'.numSectors.toInt.toNat = 1 := by
      rw [hnum, hcount]
      rfl
    have hsectors : hdr'.firstSectors 1 = [(hdr'.dataSectors ⟨0, by decide⟩).toNat] :=
      FileHeader.firstSectors_succ (by decide)
    rw [hone] at ht
    have hs := ht.free (s := (hdr'.dataSectors ⟨0, by decide⟩).toNat) (by simp [hsectors])
    refine ⟨hdr', map', _, hal, ⟨hlen, rfl, hpos, hle, hs.1⟩, ?_, hs.2, fun t => ?_, ht.card⟩
    · rw [FileHeader.sectors, hone, hsectors]
    · rw [ht.isSet_iff, hsectors, List.mem_singleton]

theorem headerAt_put_self (disk : Disk) (s : ℕ) (hdr : FileHeader) :
    headerAt (disk.put s (FileHeader.layout.store hdr)) s = hdr :=
  FileHeader.layout.fetch_eq _ _ fun _ ha => Disk.put_self ha

theorem headerAt_put_of_ne {disk : Disk} {s t : ℕ} {data : Bytes} (h : t ≠ s) :
    headerAt (disk.put s data) t = headerAt disk t := by
  rw [headerAt, headerAt, Disk.put_of_ne h]

theorem openFile_new (disk : Disk) {s : ℕ} (hs : s < numSectors) :
    OpenFile.new disk s = .ok ⟨headerAt disk s⟩ := by
  simp only [OpenFile.new, FileHeader.fetchFrom, Disk.readSector_of_lt hs, ok_bind]
  rfl

/-- The file system on a disk with two headers, the bitmap and an empty directory. -/
theorem sound_of_format {mapHdr dirHdr : FileHeader} {freeMap : BitMap numSectors}
    {heap dataM dataD : Bytes} {m d : ℕ} {disk : Disk}
    (hhdr₀ : headerAt disk freeMapSector = mapHdr)
    (hhdr₁ : headerAt disk directorySector = dirHdr)
    (hfileM : OpenFile.IsOneSector ⟨mapHdr⟩ (BitMap.layout numSectors).size m)
    (hfileD : OpenFile.IsOneSector ⟨dirHdr⟩ directoryFileSize d)
    (hsecM : mapHdr.sectors = [m]) (hsecD : dirHdr.sectors = [d])
    (hnodup : [freeMapSector, directorySector, m, d].Nodup)
    (hM : ∀ a < (BitMap.layout numSectors).size,
      dataM a = (BitMap.layout numSectors).store freeMap a)
    (hD : ∀ a < directoryFileSize, dataD a = Directory.layout.store (Directory.new heap) a)
    (hset : ∀ t, freeMap.isSet t = true ↔ t ∈ [freeMapSector, directorySector, m, d]) :
    Sound ⟨⟨mapHdr⟩, ⟨dirHdr⟩, (disk.put m dataM).put d dataD⟩ freeMap (Directory.new heap)
      m d := by
  have hne : freeMapSector ≠ m ∧ freeMapSector ≠ d ∧ directorySector ≠ m ∧ directorySector ≠ d ∧
      m ≠ d := by
    grind
  obtain ⟨h₀m, h₀d, h₁m, h₁d, hmd⟩ := hne
  have hfs₀ : headerAt ((disk.put m dataM).put d dataD) freeMapSector = mapHdr := by
    rw [headerAt_put_of_ne h₀d, headerAt_put_of_ne h₀m, hhdr₀]
  have hfs₁ : headerAt ((disk.put m dataM).put d dataD) directorySector = dirHdr := by
    rw [headerAt_put_of_ne h₁d, headerAt_put_of_ne h₁m, hhdr₁]
  have hnone : sectorsOf ((disk.put m dataM).put d dataD) (Directory.new heap) none =
      [freeMapSector, directorySector, m, d] := by
    simp [sectorsOf, hfs₀, hfs₁, hsecM, hsecD]
  have hunused (i : Fin numDirEntries) : (Directory.new heap numDirEntries i).inUse = false := by
    simp only [Directory.new]
  have hsome (i : Fin numDirEntries) :
      sectorsOf ((disk.put m dataM).put d dataD) (Directory.new heap) (some i) = [] := by
    simp [sectorsOf, hunused]
  refine ⟨hfs₀, hfs₁, hfileM, hfileD, hsecM, hsecD, fun a ha => ?_, fun a ha => ?_, ?_,
    fun o => ?_, fun i hi => ?_, fun i _ hi => ?_⟩
  · dsimp only
    rw [Disk.put_of_ne hmd, Disk.put_self (ha.trans_le hfileM.le), hM a ha]
  · dsimp only
    rw [Disk.put_self (ha.trans_le hfileD.le), hD a ha]
  · convert (Partition.empty (α := ℕ) (ι := Owner)).take (i := none) rfl
      (s := {t | t ∈ [freeMapSector, directorySector, m, d]}) (fun _ _ h => h) using 1
    · ext t
      simp only [Set.mem_ofPred_eq, Set.empty_union, hset]
    · funext o
      cases o with
      | none => rw [Function.update_self, part, hnone]
      | some i =>
        rw [Function.update_of_ne (Option.some_ne_none i), part, hsome]
        simp
  · cases o with
    | none => rwa [hnone]
    | some i =>
      rw [hsome]
      exact List.nodup_nil
  · simp [hunused] at hi
  · simp [hunused] at hi

/-- The constructor formats the disk, which then has no files. -/
theorem new_spec (disk : Disk) (heap : ℕ → Bytes) : ∃ fs freeMap table m d,
    FileSystem.new true disk heap = .ok fs ∧ Sound fs freeMap table m d ∧
      (∀ i, (table i).inUse = false) ∧ freeMap.freeItems.card = numSectors - 4 := by
  have h₀ : freeMapSector < numSectors := by decide
  have h₁ : directorySector < numSectors := by decide
  have h₀₁ : freeMapSector ≠ directorySector := by decide
  obtain ⟨map₀, map₁, map₂, hnew, hmark₀, hmark₁, hmap₂, hcard⟩ := exists_reserved (heap 0)
  have hfree : 0 < map₂.freeItems.card := by
    rw [hcard]
    decide
  obtain ⟨mapHdr, map₃, m, hal₃, hfile₃, hsec₃, hm, hmap₃, hcard₃⟩ :=
    exists_allocated (FileHeader.layout.fetch (heap 2)) map₂ (n := freeMapFileSize) (by decide)
      (by decide) hfree
  have hfree₃ : 0 < map₃.freeItems.card := by
    simp only [numSectors, sectorsPerTrack, numTracks] at hcard
    omega
  obtain ⟨dirHdr, map₄, d, hal₄, hfile₄, hsec₄, hd, hmap₄, hcard₄⟩ :=
    exists_allocated (FileHeader.layout.fetch (heap 3)) map₃ (n := directoryFileSize) (by decide)
      (by decide) hfree₃
  have hfile₃ : OpenFile.IsOneSector ⟨mapHdr⟩ (BitMap.layout numSectors).size m := hfile₃
  have hset (t : ℕ) : map₄.isSet t = true ↔ t ∈ [freeMapSector, directorySector, m, d] := by
    simp only [hmap₄, hmap₃, hmap₂, List.mem_cons, List.not_mem_nil, or_false, or_assoc]
  have hm' : ¬(m = freeMapSector ∨ m = directorySector) := by
    rw [← hmap₂, hm]
    exact Bool.false_ne_true
  have hd' : ¬((d = freeMapSector ∨ d = directorySector) ∨ d = m) := by
    rw [← hmap₂, ← hmap₃, hd]
    exact Bool.false_ne_true
  have hnodup : [freeMapSector, directorySector, m, d].Nodup := by
    grind
  have hhdr₀ : headerAt ((disk.put freeMapSector (FileHeader.layout.store mapHdr)).put
      directorySector (FileHeader.layout.store dirHdr)) freeMapSector = mapHdr := by
    rw [headerAt_put_of_ne h₀₁, headerAt_put_self]
  have hhdr₁ : headerAt ((disk.put freeMapSector (FileHeader.layout.store mapHdr)).put
      directorySector (FileHeader.layout.store dirHdr)) directorySector = dirHdr :=
    headerAt_put_self ..
  rw [FileSystem.new, if_pos rfl, hnew, ok_bind, hmark₀, ok_bind, hmark₁, ok_bind, hal₃, ok_bind]
  simp only [Bool.not_true, Bool.false_eq_true, if_false]
  rw [hal₄, ok_bind]
  simp only [Bool.not_true, Bool.false_eq_true, if_false, FileHeader.writeBack,
    Disk.writeSector_of_lt h₀, Disk.writeSector_of_lt h₁, ok_bind, openFile_new _ h₀,
    openFile_new _ h₁, hhdr₀, hhdr₁]
  generalize (disk.put freeMapSector (FileHeader.layout.store mapHdr)).put directorySector
    (FileHeader.layout.store dirHdr) = disk₂ at hhdr₀ hhdr₁ ⊢
  obtain ⟨dataM, hwM, hM⟩ := hfile₃.writeAt disk₂ ((BitMap.layout numSectors).store map₄) (heap 4)
  obtain ⟨dataD, hwD, hD⟩ := hfile₄.writeAt (disk₂.put m dataM)
    (Directory.layout.store (Directory.new (heap 1))) (heap 5)
  rw [directoryFileSize, Nat.mul_comm] at hwD
  simp only [BitMap.writeBack, hwM, Directory.writeBack, hwD, ok_bind, pure, Except.pure]
  exact ⟨_, map₄, Directory.new (heap 1), m, d, rfl,
    sound_of_format hhdr₀ hhdr₁ hfile₃ hfile₄ hsec₃ hsec₄ hnodup hM hD hset, fun _ => rfl, by omega⟩

/-! ### Requests one after the other -/

theorem Sound.perform {fs : FileSystem} {freeMap : BitMap numSectors} {table : Directory}
    {m d : ℕ} (h : Sound fs freeMap table m d) (r : FileSystem.Request) :
    ∃ fs' freeMap' table', fs.perform r = .ok fs' ∧ Sound fs' freeMap' table' m d := by
  cases r with
  | create name initialSize h₀ hle heap =>
    obtain ⟨success, fs', freeMap', table', hc, h'⟩ := h.create name h₀ hle heap
    exact ⟨fs', freeMap', table', by simp [FileSystem.perform, hc], h'⟩
  | remove name heap =>
    obtain ⟨success, fs', freeMap', table', hr, h'⟩ := h.remove name heap
    exact ⟨fs', freeMap', table', by simp [FileSystem.perform, hr], h'⟩

/-- After every sequence of requests to a file system on a disk that has been formatted, no
assertion has failed, the bitmap on the disk marks the sectors that the headers on the disk account
for, these are distinct, and the files have different names. -/
theorem run_consistent (disk : Disk) (heap : ℕ → Bytes) (requests : List FileSystem.Request) :
    ∃ fs freeMap table, FileSystem.run disk heap requests = .ok fs ∧
      Consistent fs freeMap table := by
  obtain ⟨fs₀, freeMap₀, table₀, m, d, hnew, h₀, -⟩ := new_spec disk heap
  obtain ⟨fs, hrun, freeMap, table, h⟩ := foldlM_spec (g := FileSystem.perform) (l := requests)
    (fun fs => ∃ freeMap table, Sound fs freeMap table m d) ⟨freeMap₀, table₀, h₀⟩
    fun r _ fs ⟨freeMap, table, h⟩ => by
      obtain ⟨fs', freeMap', table', hp, h'⟩ := h.perform r
      exact ⟨fs', hp, freeMap', table', h'⟩
  exact ⟨fs, freeMap, table, by rw [FileSystem.run, hnew, ok_bind, hrun], h.consistent⟩

end Nachos.FileSys
