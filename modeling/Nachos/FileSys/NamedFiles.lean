import Nachos.FileSys.CreateFile
import Nachos.FileSys.FileContents
import Nachos.Foundations.NamedArrays

/-!
# Files as named arrays

What the file system is to its users: a collection of named arrays of bytes (`NamedArrays`). A file
takes up one sector for its header and the sectors of its data, four sectors belong to the file
system itself, and all others are for files. Several files may be open at the same time, and a file
may be opened more than once.

## Main definitions

* `Session`, `Session.perform`, `Session.run`: the file system with the files that are open.
* `FileHeader.Sized`: a header that `Create` has written.
* `Holds`: the disk holds the arrays. `Session.Represents`: the open files are the handles.

## Main results

* `Session.Represents.perform`: one request.
* `session_refines_namedArrays`: any sequence of requests.
-/

namespace Nachos.FileSys

open Foundations UserProg

/-! ### Requests -/

/-- A name as far as it is compared. -/
abbrev NameKey : Type := List (BitVec 8)

/-- The files: names and contents. -/
abbrev Files : Type := BoundedMap NameKey (List (BitVec 8)) numDirEntries

/-- The files and the handles to them. -/
abbrev OpenFiles : Type := NamedArrays NameKey (BitVec 8) numDirEntries

/-- What fits on the disk, and the limit of a request. -/
def diskLimits : NamedArrays.Limits where
  blocks size := 1 + (size + (sectorSize - 1)) / sectorSize
  total := numSectors - 4
  reach := 2 ^ 31

/-- The file system and the files that have been opened. -/
structure Session where
  fs : FileSystem
  opened : List PositionedFile

namespace Session

/-- A call of the file system or of an open file, or a new start of the machine. A call comes with
the contents of the memory that it allocates. -/
inductive Call
  | create (name : CString) (initialSize : ℤ) (heap : ℕ → Bytes)
  | remove (name : CString) (heap : ℕ → Bytes)
  | openFile (name : CString) (heap : Bytes)
  | access (file : ℕ) (r : CursorArray.Request (BitVec 8)) (heap : Bytes)
  | restart (heap : ℕ → Bytes)

/-- The function that is called. -/
def perform (s : Session) : Call → Except Fault (Session × NamedArrays.Reply (BitVec 8))
  | .create name initialSize heap => do
    let (success, fs) ← s.fs.create name initialSize heap
    return ({ s with fs }, .created success)
  | .remove name heap => do
    let (success, fs) ← s.fs.remove name heap
    return ({ s with fs }, .removed success)
  | .openFile name heap => do
    match ← s.fs.openFile name heap with
    | some file =>
      return ({ s with opened := s.opened ++ [⟨file, 0⟩] }, .opened (some s.opened.length))
    | none => return (s, .opened none)
  | .access k r heap =>
    match s.opened[k]? with
    | some file => do
      let (file, disk, reply) ← file.perform s.fs.disk heap r
      return ({ fs := { s.fs with disk }, opened := s.opened.set k file }, .accessed reply)
    | none => .error .undefined
  | .restart heap => do
    let fs ← FileSystem.new false s.fs.disk heap
    return ({ fs, opened := [] }, .restarted)

/-- Calls one after the other, and the replies. -/
def run (s : Session) : List Call → Except Fault (Session × List (NamedArrays.Reply (BitVec 8)))
  | [] => .ok (s, [])
  | c :: cs => do
    let (s, reply) ← s.perform c
    let (s, replies) ← s.run cs
    return (s, reply :: replies)

/-- A call in terms of names and arrays. -/
def Call.onArrays : Call → NamedArrays.Request NameKey (BitVec 8)
  | .create name initialSize _ => .create (nameKey name.charAt) initialSize.toNat
  | .remove name _ => .remove (nameKey name.charAt)
  | .openFile name _ => .openArray (nameKey name.charAt)
  | .access k r _ => .access k r
  | .restart _ => .restart

/-- A file has at most `MaxFileSize` bytes. `Create` does not check this. -/
def Call.Possible : Call → Prop
  | .create _ initialSize _ => 0 ≤ initialSize ∧ initialSize ≤ maxFileSize
  | .remove .. | .openFile .. | .access .. | .restart _ => True

instance (c : Call) : Decidable c.Possible :=
  match c with
  | .create .. => inferInstanceAs (Decidable (_ ∧ _))
  | .remove .. | .openFile .. | .access .. | .restart _ => .isTrue trivial

end Session

/-! ### Headers -/

namespace FileHeader

variable {hdr : FileHeader} {disk disk' : Disk}

/-- The header of a file that `Create` has made: it counts the sectors that the bytes need. -/
structure Sized (hdr : FileHeader) : Prop where
  nonneg : 0 ≤ hdr.fileLength
  numSectors : hdr.numSectors.toInt = divRoundUpInt hdr.fileLength sectorSize

theorem divRoundUpInt_natCast (n : ℕ) :
    divRoundUpInt n sectorSize = ((n + (sectorSize - 1)) / sectorSize : ℕ) := by
  rw [divRoundUpInt, Int.tdiv_eq_ediv_of_nonneg (by omega), Int.tmod_eq_emod_of_nonneg (by omega)]
  simp only [sectorSize]
  split_ifs <;> omega

theorem Sized.blocks_eq (h : hdr.Sized) : hdr.numSectors.toInt.toNat = hdr.blocks := by
  have hlen : (hdr.length : ℤ) = hdr.fileLength := Int.toNat_of_nonneg h.nonneg
  rw [h.numSectors, ← hlen, divRoundUpInt_natCast, Int.toNat_natCast, blocks]

theorem Sized.sectors_eq (h : hdr.Sized) : hdr.sectors = hdr.firstSectors hdr.blocks := by
  rw [sectors, h.blocks_eq]

/-- The contents of a file depend on its sectors only. -/
theorem contents_congr (h : hdr.Lists)
    (hdisk : ∀ s ∈ hdr.firstSectors hdr.blocks, disk' s = disk s) :
    hdr.contents disk' = hdr.contents disk := by
  refine List.map_congr_left fun a ha => ?_
  rw [byteAt, byteAt, hdisk _ (h.mem (div_lt_blocks (List.mem_range.1 ha)))]

end FileHeader

namespace Sound

variable {fs : FileSystem} {freeMap : BitMap numSectors} {table : Directory} {m d : ℕ}
  {i : Fin numDirEntries} {disk' : Disk}

/-- The sectors of the other owners after a transfer to the file of an entry. -/
theorem transfer_other (h : Sound fs freeMap table m d) (hi : (table i).inUse = true)
    (hdisk : ∀ t ∉ (headerAt fs.disk (table i).sector.toNat).sectors, disk' t = fs.disk t)
    {o : Owner} (ho : o ≠ some i) {t : ℕ} (ht : t ∈ sectorsOf fs.disk table o) :
    disk' t = fs.disk t :=
  hdisk t fun hdata => ho (h.owner_eq ht (sectorsOf_some hi fs.disk ▸
    List.mem_cons_of_mem _ hdata))

/-- The header of an entry after a transfer. -/
theorem headerAt_transfer (h : Sound fs freeMap table m d) (hi : (table i).inUse = true)
    (hdisk : ∀ t ∉ (headerAt fs.disk (table i).sector.toNat).sectors, disk' t = fs.disk t)
    {j : Fin numDirEntries} (hj : (table j).inUse = true) :
    headerAt disk' (table j).sector.toNat = headerAt fs.disk (table j).sector.toNat := by
  rw [headerAt, headerAt]
  congr 1
  by_cases hji : j = i
  · have hnodup := h.nodup (some i)
    rw [sectorsOf_some hi] at hnodup
    exact hji ▸ hdisk _ (List.nodup_cons.1 hnodup).1
  · refine h.transfer_other hi hdisk (o := some j) (by simpa using hji) ?_
    rw [sectorsOf_some hj]
    exact List.mem_cons_self

/-- A transfer to a file changes no sector that the file system relies on. -/
theorem transfer (h : Sound fs freeMap table m d) (hi : (table i).inUse = true)
    (hdisk : ∀ t ∉ (headerAt fs.disk (table i).sector.toNat).sectors, disk' t = fs.disk t) :
    Sound { fs with disk := disk' } freeMap table m d := by
  have hnone {t : ℕ} (ht : t ∈ [freeMapSector, directorySector, m, d]) : disk' t = fs.disk t :=
    h.transfer_other hi hdisk (Option.some_ne_none i).symm (h.sectorsOf_none ▸ ht)
  have hsectors (o : Owner) : sectorsOf disk' table o = sectorsOf fs.disk table o := by
    cases o with
    | none => simp only [sectorsOf, headerAt, hnone (t := freeMapSector) (by simp),
        hnone (t := directorySector) (by simp)]
    | some j =>
      by_cases hj : (table j).inUse = true
      · rw [sectorsOf_some hj, sectorsOf_some hj, h.headerAt_transfer hi hdisk hj]
      · simp [sectorsOf, hj]
  refine ⟨?_, ?_, h.mapFile, h.dirFile, h.mapSectors, h.dirSectors, ?_, ?_, ?_, fun o => ?_,
    fun j hj => ?_, h.distinctNames⟩
  · exact (congrArg FileHeader.layout.fetch (hnone (by simp))).trans h.mapHdr
  · exact (congrArg FileHeader.layout.fetch (hnone (by simp))).trans h.dirHdr
  · dsimp only
    rw [hnone (by simp)]
    exact h.map_bytes
  · dsimp only
    rw [hnone (by simp)]
    exact h.table_bytes
  · convert h.partition using 1
    funext o
    simp only [part, hsectors]
  · exact hsectors o ▸ h.nodup o
  · dsimp only
    rw [h.headerAt_transfer hi hdisk hj]
    exact h.headers j hj

end Sound

/-! ### The files on the disk -/

/-- The disk holds the files. The directory stands for a map from names to sectors, which are those
of the headers of the files. -/
structure Holds (fs : FileSystem) (freeMap : BitMap numSectors) (table : Directory) (m d : ℕ)
    (sectors : BoundedMap NameKey (BitVec 32) numDirEntries) (files : Files) : Prop where
  sound : Sound fs freeMap table m d
  names : table.Represents sectors
  sized (i : Fin numDirEntries) : (table i).inUse = true →
    (headerAt fs.disk (table i).sector.toNat).Sized
  lookup_eq (key : NameKey) : files.lookup key =
    (sectors.lookup key).map fun s => (headerAt fs.disk s.toNat).contents fs.disk

/-- The file of a name stays in the same sectors. -/
def KeepsHeaders (fs fs' : FileSystem)
    (sectors sectors' : BoundedMap NameKey (BitVec 32) numDirEntries) (key : NameKey) : Prop :=
  ∀ sector, sectors.lookup key = some sector → sectors'.lookup key = some sector ∧
    headerAt fs'.disk sector.toNat = headerAt fs.disk sector.toNat

namespace Holds

variable {fs fs' : FileSystem} {freeMap freeMap' : BitMap numSectors} {table table' : Directory}
  {m d : ℕ} {sectors sectors' : BoundedMap NameKey (BitVec 32) numDirEntries} {files : Files}
  {i : Fin numDirEntries} {name : CString} {key : NameKey} {disk' : Disk}

/-- The header of a file lists sectors that are distinct. -/
theorem lists (h : Holds fs freeMap table m d sectors files) (hi : (table i).inUse = true) :
    (headerAt fs.disk (table i).sector.toNat).Lists := by
  have hsized := h.sized i hi
  have hlist := Sound.sectorsOf_some hi fs.disk
  rw [hsized.sectors_eq] at hlist
  have hnodup := h.sound.nodup (some i)
  rw [hlist] at hnodup
  refine ⟨?_, (List.nodup_cons.1 hnodup).2, fun s hs => ?_⟩
  · rw [← hsized.blocks_eq]
    exact h.sound.headers i hi
  · exact BitMap.lt_of_isSet (h.sound.isSet_of_mem (o := some i)
      (hlist ▸ List.mem_cons_of_mem _ hs))

/-- A file whose sectors stay as they are keeps its header and its contents. -/
theorem kept (h : Holds fs freeMap table m d sectors files) (disk' : Disk)
    (hi : (table i).inUse = true)
    (hdisk : ∀ s ∈ sectorsOf fs.disk table (some i), disk' s = fs.disk s) :
    headerAt disk' (table i).sector.toNat = headerAt fs.disk (table i).sector.toNat ∧
      (headerAt fs.disk (table i).sector.toNat).contents disk' =
        (headerAt fs.disk (table i).sector.toNat).contents fs.disk := by
  rw [Sound.sectorsOf_some hi, (h.sized i hi).sectors_eq] at hdisk
  exact ⟨by rw [headerAt, headerAt, hdisk _ List.mem_cons_self],
    FileHeader.contents_congr (h.lists hi) fun s hs => hdisk s (List.mem_cons_of_mem _ hs)⟩

/-- `FindIndex` fails if and only if there is no file of the name. -/
theorem lookup_eq_none_iff (h : Holds fs freeMap table m d sectors files) (name : CString) :
    files.lookup (nameKey name.charAt) = none ↔ table.findIndex name = none := by
  rw [h.lookup_eq, Option.map_eq_none_iff, h.names.lookup_eq_none_iff]

/-! ### Space on the disk -/

/-- The weight of the files, entry by entry. -/
theorem weight_eq (h : Holds fs freeMap table m d sectors files) (f : List (BitVec 8) → ℕ) :
    files.weight f = ∑ i with (table i).inUse = true,
      f ((headerAt fs.disk (table i).sector.toNat).contents fs.disk) := by
  have hkeys : ∀ key, files.lookup key ≠ none → key ∈ (Finset.univ.filter fun i =>
      (table i).inUse = true).image fun i => nameKey (table i).name.charAt := fun key hkey => by
    rw [h.lookup_eq, Ne, Option.map_eq_none_iff] at hkey
    obtain ⟨sector, hs⟩ := Option.ne_none_iff_exists'.1 hkey
    obtain ⟨i, huse, rfl, -⟩ := (h.names.lookup_iff _ _).1 hs
    exact Finset.mem_image_of_mem _ (by simpa using huse)
  rw [BoundedMap.weight_eq_sum hkeys, Finset.sum_image]
  · refine Finset.sum_congr rfl fun i hi => ?_
    have huse : (table i).inUse = true := by simpa using hi
    rw [h.lookup_eq, (h.names.lookup_iff _ _).2 ⟨i, huse, rfl, rfl⟩, Option.map_some,
      Option.elim_some]
  · intro i hi j hj hij
    exact h.names.distinct i j (by simpa using hi) (by simpa using hj) ((strncmpEq_iff ..).2 hij)

theorem size_eq (h : Holds fs freeMap table m d sectors files) : files.size = table.numInUse := by
  rw [BoundedMap.size_eq_weight, h.weight_eq, Directory.numInUse, Finset.card_eq_sum_ones]

/-- The sectors of an entry. -/
theorem length_sectorsOf (h : Holds fs freeMap table m d sectors files) (i : Fin numDirEntries) :
    (sectorsOf fs.disk table (some i)).length = if (table i).inUse = true then
      diskLimits.blocks ((headerAt fs.disk (table i).sector.toNat).contents fs.disk).length
    else 0 := by
  by_cases hi : (table i).inUse = true
  · rw [if_pos hi, Sound.sectorsOf_some hi, (h.sized i hi).sectors_eq, List.length_cons,
      FileHeader.firstSectors_eq (h.lists hi).le, List.length_map, List.length_range,
      FileHeader.length_contents, Nat.add_comm]
    rfl
  · simp [sectorsOf, hi]

/-- Every sector is free, or is taken up by a file, or belongs to the file system itself. -/
theorem card_freeItems (h : Holds fs freeMap table m d sectors files) :
    freeMap.freeItems.card + files.weight (fun items => diskLimits.blocks items.length) =
      diskLimits.total := by
  have hc := h.sound.consistent
  have hset : (Finset.range numSectors).filter (fun s => ¬freeMap.isSet s = false) =
      (usedSectors fs.disk table).toFinset := by
    ext s
    simp only [Finset.mem_filter, Finset.mem_range, List.mem_toFinset, Bool.not_eq_false,
      hc.isSet_iff, and_iff_right_iff_imp]
    exact hc.lt
  have hcard := Finset.card_filter_add_card_filter_not (s := Finset.range numSectors)
    (fun s => freeMap.isSet s = false)
  rw [hset, List.toFinset_card_of_nodup hc.nodup, Finset.card_range] at hcard
  have hlength : (usedSectors fs.disk table).length =
      4 + files.weight fun items => diskLimits.blocks items.length := by
    rw [h.weight_eq, Finset.sum_filter, usedSectors, List.flatMap_cons, List.length_append,
      h.sound.sectorsOf_none, List.length_flatMap, List.map_map, ← List.ofFn_eq_map, List.sum_ofFn]
    exact congrArg _ (Finset.sum_congr rfl fun i _ => h.length_sectorsOf i)
  rw [hlength] at hcard
  simp only [diskLimits, BitMap.freeItems] at hcard ⊢
  omega

/-! ### Requests to the file system -/

/-- A file whose sectors stay as they are, by its name. -/
theorem kept_of_lookup (h : Holds fs freeMap table m d sectors files) (disk' : Disk)
    {sector : BitVec 32} (hs : sectors.lookup key = some sector)
    (hdisk : ∀ i, (table i).inUse = true → nameKey (table i).name.charAt = key →
      ∀ t ∈ sectorsOf fs.disk table (some i), disk' t = fs.disk t) :
    headerAt disk' sector.toNat = headerAt fs.disk sector.toNat ∧
      (headerAt fs.disk sector.toNat).contents disk' =
        (headerAt fs.disk sector.toNat).contents fs.disk := by
  obtain ⟨i, huse, hkey, rfl⟩ := (h.names.lookup_iff _ _).1 hs
  exact h.kept disk' huse (hdisk i huse hkey)

/-- `Create` succeeds if and only if there is room for the file. -/
theorem canCreate_iff (h : Holds fs freeMap table m d sectors files) (name : CString) (size : ℕ) :
    CanCreate freeMap table name size ↔ files.lookup (nameKey name.charAt) = none ∧
      files.size < numDirEntries ∧ files.weight (fun items => diskLimits.blocks items.length) +
        diskLimits.blocks size ≤ diskLimits.total := by
  have hcard := h.card_freeItems
  have hblocks : 1 + FileHeader.divRoundUpInt size sectorSize = diskLimits.blocks size := by
    rw [FileHeader.divRoundUpInt_natCast]
    rfl
  constructor
  · rintro ⟨hname, hentry, hsectors⟩
    refine ⟨(h.lookup_eq_none_iff name).2 hname, ?_, by omega⟩
    rw [h.size_eq]
    exact Directory.numInUse_lt_iff.2 hentry
  · rintro ⟨hname, hsize, hblocks⟩
    refine ⟨(h.lookup_eq_none_iff name).1 hname, Directory.numInUse_lt_iff.1 ?_, by omega⟩
    rwa [← h.size_eq]

/-- The disk holds a file that `Create` has made beside the others. -/
theorem created (h : Holds fs freeMap table m d sectors files) {size s : ℕ}
    (hcan : CanCreate freeMap table name size)
    (hc : Created fs fs' freeMap table table' m d name size i s)
    (hnum : (headerAt fs'.disk s).numSectors.toInt = FileHeader.divRoundUpInt size sectorSize) :
    ∃ freeMap' sectors' fresh,
      Holds fs' freeMap' table' m d sectors'
        (files.add (nameKey name.charAt) ((List.range size).map fresh)).2 ∧
      ∀ key, KeepsHeaders fs fs' sectors sectors' key := by
  have hkeeps := hc.keepsFiles h.sound
  obtain ⟨freeMap', hsound⟩ := hc.sound
  obtain ⟨_, _, _, hkept⟩ := hkeeps
  obtain ⟨hnone, hsize, -⟩ := (h.canCreate_iff name size).1 hcan
  have hnum' : (FileHeader.sectorNumber (some s)).toNat = s := by
    rw [FileHeader.sectorNumber, BitVec.toNat_ofNat]
    exact Nat.mod_eq_of_lt (hc.lt.trans (by decide))
  have hlength : (headerAt fs'.disk s).length = size := by
    rw [FileHeader.length, hc.fileLength, Int.toNat_natCast]
  have hadd : (sectors.add (nameKey name.charAt) (FileHeader.sectorNumber (some s))).1 = true := by
    rw [BoundedMap.add_eq_true_iff, h.names.lookup_eq_none_iff, h.names.card_keys]
    exact ⟨hcan.newName, Directory.numInUse_lt_iff.2 hcan.entry⟩
  have hadd' : (files.add (nameKey name.charAt)
      ((List.range size).map ((headerAt fs'.disk s).byteAt fs'.disk))).1 = true :=
    BoundedMap.add_eq_true_iff.2 ⟨hnone, hsize⟩
  have hother {key : NameKey} {sector : BitVec 32} (hs : sectors.lookup key = some sector) :=
    h.kept_of_lookup fs'.disk hs fun j huse _ t ht => (hkept j huse).2.2 t ht
  refine ⟨freeMap', (sectors.add (nameKey name.charAt) (FileHeader.sectorNumber (some s))).2,
    (headerAt fs'.disk s).byteAt fs'.disk, ⟨hsound, ?_, fun j hj => ?_, fun key => ?_⟩,
    fun key sector hs => ⟨?_, (hother hs).1⟩⟩
  · rw [hc.table_eq]
    exact h.names.update_add hcan.newName hc.free hadd
  · by_cases hji : j = i
    · subst hji
      have hsector : (table' j).sector.toNat = s := by
        rw [hc.table_eq, Function.update_self]
        exact hnum'
      rw [hsector]
      exact ⟨by rw [hc.fileLength]; omega, by rw [hnum, hc.fileLength]⟩
    · rw [hc.table_eq, Function.update_of_ne hji] at hj ⊢
      have hs := (h.names.lookup_iff _ _).2 ⟨j, hj, rfl, rfl⟩
      rw [(hother hs).1]
      exact h.sized j hj
  · rw [BoundedMap.lookup_add hadd, BoundedMap.lookup_add hadd']
    split_ifs
    · rw [Option.map_some, hnum', FileHeader.contents, hlength]
    · rw [h.lookup_eq]
      refine Option.map_congr fun sector hs => ?_
      rw [(hother hs).1, (hother hs).2]
  · rw [BoundedMap.lookup_add hadd, if_neg]
    · exact hs
    · rintro rfl
      rw [h.lookup_eq, hs] at hnone
      cases hnone

/-- The disk holds the other files after a file has been removed. -/
theorem removed (h : Holds fs freeMap table m d sectors files)
    (hname : table.findIndex name = some i)
    (hsound : Sound fs' freeMap' (Function.update table i { table i with inUse := false }) m d)
    (hdisk : ∀ t, t ≠ m → t ≠ d → fs'.disk t = fs.disk t) :
    Holds fs' freeMap' (Function.update table i { table i with inUse := false }) m d
        (sectors.remove (nameKey name.charAt)).2 (files.remove (nameKey name.charAt)).2 ∧
      ∀ key ≠ nameKey name.charAt,
        KeepsHeaders fs fs' sectors (sectors.remove (nameKey name.charAt)).2 key := by
  have hfind : table.findIndex name ≠ none := by simp [hname]
  have hrem : (sectors.remove (nameKey name.charAt)).1 = true := by
    rwa [BoundedMap.remove_eq_true_iff, Ne, h.names.lookup_eq_none_iff]
  have hrem' : (files.remove (nameKey name.charAt)).1 = true := by
    rwa [BoundedMap.remove_eq_true_iff, Ne, h.lookup_eq_none_iff]
  have hother {key : NameKey} {sector : BitVec 32} (hs : sectors.lookup key = some sector) :=
    h.kept_of_lookup fs'.disk hs fun j huse _ t ht => by
      have hne {u : ℕ} (hu : u ∈ sectorsOf fs.disk table none) : t ≠ u := by
        rintro rfl
        cases h.sound.owner_eq ht hu
      rw [h.sound.sectorsOf_none] at hne
      exact hdisk t (hne (by simp)) (hne (by simp))
  refine ⟨⟨hsound, h.names.update_remove hname hrem, fun j hj => ?_, fun key => ?_⟩,
    fun key hkey sector hs => ⟨?_, (hother hs).1⟩⟩
  · by_cases hji : j = i
    · subst hji
      simp at hj
    · rw [Function.update_of_ne hji] at hj ⊢
      rw [(hother ((h.names.lookup_iff _ _).2 ⟨j, hj, rfl, rfl⟩)).1]
      exact h.sized j hj
  · rw [BoundedMap.lookup_remove hrem, BoundedMap.lookup_remove hrem']
    split_ifs
    · rfl
    · rw [h.lookup_eq]
      refine Option.map_congr fun sector hs => ?_
      rw [(hother hs).1, (hother hs).2]
  · rw [BoundedMap.lookup_remove hrem, if_neg hkey.symm, hs]

/-- `Open` fetches the header of the file. -/
theorem openFile (h : Holds fs freeMap table m d sectors files) (name : CString) (heap : Bytes) :
    fs.openFile name heap = .ok ((sectors.lookup (nameKey name.charAt)).map fun sector =>
      ⟨headerAt fs.disk sector.toNat⟩) := by
  simp only [FileSystem.openFile, h.sound.fetch_table, ok_bind, h.names.find_eq]
  cases hs : sectors.lookup (nameKey name.charAt) with
  | none => rfl
  | some sector =>
    obtain ⟨i, huse, -, rfl⟩ := (h.names.lookup_iff _ _).1 hs
    have hmem : (table i).sector.toNat ∈ sectorsOf fs.disk table (some i) := by
      rw [Sound.sectorsOf_some huse]
      exact List.mem_cons_self
    have hlt := BitMap.lt_of_isSet (h.sound.isSet_of_mem hmem)
    have hlt' : (table i).sector.toNat < 1024 := hlt
    have hnonneg : 0 ≤ (table i).sector.toInt := by
      rw [BitVec.toInt_eq_toNat_of_lt (by omega)]
      omega
    simp only [Option.getD_some, hnonneg, if_true, openFile_new _ hlt, ok_bind]
    rfl

/-- The disk holds the same files after a restart. -/
theorem restart (h : Holds fs freeMap table m d sectors files) (heap : ℕ → Bytes) :
    FileSystem.new false fs.disk heap = .ok fs := by
  rw [FileSystem.new, if_neg Bool.false_ne_true, openFile_new _ (by decide), ok_bind,
    openFile_new _ (by decide), ok_bind, h.sound.mapHdr, h.sound.dirHdr]
  rfl

/-- The disk holds a file whose bytes have been changed beside the others. -/
theorem transferred (h : Holds fs freeMap table m d sectors files) {sector : BitVec 32}
    (hs : sectors.lookup key = some sector)
    (hdisk : ∀ t ∉ (headerAt fs.disk sector.toNat).firstSectors
      (headerAt fs.disk sector.toNat).blocks, disk' t = fs.disk t) :
    Holds { fs with disk := disk' } freeMap table m d sectors
        (files.replace key ((headerAt fs.disk sector.toNat).contents disk')) ∧
      ∀ key', KeepsHeaders fs { fs with disk := disk' } sectors sectors key' := by
  obtain ⟨i, huse, rfl, rfl⟩ := (h.names.lookup_iff _ _).1 hs
  rw [← (h.sized i huse).sectors_eq] at hdisk
  have hheader {j : Fin numDirEntries} := h.sound.headerAt_transfer huse hdisk (j := j)
  have hother {key' : NameKey} (hne : nameKey (table i).name.charAt ≠ key') {sector' : BitVec 32}
      (hs' : sectors.lookup key' = some sector') :=
    h.kept_of_lookup disk' hs' fun j _ hj t ht => by
      refine h.sound.transfer_other huse hdisk (o := some j) (fun hji => ?_) ht
      cases hji
      exact hne hj
  have hfile : files.lookup (nameKey (table i).name.charAt) ≠ none := by
    rw [h.lookup_eq, hs]
    exact Option.some_ne_none _
  refine ⟨⟨h.sound.transfer huse hdisk, h.names, fun j hj => ?_, fun key' => ?_⟩,
    fun key' sector' hs' => ⟨hs', ?_⟩⟩
  · exact (hheader hj).symm ▸ h.sized j hj
  · rw [BoundedMap.lookup_replace hfile]
    split_ifs with hkey
    · rw [← hkey, hs, Option.map_some, hheader huse]
    · rw [h.lookup_eq]
      refine Option.map_congr fun sector' hs' => ?_
      rw [(hother hkey hs').1, (hother hkey hs').2]
  · obtain ⟨j, huse', -, rfl⟩ := (h.names.lookup_iff _ _).1 hs'
    exact hheader huse'

end Holds

/-! ### Open files -/

/-- An open file is the one that a handle stands for, unless the handle is dead. -/
def Refers (fs : FileSystem) (sectors : BoundedMap NameKey (BitVec 32) numDirEntries)
    (file : PositionedFile) (handle : Option (NameKey × ℕ)) : Prop :=
  ∀ key p, handle = some (key, p) → file.seekPosition = p ∧
    ∃ sector, sectors.lookup key = some sector ∧ file.hdr = headerAt fs.disk sector.toNat

/-- The open files are those that the handles stand for. -/
structure RefersAll (fs : FileSystem) (sectors : BoundedMap NameKey (BitVec 32) numDirEntries)
    (opened : List PositionedFile) (handles : List (Option (NameKey × ℕ))) : Prop where
  length_eq : opened.length = handles.length
  refers {k : ℕ} {file : PositionedFile} {handle : Option (NameKey × ℕ)} :
    opened[k]? = some file → handles[k]? = some handle → Refers fs sectors file handle

section

variable {fs fs' : FileSystem} {sectors sectors' : BoundedMap NameKey (BitVec 32) numDirEntries}
  {opened : List PositionedFile} {handles : List (Option (NameKey × ℕ))} {file : PositionedFile}
  {handle : Option (NameKey × ℕ)} {k : ℕ} {key : NameKey}

theorem Refers.keep (h : Refers fs sectors file handle)
    (hkeep : ∀ key p, handle = some (key, p) → KeepsHeaders fs fs' sectors sectors' key) :
    Refers fs' sectors' file handle := by
  intro key p hp
  obtain ⟨hpos, sector, hs, hhdr⟩ := h key p hp
  obtain ⟨hs', hhdr'⟩ := hkeep key p hp sector hs
  exact ⟨hpos, sector, hs', hhdr.trans hhdr'.symm⟩

namespace RefersAll

theorem keep (h : RefersAll fs sectors opened handles)
    (hkeep : ∀ key, KeepsHeaders fs fs' sectors sectors' key) :
    RefersAll fs' sectors' opened handles :=
  ⟨h.length_eq, fun hfile hhandle => (h.refers hfile hhandle).keep fun key _ _ => hkeep key⟩

theorem forget (h : RefersAll fs sectors opened handles)
    (hkeep : ∀ key' ≠ key, KeepsHeaders fs fs' sectors sectors' key') :
    RefersAll fs' sectors' opened (handles.map (NamedArrays.forget key)) := by
  refine ⟨by rw [List.length_map, h.length_eq], fun hfile hhandle => ?_⟩
  rw [List.getElem?_map, Option.map_eq_some_iff] at hhandle
  obtain ⟨handle, hhandle, rfl⟩ := hhandle
  intro key' p hp
  rcases handle with _ | ⟨key₀, p₀⟩
  · cases hp
  · rw [NamedArrays.forget] at hp
    split_ifs at hp with hne
    exact ((h.refers hfile hhandle).keep fun key p hp => hkeep key fun he =>
      hne (by cases hp; exact he)) key' p hp

theorem append (h : RefersAll fs sectors opened handles) (hfile : Refers fs sectors file handle) :
    RefersAll fs sectors (opened ++ [file]) (handles ++ [handle]) := by
  refine ⟨by simp [h.length_eq], fun {k} _ _ hf hh => ?_⟩
  rcases Nat.lt_or_ge k opened.length with hk | hk
  · rw [List.getElem?_append_left hk] at hf
    rw [List.getElem?_append_left (h.length_eq ▸ hk)] at hh
    exact h.refers hf hh
  · rw [List.getElem?_append_right hk] at hf
    rw [List.getElem?_append_right (h.length_eq ▸ hk), ← h.length_eq] at hh
    rw [List.getElem?_singleton] at hf hh
    split_ifs at hf hh
    cases hf
    cases hh
    exact hfile

theorem set (h : RefersAll fs sectors opened handles) (hfile : Refers fs sectors file handle) :
    RefersAll fs sectors (opened.set k file) (handles.set k handle) := by
  refine ⟨by simp [h.length_eq], fun {k'} _ _ hf hh => ?_⟩
  rw [List.getElem?_set] at hf hh
  rw [h.length_eq] at hf
  split_ifs at hf hh
  · cases hf
    cases hh
    exact hfile
  · exact h.refers hf hh

end RefersAll

end

/-- The disk holds the arrays, and the open files are the handles. -/
def Session.Represents (s : Session) (a : OpenFiles) : Prop :=
  ∃ freeMap table m d sectors, Holds s.fs freeMap table m d sectors a.arrays ∧
    RefersAll s.fs sectors s.opened a.opened

/-! ### Requests -/

namespace Session

variable {s : Session} {a : OpenFiles}

/-- `Create` makes an array if there is room for it. -/
theorem Represents.fs_create (h : s.Represents a) (name : CString) {size : ℕ}
    (hle : size ≤ maxFileSize) (heap : ℕ → Bytes) :
    (a.HasRoom diskLimits (nameKey name.charAt) size → ∃ fs' fresh,
      s.fs.create name size heap = .ok (true, fs') ∧
      Represents { s with fs := fs' } { a with
        arrays := (a.arrays.add (nameKey name.charAt) ((List.range size).map fresh)).2 }) ∧
    (¬a.HasRoom diskLimits (nameKey name.charAt) size →
      s.fs.create name size heap = .ok (false, s.fs)) := by
  obtain ⟨freeMap, table, m, d, sectors, hholds, hopened⟩ := h
  have hiff := hholds.canCreate_iff name size
  rcases hholds.sound.create_numSectors name (Int.natCast_nonneg size) (by exact_mod_cast hle) heap
    with ⟨hc, hnot⟩ | ⟨fs', table', i, t, hc, hcan, hcreated, hnum⟩
  · exact ⟨fun hroom => absurd (hiff.2 hroom) hnot, fun _ => hc⟩
  · obtain ⟨freeMap', sectors', fresh, hholds', hkeep⟩ := hholds.created hcan hcreated hnum
    exact ⟨fun _ => ⟨fs', fresh, hc, freeMap', table', m, d, sectors', hholds', hopened.keep hkeep⟩,
      fun hroom => absurd (hiff.1 hcan) hroom⟩

/-- `Remove` removes an array, if there is one of the name. -/
theorem Represents.fs_remove (h : s.Represents a) (name : CString) (heap : ℕ → Bytes) :
    (a.arrays.lookup (nameKey name.charAt) = none → s.fs.remove name heap = .ok (false, s.fs)) ∧
    (a.arrays.lookup (nameKey name.charAt) ≠ none → ∃ fs',
      s.fs.remove name heap = .ok (true, fs') ∧ Represents { s with fs := fs' }
        { arrays := (a.arrays.remove (nameKey name.charAt)).2,
          opened := a.opened.map (NamedArrays.forget (nameKey name.charAt)) }) := by
  obtain ⟨freeMap, table, m, d, sectors, hholds, hopened⟩ := h
  have hiff := hholds.lookup_eq_none_iff name
  rcases hholds.sound.remove_spec name heap with
    ⟨hr, hname⟩ | ⟨fs', freeMap', i, hr, hname, hsound, hdisk⟩
  · exact ⟨fun _ => hr, fun hne => absurd (hiff.2 hname) hne⟩
  · obtain ⟨hholds', hkeep⟩ := hholds.removed hname hsound hdisk
    exact ⟨fun hnone => by simp [hiff.1 hnone] at hname,
      fun _ => ⟨fs', hr, freeMap', _, m, d, _, hholds', hopened.forget hkeep⟩⟩

theorem Represents.create (h : s.Represents a) (name : CString) (size : ℕ)
    (hle : size ≤ maxFileSize) (heap : ℕ → Bytes) :
    ∃ fresh, ∀ a' reply,
      a.perform diskLimits fresh (.create (nameKey name.charAt) size) = some (a', reply) →
      ∃ s', s.perform (.create name size heap) = .ok (s', reply) ∧ s'.Represents a' := by
  obtain ⟨hsuccess, hfailure⟩ := h.fs_create name hle heap
  by_cases hroom : a.HasRoom diskLimits (nameKey name.charAt) size
  · obtain ⟨fs', fresh, hc, h'⟩ := hsuccess hroom
    refine ⟨fresh, fun a' reply hp => ?_⟩
    rw [NamedArrays.perform, if_pos hroom] at hp
    obtain ⟨rfl, rfl⟩ := Prod.mk.inj (Option.some.inj hp)
    exact ⟨{ s with fs := fs' }, by simp only [perform, hc, ok_bind]; rfl, h'⟩
  · refine ⟨fun _ => 0, fun a' reply hp => ?_⟩
    rw [NamedArrays.perform, if_neg hroom] at hp
    obtain ⟨rfl, rfl⟩ := Prod.mk.inj (Option.some.inj hp)
    exact ⟨s, by simp only [perform, hfailure hroom, ok_bind]; rfl, h⟩

theorem Represents.remove (h : s.Represents a) (name : CString) (heap : ℕ → Bytes)
    (fresh : ℕ → BitVec 8) {a' : OpenFiles} {reply : NamedArrays.Reply (BitVec 8)}
    (hp : a.perform diskLimits fresh (.remove (nameKey name.charAt)) = some (a', reply)) :
    ∃ s', s.perform (.remove name heap) = .ok (s', reply) ∧ s'.Represents a' := by
  obtain ⟨hfailure, hsuccess⟩ := h.fs_remove name heap
  rw [NamedArrays.perform] at hp
  split_ifs at hp with hnone
  · obtain ⟨rfl, rfl⟩ := Prod.mk.inj (Option.some.inj hp)
    exact ⟨s, by simp only [perform, hfailure hnone, ok_bind]; rfl, h⟩
  · obtain ⟨rfl, rfl⟩ := Prod.mk.inj (Option.some.inj hp)
    obtain ⟨fs', hr, h'⟩ := hsuccess hnone
    exact ⟨{ s with fs := fs' }, by simp only [perform, hr, ok_bind]; rfl, h'⟩

/-- `Open` gives out a handle, if there is an array of the name. -/
theorem Represents.openFile (h : s.Represents a) (name : CString) (heap : Bytes)
    (fresh : ℕ → BitVec 8) {a' : OpenFiles} {reply : NamedArrays.Reply (BitVec 8)}
    (hp : a.perform diskLimits fresh (.openArray (nameKey name.charAt)) = some (a', reply)) :
    ∃ s', s.perform (.openFile name heap) = .ok (s', reply) ∧ s'.Represents a' := by
  obtain ⟨freeMap, table, m, d, sectors, hholds, hopened⟩ := h
  rw [NamedArrays.perform] at hp
  simp only [perform, hholds.openFile, ok_bind]
  cases hs : sectors.lookup (nameKey name.charAt) with
  | none =>
    have hnone : a.arrays.lookup (nameKey name.charAt) = none := by
      rw [hholds.lookup_eq, hs, Option.map_none]
    rw [if_pos hnone] at hp
    obtain ⟨rfl, rfl⟩ := Prod.mk.inj (Option.some.inj hp)
    exact ⟨s, rfl, freeMap, table, m, d, sectors, hholds, hopened⟩
  | some sector =>
    have hsome : a.arrays.lookup (nameKey name.charAt) ≠ none := by
      rw [hholds.lookup_eq, hs]
      exact Option.some_ne_none _
    rw [if_neg hsome] at hp
    obtain ⟨rfl, rfl⟩ := Prod.mk.inj (Option.some.inj hp)
    rw [← hopened.length_eq]
    refine ⟨_, rfl, freeMap, table, m, d, sectors, hholds, hopened.append fun key p hkey => ?_⟩
    cases hkey
    exact ⟨rfl, sector, hs, rfl⟩

/-- A transfer through an open file is one through the handle. -/
theorem Represents.access (h : s.Represents a) (k : ℕ) (r : CursorArray.Request (BitVec 8))
    (heap : Bytes) (fresh : ℕ → BitVec 8) {a' : OpenFiles}
    {reply : NamedArrays.Reply (BitVec 8)}
    (hp : a.perform diskLimits fresh (.access k r) = some (a', reply)) :
    ∃ s', s.perform (.access k r heap) = .ok (s', reply) ∧ s'.Represents a' := by
  obtain ⟨freeMap, table, m, d, sectors, hholds, hopened⟩ := h
  rw [NamedArrays.perform] at hp
  split at hp
  case h_2 => cases hp
  rename_i key p hhandle
  split at hp
  case h_2 => cases hp
  rename_i items hitems
  split_ifs at hp with hreach
  obtain ⟨rfl, rfl⟩ := Prod.mk.inj (Option.some.inj hp)
  have hk : k < s.opened.length := by
    rw [hopened.length_eq]
    exact (List.getElem?_eq_some_iff.1 hhandle).1
  have hfile : s.opened[k]? = some s.opened[k] := List.getElem?_eq_getElem hk
  generalize s.opened[k] = file at hfile
  obtain ⟨hpos, sector, hs, hhdr⟩ := hopened.refers hfile hhandle key p rfl
  have hitems' : items = file.hdr.contents s.fs.disk := by
    rw [hholds.lookup_eq, hs, Option.map_some] at hitems
    rw [hhdr]
    exact (Option.some.inj hitems).symm
  have harray : CursorArray.mk items p = file.array s.fs.disk := by
    rw [PositionedFile.array, hitems', hpos]
  rw [harray] at hreach ⊢
  have hlists : file.hdr.Lists := by
    obtain ⟨i, huse, -, rfl⟩ := (hholds.names.lookup_iff _ _).1 hs
    exact hhdr ▸ hholds.lists huse
  obtain ⟨file', disk', hperform, harray', hsame⟩ :=
    file.perform_spec hlists s.fs.disk heap r hreach
  have hdisk := hsame.other
  rw [hhdr] at hdisk
  obtain ⟨hholds', hkeep⟩ := hholds.transferred hs hdisk
  simp only [perform, hfile, hperform, ok_bind]
  rw [← harray']
  refine ⟨_, rfl, freeMap, table, m, d, sectors, ?_, (hopened.keep hkeep).set fun key' p' hp' => ?_⟩
  · rw [← hhdr, ← hsame.hdr] at hholds'
    exact hholds'
  · cases hp'
    exact ⟨rfl, sector, hs, hsame.hdr.trans (hhdr.trans (hkeep key sector hs).2.symm)⟩

/-- Only the values of the names matter. -/
theorem Represents.congr {files : Files} (h : s.Represents a)
    (hfiles : ∀ key, files.lookup key = a.arrays.lookup key) :
    s.Represents { a with arrays := files } := by
  obtain ⟨freeMap, table, m, d, sectors, hholds, hopened⟩ := h
  exact ⟨freeMap, table, m, d, sectors, ⟨hholds.sound, hholds.names, hholds.sized,
    fun key => (hfiles key).trans (hholds.lookup_eq key)⟩, hopened⟩

/-- A handle need not be used any more. -/
theorem Represents.forget (h : s.Represents a) (key : NameKey) :
    s.Represents { a with opened := a.opened.map (NamedArrays.forget key) } := by
  obtain ⟨freeMap, table, m, d, sectors, hholds, hopened⟩ := h
  exact ⟨freeMap, table, m, d, sectors, hholds, hopened.forget fun _ _ _ hs => ⟨hs, rfl⟩⟩

/-- What `Open` returns: a file with the bytes of the array. If only its sectors are changed, then
the array has the new bytes. -/
theorem Represents.exists_file (h : s.Represents a) {name : CString} {items : List (BitVec 8)}
    (hitems : a.arrays.lookup (nameKey name.charAt) = some items) (heap : Bytes) :
    ∃ file, s.fs.openFile name heap = .ok (some file) ∧ file.hdr.Lists ∧
      file.hdr.contents s.fs.disk = items ∧
      ∀ disk', (∀ t ∉ file.hdr.firstSectors file.hdr.blocks, disk' t = s.fs.disk t) →
        Represents { s with fs := { s.fs with disk := disk' } } { a with
          arrays := a.arrays.replace (nameKey name.charAt) (file.hdr.contents disk') } := by
  obtain ⟨freeMap, table, m, d, sectors, hholds, hopened⟩ := h
  rw [hholds.lookup_eq, Option.map_eq_some_iff] at hitems
  obtain ⟨sector, hs, hcontents⟩ := hitems
  refine ⟨⟨headerAt s.fs.disk sector.toNat⟩, by rw [hholds.openFile, hs, Option.map_some], ?_,
    hcontents, fun disk' hdisk => ?_⟩
  · obtain ⟨i, huse, -, rfl⟩ := (hholds.names.lookup_iff _ _).1 hs
    exact hholds.lists huse
  · obtain ⟨hholds', hkeep⟩ := hholds.transferred hs hdisk
    exact ⟨freeMap, table, m, d, sectors, hholds', hopened.keep hkeep⟩

/-- There is nothing to open under a name that no array has. -/
theorem Represents.openFile_eq_none (h : s.Represents a) {name : CString}
    (hnone : a.arrays.lookup (nameKey name.charAt) = none) (heap : Bytes) :
    s.fs.openFile name heap = .ok none := by
  obtain ⟨freeMap, table, m, d, sectors, hholds, -⟩ := h
  rw [hholds.lookup_eq, Option.map_eq_none_iff] at hnone
  rw [hholds.openFile, hnone, Option.map_none]

/-- A call does with the files what it does with the arrays. -/
theorem Represents.perform (h : s.Represents a) {c : Call} (hc : c.Possible) :
    ∃ fresh, ∀ a' reply, a.perform diskLimits fresh c.onArrays = some (a', reply) →
      ∃ s', s.perform c = .ok (s', reply) ∧ s'.Represents a' := by
  cases c with
  | create name initialSize heap =>
    obtain ⟨size, rfl⟩ := Int.eq_ofNat_of_zero_le hc.1
    exact h.create name size (Int.ofNat_le.1 hc.2) heap
  | remove name heap => exact ⟨fun _ => 0, fun _ _ hp => h.remove name heap _ hp⟩
  | openFile name heap => exact ⟨fun _ => 0, fun _ _ hp => h.openFile name heap _ hp⟩
  | access k r heap => exact ⟨fun _ => 0, fun _ _ hp => h.access k r heap _ hp⟩
  | restart heap =>
    obtain ⟨freeMap, table, m, d, sectors, hholds, -⟩ := h
    refine ⟨fun _ => 0, fun a' reply hp => ?_⟩
    obtain ⟨rfl, rfl⟩ := Prod.mk.inj (Option.some.inj hp)
    exact ⟨{ s with opened := [] }, by simp only [Session.perform, hholds.restart, ok_bind]; rfl,
      freeMap, table, m, d, sectors, hholds, rfl, fun hf => by cases hf⟩

/-- Calls do with the files what they do with the arrays, up to the first call that is not possible
or not permitted. -/
theorem Represents.run (h : s.Represents a) (calls : List Call) :
    ∃ (n : ℕ) (fresh : List (ℕ → BitVec 8)) (a' : OpenFiles)
      (replies : List (NamedArrays.Reply (BitVec 8))) (s' : Session),
      n ≤ calls.length ∧ fresh.length = n ∧ (∀ c ∈ calls.take n, c.Possible) ∧
      a.run diskLimits (fresh.zip ((calls.take n).map Call.onArrays)) = some (a', replies) ∧
      s.run (calls.take n) = .ok (s', replies) ∧ s'.Represents a' ∧
      ∀ c, calls[n]? = some c → ¬(c.Possible ∧ a'.Permits diskLimits c.onArrays) := by
  induction calls generalizing s a with
  | nil => exact ⟨0, [], a, [], s, le_rfl, rfl, by simp, rfl, rfl, h, by simp⟩
  | cons c calls ih =>
    have hstop (hno : ¬(c.Possible ∧ a.Permits diskLimits c.onArrays)) (c' : Call)
        (hc' : (c :: calls)[0]? = some c') :
        ¬(c'.Possible ∧ a.Permits diskLimits c'.onArrays) := by
      obtain rfl : c = c' := by simpa using hc'
      exact hno
    by_cases hc : c.Possible
    swap
    · exact ⟨0, [], a, [], s, Nat.zero_le _, rfl, by simp, rfl, rfl, h,
        hstop fun hboth => hc hboth.1⟩
    obtain ⟨fresh, hperform⟩ := h.perform hc
    cases hp : a.perform diskLimits fresh c.onArrays with
    | none =>
      exact ⟨0, [], a, [], s, Nat.zero_le _, rfl, by simp, rfl, rfl, h,
        hstop fun hboth => NamedArrays.perform_eq_none_iff.1 hp hboth.2⟩
    | some result =>
      obtain ⟨a₁, reply⟩ := result
      obtain ⟨s₁, hs₁, h₁⟩ := hperform a₁ reply hp
      obtain ⟨n, freshes, a', replies, s', hn, hlen, hpossible, ha, hs, h', hlast⟩ := ih h₁
      refine ⟨n + 1, fresh :: freshes, a', reply :: replies, s', by simpa using hn,
        by simp [hlen], ?_, ?_, ?_, h', by simpa using hlast⟩
      · rw [List.take_succ_cons]
        exact List.forall_mem_cons.2 ⟨hc, hpossible⟩
      · rw [List.take_succ_cons, List.map_cons, List.zip_cons_cons]
        exact NamedArrays.run_cons hp ha
      · simp only [List.take_succ_cons, Session.run, hs₁, ok_bind, hs]
        rfl

/-- The file system on a disk that is formatted first. -/
def format (disk : Disk) (heap : ℕ → Bytes) : Except Fault Session := do
  let fs ← FileSystem.new true disk heap
  return { fs, opened := [] }

/-- A disk that has just been formatted holds no files. -/
theorem format_represents (disk : Disk) (heap : ℕ → Bytes) :
    ∃ s, format disk heap = .ok s ∧ s.Represents .empty := by
  obtain ⟨fs, freeMap, table, m, d, hnew, hsound, hunused, -⟩ := new_spec disk heap
  refine ⟨⟨fs, []⟩, by rw [format, hnew]; rfl, freeMap, table, m, d, .empty,
    ⟨hsound, ⟨hsound.distinctNames, fun key sector => ?_⟩, fun i hi => ?_, fun key => ?_⟩, rfl,
    fun hf => by cases hf⟩
  · simp [hunused]
  · simp [hunused] at hi
  · simp [NamedArrays.empty]

end Session

/-- The file system on a disk that has been formatted is a collection of named arrays: any sequence
of calls, new starts included, gets the replies of the arrays, up to the first call that is not
possible or not permitted. The bytes of a file that has just been created are arbitrary. -/
theorem session_refines_namedArrays (disk : Disk) (heap : ℕ → Bytes) (calls : List Session.Call) :
    ∃ (s₀ s : Session) (n : ℕ) (fresh : List (ℕ → BitVec 8)) (a : OpenFiles)
      (replies : List (NamedArrays.Reply (BitVec 8))),
      Session.format disk heap = .ok s₀ ∧ n ≤ calls.length ∧ fresh.length = n ∧
      (∀ c ∈ calls.take n, c.Possible) ∧
      NamedArrays.empty.run diskLimits (fresh.zip ((calls.take n).map Session.Call.onArrays)) =
        some (a, replies) ∧
      s₀.run (calls.take n) = .ok (s, replies) ∧ s.Represents a ∧
      ∀ c, calls[n]? = some c → ¬(c.Possible ∧ a.Permits diskLimits c.onArrays) := by
  obtain ⟨s₀, hformat, h₀⟩ := Session.format_represents disk heap
  obtain ⟨n, fresh, a, replies, s, h⟩ := h₀.run calls
  exact ⟨s₀, s, n, fresh, a, replies, hformat, h⟩

end Nachos.FileSys
