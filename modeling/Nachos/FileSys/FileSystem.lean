import Nachos.FileSys.Directory

/-!
# The file system

`filesys/filesys.cc`: the bitmap of the sectors and the directory are files whose headers are in
sectors 0 and 1. `Create` and `Remove` fetch both, change them in memory, and write them back.
The contents of newly allocated memory are parameters.

## Main definitions

* `FileSystem.new`, `FileSystem.create`, `FileSystem.openFile`, `FileSystem.remove`.
* `Request`, `FileSystem.run`: requests to a file system on a disk that has been formatted.
-/

namespace Nachos.FileSys

open Foundations UserProg

/-- `FreeMapSector`. -/
abbrev freeMapSector : ℕ := 0

/-- `DirectorySector`. -/
abbrev directorySector : ℕ := 1

/-- `FreeMapFileSize`. -/
abbrev freeMapFileSize : ℕ := numSectors / 8

/-! ### The bitmap as a file -/

/-- The words of a bitmap. -/
def BitMap.layout (n : ℕ) : Layout (BitMap n) :=
  (Layout.word.array (divRoundUp n 32)).map (fun b i => b.map[i]) (fun w => ⟨Vector.ofFn w⟩)
    fun b => by
      congr 1
      ext i hi
      simp

/-- `BitMap::FetchFrom`. -/
def BitMap.fetchFrom {n : ℕ} (map : BitMap n) (file : OpenFile) (disk : Disk) :
    Except Fault (BitMap n) := do
  let (_, into) ← file.readAt disk ((BitMap.layout n).store map) (BitMap.layout n).size 0
  return (BitMap.layout n).fetch into

/-- `BitMap::WriteBack`. -/
def BitMap.writeBack {n : ℕ} (map : BitMap n) (file : OpenFile) (disk : Disk) (heap : Bytes) :
    Except Fault Disk := do
  let (_, disk) ← file.writeAt disk ((BitMap.layout n).store map) (BitMap.layout n).size 0 heap
  return disk

/-- The constructor of `BitMap` for the sectors of the disk. -/
def newFreeMap (heap : Bytes) : Except Fault (BitMap numSectors) :=
  BitMap.new ((BitMap.layout numSectors).fetch heap).map

/-! ### The operations -/

/-- `FileSystem`, with the disk. -/
structure FileSystem where
  freeMapFile : OpenFile
  directoryFile : OpenFile
  disk : Disk

namespace FileSystem

/-- The constructor. `heap n` is what the `n`-th block that it allocates contains. -/
def new (format : Bool) (disk : Disk) (heap : ℕ → Bytes) : Except Fault FileSystem := do
  if format then
    let freeMap ← newFreeMap (heap 0)
    let directory := Directory.new (heap 1)
    let mapHdr := FileHeader.layout.fetch (heap 2)
    let dirHdr := FileHeader.layout.fetch (heap 3)
    let freeMap ← freeMap.mark freeMapSector
    let freeMap ← freeMap.mark directorySector
    let (success, mapHdr, freeMap) ← mapHdr.allocate freeMap freeMapFileSize
    if !success then .error .assertion
    else
      let (success, dirHdr, freeMap) ← dirHdr.allocate freeMap directoryFileSize
      if !success then .error .assertion
      else
        let disk ← mapHdr.writeBack disk freeMapSector
        let disk ← dirHdr.writeBack disk directorySector
        let freeMapFile ← OpenFile.new disk freeMapSector
        let directoryFile ← OpenFile.new disk directorySector
        let disk ← BitMap.writeBack freeMap freeMapFile disk (heap 4)
        let disk ← directory.writeBack directoryFile disk (heap 5)
        return { freeMapFile, directoryFile, disk }
  else
    let freeMapFile ← OpenFile.new disk freeMapSector
    let directoryFile ← OpenFile.new disk directorySector
    return { freeMapFile, directoryFile, disk }

/-- `FileSystem::Create`. -/
def create (fs : FileSystem) (name : CString) (initialSize : ℤ) (heap : ℕ → Bytes) :
    Except Fault (Bool × FileSystem) := do
  let directory ← (Directory.new (heap 0)).fetchFrom fs.directoryFile fs.disk
  if directory.find name ≠ -1 then return (false, fs)
  else
    let freeMap ← newFreeMap (heap 1)
    let freeMap ← BitMap.fetchFrom freeMap fs.freeMapFile fs.disk
    let (sector, freeMap) ← freeMap.find
    match sector with
    | none => return (false, fs)
    | some sector =>
      match directory.add name (FileHeader.sectorNumber (some sector)) with
      | (false, _) => return (false, fs)
      | (true, directory) =>
        let hdr := FileHeader.layout.fetch (heap 2)
        let (success, hdr, freeMap) ← hdr.allocate freeMap initialSize
        if success then
          let disk ← hdr.writeBack fs.disk sector
          let disk ← directory.writeBack fs.directoryFile disk (heap 3)
          let disk ← BitMap.writeBack freeMap fs.freeMapFile disk (heap 4)
          return (true, { fs with disk })
        else return (false, fs)

/-- `FileSystem::Open`. The result is `none` for `NULL`. -/
def openFile (fs : FileSystem) (name : CString) (heap : Bytes) :
    Except Fault (Option OpenFile) := do
  let directory ← (Directory.new heap).fetchFrom fs.directoryFile fs.disk
  let sector := directory.find name
  if 0 ≤ sector.toInt then return some (← OpenFile.new fs.disk sector.toNat)
  else return none

/-- `FileSystem::Remove`. -/
def remove (fs : FileSystem) (name : CString) (heap : ℕ → Bytes) :
    Except Fault (Bool × FileSystem) := do
  let directory ← (Directory.new (heap 0)).fetchFrom fs.directoryFile fs.disk
  let sector := directory.find name
  if sector = -1 then return (false, fs)
  else
    let fileHdr ← FileHeader.fetchFrom fs.disk sector.toNat
    let freeMap ← newFreeMap (heap 1)
    let freeMap ← BitMap.fetchFrom freeMap fs.freeMapFile fs.disk
    let freeMap ← fileHdr.deallocate freeMap
    let freeMap ← freeMap.clear sector.toNat
    let (_, directory) := directory.remove name
    let disk ← BitMap.writeBack freeMap fs.freeMapFile fs.disk (heap 2)
    let disk ← directory.writeBack fs.directoryFile disk (heap 3)
    return (true, { fs with disk })

/-! ### Requests -/

/-- A call of `Create` with a possible size, or of `Remove`, and the contents of the memory that it
allocates. -/
inductive Request
  | create (name : CString) (initialSize : ℤ) (nonneg : 0 ≤ initialSize)
      (le : initialSize ≤ maxFileSize) (heap : ℕ → Bytes)
  | remove (name : CString) (heap : ℕ → Bytes)

/-- The file system after a request. -/
def perform (fs : FileSystem) : Request → Except Fault FileSystem
  | .create name initialSize _ _ heap => (fs.create name initialSize heap).map Prod.snd
  | .remove name heap => (fs.remove name heap).map Prod.snd

/-- Requests to a file system on a disk that has been formatted. -/
def run (disk : Disk) (heap : ℕ → Bytes) (requests : List Request) : Except Fault FileSystem := do
  let fs ← FileSystem.new true disk heap
  requests.foldlM perform fs

end FileSystem

end Nachos.FileSys
