import Nachos.Foundations.Layout
import Nachos.Machine.Fault
import Mathlib.Data.Nat.Notation

/-!
# The disk

The geometry of `machine/disk.h`, and the requests of `SynchDisk`, which wait until the disk has
performed them. A read returns what was last written to the sector.
-/

namespace Nachos

open Foundations

/-- `SectorSize`. -/
abbrev sectorSize : ℕ := 256

/-- `SectorsPerTrack`. -/
abbrev sectorsPerTrack : ℕ := 32

/-- `NumTracks`. -/
abbrev numTracks : ℕ := 32

/-- `NumSectors`. -/
abbrev numSectors : ℕ := sectorsPerTrack * numTracks

/-- The bytes of each sector. Only the first `sectorSize` bytes of the first `numSectors` sectors
belong to the disk. -/
abbrev Disk : Type := ℕ → Bytes

namespace Disk

/-- The disk after a sector has been written. -/
def put (disk : Disk) (sectorNumber : ℕ) (data : Bytes) : Disk := fun s i =>
  if s = sectorNumber ∧ i < sectorSize then data i else disk s i

/-- `SynchDisk::ReadSector`. -/
def readSector (disk : Disk) (sectorNumber : ℕ) : Except Fault Bytes :=
  if sectorNumber < numSectors then .ok (disk sectorNumber) else .error .assertion

/-- `SynchDisk::WriteSector`. -/
def writeSector (disk : Disk) (sectorNumber : ℕ) (data : Bytes) : Except Fault Disk :=
  if sectorNumber < numSectors then .ok (disk.put sectorNumber data) else .error .assertion

variable {disk : Disk} {s t : ℕ} {data : Bytes}

theorem put_of_ne (h : t ≠ s) : disk.put s data t = disk t := by
  funext i
  exact if_neg fun h' => h h'.1

theorem put_self {i : ℕ} (hi : i < sectorSize) : disk.put s data s i = data i :=
  if_pos ⟨rfl, hi⟩

theorem readSector_of_lt (h : s < numSectors) : disk.readSector s = .ok (disk s) := if_pos h

theorem writeSector_of_lt (h : s < numSectors) :
    disk.writeSector s data = .ok (disk.put s data) :=
  if_pos h

end Disk

end Nachos
