import Nachos.FileSys.FileHeader

/-!
# Open files

`filesys/openfile.cc` without the position of `Read` and `Write`: an open file is the header of
the file in memory, and `ReadAt` and `WriteAt` move whole sectors from and to the disk.

## Main definitions

* `OpenFile`, `OpenFile.readAt`, `OpenFile.writeAt`.

## Main results

* `OpenFile.IsOneSector.readAt`, `OpenFile.IsOneSector.writeAt`: a file that fits in one sector is
  read and written as a whole.
-/

namespace Nachos.FileSys

open Foundations

/-- `bcopy(from, &to[start], len)`. -/
def bcopy (source dest : Bytes) (start len : ℕ) : Bytes := fun i =>
  if start ≤ i ∧ i < start + len then source (i - start) else dest i

/-- `OpenFile`. -/
structure OpenFile where
  hdr : FileHeader

namespace OpenFile

/-- The constructor. -/
def new (disk : Disk) (sector : ℕ) : Except Fault OpenFile := do
  return ⟨← FileHeader.fetchFrom disk sector⟩

/-- The number of bytes that are left for a request. -/
def available (file : OpenFile) (numBytes position : ℕ) : ℕ :=
  if file.hdr.fileLength < position + numBytes then (file.hdr.fileLength - position).toNat
  else numBytes

/-- `OpenFile::ReadAt`: the number of bytes and the contents of `into`. The sectors fill the whole
array `buf`. -/
def readAt (file : OpenFile) (disk : Disk) (into : Bytes) (numBytes position : ℕ) :
    Except Fault (ℕ × Bytes) :=
  if numBytes = 0 ∨ file.hdr.fileLength ≤ position then .ok (0, into)
  else do
    let numBytes := file.available numBytes position
    let firstSector := position / sectorSize
    let lastSector := (position + numBytes - 1) / sectorSize
    let buf ← forLoop (fun buf k => do
      let sector ← file.hdr.byteToSector ((firstSector + k) * sectorSize)
      let data ← disk.readSector sector.toNat
      return bcopy data buf (k * sectorSize) sectorSize) (1 + lastSector - firstSector) fun _ => 0
    return (numBytes,
      bcopy (fun i => buf (position - firstSector * sectorSize + i)) into 0 numBytes)

/-- `OpenFile::WriteAt`: the number of bytes and the disk. The array `buf` contains `heap` when it
is allocated. -/
def writeAt (file : OpenFile) (disk : Disk) (source : Bytes) (numBytes position : ℕ)
    (heap : Bytes) : Except Fault (ℕ × Disk) :=
  if numBytes = 0 ∨ file.hdr.fileLength ≤ position then .ok (0, disk)
  else do
    let numBytes := file.available numBytes position
    let firstSector := position / sectorSize
    let lastSector := (position + numBytes - 1) / sectorSize
    let firstAligned := position = firstSector * sectorSize
    let lastAligned := position + numBytes = (lastSector + 1) * sectorSize
    let (_, buf) ←
      if ¬firstAligned then file.readAt disk heap sectorSize (firstSector * sectorSize)
      else .ok (0, heap)
    let last := (lastSector - firstSector) * sectorSize
    let (_, tail) ←
      if ¬lastAligned ∧ (firstSector ≠ lastSector ∨ firstAligned) then
        file.readAt disk (fun i => buf (last + i)) sectorSize (lastSector * sectorSize)
      else .ok (0, fun i => buf (last + i))
    let buf : Bytes := fun i => if i < last then buf i else tail (i - last)
    let buf := bcopy source buf (position - firstSector * sectorSize) numBytes
    let disk ← forLoop (fun disk k => do
      let sector ← file.hdr.byteToSector ((firstSector + k) * sectorSize)
      disk.writeSector sector.toNat fun i => buf (k * sectorSize + i))
      (1 + lastSector - firstSector) disk
    return (numBytes, disk)

/-- A file of `len` bytes, which are in the sector `s`. -/
structure IsOneSector (file : OpenFile) (len s : ℕ) : Prop where
  fileLength : file.hdr.fileLength = len
  dataSector : (file.hdr.dataSectors ⟨0, by decide⟩).toNat = s
  pos : 0 < len
  le : len ≤ sectorSize
  lt : s < numSectors

namespace IsOneSector

variable {file : OpenFile} {len s : ℕ}

theorem available (h : file.IsOneSector len s) {n : ℕ} (hn : len ≤ n) :
    file.available n 0 = len := by
  simp only [OpenFile.available, h.fileLength]
  split_ifs <;> omega

theorem byteToSector (h : file.IsOneSector len s) :
    ∃ w, file.hdr.byteToSector 0 = .ok w ∧ w.toNat = s :=
  ⟨_, rfl, h.dataSector⟩

theorem last (h : file.IsOneSector len s) : (len - 1) / sectorSize = 0 :=
  Nat.div_eq_of_lt (by have := h.pos; have := h.le; omega)

theorem not_empty (h : file.IsOneSector len s) {n : ℕ} (hn : len ≤ n) :
    ¬(n = 0 ∨ file.hdr.fileLength ≤ (0 : ℕ)) := by
  have := h.pos
  rw [h.fileLength]
  omega

/-- A request for at least the whole file. -/
theorem readAt (h : file.IsOneSector len s) (disk : Disk) (into : Bytes) {n : ℕ} (hn : len ≤ n) :
    ∃ into', file.readAt disk into n 0 = .ok (len, into') ∧ ∀ i < len, into' i = disk s i := by
  obtain ⟨w, hw, hs⟩ := h.byteToSector
  have hread : file.readAt disk into n 0 =
      .ok (len, bcopy (fun i => bcopy (disk s) (fun _ => 0) 0 sectorSize i) into 0 len) := by
    simp only [OpenFile.readAt, if_neg (h.not_empty hn), h.available hn, Nat.zero_div,
      Nat.zero_add, h.last, Nat.add_zero, Nat.sub_zero, Nat.zero_mul, forLoop_succ, forLoop_zero,
      Except.bind, hw, hs, ok_bind, Disk.readSector_of_lt h.lt]
    rfl
  refine ⟨_, hread, fun i hi => ?_⟩
  have hi' : i < sectorSize := hi.trans_le h.le
  simp [bcopy, hi, hi']

/-- A request that writes the whole file. -/
theorem writeAt (h : file.IsOneSector len s) (disk : Disk) (source heap : Bytes) :
    ∃ data, file.writeAt disk source len 0 heap = .ok (len, disk.put s data) ∧
      ∀ i < len, data i = source i := by
  obtain ⟨w, hw, hs⟩ := h.byteToSector
  obtain ⟨into, hinto, -⟩ := h.readAt disk heap h.le
  have hsource (buf : Bytes) : ∀ i < len, bcopy source buf 0 len i = source i := fun i hi => by
    simp [bcopy, hi]
  by_cases hl : len = sectorSize
  · subst hl
    refine ⟨_, ?_, hsource heap⟩
    simp only [OpenFile.writeAt, if_neg (h.not_empty le_rfl), h.available le_rfl, Nat.zero_div,
      Nat.zero_add, h.last, Nat.add_zero, Nat.sub_zero, Nat.zero_mul, Nat.one_mul,
      not_true_eq_false, false_and, if_false, ok_bind, forLoop_succ, forLoop_zero, Except.bind,
      hw, hs, Disk.writeSector_of_lt h.lt, Nat.not_lt_zero]
    rfl
  · -- the rest of the sector is read first
    refine ⟨_, ?_, hsource into⟩
    simp only [OpenFile.writeAt, if_neg (h.not_empty le_rfl), h.available le_rfl, Nat.zero_div,
      Nat.zero_add, h.last, Nat.add_zero, Nat.sub_zero, Nat.zero_mul, Nat.one_mul, hl,
      not_true_eq_false, not_false_eq_true, or_true, and_self, if_true, if_false, hinto, ok_bind,
      forLoop_succ, forLoop_zero, Except.bind, hw, hs, Disk.writeSector_of_lt h.lt,
      Nat.not_lt_zero]
    rfl

end IsOneSector

end OpenFile

end Nachos.FileSys
