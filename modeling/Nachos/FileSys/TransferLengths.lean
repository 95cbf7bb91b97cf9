import Nachos.FileSys.FileContents
import Nachos.UserProg.SegmentLoading

/-!
# The lengths of transfers

`ReadAt` and `WriteAt` of `filesys/openfile.cc` with the `int` arithmetic of the source, which
wraps around (`int32`). `FileSys/OpenFile.lean` has the same functions for natural numbers.

The file may have any length. Its sectors are given by a function (`FileMap`); a lookup outside
the file is a fault, and so is an access outside the array `buf`.

## Main definitions

* `FileMap`, with `readAt` and `writeAt`.
* `Extent`: the numbers that both functions compute, and `Extent.Fits`: they stay inside the file
  and the array.
* `TransferOverflows`: the requests for which a number wraps around.

## Main results

* `FileMap.clamped_iff`: the requests whose length is clamped.
* `FileHeader.Lists.readAt_toFileMap`, `FileHeader.Lists.writeAt_toFileMap`: without an overflow,
  the functions are the ones of `FileSys/OpenFile.lean`.
-/

namespace Nachos.FileSys

open Foundations
open UserProg (IsInt32 int32_of_isInt32 int32_of_le)

/-! ### Arrays -/

/-- `new char[size]`. -/
def newArray (size : ℤ) : Except Fault Unit :=
  if 0 ≤ size then .ok () else .error .undefined

/-- An access to `len` bytes from `start` on of an array of `size` bytes. -/
def inArray (size start len : ℤ) : Except Fault Unit :=
  if 0 ≤ start ∧ 0 ≤ len ∧ start + len ≤ size then .ok () else .error .undefined

variable {size start len : ℤ}

theorem newArray_of_nonneg (h : 0 ≤ size) : newArray size = .ok () := if_pos h

theorem inArray_of_le (h : 0 ≤ start) (h' : 0 ≤ len) (hle : start + len ≤ size) :
    inArray size start len = .ok () :=
  if_pos ⟨h, h', hle⟩

/-! ### The functions -/

/-- What `ReadAt` and `WriteAt` ask the header for: the length of the file and its sectors. -/
structure FileMap where
  fileLength : ℤ
  isInt32 : IsInt32 fileLength
  sector : ℕ → Fin Nachos.numSectors

/-- The local variables of `ReadAt` and `WriteAt`. -/
structure Extent where
  numBytes : ℤ
  firstSector : ℤ
  lastSector : ℤ
  numSectors : ℤ

/-- The local variables of a request that is not empty. -/
def extent (fileLength numBytes position : ℤ) : Extent :=
  let numBytes :=
    if int32 (position + numBytes) > fileLength then int32 (fileLength - position) else numBytes
  let firstSector := position.tdiv sectorSize
  let lastSector := (int32 (int32 (position + numBytes) - 1)).tdiv sectorSize
  ⟨numBytes, firstSector, lastSector, int32 (int32 (1 + lastSector) - firstSector)⟩

/-- `numSectors * SectorSize`. -/
def Extent.bufSize (e : Extent) : ℤ := int32 (e.numSectors * sectorSize)

/-- `position - (firstSector * SectorSize)`. -/
def Extent.bufStart (e : Extent) (position : ℤ) : ℤ :=
  int32 (position - int32 (e.firstSector * sectorSize))

namespace FileMap

/-- `FileHeader::ByteToSector`, inside the file. -/
def byteToSector (file : FileMap) (offset : ℤ) : Except Fault ℕ :=
  if 0 ≤ offset ∧ offset < file.fileLength then .ok (file.sector (offset.tdiv sectorSize).toNat)
  else .error .undefined

/-- The body of the loop of `ReadAt`, for `i = firstSector + k`. -/
def readSector (file : FileMap) (disk : Disk) (e : Extent) (buf : Bytes) (k : ℕ) :
    Except Fault Bytes := do
  let i := e.firstSector + k
  let sector ← file.byteToSector (int32 (i * sectorSize))
  let data ← disk.readSector sector
  let start := int32 (int32 (i - e.firstSector) * sectorSize)
  inArray e.bufSize start sectorSize
  return bcopy data buf start.toNat sectorSize

/-- `OpenFile::ReadAt`: the number of bytes and the contents of `into`. The array `buf` contains
`heap` when it is allocated. -/
def readAt (file : FileMap) (disk : Disk) (into heap : Bytes) (numBytes position : ℤ) :
    Except Fault (ℤ × Bytes) :=
  if numBytes ≤ 0 ∨ position ≥ file.fileLength then .ok (0, into)
  else do
    let e := extent file.fileLength numBytes position
    newArray e.bufSize
    let buf ← forLoop (file.readSector disk e) (1 + e.lastSector - e.firstSector).toNat heap
    inArray e.bufSize (e.bufStart position) e.numBytes
    return (e.numBytes,
      bcopy (fun i => buf ((e.bufStart position).toNat + i)) into 0 e.numBytes.toNat)

/-- The body of the loop of `WriteAt`, for `i = firstSector + k`. -/
def writeSector (file : FileMap) (e : Extent) (buf : Bytes) (disk : Disk) (k : ℕ) :
    Except Fault Disk := do
  let i := e.firstSector + k
  let sector ← file.byteToSector (int32 (i * sectorSize))
  let start := int32 (int32 (i - e.firstSector) * sectorSize)
  inArray e.bufSize start sectorSize
  disk.writeSector sector fun j => buf (start.toNat + j)

/-- `ReadAt(&buf[start], SectorSize, sector * SectorSize)` into an array of `size` bytes. -/
def readInto (file : FileMap) (disk : Disk) (buf heap : Bytes) (size start sector : ℤ) :
    Except Fault Bytes := do
  let (n, tail) ← file.readAt disk (fun j => buf (start.toNat + j)) heap sectorSize
    (int32 (sector * sectorSize))
  inArray size start n
  return fun j => if j < start.toNat then buf j else tail (j - start.toNat)

/-- `OpenFile::WriteAt`: the number of bytes and the disk. The arrays that are allocated, here and
by `ReadAt`, contain `heap`. -/
def writeAt (file : FileMap) (disk : Disk) (source : Bytes) (heap : ℕ → Bytes)
    (numBytes position : ℤ) : Except Fault (ℤ × Disk) :=
  if numBytes ≤ 0 ∨ position ≥ file.fileLength then .ok (0, disk)
  else do
    let e := extent file.fileLength numBytes position
    newArray e.bufSize
    let firstAligned := position = int32 (e.firstSector * sectorSize)
    let lastAligned :=
      int32 (position + e.numBytes) = int32 (int32 (e.lastSector + 1) * sectorSize)
    let buf ←
      (if ¬firstAligned then file.readInto disk (heap 0) (heap 1) e.bufSize 0 e.firstSector
      else .ok (heap 0))
    let last := int32 (int32 (e.lastSector - e.firstSector) * sectorSize)
    let buf ←
      (if ¬lastAligned ∧ (e.firstSector ≠ e.lastSector ∨ firstAligned) then
        file.readInto disk buf (heap 2) e.bufSize last e.lastSector
      else .ok buf)
    inArray e.bufSize (e.bufStart position) e.numBytes
    let buf := bcopy source buf (e.bufStart position).toNat e.numBytes.toNat
    let disk ← forLoop (file.writeSector e buf) (1 + e.lastSector - e.firstSector).toNat disk
    return (e.numBytes, disk)

end FileMap

/-! ### Requests that stay inside -/

/-- `firstSector` and `lastSector` are sectors of the file, and the bytes of the request are in the
array, which has room for these sectors. -/
structure Extent.Fits (e : Extent) (fileLength position : ℤ) : Prop where
  pos : 0 < e.numBytes
  first : 0 ≤ e.firstSector
  le : e.firstSector ≤ e.lastSector
  inside : e.lastSector * sectorSize < fileLength
  start : e.firstSector * sectorSize ≤ position
  stop : position + e.numBytes ≤ (e.lastSector + 1) * sectorSize
  numSectors : e.numSectors = 1 + e.lastSector - e.firstSector
  size : (1 + e.lastSector - e.firstSector) * sectorSize < 2 ^ 31

/-- A sum wraps around, or the sectors of the request have `2 ^ 31` bytes. -/
def TransferOverflows (fileLength numBytes position : ℤ) : Prop :=
  0 < numBytes ∧ position < fileLength ∧
    (2 ^ 31 ≤ position + numBytes ∨
      position < sectorSize ∧ 2 ^ 31 - sectorSize < min (position + numBytes) fileLength)

instance (fileLength numBytes position : ℤ) :
    Decidable (TransferOverflows fileLength numBytes position) :=
  inferInstanceAs (Decidable (_ ∧ _ ∧ _))

section Extent

variable {fileLength numBytes position : ℤ}

/-- The local variables when no sum wraps around. -/
theorem extent_eq (hlength : IsInt32 fileLength) (hpos : 0 ≤ position) (hn : 0 < numBytes)
    (hlt : position < fileLength) (hsum : position + numBytes < 2 ^ 31) :
    extent fileLength numBytes position =
      ⟨min numBytes (fileLength - position), position / sectorSize,
        (position + min numBytes (fileLength - position) - 1) / sectorSize,
        1 + (position + min numBytes (fileLength - position) - 1) / sectorSize -
          position / sectorSize⟩ := by
  unfold IsInt32 at hlength
  have hclamp : (if int32 (position + numBytes) > fileLength then int32 (fileLength - position)
      else numBytes) = min numBytes (fileLength - position) := by
    rw [int32_of_isInt32 ⟨by omega, by omega⟩, int32_of_isInt32 ⟨by omega, by omega⟩]
    split_ifs <;> omega
  simp only [extent, hclamp]
  have hmin : 0 < min numBytes (fileLength - position) := by omega
  generalize hc : min numBytes (fileLength - position) = c at *
  rw [int32_of_isInt32 (x := position + c) ⟨by omega, by omega⟩,
    int32_of_isInt32 (x := position + c - 1) ⟨by omega, by omega⟩,
    Int.tdiv_eq_ediv_of_nonneg hpos, Int.tdiv_eq_ediv_of_nonneg (by omega)]
  congr 1
  simp only [sectorSize]
  rw [int32_of_isInt32 (x := 1 + _) ⟨by omega, by omega⟩, int32_of_isInt32 ⟨by omega, by omega⟩]

theorem fits_extent (hlength : IsInt32 fileLength) (hpos : 0 ≤ position) (hn : 0 < numBytes)
    (hlt : position < fileLength) (h : ¬ TransferOverflows fileLength numBytes position) :
    (extent fileLength numBytes position).Fits fileLength position := by
  have hsum : position + numBytes < 2 ^ 31 := by
    by_contra hle
    exact h ⟨hn, hlt, .inl (by omega)⟩
  have hsize : sectorSize ≤ position ∨
      min (position + numBytes) fileLength ≤ 2 ^ 31 - sectorSize := by
    by_contra! hle
    exact h ⟨hn, hlt, .inr hle⟩
  rw [extent_eq hlength hpos hn hlt hsum]
  unfold IsInt32 at hlength
  simp only [sectorSize] at hsize
  constructor <;> simp only [sectorSize] <;> omega

/-- `WriteAt` reads a sector at a time. The sum may wrap around, but not above the end of the
file. -/
theorem fits_extent_sector {q : ℤ} (hlength : IsInt32 fileLength) (hq : 0 ≤ q)
    (hlt : q * sectorSize < fileLength) :
    (extent fileLength sectorSize (q * sectorSize)).Fits fileLength (q * sectorSize) ∧
      (extent fileLength sectorSize (q * sectorSize)).numBytes ≤ sectorSize := by
  by_cases hsum : q * sectorSize + sectorSize < 2 ^ 31
  · rw [extent_eq hlength (by simp only [sectorSize]; omega) (by decide) hlt hsum]
    simp only [sectorSize] at *
    exact ⟨by constructor <;> simp only [sectorSize] <;> omega, by omega⟩
  · unfold IsInt32 at hlength
    simp only [sectorSize] at *
    obtain rfl : q = 8388607 := by omega
    have hwrap : extent fileLength (256 : ℕ) (8388607 * (256 : ℕ)) =
        ⟨256, 8388607, 8388607, 1⟩ := by
      have hneg : ¬ (-2147483648 : ℤ) > fileLength := by omega
      simp [extent, int32, Int.bmod, hneg]
    rw [hwrap]
    exact ⟨by constructor <;> simp only [sectorSize] <;> omega, by dsimp only; omega⟩

namespace Extent.Fits

variable {e : Extent}

theorem bufSize (h : e.Fits fileLength position) :
    e.bufSize = (1 + e.lastSector - e.firstSector) * sectorSize := by
  have hsize := h.size
  have hle := h.le
  rw [Extent.bufSize, h.numSectors]
  simp only [sectorSize] at *
  exact int32_of_isInt32 ⟨by omega, by omega⟩

theorem newArray (h : e.Fits fileLength position) : newArray e.bufSize = .ok () := by
  have hle := h.le
  rw [h.bufSize]
  refine newArray_of_nonneg ?_
  simp only [sectorSize]
  omega

theorem bufStart (h : e.Fits fileLength position) (hlength : IsInt32 fileLength)
    (hlt : position < fileLength) :
    e.bufStart position = position - e.firstSector * sectorSize := by
  have hstart := h.start
  have hfirst := h.first
  unfold IsInt32 at hlength
  simp only [Extent.bufStart, sectorSize] at *
  rw [int32_of_isInt32 (x := e.firstSector * (256 : ℕ)) ⟨by omega, by omega⟩]
  exact int32_of_isInt32 ⟨by omega, by omega⟩

/-- The copy stays inside the array. -/
theorem inArray (h : e.Fits fileLength position) (hlength : IsInt32 fileLength)
    (hlt : position < fileLength) :
    inArray e.bufSize (e.bufStart position) e.numBytes = .ok () := by
  have hstart := h.start
  have hstop := h.stop
  have hpos := h.pos
  rw [h.bufSize, h.bufStart hlength hlt]
  simp only [sectorSize] at *
  exact inArray_of_le (by omega) (by omega) (by omega)

end Extent.Fits

end Extent

namespace FileMap

variable {file : FileMap} {disk : Disk} {e : Extent} {numBytes position : ℤ} {k : ℕ}

theorem byteToSector_of_inside {offset : ℤ} (h : 0 ≤ offset) (h' : offset < file.fileLength) :
    file.byteToSector offset = .ok (file.sector (offset.tdiv sectorSize).toNat) :=
  if_pos ⟨h, h'⟩

/-- The numbers of one iteration. -/
theorem iteration (h : e.Fits file.fileLength position)
    (hk : k < (1 + e.lastSector - e.firstSector).toNat) :
    file.byteToSector (int32 ((e.firstSector + k) * sectorSize)) =
        .ok (file.sector (e.firstSector.toNat + k)) ∧
      int32 (int32 (e.firstSector + k - e.firstSector) * sectorSize) = (k * sectorSize : ℕ) ∧
      inArray e.bufSize (k * sectorSize : ℕ) sectorSize = .ok () := by
  have hfirst := h.first
  have hinside := h.inside
  have hsize := h.size
  have hlength := file.isInt32
  unfold IsInt32 at hlength
  rw [h.bufSize]
  simp only [sectorSize] at *
  refine ⟨?_, ?_, inArray_of_le (by omega) (by omega) (by omega)⟩
  · rw [int32_of_isInt32 ⟨by omega, by omega⟩, byteToSector_of_inside (by omega) (by omega),
      Int.mul_tdiv_cancel _ (by decide)]
    congr 3
    omega
  · rw [int32_of_isInt32 (x := _ - _) ⟨by omega, by omega⟩, int32_of_isInt32 ⟨by omega, by omega⟩]
    omega

theorem readSector_eq (h : e.Fits file.fileLength position)
    (hk : k < (1 + e.lastSector - e.firstSector).toNat) (disk : Disk) (buf : Bytes) :
    file.readSector disk e buf k = .ok (bcopy (disk (file.sector (e.firstSector.toNat + k))) buf
      (k * sectorSize) sectorSize) := by
  obtain ⟨hsector, hstart, harray⟩ := iteration h hk
  simp only [readSector, hsector, ok_bind, Disk.readSector_of_lt (Fin.isLt _), hstart, harray]
  rfl

theorem writeSector_eq (h : e.Fits file.fileLength position)
    (hk : k < (1 + e.lastSector - e.firstSector).toNat) (disk : Disk) (buf : Bytes) :
    file.writeSector e buf disk k = .ok (disk.put (file.sector (e.firstSector.toNat + k))
      fun j => buf (k * sectorSize + j)) := by
  obtain ⟨hsector, hstart, harray⟩ := iteration h hk
  simp only [writeSector, hsector, ok_bind, hstart, harray]
  exact Disk.writeSector_of_lt (Fin.isLt _)

theorem readSectors (h : e.Fits file.fileLength position) (disk : Disk) (heap : Bytes) :
    ∃ buf, forLoop (file.readSector disk e) (1 + e.lastSector - e.firstSector).toNat heap =
      .ok buf := by
  obtain ⟨buf, hbuf, -⟩ := forLoop_spec (f := file.readSector disk e) (s := heap) (fun _ _ => True)
    trivial fun k buf hk _ => ⟨_, readSector_eq h hk disk buf, trivial⟩
  exact ⟨buf, hbuf⟩

theorem writeSectors (h : e.Fits file.fileLength position) (disk : Disk) (buf : Bytes) :
    ∃ disk', forLoop (file.writeSector e buf) (1 + e.lastSector - e.firstSector).toNat disk =
      .ok disk' := by
  obtain ⟨disk', hdisk, -⟩ := forLoop_spec (f := file.writeSector e buf) (s := disk)
    (fun _ _ => True) trivial fun k disk hk _ => ⟨_, writeSector_eq h hk disk buf, trivial⟩
  exact ⟨disk', hdisk⟩

theorem readAt_of_fits (hn : 0 < numBytes) (hlt : position < file.fileLength)
    (h : (extent file.fileLength numBytes position).Fits file.fileLength position) (disk : Disk)
    (into heap : Bytes) :
    ∃ into', file.readAt disk into heap numBytes position =
      .ok ((extent file.fileLength numBytes position).numBytes, into') := by
  obtain ⟨buf, hbuf⟩ := readSectors h disk heap
  simp only [readAt, if_neg (show ¬(numBytes ≤ 0 ∨ position ≥ file.fileLength) by omega),
    h.newArray, ok_bind, hbuf, h.inArray file.isInt32 hlt]
  exact ⟨_, rfl⟩

theorem readInto_of_inside {q size start : ℤ} (hq : 0 ≤ q) (hlt : q * sectorSize < file.fileLength)
    (hstart : 0 ≤ start) (hsize : start + sectorSize ≤ size) (disk : Disk) (buf heap : Bytes) :
    ∃ buf', file.readInto disk buf heap size start q = .ok buf' := by
  obtain ⟨hfits, hle⟩ := fits_extent_sector file.isInt32 hq hlt
  obtain ⟨tail, htail⟩ := readAt_of_fits (by decide) hlt hfits disk
    (fun j => buf (start.toNat + j)) heap
  have hlength := file.isInt32
  unfold IsInt32 at hlength
  have hint : int32 (q * sectorSize) = q * sectorSize :=
    int32_of_isInt32 ⟨by simp only [sectorSize]; omega, by omega⟩
  have harray := inArray_of_le hstart hfits.pos.le (show start + _ ≤ size by omega)
  simp only [readInto, hint, htail, ok_bind, harray]
  exact ⟨_, rfl⟩

theorem writeAt_of_fits (hn : 0 < numBytes) (hlt : position < file.fileLength)
    (h : (extent file.fileLength numBytes position).Fits file.fileLength position) (disk : Disk)
    (source : Bytes) (heap : ℕ → Bytes) :
    ∃ disk', file.writeAt disk source heap numBytes position =
      .ok ((extent file.fileLength numBytes position).numBytes, disk') := by
  simp only [writeAt, if_neg (show ¬(numBytes ≤ 0 ∨ position ≥ file.fileLength) by omega),
    h.newArray, ok_bind, h.inArray file.isInt32 hlt]
  generalize extent file.fileLength numBytes position = e at *
  have hfirst := h.first
  have hle := h.le
  have hinside := h.inside
  have hsize := h.size
  have hlast : int32 (int32 (e.lastSector - e.firstSector) * sectorSize) =
      (e.lastSector - e.firstSector) * sectorSize := by
    simp only [sectorSize] at *
    rw [int32_of_isInt32 (x := _ - _) ⟨by omega, by omega⟩, int32_of_isInt32 ⟨by omega, by omega⟩]
  have hreadFirst : ∃ buf,
      file.readInto disk (heap 0) (heap 1) e.bufSize 0 e.firstSector = .ok buf := by
    refine readInto_of_inside hfirst ?_ le_rfl ?_ _ _ _ <;>
      simp only [h.bufSize, sectorSize] at * <;> omega
  have hreadLast (buf : Bytes) : ∃ buf',
      file.readInto disk buf (heap 2) e.bufSize ((e.lastSector - e.firstSector) * sectorSize)
        e.lastSector = .ok buf' := by
    refine readInto_of_inside (hfirst.trans hle) hinside ?_ ?_ _ _ _ <;>
      simp only [h.bufSize, sectorSize] at * <;> omega
  obtain ⟨buf, hbuf⟩ := hreadFirst
  choose next hnext using hreadLast
  choose written hwritten using writeSectors h disk
  simp only [hlast, hbuf, hnext, hwritten, ok_bind]
  split_ifs <;> exact ⟨_, rfl⟩

/-! ### Clamping -/

/-- The number of bytes of a request that are in the file. -/
def clamp (file : FileMap) (numBytes position : ℤ) : ℤ :=
  max 0 (min numBytes (file.fileLength - position))

/-- `ReadAt` stays inside the file and the array, and returns the clamped number of bytes. -/
def ReadClamped (file : FileMap) (numBytes position : ℤ) : Prop :=
  ∀ disk into heap, ∃ into',
    file.readAt disk into heap numBytes position = .ok (file.clamp numBytes position, into')

/-- `WriteAt` stays inside the file and the arrays, and returns the clamped number of bytes. -/
def WriteClamped (file : FileMap) (numBytes position : ℤ) : Prop :=
  ∀ disk source heap, ∃ disk',
    file.writeAt disk source heap numBytes position = .ok (file.clamp numBytes position, disk')

theorem clamp_of_empty (h : numBytes ≤ 0 ∨ position ≥ file.fileLength) :
    file.clamp numBytes position = 0 := by
  simp only [clamp]
  omega

theorem numBytes_extent (hpos : 0 ≤ position) (hn : 0 < numBytes)
    (hlt : position < file.fileLength)
    (h : ¬ TransferOverflows file.fileLength numBytes position) :
    (extent file.fileLength numBytes position).numBytes = file.clamp numBytes position := by
  have hsum : position + numBytes < 2 ^ 31 := by
    by_contra hle
    exact h ⟨hn, hlt, .inl (by omega)⟩
  rw [extent_eq file.isInt32 hpos hn hlt hsum, clamp]
  dsimp only
  omega

theorem nonneg_of_newArray {size : ℤ} (h : newArray size = .ok ()) : 0 ≤ size := by
  by_contra hneg
  simp [newArray, hneg] at h

/-- A transfer that succeeds has allocated the array, and returns the local variable. -/
theorem extent_of_readAt {disk : Disk} {into heap into' : Bytes} {c : ℤ}
    (hempty : ¬(numBytes ≤ 0 ∨ position ≥ file.fileLength))
    (h : file.readAt disk into heap numBytes position = .ok (c, into')) :
    c = (extent file.fileLength numBytes position).numBytes ∧
      0 ≤ (extent file.fileLength numBytes position).bufSize := by
  rw [readAt, if_neg hempty] at h
  obtain ⟨_, hnew, h⟩ := bind_eq_ok.1 h
  obtain ⟨_, _, h⟩ := bind_eq_ok.1 h
  obtain ⟨_, _, h⟩ := bind_eq_ok.1 h
  obtain ⟨rfl, -⟩ := Prod.mk.inj (Except.ok.inj h)
  exact ⟨rfl, nonneg_of_newArray hnew⟩

theorem extent_of_writeAt {disk disk' : Disk} {source : Bytes} {heap : ℕ → Bytes} {c : ℤ}
    (hempty : ¬(numBytes ≤ 0 ∨ position ≥ file.fileLength))
    (h : file.writeAt disk source heap numBytes position = .ok (c, disk')) :
    c = (extent file.fileLength numBytes position).numBytes ∧
      0 ≤ (extent file.fileLength numBytes position).bufSize := by
  rw [writeAt, if_neg hempty] at h
  obtain ⟨_, hnew, h⟩ := bind_eq_ok.1 h
  obtain ⟨_, _, h⟩ := bind_eq_ok.1 h
  obtain ⟨_, _, h⟩ := bind_eq_ok.1 h
  obtain ⟨_, _, h⟩ := bind_eq_ok.1 h
  obtain ⟨_, _, h⟩ := bind_eq_ok.1 h
  obtain ⟨rfl, -⟩ := Prod.mk.inj (Except.ok.inj h)
  exact ⟨rfl, nonneg_of_newArray hnew⟩

/-- What goes wrong otherwise: the request is not clamped, or the size of the array is negative. -/
theorem extent_of_overflows (hpos : 0 ≤ position) (hn : IsInt32 numBytes)
    (h : TransferOverflows file.fileLength numBytes position) :
    (extent file.fileLength numBytes position).numBytes ≠ file.clamp numBytes position ∨
      (extent file.fileLength numBytes position).bufSize < 0 := by
  obtain ⟨hn₀, hlt, hover⟩ := h
  have hlength := file.isInt32
  unfold IsInt32 at hlength hn
  by_cases hsum : 2 ^ 31 ≤ position + numBytes
  · left
    have hneg := int32_of_le hsum (by omega)
    have hcount : (extent file.fileLength numBytes position).numBytes = numBytes :=
      if_neg (by omega)
    rw [hcount, clamp]
    omega
  · right
    obtain ⟨hfirst, hlast⟩ := hover.resolve_left hsum
    rw [extent_eq hlength hpos hn₀ hlt (by omega), Extent.bufSize]
    simp only [sectorSize] at *
    -- the file has all sectors that an `int` can count, and the request begins in the first one
    have hcount : 1 + (position + min numBytes (file.fileLength - position) - 1) / (256 : ℕ) -
        position / (256 : ℕ) = 2 ^ 23 := by omega
    rw [hcount]
    decide

/-- Such a request is not clamped. -/
theorem not_clamped (hpos : 0 ≤ position) (hn : IsInt32 numBytes)
    (h : TransferOverflows file.fileLength numBytes position) :
    ¬ file.ReadClamped numBytes position ∧ ¬ file.WriteClamped numBytes position := by
  have hempty : ¬(numBytes ≤ 0 ∨ position ≥ file.fileLength) := by
    have := h.1
    have := h.2.1
    omega
  have hwrong := extent_of_overflows hpos hn h
  refine ⟨fun hread => ?_, fun hwrite => ?_⟩
  · obtain ⟨into', hinto⟩ := hread (fun _ _ => 0) (fun _ => 0) fun _ => 0
    obtain ⟨hcount, hsize⟩ := extent_of_readAt hempty hinto
    exact hwrong.elim (fun hne => hne hcount.symm) hsize.not_gt
  · obtain ⟨disk', hdisk⟩ := hwrite (fun _ _ => 0) (fun _ => 0) fun _ _ => 0
    obtain ⟨hcount, hsize⟩ := extent_of_writeAt hempty hdisk
    exact hwrong.elim (fun hne => hne hcount.symm) hsize.not_gt

theorem clamped (hpos : 0 ≤ position)
    (h : ¬ TransferOverflows file.fileLength numBytes position) :
    file.ReadClamped numBytes position ∧ file.WriteClamped numBytes position := by
  by_cases hempty : numBytes ≤ 0 ∨ position ≥ file.fileLength
  · have hclamp := clamp_of_empty hempty
    refine ⟨fun disk into heap => ⟨into, ?_⟩, fun disk source heap => ⟨disk, ?_⟩⟩
    · rw [readAt, if_pos hempty, hclamp]
    · rw [writeAt, if_pos hempty, hclamp]
  · have hn : 0 < numBytes := by omega
    have hlt : position < file.fileLength := by omega
    have hfits := fits_extent file.isInt32 hpos hn hlt h
    rw [ReadClamped, WriteClamped, ← numBytes_extent hpos hn hlt h]
    exact ⟨readAt_of_fits hn hlt hfits, writeAt_of_fits hn hlt hfits⟩

/-- **Transfer lengths are clamped** exactly when no number of the request wraps around. -/
theorem clamped_iff (hpos : 0 ≤ position) (hn : IsInt32 numBytes) :
    (file.ReadClamped numBytes position ↔
        ¬ TransferOverflows file.fileLength numBytes position) ∧
      (file.WriteClamped numBytes position ↔
        ¬ TransferOverflows file.fileLength numBytes position) :=
  ⟨⟨fun h hover => (not_clamped hpos hn hover).1 h, fun h => (clamped hpos h).1⟩,
    ⟨fun h hover => (not_clamped hpos hn hover).2 h, fun h => (clamped hpos h).2⟩⟩

/-- A file of ten bytes. -/
def tenBytes : FileMap where
  fileLength := 10
  isInt32 := ⟨by decide, by decide⟩
  sector := fun _ => ⟨5, by decide⟩

/-- A request for more bytes than there are is clamped. -/
theorem clamped_iff_tenBytes :
    tenBytes.ReadClamped 100 1 ∧ tenBytes.WriteClamped 100 1 ∧ tenBytes.clamp 100 1 = 9 :=
  ⟨(clamped_iff (by decide) ⟨by decide, by decide⟩).1.2 (by decide),
    (clamped_iff (by decide) ⟨by decide, by decide⟩).2.2 (by decide), by decide⟩

/-- A request for the largest number of bytes, from the second byte on, is not clamped. -/
theorem tenBytes_not_clamped :
    ¬ ∀ (file : FileMap) (numBytes position : ℤ), 0 ≤ position → position < 2 ^ 31 →
      IsInt32 numBytes → file.ReadClamped numBytes position ∧ file.WriteClamped numBytes position :=
  fun h =>
    have hn : IsInt32 (2 ^ 31 - 1) := ⟨by decide, by decide⟩
    (not_clamped (by decide) hn (by decide)).1
      (h tenBytes (2 ^ 31 - 1) 1 (by decide) (by decide) hn).1

end FileMap

/-! ### Files of a header -/

namespace FileHeader.Lists

/-- The sectors that the header lists. -/
def toFileMap {hdr : FileHeader} (h : hdr.Lists) : FileMap where
  fileLength := hdr.fileLength
  isInt32 := UserProg.isInt32_toInt _
  sector i := if hi : i < hdr.blocks then ⟨hdr.sectorAt i, h.sectorAt_lt hi⟩ else ⟨0, by decide⟩

variable {file : OpenFile} {numBytes : ℤ} {position : ℕ} {k : ℕ}

theorem sector_toFileMap (h : file.hdr.Lists) (hk : k < file.hdr.blocks) :
    (h.toFileMap.sector k : ℕ) = file.hdr.sectorAt k := by
  simp [toFileMap, hk]

@[simp]
theorem fileLength_toFileMap (h : file.hdr.Lists) :
    h.toFileMap.fileLength = file.hdr.fileLength := rfl

/-- A file with such a header is much smaller than `2 ^ 31` bytes. -/
theorem overflows_iff (h : file.hdr.Lists) :
    TransferOverflows h.toFileMap.fileLength numBytes position ↔
      file.Overflows numBytes position := by
  have hle := h.le
  refine and_congr_right fun _ => and_congr_right fun _ => or_iff_left fun hlast => ?_
  have hlast := hlast.2
  simp only [toFileMap, FileHeader.blocks, FileHeader.length, sectorSize, numDirect] at hle hlast
  omega

/-- What `ReadAt` and `WriteAt` compute for a request that is not empty. -/
theorem extent_toFileMap (h : file.hdr.Lists) (hn : 0 < numBytes)
    (hlt : (position : ℤ) < file.hdr.fileLength) (hover : ¬ file.Overflows numBytes position) :
    let e := extent file.hdr.fileLength numBytes position
    let c := file.available numBytes.toNat position
    e.Fits file.hdr.fileLength position ∧ e.numBytes = c ∧
      e.firstSector = (position / sectorSize : ℕ) ∧
      e.lastSector = ((position + c - 1) / sectorSize : ℕ) ∧
      (position + c - 1) / sectorSize < file.hdr.blocks := by
  have hsum : position + numBytes < 2 ^ 31 := by
    by_contra hle
    exact hover ⟨hn, hlt, by omega⟩
  have hfits := fits_extent h.toFileMap.isInt32 (Int.natCast_nonneg _) hn hlt
    ((overflows_iff h).not.2 hover)
  refine ⟨hfits, ?_⟩
  have hlength : IsInt32 file.hdr.fileLength := UserProg.isInt32_toInt _
  rw [extent_eq hlength (by omega) hn hlt hsum]
  have hcount : min numBytes (file.hdr.fileLength - position) =
      (file.available numBytes.toNat position : ℕ) := by
    simp only [OpenFile.available]
    split_ifs <;> omega
  have hpos : 0 < file.available numBytes.toNat position := by omega
  have hend : position + file.available numBytes.toNat position - 1 < file.hdr.length := by
    simp only [FileHeader.length]
    omega
  rw [hcount]
  refine ⟨rfl, rfl, ?_, FileHeader.div_lt_blocks hend⟩
  simp only [sectorSize]
  omega

theorem toNat_bufStart (h : file.hdr.Lists) (hn : 0 < numBytes)
    (hlt : (position : ℤ) < file.hdr.fileLength) (hover : ¬ file.Overflows numBytes position) :
    ((extent file.hdr.fileLength numBytes position).bufStart position).toNat =
      position - position / sectorSize * sectorSize := by
  obtain ⟨hfits, -, hfirst, -⟩ := extent_toFileMap h hn hlt hover
  rw [hfits.bufStart h.toFileMap.isInt32 hlt, hfirst]
  simp only [sectorSize]
  omega

/-- The loop of `ReadAt`. -/
theorem readSectors_toFileMap (h : file.hdr.Lists) {e : Extent} {p : ℤ} {first last : ℕ}
    (hfits : e.Fits file.hdr.fileLength p) (hfirst : e.firstSector = first)
    (hlast : e.lastSector = last) (hblocks : last < file.hdr.blocks) (disk : Disk) (heap : Bytes) :
    forLoop (h.toFileMap.readSector disk e) (1 + e.lastSector - e.firstSector).toNat heap =
      forLoop (fun buf k => do
        let sector ← file.hdr.byteToSector ((first + k) * sectorSize)
        let data ← disk.readSector sector.toNat
        return bcopy data buf (k * sectorSize) sectorSize) (1 + last - first) heap := by
  have hcount : (1 + e.lastSector - e.firstSector).toNat = 1 + last - first := by omega
  rw [hcount]
  refine forLoop_congr (fun k hk buf => ?_) heap
  obtain ⟨w, hw, hs⟩ := h.byteToSector (i := first + k) (by omega)
  rw [h.toFileMap.readSector_eq hfits (by omega), hw, ok_bind, hs,
    Disk.readSector_of_lt (h.sectorAt_lt (by omega)), hfirst, Int.toNat_natCast,
    h.sector_toFileMap (by omega)]
  rfl

/-- The loop of `WriteAt`. -/
theorem writeSectors_toFileMap (h : file.hdr.Lists) {e : Extent} {p : ℤ} {first last : ℕ}
    (hfits : e.Fits file.hdr.fileLength p) (hfirst : e.firstSector = first)
    (hlast : e.lastSector = last) (hblocks : last < file.hdr.blocks) (disk : Disk) (buf : Bytes) :
    forLoop (h.toFileMap.writeSector e buf) (1 + e.lastSector - e.firstSector).toNat disk =
      forLoop (fun disk k => do
        let sector ← file.hdr.byteToSector ((first + k) * sectorSize)
        Disk.writeSector disk sector.toNat fun i => buf (k * sectorSize + i)) (1 + last - first)
        disk := by
  have hcount : (1 + e.lastSector - e.firstSector).toNat = 1 + last - first := by omega
  rw [hcount]
  refine forLoop_congr (fun k hk disk => ?_) disk
  obtain ⟨w, hw, hs⟩ := h.byteToSector (i := first + k) (by omega)
  rw [h.toFileMap.writeSector_eq hfits (by omega), hw, ok_bind, hs,
    Disk.writeSector_of_lt (h.sectorAt_lt (by omega)), hfirst, Int.toNat_natCast,
    h.sector_toFileMap (by omega)]

/-- Without an overflow, `ReadAt` is the function of natural numbers. -/
theorem readAt_toFileMap (h : file.hdr.Lists) (hover : ¬ file.Overflows numBytes position)
    (disk : Disk) (into : Bytes) :
    h.toFileMap.readAt disk into (fun _ => 0) numBytes position =
      (file.readAtInt disk into numBytes position).map fun r => ((r.1 : ℤ), r.2) := by
  rw [OpenFile.readAtInt, if_neg hover, FileMap.readAt, fileLength_toFileMap]
  by_cases hempty : numBytes ≤ 0 ∨ (position : ℤ) ≥ file.hdr.fileLength
  · rw [if_pos hempty, OpenFile.readAt, if_pos (by omega)]
    rfl
  have hn : 0 < numBytes := by omega
  have hlt : (position : ℤ) < file.hdr.fileLength := by omega
  obtain ⟨hfits, hcount, hfirst, hlast, hblocks⟩ := extent_toFileMap h hn hlt hover
  have hstart := toNat_bufStart h hn hlt hover
  have harray := hfits.inArray h.toFileMap.isInt32 hlt
  rw [hcount] at harray
  rw [if_neg hempty, OpenFile.readAt, if_neg (by omega)]
  simp only [hfits.newArray, ok_bind, harray, hstart, hcount, Int.toNat_natCast,
    readSectors_toFileMap h hfits hfirst hlast hblocks]
  generalize forLoop _ _ _ = buf
  cases buf with
  | error e => simp only [error_bind, map_error]
  | ok buf => simp only [ok_bind, pure, Except.pure, map_ok]

/-- The number of a sector of such a file is small. -/
theorem int32_mul_sectorSize {q : ℕ} (hq : q ≤ numDirect) :
    int32 ((q : ℤ) * sectorSize) = (q * sectorSize : ℕ) := by
  simp only [sectorSize, numDirect] at *
  rw [int32_of_isInt32 ⟨by omega, by omega⟩, Int.natCast_mul]

/-- The test of `WriteAt` on the end of the request. -/
theorem lastAligned_iff {last c : ℕ} (hlast : last < numDirect)
    (hstop : (position : ℤ) + c ≤ (last + 1) * sectorSize) :
    int32 (position + c) = int32 (int32 ((last : ℤ) + 1) * sectorSize) ↔
      position + c = (last + 1) * sectorSize := by
  have hsmall : last < 62 := hlast.trans_le (by decide)
  have hnext : int32 ((last : ℤ) + 1) = (last + 1 : ℕ) :=
    int32_of_isInt32 ⟨by omega, by omega⟩
  rw [hnext, int32_mul_sectorSize hlast]
  simp only [sectorSize] at hstop ⊢
  rw [int32_of_isInt32 ⟨by omega, by omega⟩]
  omega

/-- Where `WriteAt` puts the last sector. -/
theorem lastStart_eq {first last : ℕ} (hle : first ≤ last) (hlast : last < numDirect) :
    int32 (int32 ((last : ℤ) - first) * sectorSize) = ((last - first) * sectorSize : ℕ) := by
  have hsmall : last < 62 := hlast.trans_le (by decide)
  have hsub : int32 ((last : ℤ) - first) = (last - first : ℕ) := by
    rw [int32_of_isInt32 ⟨by omega, by omega⟩]
    omega
  rw [hsub, int32_mul_sectorSize (by omega)]

/-- What `WriteAt` reads lands where it was read. -/
theorem join_eq (buf : Bytes) (start : ℕ) :
    (fun i => if i < start then buf i else buf (start + (i - start))) = buf := by
  funext i
  split_ifs with hi
  · rfl
  · rw [Nat.add_sub_cancel' (not_lt.1 hi)]

/-- `WriteAt` reads a sector of the file. -/
theorem readInto_toFileMap (h : file.hdr.Lists) {q start : ℕ} {size : ℤ}
    (hq : q < file.hdr.blocks) (hsize : (start : ℤ) + sectorSize ≤ size) (disk : Disk)
    (buf : Bytes) :
    h.toFileMap.readInto disk buf (fun _ => 0) size start q =
      (file.readAt disk (fun i => buf (start + i)) sectorSize (q * sectorSize)).map
        fun r i => if i < start then buf i else r.2 (i - start) := by
  have hblocks := h.le
  have hsmall : q * sectorSize + sectorSize < 2 ^ 31 := by
    simp only [sectorSize, numDirect] at *
    omega
  have hover : ¬ file.Overflows sectorSize (q * sectorSize) := fun hover => by
    have := hover.2.2
    omega
  have hint := int32_mul_sectorSize (hq.le.trans hblocks)
  have harray : inArray size start (min sectorSize (file.hdr.length - q * sectorSize) : ℕ) =
      .ok () :=
    inArray_of_le (by omega) (by omega) (by omega)
  rw [FileMap.readInto, hint, readAt_toFileMap h hover, OpenFile.readAtInt, if_neg hover]
  simp only [Int.toNat_natCast, OpenFile.readAt_eq h, map_ok, ok_bind, harray]
  rfl

/-- Without an overflow, `WriteAt` is the function of natural numbers. -/
theorem writeAt_toFileMap (h : file.hdr.Lists) (hover : ¬ file.Overflows numBytes position)
    (disk : Disk) (source : Bytes) {heap : ℕ → Bytes} (hheap : ∀ i, heap (i + 1) = fun _ => 0) :
    h.toFileMap.writeAt disk source heap numBytes position =
      (file.writeAtInt disk source numBytes position (heap 0)).map fun r => ((r.1 : ℤ), r.2) := by
  rw [OpenFile.writeAtInt, if_neg hover, FileMap.writeAt, fileLength_toFileMap]
  by_cases hempty : numBytes ≤ 0 ∨ (position : ℤ) ≥ file.hdr.fileLength
  · rw [if_pos hempty, OpenFile.writeAt, if_pos (by omega)]
    rfl
  have hn : 0 < numBytes := by omega
  have hlt : (position : ℤ) < file.hdr.fileLength := by omega
  obtain ⟨hfits, hcount, hfirst, hlast, hblocks⟩ := extent_toFileMap h hn hlt hover
  have harray := hfits.inArray h.toFileMap.isInt32 hlt
  have hstart := toNat_bufStart h hn hlt hover
  rw [hcount] at harray
  have hnonempty : ¬(numBytes.toNat = 0 ∨ file.hdr.fileLength ≤ position) := by omega
  have hwrite := writeSectors_toFileMap h hfits hfirst hlast hblocks disk
  have hbuf := hfits.bufSize
  have hle := hfits.le
  have hstop := hfits.stop
  rw [if_neg hempty, OpenFile.writeAt_eq hnonempty rfl rfl rfl]
  generalize extent file.hdr.fileLength numBytes position = e at *
  generalize file.available numBytes.toNat position = c at *
  generalize (position + c - 1) / sectorSize = last at *
  generalize position / sectorSize = first at *
  rw [hfirst, hlast] at hle hbuf
  rw [hlast, hcount] at hstop
  simp only [hfirst, hlast] at hwrite
  have hsmall : last < numDirect := hblocks.trans_le h.le
  have hint := int32_mul_sectorSize (q := first) (by omega)
  have hlastAligned := lastAligned_iff hsmall hstop
  have hlastStart : int32 (int32 ((last : ℤ) - first) * sectorSize) =
      ((last - first) * sectorSize : ℕ) := lastStart_eq (by omega) hsmall
  have hfirstRoom : ((0 : ℕ) : ℤ) + sectorSize ≤ e.bufSize := by
    simp only [hbuf, sectorSize]
    omega
  have hlastRoom : (((last - first) * sectorSize : ℕ) : ℤ) + sectorSize ≤ e.bufSize := by
    simp only [hbuf, sectorSize]
    omega
  have hread (q : ℕ) (buf : Bytes) : ∃ r : ℕ × Bytes,
      file.readAt disk buf sectorSize (q * sectorSize) = .ok r :=
    ⟨_, OpenFile.readAt_eq h disk buf sectorSize (q * sectorSize)⟩
  choose r hr using hread
  have hreadFirst := readInto_toFileMap h (show first < _ by omega) hfirstRoom disk (heap 0)
  have hreadLast (buf : Bytes) := readInto_toFileMap h hblocks hlastRoom disk buf
  simp only [hr, map_ok, Int.natCast_zero, Nat.not_lt_zero, if_false, Nat.sub_zero,
    Nat.zero_add] at hreadFirst hreadLast
  simp only [hfirst, hlast, hcount, Int.toNat_natCast, hint, hlastAligned, hlastStart, hheap,
    hreadFirst, hreadLast, hr, harray, hstart, hwrite, hfits.newArray, Int.natCast_inj, ok_bind, Ne]
  split_ifs <;> simp only [ok_bind, join_eq]
  all_goals
    generalize forLoop _ _ _ = written
    cases written with
    | error e => simp only [error_bind, map_error]
    | ok disk => simp only [ok_bind, pure, Except.pure, map_ok]

end FileHeader.Lists

end Nachos.FileSys
