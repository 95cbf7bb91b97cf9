import Nachos.FileSys.OpenFile
import Nachos.Foundations.CursorArray

/-!
# The contents of an open file

`Seek`, `Read` and `Write` of `filesys/openfile.cc`, and what an open file is to its users: an
array of bytes with a cursor (`CursorArray`). The bytes are spread over the sectors that the header
lists. A request is carried out by transfers of whole sectors, so that `WriteAt` first reads the
sectors of which it changes only a part.

## Main definitions

* `PositionedFile`: an open file with the position of `Read` and `Write`.
* `FileHeader.Lists`: the header lists enough sectors, which are distinct and on the disk.
* `FileHeader.contents`: the bytes of the file.

## Main results

* `OpenFile.readAt_eq`, `OpenFile.writeAt_spec`: one transfer.
* `PositionedFile.perform_spec`: one request.
* `file_refines_array`: any sequence of requests.
-/

namespace Nachos.FileSys

open Foundations CursorArray

/-! ### Requests -/

namespace OpenFile

/-- `position + numBytes` is above all `int` values when `ReadAt` or `WriteAt` computes it. -/
def Overflows (file : OpenFile) (numBytes : ℤ) (position : ℕ) : Prop :=
  0 < numBytes ∧ (position : ℤ) < file.hdr.fileLength ∧ 2 ^ 31 ≤ position + numBytes

instance (file : OpenFile) (numBytes : ℤ) (position : ℕ) :
    Decidable (file.Overflows numBytes position) :=
  inferInstanceAs (Decidable (_ ∧ _ ∧ _))

/-- `OpenFile::ReadAt`, for a number of bytes that may be negative. -/
def readAtInt (file : OpenFile) (disk : Disk) (into : Bytes) (numBytes : ℤ) (position : ℕ) :
    Except Fault (ℕ × Bytes) :=
  if file.Overflows numBytes position then .error .undefined
  else file.readAt disk into numBytes.toNat position

/-- `OpenFile::WriteAt`, for a number of bytes that may be negative. -/
def writeAtInt (file : OpenFile) (disk : Disk) (source : Bytes) (numBytes : ℤ) (position : ℕ)
    (heap : Bytes) : Except Fault (ℕ × Disk) :=
  if file.Overflows numBytes position then .error .undefined
  else file.writeAt disk source numBytes.toNat position heap

end OpenFile

/-- `OpenFile` with `seekPosition`. -/
structure PositionedFile extends OpenFile where
  seekPosition : ℕ

namespace PositionedFile

/-- `OpenFile::Seek`. -/
def seek (file : PositionedFile) (position : ℕ) : PositionedFile :=
  { file with seekPosition := position }

/-- `OpenFile::Read`. -/
def read (file : PositionedFile) (disk : Disk) (into : Bytes) (numBytes : ℤ) :
    Except Fault (PositionedFile × ℕ × Bytes) := do
  let (result, into) ← file.readAtInt disk into numBytes file.seekPosition
  return ({ file with seekPosition := file.seekPosition + result }, result, into)

/-- `OpenFile::Write`. -/
def write (file : PositionedFile) (disk : Disk) (source : Bytes) (numBytes : ℤ) (heap : Bytes) :
    Except Fault (PositionedFile × ℕ × Disk) := do
  let (result, disk) ← file.writeAtInt disk source numBytes file.seekPosition heap
  return ({ file with seekPosition := file.seekPosition + result }, result, disk)

/-- The function that a request calls. The array that `WriteAt` allocates contains `heap`. -/
def perform (file : PositionedFile) (disk : Disk) (heap : Bytes) :
    Request (BitVec 8) → Except Fault (PositionedFile × Disk × Reply (BitVec 8))
  | .seek position => .ok (file.seek position, disk, .done)
  | .read into numBytes => do
    let (file, result, into) ← file.read disk into numBytes
    return (file, disk, .read result into)
  | .write source numBytes => do
    let (file, result, disk) ← file.write disk source numBytes heap
    return (file, disk, .written result)
  | .readAt into numBytes position => do
    let (result, into) ← file.readAtInt disk into numBytes position
    return (file, disk, .read result into)
  | .writeAt source numBytes position => do
    let (result, disk) ← file.writeAtInt disk source numBytes position heap
    return (file, disk, .written result)

/-- Requests one after the other, each with what the allocated array contains. -/
def run (file : PositionedFile) (disk : Disk) : List (Request (BitVec 8) × Bytes) →
    Except Fault (PositionedFile × Disk × List (Reply (BitVec 8)))
  | [] => .ok (file, disk, [])
  | (r, heap) :: rs => do
    let (file, disk, reply) ← file.perform disk heap r
    let (file, disk, replies) ← file.run disk rs
    return (file, disk, reply :: replies)

end PositionedFile

/-! ### Bytes and sectors -/

namespace FileHeader

variable {hdr : FileHeader} {disk : Disk} {a b i n : ℕ}

/-- The number of bytes. A header that `Allocate` has written has a length that is not negative. -/
def length (hdr : FileHeader) : ℕ := hdr.fileLength.toNat

/-- The number of sectors that the bytes fill. -/
def blocks (hdr : FileHeader) : ℕ := (hdr.length + (sectorSize - 1)) / sectorSize

/-- The sectors of the bytes are listed, distinct and on the disk. -/
structure Lists (hdr : FileHeader) : Prop where
  le : hdr.blocks ≤ numDirect
  nodup : (hdr.firstSectors hdr.blocks).Nodup
  lt : ∀ s ∈ hdr.firstSectors hdr.blocks, s < Nachos.numSectors

/-- The sector with the number `i` within the file. -/
def sectorAt (hdr : FileHeader) (i : ℕ) : ℕ :=
  if h : i < numDirect then (hdr.dataSectors ⟨i, h⟩).toNat else 0

/-- The byte of the file at a position. -/
def byteAt (hdr : FileHeader) (disk : Disk) (a : ℕ) : BitVec 8 :=
  disk (hdr.sectorAt (a / sectorSize)) (a % sectorSize)

/-- The bytes of the file. -/
def contents (hdr : FileHeader) (disk : Disk) : List (BitVec 8) :=
  (List.range hdr.length).map (hdr.byteAt disk)

@[simp]
theorem length_contents (hdr : FileHeader) (disk : Disk) :
    (hdr.contents disk).length = hdr.length := by
  simp [contents]

theorem getElem?_contents (ha : a < hdr.length) :
    (hdr.contents disk)[a]? = some (hdr.byteAt disk a) := by
  simp [contents, ha]

theorem firstSectors_eq (h : n ≤ numDirect) :
    hdr.firstSectors n = (List.range n).map hdr.sectorAt := by
  induction n with
  | zero => rfl
  | succ n ih =>
    have hn : n < numDirect := h
    rw [firstSectors_succ hn, ih hn.le, List.range_succ, List.map_append]
    simp [sectorAt, hn]

theorem div_lt_blocks (ha : a < hdr.length) : a / sectorSize < hdr.blocks := by
  simp only [blocks, sectorSize]
  omega

namespace Lists

theorem mem (h : hdr.Lists) (hi : i < hdr.blocks) :
    hdr.sectorAt i ∈ hdr.firstSectors hdr.blocks := by
  rw [firstSectors_eq h.le]
  exact List.mem_map_of_mem (List.mem_range.2 hi)

theorem sectorAt_lt (h : hdr.Lists) (hi : i < hdr.blocks) :
    hdr.sectorAt i < Nachos.numSectors :=
  h.lt _ (h.mem hi)

theorem sectorAt_inj (h : hdr.Lists) {j : ℕ} (hi : i < hdr.blocks) (hj : j < hdr.blocks)
    (he : hdr.sectorAt i = hdr.sectorAt j) : i = j := by
  have hnd := h.nodup
  rw [firstSectors_eq h.le] at hnd
  exact List.inj_on_of_nodup_map hnd (List.mem_range.2 hi) (List.mem_range.2 hj) he

/-- `ByteToSector` of the first byte of a sector. -/
theorem byteToSector (h : hdr.Lists) (hi : i < hdr.blocks) :
    ∃ w, hdr.byteToSector (i * sectorSize) = .ok w ∧ w.toNat = hdr.sectorAt i := by
  have hi' : i < numDirect := hi.trans_le h.le
  have hdiv : i * sectorSize / sectorSize = i := Nat.mul_div_cancel _ (by decide)
  refine ⟨hdr.dataSectors ⟨i, hi'⟩, ?_, ?_⟩
  · rw [FileHeader.byteToSector, hdiv, dataSector, dif_pos hi']
  · rw [sectorAt, dif_pos hi']

/-- A write to one sector of the file changes the bytes of that sector. -/
theorem byteAt_put (h : hdr.Lists) (hb : b < hdr.blocks) (data : Bytes) (ha : a < hdr.length) :
    hdr.byteAt (disk.put (hdr.sectorAt b) data) a =
      if a / sectorSize = b then data (a % sectorSize) else hdr.byteAt disk a := by
  have hmod : a % sectorSize < sectorSize := Nat.mod_lt _ (by decide)
  rw [byteAt]
  split_ifs with he
  · rw [he, Disk.put_self hmod]
  · rw [Disk.put_of_ne fun hs => he (h.sectorAt_inj (div_lt_blocks ha) hb hs), byteAt]

end Lists

end FileHeader

/-! ### Transfers -/

namespace OpenFile

variable {file : OpenFile} {disk : Disk} {first m n p : ℕ}

/-- The sector of a byte that is read into the buffer. -/
private theorem div_mod_of_block (first : ℕ) {i k : ℕ} (h : k * sectorSize ≤ i)
    (h' : i < k * sectorSize + sectorSize) :
    (first * sectorSize + i) / sectorSize = first + k ∧
      (first * sectorSize + i) % sectorSize = i - k * sectorSize := by
  simp only [sectorSize] at *
  omega

/-- The loop of `ReadAt`. -/
private theorem read_sectors (h : file.hdr.Lists) (disk : Disk)
    (hm : first + m ≤ file.hdr.blocks) :
    ∃ buf, forLoop (fun buf k => do
        let sector ← file.hdr.byteToSector ((first + k) * sectorSize)
        let data ← disk.readSector sector.toNat
        return bcopy data buf (k * sectorSize) sectorSize) m (fun _ => 0) = .ok buf ∧
      ∀ i < m * sectorSize, buf i = file.hdr.byteAt disk (first * sectorSize + i) := by
  refine forLoop_spec (fun k (buf : Bytes) => ∀ i < k * sectorSize,
    buf i = file.hdr.byteAt disk (first * sectorSize + i)) (by simp) fun k buf hk hbuf => ?_
  have hb : first + k < file.hdr.blocks := by omega
  obtain ⟨w, hw, hs⟩ := h.byteToSector hb
  refine ⟨_, by rw [hw, ok_bind, hs, Disk.readSector_of_lt (h.sectorAt_lt hb), ok_bind]; rfl,
    fun i hi => ?_⟩
  rw [bcopy]
  split_ifs with hnew
  · obtain ⟨hdiv, hmod⟩ := div_mod_of_block first hnew.1 hnew.2
    rw [FileHeader.byteAt, hdiv, hmod]
  · rw [Nat.succ_mul] at hi
    exact hbuf i (Nat.lt_of_not_le fun hle => hnew ⟨hle, hi⟩)

/-- The loop of `WriteAt`. -/
private theorem write_sectors (h : file.hdr.Lists) (disk : Disk) (buf : Bytes)
    (hm : first + m ≤ file.hdr.blocks) :
    ∃ disk', forLoop (fun disk k => do
        let sector ← file.hdr.byteToSector ((first + k) * sectorSize)
        Disk.writeSector disk sector.toNat fun i => buf (k * sectorSize + i)) m disk = .ok disk' ∧
      (∀ a < file.hdr.length, file.hdr.byteAt disk' a =
        if first ≤ a / sectorSize ∧ a / sectorSize < first + m then buf (a - first * sectorSize)
        else file.hdr.byteAt disk a) ∧
      ∀ s ∉ file.hdr.firstSectors file.hdr.blocks, disk' s = disk s := by
  refine forLoop_spec (fun k disk' => (∀ a < file.hdr.length, file.hdr.byteAt disk' a =
      if first ≤ a / sectorSize ∧ a / sectorSize < first + k then buf (a - first * sectorSize)
      else file.hdr.byteAt disk a) ∧
    ∀ s ∉ file.hdr.firstSectors file.hdr.blocks, disk' s = disk s) ⟨fun a _ => ?_, by simp⟩
    fun k disk' hk ⟨hbytes, hother⟩ => ?_
  · rw [if_neg (by omega)]
  have hb : first + k < file.hdr.blocks := by omega
  obtain ⟨w, hw, hs⟩ := h.byteToSector hb
  refine ⟨_, by rw [hw, ok_bind, hs, Disk.writeSector_of_lt (h.sectorAt_lt hb)],
    fun a ha => ?_, fun s hs' => ?_⟩
  · rw [h.byteAt_put hb _ ha, hbytes a ha]
    by_cases hdiv : a / sectorSize = first + k
    · rw [if_pos hdiv, if_pos (by omega)]
      congr 1
      simp only [sectorSize] at *
      omega
    · rw [if_neg hdiv]
      exact if_congr (by omega) rfl rfl
  · have hne : s ≠ file.hdr.sectorAt (first + k) := fun he => hs' (he ▸ h.mem hb)
    rw [Disk.put_of_ne hne, hother s hs']

/-- The number of bytes of a request that is not empty. -/
private theorem available_eq (hp : ¬(n = 0 ∨ file.hdr.fileLength ≤ p)) :
    file.available n p = min n (file.hdr.length - p) ∧ 0 < file.available n p ∧
      p + file.available n p ≤ file.hdr.length := by
  simp only [available, FileHeader.length]
  split_ifs <;> omega

/-- `ReadAt` delivers the bytes of the file up to its end. -/
theorem readAt_eq (h : file.hdr.Lists) (disk : Disk) (into : Bytes) (n p : ℕ) :
    file.readAt disk into n p = .ok (min n (file.hdr.length - p), fun i =>
      if i < min n (file.hdr.length - p) then file.hdr.byteAt disk (p + i) else into i) := by
  rw [readAt]
  split_ifs with hp
  · have hmin : min n (file.hdr.length - p) = 0 := by
      simp only [FileHeader.length]
      omega
    simp [hmin]
  · obtain ⟨hcount, hpos, hle⟩ := available_eq hp
    have hlast : (p + file.available n p - 1) / sectorSize < file.hdr.blocks :=
      FileHeader.div_lt_blocks (by omega)
    have hfirst : p / sectorSize ≤ (p + file.available n p - 1) / sectorSize :=
      Nat.div_le_div_right (by omega)
    have hblocks : p / sectorSize + (1 + (p + file.available n p - 1) / sectorSize -
        p / sectorSize) ≤ file.hdr.blocks := by omega
    obtain ⟨buf, hbuf, hbytes⟩ := read_sectors h disk hblocks
    simp only [hbuf, ok_bind]
    rw [← hcount]
    refine congrArg Except.ok (Prod.ext rfl ?_)
    funext i
    simp only [bcopy, Nat.zero_le, true_and, Nat.zero_add, Nat.sub_zero]
    refine if_ctx_congr Iff.rfl (fun hi => ?_) fun _ => rfl
    rw [hbytes]
    · congr 1
      simp only [sectorSize] at *
      omega
    · simp only [sectorSize] at *
      omega

/-- A sector is read if it is changed only in part. -/
private theorem readAt_if (h : file.hdr.Lists) (disk : Disk) (into : Bytes) (changed : Prop)
    [Decidable changed] (b : ℕ) :
    ∃ r out, (if changed then file.readAt disk into sectorSize (b * sectorSize)
        else .ok (0, into)) = .ok (r, out) ∧
      (changed → ∀ i < sectorSize, b * sectorSize + i < file.hdr.length →
        out i = file.hdr.byteAt disk (b * sectorSize + i)) ∧
      (¬changed → out = into) := by
  by_cases hc : changed
  · refine ⟨_, _, by rw [if_pos hc, readAt_eq h], fun _ i hi hlen => ?_, fun hn => absurd hc hn⟩
    exact if_pos (by omega)
  · exact ⟨0, into, if_neg hc, fun hn => absurd hn hc, fun _ => rfl⟩

/-- The array of `WriteAt`, before it is written to the disk: it begins at the byte `F` of the file,
which is the first of a sector of `S` bytes, and its last sector begins at the byte `L`. The request
is for the `c` bytes from `p` on. If `buf` has the first sector and `tail` the last one, where they
were read, then the array has the new bytes in the place of the old ones. -/
private theorem bcopy_sectors {F L S c len a : ℕ} {source buf tail : Bytes} {byte : ℕ → BitVec 8}
    {tailRead : Prop} (hF : F ≤ p) (hF' : p < F + S) (hL : L < p + c) (hL' : p + c ≤ L + S)
    (hsame : F = L ∨ F + S ≤ L) (hlen : p + c ≤ len)
    (hbuf : p ≠ F → ∀ i < S, F + i < len → buf i = byte (F + i))
    (hiff : tailRead ↔ p + c ≠ L + S ∧ (F ≠ L ∨ p = F))
    (htail : tailRead → ∀ i < S, L + i < len → tail i = byte (L + i))
    (htail' : ¬tailRead → tail = fun i => buf (L - F + i))
    (ha : a < len) (hFa : F ≤ a) (haL : a < L + S) :
    bcopy source (fun i => if i < L - F then buf i else tail (i - (L - F))) (p - F) c (a - F) =
      if p ≤ a ∧ a < p + c then source (a - p) else byte a := by
  have hsplit : F + (a - F) = a := by omega
  rw [bcopy]
  by_cases hnew : p ≤ a ∧ a < p + c
  · rw [if_pos (by omega), if_pos hnew]
    congr 1
    omega
  rw [if_neg (by omega), if_neg hnew]
  rcases Nat.lt_or_ge a p with hap | hap
  · -- before the request, in the first sector
    have hold : buf (a - F) = byte a := by
      rw [hbuf (by omega) _ (by omega) (by omega), hsplit]
    split_ifs with hi
    · exact hold
    · have hnot : ¬tailRead := by
        rw [hiff]
        omega
      have hback : L - F + (a - F - (L - F)) = a - F := by omega
      simp only [htail' hnot, hback, hold]
  · -- behind the request, in the last sector
    rw [if_neg (by omega)]
    by_cases ht : tailRead
    · rw [htail ht _ (by omega) (by omega)]
      congr 1
      omega
    · have hpF : F = L ∧ p ≠ F := by
        rw [hiff] at ht
        omega
      have hback : L - F + (a - F - (L - F)) = a - F := by omega
      simp only [htail' ht, hback]
      rw [hbuf hpF.2 _ (by omega) (by omega), hsplit]

/-- `WriteAt` of a request that is not empty. -/
theorem writeAt_eq {source heap : Bytes} {first last c : ℕ}
    (hp : ¬(n = 0 ∨ file.hdr.fileLength ≤ p)) (hc : file.available n p = c)
    (hfirst : p / sectorSize = first) (hlast : (p + c - 1) / sectorSize = last) :
    file.writeAt disk source n p heap =
      ((if ¬p = first * sectorSize then file.readAt disk heap sectorSize (first * sectorSize)
        else .ok (0, heap)) >>= fun v =>
      (if ¬p + c = (last + 1) * sectorSize ∧ (first ≠ last ∨ p = first * sectorSize) then
          file.readAt disk (fun i => v.2 ((last - first) * sectorSize + i)) sectorSize
            (last * sectorSize)
        else .ok (0, fun i => v.2 ((last - first) * sectorSize + i))) >>= fun w =>
      (forLoop (fun disk k => do
        let sector ← file.hdr.byteToSector ((first + k) * sectorSize)
        Disk.writeSector disk sector.toNat fun i =>
          bcopy source (fun i => if i < (last - first) * sectorSize then v.2 i
            else w.2 (i - (last - first) * sectorSize)) (p - first * sectorSize) c
            (k * sectorSize + i)) (1 + last - first) disk) >>= fun disk => .ok (c, disk)) := by
  simp only [writeAt, if_neg hp, hc, hfirst, hlast]
  split_ifs <;> rfl

/-- `WriteAt` replaces bytes of the file up to its end. -/
theorem writeAt_spec (h : file.hdr.Lists) (disk : Disk) (source : Bytes) (n p : ℕ)
    (heap : Bytes) :
    ∃ disk', file.writeAt disk source n p heap = .ok (min n (file.hdr.length - p), disk') ∧
      (∀ a < file.hdr.length, file.hdr.byteAt disk' a =
        if p ≤ a ∧ a < p + min n (file.hdr.length - p) then source (a - p)
        else file.hdr.byteAt disk a) ∧
      ∀ s ∉ file.hdr.firstSectors file.hdr.blocks, disk' s = disk s := by
  by_cases hp : n = 0 ∨ file.hdr.fileLength ≤ p
  · have hmin : min n (file.hdr.length - p) = 0 := by
      simp only [FileHeader.length]
      omega
    refine ⟨disk, by rw [writeAt, if_pos hp, hmin], fun a _ => ?_, fun _ _ => rfl⟩
    rw [if_neg (by omega)]
  obtain ⟨hcount, hpos, hle⟩ := available_eq hp
  rw [← hcount]
  generalize hc : file.available n p = c at hpos hle
  generalize hf : p / sectorSize = first
  generalize hl : (p + c - 1) / sectorSize = last
  have hfl : first ≤ last := by
    rw [← hf, ← hl]
    exact Nat.div_le_div_right (by omega)
  have hlast : last < file.hdr.blocks := hl ▸ FileHeader.div_lt_blocks (by omega)
  obtain ⟨r, buf, hbuf, hread, -⟩ :=
    readAt_if h disk heap (¬p = first * sectorSize) first
  obtain ⟨r', tail, htail, hread', hkeep⟩ :=
    readAt_if h disk (fun i => buf ((last - first) * sectorSize + i))
      (¬p + c = (last + 1) * sectorSize ∧ (first ≠ last ∨ p = first * sectorSize)) last
  have hblocks : first + (1 + last - first) ≤ file.hdr.blocks := by omega
  obtain ⟨disk', hdisk, hbytes, hother⟩ := write_sectors h disk
    (bcopy source (fun i => if i < (last - first) * sectorSize then buf i
      else tail (i - (last - first) * sectorSize)) (p - first * sectorSize) c) hblocks
  refine ⟨disk', ?_, fun a ha => ?_, hother⟩
  · rw [writeAt_eq hp hc hf hl, hbuf, ok_bind, htail, ok_bind, hdisk, ok_bind]
  · have hF : first * sectorSize ≤ p ∧ p < first * sectorSize + sectorSize := by
      simp only [sectorSize] at *
      omega
    have hL : last * sectorSize < p + c ∧ p + c ≤ last * sectorSize + sectorSize := by
      simp only [sectorSize] at *
      omega
    have hsame : first = last ∨ first * sectorSize + sectorSize ≤ last * sectorSize := by
      simp only [sectorSize]
      omega
    have hoff : (last - first) * sectorSize = last * sectorSize - first * sectorSize :=
      Nat.sub_mul _ _ _
    rw [hoff] at hbytes hkeep
    rw [hbytes a ha]
    by_cases hin : first * sectorSize ≤ a ∧ a < last * sectorSize + sectorSize
    · rw [if_pos]
      · refine bcopy_sectors hF.1 hF.2 hL.1 hL.2 ?_ hle hread ?_
          hread' hkeep ha hin.1 hin.2
        · exact hsame.imp_left fun he => by rw [he]
        · rw [Nat.succ_mul, Ne, Ne, Ne, Nat.mul_left_inj (by decide : sectorSize ≠ 0)]
      · simp only [sectorSize] at *
        omega
    · rw [if_neg, if_neg (by omega)]
      simp only [sectorSize] at *
      omega

end OpenFile

/-! ### The file as an array -/

section

variable {file : OpenFile} {disk : Disk} {n : ℤ} {p : ℕ}

theorem FileHeader.count_contents (hdr : FileHeader) (disk : Disk) (n : ℤ) (p : ℕ) :
    count (hdr.contents disk) n p = min n.toNat (hdr.length - p) := by
  rw [count_eq, length_contents]

theorem OpenFile.not_overflows (h : p + n < 2 ^ 31) : ¬file.Overflows n p :=
  fun ho => absurd ho.2.2 (by omega)

/-- `ReadAt` reads from the array. -/
theorem OpenFile.readAtInt_eq (h : file.hdr.Lists) (disk : Disk) (into : Bytes)
    (hn : p + n < 2 ^ 31) :
    file.readAtInt disk into n p = .ok (count (file.hdr.contents disk) n p,
      fetch (file.hdr.contents disk) into n p) := by
  rw [readAtInt, if_neg (not_overflows hn), readAt_eq h,
    fetch_eq into fun i hi => FileHeader.getElem?_contents (by simpa using hi)]
  simp only [FileHeader.count_contents]

/-- `WriteAt` writes to the array, and to no sector that does not belong to the file. -/
theorem OpenFile.writeAtInt_spec (h : file.hdr.Lists) (disk : Disk) (source heap : Bytes)
    (hn : p + n < 2 ^ 31) :
    ∃ disk', file.writeAtInt disk source n p heap =
        .ok (count (file.hdr.contents disk) n p, disk') ∧
      file.hdr.contents disk' = overwrite (file.hdr.contents disk) source n p ∧
      ∀ s ∉ file.hdr.firstSectors file.hdr.blocks, disk' s = disk s := by
  obtain ⟨disk', hwrite, hbytes, hother⟩ := writeAt_spec h disk source n.toNat p heap
  refine ⟨disk', ?_, overwrite_eq (by simp) fun i hi => ?_, hother⟩
  · rw [writeAtInt, if_neg (not_overflows hn), hwrite, FileHeader.count_contents]
  · rw [FileHeader.length_contents] at hi
    rw [FileHeader.getElem?_contents hi, FileHeader.getElem?_contents hi, hbytes i hi,
      FileHeader.count_contents]
    split_ifs <;> rfl

end

namespace PositionedFile

/-- The array that the file stands for. -/
def array (file : PositionedFile) (disk : Disk) : CursorArray (BitVec 8) :=
  ⟨file.hdr.contents disk, file.seekPosition⟩

/-- The file is the same, and only its sectors have changed. -/
structure SameFile (file file' : PositionedFile) (disk disk' : Disk) : Prop where
  hdr : file'.hdr = file.hdr
  other : ∀ s ∉ file.hdr.firstSectors file.hdr.blocks, disk' s = disk s

variable {file : PositionedFile} {disk : Disk}

/-- A request does with the file what it does with the array. -/
theorem perform_spec (h : file.hdr.Lists) (disk : Disk) (heap : Bytes)
    (r : Request (BitVec 8)) (hr : (file.array disk).reach r < 2 ^ 31) :
    ∃ file' disk', file.perform disk heap r =
        .ok (file', disk', ((file.array disk).perform r).2) ∧
      file'.array disk' = ((file.array disk).perform r).1 ∧ SameFile file file' disk disk' := by
  cases r with
  | seek p => exact ⟨file.seek p, disk, rfl, rfl, rfl, fun _ _ => rfl⟩
  | read into n =>
    refine ⟨file.seek (file.seekPosition + count (file.hdr.contents disk) n file.seekPosition),
      disk, ?_, rfl, rfl, fun _ _ => rfl⟩
    rw [perform, read, OpenFile.readAtInt_eq (p := file.seekPosition) h disk into hr]
    rfl
  | write source n =>
    obtain ⟨disk', hwrite, hcontents, hother⟩ :=
      OpenFile.writeAtInt_spec (p := file.seekPosition) h disk source heap hr
    refine ⟨file.seek (file.seekPosition + count (file.hdr.contents disk) n file.seekPosition),
      disk', by rw [perform, write, hwrite]; rfl, ?_, rfl, hother⟩
    exact congrArg (CursorArray.mk · _) hcontents
  | readAt into n p =>
    refine ⟨file, disk, ?_, rfl, rfl, fun _ _ => rfl⟩
    rw [perform, OpenFile.readAtInt_eq h disk into hr]
    rfl
  | writeAt source n p =>
    obtain ⟨disk', hwrite, hcontents, hother⟩ :=
      OpenFile.writeAtInt_spec h disk source heap hr
    refine ⟨file, disk', by rw [perform, hwrite]; rfl, ?_, rfl, hother⟩
    exact congrArg (CursorArray.mk · _) hcontents

end PositionedFile

/-- An open file is an array of bytes with a cursor: any sequence of requests that stay below
`2 ^ 31` succeeds, gets the replies of the array, changes the bytes of the file as it changes the
array, and changes no sector that does not belong to the file. -/
theorem file_refines_array (file : PositionedFile) (disk : Disk)
    (requests : List (Request (BitVec 8) × Bytes)) (h : file.hdr.Lists)
    (hr : RunsBelow (2 ^ 31) (file.array disk) (requests.map Prod.fst)) :
    ∃ file' disk', file.run disk requests =
        .ok (file', disk', ((file.array disk).run (requests.map Prod.fst)).2) ∧
      file'.array disk' = ((file.array disk).run (requests.map Prod.fst)).1 ∧
      file'.hdr = file.hdr ∧
      ∀ s ∉ file.hdr.firstSectors file.hdr.blocks, disk' s = disk s := by
  induction requests generalizing file disk with
  | nil => exact ⟨file, disk, rfl, rfl, rfl, fun _ _ => rfl⟩
  | cons r rs ih =>
    obtain ⟨r, heap⟩ := r
    obtain ⟨hreach, hrest⟩ := hr
    obtain ⟨file₁, disk₁, hperform, harray, hsame⟩ := file.perform_spec h disk heap r hreach
    have h₁ : file₁.hdr.Lists := hsame.hdr ▸ h
    rw [← harray] at hrest
    obtain ⟨file₂, disk₂, hrun, harray', hhdr, hother⟩ := ih file₁ disk₁ h₁ hrest
    rw [harray] at hrun harray'
    refine ⟨file₂, disk₂, ?_, harray', hhdr.trans hsame.hdr, fun s hs => ?_⟩
    · rw [PositionedFile.run, hperform, ok_bind]
      simp only [hrun, ok_bind]
      rfl
    · rw [hother s (hsame.hdr ▸ hs), hsame.other s hs]

/-- A file of five bytes in the sector 7. -/
def smallFile : PositionedFile := ⟨⟨⟨5, 1, fun _ => 7⟩⟩, 0⟩

/-- Two bytes are written to the file, then a request for nine bytes at the position 1 reads the
second of them and three more. -/
theorem file_refines_array_of_smallFile :
    ∃ file' disk' into, smallFile.run (fun _ _ => 0)
        [(.write (fun _ => 1) 2, fun _ => 0), (.readAt (fun _ => 0) 9 1, fun _ => 0)] =
        .ok (file', disk', [.written 2, .read 4 into]) ∧ into 0 = 1 ∧ into 1 = 0 := by
  obtain ⟨file', disk', hrun, -⟩ := file_refines_array smallFile (fun _ _ => 0)
    [(.write (fun _ => 1) 2, fun _ => 0), (.readAt (fun _ => 0) 9 1, fun _ => 0)]
    ⟨by decide, by decide, by decide⟩ ⟨by decide, by decide, trivial⟩
  exact ⟨file', disk', _, hrun, by decide, by decide⟩

end Nachos.FileSys
