import Nachos.Machine.Disk
import Nachos.UserProg.BitMap
import Mathlib.Algebra.Group.Int.Defs
import Mathlib.Algebra.Group.Nat.Defs
import Mathlib.Data.Int.Notation
import Mathlib.Logic.Function.Basic

/-!
# File headers

`filesys/filehdr.cc`: the header of a file lists the sectors that hold its data and is stored in a
sector of its own. `Allocate` takes the sectors from the bitmap of the disk and `Deallocate`
gives them back.

## Main definitions

* `FileHeader`, `FileHeader.layout`.
* `FileHeader.allocate`, `FileHeader.deallocate`.
* `FileHeader.sectors`: the sectors of the data.

## Main results

* `FileHeader.allocate_spec`: the sectors that `Allocate` takes were free and are distinct.
* `FileHeader.allocate_allocatesWithin_iff`: the sizes for which `Allocate` stays inside the table.
* `FileHeader.deallocate_spec`: `Deallocate` frees distinct sectors that are marked.
-/

namespace Nachos.FileSys

open Foundations UserProg

/-- `NumDirect`. -/
abbrev numDirect : ℕ := (sectorSize - 2 * 4) / 4

/-- `MaxFileSize`. -/
abbrev maxFileSize : ℕ := numDirect * sectorSize

/-- `FileHeader`. -/
structure FileHeader where
  numBytes : BitVec 32
  numSectors : BitVec 32
  dataSectors : Fin numDirect → BitVec 32

namespace FileHeader

/-- The words of a header. -/
def layout : Layout FileHeader :=
  (Layout.word.prod (Layout.word.prod (Layout.word.array numDirect))).map
    (fun hdr => (hdr.numBytes, hdr.numSectors, hdr.dataSectors)) (fun w => ⟨w.1, w.2.1, w.2.2⟩)
    fun _ => rfl

/-- `FileHeader::FetchFrom`. -/
def fetchFrom (disk : Disk) (sector : ℕ) : Except Fault FileHeader := do
  return layout.fetch (← disk.readSector sector)

/-- `FileHeader::WriteBack`. -/
def writeBack (hdr : FileHeader) (disk : Disk) (sector : ℕ) : Except Fault Disk :=
  disk.writeSector sector (layout.store hdr)

/-- `dataSectors[i]`. -/
def dataSector (hdr : FileHeader) (i : ℕ) : Except Fault (BitVec 32) :=
  if h : i < numDirect then .ok (hdr.dataSectors ⟨i, h⟩) else .error .undefined

/-- `FileHeader::ByteToSector`. -/
def byteToSector (hdr : FileHeader) (offset : ℕ) : Except Fault (BitVec 32) :=
  hdr.dataSector (offset / sectorSize)

/-- `FileHeader::FileLength`. -/
def fileLength (hdr : FileHeader) : ℤ := hdr.numBytes.toInt

/-- `divRoundUp` of `int` values. -/
def divRoundUpInt (n s : ℤ) : ℤ := n.tdiv s + if n.tmod s > 0 then 1 else 0

/-- The result of `Find` as an `int`. -/
def sectorNumber : Option ℕ → BitVec 32
  | none => -1
  | some i => BitVec.ofNat 32 i

/-- `dataSectors[i] = freeMap->Find()`. -/
def allocateSector (v : FileHeader × BitMap Nachos.numSectors) (i : ℕ) :
    Except Fault (FileHeader × BitMap Nachos.numSectors) := do
  let (sector, freeMap) ← v.2.find
  if h : i < numDirect then
    .ok ({ v.1 with
      dataSectors := Function.update v.1.dataSectors ⟨i, h⟩ (sectorNumber sector) }, freeMap)
  else .error .undefined

/-- `FileHeader::Allocate`. -/
def allocate (hdr : FileHeader) (freeMap : BitMap Nachos.numSectors) (fileSize : ℤ) :
    Except Fault (Bool × FileHeader × BitMap Nachos.numSectors) := do
  let hdr := { hdr with
    numBytes := .ofInt 32 fileSize
    numSectors := .ofInt 32 (divRoundUpInt fileSize sectorSize) }
  if ((← freeMap.numClear) : ℤ) < hdr.numSectors.toInt then return (false, hdr, freeMap)
  else
    let v ← forLoop allocateSector hdr.numSectors.toInt.toNat (hdr, freeMap)
    return (true, v)

/-- `ASSERT(freeMap->Test(dataSectors[i]))` and `freeMap->Clear(dataSectors[i])`. A negative number
is above all sector numbers as a natural number. -/
def deallocateSector (hdr : FileHeader) (freeMap : BitMap Nachos.numSectors) (i : ℕ) :
    Except Fault (BitMap Nachos.numSectors) := do
  let sector ← hdr.dataSector i
  if ← freeMap.test sector.toNat then freeMap.clear sector.toNat else .error .assertion

/-- `FileHeader::Deallocate`. -/
def deallocate (hdr : FileHeader) (freeMap : BitMap Nachos.numSectors) :
    Except Fault (BitMap Nachos.numSectors) :=
  forLoop hdr.deallocateSector hdr.numSectors.toInt.toNat freeMap

/-! ### The sectors of a file -/

/-- The first `n` sectors that a header lists. -/
def firstSectors (hdr : FileHeader) (n : ℕ) : List ℕ :=
  ((List.ofFn hdr.dataSectors).take n).map BitVec.toNat

/-- The sectors of the data of a file. -/
def sectors (hdr : FileHeader) : List ℕ := hdr.firstSectors hdr.numSectors.toInt.toNat

variable {hdr : FileHeader} {n : ℕ} {freeMap map' : BitMap Nachos.numSectors}

@[simp]
theorem firstSectors_zero (hdr : FileHeader) : hdr.firstSectors 0 = [] := rfl

theorem firstSectors_succ (hn : n < numDirect) :
    hdr.firstSectors (n + 1) = hdr.firstSectors n ++ [(hdr.dataSectors ⟨n, hn⟩).toNat] := by
  simp [firstSectors, List.take_add_one, hn]

theorem firstSectors_update (hn : n < numDirect) (w : BitVec 32) :
    { hdr with dataSectors := Function.update hdr.dataSectors ⟨n, hn⟩ w }.firstSectors n =
      hdr.firstSectors n := by
  have h : List.ofFn (Function.update hdr.dataSectors ⟨n, hn⟩ w) =
      (List.ofFn hdr.dataSectors).set n w := by
    refine List.ext_getElem (by simp) fun i hi _ => ?_
    simp only [List.length_ofFn] at hi
    rw [List.getElem_set]
    by_cases hin : n = i
    · subst hin
      simp
    · simp [hin, Fin.ext_iff, Ne.symm hin]
  simp only [firstSectors, h, List.take_set_of_le le_rfl]

theorem toInt_ofInt {x : ℤ} (h₀ : 0 ≤ x) (h : x < 2 ^ 31) : (BitVec.ofInt 32 x).toInt = x := by
  rw [BitVec.toInt_ofInt]
  exact Int.bmod_eq_of_le (by omega) (by omega)

theorem divRoundUpInt_le {n : ℤ} (h₀ : 0 ≤ n) (h : n ≤ maxFileSize) :
    0 ≤ divRoundUpInt n sectorSize ∧ divRoundUpInt n sectorSize ≤ numDirect := by
  simp only [maxFileSize, numDirect, sectorSize] at h ⊢
  rw [divRoundUpInt, Int.tdiv_eq_ediv_of_nonneg h₀, Int.tmod_eq_emod_of_nonneg h₀]
  split_ifs <;> omega

/-! ### `Allocate` -/

/-- The first `n` sectors of a header have been taken from a bitmap. -/
structure Taken (freeMap : BitMap Nachos.numSectors) (hdr : FileHeader) (n : ℕ)
    (map' : BitMap Nachos.numSectors) : Prop where
  nodup : (hdr.firstSectors n).Nodup
  free {s : ℕ} : s ∈ hdr.firstSectors n → s < Nachos.numSectors ∧ freeMap.isSet s = false
  isSet_iff (s : ℕ) : map'.isSet s = true ↔ freeMap.isSet s = true ∨ s ∈ hdr.firstSectors n
  card : map'.freeItems.card + n = freeMap.freeItems.card

theorem Taken.zero (freeMap : BitMap Nachos.numSectors) (hdr : FileHeader) :
    Taken freeMap hdr 0 freeMap := by
  constructor <;> simp

/-- One iteration of the loop of `Allocate`. -/
theorem Taken.succ (h : Taken freeMap hdr n map') (hn : n < numDirect)
    (hc : n < freeMap.freeItems.card) :
    ∃ v, allocateSector (hdr, map') n = .ok v ∧ Taken freeMap v.1 (n + 1) v.2 ∧
      v.1.numBytes = hdr.numBytes ∧ v.1.numSectors = hdr.numSectors := by
  rcases map'.find_spec with ⟨i, hi, hfree, hf⟩ | ⟨he, -⟩
  · have hw : (BitVec.ofNat 32 i).toNat = i := by
      rw [BitVec.toNat_ofNat, Nat.mod_eq_of_lt]
      exact hi.trans (by decide)
    have hnot : ¬(freeMap.isSet i = true ∨ i ∈ hdr.firstSectors n) := by
      rw [← h.isSet_iff, hfree]
      exact Bool.false_ne_true
    refine ⟨_, by simp only [allocateSector, hf, ok_bind, dif_pos hn]; rfl, ?_, rfl, rfl⟩
    have hfirst (w : BitVec 32) :
        { hdr with dataSectors := Function.update hdr.dataSectors ⟨n, hn⟩ w }.firstSectors (n + 1) =
          hdr.firstSectors n ++ [w.toNat] := by
      rw [firstSectors_succ hn, firstSectors_update hn]
      simp
    constructor
    · rw [hfirst, sectorNumber, hw]
      exact h.nodup.append (List.nodup_singleton i) (by simpa using fun hs => hnot (.inr hs))
    · intro s hs
      rw [hfirst, sectorNumber, hw, List.mem_append, List.mem_singleton] at hs
      rcases hs with hs | rfl
      · exact h.free hs
      · exact ⟨hi, by simpa using fun hs => hnot (.inl hs)⟩
    · intro s
      rw [hfirst, sectorNumber, hw, BitMap.isSet_setBit, Bool.or_eq_true, h.isSet_iff]
      rw [decide_eq_true_eq, List.mem_append, List.mem_singleton, eq_comm, or_comm, or_assoc]
    · rw [BitMap.freeItems_setBit, Finset.card_erase_of_mem (BitMap.mem_freeItems.2 ⟨hi, hfree⟩)]
      have := h.card
      omega
  · have := h.card
    rw [he, Finset.card_empty] at this
    omega

/-- `Allocate` takes the sectors of a file, or leaves the bitmap as it is and returns `FALSE`
because too few sectors are free. -/
theorem allocate_spec (hdr : FileHeader) (freeMap : BitMap Nachos.numSectors) {fileSize : ℤ}
    (h₀ : 0 ≤ fileSize) (h : fileSize ≤ maxFileSize) :
    (∃ hdr', hdr.allocate freeMap fileSize = .ok (false, hdr', freeMap) ∧
      freeMap.freeItems.card < divRoundUpInt fileSize sectorSize) ∨
    ∃ hdr' map', hdr.allocate freeMap fileSize = .ok (true, hdr', map') ∧
      hdr'.numBytes.toInt = fileSize ∧ hdr'.numSectors.toInt = divRoundUpInt fileSize sectorSize ∧
      Taken freeMap hdr' hdr'.numSectors.toInt.toNat map' := by
  obtain ⟨hk₀, hk⟩ := divRoundUpInt_le h₀ h
  have hsize : (BitVec.ofInt 32 fileSize).toInt = fileSize :=
    toInt_ofInt h₀ (h.trans_lt (by decide))
  have hcount : (BitVec.ofInt 32 (divRoundUpInt fileSize sectorSize)).toInt =
      divRoundUpInt fileSize sectorSize :=
    toInt_ofInt hk₀ (hk.trans_lt (by decide))
  simp only [allocate, BitMap.numClear_eq, ok_bind, hcount]
  split_ifs with hfull
  · exact .inl ⟨_, rfl, hfull⟩
  · obtain ⟨v, hv, ht, hb, hn⟩ := forLoop_spec (f := allocateSector)
      (n := (divRoundUpInt fileSize sectorSize).toNat)
      (s := ({ hdr with
        numBytes := .ofInt 32 fileSize
        numSectors := .ofInt 32 (divRoundUpInt fileSize sectorSize) }, freeMap))
      (fun i v => Taken freeMap v.1 i v.2 ∧ v.1.numBytes = .ofInt 32 fileSize ∧
        v.1.numSectors = .ofInt 32 (divRoundUpInt fileSize sectorSize))
      ⟨.zero _ _, rfl, rfl⟩ fun i v hi ⟨ht, hb, hn⟩ => by
        obtain ⟨v', hv', ht', hb', hn'⟩ := ht.succ (by omega) (by omega)
        exact ⟨v', hv', ht', hb'.trans hb, hn'.trans hn⟩
    refine .inr ⟨v.1, v.2, ?_, by rw [hb, hsize], by rw [hn, hcount], ?_⟩
    · rw [hv]
      rfl
    · rwa [hn, hcount]

/-! ### Sizes that a header cannot hold -/

/-- `Allocate` refuses the sizes that the table of a header cannot hold, and for the others it lists
sectors that it has taken from the bitmap. -/
def AllocatesWithin (hdr : FileHeader) (freeMap : BitMap Nachos.numSectors)
    (fileSize : BitVec 32) : Prop :=
  ∃ success hdr' map', hdr.allocate freeMap fileSize.toInt = .ok (success, hdr', map') ∧
    (fileSize.toInt < 0 ∨ (numDirect : ℤ) < divRoundUpInt fileSize.toInt sectorSize →
      success = false ∧ map' = freeMap) ∧
    (success = true → hdr'.numBytes = fileSize ∧ 0 ≤ fileSize.toInt ∧
      hdr'.numSectors.toInt = divRoundUpInt fileSize.toInt sectorSize ∧
      hdr'.numSectors.toInt ≤ numDirect ∧
      Taken freeMap hdr' hdr'.numSectors.toInt.toNat map')

theorem divRoundUpInt_nonpos {n : ℤ} (h : n < 0) :
    n ≤ divRoundUpInt n sectorSize ∧ divRoundUpInt n sectorSize ≤ 0 := by
  obtain ⟨m, rfl⟩ : ∃ m, n = -m := ⟨-n, by omega⟩
  have hm : 0 ≤ m := by omega
  simp only [divRoundUpInt, sectorSize, Int.neg_tdiv, Int.neg_tmod]
  rw [Int.tdiv_eq_ediv_of_nonneg hm, Int.tmod_eq_emod_of_nonneg hm]
  split_ifs <;> omega

theorem divRoundUpInt_le_self {n : ℤ} (h : 0 ≤ n) :
    0 ≤ divRoundUpInt n sectorSize ∧ divRoundUpInt n sectorSize ≤ n := by
  simp only [divRoundUpInt, sectorSize]
  rw [Int.tdiv_eq_ediv_of_nonneg h, Int.tmod_eq_emod_of_nonneg h]
  split_ifs <;> omega

/-- The number of sectors is computed without an overflow. -/
theorem toInt_divRoundUpInt (fileSize : BitVec 32) :
    (BitVec.ofInt 32 (divRoundUpInt fileSize.toInt sectorSize)).toInt =
      divRoundUpInt fileSize.toInt sectorSize := by
  have hlow := fileSize.le_toInt
  have hhigh := fileSize.toInt_lt
  rcases lt_or_ge fileSize.toInt 0 with h | h
  · obtain ⟨h₁, h₂⟩ := divRoundUpInt_nonpos h
    exact BitVec.toInt_ofInt_eq_self (by decide) (by omega) (by omega)
  · obtain ⟨h₁, h₂⟩ := divRoundUpInt_le_self h
    exact BitVec.toInt_ofInt_eq_self (by decide) (by omega) (by omega)

/-- `Allocate` returns `TRUE` for a negative size. -/
theorem allocate_of_neg (hdr : FileHeader) (freeMap : BitMap Nachos.numSectors)
    {fileSize : BitVec 32} (h : fileSize.toInt < 0) :
    ∃ hdr', hdr.allocate freeMap fileSize.toInt = .ok (true, hdr', freeMap) := by
  have hk := (divRoundUpInt_nonpos h).2
  simp only [allocate, BitMap.numClear_eq, ok_bind, toInt_divRoundUpInt]
  rw [if_neg (by omega), Int.toNat_eq_zero.2 hk]
  exact ⟨_, rfl⟩

/-- `Allocate` stores behind the table when there are sectors for a file that is too large. -/
theorem allocate_of_large (hdr : FileHeader) (freeMap : BitMap Nachos.numSectors)
    {fileSize : BitVec 32} (h : (numDirect : ℤ) < divRoundUpInt fileSize.toInt sectorSize)
    (hc : divRoundUpInt fileSize.toInt sectorSize ≤ freeMap.freeItems.card) :
    hdr.allocate freeMap fileSize.toInt = .error .undefined := by
  simp only [allocate, BitMap.numClear_eq, ok_bind, toInt_divRoundUpInt]
  rw [if_neg (by omega)]
  generalize { hdr with
    numBytes := .ofInt 32 fileSize.toInt
    numSectors := .ofInt 32 (divRoundUpInt fileSize.toInt sectorSize) } = hdr'
  -- the table is full after `NumDirect` iterations
  obtain ⟨v, hv, ht⟩ := forLoop_spec (f := allocateSector) (n := numDirect) (s := (hdr', freeMap))
    (fun i v => Taken freeMap v.1 i v.2) (.zero _ _) fun i v hi ht => by
      obtain ⟨v', hv', ht', -⟩ := ht.succ hi (by omega)
      exact ⟨v', hv', ht'⟩
  have hlast : forLoop allocateSector (numDirect + 1) (hdr', freeMap) = .error .undefined := by
    rw [forLoop_succ, hv]
    rcases v.2.find_spec with ⟨i, hi, -, hf⟩ | ⟨-, hf⟩ <;>
      simp [allocateSector, Except.bind, hf]
  rw [forLoop_eq_error (by omega) hlast]
  rfl

/-- `Allocate` returns `FALSE` when the disk is too full for the file. -/
theorem allocate_of_full (hdr : FileHeader) (freeMap : BitMap Nachos.numSectors)
    {fileSize : BitVec 32}
    (h : (freeMap.freeItems.card : ℤ) < divRoundUpInt fileSize.toInt sectorSize) :
    ∃ hdr', hdr.allocate freeMap fileSize.toInt = .ok (false, hdr', freeMap) := by
  simp only [allocate, BitMap.numClear_eq, ok_bind, toInt_divRoundUpInt]
  rw [if_pos h]
  exact ⟨_, rfl⟩

theorem le_maxFileSize {n : ℤ} (h₀ : 0 ≤ n) (h : divRoundUpInt n sectorSize ≤ numDirect) :
    n ≤ maxFileSize := by
  simp only [maxFileSize, numDirect, sectorSize] at h ⊢
  rw [divRoundUpInt, Int.tdiv_eq_ediv_of_nonneg h₀, Int.tmod_eq_emod_of_nonneg h₀] at h
  split_ifs at h <;> omega

/-- `Allocate` stays inside the table of a header if and only if the size is not negative and either
the table is large enough or the disk is too full for the file. -/
theorem allocate_allocatesWithin_iff (hdr : FileHeader) (freeMap : BitMap Nachos.numSectors)
    (fileSize : BitVec 32) :
    hdr.AllocatesWithin freeMap fileSize ↔ 0 ≤ fileSize.toInt ∧
      (divRoundUpInt fileSize.toInt sectorSize ≤ numDirect ∨
        freeMap.freeItems.card < divRoundUpInt fileSize.toInt sectorSize) := by
  constructor
  · rintro ⟨success, hdr', map', ha, hrefused, -⟩
    by_contra hc
    have hc' : fileSize.toInt < 0 ∨ (numDirect : ℤ) < divRoundUpInt fileSize.toInt sectorSize ∧
        divRoundUpInt fileSize.toInt sectorSize ≤ freeMap.freeItems.card := by
      omega
    rcases hc' with h | ⟨h, hc⟩
    · obtain ⟨hdr₁, h₁⟩ := hdr.allocate_of_neg freeMap h
      rw [h₁] at ha
      cases ha
      exact absurd (hrefused (.inl h)).1 (by decide)
    · rw [hdr.allocate_of_large freeMap h hc] at ha
      cases ha
  · rintro ⟨h₀, h⟩
    by_cases hfull : (freeMap.freeItems.card : ℤ) < divRoundUpInt fileSize.toInt sectorSize
    · obtain ⟨hdr', ha⟩ := hdr.allocate_of_full freeMap hfull
      exact ⟨_, _, _, ha, fun _ => ⟨rfl, rfl⟩, fun hf => absurd hf (by decide)⟩
    · have hk := h.resolve_right hfull
      rcases hdr.allocate_spec freeMap h₀ (le_maxFileSize h₀ hk) with ⟨hdr', ha, hfull'⟩ |
        ⟨hdr', map', ha, hb, hn, ht⟩
      · exact absurd hfull' hfull
      · refine ⟨_, _, _, ha, fun hr => by omega, fun _ => ⟨?_, h₀, hn, by omega, ht⟩⟩
        exact BitVec.eq_of_toInt_eq hb

/-- `Allocate` for one byte more than `MaxFileSize` on an empty disk. -/
theorem allocate_stores_behind_table :
    ¬AllocatesWithin ⟨0, 0, fun _ => 0⟩ ⟨Vector.replicate _ 0⟩ (.ofNat 32 (maxFileSize + 1)) := by
  have hcard : (⟨Vector.replicate _ 0⟩ : BitMap Nachos.numSectors).freeItems =
      Finset.range Nachos.numSectors := by
    refine Finset.filter_true_of_mem fun i hi => ?_
    simp [BitMap.isSet, BitMap.word]
  rintro ⟨success, hdr', map', ha, -⟩
  rw [allocate_of_large _ _ (by decide) (by rw [hcard, Finset.card_range]; decide)] at ha
  cases ha

/-! ### `Deallocate` -/

/-- `Deallocate` of sectors that are distinct and marked. -/
theorem deallocate_spec (hn : hdr.numSectors.toInt.toNat ≤ numDirect) (hd : hdr.sectors.Nodup)
    (hs : ∀ s ∈ hdr.sectors, freeMap.isSet s = true) :
    ∃ map', hdr.deallocate freeMap = .ok map' ∧
      ∀ s, map'.isSet s = true ↔ freeMap.isSet s = true ∧ s ∉ hdr.sectors := by
  have hinit {i : ℕ} (hi : i ≤ hdr.numSectors.toInt.toNat) :
      hdr.firstSectors i <+: hdr.sectors :=
    (List.take_prefix_take_left hi).map _
  refine forLoop_spec (f := hdr.deallocateSector)
    (fun i map' => ∀ s, map'.isSet s = true ↔ freeMap.isSet s = true ∧ s ∉ hdr.firstSectors i)
    (by simp) fun i map' hi hmap => ?_
  have hi' : i < numDirect := by omega
  have hsucc : hdr.firstSectors (i + 1) = _ := firstSectors_succ hi'
  have hmem : (hdr.dataSectors ⟨i, hi'⟩).toNat ∈ hdr.sectors :=
    (hinit hi).subset (by simp [hsucc])
  have hnot : (hdr.dataSectors ⟨i, hi'⟩).toNat ∉ hdr.firstSectors i := by
    have := (hinit hi).sublist.nodup hd
    rw [hsucc, List.nodup_append] at this
    exact fun h => this.2.2 _ h _ (List.mem_singleton_self _) rfl
  have hset : map'.isSet (hdr.dataSectors ⟨i, hi'⟩).toNat = true :=
    (hmap _).2 ⟨hs _ hmem, hnot⟩
  have hlt := BitMap.lt_of_isSet hset
  refine ⟨map'.clearBit _ hlt, ?_, fun s => ?_⟩
  · simp [deallocateSector, dataSector, hi', BitMap.test_of_lt _ hlt, hset,
      BitMap.clear_of_lt _ hlt]
  · rw [BitMap.isSet_clearBit, Bool.and_eq_true, hmap, hsucc]
    simp only [Bool.not_eq_true', decide_eq_false_iff_not, List.mem_append, List.mem_singleton]
    tauto

end FileHeader

end Nachos.FileSys
