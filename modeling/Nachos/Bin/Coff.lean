import Mathlib.Data.List.GetD
import Nachos.Machine.ByteOrder
import Nachos.UserProg.LoadOverrun

/-!
# COFF files

How `coff2noff` reads the section headers of a COFF file: behind the file header and the system
header of the file, whose magic numbers it tests, and with the numbers in the order of the simulated
machine. Reading the file of some section headers gives them back.

## Main definitions

* `Scnhdr`, `readHeaders`: the section headers.
* `coffFile`: a COFF file with given section headers.

## Main results

* `readHeaders_coffFile`.
-/

namespace Nachos.Bin

open Foundations UserProg

/-- `MIPSELMAGIC`. -/
def mipselMagic : BitVec 16 := 0x0162

/-- `OMAGIC`. -/
def oMagic : BitVec 16 := 0o407

/-- The fields of `struct scnhdr` that are used. -/
structure Scnhdr where
  /-- The eight characters. -/
  sName : List (BitVec 8)
  sPaddr : Word
  sSize : Word
  sScnptr : Word
  deriving DecidableEq

/-- The ways to exit with status 1. -/
inductive Failure
  /-- "File is too short". -/
  | tooShort
  /-- "Unable to write file". -/
  | unableToWrite
  /-- "File is not a MIPSEL COFF file". -/
  | notMipsel
  /-- "File is not a OMAGIC file". -/
  | notOmagic
  /-- "Can't handle both data and rdata". -/
  | dataAndRdata
  /-- "Can't handle both bss and sbss". -/
  | bssAndSbss
  /-- "Unknown segment type: %s". -/
  | unknownSegment (sName : List (BitVec 8))
  deriving DecidableEq

/-- `Read`, at a position of the file. -/
def read (file : List (BitVec 8)) (pos nBytes : ℕ) : Except Failure (List (BitVec 8)) :=
  if pos + nBytes ≤ file.length then .ok ((file.drop pos).take nBytes) else .error .tooShort

/-- The section header at a position of a buffer, with its numbers converted. -/
def scnhdrAt (order : ByteOrder) (buf : List (BitVec 8)) (pos : ℕ) : Scnhdr :=
  let mem : MainMemory := fun a => buf.getD a 0
  { sName := (buf.drop pos).take 8
    sPaddr := order.wordToHost (order.loadWord mem (pos + 8))
    sSize := order.wordToHost (order.loadWord mem (pos + 16))
    sScnptr := order.wordToHost (order.loadWord mem (pos + 20)) }

/-- `main` up to the section headers. The sizes of `struct filehdr`, `struct aouthdr` and
`struct scnhdr` are 20, 56 and 40. -/
def readHeaders (order : ByteOrder) (file : List (BitVec 8)) : Except Failure (List Scnhdr) := do
  let fileh ← read file 0 20
  if order.shortToHost (order.loadShort (fun a => fileh.getD a 0) 0) ≠ mipselMagic then
    throw .notMipsel
  let systemh ← read file 20 56
  if order.shortToHost (order.loadShort (fun a => systemh.getD a 0) 0) ≠ oMagic then
    throw .notOmagic
  let numsections := (order.shortToHost (order.loadShort (fun a => fileh.getD a 0) 2)).toNat
  let sections ← read file 76 (numsections * 40)
  return (List.range numsections).map fun i => scnhdrAt order sections (i * 40)

/-! ### A file with given section headers -/

/-- The bytes of a section header, with zeros in the fields that are not used. -/
def Scnhdr.bytes (s : Scnhdr) : List (BitVec 8) :=
  s.sName ++ wordBytes s.sPaddr ++ wordBytes 0 ++ wordBytes s.sSize ++ wordBytes s.sScnptr ++
    List.replicate 16 0

/-- The bytes of the file header. -/
def filehdrBytes (nscns : BitVec 16) : List (BitVec 8) :=
  [0x62, 0x01, nscns.extractLsb' 0 8, nscns.extractLsb' 8 8] ++ List.replicate 16 0

/-- The bytes of the system header. -/
def aouthdrBytes : List (BitVec 8) := [0x07, 0x01] ++ List.replicate 54 0

/-- A COFF file. -/
def coffFile (sections : List Scnhdr) (contents : List (BitVec 8)) : List (BitVec 8) :=
  filehdrBytes (BitVec.ofNat 16 sections.length) ++ aouthdrBytes ++
    sections.flatMap Scnhdr.bytes ++ contents

variable {order : ByteOrder} {sections : List Scnhdr} {s : Scnhdr}

theorem read_append (pre buf post : List (BitVec 8)) :
    read (pre ++ buf ++ post) pre.length buf.length = .ok buf := by
  have hle : pre.length + buf.length ≤ (pre ++ buf ++ post).length := by simp
  rw [read, if_pos hle, List.append_assoc, List.drop_left, List.take_left]

theorem length_bytes (hname : s.sName.length = 8) : s.bytes.length = 40 := by
  simp [Scnhdr.bytes, wordBytes, hname]

/-- A word that has been stored with its lowest byte first. -/
theorem wordToHost_loadWord_of_eq (order : ByteOrder) {buf pre post : List (BitVec 8)} {w : Word}
    (h : buf = pre ++ (wordBytes w ++ post)) :
    order.wordToHost (order.loadWord (fun a => buf.getD a 0) pre.length) = w := by
  have hget (i : ℕ) (hi : i < 4) : buf.getD (pre.length + i) 0 = (wordBytes w).getD i 0 := by
    rw [h, List.getD_append_right _ _ _ _ (Nat.le_add_right _ _), Nat.add_sub_cancel_left,
      List.getD_append _ _ _ _ hi]
  have h₀ := hget 0 (by decide)
  rw [Nat.add_zero] at h₀
  rw [ByteOrder.wordToHost_loadWord, Machine.loadBytes, h₀, hget 1 (by decide), hget 2 (by decide),
    hget 3 (by decide)]
  exact append_wordBytes w

theorem scnhdrAt_append (order : ByteOrder) (pre post : List (BitVec 8))
    (hname : s.sName.length = 8) :
    scnhdrAt order (pre ++ s.bytes ++ post) pre.length = s := by
  have hpaddr : pre ++ s.bytes ++ post = pre ++ s.sName ++ (wordBytes s.sPaddr ++ (wordBytes 0 ++
      wordBytes s.sSize ++ wordBytes s.sScnptr ++ List.replicate 16 0 ++ post)) := by
    simp [Scnhdr.bytes]
  have hsize : pre ++ s.bytes ++ post = pre ++ s.sName ++ wordBytes s.sPaddr ++ wordBytes 0 ++
      (wordBytes s.sSize ++ (wordBytes s.sScnptr ++ List.replicate 16 0 ++ post)) := by
    simp [Scnhdr.bytes]
  have hscnptr : pre ++ s.bytes ++ post = pre ++ s.sName ++ wordBytes s.sPaddr ++ wordBytes 0 ++
      wordBytes s.sSize ++ (wordBytes s.sScnptr ++ (List.replicate 16 0 ++ post)) := by
    simp [Scnhdr.bytes]
  have h₁ := wordToHost_loadWord_of_eq order hpaddr
  have h₂ := wordToHost_loadWord_of_eq order hsize
  have h₃ := wordToHost_loadWord_of_eq order hscnptr
  have hword (w : Word) : (wordBytes w).length = 4 := rfl
  simp only [List.length_append, hname, hword, Nat.add_assoc] at h₁ h₂ h₃
  have hsName : ((pre ++ s.bytes ++ post).drop pre.length).take 8 = s.sName := by
    rw [List.append_assoc, List.drop_left, Scnhdr.bytes]
    simp only [List.append_assoc]
    exact List.take_left' hname
  simp only [scnhdrAt, hsName, h₁, h₂, h₃]

theorem length_flatMap_bytes (hname : ∀ s ∈ sections, s.sName.length = 8) :
    (sections.flatMap Scnhdr.bytes).length = sections.length * 40 := by
  induction sections with
  | nil => rfl
  | cons s sections ih =>
    obtain ⟨hs, hsections⟩ := List.forall_mem_cons.1 hname
    rw [List.flatMap_cons, List.length_append, length_bytes hs, ih hsections, List.length_cons]
    omega

theorem length_coffFile (hname : ∀ s ∈ sections, s.sName.length = 8)
    (contents : List (BitVec 8)) :
    (coffFile sections contents).length = 76 + sections.length * 40 + contents.length := by
  rw [coffFile, List.length_append, List.length_append, length_flatMap_bytes hname]
  rfl

theorem map_scnhdrAt_flatMap (order : ByteOrder) (hname : ∀ s ∈ sections, s.sName.length = 8) :
    ((List.range sections.length).map fun i =>
      scnhdrAt order (sections.flatMap Scnhdr.bytes) (i * 40)) = sections := by
  refine List.ext_getElem (by simp) fun i _ hi => ?_
  rw [List.getElem_map, List.getElem_range]
  have hi' : sections = sections.take i ++ sections[i] :: sections.drop (i + 1) := by
    rw [← List.drop_eq_getElem_cons hi, List.take_append_drop]
  have hsplit : sections.flatMap Scnhdr.bytes = (sections.take i).flatMap Scnhdr.bytes ++
      sections[i].bytes ++ (sections.drop (i + 1)).flatMap Scnhdr.bytes := by
    refine (congrArg (List.flatMap Scnhdr.bytes) hi').trans ?_
    rw [List.flatMap_append, List.flatMap_cons, List.append_assoc]
  have hlen : ((sections.take i).flatMap Scnhdr.bytes).length = i * 40 := by
    rw [length_flatMap_bytes fun s hs => hname s (List.mem_of_mem_take hs),
      List.length_take_of_le hi.le]
  rw [hsplit, ← hlen]
  exact scnhdrAt_append order _ _ (hname _ (List.getElem_mem hi))

/-- Reading the file of some section headers gives them back. -/
theorem readHeaders_coffFile (order : ByteOrder) (hname : ∀ s ∈ sections, s.sName.length = 8)
    (hlen : sections.length < 2 ^ 16) (contents : List (BitVec 8)) :
    readHeaders order (coffFile sections contents) = .ok sections := by
  obtain ⟨nscns, hnscns⟩ : ∃ nscns, nscns = BitVec.ofNat 16 sections.length := ⟨_, rfl⟩
  have hn : nscns.toNat = sections.length := by
    rw [hnscns, BitVec.toNat_ofNat, Nat.mod_eq_of_lt hlen]
  have hfile : coffFile sections contents = filehdrBytes nscns ++ aouthdrBytes ++
      sections.flatMap Scnhdr.bytes ++ contents := by rw [hnscns, coffFile]
  have hfileh : read (coffFile sections contents) 0 20 = .ok (filehdrBytes nscns) := by
    rw [hfile, List.append_assoc, List.append_assoc]
    exact read_append [] (filehdrBytes nscns) _
  have hsystemh : read (coffFile sections contents) 20 56 = .ok aouthdrBytes := by
    rw [hfile, List.append_assoc]
    exact read_append (filehdrBytes nscns) aouthdrBytes _
  have hsections : read (coffFile sections contents) 76 (sections.length * 40) =
      .ok (sections.flatMap Scnhdr.bytes) := by
    rw [hfile, ← length_flatMap_bytes hname]
    exact read_append (filehdrBytes nscns ++ aouthdrBytes) _ contents
  have hmagic : order.shortToHost (order.loadShort (fun a => (filehdrBytes nscns).getD a 0) 0) =
      mipselMagic :=
    (order.shortToHost_loadShort _ 0).trans (by decide : (0x01#8 ++ 0x62#8 : BitVec 16) = _)
  have hsystem : order.shortToHost (order.loadShort (fun a => aouthdrBytes.getD a 0) 0) =
      oMagic := order.shortToHost_loadShort _ 0
  have hcount : order.shortToHost (order.loadShort (fun a => (filehdrBytes nscns).getD a 0) 2) =
      nscns := (order.shortToHost_loadShort _ 2).trans BitVec.extractLsb'_append_extractLsb'
  simp only [readHeaders, hfileh, hsystemh, ok_bind, hmagic, hsystem, hcount, hn, hsections,
    ne_eq, not_true_eq_false, if_false]
  exact congrArg Except.ok (map_scnhdrAt_flatMap order hname)

end Nachos.Bin
