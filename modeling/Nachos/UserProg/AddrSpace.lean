import Nachos.Foundations.Except
import Nachos.Machine.Memory
import Nachos.UserProg.Allocation

/-!
# Address spaces

`userprog/addrspace.cc`: the constructor of `AddrSpace` reads the header of a NOFF file, asks the
allocation policy for as many consecutive frames as the program needs, marks them in
`MainMemMap`, clears them, and copies the code and the initialised data of the file there
(`LoadSegment`). The destructor clears the frames and unmarks them.

The file system is the one of `FILESYS_STUB`: a file is the sequence of bytes of a UNIX file, and
`ReadAt` is `lseek` followed by `read`. The host is little-endian, so that `WordToHost` is the
identity and `SwapHeader` is not called. What C++ leaves uninitialised is a parameter.

## Main definitions

* `NoffHeader`, `readHeader`.
* `AddrSpace.translate`, `loadSegment`.
* `AddrSpace.new`, `AddrSpace.delete`: the constructor, and the destructor up to `CleanupExit`.
-/

namespace Nachos.UserProg

open Foundations

/-! ### Executables -/

/-- The bytes of a file. -/
abbrev OpenFile : Type := List (BitVec 8)

/-- `OpenFile::ReadAt`: `Lseek` asserts that the position is not negative, and the read stops at
the end of the file. -/
def OpenFile.readAt (file : OpenFile) (numBytes : ℕ) (position : ℤ) :
    Except Fault (List (BitVec 8)) :=
  if position < 0 then .error .assertion
  else .ok ((file.drop position.toNat).take numBytes)

/-- `Segment`. -/
structure Segment where
  virtualAddr : BitVec 32
  inFileAddr : BitVec 32
  size : BitVec 32
  deriving DecidableEq, Repr

/-- `NoffHeader`. -/
structure NoffHeader where
  noffMagic : BitVec 32
  code : Segment
  initData : Segment
  uninitData : Segment
  deriving DecidableEq, Repr

/-- `NOFFMAGIC`. -/
def noffMagic : BitVec 32 := 0xbadfad#32

/-- The word at a position of a structure in memory. -/
def wordAt (bytes : ℕ → BitVec 8) (i : ℕ) : BitVec 32 :=
  bytes (i + 3) ++ bytes (i + 2) ++ bytes (i + 1) ++ bytes i

/-- A segment as the file describes it. -/
def segmentAt (bytes : ℕ → BitVec 8) (i : ℕ) : Segment :=
  ⟨wordAt bytes i, wordAt bytes (i + 4), wordAt bytes (i + 8)⟩

/-- The header of an executable. If the file is shorter than a header, the rest of the variable
is what `stack` had there. -/
def readHeader (file : OpenFile) (stack : ℕ → BitVec 8) : Except Fault NoffHeader :=
  let bytes i := file.getD i (stack i)
  let noffH : NoffHeader :=
    ⟨wordAt bytes 0, segmentAt bytes 4, segmentAt bytes 16, segmentAt bytes 28⟩
  if noffH.noffMagic = noffMagic then .ok noffH else .error .assertion

/-- `UserStackSize`. -/
def userStackSize : BitVec 32 := 1024#32

/-- The number of pages of the address space of a program. -/
def NoffHeader.numPages (noffH : NoffHeader) : ℕ :=
  divRoundUp (noffH.code.size + noffH.initData.size + noffH.uninitData.size + userStackSize).toNat
    pageSize

/-! ### Loading -/

/-- `AddrSpace`. `pageTable` is `none` while it is not allocated. -/
structure AddrSpace where
  pageTable : Option (List TranslationEntry)
  numPages : ℕ
  startHere : ℕ
  spaceFound : Bool
  deriving DecidableEq, Repr

/-- `AddrSpace::Translate`, with the variable `physAddr` that it sets unless it returns an
exception. -/
def translate (virtAddr physAddr size : ℤ) (pageTable : List TranslationEntry) (numPages : ℕ) :
    Except Fault (ExceptionType × ℤ × List TranslationEntry) :=
  if virtAddr < 0 then .ok (.addressErrorException, physAddr, pageTable)
  else
    let vpn := virtAddr.toNat / pageSize
    let offset := virtAddr.toNat % pageSize
    if numPages ≤ vpn then .ok (.addressErrorException, physAddr, pageTable)
    else
      match pageTable[vpn]? with
      | none => .error .undefined
      | some entry =>
        if entry.valid = false then .ok (.pageFaultException, physAddr, pageTable)
        else if numPhysPages ≤ entry.physicalPage then
          .ok (.busErrorException, physAddr, pageTable)
        else
          let physAddr : ℤ := (entry.physicalPage * pageSize + offset : ℕ)
          if 0 ≤ physAddr ∧ physAddr + size ≤ memorySize then
            .ok (.noException, physAddr, pageTable.set vpn { entry with use := true })
          else .error .assertion

/-- The variables of `LoadSegment`. -/
structure Loading where
  physAddr : ℤ
  size : ℤ
  addr : ℤ
  inFileAddr : ℤ
  pageTable : List TranslationEntry
  mainMemory : MainMemory

/-- Translate `addr` and read `len` bytes of the file there, as `LoadSegment` does in three places:
it drops the result of `Translate`. -/
def Loading.chunk (executable : OpenFile) (numPages : ℕ) (len : ℤ) (l : Loading) :
    Except Fault Loading := do
  let (_, physAddr, pageTable) ← translate l.addr l.physAddr len l.pageTable numPages
  let bytes ← executable.readAt len.toNat l.inFileAddr
  -- `read` stores only the bytes that it has read
  if bytes = [] ∨ 0 ≤ physAddr ∧ physAddr + bytes.length ≤ memorySize then
    .ok { l with
      physAddr := physAddr
      pageTable := pageTable
      mainMemory := l.mainMemory.store physAddr.toNat bytes }
  else .error .undefined

/-- The first part of `LoadSegment`, for a segment that does not begin at the start of a page.
The assignments to `addr` and `inFileAddr` read the new `size`. -/
def Loading.head (executable : OpenFile) (numPages : ℕ) (l : Loading) : Except Fault Loading := do
  if l.addr.tmod pageSize ≠ 0 then
    let l ← l.chunk executable numPages (l.size.tmod pageSize)
    let size := int32 (l.size - l.size.tmod pageSize)
    return { l with
      size := size
      addr := int32 (l.addr + size.tmod pageSize)
      inFileAddr := int32 (l.inFileAddr + size.tmod pageSize) }
  else return l

/-- The body of the loop of `LoadSegment`. -/
def Loading.page (executable : OpenFile) (numPages : ℕ) (l : Loading) : Except Fault Loading := do
  let l ← l.chunk executable numPages pageSize
  return { l with
    size := int32 (l.size - pageSize)
    addr := int32 (l.addr + pageSize)
    inFileAddr := int32 (l.inFileAddr + pageSize) }

/-- The last part of `LoadSegment`, for what is left of the segment. -/
def Loading.tail (executable : OpenFile) (numPages : ℕ) (l : Loading) : Except Fault Loading := do
  if l.size.tmod pageSize ≠ 0 then l.chunk executable numPages (l.size.tmod pageSize)
  else return l

/-- `AddrSpace::LoadSegment`. `junk` is what the variable `physAddr` contains at first. -/
def loadSegment (executable : OpenFile) (numPages : ℕ) (seg : Segment) (junk : ℤ)
    (pageTable : List TranslationEntry) (mainMemory : MainMemory) : Except Fault Loading := do
  let l ← Loading.head executable numPages
    ⟨junk, seg.size.toInt, seg.virtualAddr.toInt, seg.inFileAddr.toInt, pageTable, mainMemory⟩
  let loops := l.size.tdiv pageSize
  let l ← forLoop (fun l _ => l.page executable numPages) loops.toNat l
  l.tail executable numPages

/-! ### The constructor and the destructor -/

/-- The page table of a new address space. -/
def newPageTable (startHere numPages : ℕ) : List TranslationEntry :=
  (List.range numPages).map fun i => ⟨i, i + startHere, true, false, false, false⟩

/-- The uninitialised memory that the constructor and `LoadSegment` read. -/
structure Junk where
  stack : ℕ → BitVec 8
  codePhysAddr : ℤ
  dataPhysAddr : ℤ

/-- Clear the pages of an address space. -/
def clearPages (pageTable : List TranslationEntry) (mem : MainMemory) : MainMemory :=
  pageTable.foldl (fun mem entry => mem.bzero (entry.physicalPage * pageSize) pageSize) mem

/-- Mark consecutive frames. -/
def markFrames (startHere numPages : ℕ) (map : BitMap numPhysPages) :
    Except Fault (BitMap numPhysPages) :=
  forLoop (fun map i => map.mark (i + startHere)) numPages map

/-- Unmark consecutive frames. -/
def clearFrames (startHere numPages : ℕ) (map : BitMap numPhysPages) :
    Except Fault (BitMap numPhysPages) :=
  forLoop (fun map i => map.clear (i + startHere)) numPages map

/-- Load a segment that is not empty. -/
def loadNonempty (executable : OpenFile) (numPages : ℕ) (seg : Segment) (junk : ℤ)
    (pageTable : List TranslationEntry) (mem : MainMemory) :
    Except Fault (List TranslationEntry × MainMemory) :=
  if 0 < seg.size.toInt then do
    let l ← loadSegment executable numPages seg junk pageTable mem
    return (l.pageTable, l.mainMemory)
  else return (pageTable, mem)

/-- The constructor of `AddrSpace`. -/
def AddrSpace.new (memAll : MemAll) (executable : OpenFile) (junk : Junk)
    (map : BitMap numPhysPages) (mem : MainMemory) :
    Except Fault (AddrSpace × BitMap numPhysPages × MainMemory) := do
  let noffH ← readHeader executable junk.stack
  let numPages := noffH.numPages
  let found ← memoryAllocation memAll map numPages
  if found.spaceFound then
    let pageTable := newPageTable found.startHere numPages
    let map ← markFrames found.startHere numPages map
    let mem := clearPages pageTable mem
    let (pageTable, mem) ←
      loadNonempty executable numPages noffH.code junk.codePhysAddr pageTable mem
    let (pageTable, mem) ←
      loadNonempty executable numPages noffH.initData junk.dataPhysAddr pageTable mem
    return (⟨some pageTable, numPages, found.startHere, true⟩, map, mem)
  else return (⟨none, numPages, found.startHere, false⟩, map, mem)

/-- The destructor of `AddrSpace`, up to the call of `CleanupExit`. -/
def AddrSpace.delete (space : AddrSpace) (map : BitMap numPhysPages) (mem : MainMemory) :
    Except Fault (AddrSpace × BitMap numPhysPages × MainMemory) :=
  match space.pageTable with
  | none => .error .undefined
  | some pageTable => do
    let mem := clearPages (pageTable.take space.numPages) mem
    let map ← clearFrames space.startHere space.numPages map
    return ({ space with pageTable := none }, map, mem)

/-- The smallest executable: a header whose segments are empty. It needs the four pages of the
stack. -/
def emptyProgram : OpenFile := [0xad, 0xdf, 0xba, 0] ++ List.replicate 36 0

/-- The header of an executable with two instructions, and with two bytes of data in the second
page. -/
def dataHeader : NoffHeader :=
  ⟨noffMagic, ⟨0, 40, 8⟩, ⟨0x100, 48, 2⟩, ⟨0, 0, 0⟩⟩

/-- The executable. Its instructions are `lb $8, 256($0)`, which reads the first byte of data, and
`j 0`. -/
def dataProgram : OpenFile :=
  [0xad, 0xdf, 0xba, 0] ++ [0, 0, 0, 0, 40, 0, 0, 0, 8, 0, 0, 0] ++
    [0, 1, 0, 0, 48, 0, 0, 0, 2, 0, 0, 0] ++ List.replicate 12 0 ++
    [0, 1, 8, 0x80, 0, 0, 0, 8] ++ [5, 6]

end Nachos.UserProg
