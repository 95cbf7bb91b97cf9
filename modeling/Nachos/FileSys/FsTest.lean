import Nachos.FileSys.NamedFiles

/-!
# The tests of the file system

`filesys/fstest.cc`: `Copy` makes a file with the contents of a UNIX file, `Print` prints a file,
and `PerformanceTest` is to write a file and to read it back. All three move a few bytes at a time,
so that the transfers are not aligned to sectors.

## Main definitions

* `copy`, `print`, `performanceTest`, and the `Message`s they print.

## Main results

* `copy_spec`: `Copy` makes a file with exactly the bytes of the UNIX file, or changes nothing.
* `print_spec`: `Print` prints exactly the bytes of a file.
* `print_of_copy`: what is copied is printed, whatever happens to other files in between.
* `performanceTest_spec`: `PerformanceTest` always fails, and removes a file that it has not made.
-/

namespace Nachos.FileSys

open Foundations CursorArray

/-- `TransferSize`. -/
abbrev transferSize : ℕ := 10

/-- What is printed. -/
inductive Message
  | couldNotOpenInput
  | couldNotCreateOutput
  | unableToOpenFile
  | char (c : BitVec 8)
  | starting
  | stats
  | sequentialWrite
  | canNotCreate
  | unableToOpen
  | unableToWrite
  | sequentialRead
  | unableToRead
  | unableToRemove
  deriving DecidableEq

/-! ### `Copy` -/

/-- The variables of the loop of `Copy`: the bytes that `fread` has not delivered yet, the buffer,
the open file, and the disk. -/
structure CopyState where
  rest : List (BitVec 8)
  buffer : Bytes
  file : PositionedFile
  disk : Disk

/-- One iteration: `fread` and `Write`. The memory that `Write` allocates depends on the number of
bytes that are left. -/
def copyBody (heap : ℕ → Bytes) (s : CopyState) : Except Fault CopyState := do
  let amountRead := min transferSize s.rest.length
  let buffer : Bytes := fun i => if i < amountRead then s.rest.getD i 0 else s.buffer i
  let (file, _, disk) ← s.file.write s.disk buffer amountRead (heap s.rest.length)
  return { rest := s.rest.drop amountRead, buffer, file, disk }

/-- The loop of `Copy`. Each iteration takes at least one byte. -/
def copyLoop (heap : ℕ → Bytes) (s : CopyState) : Except Fault CopyState :=
  whileLoop .outOfFuel (fun s => .ok (decide (0 < s.rest.length))) (copyBody heap)
    (s.rest.length + 1) s

/-- `Copy`. The UNIX file is `none` if it cannot be opened. -/
def copy (fs : FileSystem) (unixFile : Option (List (BitVec 8))) (nachosFile : CString)
    (createHeap : ℕ → Bytes) (openHeap buffer : Bytes) (writeHeap : ℕ → Bytes) :
    Except Fault (List Message × FileSystem) :=
  match unixFile with
  | none => .ok ([.couldNotOpenInput], fs)
  | some bytes => do
    let (success, fs) ← fs.create nachosFile bytes.length createHeap
    if !success then return ([.couldNotCreateOutput], fs)
    else
      match ← fs.openFile nachosFile openHeap with
      | none => .error .assertion
      | some file => do
        let s ← copyLoop writeHeap ⟨bytes, buffer, ⟨file, 0⟩, fs.disk⟩
        return ([], { fs with disk := s.disk })

/-! ### `Print` -/

/-- The variables of the loop of `Print`. -/
structure PrintState where
  file : PositionedFile
  buffer : Bytes
  amountRead : ℕ
  printed : List Message

/-- `Read`, whose result is tested. -/
def printRead (disk : Disk) (s : PrintState) : Except Fault PrintState := do
  let (file, amountRead, buffer) ← s.file.read disk s.buffer transferSize
  return { s with file, buffer, amountRead }

/-- The inner loop prints the buffer, and then the next bytes are read. -/
def printBody (disk : Disk) (s : PrintState) : Except Fault PrintState :=
  printRead disk
    { s with printed := s.printed ++ (List.range s.amountRead).map fun i => .char (s.buffer i) }

/-- `Print`. The fuel is for the outer loop. -/
def print (fs : FileSystem) (name : CString) (openHeap buffer : Bytes) (fuel : ℕ) :
    Except Fault (List Message) := do
  match ← fs.openFile name openHeap with
  | none => return [.unableToOpenFile]
  | some file =>
    let s ← printRead fs.disk ⟨⟨file, 0⟩, buffer, 0, []⟩
    let s ← whileLoop .outOfFuel (fun s => .ok (decide (0 < s.amountRead))) (printBody fs.disk)
      fuel s
    return s.printed

/-! ### `PerformanceTest` -/

/-- The macro `FileName`. -/
def testFile : CString := ⟨[84, 101, 115, 116, 70, 105, 108, 101], by decide⟩

/-- The macro `Contents`. -/
def testContents : CString := ⟨[49, 50, 51, 52, 53, 54, 55, 56, 57, 48], by decide⟩

/-- The macro `ContentSize`. -/
abbrev contentSize : ℕ := 10

/-- The macro `FileSize`. -/
abbrev testFileSize : ℕ := contentSize * 5000

/-- The loop of `FileWrite`, with the number of iterations that are left, and whether it ends
without a message. -/
def fileWriteLoop (heap : ℕ → Bytes) : ℕ → PositionedFile → Disk → Except Fault (Bool × Disk)
  | 0, _, disk => .ok (true, disk)
  | n + 1, file, disk => do
    let (file, numBytes, disk) ← file.write disk testContents.charAt contentSize (heap n)
    if numBytes < 10 then return (false, disk) else fileWriteLoop heap n file disk

/-- `FileWrite`. -/
def fileWrite (fs : FileSystem) (createHeap : ℕ → Bytes) (openHeap : Bytes)
    (writeHeap : ℕ → Bytes) : Except Fault (List Message × FileSystem) := do
  let (success, fs) ← fs.create testFile 0 createHeap
  if !success then return ([.sequentialWrite, .canNotCreate], fs)
  else
    match ← fs.openFile testFile openHeap with
    | none => return ([.sequentialWrite, .unableToOpen], fs)
    | some file => do
      let (complete, disk) ←
        fileWriteLoop writeHeap (testFileSize / contentSize) ⟨file, 0⟩ fs.disk
      return (if complete then [.sequentialWrite] else [.sequentialWrite, .unableToWrite],
        { fs with disk })

/-- The loop of `FileRead`. -/
def fileReadLoop (disk : Disk) : ℕ → PositionedFile → Bytes → Except Fault Bool
  | 0, _, _ => .ok true
  | n + 1, file, buffer => do
    let (file, numBytes, buffer) ← file.read disk buffer contentSize
    if numBytes < 10 ∨ ¬strncmpEq buffer testContents.charAt contentSize then return false
    else fileReadLoop disk n file buffer

/-- `FileRead`. -/
def fileRead (fs : FileSystem) (openHeap buffer : Bytes) : Except Fault (List Message) := do
  match ← fs.openFile testFile openHeap with
  | none => return [.sequentialRead, .unableToOpen]
  | some file => do
    let complete ← fileReadLoop fs.disk (testFileSize / contentSize) ⟨file, 0⟩ buffer
    return if complete then [.sequentialRead] else [.sequentialRead, .unableToRead]

/-- `PerformanceTest`. -/
def performanceTest (fs : FileSystem) (createHeap : ℕ → Bytes) (openHeap : Bytes)
    (writeHeap : ℕ → Bytes) (openHeap' buffer : Bytes) (removeHeap : ℕ → Bytes) :
    Except Fault (List Message × FileSystem) := do
  let (written, fs) ← fileWrite fs createHeap openHeap writeHeap
  let read ← fileRead fs openHeap' buffer
  let (success, fs) ← fs.remove testFile removeHeap
  return ([.starting, .stats] ++ written ++ read ++ [if success then .stats else .unableToRemove],
    fs)

/-! ### Transfers to an open file -/

section

variable {file : PositionedFile} {disk : Disk} {n p : ℕ}

/-- `Read` delivers the next bytes. -/
theorem PositionedFile.read_eq (h : file.hdr.Lists) (disk : Disk) (into : Bytes)
    (hn : file.seekPosition + (n : ℤ) < 2 ^ 31) :
    file.read disk into n = .ok (file.seek (file.seekPosition +
        min n (file.hdr.length - file.seekPosition)), min n (file.hdr.length - file.seekPosition),
      fetch (file.hdr.contents disk) into n file.seekPosition) := by
  have hread := OpenFile.readAtInt_eq (p := file.seekPosition) h disk into hn
  rw [FileHeader.count_contents, Int.toNat_natCast] at hread
  rw [read, hread]
  rfl

/-- `Write` replaces the next bytes. -/
theorem PositionedFile.write_spec (h : file.hdr.Lists) (disk : Disk) (source heap : Bytes)
    (hn : file.seekPosition + (n : ℤ) < 2 ^ 31) :
    ∃ disk', file.write disk source n heap = .ok (file.seek (file.seekPosition +
        min n (file.hdr.length - file.seekPosition)), min n (file.hdr.length - file.seekPosition),
        disk') ∧
      file.hdr.contents disk' = overwrite (file.hdr.contents disk) source n file.seekPosition ∧
      ∀ s ∉ file.hdr.firstSectors file.hdr.blocks, disk' s = disk s := by
  obtain ⟨disk', hwrite, hcontents, hother⟩ :=
    OpenFile.writeAtInt_spec (p := file.seekPosition) h disk source heap hn
  rw [FileHeader.count_contents, Int.toNat_natCast] at hwrite
  exact ⟨disk', by rw [write, hwrite]; rfl, hcontents, hother⟩

end

/-- A file has at most `MaxFileSize` bytes. -/
theorem FileHeader.Lists.length_le {hdr : FileHeader} (h : hdr.Lists) :
    hdr.length ≤ maxFileSize := by
  have hle := h.le
  simp only [blocks, numDirect, maxFileSize, sectorSize] at hle ⊢
  omega

/-! ### What `Copy` does -/

/-- Bytes that are written behind bytes that are already right. -/
theorem take_overwrite {items bytes : List (BitVec 8)} (source : Bytes) (n p : ℕ)
    (hlen : items.length = bytes.length) (htake : items.take p = bytes.take p)
    (hsource : ∀ i < min n (items.length - p), source i = bytes.getD (p + i) 0) :
    (overwrite items source n p).take (p + min n (items.length - p)) =
      bytes.take (p + min n (items.length - p)) := by
  have hcount : count items n p = min n (items.length - p) := by
    rw [count_eq, Int.toNat_natCast]
  refine List.ext_getElem? fun i => ?_
  rw [List.getElem?_take, List.getElem?_take, overwrite, List.getElem?_mapIdx, hcount]
  by_cases hi : i < p + min n (items.length - p)
  · rw [if_pos hi, if_pos hi]
    rcases Nat.lt_or_ge i p with hip | hip
    · have hitem := congrArg (fun l => l[i]?) htake
      simp only [List.getElem?_take, if_pos hip] at hitem
      rw [hitem]
      cases bytes[i]? <;> simp [Nat.not_le_of_lt hip]
    · have hib : i < bytes.length := by omega
      have hii : i < items.length := by omega
      rw [List.getElem?_eq_getElem hii, Option.map_some, if_pos (And.intro hip hi),
        hsource (i - p) (by omega), Nat.add_sub_cancel' hip, List.getElem?_eq_getElem hib]
      simp [hib]
  · rw [if_neg hi, if_neg hi]

/-- What holds in the loop of `Copy`: the bytes before the position have been copied. -/
structure Copying (hdr : FileHeader) (disk : Disk) (bytes : List (BitVec 8)) (s : CopyState) :
    Prop where
  hdr_eq : s.file.hdr = hdr
  rest_eq : s.rest = bytes.drop s.file.seekPosition
  le : s.file.seekPosition ≤ bytes.length
  copied : (hdr.contents s.disk).take s.file.seekPosition = bytes.take s.file.seekPosition
  other : ∀ t ∉ hdr.firstSectors hdr.blocks, s.disk t = disk t

namespace Copying

variable {hdr : FileHeader} {disk : Disk} {bytes : List (BitVec 8)} {s : CopyState}

/-- One iteration copies some of the bytes that are left. -/
theorem body (h : Copying hdr disk bytes s) (hlists : hdr.Lists) (hlen : hdr.length = bytes.length)
    (hrest : 0 < s.rest.length) (heap : ℕ → Bytes) :
    ∃ s', copyBody heap s = .ok s' ∧ Copying hdr disk bytes s' ∧
      s'.rest.length < s.rest.length := by
  obtain ⟨hhdr, hrest', hle, hcopied, hother⟩ := h
  obtain ⟨rest, buffer, file, disk₀⟩ := s
  dsimp only at *
  subst hhdr
  have hmax := hlists.length_le
  simp only [maxFileSize, numDirect, sectorSize] at hmax
  have hrestlen : rest.length = bytes.length - file.seekPosition := by
    rw [hrest', List.length_drop]
  obtain ⟨disk', hwrite, hcontents, hkeep⟩ := file.write_spec hlists disk₀
    (fun i => if i < min transferSize rest.length then rest.getD i 0 else buffer i)
    (heap rest.length) (n := min transferSize rest.length) (by omega)
  have hcount : min (min transferSize rest.length) (file.hdr.length - file.seekPosition) =
      min transferSize rest.length := by omega
  have hpos : 0 < min transferSize rest.length := by
    simp only [transferSize]
    omega
  rw [hcount] at hwrite
  simp only [copyBody, hwrite, ok_bind]
  refine ⟨_, rfl, ⟨rfl, ?_, ?_, ?_, fun t ht => (hkeep t ht).trans (hother t ht)⟩, ?_⟩
  · dsimp only [PositionedFile.seek]
    rw [hrest', List.drop_drop]
  · dsimp only [PositionedFile.seek]
    omega
  · dsimp only [PositionedFile.seek]
    have htake := take_overwrite
      (fun i => if i < min transferSize rest.length then rest.getD i 0 else buffer i)
      (min transferSize rest.length) file.seekPosition
      ((FileHeader.length_contents file.hdr disk₀).trans hlen) hcopied fun i hi => by
        rw [FileHeader.length_contents, hcount] at hi
        rw [if_pos hi, hrest', List.getD_eq_getElem?_getD, List.getElem?_drop,
          List.getD_eq_getElem?_getD]
    rw [FileHeader.length_contents, hcount] at htake
    rw [hcontents, htake]
  · rw [List.length_drop]
    omega

end Copying

/-- The loop of `Copy` copies all bytes. -/
theorem copyLoop_spec {file : OpenFile} {bytes : List (BitVec 8)} (hlists : file.hdr.Lists)
    (hlen : file.hdr.length = bytes.length) (disk : Disk) (heap : ℕ → Bytes) (buffer : Bytes) :
    ∃ s, copyLoop heap ⟨bytes, buffer, ⟨file, 0⟩, disk⟩ = .ok s ∧
      file.hdr.contents s.disk = bytes ∧
      ∀ t ∉ file.hdr.firstSectors file.hdr.blocks, s.disk t = disk t := by
  have hloop : ∃ s, copyLoop heap ⟨bytes, buffer, ⟨file, 0⟩, disk⟩ = .ok s ∧
      Copying file.hdr disk bytes s ∧
      Except.ok (decide (0 < s.rest.length)) = (Except.ok false : Except Fault Bool) := by
    refine whileLoop_spec (Copying file.hdr disk bytes) (fun s => s.rest.length)
      (fun s _ => ⟨_, rfl⟩) (fun s hs hc => ?_)
      ⟨rfl, rfl, Nat.zero_le _, rfl, fun _ _ => rfl⟩ (Nat.lt_succ_self _)
    exact hs.body hlists hlen (by simpa using hc) heap
  obtain ⟨s, hs, hcopying, hdone⟩ := hloop
  refine ⟨s, hs, ?_, hcopying.other⟩
  have hrest : s.rest.length = 0 := by simpa using hdone
  rw [hcopying.rest_eq, List.length_drop] at hrest
  have hpos : s.file.seekPosition = bytes.length := by
    have := hcopying.le
    omega
  have hcopied := hcopying.copied
  rwa [hpos, List.take_length, ← hlen, ← FileHeader.length_contents file.hdr s.disk,
    List.take_length] at hcopied

/-- `Copy` makes a file with exactly the bytes of the UNIX file if there is room for it, and changes
nothing otherwise. -/
theorem copy_spec {s : Session} {a : OpenFiles} (h : s.Represents a) {bytes : List (BitVec 8)}
    (hle : bytes.length ≤ maxFileSize) (name : CString) (createHeap : ℕ → Bytes)
    (openHeap buffer : Bytes) (writeHeap : ℕ → Bytes) :
    ∃ fs', copy s.fs (some bytes) name createHeap openHeap buffer writeHeap = .ok
        (if a.HasRoom diskLimits (nameKey name.charAt) bytes.length then []
          else [.couldNotCreateOutput], fs') ∧
      Session.Represents { s with fs := fs' }
        (if a.HasRoom diskLimits (nameKey name.charAt) bytes.length then
          { a with arrays := (a.arrays.add (nameKey name.charAt) bytes).2 } else a) := by
  obtain ⟨hsuccess, hfailure⟩ := h.fs_create name hle createHeap
  by_cases hroom : a.HasRoom diskLimits (nameKey name.charAt) bytes.length
  · obtain ⟨fs', fresh, hc, h'⟩ := hsuccess hroom
    have hadd (items : List (BitVec 8)) := BoundedMap.add_eq_true_iff (m := a.arrays)
      (v := items) |>.2 ⟨hroom.1, hroom.2.1⟩
    have hlookup := BoundedMap.lookup_add (hadd ((List.range bytes.length).map fresh))
      (nameKey name.charAt)
    rw [if_pos rfl] at hlookup
    obtain ⟨file, hopen, hlists, hcontents, hwrite⟩ := h'.exists_file hlookup openHeap
    have hlen : file.hdr.length = bytes.length := by
      rw [← FileHeader.length_contents file.hdr fs'.disk, hcontents]
      simp
    obtain ⟨s', hs', hbytes, hother⟩ := copyLoop_spec hlists hlen fs'.disk writeHeap buffer
    refine ⟨{ fs' with disk := s'.disk }, ?_, ?_⟩
    · simp only [copy, hc, ok_bind, hopen, hs', Bool.not_true, Bool.false_eq_true, if_false,
        if_pos hroom]
      rfl
    · rw [if_pos hroom]
      refine (hwrite s'.disk hother).congr fun key => ?_
      rw [hbytes, BoundedMap.lookup_add (hadd _), BoundedMap.lookup_replace,
        BoundedMap.lookup_add (hadd _)]
      · split_ifs <;> rfl
      · rw [BoundedMap.lookup_add (hadd _), if_pos rfl]
        exact Option.some_ne_none _
  · refine ⟨s.fs, ?_, ?_⟩
    · simp only [copy, hfailure hroom, ok_bind, Bool.not_false, if_true, if_neg hroom]
      rfl
    · rw [if_neg hroom]
      exact h

/-! ### What `Print` does -/

/-- What holds in the loop of `Print`: the buffer has the bytes before the position, and the bytes
before these have been printed. The last `Read` has found the end of the file. -/
structure Printing (hdr : FileHeader) (items : List (BitVec 8)) (s : PrintState) : Prop where
  hdr_eq : s.file.hdr = hdr
  amount_le : s.amountRead ≤ s.file.seekPosition
  le : s.file.seekPosition ≤ items.length
  buffer_eq : ∀ i < s.amountRead,
    items[s.file.seekPosition - s.amountRead + i]? = some (s.buffer i)
  printed_eq : s.printed = (items.take (s.file.seekPosition - s.amountRead)).map .char
  last : s.amountRead = 0 → s.file.seekPosition = items.length

namespace Printing

variable {file : OpenFile} {disk : Disk} {items : List (BitVec 8)} {s : PrintState}

/-- `Read` of the next bytes, when all bytes before the position have been printed. -/
theorem read (hlists : file.hdr.Lists) (hitems : file.hdr.contents disk = items)
    (hhdr : s.file.hdr = file.hdr) (hle : s.file.seekPosition ≤ items.length)
    (hprinted : s.printed = (items.take s.file.seekPosition).map .char) :
    ∃ s', printRead disk s = .ok s' ∧ Printing file.hdr items s' ∧
      s'.file.seekPosition - s'.amountRead = s.file.seekPosition := by
  have hlen : file.hdr.length = items.length := by
    rw [← hitems, FileHeader.length_contents]
  have hmax := hlists.length_le
  simp only [maxFileSize, numDirect, sectorSize] at hmax
  have hread := s.file.read_eq (n := transferSize) (hhdr ▸ hlists) disk s.buffer (by
    simp only [transferSize]
    omega)
  rw [hhdr, hitems, hlen] at hread
  simp only [printRead, hread, ok_bind]
  refine ⟨_, rfl, ⟨hhdr, ?_, ?_, fun i hi => ?_, ?_, fun hz => ?_⟩, ?_⟩
  all_goals dsimp only [PositionedFile.seek] at *
  · omega
  · omega
  · rw [Nat.add_sub_cancel, fetch, count_eq, Int.toNat_natCast, if_pos hi,
      List.getD_eq_getElem?_getD, List.getElem?_eq_getElem (by omega), Option.getD_some]
  · rwa [Nat.add_sub_cancel]
  · simp only [transferSize] at hz ⊢
    omega
  · omega

/-- The bytes that have been printed after one more iteration. -/
theorem take_eq (h : Printing file.hdr items s) : items.take s.file.seekPosition =
    items.take (s.file.seekPosition - s.amountRead) ++ (List.range s.amountRead).map s.buffer := by
  have hle := h.le
  have hamount := h.amount_le
  have hdrop : (items.drop (s.file.seekPosition - s.amountRead)).take s.amountRead =
      (List.range s.amountRead).map s.buffer := by
    refine List.ext_getElem (by simp; omega) fun i hi _ => ?_
    rw [List.length_take] at hi
    have hbuffer := h.buffer_eq i (by omega)
    rw [List.getElem?_eq_getElem (by omega)] at hbuffer
    simpa using Option.some.inj hbuffer
  rw [← hdrop, ← List.take_add, Nat.sub_add_cancel hamount]

/-- One iteration prints the buffer. -/
theorem body (h : Printing file.hdr items s) (hlists : file.hdr.Lists)
    (hitems : file.hdr.contents disk = items) :
    ∃ s', printBody disk s = .ok s' ∧ Printing file.hdr items s' ∧
      s'.file.seekPosition - s'.amountRead = s.file.seekPosition := by
  refine read hlists hitems h.hdr_eq h.le ?_
  dsimp only
  rw [h.printed_eq, h.take_eq, List.map_append, List.map_map]
  rfl

end Printing

/-- `Print` prints exactly the bytes of a file. -/
theorem print_spec {s : Session} {a : OpenFiles} (h : s.Represents a) {name : CString}
    (openHeap buffer : Bytes) :
    (∀ items, a.arrays.lookup (nameKey name.charAt) = some items → ∀ fuel, items.length < fuel →
      print s.fs name openHeap buffer fuel = .ok (items.map .char)) ∧
    (a.arrays.lookup (nameKey name.charAt) = none → ∀ fuel,
      print s.fs name openHeap buffer fuel = .ok [.unableToOpenFile]) := by
  refine ⟨fun items hitems fuel hfuel => ?_, fun hnone fuel => ?_⟩
  · obtain ⟨file, hopen, hlists, hcontents, -⟩ := h.exists_file hitems openHeap
    obtain ⟨s₁, hs₁, hprinting, hpos⟩ := Printing.read hlists hcontents
      (s := ⟨⟨file, 0⟩, buffer, 0, []⟩) rfl (Nat.zero_le _) rfl
    have hloop : ∃ s₂, whileLoop .outOfFuel (fun s => .ok (decide (0 < s.amountRead)))
        (printBody s.fs.disk) fuel s₁ = .ok s₂ ∧ Printing file.hdr items s₂ ∧
        Except.ok (decide (0 < s₂.amountRead)) = (Except.ok false : Except Fault Bool) := by
      refine whileLoop_spec (Printing file.hdr items)
        (fun s => items.length - (s.file.seekPosition - s.amountRead)) (fun s _ => ⟨_, rfl⟩)
        (fun s₂ h₂ hc => ?_) hprinting (by omega)
      obtain ⟨s₃, hs₃, h₃, hpos₃⟩ := h₂.body hlists hcontents
      have hamount : 0 < s₂.amountRead := by simpa using hc
      have hle := h₂.le
      have hamount_le := h₂.amount_le
      exact ⟨s₃, hs₃, h₃, by omega⟩
    obtain ⟨s₂, hs₂, h₂, hdone⟩ := hloop
    have hzero : s₂.amountRead = 0 := by simpa using hdone
    simp only [print, hopen, ok_bind, hs₁, hs₂]
    rw [h₂.printed_eq, hzero, Nat.sub_zero, h₂.last hzero, List.take_length]
    rfl
  · simp only [print, h.openFile_eq_none hnone, ok_bind]
    rfl

/-- What has been copied to a file is printed, whatever is done with other files in between. -/
theorem print_of_copy {s : Session} {a : OpenFiles} (h : s.Represents a) {bytes : List (BitVec 8)}
    (hle : bytes.length ≤ maxFileSize) {name : CString}
    (hroom : a.HasRoom diskLimits (nameKey name.charAt) bytes.length) (createHeap : ℕ → Bytes)
    (openHeap buffer : Bytes) (writeHeap : ℕ → Bytes) (calls : List Session.Call) :
    ∃ (fs' : FileSystem) (n : ℕ) (fresh : List (ℕ → BitVec 8)) (a' : OpenFiles)
      (replies : List (NamedArrays.Reply (BitVec 8))) (s' : Session),
      copy s.fs (some bytes) name createHeap openHeap buffer writeHeap = .ok ([], fs') ∧
      n ≤ calls.length ∧ fresh.length = n ∧ (∀ c ∈ calls.take n, c.Possible) ∧
      NamedArrays.run diskLimits
        { a with arrays := (a.arrays.add (nameKey name.charAt) bytes).2 }
        (fresh.zip ((calls.take n).map Session.Call.onArrays)) = some (a', replies) ∧
      Session.run { s with fs := fs' } (calls.take n) = .ok (s', replies) ∧
      (∀ c, calls[n]? = some c → ¬(c.Possible ∧ a'.Permits diskLimits c.onArrays)) ∧
      (NamedArrays.RunAvoids diskLimits (nameKey name.charAt)
        { a with arrays := (a.arrays.add (nameKey name.charAt) bytes).2 }
        (fresh.zip ((calls.take n).map Session.Call.onArrays)) →
        ∀ openHeap' buffer' fuel, bytes.length < fuel →
          print s'.fs name openHeap' buffer' fuel = .ok (bytes.map .char)) := by
  obtain ⟨fs', hcopy, h'⟩ := copy_spec h hle name createHeap openHeap buffer writeHeap
  rw [if_pos hroom] at hcopy h'
  obtain ⟨n, fresh, a', replies, s', hn, hlen, hpossible, ha, hs, h'', hlast⟩ := h'.run calls
  refine ⟨fs', n, fresh, a', replies, s', hcopy, hn, hlen, hpossible, ha, hs, hlast,
    fun havoids openHeap' buffer' fuel hfuel => ?_⟩
  refine (print_spec h'' openHeap' buffer').1 bytes ?_ fuel hfuel
  rw [NamedArrays.lookup_run ha havoids,
    BoundedMap.lookup_add (BoundedMap.add_eq_true_iff.2 ⟨hroom.1, hroom.2.1⟩), if_pos rfl]

/-- There is room for a file on a disk that has been formatted. -/
theorem hasRoom_empty {key : NameKey} {size : ℕ} (h : diskLimits.blocks size ≤ diskLimits.total) :
    NamedArrays.empty.HasRoom (n := numDirEntries) (α := BitVec 8) diskLimits key size := by
  have hused : NamedArrays.empty.used (n := numDirEntries) (κ := NameKey) (α := BitVec 8)
      diskLimits = 0 := rfl
  exact ⟨BoundedMap.lookup_empty key, by decide, by rwa [hused, Nat.zero_add]⟩

/-- Twelve bytes, which `Copy` and `Print` move in two pieces. -/
def twelveBytes : List (BitVec 8) := [1, 2, 3, 4, 5, 6, 7, 8, 9, 10, 11, 12]

/-- The name `Other`. -/
def otherFile : CString := ⟨[79, 116, 104, 101, 114], by decide⟩

/-- A file is read, another one is made and removed, and the machine starts again. -/
def otherCalls : List Session.Call :=
  [.openFile testFile fun _ => 0, .access 0 (.read (fun _ => 0) 20) fun _ => 0,
    .create otherFile 300 fun _ _ => 0, .remove otherFile fun _ _ => 0, .restart fun _ _ => 0]

/-- None of the calls changes the file. -/
theorem not_touches_of_mem_otherCalls (a : OpenFiles)
    {r : NamedArrays.Request NameKey (BitVec 8)} (h : r ∈ otherCalls.map Session.Call.onArrays) :
    ¬a.Touches (nameKey testFile.charAt) r := by
  have hother : nameKey otherFile.charAt ≠ nameKey testFile.charAt := by decide
  simp only [otherCalls, List.map_cons, List.map_nil, List.mem_cons, List.not_mem_nil, or_false]
    at h
  rcases h with rfl | rfl | rfl | rfl | rfl
  · exact id
  · exact fun htouches => htouches.2
  · exact hother
  · exact hother
  · exact id

/-- Twelve bytes are copied to the first file on a disk. After other calls they are printed. -/
theorem print_of_copy_of_format :
    ∃ s fs' s' replies, Session.format (fun _ _ => 0) (fun _ _ => 0) = .ok s ∧
      copy s.fs (some twelveBytes) testFile (fun _ _ => 0) (fun _ => 0) (fun _ => 0)
        (fun _ _ => 0) = .ok ([], fs') ∧
      Session.run { s with fs := fs' } otherCalls = .ok (s', replies) ∧
      print s'.fs testFile (fun _ => 0) (fun _ => 0) 13 = .ok (twelveBytes.map .char) := by
  obtain ⟨s, hformat, h⟩ := Session.format_represents (fun _ _ => 0) fun _ _ => 0
  have hroom : NamedArrays.empty.HasRoom (n := numDirEntries) (α := BitVec 8) diskLimits
      (nameKey testFile.charAt) twelveBytes.length := hasRoom_empty (by decide)
  obtain ⟨fs', n, fresh, a', replies, s', hcopy, hn, hlen, -, ha, hrun, hlast, hprint⟩ :=
    print_of_copy h (by decide) hroom (fun _ _ => 0) (fun _ => 0) (fun _ => 0) (fun _ _ => 0)
      otherCalls
  -- the handle that `Open` has given out is one to the file
  have hread : n ≠ 1 := by
    rintro rfl
    obtain ⟨f, rfl⟩ := List.length_eq_one_iff.1 hlen
    have hlookup := BoundedMap.lookup_add
      (BoundedMap.add_eq_true_iff (v := twelveBytes) |>.2 ⟨hroom.1, hroom.2.1⟩)
      (nameKey testFile.charAt)
    rw [if_pos rfl] at hlookup
    simp only [otherCalls, List.take_succ_cons, List.take_zero, List.map_cons, List.map_nil,
      List.zip_cons_cons, List.zip_nil_right, Session.Call.onArrays, NamedArrays.run,
      NamedArrays.perform, hlookup, reduceCtorEq, if_false] at ha
    obtain ⟨rfl, -⟩ := Prod.mk.inj (Option.some.inj ha)
    exact hlast _ rfl ⟨trivial, nameKey testFile.charAt, 0, twelveBytes, rfl, hlookup, by decide⟩
  have hall : n = 5 := by
    by_contra hne
    have hcase : n = 0 ∨ n = 2 ∨ n = 3 ∨ n = 4 := by
      have hle : n ≤ 5 := hn
      omega
    rcases hcase with rfl | rfl | rfl | rfl
    · exact hlast _ rfl ⟨trivial, trivial⟩
    · exact hlast _ rfl ⟨by decide, trivial⟩
    · exact hlast _ rfl ⟨trivial, trivial⟩
    · exact hlast _ rfl ⟨trivial, trivial⟩
  subst hall
  refine ⟨s, fs', s', replies, hformat, hcopy, hrun, hprint ?_ _ _ 13 (by decide)⟩
  exact NamedArrays.runAvoids_of_forall fun r hr a =>
    not_touches_of_mem_otherCalls a (List.of_mem_zip hr).2

/-! ### What `PerformanceTest` does -/

/-- `FileWrite` cannot write to a file without bytes. -/
theorem fileWriteLoop_spec (file : PositionedFile) (hlists : file.hdr.Lists)
    (hlen : file.hdr.length = 0) (hpos : file.seekPosition = 0) (disk : Disk) (heap : ℕ → Bytes)
    (n : ℕ) :
    ∃ disk', fileWriteLoop heap (n + 1) file disk = .ok (false, disk') ∧
      file.hdr.contents disk' = [] ∧
      ∀ t ∉ file.hdr.firstSectors file.hdr.blocks, disk' t = disk t := by
  obtain ⟨disk', hwrite, -, hother⟩ := file.write_spec (n := contentSize) hlists disk
    testContents.charAt (heap n) (by rw [hpos]; decide)
  rw [hlen, Nat.zero_sub, Nat.min_zero] at hwrite
  refine ⟨disk', ?_, ?_, hother⟩
  · simp only [fileWriteLoop, hwrite, ok_bind]
    rfl
  · rw [FileHeader.contents, hlen]
    rfl

/-- `FileRead` reaches the end of every file before it has read all it wants to. -/
theorem fileReadLoop_spec (disk : Disk) {n : ℕ} (file : PositionedFile)
    (hlists : file.hdr.Lists) (hle : file.seekPosition ≤ file.hdr.length)
    (hn : file.hdr.length < file.seekPosition + n * contentSize) (buffer : Bytes) :
    fileReadLoop disk n file buffer = .ok false := by
  have hmax := hlists.length_le
  simp only [maxFileSize, numDirect, sectorSize] at hmax
  induction n generalizing file buffer with
  | zero => omega
  | succ n ih =>
    have hread := file.read_eq (n := contentSize) hlists disk buffer (by
      simp only [contentSize]
      omega)
    simp only [fileReadLoop, hread, ok_bind]
    split_ifs with hstop
    · rfl
    · have hmin : min contentSize (file.hdr.length - file.seekPosition) = contentSize := by
        simp only [contentSize]
        omega
      rw [hmin]
      refine ih (file.seek (file.seekPosition + contentSize)) hlists ?_ ?_ _ hmax
      · dsimp only [PositionedFile.seek]
        omega
      · dsimp only [PositionedFile.seek]
        rw [Nat.succ_mul] at hn
        omega

/-- The files after `PerformanceTest`: there is none of its name. -/
def afterTest (a : OpenFiles) : OpenFiles :=
  { arrays := (a.arrays.remove (nameKey testFile.charAt)).2,
    opened := a.opened.map (NamedArrays.forget (nameKey testFile.charAt)) }

section

variable {s : Session} {a : OpenFiles}

/-- `FileWrite` makes a file without bytes, if there is room for it. -/
theorem fileWrite_spec (h : s.Represents a) (createHeap : ℕ → Bytes) (openHeap : Bytes)
    (writeHeap : ℕ → Bytes) :
    ∃ fs', fileWrite s.fs createHeap openHeap writeHeap = .ok
        (if a.HasRoom diskLimits (nameKey testFile.charAt) 0 then [.sequentialWrite, .unableToWrite]
          else [.sequentialWrite, .canNotCreate], fs') ∧
      Session.Represents { s with fs := fs' }
        (if a.HasRoom diskLimits (nameKey testFile.charAt) 0 then
          { a with arrays := (a.arrays.add (nameKey testFile.charAt) []).2 } else a) := by
  obtain ⟨hsuccess, hfailure⟩ := h.fs_create testFile (Nat.zero_le maxFileSize) createHeap
  by_cases hroom : a.HasRoom diskLimits (nameKey testFile.charAt) 0
  · obtain ⟨fs', fresh, hc, h'⟩ := hsuccess hroom
    have hadd (items : List (BitVec 8)) := BoundedMap.add_eq_true_iff (m := a.arrays)
      (v := items) |>.2 ⟨hroom.1, hroom.2.1⟩
    obtain ⟨file, hopen, hlists, hcontents, hwrite⟩ := h'.exists_file
      (by rw [BoundedMap.lookup_add (hadd _), if_pos rfl]) openHeap
    have hlen : file.hdr.length = 0 := by
      rw [← FileHeader.length_contents file.hdr fs'.disk, hcontents]
      simp
    obtain ⟨disk', hloop, hempty, hother⟩ := fileWriteLoop_spec ⟨file, 0⟩ hlists hlen rfl
      fs'.disk writeHeap 4999
    refine ⟨{ fs' with disk := disk' }, ?_, ?_⟩
    · rw [Nat.cast_zero] at hc
      have hcount : testFileSize / contentSize = 4999 + 1 := by decide
      simp only [fileWrite, hc, ok_bind, hopen, hcount, hloop, Bool.not_true, Bool.false_eq_true,
        if_false, if_pos hroom]
      rfl
    · rw [if_pos hroom]
      refine (hwrite disk' hother).congr fun key => ?_
      rw [hempty, BoundedMap.lookup_add (hadd _), BoundedMap.lookup_replace,
        BoundedMap.lookup_add (hadd _)]
      · split_ifs <;> rfl
      · rw [BoundedMap.lookup_add (hadd _), if_pos rfl]
        exact Option.some_ne_none _
  · refine ⟨s.fs, ?_, by rwa [if_neg hroom]⟩
    have hc := hfailure hroom
    rw [Nat.cast_zero] at hc
    simp only [fileWrite, hc, ok_bind, Bool.not_false, if_true, if_neg hroom]
    rfl

/-- `FileRead` fails. -/
theorem fileRead_spec (h : s.Represents a) (openHeap buffer : Bytes) :
    fileRead s.fs openHeap buffer = .ok
      (if a.arrays.lookup (nameKey testFile.charAt) = none then [.sequentialRead, .unableToOpen]
        else [.sequentialRead, .unableToRead]) := by
  cases hitems : a.arrays.lookup (nameKey testFile.charAt) with
  | none =>
    simp only [fileRead, h.openFile_eq_none hitems, ok_bind]
    rfl
  | some items =>
    obtain ⟨file, hopen, hlists, -, -⟩ := h.exists_file hitems openHeap
    have hmax := hlists.length_le
    simp only [maxFileSize, numDirect, sectorSize] at hmax
    have hloop := fileReadLoop_spec s.fs.disk (n := 5000) ⟨file, 0⟩ hlists (Nat.zero_le _)
      (by simp only [contentSize]; omega) buffer
    have hcount : testFileSize / contentSize = 5000 := by decide
    simp only [fileRead, hopen, ok_bind, hcount, hloop]
    rfl

/-- `PerformanceTest` never succeeds. It leaves the other files alone, but the file of its name is
removed, also if there was one before. -/
theorem performanceTest_spec (h : s.Represents a) (createHeap : ℕ → Bytes) (openHeap : Bytes)
    (writeHeap : ℕ → Bytes) (openHeap' buffer : Bytes) (removeHeap : ℕ → Bytes) :
    ∃ fs', performanceTest s.fs createHeap openHeap writeHeap openHeap' buffer removeHeap = .ok
        ([.starting, .stats, .sequentialWrite] ++
          (if a.HasRoom diskLimits (nameKey testFile.charAt) 0 then [.unableToWrite]
            else [.canNotCreate]) ++ [.sequentialRead] ++
          (if a.HasRoom diskLimits (nameKey testFile.charAt) 0 ∨
              a.arrays.lookup (nameKey testFile.charAt) ≠ none then [.unableToRead, .stats]
            else [.unableToOpen, .unableToRemove]), fs') ∧
      Session.Represents { s with fs := fs' } (afterTest a) := by
  obtain ⟨fs₁, hwrite, h₁⟩ := fileWrite_spec h createHeap openHeap writeHeap
  have hread := fileRead_spec h₁ openHeap' buffer
  obtain ⟨hfailure, hsuccess⟩ := h₁.fs_remove testFile removeHeap
  by_cases hroom : a.HasRoom diskLimits (nameKey testFile.charAt) 0
  · have hadd := BoundedMap.add_eq_true_iff (m := a.arrays) (v := []) |>.2 ⟨hroom.1, hroom.2.1⟩
    have hfile : (a.arrays.add (nameKey testFile.charAt) []).2.lookup
        (nameKey testFile.charAt) ≠ none := by
      rw [BoundedMap.lookup_add hadd, if_pos rfl]
      exact Option.some_ne_none _
    rw [if_pos hroom] at hwrite hread hsuccess
    obtain ⟨fs₂, hremove, h₂⟩ := hsuccess hfile
    rw [if_neg hfile] at hread
    rw [if_pos hroom, if_pos (.inl hroom)]
    refine ⟨fs₂, by simp only [performanceTest, hwrite, hread, hremove, ok_bind]; rfl,
      h₂.congr fun key => ?_⟩
    rw [BoundedMap.lookup_remove_snd, BoundedMap.lookup_remove_snd, BoundedMap.lookup_add hadd]
    split_ifs <;> rfl
  rw [if_neg hroom] at hwrite hread hsuccess hfailure
  rw [if_neg hroom]
  by_cases hfile : a.arrays.lookup (nameKey testFile.charAt) = none
  · rw [if_pos hfile] at hread
    rw [if_neg (by simp [hroom, hfile])]
    refine ⟨fs₁, by simp only [performanceTest, hwrite, hread, hfailure hfile, ok_bind]; rfl, ?_⟩
    rw [if_neg hroom] at h₁
    refine (h₁.forget (nameKey testFile.charAt)).congr fun key => ?_
    rw [BoundedMap.lookup_remove_snd]
    split_ifs with hkey
    · rw [← hkey, hfile]
    · rfl
  · obtain ⟨fs₂, hremove, h₂⟩ := hsuccess hfile
    rw [if_neg hfile] at hread
    rw [if_pos (.inr hfile)]
    exact ⟨fs₂, by simp only [performanceTest, hwrite, hread, hremove, ok_bind]; rfl, h₂⟩

end

/-- `PerformanceTest` on a disk that has been formatted. -/
theorem performanceTest_spec_of_format :
    ∃ s fs', Session.format (fun _ _ => 0) (fun _ _ => 0) = .ok s ∧
      performanceTest s.fs (fun _ _ => 0) (fun _ => 0) (fun _ _ => 0) (fun _ => 0) (fun _ => 0)
        (fun _ _ => 0) = .ok ([.starting, .stats, .sequentialWrite, .unableToWrite,
          .sequentialRead, .unableToRead, .stats], fs') := by
  obtain ⟨s, hformat, h⟩ := Session.format_represents (fun _ _ => 0) fun _ _ => 0
  obtain ⟨fs', htest, -⟩ := performanceTest_spec h (fun _ _ => 0) (fun _ => 0) (fun _ _ => 0)
    (fun _ => 0) (fun _ => 0) fun _ _ => 0
  have hroom : NamedArrays.empty.HasRoom (n := numDirEntries) (α := BitVec 8) diskLimits
      (nameKey testFile.charAt) 0 := hasRoom_empty (by decide)
  rw [if_pos hroom, if_pos (.inl hroom)] at htest
  exact ⟨s, fs', hformat, htest⟩

end Nachos.FileSys
