import Nachos.Bin.Coff
import Nachos.Foundations.Loop
import Nachos.Foundations.Tiling

/-!
# Converting COFF files to NOFF files

The program `coff2noff`, on a host with words of 32 bits. It copies the contents of the `.text`
section and of the `.data` or `.rdata` section behind the header of the NOFF file, and describes the
`.bss` and `.sbss` sections by one segment of the header. They have to be contiguous, but the test
is the wrong way round: the program stops when a section begins where the segment ends, and it
extends the segment by the size of a section that lies elsewhere.

Both files can be opened. Files are shorter than `2 ^ 31` bytes, so that a write beyond that fails,
and so does a read of more than the file has; that `Read` takes the failure of a read of `-1` bytes
for a success is left aside. The fields of the header that are not initialised are those of a
parameter.

## Main definitions

* `addSection`, `coff2noff`: the program.
* `WellFormed`, `Describes`: a COFF file, and a NOFF file that describes it.
* `MeetsEnd`: the test stops the program.

## Main results

* `converted_of_foldlM`, `exists_foldlM_eq_ok`: the loop over the sections.
* `coff2noff_exact_iff`: for which files the program does what it should.
* `readHeader_coff2noff`: the kernel reads the header that the program has written.
-/

namespace Nachos.Bin

open Foundations UserProg

/-! ### The program -/

/-- The variables of the loop, and what has been written behind the header. -/
structure Conversion where
  noffH : NoffHeader
  inNoffFile : Word
  written : List (BitVec 8)

/-- `Write`, at the end of the file. -/
def write (written buf : List (BitVec 8)) : Except Failure (List (BitVec 8)) :=
  if 40 + written.length + buf.length < 2 ^ 31 then .ok (written ++ buf)
  else .error .unableToWrite

/-- Copy the contents of a section. -/
def copySection (file : List (BitVec 8)) (c : Conversion) (s : Scnhdr) :
    Except Failure Conversion := do
  let buffer ← read file s.sScnptr.toNat s.sSize.toNat
  let written ← write c.written buffer
  return { c with inNoffFile := c.inNoffFile + s.sSize, written }

/-- The name up to its end. Names of eight characters are none of those that are looked for. -/
def Scnhdr.name (s : Scnhdr) : List (BitVec 8) := s.sName.takeWhile (· ≠ 0)

/-- The characters of `.text`, `.data`, `.rdata`, `.bss` and `.sbss`. -/
def textName : List (BitVec 8) := [46, 116, 101, 120, 116]

@[inherit_doc textName]
def dataName : List (BitVec 8) := [46, 100, 97, 116, 97]

@[inherit_doc textName]
def rdataName : List (BitVec 8) := [46, 114, 100, 97, 116, 97]

@[inherit_doc textName]
def bssName : List (BitVec 8) := [46, 98, 115, 115]

@[inherit_doc textName]
def sbssName : List (BitVec 8) := [46, 115, 98, 115, 115]

/-- The body of the loop over the sections. -/
def addSection (file : List (BitVec 8)) (c : Conversion) (s : Scnhdr) :
    Except Failure Conversion :=
  let h := c.noffH
  if s.sSize = 0 then .ok c
  else if s.name = textName then
    copySection file { c with noffH := { h with code := ⟨s.sPaddr, c.inNoffFile, s.sSize⟩ } } s
  else if s.name = dataName ∨ s.name = rdataName then
    if h.initData.size ≠ 0 then .error .dataAndRdata
    else copySection file
      { c with noffH := { h with initData := ⟨s.sPaddr, c.inNoffFile, s.sSize⟩ } } s
  else if s.name = bssName ∨ s.name = sbssName then
    if h.uninitData.size ≠ 0 then
      if s.sPaddr = h.uninitData.virtualAddr + h.uninitData.size then .error .bssAndSbss
      else .ok { c with noffH := { h with
          uninitData := { h.uninitData with size := h.uninitData.size + s.sSize } } }
    else .ok { c with noffH := { h with
        uninitData := { h.uninitData with virtualAddr := s.sPaddr, size := s.sSize } } }
  else .error (.unknownSegment s.sName)

/-- The variables before the loop. -/
def Conversion.start (noffH : NoffHeader) : Conversion where
  noffH :=
    { noffMagic := noffMagic
      code := { noffH.code with size := 0 }
      initData := { noffH.initData with size := 0 }
      uninitData := { noffH.uninitData with size := 0 } }
  inNoffFile := 40
  written := []

/-- The bytes of the header in the order of the host. -/
def headerBytes (order : ByteOrder) (h : NoffHeader) : List (BitVec 8) :=
  [h.noffMagic, h.code.virtualAddr, h.code.inFileAddr, h.code.size, h.initData.virtualAddr,
    h.initData.inFileAddr, h.initData.size, h.uninitData.virtualAddr, h.uninitData.inFileAddr,
    h.uninitData.size].flatMap order.wordBytes

/-- The program: the header, and the bytes of the NOFF file. What the variable `noffH` holds at the
beginning is a parameter. -/
def coff2noff (order : ByteOrder) (noffH : NoffHeader) (file : List (BitVec 8)) :
    Except Failure (NoffHeader × List (BitVec 8)) := do
  let sections ← readHeaders order file
  let c ← sections.foldlM (addSection file) (.start noffH)
  return (c.noffH, headerBytes order c.noffH ++ c.written)

/-! ### What the sections are -/

/-- The kinds of sections. -/
inductive SectionKind
  | empty
  | text
  | data
  | bss
  | unknown
  deriving DecidableEq

namespace Scnhdr

/-- The kind of a section. -/
def kind (s : Scnhdr) : SectionKind :=
  if s.sSize = 0 then .empty
  else if s.name = textName then .text
  else if s.name = dataName ∨ s.name = rdataName then .data
  else if s.name = bssName ∨ s.name = sbssName then .bss
  else .unknown

/-- The contents of a section. -/
def raw (file : List (BitVec 8)) (s : Scnhdr) : List (BitVec 8) :=
  (file.drop s.sScnptr.toNat).take s.sSize.toNat

end Scnhdr

/-- The sections of a kind, in their order. -/
def ofKind (k : SectionKind) (sections : List Scnhdr) : List Scnhdr :=
  sections.filter fun s => s.kind = k

/-- The sizes of sections together. -/
def total (sections : List Scnhdr) : ℕ := (sections.map fun s => s.sSize.toNat).sum

/-- Every section begins where the one before it ends. -/
def Contiguous (sections : List Scnhdr) : Prop :=
  sections.IsChain fun s t => t.sPaddr.toNat = s.sPaddr.toNat + s.sSize.toNat

instance : DecidablePred Contiguous := fun _ => inferInstanceAs (Decidable (List.IsChain _ _))

/-- Some section begins at the address of the first one plus the sizes of those before it. -/
def MeetsEnd (sections : List Scnhdr) : Prop :=
  ∃ pre s, pre ++ [s] <+: sections ∧ ∃ first ∈ pre.head?,
    s.sPaddr = first.sPaddr + BitVec.ofNat 32 (total pre)

/-- The sections behind the first one can be put in an order in which all are contiguous. -/
def ContiguousInSomeOrder (sections : List Scnhdr) : Prop :=
  ∃ sections', sections'.Perm sections ∧ sections'.head? = sections.head? ∧ Contiguous sections'

/-- A COFF file: there are no other sections than those that the program knows, at most one of them
has code, the contents of the sections are in the file, and the sizes do not exceed the address
space and the NOFF file. -/
structure WellFormed (order : ByteOrder) (file : List (BitVec 8)) (sections : List Scnhdr) :
    Prop where
  headers : readHeaders order file = .ok sections
  known : ∀ s ∈ sections, s.kind ≠ .unknown
  raw : ∀ s ∈ sections, s.kind = .text ∨ s.kind = .data →
    s.sScnptr.toNat + s.sSize.toNat ≤ file.length
  text : (ofKind .text sections).length ≤ 1
  bss : total (ofKind .bss sections) < 2 ^ 32
  fits : 40 + (total (ofKind .text sections) + total (ofKind .data sections)) < 2 ^ 31

/-- The NOFF file has the contents of the sections where its header says, and the segment of the
uninitialised data consists of the addresses of the sections. -/
structure Describes (file : List (BitVec 8)) (sections : List Scnhdr) (noffH : NoffHeader)
    (bytes : List (BitVec 8)) : Prop where
  uninitData : ∀ a : ℕ, (noffH.uninitData.virtualAddr.toNat ≤ a ∧
      a < noffH.uninitData.virtualAddr.toNat + noffH.uninitData.size.toNat) ↔
    ∃ s ∈ ofKind .bss sections, s.sPaddr.toNat ≤ a ∧ a < s.sPaddr.toNat + s.sSize.toNat
  code : (bytes.drop noffH.code.inFileAddr.toNat).take noffH.code.size.toNat =
    (ofKind .text sections).flatMap (Scnhdr.raw file)
  initData : (bytes.drop noffH.initData.inFileAddr.toNat).take noffH.initData.size.toNat =
    (ofKind .data sections).flatMap (Scnhdr.raw file)

variable {order : ByteOrder} {file : List (BitVec 8)} {sections secs : List Scnhdr}
  {s : Scnhdr} {c c' : Conversion} {k : SectionKind} {seg : Segment} {noffH : NoffHeader}

theorem ofKind_append_self (h : s.kind = k) : ofKind k (secs ++ [s]) = ofKind k secs ++ [s] := by
  simp [ofKind, h]

theorem ofKind_append_of_ne (h : s.kind ≠ k) : ofKind k (secs ++ [s]) = ofKind k secs := by
  simp [ofKind, h]

theorem ofKind_mono (h : secs <+: sections) (k : SectionKind) :
    ofKind k secs <+: ofKind k sections := h.filter _

theorem total_nil : total [] = 0 := rfl

theorem total_append (l l' : List Scnhdr) : total (l ++ l') = total l + total l' := by
  simp [total]

theorem total_singleton (s : Scnhdr) : total [s] = s.sSize.toNat := by
  simp [total]

theorem total_mono (h : secs <+: sections) : total secs ≤ total sections := by
  obtain ⟨rest, rfl⟩ := h
  rw [total_append]
  exact Nat.le_add_right _ _

theorem Scnhdr.sSize_ne_zero (h : s.kind ≠ .empty) : s.sSize ≠ 0 := fun h₀ =>
  h (if_pos h₀)

/-- The body of the loop by the kind of the section. -/
theorem addSection_eq (file : List (BitVec 8)) (c : Conversion) (s : Scnhdr) :
    addSection file c s =
      match s.kind with
      | .empty => .ok c
      | .text => copySection file
          { c with noffH := { c.noffH with code := ⟨s.sPaddr, c.inNoffFile, s.sSize⟩ } } s
      | .data =>
        if c.noffH.initData.size ≠ 0 then .error .dataAndRdata
        else copySection file
          { c with noffH := { c.noffH with initData := ⟨s.sPaddr, c.inNoffFile, s.sSize⟩ } } s
      | .bss =>
        if c.noffH.uninitData.size ≠ 0 then
          if s.sPaddr = c.noffH.uninitData.virtualAddr + c.noffH.uninitData.size then
            .error .bssAndSbss
          else .ok { c with noffH := { c.noffH with uninitData :=
            { c.noffH.uninitData with size := c.noffH.uninitData.size + s.sSize } } }
        else .ok { c with noffH := { c.noffH with uninitData :=
            { c.noffH.uninitData with virtualAddr := s.sPaddr, size := s.sSize } } }
      | .unknown => .error (.unknownSegment s.sName) := by
  simp only [addSection, Scnhdr.kind]
  by_cases h₀ : s.sSize = 0
  · simp only [h₀, if_true]
  by_cases h₁ : s.name = textName
  · simp only [h₀, h₁, if_false, if_true]
  by_cases h₂ : s.name = dataName ∨ s.name = rdataName
  · simp only [h₀, h₁, h₂, if_false, if_true]
  by_cases h₃ : s.name = bssName ∨ s.name = sbssName
  · simp only [h₀, h₁, h₂, h₃, if_false, if_true]
  · simp only [h₀, h₁, h₂, h₃, if_false]

/-! ### The loop over the sections -/

/-- A segment has been copied from sections, of which there is at most one. -/
structure Copied (file : List (BitVec 8)) (secs : List Scnhdr) (seg : Segment)
    (written : List (BitVec 8)) : Prop where
  size_of_nil : secs = [] → seg.size = 0
  of_mem : ∀ s ∈ secs, seg.size = s.sSize ∧ ∃ pre post,
    written = pre ++ s.raw file ++ post ∧ seg.inFileAddr.toNat = 40 + pre.length

/-- A segment begins with the first section and is as long as the sections together. -/
structure Extended (secs : List Scnhdr) (seg : Segment) : Prop where
  virtualAddr : ∀ s ∈ secs.head?, seg.virtualAddr = s.sPaddr
  size : seg.size.toNat = total secs
  accepted : ¬MeetsEnd secs

/-- What the loop has done after some sections. -/
structure Converted (file : List (BitVec 8)) (secs : List Scnhdr) (c : Conversion) : Prop where
  magic : c.noffH.noffMagic = noffMagic
  position : c.inNoffFile.toNat = 40 + c.written.length
  length : c.written.length = total (ofKind .text secs) + total (ofKind .data secs)
  code : Copied file (ofKind .text secs) c.noffH.code c.written
  initData : Copied file (ofKind .data secs) c.noffH.initData c.written
  initData_le : (ofKind .data secs).length ≤ 1
  uninitData : Extended (ofKind .bss secs) c.noffH.uninitData

theorem Copied.append {written : List (BitVec 8)} (h : Copied file secs seg written)
    (more : List (BitVec 8)) : Copied file secs seg (written ++ more) := by
  refine ⟨h.size_of_nil, fun s hs => ?_⟩
  obtain ⟨hsize, pre, post, rfl, haddr⟩ := h.of_mem s hs
  exact ⟨hsize, pre, post ++ more, by simp, haddr⟩

theorem MeetsEnd.mono (h : MeetsEnd secs) (hbefore : secs <+: sections) : MeetsEnd sections := by
  obtain ⟨pre, s, hpre, hend⟩ := h
  exact ⟨pre, s, hpre.trans hbefore, hend⟩

/-- One more section begins at the end, or another one did before. -/
theorem meetsEnd_append_singleton : MeetsEnd (secs ++ [s]) ↔ MeetsEnd secs ∨
    ∃ first ∈ secs.head?, s.sPaddr = first.sPaddr + BitVec.ofNat 32 (total secs) := by
  constructor
  · rintro ⟨pre, t, hpre, hend⟩
    rcases List.prefix_concat_iff.1 hpre with heq | hpre
    · obtain ⟨rfl, rfl⟩ := List.append_singleton_inj.1 heq
      exact .inr hend
    · exact .inl ⟨pre, t, hpre, hend⟩
  · rintro (h | hend)
    · exact h.mono (List.prefix_append _ _)
    · exact ⟨secs, s, List.prefix_rfl, hend⟩

theorem Converted.start (file : List (BitVec 8)) (noffH : NoffHeader) :
    Converted file [] (.start noffH) where
  magic := rfl
  position := rfl
  length := rfl
  code := ⟨fun _ => rfl, by simp [ofKind]⟩
  initData := ⟨fun _ => rfl, by simp [ofKind]⟩
  initData_le := Nat.zero_le 1
  uninitData := ⟨by simp [ofKind], rfl, by simp [MeetsEnd, ofKind]⟩

/-! ### One section -/

@[simp]
theorem mem_ofKind : s ∈ ofKind k secs ↔ s ∈ secs ∧ s.kind = k := by
  simp [ofKind]

theorem toNat_sSize_le_total (h : s ∈ secs) : s.sSize.toNat ≤ total secs := by
  obtain ⟨pre, post, rfl⟩ := List.append_of_mem h
  rw [List.append_cons, total_append, total_append, total_singleton]
  omega

theorem total_ofKind_pos (hk : k ≠ .empty) (hne : ofKind k secs ≠ []) :
    0 < total (ofKind k secs) := by
  obtain ⟨s, hs⟩ := List.exists_mem_of_ne_nil _ hne
  have hsize := Scnhdr.sSize_ne_zero ((mem_ofKind.1 hs).2 ▸ hk)
  have hpos : s.sSize.toNat ≠ 0 := fun h => hsize (BitVec.eq_of_toNat_eq h)
  exact (Nat.pos_of_ne_zero hpos).trans_le (toNat_sSize_le_total hs)

theorem length_raw (h : s.sScnptr.toNat + s.sSize.toNat ≤ file.length) :
    (s.raw file).length = s.sSize.toNat := by
  rw [Scnhdr.raw, List.length_take, List.length_drop]
  omega

/-- What the file contains is copied. -/
theorem copySection_of_le (hraw : s.sScnptr.toNat + s.sSize.toNat ≤ file.length)
    (hfits : 40 + c.written.length + s.sSize.toNat < 2 ^ 31) :
    copySection file c s = .ok { c with
      inNoffFile := c.inNoffFile + s.sSize
      written := c.written ++ s.raw file } := by
  have hread : read file s.sScnptr.toNat s.sSize.toNat = .ok (s.raw file) := if_pos hraw
  have hwrite : write c.written (s.raw file) = .ok (c.written ++ s.raw file) :=
    if_pos (by rwa [length_raw hraw])
  simp only [copySection, hread, ok_bind, hwrite]
  rfl

namespace Converted

/-- Sections without contents do not matter. -/
theorem of_kind_eq_empty (hc : Converted file secs c) (hs : s.kind = .empty) :
    Converted file (secs ++ [s]) c := by
  have htext : ofKind .text (secs ++ [s]) = ofKind .text secs := ofKind_append_of_ne (by simp [hs])
  have hdata : ofKind .data (secs ++ [s]) = ofKind .data secs := ofKind_append_of_ne (by simp [hs])
  have hbss : ofKind .bss (secs ++ [s]) = ofKind .bss secs := ofKind_append_of_ne (by simp [hs])
  obtain ⟨hmagic, hposition, hlength, hcode, hinit, hle, huninit⟩ := hc
  constructor <;> simpa only [htext, hdata, hbss]

/-- The position in the NOFF file after the contents of a section. -/
theorem toNat_position_append (hc : Converted file secs c)
    (hraw : s.sScnptr.toNat + s.sSize.toNat ≤ file.length)
    (hfits : 40 + c.written.length + s.sSize.toNat < 2 ^ 31) :
    (c.inNoffFile + s.sSize).toNat = 40 + (c.written ++ s.raw file).length := by
  have hpos := hc.position
  rw [List.length_append, length_raw hraw, BitVec.toNat_add, Nat.mod_eq_of_lt (by omega)]
  omega

theorem copied_append (hc : Converted file secs c) (s : Scnhdr) :
    Copied file [s] ⟨s.sPaddr, c.inNoffFile, s.sSize⟩ (c.written ++ s.raw file) := by
  refine ⟨by simp, ?_⟩
  rw [List.forall_mem_singleton]
  exact ⟨rfl, c.written, [], (List.append_nil _).symm, hc.position⟩

theorem of_kind_eq_text (hc : Converted file secs c) (hs : s.kind = .text)
    (hnil : ofKind .text secs = [])
    (hraw : s.sScnptr.toNat + s.sSize.toNat ≤ file.length)
    (hfits : 40 + c.written.length + s.sSize.toNat < 2 ^ 31) :
    Converted file (secs ++ [s]) {
      noffH := { c.noffH with code := ⟨s.sPaddr, c.inNoffFile, s.sSize⟩ }
      inNoffFile := c.inNoffFile + s.sSize
      written := c.written ++ s.raw file } := by
  have htext : ofKind .text (secs ++ [s]) = [s] := by rw [ofKind_append_self hs, hnil]; rfl
  have hdata : ofKind .data (secs ++ [s]) = ofKind .data secs := ofKind_append_of_ne (by simp [hs])
  have hbss : ofKind .bss (secs ++ [s]) = ofKind .bss secs := ofKind_append_of_ne (by simp [hs])
  have hlen := hc.length
  rw [hnil, total_nil] at hlen
  refine ⟨hc.magic, hc.toNat_position_append hraw hfits, ?_, ?_, ?_, ?_, ?_⟩
  · rw [htext, hdata, List.length_append, length_raw hraw, total_singleton]
    omega
  · rw [htext]
    exact hc.copied_append s
  · rw [hdata]
    exact hc.initData.append _
  · rw [hdata]
    exact hc.initData_le
  · rw [hbss]
    exact hc.uninitData

theorem of_kind_eq_data (hc : Converted file secs c) (hs : s.kind = .data)
    (hnil : ofKind .data secs = [])
    (hraw : s.sScnptr.toNat + s.sSize.toNat ≤ file.length)
    (hfits : 40 + c.written.length + s.sSize.toNat < 2 ^ 31) :
    Converted file (secs ++ [s]) {
      noffH := { c.noffH with initData := ⟨s.sPaddr, c.inNoffFile, s.sSize⟩ }
      inNoffFile := c.inNoffFile + s.sSize
      written := c.written ++ s.raw file } := by
  have htext : ofKind .text (secs ++ [s]) = ofKind .text secs := ofKind_append_of_ne (by simp [hs])
  have hdata : ofKind .data (secs ++ [s]) = [s] := by rw [ofKind_append_self hs, hnil]; rfl
  have hbss : ofKind .bss (secs ++ [s]) = ofKind .bss secs := ofKind_append_of_ne (by simp [hs])
  have hlen := hc.length
  rw [hnil, total_nil] at hlen
  refine ⟨hc.magic, hc.toNat_position_append hraw hfits, ?_, ?_, ?_, ?_, ?_⟩
  · rw [htext, hdata, List.length_append, length_raw hraw, total_singleton]
    omega
  · rw [htext]
    exact hc.code.append _
  · rw [hdata]
    exact hc.copied_append s
  · rw [hdata]
    exact le_rfl
  · rw [hbss]
    exact hc.uninitData

/-- A section of uninitialised data changes that segment alone. -/
theorem of_kind_eq_bss (hc : Converted file secs c) (hs : s.kind = .bss)
    (h : Extended (ofKind .bss secs ++ [s]) seg) :
    Converted file (secs ++ [s]) { c with noffH := { c.noffH with uninitData := seg } } := by
  have htext : ofKind .text (secs ++ [s]) = ofKind .text secs := ofKind_append_of_ne (by simp [hs])
  have hdata : ofKind .data (secs ++ [s]) = ofKind .data secs := ofKind_append_of_ne (by simp [hs])
  refine ⟨hc.magic, hc.position, ?_, ?_, ?_, ?_, ?_⟩
  · rw [htext, hdata]
    exact hc.length
  · rw [htext]
    exact hc.code
  · rw [hdata]
    exact hc.initData
  · rw [hdata]
    exact hc.initData_le
  · rw [ofKind_append_self hs]
    exact h

end Converted

namespace Extended

/-- The test compares a section with the end that the segment has. -/
theorem begins_at_end_iff (h : Extended secs seg) (hne : secs ≠ []) :
    s.sPaddr = seg.virtualAddr + seg.size ↔
      ∃ first ∈ secs.head?, s.sPaddr = first.sPaddr + BitVec.ofNat 32 (total secs) := by
  obtain ⟨first, rest, rfl⟩ := List.exists_cons_of_ne_nil hne
  rw [← h.size, BitVec.ofNat_toNat, BitVec.setWidth_eq, h.virtualAddr first rfl]
  simp

theorem singleton (seg : Segment) (s : Scnhdr) :
    Extended [s] { seg with virtualAddr := s.sPaddr, size := s.sSize } := by
  refine ⟨by simp, (total_singleton s).symm, ?_⟩
  rw [← List.nil_append [s], meetsEnd_append_singleton]
  simp [MeetsEnd]

theorem append_singleton (h : Extended secs seg) (hne : secs ≠ [])
    (hs : s.sPaddr ≠ seg.virtualAddr + seg.size) (hlt : total (secs ++ [s]) < 2 ^ 32) :
    Extended (secs ++ [s]) { seg with size := seg.size + s.sSize } := by
  have hsize := h.size
  rw [total_append, total_singleton] at hlt
  refine ⟨?_, ?_, ?_⟩
  · rw [List.head?_append_of_ne_nil _ hne]
    exact h.virtualAddr
  · rw [total_append, total_singleton, BitVec.toNat_add, Nat.mod_eq_of_lt (by omega), hsize]
  · rw [meetsEnd_append_singleton, ← h.begins_at_end_iff hne]
    exact not_or.2 ⟨h.accepted, hs⟩

/-- The segment consists of the addresses of the sections if these are contiguous in some
order. -/
theorem describes_iff (h : Extended secs seg) (hne : ∀ s ∈ secs, s.sSize ≠ 0) :
    (∀ a : ℕ, (seg.virtualAddr.toNat ≤ a ∧ a < seg.virtualAddr.toNat + seg.size.toNat) ↔
      ∃ s ∈ secs, s.sPaddr.toNat ≤ a ∧ a < s.sPaddr.toNat + s.sSize.toNat) ↔
      ContiguousInSomeOrder secs := by
  cases secs with
  | nil =>
    have hsize := h.size
    rw [total_nil] at hsize
    refine iff_of_true (fun a => ?_) ⟨[], .rfl, rfl, .nil⟩
    simp only [List.not_mem_nil, false_and, exists_false, iff_false]
    omega
  | cons first rest =>
    have hpos : ∀ s ∈ first :: rest, 0 < s.sSize.toNat := fun s hs =>
      Nat.pos_of_ne_zero fun h₀ => hne s hs (BitVec.eq_of_toNat_eq h₀)
    rw [h.virtualAddr first rfl, h.size]
    refine (exists_perm_tiles_iff hpos).symm.trans ?_
    refine exists_congr fun secs' => and_congr_right fun hperm => ?_
    constructor
    · intro htiles
      have hpos' : ∀ s ∈ secs', 0 < s.sSize.toNat := fun s hs => hpos s (hperm.mem_iff.1 hs)
      exact ⟨htiles.head?_eq hpos' (hperm.mem_iff.2 List.mem_cons_self), (tiles_iff.1 htiles).2⟩
    · rintro ⟨hhead, hchain⟩
      exact tiles_iff.2 ⟨by simp [hhead], hchain⟩

theorem size_eq_zero_iff (h : Extended (ofKind k secs) seg) (hk : k ≠ .empty) :
    seg.size = 0 ↔ ofKind k secs = [] := by
  have hsize := h.size
  constructor
  · intro h₀
    by_contra hne
    have hpos := total_ofKind_pos hk hne
    rw [h₀] at hsize
    exact hpos.ne hsize
  · intro hnil
    rw [hnil, total_nil] at hsize
    exact BitVec.eq_of_toNat_eq hsize

end Extended

theorem Copied.size_eq_zero_iff {written : List (BitVec 8)}
    (h : Copied file (ofKind k secs) seg written) (hk : k ≠ .empty) :
    seg.size = 0 ↔ ofKind k secs = [] := by
  refine ⟨fun h₀ => List.eq_nil_iff_forall_not_mem.2 fun s hs => ?_, h.size_of_nil⟩
  have hsize := Scnhdr.sSize_ne_zero ((mem_ofKind.1 hs).2 ▸ hk)
  exact hsize ((h.of_mem s hs).1.symm.trans h₀)

/-! ### All sections -/

/-- There are two sections of initialised data, or the test stops the program. -/
def Refused (secs : List Scnhdr) : Prop :=
  2 ≤ (ofKind .data secs).length ∨ MeetsEnd (ofKind .bss secs)

theorem Refused.mono (h : Refused secs) (hbefore : secs <+: sections) : Refused sections :=
  h.imp (fun h => h.trans (ofKind_mono hbefore .data).length_le)
    fun h => h.mono (ofKind_mono hbefore .bss)

/-- A section of initialised data is copied, or it is not the first one. -/
theorem Converted.addSection_of_data (hc : Converted file secs c) (hs : s.kind = .data)
    (hraw : s.sScnptr.toNat + s.sSize.toNat ≤ file.length)
    (hroom : 40 + c.written.length + s.sSize.toNat < 2 ^ 31) :
    (∃ c', addSection file c s = .ok c' ∧ Converted file (secs ++ [s]) c') ∨
      (∃ e, addSection file c s = .error e) ∧ 2 ≤ (ofKind .data (secs ++ [s])).length := by
  rw [addSection_eq, hs]
  by_cases hsize : c.noffH.initData.size = 0
  · have hnil := (hc.initData.size_eq_zero_iff (by decide)).1 hsize
    refine .inl ⟨_, ?_, hc.of_kind_eq_data hs hnil hraw hroom⟩
    exact (if_neg (not_not.2 hsize)).trans (copySection_of_le hraw hroom)
  · refine .inr ⟨⟨.dataAndRdata, if_pos hsize⟩, ?_⟩
    have hne := fun hnil => hsize ((hc.initData.size_eq_zero_iff (by decide)).2 hnil)
    have hpos := List.length_pos_of_ne_nil hne
    rw [ofKind_append_self hs, List.length_append, List.length_singleton]
    omega

/-- A section of uninitialised data extends the segment, or it begins at its end. -/
theorem Converted.addSection_of_bss (hc : Converted file secs c) (hs : s.kind = .bss)
    (hlt : total (ofKind .bss secs) + s.sSize.toNat < 2 ^ 32) :
    (∃ c', addSection file c s = .ok c' ∧ Converted file (secs ++ [s]) c') ∨
      (∃ e, addSection file c s = .error e) ∧ MeetsEnd (ofKind .bss (secs ++ [s])) := by
  rw [addSection_eq, hs]
  by_cases hsize : c.noffH.uninitData.size = 0
  · have hnil := (hc.uninitData.size_eq_zero_iff (by decide)).1 hsize
    refine .inl ⟨_, if_neg (not_not.2 hsize), hc.of_kind_eq_bss hs ?_⟩
    rw [hnil]
    exact .singleton _ s
  · have hne := fun hnil => hsize ((hc.uninitData.size_eq_zero_iff (by decide)).2 hnil)
    by_cases hend : s.sPaddr = c.noffH.uninitData.virtualAddr + c.noffH.uninitData.size
    · refine .inr ⟨⟨.bssAndSbss, (if_pos hsize).trans (if_pos hend)⟩, ?_⟩
      rw [ofKind_append_self hs, meetsEnd_append_singleton]
      exact .inr ((hc.uninitData.begins_at_end_iff hne).1 hend)
    · refine .inl ⟨_, (if_pos hsize).trans (if_neg hend), hc.of_kind_eq_bss hs ?_⟩
      refine hc.uninitData.append_singleton hne hend ?_
      rwa [total_append, total_singleton]

/-- The loop goes on, or the program stops at a section that is refused. -/
theorem Converted.addSection (hc : Converted file secs c) (h : WellFormed order file sections)
    (hbefore : secs ++ [s] <+: sections) :
    (∃ c', addSection file c s = .ok c' ∧ Converted file (secs ++ [s]) c') ∨
      (∃ e, Bin.addSection file c s = .error e) ∧ Refused (secs ++ [s]) := by
  have hmem : s ∈ sections := hbefore.mem (by simp)
  have htotal (k : SectionKind) (hs : s.kind = k) :
      total (ofKind k secs) + s.sSize.toNat ≤ total (ofKind k sections) := by
    have hle := total_mono (ofKind_mono hbefore k)
    rwa [ofKind_append_self hs, total_append, total_singleton] at hle
  have hle (k : SectionKind) : total (ofKind k secs) ≤ total (ofKind k sections) :=
    total_mono (ofKind_mono ((List.prefix_append _ _).trans hbefore) k)
  have hlen := hc.length
  have hfits := h.fits
  cases hs : s.kind with
  | empty =>
    rw [addSection_eq, hs]
    exact .inl ⟨c, rfl, hc.of_kind_eq_empty hs⟩
  | text =>
    rw [addSection_eq, hs]
    have hraw := h.raw s hmem (.inl hs)
    have hnil : ofKind .text secs = [] := by
      have hone := (ofKind_mono hbefore .text).length_le.trans h.text
      rw [ofKind_append_self hs, List.length_append, List.length_singleton] at hone
      exact List.eq_nil_of_length_eq_zero (by omega)
    have hroom : 40 + c.written.length + s.sSize.toNat < 2 ^ 31 := by
      have htext := htotal .text hs
      have hdata := hle .data
      omega
    exact .inl ⟨_, copySection_of_le hraw hroom, hc.of_kind_eq_text hs hnil hraw hroom⟩
  | data =>
    have hroom : 40 + c.written.length + s.sSize.toNat < 2 ^ 31 := by
      have htext := hle .text
      have hdata := htotal .data hs
      omega
    exact (hc.addSection_of_data hs (h.raw s hmem (.inr hs)) hroom).imp_right fun hrefused =>
      ⟨hrefused.1, .inl hrefused.2⟩
  | bss =>
    exact (hc.addSection_of_bss hs ((htotal .bss hs).trans_lt h.bss)).imp_right fun hrefused =>
      ⟨hrefused.1, .inr hrefused.2⟩
  | unknown => exact absurd hs (h.known s hmem)

/-- What a loop that succeeds has done. -/
theorem converted_of_foldlM (h : WellFormed order file sections) (noffH : NoffHeader)
    (hloop : sections.foldlM (addSection file) (.start noffH) = .ok c) :
    Converted file sections c := by
  refine foldlM_prefix_invariant (Converted file) hloop (.start file noffH) ?_
  intro secs s rest c c' heq hc hadd
  have hbefore : secs ++ [s] <+: sections := ⟨rest, (List.append_cons ..).symm.trans heq.symm⟩
  rcases hc.addSection h hbefore with ⟨c₁, hok, hc₁⟩ | ⟨⟨e, herror⟩, -⟩
  · rw [hadd] at hok
    obtain rfl := Except.ok.inj hok
    exact hc₁
  · rw [hadd] at herror
    cases herror

theorem exists_foldlM_eq_ok (h : WellFormed order file sections) (noffH : NoffHeader)
    (hall : ¬Refused sections) :
    ∃ c, sections.foldlM (addSection file) (.start noffH) = .ok c ∧ Converted file sections c := by
  refine foldlM_prefix_spec (Converted file) (.start file noffH) ?_
  intro secs s rest c heq hc
  have hbefore : secs ++ [s] <+: sections := ⟨rest, (List.append_cons ..).symm.trans heq.symm⟩
  exact (hc.addSection h hbefore).resolve_right fun hrefused => hall (hrefused.2.mono hbefore)

/-! ### The program -/

theorem length_headerBytes (order : ByteOrder) (h : NoffHeader) :
    (headerBytes order h).length = 40 := by
  cases order <;> rfl

theorem coff2noff_eq_ok_iff (h : WellFormed order file sections) (noffH : NoffHeader)
    {r : NoffHeader × List (BitVec 8)} :
    coff2noff order noffH file = .ok r ↔
      ∃ c, sections.foldlM (addSection file) (.start noffH) = .ok c ∧
        r = (c.noffH, headerBytes order c.noffH ++ c.written) := by
  simp only [coff2noff, h.headers, ok_bind]
  cases sections.foldlM (addSection file) (.start noffH) with
  | error e => simp [bind, Except.bind]
  | ok c => simp [pure, Except.pure, eq_comm]

/-- The program succeeds for the files of which no section is refused. -/
theorem exists_coff2noff_eq_ok_iff (h : WellFormed order file sections) (noffH : NoffHeader) :
    (∃ r, coff2noff order noffH file = .ok r) ↔ ¬Refused sections := by
  simp only [coff2noff_eq_ok_iff h noffH]
  constructor
  · rintro ⟨_, c, hloop, -⟩
    have hc := converted_of_foldlM h noffH hloop
    exact not_or.2 ⟨by have := hc.initData_le; omega, hc.uninitData.accepted⟩
  · intro hall
    obtain ⟨c, hloop, -⟩ := exists_foldlM_eq_ok h noffH hall
    exact ⟨_, c, hloop, rfl⟩

/-- The contents are where the header says. -/
theorem Copied.contents {written header : List (BitVec 8)} (h : Copied file secs seg written)
    (hle : secs.length ≤ 1) (hheader : header.length = 40)
    (hraw : ∀ s ∈ secs, s.sScnptr.toNat + s.sSize.toNat ≤ file.length) :
    ((header ++ written).drop seg.inFileAddr.toNat).take seg.size.toNat =
      secs.flatMap (Scnhdr.raw file) := by
  rcases secs with _ | ⟨s, _ | ⟨t, rest⟩⟩
  · rw [h.size_of_nil rfl]
    rfl
  · obtain ⟨hsize, pre, post, rfl, haddr⟩ := h.of_mem s List.mem_cons_self
    have hlen := length_raw (hraw s List.mem_cons_self)
    rw [haddr, ← hheader, ← List.length_append, hsize, List.append_assoc pre, ← List.append_assoc,
      List.drop_left, List.take_left' hlen, List.flatMap_singleton]
  · simp at hle

/-- A program that succeeds describes the contents of the sections, and the uninitialised data if
the sections are contiguous in some order. -/
theorem Converted.describes_iff (hc : Converted file sections c)
    (h : WellFormed order file sections) :
    Describes file sections c.noffH (headerBytes order c.noffH ++ c.written) ↔
      ContiguousInSomeOrder (ofKind .bss sections) := by
  have hbss : ∀ s ∈ ofKind .bss sections, s.sSize ≠ 0 := fun s hs =>
    Scnhdr.sSize_ne_zero (by rw [(mem_ofKind.1 hs).2]; decide)
  rw [← hc.uninitData.describes_iff hbss]
  refine ⟨fun hdescribes => hdescribes.uninitData, fun huninit => ⟨huninit, ?_, ?_⟩⟩
  · refine hc.code.contents h.text (length_headerBytes _ _) fun s hs => ?_
    exact h.raw s (mem_ofKind.1 hs).1 (.inl (mem_ofKind.1 hs).2)
  · refine hc.initData.contents hc.initData_le (length_headerBytes _ _) fun s hs => ?_
    exact h.raw s (mem_ofKind.1 hs).1 (.inr (mem_ofKind.1 hs).2)

/-- The test stops the program at the second of two sections that are contiguous. -/
theorem Contiguous.meetsEnd (h : Contiguous secs) (hle : 2 ≤ secs.length) : MeetsEnd secs := by
  obtain ⟨s, t, rest, rfl⟩ : ∃ s t rest, secs = s :: t :: rest := by
    rcases secs with _ | ⟨s, _ | ⟨t, rest⟩⟩
    · simp at hle
    · simp at hle
    · exact ⟨s, t, rest, rfl⟩
  refine ⟨[s], t, List.prefix_append [s, t] rest, s, rfl, BitVec.eq_of_toNat_eq ?_⟩
  have hst : t.sPaddr.toNat = s.sPaddr.toNat + s.sSize.toNat := (List.isChain_cons_cons.1 h).1
  have hlt := t.sPaddr.isLt
  rw [total_singleton, BitVec.toNat_add, BitVec.toNat_ofNat, Nat.add_mod_mod, ← hst,
    Nat.mod_eq_of_lt hlt]

theorem contiguous_of_length_le_one (h : secs.length ≤ 1) : Contiguous secs := by
  rcases secs with _ | ⟨s, _ | ⟨t, rest⟩⟩
  · exact .nil
  · exact .singleton s
  · simp at h

theorem not_meetsEnd_of_length_le_one (h : secs.length ≤ 1) : ¬MeetsEnd secs := by
  rintro ⟨pre, s, hpre, first, hfirst, -⟩
  have hlen := hpre.length_le
  have hpos := List.length_pos_of_mem (List.mem_of_mem_head? hfirst)
  rw [List.length_append, List.length_singleton] at hlen
  omega

/-- The program does what it should for the files with at most one section of uninitialised data,
and else only for files whose sections are not contiguous: for those that it refuses because of the
test, and for those that are contiguous in another order. -/
theorem coff2noff_exact_iff (order : ByteOrder) (noffH : NoffHeader) (file : List (BitVec 8))
    (sections : List Scnhdr) (h : WellFormed order file sections) :
    ((Contiguous (ofKind .bss sections) ∧ (ofKind .data sections).length ≤ 1 →
        ∃ r, coff2noff order noffH file = .ok r) ∧
      ∀ noffH' bytes, coff2noff order noffH file = .ok (noffH', bytes) →
        Describes file sections noffH' bytes) ↔
      2 ≤ (ofKind .data sections).length ∨ (ofKind .bss sections).length ≤ 1 ∨
        ¬Contiguous (ofKind .bss sections) ∧
          (MeetsEnd (ofKind .bss sections) ∨ ContiguousInSomeOrder (ofKind .bss sections)) := by
  have hdescribes : (∀ noffH' bytes, coff2noff order noffH file = .ok (noffH', bytes) →
      Describes file sections noffH' bytes) ↔
      (¬Refused sections → ContiguousInSomeOrder (ofKind .bss sections)) := by
    constructor
    · intro hall hrefused
      obtain ⟨c, hloop, hc⟩ := exists_foldlM_eq_ok h noffH hrefused
      exact (hc.describes_iff h).1 (hall _ _ ((coff2noff_eq_ok_iff h noffH).2 ⟨c, hloop, rfl⟩))
    · intro hall noffH' bytes hok
      have horder := hall ((exists_coff2noff_eq_ok_iff h noffH).1 ⟨_, hok⟩)
      obtain ⟨c, hloop, hr⟩ := (coff2noff_eq_ok_iff h noffH).1 hok
      obtain ⟨rfl, rfl⟩ := Prod.mk.inj hr
      exact ((converted_of_foldlM h noffH hloop).describes_iff h).2 horder
  rw [hdescribes, exists_coff2noff_eq_ok_iff h, Refused, not_or, not_le]
  by_cases hdata : 2 ≤ (ofKind .data sections).length
  · exact iff_of_true ⟨fun hle => by omega, fun hlt => by omega⟩ (.inl hdata)
  by_cases hbss : (ofKind .bss sections).length ≤ 1
  · refine iff_of_true ⟨fun _ => ⟨by omega, not_meetsEnd_of_length_le_one hbss⟩, fun _ => ?_⟩
      (.inr (.inl hbss))
    exact ⟨_, .rfl, rfl, contiguous_of_length_le_one hbss⟩
  have hmeets := fun hcontiguous : Contiguous (ofKind .bss sections) =>
    hcontiguous.meetsEnd (by omega)
  constructor
  · rintro ⟨hsucceeds, horder⟩
    refine .inr (.inr ⟨fun hcontiguous => ?_, ?_⟩)
    · exact (hsucceeds ⟨hcontiguous, by omega⟩).2 (hmeets hcontiguous)
    · exact or_iff_not_imp_left.2 fun hnot => horder ⟨by omega, hnot⟩
  · rintro (h₂ | h₁ | ⟨hnot, hcases⟩)
    · exact absurd h₂ hdata
    · exact absurd h₁ hbss
    · exact ⟨fun hcontiguous => absurd hcontiguous.1 hnot,
        fun hok => hcases.resolve_left hok.2⟩

set_option maxRecDepth 2000 in
/-- On a host of the big order: a file with a `.text` section, and with sections of uninitialised
data at `0x100`, `0x130` and `0x110`. -/
theorem coff2noff_exact_of_three_sections :
    let sections : List Scnhdr :=
      [⟨textName ++ [0, 0, 0], 0, 4, 236⟩, ⟨sbssName ++ [0, 0, 0], 0x100, 16, 0⟩,
        ⟨bssName ++ [0, 0, 0, 0], 0x130, 32, 0⟩, ⟨bssName ++ [0, 0, 0, 0], 0x110, 32, 0⟩]
    let file := coffFile sections [1, 2, 3, 4]
    let noffH : NoffHeader := ⟨0, ⟨0, 0, 0⟩, ⟨0, 0, 0⟩, ⟨0, 0, 0⟩⟩
    ∃ noffH' bytes, coff2noff .big noffH file = .ok (noffH', bytes) ∧
      Describes file sections noffH' bytes := by
  intro sections file noffH
  have hname : ∀ s ∈ sections, s.sName.length = 8 := by decide
  have h : WellFormed .big file sections :=
    { headers := readHeaders_coffFile .big hname (by decide) _
      known := by decide
      raw := by rw [length_coffFile hname]; decide
      text := by decide
      bss := by decide
      fits := by decide }
  have hok := (coff2noff_eq_ok_iff h noffH).2 ⟨_, rfl, rfl⟩
  refine ⟨_, _, hok,
    ((coff2noff_exact_iff .big noffH file sections h).2 (.inr (.inr ⟨?_, .inr ?_⟩))).2 _ _ hok⟩
  · decide
  · exact ⟨[sections[1], sections[3], sections[2]], by decide, rfl, by decide⟩

/-- Two sections that are contiguous are refused, and two sections with other addresses between them
are taken for one. -/
theorem coff2noff_test_reversed :
    let noffH : NoffHeader := ⟨0, ⟨0, 0, 0⟩, ⟨0, 0, 0⟩, ⟨0, 0, 0⟩⟩
    let sections (sPaddr : Word) : List Scnhdr :=
      [⟨sbssName ++ [0, 0, 0], 0x100, 16, 0⟩, ⟨bssName ++ [0, 0, 0, 0], sPaddr, 32, 0⟩]
    let file (sPaddr : Word) := coffFile (sections sPaddr) []
    (WellFormed .little (file 0x110) (sections 0x110) ∧
      Contiguous (ofKind .bss (sections 0x110)) ∧ (ofKind .data (sections 0x110)).length ≤ 1 ∧
      coff2noff .little noffH (file 0x110) = .error .bssAndSbss) ∧
    WellFormed .little (file 0x200) (sections 0x200) ∧
      ∃ noffH' bytes, coff2noff .little noffH (file 0x200) = .ok (noffH', bytes) ∧
        ¬Describes (file 0x200) (sections 0x200) noffH' bytes := by
  intro noffH sections file
  have hname (sPaddr : Word) : ∀ s ∈ sections sPaddr, s.sName.length = 8 :=
    List.forall_mem_cons.2 ⟨rfl, List.forall_mem_singleton.2 rfl⟩
  have hkind (sPaddr : Word) : ∀ s ∈ sections sPaddr, s.kind = .bss :=
    List.forall_mem_cons.2 ⟨rfl, List.forall_mem_singleton.2 rfl⟩
  have h (sPaddr : Word) : WellFormed .little (file sPaddr) (sections sPaddr) :=
    { headers := readHeaders_coffFile .little (hname sPaddr) (by decide : 2 < 2 ^ 16) []
      known := fun s hs => by rw [hkind sPaddr s hs]; decide
      raw := fun s hs h => absurd h (by rw [hkind sPaddr s hs]; decide)
      text := Nat.zero_le 1
      bss := (by decide : 16 + (32 + 0) < 2 ^ 32)
      fits := (by decide : 40 + (0 + 0) < 2 ^ 31) }
  refine ⟨⟨h _, by decide, by decide, ?_⟩, h _, _, _,
    (coff2noff_eq_ok_iff (h _) noffH).2 ⟨_, rfl, rfl⟩, fun hdescribes => ?_⟩
  · simp only [coff2noff, (h _).headers, ok_bind]
    rfl
  · have hgap := (hdescribes.uninitData 0x110).1 (by decide)
    exact absurd hgap (by decide)

/-- The kernel reads the header that the program has written, on a host of the little order. -/
theorem readHeader_coff2noff (h : WellFormed .little file sections) {noffH' : NoffHeader}
    {bytes : List (BitVec 8)} (hok : coff2noff .little noffH file = .ok (noffH', bytes))
    (stack : ℕ → BitVec 8) : readHeader bytes stack = .ok noffH' := by
  obtain ⟨c, hloop, hr⟩ := (coff2noff_eq_ok_iff h noffH).1 hok
  obtain ⟨rfl, rfl⟩ := Prod.mk.inj hr
  exact readHeader_bytes (converted_of_foldlM h noffH hloop).magic c.written stack

end Nachos.Bin
