import Nachos.Bin.Coff2Noff
import Nachos.UserProg.SegmentContents

/-!
# From a COFF file to main memory

A program is compiled to a COFF file, converted by `coff2noff`, and loaded by the constructor of
`AddrSpace`. What the program then finds at its virtual addresses is determined by the sections of
the COFF file alone: the contents of the `.text` and of the `.data` or `.rdata` section at their
addresses, and zeros everywhere else.

`LoadSegment` does not load all of a segment that does not begin at the start of a page and is
longer than a page by a part of one; sections of that kind are excluded (`Loadable`).

## Main definitions

* `image`: what a program should find at an address.
* `Loadable`: a section that `LoadSegment` loads completely.

## Main results

* `Located`: the segments of the NOFF header are at the addresses of the sections.
* `new_image`: the constructor loads what `coff2noff` has converted.
-/

namespace Nachos.Bin

open Foundations UserProg

/-! ### What the program should find -/

/-- The byte of the first of some sections that contains an address. -/
def lookup (file : List (BitVec 8)) (sections : List Scnhdr) (x : ℕ) : Option (BitVec 8) :=
  (sections.find? fun s => s.sPaddr.toNat ≤ x ∧ x < s.sPaddr.toNat + s.sSize.toNat).bind fun s =>
    (s.raw file)[x - s.sPaddr.toNat]?

/-- The byte at an address. -/
def image (file : List (BitVec 8)) (sections : List Scnhdr) (x : ℕ) : BitVec 8 :=
  ((lookup file (ofKind .data sections) x).or (lookup file (ofKind .text sections) x)).getD 0

/-- The section lies inside an address space, and it begins at the start of a page, or it is
shorter than a page, or it consists of full pages. -/
def Loadable (numPages : ℕ) (s : Scnhdr) : Prop :=
  s.sPaddr.toNat + s.sSize.toNat ≤ pageSize * numPages ∧
    (s.sPaddr.toNat % pageSize = 0 ∨ s.sSize.toNat < pageSize ∨ s.sSize.toNat % pageSize = 0)

instance (numPages : ℕ) (s : Scnhdr) : Decidable (Loadable numPages s) :=
  inferInstanceAs (Decidable (_ ∧ _))

variable {file : List (BitVec 8)} {sections secs : List Scnhdr} {s : Scnhdr} {c c' : Conversion}
  {noffH noffH' : NoffHeader} {bytes : List (BitVec 8)} {seg : Segment}

/-! ### Where the segments are -/

/-- The segments are at the addresses of the sections. -/
structure Located (secs : List Scnhdr) (c : Conversion) : Prop where
  code : ∀ s ∈ ofKind .text secs, c.noffH.code.virtualAddr = s.sPaddr
  initData : ∀ s ∈ ofKind .data secs, c.noffH.initData.virtualAddr = s.sPaddr

theorem Located.start (noffH : NoffHeader) : Located [] (.start noffH) :=
  ⟨by simp, by simp⟩

/-- Copying a section does not change the header. -/
theorem noffH_of_copySection (h : copySection file c s = .ok c') : c'.noffH = c.noffH := by
  obtain ⟨buffer, -, h⟩ := bind_eq_ok.1 h
  obtain ⟨written, -, h⟩ := bind_eq_ok.1 h
  obtain rfl := Except.ok.inj h
  rfl

/-- A section that is not of a kind does not change what the sections of this kind are. -/
theorem forall_ofKind_append {k : SectionKind} {p : Scnhdr → Prop} (h : s.kind ≠ k) :
    (∀ t ∈ ofKind k (secs ++ [s]), p t) ↔ ∀ t ∈ ofKind k secs, p t := by
  rw [ofKind_append_of_ne h]

theorem Located.addSection (hc : Located secs c)
    (htext : (ofKind .text (secs ++ [s])).length ≤ 1)
    (hdata : (ofKind .data (secs ++ [s])).length ≤ 1)
    (hadd : addSection file c s = .ok c') : Located (secs ++ [s]) c' := by
  have hone (k : SectionKind) (hs : s.kind = k) (hk : (ofKind k (secs ++ [s])).length ≤ 1) :
      ofKind k (secs ++ [s]) = [s] := by
    rw [ofKind_append_self hs, List.length_append, List.length_singleton] at hk
    have hnil : ofKind k secs = [] := List.eq_nil_of_length_eq_zero (by omega)
    rw [ofKind_append_self hs, hnil, List.nil_append]
  rw [addSection_eq] at hadd
  cases hs : s.kind with
  | empty =>
    rw [hs] at hadd
    obtain rfl := Except.ok.inj hadd
    exact ⟨(forall_ofKind_append (by simp [hs])).2 hc.code,
      (forall_ofKind_append (by simp [hs])).2 hc.initData⟩
  | text =>
    rw [hs] at hadd
    have hheader := noffH_of_copySection hadd
    refine ⟨?_, (forall_ofKind_append (by simp [hs])).2 ?_⟩
    · rw [hone .text hs htext, List.forall_mem_singleton, hheader]
    · rw [hheader]
      exact hc.initData
  | data =>
    rw [hs] at hadd
    dsimp only at hadd
    split_ifs at hadd
    have hheader := noffH_of_copySection hadd
    refine ⟨(forall_ofKind_append (by simp [hs])).2 ?_, ?_⟩
    · rw [hheader]
      exact hc.code
    · rw [hone .data hs hdata, List.forall_mem_singleton, hheader]
  | bss =>
    rw [hs] at hadd
    dsimp only at hadd
    have hheader : c'.noffH.code = c.noffH.code ∧ c'.noffH.initData = c.noffH.initData := by
      split_ifs at hadd <;> (obtain rfl := Except.ok.inj hadd) <;> exact ⟨rfl, rfl⟩
    refine ⟨(forall_ofKind_append (by simp [hs])).2 ?_, (forall_ofKind_append (by simp [hs])).2 ?_⟩
    · rw [hheader.1]
      exact hc.code
    · rw [hheader.2]
      exact hc.initData
  | unknown =>
    rw [hs] at hadd
    cases hadd

/-- Where the segments are at the end of the loop. -/
theorem located_of_foldlM (htext : (ofKind .text sections).length ≤ 1)
    (hdata : (ofKind .data sections).length ≤ 1)
    (hloop : sections.foldlM (addSection file) (.start noffH) = .ok c) : Located sections c := by
  refine foldlM_prefix_invariant Located hloop (.start noffH) ?_
  intro secs s rest c c' heq hc hadd
  have hbefore : secs ++ [s] <+: sections := ⟨rest, (List.append_cons ..).symm.trans heq.symm⟩
  exact hc.addSection ((ofKind_mono hbefore .text).length_le.trans htext)
    ((ofKind_mono hbefore .data).length_le.trans hdata) hadd

/-! ### What is loaded -/

section Load

variable {header written : List (BitVec 8)} {numPages start a x : ℕ} {mem : MainMemory}

/-- All of a loadable section is loaded. -/
theorem loadedSize_eq (hloc : seg.virtualAddr = s.sPaddr) (hsize : seg.size = s.sSize)
    (hload : Loadable numPages s) (hpages : pageSize * numPages < 2 ^ 31) :
    seg.loadedSize = s.sSize.toNat := by
  obtain ⟨hin, hshape⟩ := hload
  have hv : seg.virtualAddr.toInt = s.sPaddr.toNat := by
    rw [hloc, BitVec.toInt_eq_toNat_of_lt (by omega)]
  refine le_antisymm (hsize ▸ seg.loadedSize_le) (le_of_forall_lt fun k hk => ?_)
  rw [Segment.lt_loadedSize_iff, hsize, hv]
  refine ⟨hk, ?_⟩
  rcases hshape with h | h | h
  · exact .inl (by simp only [pageSize] at h ⊢; omega)
  · exact .inr (.inl h)
  · exact .inr (.inr (.inl h))

/-- A segment that has been copied from a section is loaded to the addresses of the section. -/
theorem contents_singleton (hc : Copied file [s] seg written) (hloc : seg.virtualAddr = s.sPaddr)
    (hheader : header.length = 40) (hraw : s.sScnptr.toNat + s.sSize.toNat ≤ file.length)
    (hlen : 40 + written.length < 2 ^ 31) (hload : Loadable numPages s)
    (hpages : pageSize * numPages < 2 ^ 31) (ha : a = pageSize * start + x) :
    seg.contents (header ++ written) start mem a = (lookup file [s] x).getD (mem a) := by
  obtain ⟨hsize, pre, post, rfl, haddr⟩ := hc.of_mem s List.mem_cons_self
  have hloaded := loadedSize_eq hloc hsize hload hpages
  have hrawlen := length_raw hraw
  have hbase : seg.base start = pageSize * start + s.sPaddr.toNat := by rw [Segment.base, hloc]
  have hpos : 0 < seg.size.toInt ↔ 0 < s.sSize.toNat := by
    rw [List.length_append, List.length_append, hrawlen] at hlen
    rw [hsize, BitVec.toInt_eq_toNat_of_lt (by omega)]
    omega
  have hlength : (header ++ (pre ++ s.raw file ++ post)).length =
      40 + pre.length + s.sSize.toNat + post.length := by
    simp [hheader, hrawlen]
    omega
  have hiff : (0 < seg.size.toInt ∧ seg.base start ≤ a ∧ a < seg.base start + seg.loadedSize ∧
      seg.inFileAddr.toNat + (a - seg.base start) <
        (header ++ (pre ++ s.raw file ++ post)).length) ↔
      s.sPaddr.toNat ≤ x ∧ x < s.sPaddr.toNat + s.sSize.toNat := by
    rw [hpos, hbase, hloaded, haddr, hlength, ha]
    omega
  by_cases hx : s.sPaddr.toNat ≤ x ∧ x < s.sPaddr.toNat + s.sSize.toNat
  · have hoffset : x - s.sPaddr.toNat < (s.raw file).length := by omega
    have hindex : seg.inFileAddr.toNat + (a - seg.base start) =
        header.length + (pre.length + (x - s.sPaddr.toNat)) := by omega
    have hbyte : (header ++ (pre ++ s.raw file ++ post)).getD
        (seg.inFileAddr.toNat + (a - seg.base start)) 0 = (s.raw file)[x - s.sPaddr.toNat] := by
      rw [hindex, List.getD_append_right _ _ _ _ (by omega), Nat.add_sub_cancel_left,
        List.append_assoc, List.getD_append_right _ _ _ _ (by omega), Nat.add_sub_cancel_left,
        List.getD_append _ _ _ _ hoffset, List.getD_eq_getElem _ _ hoffset]
    rw [Segment.contents, if_pos (hiff.2 hx), hbyte, lookup,
      List.find?_cons_of_pos (by simpa using hx), Option.bind_some,
      List.getElem?_eq_getElem hoffset, Option.getD_some]
  · rw [Segment.contents, if_neg (mt hiff.1 hx), lookup,
      List.find?_cons_of_neg (by simpa using hx), List.find?_nil, Option.bind_none,
      Option.getD_none]

/-- The segment of at most one section. -/
theorem contents_of_copied (hc : Copied file secs seg written)
    (hloc : ∀ s ∈ secs, seg.virtualAddr = s.sPaddr) (hle : secs.length ≤ 1)
    (hheader : header.length = 40)
    (hraw : ∀ s ∈ secs, s.sScnptr.toNat + s.sSize.toNat ≤ file.length)
    (hlen : 40 + written.length < 2 ^ 31) (hload : ∀ s ∈ secs, Loadable numPages s)
    (hpages : pageSize * numPages < 2 ^ 31) (ha : a = pageSize * start + x) :
    seg.contents (header ++ written) start mem a = (lookup file secs x).getD (mem a) := by
  rcases secs with _ | ⟨s, _ | ⟨t, rest⟩⟩
  · exact if_neg fun h => by simp [hc.size_of_nil rfl] at h
  · rw [List.forall_mem_singleton] at hloc hraw hload
    exact contents_singleton hc hloc hheader hraw hlen hload hpages ha
  · simp at hle

/-- The segment of at most one section, if it is not empty, lies inside the address space and can
be read. -/
theorem inside_of_copied (hc : Copied file secs seg written)
    (hloc : ∀ s ∈ secs, seg.virtualAddr = s.sPaddr) (hle : secs.length ≤ 1)
    (hraw : ∀ s ∈ secs, s.sScnptr.toNat + s.sSize.toNat ≤ file.length)
    (hlen : 40 + written.length < 2 ^ 31) (hload : ∀ s ∈ secs, Loadable numPages s)
    (hpages : pageSize * numPages < 2 ^ 31) (hz : 0 < seg.size.toInt) :
    seg.Inside numPages ∧ seg.Readable := by
  rcases secs with _ | ⟨s, _ | ⟨t, rest⟩⟩
  · simp [hc.size_of_nil rfl] at hz
  · rw [List.forall_mem_singleton] at hloc hraw hload
    obtain ⟨hsize, pre, post, rfl, haddr⟩ := hc.of_mem s List.mem_cons_self
    obtain ⟨hin, -⟩ := hload
    rw [List.length_append, List.length_append, length_raw hraw] at hlen
    have hv : seg.virtualAddr.toInt = s.sPaddr.toNat := by
      rw [hloc, BitVec.toInt_eq_toNat_of_lt (by omega)]
    have hs : seg.size.toInt = s.sSize.toNat := by
      rw [hsize, BitVec.toInt_eq_toNat_of_lt (by omega)]
    have hf : seg.inFileAddr.toInt = 40 + pre.length := by
      rw [BitVec.toInt_eq_toNat_of_lt (by omega), haddr]
      rfl
    have hadvances : pageSize * (seg.advances - 1) ≤ s.sSize.toNat := by
      rw [Segment.advances, hsize]
      simp only [pageSize]
      split_ifs <;> omega
    refine ⟨⟨by omega, ?_⟩, by omega, ?_⟩
    · rw [hv, hs]
      exact_mod_cast hin
    · rw [hf]
      simp only [pageSize] at *
      omega
  · simp at hle

end Load

/-! ### The constructor -/

/-- The sections that are loaded are loadable. -/
def AllLoadable (numPages : ℕ) (sections : List Scnhdr) : Prop :=
  ∀ s ∈ sections, s.kind = .text ∨ s.kind = .data → Loadable numPages s

instance (numPages : ℕ) (sections : List Scnhdr) : Decidable (AllLoadable numPages sections) :=
  inferInstanceAs (Decidable (∀ s ∈ sections, _ → _))

section Sections

variable {order : ByteOrder} {numPages start x : ℕ} {k : SectionKind} {mem : MainMemory}

theorem WellFormed.raw_ofKind (h : WellFormed order file sections) (hk : k = .text ∨ k = .data) :
    ∀ s ∈ ofKind k sections, s.sScnptr.toNat + s.sSize.toNat ≤ file.length := by
  intro s hs
  obtain ⟨hmem, rfl⟩ := mem_ofKind.1 hs
  exact h.raw s hmem hk

theorem AllLoadable.ofKind (h : AllLoadable numPages sections) (hk : k = .text ∨ k = .data) :
    ∀ s ∈ ofKind k sections, Loadable numPages s := by
  intro s hs
  obtain ⟨hmem, rfl⟩ := mem_ofKind.1 hs
  exact h s hmem hk

theorem Converted.length_written_lt (hc : Converted file sections c)
    (h : WellFormed order file sections) : 40 + c.written.length < 2 ^ 31 :=
  hc.length ▸ h.fits

/-- Main memory after both segments have been loaded. -/
theorem Converted.contents_eq_image (hc : Converted file sections c) (hloc : Located sections c)
    (h : WellFormed order file sections) (hload : AllLoadable c.noffH.numPages sections)
    (hpages : pageSize * c.noffH.numPages < 2 ^ 31) (hx : x < pageSize * c.noffH.numPages) :
    c.noffH.contents (headerBytes order c.noffH ++ c.written) start mem (pageSize * start + x) =
      image file sections x := by
  have hlen := hc.length_written_lt h
  have hheader := length_headerBytes order c.noffH
  have hzero : clearPages (newPageTable start c.noffH.numPages) mem (pageSize * start + x) = 0 :=
    NoffHeader.clear_of_inside mem (x := x) (by push_cast; rfl) (by omega) (by exact_mod_cast hx)
  rw [NoffHeader.contents,
    contents_of_copied hc.initData hloc.initData hc.initData_le hheader
      (h.raw_ofKind (.inr rfl)) hlen (hload.ofKind (.inr rfl)) hpages rfl,
    contents_of_copied hc.code hloc.code h.text hheader (h.raw_ofKind (.inl rfl)) hlen
      (hload.ofKind (.inl rfl)) hpages rfl, hzero, image]
  cases lookup file (Bin.ofKind .data sections) x <;>
    cases lookup file (Bin.ofKind .text sections) x <;> rfl

end Sections

/-- **What the constructor of `AddrSpace` loads of a file that `coff2noff` has converted** is the
program of the COFF file, whatever main memory contained, and wherever the address space is
placed. -/
theorem new_image (h : WellFormed .little file sections)
    (hok : coff2noff .little noffH file = .ok (noffH', bytes))
    (hload : AllLoadable noffH'.numPages sections) (memAll : MemAll) (junk : Junk)
    (map : BitMap numPhysPages) (mem : MainMemory) :
    ∃ space map' mem', AddrSpace.new memAll bytes junk map mem = .ok (space, map', mem') ∧
      ∀ pageTable ∈ space.pageTable, space.numPages = noffH'.numPages ∧
        ∀ x < pageSize * space.numPages, ∃ a,
          Reaches space.numPages pageTable x a ∧ mem' a = image file sections x := by
  have hheader := readHeader_coff2noff h hok junk.stack
  obtain ⟨c, hloop, hr⟩ := (coff2noff_eq_ok_iff h noffH).1 hok
  obtain ⟨rfl, rfl⟩ := Prod.mk.inj hr
  have hc := converted_of_foldlM h noffH hloop
  have hloc := located_of_foldlM h.text hc.initData_le hloop
  have hlen := hc.length_written_lt h
  obtain ⟨found, hfound, hframes⟩ := memoryAllocation_frames memAll map c.noffH.numPages
  by_cases hf : found.spaceFound = true
  · have hfr : ∀ f ∈ Set.Ico found.startHere (found.startHere + c.noffH.numPages),
        f < numPhysPages := fun f hf' => (hframes hf f hf').1
    obtain ⟨map', hmap, -⟩ := markFrames_spec hfr map
    have hle (hpos : 0 < c.noffH.numPages) :
        found.startHere + c.noffH.numPages ≤ numPhysPages := by
      have hlast := hfr (found.startHere + c.noffH.numPages - 1)
        (Set.mem_Ico.2 ⟨by omega, by omega⟩)
      omega
    have hpages : pageSize * c.noffH.numPages < 2 ^ 31 := by
      simp only [pageSize, numPhysPages] at *
      omega
    obtain ⟨table₁, hm₁, hcode⟩ := loadNonempty_contents
      (headerBytes .little c.noffH ++ c.written)
      (inside_of_copied hc.code hloc.code h.text (h.raw_ofKind (.inl rfl)) hlen
        (hload.ofKind (.inl rfl)) hpages) hfr
      (mapsTo_newPageTable found.startHere c.noffH.numPages)
    obtain ⟨table₂, hm₂, hdata⟩ := loadNonempty_contents
      (headerBytes .little c.noffH ++ c.written)
      (inside_of_copied hc.initData hloc.initData hc.initData_le (h.raw_ofKind (.inr rfl)) hlen
        (hload.ofKind (.inr rfl)) hpages) hfr hm₁
    refine ⟨⟨some table₂, c.noffH.numPages, found.startHere, true⟩, map',
      c.noffH.contents (headerBytes .little c.noffH ++ c.written) found.startHere mem, ?_, ?_⟩
    · simp only [AddrSpace.new, hheader, hfound, ok_bind, hf, if_true, hmap, hcode, hdata]
      rfl
    · rintro _ ⟨⟩
      refine ⟨rfl, fun x hx => ⟨pageSize * found.startHere + x, ?_,
        hc.contents_eq_image hloc h hload hpages hx⟩⟩
      have hx' : (x : ℤ) < pageSize * c.noffH.numPages := by exact_mod_cast hx
      exact (reaches_iff hm₂ (hle (Nat.pos_of_ne_zero fun h₀ => by simp [h₀] at hx))).2
        ⟨Int.natCast_nonneg x, hx', by push_cast; rfl⟩
  · refine ⟨⟨none, c.noffH.numPages, found.startHere, false⟩, map, mem, ?_, by simp⟩
    simp only [AddrSpace.new, hheader, hfound, ok_bind, hf]
    rfl

set_option maxRecDepth 2000 in
/-- A program with four bytes of code, and two bytes of data at `0x100`. -/
theorem new_image_of_two_sections :
    let sections : List Scnhdr :=
      [⟨textName ++ [0, 0, 0], 0, 4, 156⟩, ⟨dataName ++ [0, 0, 0], 0x100, 2, 160⟩]
    let file := coffFile sections [1, 2, 3, 4, 5, 6]
    let noffH : NoffHeader := ⟨0, ⟨0, 0, 0⟩, ⟨0, 0, 0⟩, ⟨0, 0, 0⟩⟩
    ∃ noffH' bytes, coff2noff .little noffH file = .ok (noffH', bytes) ∧
      ∃ space map' mem', AddrSpace.new .firstFit bytes ⟨fun _ => 1, 1, 1⟩ ⟨Vector.replicate _ 0⟩
        (fun _ => 1) = .ok (space, map', mem') ∧
        ∃ pageTable ∈ space.pageTable, ∃ a,
          Reaches space.numPages pageTable (0x101 : ℕ) a ∧ mem' a = 6 := by
  intro sections file noffH
  have hname : ∀ s ∈ sections, s.sName.length = 8 := by decide
  have h : WellFormed .little file sections :=
    { headers := readHeaders_coffFile .little hname (by decide) _
      known := by decide
      raw := by rw [length_coffFile hname]; decide
      text := by decide
      bss := by decide
      fits := by decide }
  let noffH' : NoffHeader := ⟨noffMagic, ⟨0, 40, 4⟩, ⟨0x100, 44, 2⟩, ⟨0, 0, 0⟩⟩
  have hok : coff2noff .little noffH file =
      .ok (noffH', headerBytes .little noffH' ++ [1, 2, 3, 4, 5, 6]) :=
    (coff2noff_eq_ok_iff h noffH).2 ⟨⟨noffH', 46, [1, 2, 3, 4, 5, 6]⟩, rfl, rfl⟩
  refine ⟨_, _, hok, ?_⟩
  obtain ⟨space, map', mem', hnew, himage⟩ := new_image h hok (by decide) .firstFit
    ⟨fun _ => 1, 1, 1⟩ ⟨Vector.replicate _ 0⟩ fun _ => 1
  have htable : (AddrSpace.new .firstFit (headerBytes .little noffH' ++ [1, 2, 3, 4, 5, 6])
      ⟨fun _ => 1, 1, 1⟩ ⟨Vector.replicate _ 0⟩ fun _ => 1).toOption.all
        (fun r => r.1.pageTable.isSome) = true := by decide +kernel
  rw [hnew] at htable
  obtain ⟨pageTable, hp⟩ := Option.isSome_iff_exists.1 htable
  refine ⟨space, map', mem', hnew, pageTable, hp, ?_⟩
  obtain ⟨hpages, hbytes⟩ := himage pageTable hp
  obtain ⟨a, ha, hbyte⟩ := hbytes 0x101 (by rw [hpages]; decide)
  exact ⟨a, ha, hbyte.trans (by decide)⟩

end Nachos.Bin
