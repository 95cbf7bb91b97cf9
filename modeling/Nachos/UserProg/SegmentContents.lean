import Nachos.UserProg.LoadIsolation

/-!
# What a segment leaves in memory

All reads of a segment are at the same distance from each other in memory and in the file, so
that every byte that is read goes to its place. But of a segment that does not begin at the start
of a page, the bytes that exceed its full pages are read to its beginning, and not to its end.

## Main definitions

* `Segment.loadedSize`: the number of bytes of a segment that are loaded.
* `Reaches`: the byte that the translation of a virtual address reaches.

## Main results

* `loadSegment_contents`: memory after a segment has been loaded.
* `loadSegment_exact_iff`: which segments are loaded exactly.
* `new_leaves_no_trace`: a new address space does not depend on what was in memory.
-/

namespace Nachos.UserProg

open Foundations

variable {executable : OpenFile} {start numPages : ℕ} {t : Target} {r : Read} {reads : List Read}
  {d : ℤ} {mem mem' : MainMemory} {seg : Segment} {pageTable : List TranslationEntry}

/-! ### Reads that copy -/

/-- The read stays in the address space, and its position is `d` ahead of its address. -/
structure Read.Copies (numPages : ℕ) (d : ℤ) (r : Read) : Prop where
  addr_nonneg : 0 ≤ r.addr
  addr_lt : r.addr < pageSize * numPages
  end_le : r.addr + r.len ≤ pageSize * numPages
  position_eq : r.position = r.addr + d
  position_nonneg : 0 ≤ r.position

/-- The bytes to which reads of an address space that begins at the frame `start` go. -/
def Covers (start : ℕ) (reads : List Read) (a : ℕ) : Prop :=
  ∃ r ∈ reads, pageSize * start + r.addr ≤ a ∧ a < pageSize * start + r.addr + r.len

theorem covers_cons {a : ℕ} :
    Covers start (r :: reads) a ↔ Covers start [r] a ∨ Covers start reads a := by
  simp [Covers]

open Classical in
/-- Memory after bytes of the file have been copied to the covered addresses. -/
noncomputable def copied (executable : OpenFile) (start : ℕ) (d : ℤ) (reads : List Read)
    (mem : MainMemory) : MainMemory := fun a =>
  if Covers start reads a ∧ (a : ℤ) - pageSize * start + d < executable.length then
    executable.getD ((a : ℤ) - pageSize * start + d).toNat 0
  else mem a

theorem Read.perform_of_copies (executable : OpenFile) (h : r.Copies numPages d)
    (hm : MapsTo start numPages t.pageTable) (hle : start + numPages ≤ numPhysPages) :
    ∃ t', Read.perform executable numPages t r = .ok t' ∧ MapsTo start numPages t'.pageTable ∧
      t'.mainMemory = copied executable start d [r] t.mainMemory := by
  obtain ⟨h₀, hlt, hend, hposition, hpos⟩ := h
  obtain ⟨pageTable', hm', htr⟩ := translate_of_inside hm hle h₀ hlt t.physAddr r.len
  have hfit : (pageSize : ℤ) * start + r.addr + r.len ≤ memorySize := by
    simp only [pageSize, memorySize, numPhysPages] at *
    omega
  rw [if_pos hfit] at htr
  set bytes := (executable.drop r.position.toNat).take r.len with hbytes
  have hread : executable.readAt r.len r.position = .ok bytes := if_neg (by omega)
  have hlen : bytes.length = min r.len (executable.length - r.position.toNat) := by
    simp [hbytes]
  have hphys : (0 : ℤ) ≤ pageSize * start + r.addr := by
    simp only [pageSize]
    omega
  refine ⟨⟨pageSize * start + r.addr, pageTable',
    t.mainMemory.store (pageSize * start + r.addr).toNat bytes⟩, ?_, hm', ?_⟩
  · simp only [Read.perform, htr, hread, ok_bind]
    exact if_pos (.inr ⟨hphys, by omega⟩)
  · funext a
    obtain ⟨p, hp⟩ := Int.eq_ofNat_of_zero_le hphys
    simp only [hp, Int.toNat_natCast, MainMemory.store, copied, Covers, List.mem_singleton,
      exists_eq_left]
    have hiff : (p ≤ a ∧ a < p + bytes.length) ↔ (((p : ℕ) : ℤ) ≤ a ∧ (a : ℤ) < (p : ℕ) + r.len) ∧
        (a : ℤ) - pageSize * start + d < executable.length := by
      rw [hlen]
      simp only [pageSize] at *
      omega
    by_cases hin : p ≤ a ∧ a < p + bytes.length
    · rw [if_pos hin, if_pos (hiff.1 hin)]
      have hindex : ((a : ℤ) - pageSize * start + d).toNat = r.position.toNat + (a - p) := by
        simp only [pageSize] at *
        omega
      rw [hindex, hbytes, List.getD_eq_getElem?_getD, List.getD_eq_getElem?_getD,
        List.getElem?_take_of_lt (by omega), List.getElem?_drop]
    · rw [if_neg hin, if_neg fun h => hin (hiff.2 h)]

/-- Reads that copy, one after the other. -/
theorem foldlM_of_copies (executable : OpenFile) (h : ∀ r ∈ reads, r.Copies numPages d)
    (hm : MapsTo start numPages t.pageTable) (hle : start + numPages ≤ numPhysPages) :
    ∃ t', reads.foldlM (Read.perform executable numPages) t = .ok t' ∧
      MapsTo start numPages t'.pageTable ∧
      t'.mainMemory = copied executable start d reads t.mainMemory := by
  induction reads generalizing t with
  | nil => exact ⟨t, rfl, hm, by funext a; simp [copied, Covers]⟩
  | cons r rs ih =>
    rw [List.forall_mem_cons] at h
    obtain ⟨t₁, ht₁, hm₁, hmem₁⟩ := Read.perform_of_copies executable h.1 hm hle
    obtain ⟨t', ht', hm', hmem'⟩ := ih h.2 hm₁
    refine ⟨t', by rw [foldlM_cons_except, ht₁]; exact ht', hm', ?_⟩
    rw [hmem', hmem₁]
    funext a
    have hcons : Covers start (r :: rs) a ↔ Covers start [r] a ∨ Covers start rs a := covers_cons
    by_cases hrs : Covers start rs a <;> by_cases hr : Covers start [r] a <;>
      by_cases hend : (a : ℤ) - pageSize * start + d < executable.length <;>
      simp only [copied, hcons, hrs, hr, hend, or_true, true_or, or_self, true_and, false_and,
        if_true, if_false]

namespace Segment

/-! ### Segments inside the address space -/

/-- The segment lies inside an address space of `numPages` pages. -/
def Inside (seg : Segment) (numPages : ℕ) : Prop :=
  0 ≤ seg.virtualAddr.toInt ∧ seg.virtualAddr.toInt + seg.size.toInt ≤ pageSize * numPages

/-- The number of bytes that are loaded, from the beginning of the segment on. -/
def loadedSize (seg : Segment) : ℕ :=
  if seg.virtualAddr.toInt % pageSize = 0 then seg.size.toNat
  else max (seg.size.toNat % pageSize) (pageSize * (seg.size.toNat / pageSize))

theorem loadedSize_le (seg : Segment) : seg.loadedSize ≤ seg.size.toNat := by
  unfold loadedSize
  split_ifs
  · exact le_rfl
  · simp only [pageSize]
    omega

/-- The bytes that are loaded: of a segment that does not begin at the start of a page and is longer
than a page, those of the full pages. -/
theorem lt_loadedSize_iff (seg : Segment) (k : ℕ) : k < seg.loadedSize ↔ k < seg.size.toNat ∧
    (seg.virtualAddr.toInt % pageSize = 0 ∨ seg.size.toNat < pageSize ∨
      seg.size.toNat % pageSize = 0 ∨ k < pageSize * (seg.size.toNat / pageSize)) := by
  unfold loadedSize
  split_ifs with hv
  · simp only [hv, true_or, and_true]
  · simp only [hv, false_or, pageSize]
    omega

/-- How far the positions in the file are ahead of the addresses. -/
def ahead (seg : Segment) : ℤ := seg.inFileAddr.toInt - seg.virtualAddr.toInt

theorem pageRead_eq (hz : 0 < seg.size.toInt) (hin : seg.Inside numPages)
    (hle : numPages ≤ numPhysPages) (hread : seg.Readable) {k : ℕ} (hk : k < seg.advances) :
    seg.pageRead k = ⟨seg.virtualAddr.toInt + pageSize * k, pageSize,
      seg.inFileAddr.toInt + pageSize * k⟩ := by
  have hsize := size_eq_toNat hz
  have hadv : pageSize * k ≤ seg.size.toNat := by
    unfold advances at hk
    split_ifs at hk
    · simp only [pageSize] at *
      omega
    · simp only [pageSize] at *
      omega
  obtain ⟨h₀, hend⟩ := hin
  obtain ⟨hf, hlt⟩ := hread
  unfold pageRead
  rw [int32_of_isInt32, int32_of_isInt32]
  · unfold IsInt32
    simp only [pageSize] at *
    omega
  · unfold IsInt32
    simp only [pageSize, numPhysPages] at *
    omega

/-- The reads of a segment in terms of its pages. -/
theorem mem_reads_iff (hz : 0 < seg.size.toInt) (hin : seg.Inside numPages)
    (hle : numPages ≤ numPhysPages) (hread : seg.Readable) :
    r ∈ seg.reads ↔ (∃ k < seg.size.toNat / pageSize, r =
        ⟨seg.virtualAddr.toInt + pageSize * k, pageSize, seg.inFileAddr.toInt + pageSize * k⟩) ∨
      seg.virtualAddr.toInt % pageSize = 0 ∧ seg.size.toNat % pageSize ≠ 0 ∧ r =
        ⟨seg.virtualAddr.toInt + pageSize * (seg.size.toNat / pageSize : ℕ),
          seg.size.toNat % pageSize,
          seg.inFileAddr.toInt + pageSize * (seg.size.toNat / pageSize : ℕ)⟩ ∨
      seg.virtualAddr.toInt % pageSize ≠ 0 ∧
        r = ⟨seg.virtualAddr.toInt, seg.size.toNat % pageSize, seg.inFileAddr.toInt⟩ := by
  have hpage : ∀ {k}, k < seg.advances → seg.pageRead k = _ := fun hk =>
    pageRead_eq hz hin hle hread hk
  have hsize := size_eq_toNat hz
  have hpages : (∃ k < seg.size.toNat / pageSize, r = seg.pageRead k) ↔
      ∃ k < seg.size.toNat / pageSize, r =
        ⟨seg.virtualAddr.toInt + pageSize * k, pageSize, seg.inFileAddr.toInt + pageSize * k⟩ := by
    refine exists_congr fun k => and_congr_right fun hk => ?_
    rw [hpage]
    unfold advances
    split_ifs
    · simp only [pageSize] at *
      omega
    · omega
  by_cases hv : seg.virtualAddr.toInt % pageSize = 0
  · rw [mem_reads_iff_of_aligned hv, hpages]
    refine or_congr_right ?_
    simp only [hv, true_and, ne_eq, not_true_eq_false, false_and, or_false]
    refine and_congr_right fun hrest => ?_
    rw [hpage]
    unfold advances
    rw [if_pos hv]
    simp only [pageSize] at *
    omega
  · rw [mem_reads_iff_of_not_aligned hv, hpages, or_comm]
    refine or_congr_right ?_
    simp only [hv, false_and, ne_eq, not_false_eq_true, true_and, false_or]
    rw [hpage (advances_pos hz)]
    simp

theorem copies_of_mem_reads (hz : 0 < seg.size.toInt) (hin : seg.Inside numPages)
    (hle : numPages ≤ numPhysPages) (hread : seg.Readable) :
    ∀ r ∈ seg.reads, r.Copies numPages seg.ahead := by
  have hsize := size_eq_toNat hz
  have hfile := hread.1
  have ⟨h₀, hend⟩ := hin
  intro r hr
  obtain ⟨k, hk, rfl⟩ | ⟨-, hrest, rfl⟩ | ⟨-, rfl⟩ := (mem_reads_iff hz hin hle hread).1 hr
  all_goals
    simp only [pageSize] at *
    constructor
    all_goals simp only [ahead, pageSize]; omega

theorem covers_reads_iff (hz : 0 < seg.size.toInt) (hin : seg.Inside numPages)
    (hle : numPages ≤ numPhysPages) (hread : seg.Readable) (start a : ℕ) :
    Covers start seg.reads a ↔ pageSize * start + seg.virtualAddr.toInt ≤ a ∧
      a < pageSize * start + seg.virtualAddr.toInt + seg.loadedSize := by
  have hsize := size_eq_toNat hz
  have h₀ := hin.1
  unfold Covers loadedSize
  constructor
  · rintro ⟨r, hr, hra⟩
    obtain ⟨k, hk, rfl⟩ | ⟨hv, hrest, rfl⟩ | ⟨hv, rfl⟩ := (mem_reads_iff hz hin hle hread).1 hr
    all_goals
      simp only [pageSize] at *
      split_ifs <;> omega
  · rintro ⟨hle', hlt⟩
    obtain ⟨x, hx⟩ := Int.eq_ofNat_of_zero_le (Int.sub_nonneg.2 hle')
    simp only [mem_reads_iff hz hin hle hread]
    by_cases hpage : x / pageSize < seg.size.toNat / pageSize
    · refine ⟨_, .inl ⟨_, hpage, rfl⟩, ?_⟩
      simp only [pageSize] at *
      omega
    · by_cases hv : seg.virtualAddr.toInt % pageSize = 0
      · rw [if_pos hv] at hlt
        refine ⟨_, .inr (.inl ⟨hv, ?_, rfl⟩), ?_⟩
        all_goals
          simp only [pageSize] at *
          omega
      · rw [if_neg hv] at hlt
        refine ⟨_, .inr (.inr ⟨hv, rfl⟩), ?_⟩
        simp only [pageSize] at *
        omega

end Segment

/-! ### One segment -/

theorem toNat_of_nonneg {w : BitVec 32} (h : 0 ≤ w.toInt) : (w.toNat : ℤ) = w.toInt :=
  (BitVec.toInt_eq_toNat_of_lt (BitVec.toInt_pos_iff.1 h)).symm

/-- The first byte of main memory that belongs to a segment. -/
def Segment.base (seg : Segment) (start : ℕ) : ℕ := pageSize * start + seg.virtualAddr.toNat

theorem copied_reads (hz : 0 < seg.size.toInt) (hin : seg.Inside numPages)
    (hle : numPages ≤ numPhysPages) (hread : seg.Readable) (start : ℕ) (mem : MainMemory) (a : ℕ) :
    copied executable start seg.ahead seg.reads mem a =
      if seg.base start ≤ a ∧ a < seg.base start + seg.loadedSize ∧
          seg.inFileAddr.toNat + (a - seg.base start) < executable.length then
        executable.getD (seg.inFileAddr.toNat + (a - seg.base start)) 0
      else mem a := by
  have hv := toNat_of_nonneg hin.1
  have hf := toNat_of_nonneg hread.1
  have hiff : Covers start seg.reads a ∧
      (a : ℤ) - pageSize * start + seg.ahead < executable.length ↔
      seg.base start ≤ a ∧ a < seg.base start + seg.loadedSize ∧
        seg.inFileAddr.toNat + (a - seg.base start) < executable.length := by
    rw [Segment.covers_reads_iff hz hin hle hread]
    simp only [Segment.base, Segment.ahead, pageSize]
    omega
  unfold copied
  by_cases h : seg.base start ≤ a ∧ a < seg.base start + seg.loadedSize ∧
      seg.inFileAddr.toNat + (a - seg.base start) < executable.length
  · rw [if_pos h, if_pos (hiff.2 h)]
    congr 1
    simp only [Segment.base, Segment.ahead, pageSize] at *
    omega
  · rw [if_neg h, if_neg fun h' => h (hiff.1 h')]

/-- Memory after a segment that lies inside the address space has been loaded. -/
theorem loadSegment_contents (executable : OpenFile) (hz : 0 < seg.size.toInt)
    (hin : seg.Inside numPages) (hread : seg.Readable) (hm : MapsTo start numPages pageTable)
    (hle : start + numPages ≤ numPhysPages) (junk : ℤ) (mem : MainMemory) :
    ∃ l, loadSegment executable numPages seg junk pageTable mem = .ok l ∧
      MapsTo start numPages l.pageTable ∧
      l.mainMemory = copied executable start seg.ahead seg.reads mem := by
  obtain ⟨t, ht, hm', hmem⟩ := foldlM_of_copies executable
    (t := ⟨junk, pageTable, mem⟩) (Segment.copies_of_mem_reads hz hin (by omega) hread) hm hle
  rw [← loadSegment_eq_foldlM hz, map_eq_ok] at ht
  obtain ⟨l, hl, rfl⟩ := ht
  exact ⟨l, hl, hm', hmem⟩

/-- The translation of the virtual address `virtAddr` reaches the byte `a` of main memory. -/
def Reaches (numPages : ℕ) (pageTable : List TranslationEntry) (virtAddr : ℤ) (a : ℕ) : Prop :=
  ∃ pageTable', translate virtAddr 0 1 pageTable numPages = .ok (.noException, a, pageTable')

theorem reaches_iff (hm : MapsTo start numPages pageTable) (hle : start + numPages ≤ numPhysPages)
    {virtAddr : ℤ} {a : ℕ} :
    Reaches numPages pageTable virtAddr a ↔ 0 ≤ virtAddr ∧ virtAddr < pageSize * numPages ∧
      (a : ℤ) = pageSize * start + virtAddr := by
  unfold Reaches
  by_cases hin : 0 ≤ virtAddr ∧ virtAddr < pageSize * numPages
  · obtain ⟨pageTable', -, htr⟩ := translate_of_inside hm hle hin.1 hin.2 0 1
    have hfit : (pageSize : ℤ) * start + virtAddr + 1 ≤ memorySize := by
      simp only [pageSize, memorySize, numPhysPages] at *
      omega
    rw [htr, if_pos hfit]
    simp only [Except.ok.injEq, Prod.mk.injEq, true_and, exists_and_left, exists_eq', and_true]
    omega
  · rw [translate_of_outside (by omega)]
    simp only [Except.ok.injEq, Prod.mk.injEq, reduceCtorEq, false_and, exists_false, false_iff]
    omega

/-- After `LoadSegment`, every byte of the segment is the one of the file, and every other byte of
main memory is what it was. -/
def LoadsExactly (executable : OpenFile) (numPages : ℕ) (seg : Segment) (junk : ℤ)
    (pageTable : List TranslationEntry) (mem : MainMemory) : Prop :=
  ∃ l, loadSegment executable numPages seg junk pageTable mem = .ok l ∧
    (∀ k < seg.size.toNat, ∃ a, Reaches numPages pageTable (seg.virtualAddr.toInt + k) a ∧
      executable[seg.inFileAddr.toNat + k]? = some (l.mainMemory a)) ∧
    ∀ a, (∀ k < seg.size.toNat, ¬Reaches numPages pageTable (seg.virtualAddr.toInt + k) a) →
      l.mainMemory a = mem a

/-- The bytes of a segment that lies inside the address space have their places. -/
theorem reaches_virtualAddr_iff (hm : MapsTo start numPages pageTable)
    (hle : start + numPages ≤ numPhysPages) (hz : 0 < seg.size.toInt) (hin : seg.Inside numPages)
    {k : ℕ} (hk : k < seg.size.toNat) (a : ℕ) :
    Reaches numPages pageTable (seg.virtualAddr.toInt + k) a ↔ a = seg.base start + k := by
  have hsize := Segment.size_eq_toNat hz
  have hv := toNat_of_nonneg hin.1
  have hend := hin.2
  rw [reaches_iff hm hle]
  simp only [Segment.base, pageSize] at *
  omega

theorem readable_of_loadSegment (hz : 0 < seg.size.toInt) {junk : ℤ} {l : Loading}
    (hl : loadSegment executable numPages seg junk pageTable mem = .ok l) : seg.Readable := by
  have ht : (loadSegment executable numPages seg junk pageTable mem).map Loading.target =
      seg.reads.foldlM (Read.perform executable numPages) ⟨junk, pageTable, mem⟩ :=
    loadSegment_eq_foldlM hz
  rw [hl, map_ok] at ht
  exact (Segment.readable_iff hz).1
    (foldlM_forall _ ht.symm fun _ _ _ hr => (Read.perform_eq_ok hr).1)

/-- Memory after a segment that is complete in the file has been loaded. -/
theorem mainMemory_of_loadSegment (hm : MapsTo start numPages pageTable)
    (hle : start + numPages ≤ numPhysPages) (hz : 0 < seg.size.toInt) (hin : seg.Inside numPages)
    (hlen : seg.inFileAddr.toNat + seg.size.toNat ≤ executable.length) {junk : ℤ} {l : Loading}
    (hl : loadSegment executable numPages seg junk pageTable mem = .ok l) (a : ℕ) :
    l.mainMemory a =
      if seg.base start ≤ a ∧ a < seg.base start + seg.loadedSize then
        executable.getD (seg.inFileAddr.toNat + (a - seg.base start)) 0
      else mem a := by
  have hread := readable_of_loadSegment hz hl
  have hloaded := seg.loadedSize_le
  obtain ⟨l', hl', -, hmem⟩ := loadSegment_contents executable hz hin hread hm hle junk mem
  cases hl.symm.trans hl'
  rw [hmem, copied_reads hz hin (by omega) hread]
  by_cases ha : seg.base start ≤ a ∧ a < seg.base start + seg.loadedSize
  · rw [if_pos ha, if_pos ⟨ha.1, ha.2, by omega⟩]
  · rw [if_neg ha, if_neg fun h => ha ⟨h.1, h.2.1⟩]

/-- A segment inside the address space is loaded exactly if and only if it can be read, and it
begins at the start of a page or is shorter than a page or consists of full pages or its end
happens to be in memory already. -/
theorem loadSegment_exact_iff (executable : OpenFile) (start numPages : ℕ) (seg : Segment)
    (junk : ℤ) (pageTable : List TranslationEntry) (mem : MainMemory)
    (hm : MapsTo start numPages pageTable) (hle : start + numPages ≤ numPhysPages)
    (hz : 0 < seg.size.toInt) (hin : seg.Inside numPages) (hfile : 0 ≤ seg.inFileAddr.toInt)
    (hlen : seg.inFileAddr.toNat + seg.size.toNat ≤ executable.length) :
    LoadsExactly executable numPages seg junk pageTable mem ↔ seg.Readable ∧
      (seg.virtualAddr.toInt % pageSize = 0 ∨ seg.size.toNat < pageSize ∨
        seg.size.toNat % pageSize = 0 ∨
        ∀ k < seg.size.toNat, pageSize * (seg.size.toNat / pageSize) ≤ k →
          executable[seg.inFileAddr.toNat + k]? =
            some (mem (seg.base start + k))) := by
  have hloaded := seg.loadedSize_le
  have hreach : ∀ k < seg.size.toNat, ∀ a,
      Reaches numPages pageTable (seg.virtualAddr.toInt + k) a ↔ a = seg.base start + k :=
    fun k hk a => reaches_virtualAddr_iff hm hle hz hin hk a
  constructor
  · rintro ⟨l, hl, hbytes, -⟩
    refine ⟨⟨hfile, (readable_of_loadSegment hz hl).2⟩, ?_⟩
    by_contra hnot
    simp only [not_or] at hnot
    obtain ⟨hvmod, hlong, hrest, hends⟩ := hnot
    refine hends fun k hk hpage => ?_
    obtain ⟨a, ha, hval⟩ := hbytes k hk
    obtain rfl := (hreach k hk a).1 ha
    -- the byte is behind the full pages
    have hk' : ¬k < seg.loadedSize := fun h =>
      ((seg.lt_loadedSize_iff k).1 h).2.elim hvmod
        (Or.rec hlong (Or.rec hrest (not_lt.2 hpage)))
    rw [hval, mainMemory_of_loadSegment hm hle hz hin hlen hl, if_neg (by omega)]
  · rintro ⟨hread, hcase⟩
    obtain ⟨l, hl, -, -⟩ := loadSegment_contents executable hz hin hread hm hle junk mem
    have hmem := mainMemory_of_loadSegment hm hle hz hin hlen hl
    refine ⟨l, hl, fun k hk => ⟨_, (hreach k hk _).2 rfl, ?_⟩, fun a ha => ?_⟩
    · rw [hmem]
      split_ifs with hin'
      · rw [Nat.add_sub_cancel_left, List.getD_eq_getElem?_getD,
          List.getElem?_eq_getElem (by omega)]
        rfl
      · -- the byte is not loaded
        have hnot : ¬(seg.virtualAddr.toInt % pageSize = 0 ∨ seg.size.toNat < pageSize ∨
            seg.size.toNat % pageSize = 0 ∨ k < pageSize * (seg.size.toNat / pageSize)) :=
          fun h => hin' ⟨by omega, by have := (seg.lt_loadedSize_iff k).2 ⟨hk, h⟩; omega⟩
        simp only [not_or, not_lt] at hnot
        obtain ⟨hv, hlong, hrest, hpage⟩ := hnot
        have hends := ((hcase.resolve_left hv).resolve_left (not_lt.2 hlong)).resolve_left hrest
        exact hends k hk hpage
    · rw [hmem]
      refine if_neg fun hin' => ?_
      have hk : a - seg.base start < seg.size.toNat := by omega
      exact ha _ hk ((hreach _ hk a).2 (by omega))

/-- A segment of one byte at the start of a page. -/
theorem loadSegment_exact_of_one : LoadsExactly [7] 1 ⟨0, 0, 1⟩ 0 (newPageTable 0 1) fun _ => 0 :=
  (loadSegment_exact_iff [7] 0 1 ⟨0, 0, 1⟩ 0 (newPageTable 0 1) (fun _ => 0)
    (mapsTo_newPageTable 0 1) (by decide) (by decide) (by unfold Segment.Inside; decide) (by decide)
    (by decide)).2 ⟨by decide, .inl (by decide)⟩

/-- The last byte of a segment of 257 bytes that begins at the virtual address 1 is not loaded. -/
theorem loadSegment_loses_tail :
    ¬LoadsExactly (List.replicate 257 7) 2 ⟨1, 0, 257⟩ 0 (newPageTable 0 2) fun _ => 0 := by
  rintro ⟨l, hl, hbytes, -⟩
  obtain ⟨a, ha, hval⟩ := hbytes 256 (by decide)
  obtain ⟨-, -, haddr⟩ := (reaches_iff (mapsTo_newPageTable 0 2) (by decide)).1 ha
  obtain rfl : a = 257 := by
    simp at haddr
    omega
  have hlost : (loadSegment (List.replicate 257 7) 2 ⟨1, 0, 257⟩ 0 (newPageTable 0 2)
      fun _ => 0).toOption.all (fun l => l.mainMemory 257 = 0) = true := by decide +kernel
  rw [hl] at hlost
  have hzero : l.mainMemory 257 = 0 := of_decide_eq_true hlost
  rw [hzero] at hval
  exact absurd hval (by decide)

/-! ### A new address space -/

/-- Memory after a segment has been loaded, if it is not empty. -/
def Segment.contents (seg : Segment) (executable : OpenFile) (start : ℕ) (mem : MainMemory) :
    MainMemory := fun a =>
  if 0 < seg.size.toInt ∧ seg.base start ≤ a ∧ a < seg.base start + seg.loadedSize ∧
      seg.inFileAddr.toNat + (a - seg.base start) < executable.length then
    executable.getD (seg.inFileAddr.toNat + (a - seg.base start)) 0
  else mem a

/-- The page table after a translation does not depend on the variable `physAddr`. -/
theorem pageTable_of_translate {virtAddr p p' size : ℤ} {which which' : ExceptionType}
    {q q' : ℤ} {pageTable₁ pageTable₂ : List TranslationEntry}
    (h : translate virtAddr p size pageTable numPages = .ok (which, q, pageTable₁))
    (h' : translate virtAddr p' size pageTable numPages = .ok (which', q', pageTable₂)) :
    pageTable₁ = pageTable₂ := by
  by_cases hneg : virtAddr < 0
  · simp only [translate, hneg, if_true, Except.ok.injEq, Prod.mk.injEq] at h h'
    exact h.2.2.symm.trans h'.2.2
  by_cases hvpn : numPages ≤ virtAddr.toNat / pageSize
  · simp only [translate, hneg, hvpn, if_true, if_false, Except.ok.injEq, Prod.mk.injEq] at h h'
    exact h.2.2.symm.trans h'.2.2
  simp only [translate, hneg, hvpn, if_false] at h h'
  cases he : pageTable[virtAddr.toNat / pageSize]? with
  | none => simp [he] at h
  | some e =>
    simp only [he] at h h'
    split_ifs at h h' <;> simp only [Except.ok.injEq, Prod.mk.injEq] at h h' <;>
      exact h.2.2.symm.trans h'.2.2

theorem pageTable_of_foldlM {t₁ t₂ t₁' t₂' : Target} (ht : t₁.pageTable = t₂.pageTable)
    (h₁ : reads.foldlM (Read.perform executable numPages) t₁ = .ok t₁')
    (h₂ : reads.foldlM (Read.perform executable numPages) t₂ = .ok t₂') :
    t₁'.pageTable = t₂'.pageTable := by
  induction reads generalizing t₁ t₂ with
  | nil =>
    cases h₁
    cases h₂
    exact ht
  | cons r rs ih =>
    obtain ⟨u₁, hu₁, h₁⟩ := bind_eq_ok.1 h₁
    obtain ⟨u₂, hu₂, h₂⟩ := bind_eq_ok.1 h₂
    obtain ⟨_, _, _, _, _, _, htr₁⟩ := Read.perform_eq_ok hu₁
    obtain ⟨_, _, _, _, _, _, htr₂⟩ := Read.perform_eq_ok hu₂
    exact ih (pageTable_of_translate htr₁ (ht ▸ htr₂)) h₁ h₂

/-- Loading a segment that lies inside the address space and can be read. -/
theorem loadNonempty_contents (executable : OpenFile)
    (hin : 0 < seg.size.toInt → seg.Inside numPages ∧ seg.Readable)
    (hframes : ∀ f ∈ Set.Ico start (start + numPages), f < numPhysPages)
    (hm : MapsTo start numPages pageTable) :
    ∃ pageTable', MapsTo start numPages pageTable' ∧ ∀ junk mem,
      loadNonempty executable numPages seg junk pageTable mem =
        .ok (pageTable', seg.contents executable start mem) := by
  by_cases hz : 0 < seg.size.toInt
  · obtain ⟨hinside, hread⟩ := hin hz
    have hle : start + numPages ≤ numPhysPages := by
      have hlast := hframes (start + numPages - 1)
      have := hinside.1
      have := hinside.2
      simp only [Set.mem_Ico, pageSize, numPhysPages] at *
      omega
    have hall : ∀ junk mem, ∃ t, seg.reads.foldlM (Read.perform executable numPages)
        ⟨junk, pageTable, mem⟩ = .ok t ∧ MapsTo start numPages t.pageTable ∧
          t.mainMemory = seg.contents executable start mem := by
      intro junk mem
      obtain ⟨t, ht, hm', hmem⟩ := foldlM_of_copies executable
        (t := ⟨junk, pageTable, mem⟩)
        (Segment.copies_of_mem_reads hz hinside (by omega) hread) hm hle
      refine ⟨t, ht, hm', hmem.trans (funext fun a => ?_)⟩
      rw [copied_reads hz hinside (by omega) hread]
      simp only [Segment.contents, hz, true_and]
    obtain ⟨t₀, ht₀, hm₀, -⟩ := hall 0 fun _ => 0
    refine ⟨t₀.pageTable, hm₀, fun junk mem => ?_⟩
    obtain ⟨t, ht, -, hmem⟩ := hall junk mem
    have htable : t.pageTable = t₀.pageTable :=
      pageTable_of_foldlM (by exact rfl) ht ht₀
    rw [loadNonempty_of_pos hz, ht, map_ok, hmem, htable]
  · refine ⟨pageTable, hm, fun junk mem => ?_⟩
    rw [loadNonempty, if_neg hz]
    have hsame : seg.contents executable start mem = mem :=
      funext fun a => if_neg fun h => hz h.1
    rw [hsame]
    rfl

/-- What is at an address afterwards depends on what was there before, and on nothing else. -/
theorem contents_congr {a : ℕ} (h : mem a = mem' a) :
    seg.contents executable start mem a = seg.contents executable start mem' a := by
  unfold Segment.contents
  rw [h]

/-- Nothing is loaded outside the segment. -/
theorem contents_of_outside (executable : OpenFile) (mem : MainMemory) {a : ℕ} {x : ℤ}
    (ha : (a : ℤ) = pageSize * start + x)
    (hin : 0 < seg.size.toInt → seg.Inside numPages)
    (hout : 0 < seg.size.toInt →
      ¬(seg.virtualAddr.toInt ≤ x ∧ x < seg.virtualAddr.toInt + seg.size.toInt)) :
    seg.contents executable start mem a = mem a := by
  refine if_neg fun ⟨hz, hle, hlt, _⟩ => hout hz ?_
  have hsize := Segment.size_eq_toNat hz
  have hv := toNat_of_nonneg (hin hz).1
  have hloaded := seg.loadedSize_le
  simp only [Segment.base, pageSize] at *
  omega

namespace NoffHeader

variable {noffH : NoffHeader}

/-- Memory after an address space that begins at the frame `start` has been cleared and loaded. -/
def contents (noffH : NoffHeader) (executable : OpenFile) (start : ℕ) (mem : MainMemory) :
    MainMemory :=
  noffH.initData.contents executable start (noffH.code.contents executable start
    (clearPages (newPageTable start noffH.numPages) mem))

/-- Loading both segments, if this succeeds in one case. -/
theorem loads_contents (hin : ∀ seg ∈ noffH.loaded, seg.Inside noffH.numPages)
    (hframes : ∀ f ∈ Set.Ico start (start + noffH.numPages), f < numPhysPages) {junk junk' : ℤ}
    {table₁ table₂ : List TranslationEntry} {mem₁ mem₂ : MainMemory}
    (h₁ : loadNonempty executable noffH.numPages noffH.code junk
      (newPageTable start noffH.numPages) mem = .ok (table₁, mem₁))
    (h₂ : loadNonempty executable noffH.numPages noffH.initData junk' table₁ mem₁ =
      .ok (table₂, mem₂)) :
    MapsTo start noffH.numPages table₂ ∧
      (∀ junk mem, loadNonempty executable noffH.numPages noffH.code junk
        (newPageTable start noffH.numPages) mem =
          .ok (table₁, noffH.code.contents executable start mem)) ∧
      ∀ junk mem, loadNonempty executable noffH.numPages noffH.initData junk table₁ mem =
        .ok (table₂, noffH.initData.contents executable start mem) := by
  obtain ⟨t₁, hm₁, hload₁⟩ := loadNonempty_contents executable
    (fun hz => ⟨hin _ (mem_loaded.2 ⟨.inl rfl, hz⟩), readable_of_loadNonempty h₁ hz⟩) hframes
    (mapsTo_newPageTable start noffH.numPages)
  obtain ⟨rfl, rfl⟩ := Prod.mk.inj (Except.ok.inj ((hload₁ _ _).symm.trans h₁))
  obtain ⟨t₂, hm₂, hload₂⟩ := loadNonempty_contents executable
    (fun hz => ⟨hin _ (mem_loaded.2 ⟨.inr rfl, hz⟩), readable_of_loadNonempty h₂ hz⟩) hframes hm₁
  obtain ⟨rfl, rfl⟩ := Prod.mk.inj (Except.ok.inj ((hload₂ _ _).symm.trans h₂))
  exact ⟨hm₂, hload₁, hload₂⟩

variable {a : ℕ} {x : ℤ}

/-- All pages of the address space have been cleared. -/
theorem clear_of_inside (mem : MainMemory) (ha : (a : ℤ) = pageSize * start + x) (hx : 0 ≤ x)
    (hlt : x < pageSize * numPages) : clearPages (newPageTable start numPages) mem a = 0 := by
  rw [clearPages_newPageTable]
  refine if_pos ?_
  simp only [pageSize] at *
  omega

/-- What was in memory before has disappeared. -/
theorem contents_eq (noffH : NoffHeader) (executable : OpenFile) (mem mem' : MainMemory)
    (ha : (a : ℤ) = pageSize * start + x) (hx : 0 ≤ x) (hlt : x < pageSize * noffH.numPages) :
    noffH.contents executable start mem a = noffH.contents executable start mem' a :=
  contents_congr <| contents_congr <|
    (clear_of_inside mem ha hx hlt).trans (clear_of_inside mem' ha hx hlt).symm

/-- Outside the segments there are zeros. -/
theorem contents_eq_zero (executable : OpenFile) (mem : MainMemory)
    (ha : (a : ℤ) = pageSize * start + x) (hx : 0 ≤ x) (hlt : x < pageSize * noffH.numPages)
    (hin : ∀ seg ∈ noffH.loaded, seg.Inside noffH.numPages)
    (hout : ∀ seg ∈ noffH.loaded,
      ¬(seg.virtualAddr.toInt ≤ x ∧ x < seg.virtualAddr.toInt + seg.size.toInt)) :
    noffH.contents executable start mem a = 0 := by
  have hcode : 0 < noffH.code.size.toInt → noffH.code ∈ noffH.loaded := fun hz =>
    mem_loaded.2 ⟨.inl rfl, hz⟩
  have hdata : 0 < noffH.initData.size.toInt → noffH.initData ∈ noffH.loaded := fun hz =>
    mem_loaded.2 ⟨.inr rfl, hz⟩
  unfold contents
  rw [contents_of_outside executable _ ha (fun hz => hin _ (hdata hz)) fun hz => hout _ (hdata hz),
    contents_of_outside executable _ ha (fun hz => hin _ (hcode hz)) fun hz => hout _ (hcode hz),
    clear_of_inside mem ha hx hlt]

end NoffHeader

/-- The construction of an address space whose segments lie inside it succeeds or fails whatever
main memory contained. Then it leaves the same bytes at every virtual address, and a zero wherever
no segment is. -/
theorem new_leaves_no_trace (memAll : MemAll) (executable : OpenFile) (junk junk' : Junk)
    (map map' : BitMap numPhysPages) (mem₁ mem₂ mem₁' : MainMemory) (noffH : NoffHeader)
    (space : AddrSpace) (hnoffH : readHeader executable junk.stack = .ok noffH)
    (hnoffH' : readHeader executable junk'.stack = .ok noffH)
    (hin : ∀ seg ∈ noffH.loaded, seg.Inside noffH.numPages)
    (h : AddrSpace.new memAll executable junk map mem₁ = .ok (space, map', mem₁')) :
    ∃ mem₂', AddrSpace.new memAll executable junk' map mem₂ = .ok (space, map', mem₂') ∧
      ∀ pageTable ∈ space.pageTable, ∀ x : ℤ, 0 ≤ x → x < pageSize * space.numPages →
        ∃ a, Reaches space.numPages pageTable x a ∧ mem₁' a = mem₂' a ∧
          ((∀ seg ∈ noffH.loaded,
            ¬(seg.virtualAddr.toInt ≤ x ∧ x < seg.virtualAddr.toInt + seg.size.toInt)) →
              mem₁' a = 0) := by
  have hframes := (AddrSpace.new_eq_ok h).1
  simp only [AddrSpace.new, hnoffH, ok_bind, bind_eq_ok] at h
  obtain ⟨found, hfound, h⟩ := h
  split_ifs at h with hf
  · simp only [bind_eq_ok] at h
    obtain ⟨map₁, hmap, ⟨table₁, mem₁₁⟩, h₁, ⟨table₂, mem₁₂⟩, h₂, h⟩ := h
    cases h
    rw [AddrSpace.frames_of_spaceFound rfl] at hframes
    have hfr : ∀ f ∈ Set.Ico found.startHere (found.startHere + noffH.numPages),
        f < numPhysPages := fun f hf => (hframes f hf).1
    obtain ⟨hm₂, hload₁, hload₂⟩ := noffH.loads_contents hin hfr h₁ h₂
    obtain rfl : noffH.code.contents executable found.startHere
        (clearPages (newPageTable found.startHere noffH.numPages) mem₁) = mem₁₁ :=
      congrArg Prod.snd (Except.ok.inj ((hload₁ _ _).symm.trans h₁))
    obtain rfl : noffH.contents executable found.startHere mem₁ = mem₁₂ :=
      congrArg Prod.snd (Except.ok.inj ((hload₂ _ _).symm.trans h₂))
    refine ⟨noffH.contents executable found.startHere mem₂, ?_, fun pageTable hpt x hx hlt => ?_⟩
    · simp only [AddrSpace.new, hnoffH', hfound, ok_bind, hf, if_true, hmap, hload₁, hload₂]
      rfl
    · obtain rfl := Option.some.inj hpt
      have hle : found.startHere + noffH.numPages ≤ numPhysPages := by
        have hlast := hfr (found.startHere + noffH.numPages - 1)
        simp only [Set.mem_Ico, pageSize, numPhysPages] at *
        omega
      obtain ⟨a, ha⟩ : ∃ a : ℕ, (a : ℤ) = pageSize * found.startHere + x := by
        refine ⟨(pageSize * found.startHere + x).toNat, Int.toNat_of_nonneg ?_⟩
        simp only [pageSize]
        omega
      exact ⟨a, (reaches_iff hm₂ hle).2 ⟨hx, hlt, ha⟩,
        noffH.contents_eq executable mem₁ mem₂ ha hx hlt,
        fun hout => NoffHeader.contents_eq_zero executable mem₁ ha hx hlt hin hout⟩
  · cases h
    exact ⟨mem₂, by simp only [AddrSpace.new, hnoffH', hfound, ok_bind, hf]; rfl,
      fun _ hp => by cases hp⟩

theorem inside_of_mem_loaded_dataHeader :
    ∀ seg ∈ dataHeader.loaded, seg.Inside dataHeader.numPages := by
  intro seg hseg
  rcases mem_loaded.1 hseg with ⟨rfl | rfl, -⟩ <;> exact ⟨by decide, by decide +kernel⟩

/-- The address space of `dataProgram`, in an empty memory and in one that contains something: its
instructions are at 0 and its data at 256, and between and behind them there are zeros. -/
theorem new_leaves_no_trace_of_dataProgram : ∃ pageTable map' mem₁' mem₂',
    AddrSpace.new .firstFit dataProgram ⟨fun _ => 0, 0, 0⟩ ⟨Vector.replicate _ 0⟩ (fun _ => 0) =
        .ok (⟨some pageTable, 5, 0, true⟩, map', mem₁') ∧
      AddrSpace.new .firstFit dataProgram ⟨fun _ => 1, 1, 1⟩ ⟨Vector.replicate _ 0⟩ (fun _ => 1) =
        .ok (⟨some pageTable, 5, 0, true⟩, map', mem₂') ∧
      (List.range 9).map mem₂' = [0, 1, 8, 0x80, 0, 0, 0, 8, 0] ∧
      [mem₂' 255, mem₂' 256, mem₂' 257, mem₂' 258] = [0, 5, 6, 0] ∧
      ∀ x : ℤ, 0 ≤ x → x < 1280 → ∃ a, Reaches 5 pageTable x a ∧ mem₁' a = mem₂' a ∧
        (8 ≤ x → ¬(256 ≤ x ∧ x < 258) → mem₂' a = 0) := by
  have hok : (AddrSpace.new .firstFit dataProgram ⟨fun _ => 0, 0, 0⟩ ⟨Vector.replicate _ 0⟩
      (fun _ => 0)).toOption.any (fun r => r.1.pageTable.isSome && r.1.numPages == 5 &&
        r.1.startHere == 0 && r.1.spaceFound) = true := by decide +kernel
  have hbytes : (AddrSpace.new .firstFit dataProgram ⟨fun _ => 1, 1, 1⟩ ⟨Vector.replicate _ 0⟩
      (fun _ => 1)).toOption.all (fun r =>
        (List.range 9).map r.2.2 == [0, 1, 8, 0x80, 0, 0, 0, 8, 0] &&
        [r.2.2 255, r.2.2 256, r.2.2 257, r.2.2 258] == [0, 5, 6, 0]) = true := by decide +kernel
  obtain ⟨⟨⟨table, numPages, startHere, spaceFound⟩, map', mem₁'⟩, h, hspace⟩ :=
    Option.any_eq_true _ _ |>.1 hok
  simp only [Bool.and_eq_true, beq_iff_eq, Option.isSome_iff_exists] at hspace
  obtain ⟨⟨⟨⟨pageTable, rfl⟩, rfl⟩, rfl⟩, rfl⟩ := hspace
  have hnew := toOption_eq_some.1 h
  obtain ⟨mem₂', hnew', hsame⟩ := new_leaves_no_trace .firstFit dataProgram ⟨fun _ => 0, 0, 0⟩
    ⟨fun _ => 1, 1, 1⟩ ⟨Vector.replicate _ 0⟩ map' (fun _ => 0) (fun _ => 1) mem₁' dataHeader
    ⟨some pageTable, 5, 0, true⟩ (by decide +kernel) (by decide +kernel)
    inside_of_mem_loaded_dataHeader hnew
  rw [hnew'] at hbytes
  obtain ⟨hcode, hdata⟩ := Bool.and_eq_true_iff.1 hbytes
  refine ⟨pageTable, map', mem₁', mem₂', hnew, hnew', beq_iff_eq.1 hcode, beq_iff_eq.1 hdata,
    fun x hx hlt => ?_⟩
  obtain ⟨a, ha, heq, hzero⟩ := hsame pageTable rfl x hx hlt
  refine ⟨a, ha, heq, fun hcode hdata => heq.symm.trans (hzero fun seg hseg => ?_)⟩
  rcases mem_loaded.1 hseg with ⟨rfl | rfl, -⟩
  · have hend : dataHeader.code.virtualAddr.toInt + dataHeader.code.size.toInt = 8 := by decide
    omega
  · exact hdata

end Nachos.UserProg
