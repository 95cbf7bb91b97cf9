import Nachos.UserProg.AddrSpace

/-!
# Segments as sequences of reads

`LoadSegment` computes its addresses and positions from the header alone, whatever the reads of
the file do. This file lists the reads of a segment (`Segment.reads`), and proves that
`LoadSegment` performs them one after the other.

## Main definitions

* `Read`, `Read.perform`: one read of the file into memory.
* `Segment.reads`: the reads of a segment.

## Main results

* `loadSegment_eq_foldlM`: `LoadSegment` performs the reads of the segment.
* `translate_of_outside`, `translate_of_inside`: the translation of an address by the page table
  of an address space whose frames are consecutive.
-/

namespace Nachos.UserProg

open Foundations

/-! ### Reads -/

/-- Read `len` bytes of the file at `position` to the virtual address `addr`. -/
structure Read where
  addr : ℤ
  len : ℕ
  position : ℤ

/-- What the reads change. -/
structure Target where
  physAddr : ℤ
  pageTable : List TranslationEntry
  mainMemory : MainMemory

/-- A read, to the address to which the previous read went if `addr` has no translation. -/
def Read.perform (executable : OpenFile) (numPages : ℕ) (t : Target) (r : Read) :
    Except Fault Target := do
  let (_, physAddr, pageTable) ← translate r.addr t.physAddr r.len t.pageTable numPages
  let bytes ← executable.readAt r.len r.position
  if bytes = [] ∨ 0 ≤ physAddr ∧ physAddr + bytes.length ≤ memorySize then
    .ok ⟨physAddr, pageTable, t.mainMemory.store physAddr.toNat bytes⟩
  else .error .undefined

/-- The full pages of a segment. The address and the position wrap around. -/
def Segment.pageRead (seg : Segment) (k : ℕ) : Read :=
  ⟨int32 (seg.virtualAddr.toInt + pageSize * k), pageSize,
    int32 (seg.inFileAddr.toInt + pageSize * k)⟩

/-- The reads of a segment. If it does not begin at the start of a page, the bytes that exceed
full pages are read first, and the full pages are read to the same address and from the same
position on. -/
def Segment.reads (seg : Segment) : List Read :=
  let size := seg.size.toNat
  let pages := (List.range (size / pageSize)).map seg.pageRead
  if seg.virtualAddr.toInt % pageSize = 0 then
    pages ++ if size % pageSize = 0 then [] else
      [{ seg.pageRead (size / pageSize) with len := size % pageSize }]
  else { seg.pageRead 0 with len := size % pageSize } :: pages

/-! ### `LoadSegment` performs the reads of a segment -/

/-- The range of a C `int`. -/
def IsInt32 (x : ℤ) : Prop := -2 ^ 31 ≤ x ∧ x < 2 ^ 31

theorem int32_of_isInt32 {x : ℤ} (h : IsInt32 x) : int32 x = x := by
  unfold IsInt32 at h
  exact Int.bmod_eq_of_le (by omega) (by omega)

theorem int32_of_le {x : ℤ} (h : 2 ^ 31 ≤ x) (h' : x < 2 ^ 32) : int32 x < 0 := by
  have hmod : ((2 ^ 32 : ℕ) : ℤ) = 4294967296 := rfl
  simp only [int32, Int.bmod, hmod]
  split <;> omega

theorem isInt32_int32 (x : ℤ) : IsInt32 (int32 x) := by
  have h₁ : -((2 ^ 32 : ℕ) / 2 : ℤ) ≤ int32 x := Int.le_bmod (by decide)
  have h₂ : int32 x < ((2 ^ 32 : ℕ) + 1) / 2 := Int.bmod_lt (by decide)
  unfold IsInt32
  omega

theorem int32_add (x y : ℤ) : int32 (int32 x + y) = int32 (x + y) :=
  Int.bmod_add_bmod ..

theorem isInt32_toInt (w : BitVec 32) : IsInt32 w.toInt :=
  ⟨by have := w.le_toInt; omega, by have := w.toInt_lt; omega⟩

namespace Loading

variable {executable : OpenFile} {numPages : ℕ}

/-- The part of the variables that the reads change. -/
def target (l : Loading) : Target := ⟨l.physAddr, l.pageTable, l.mainMemory⟩

def withTarget (l : Loading) (t : Target) : Loading :=
  { l with physAddr := t.physAddr, pageTable := t.pageTable, mainMemory := t.mainMemory }

theorem chunk_eq (len : ℕ) (l : Loading) :
    l.chunk executable numPages len =
      (Read.perform executable numPages l.target ⟨l.addr, len, l.inFileAddr⟩).map l.withTarget := by
  simp only [chunk, Read.perform, target]
  cases translate l.addr l.physAddr len l.pageTable numPages with
  | error e => rfl
  | ok r =>
    simp only [ok_bind, Int.toNat_natCast]
    cases executable.readAt len l.inFileAddr with
    | error e => rfl
    | ok bytes =>
      simp only [ok_bind]
      split_ifs <;> rfl

/-- The variables after `k` iterations of the loop, which have changed the target to `t`. -/
def after (l : Loading) (k : ℕ) (t : Target) : Loading :=
  { l.withTarget t with
    size := l.size - pageSize * k
    addr := int32 (l.addr + pageSize * k)
    inFileAddr := int32 (l.inFileAddr + pageSize * k) }

/-- The read that iteration `k` of the loop performs. -/
def pageRead (l : Loading) (k : ℕ) : Read :=
  ⟨int32 (l.addr + pageSize * k), pageSize, int32 (l.inFileAddr + pageSize * k)⟩

/-- One iteration. -/
theorem page_after (l : Loading) {k : ℕ} (t : Target) (hsize : pageSize * (k + 1) ≤ l.size)
    (hint : IsInt32 l.size) :
    (l.after k t).page executable numPages =
      (Read.perform executable numPages t (l.pageRead k)).map (l.after (k + 1)) := by
  rw [page, chunk_eq]
  change ((Read.perform executable numPages t (l.pageRead k)).map _ >>= _) = _
  cases Read.perform executable numPages t (l.pageRead k) with
  | error e => rfl
  | ok t' =>
    have hs : int32 (l.size - pageSize * k - pageSize) = l.size - pageSize * (k + 1 : ℕ) := by
      simp only [pageSize] at hsize ⊢
      rw [int32_of_isInt32]
      · omega
      · unfold IsInt32 at hint ⊢
        omega
    have ha : ∀ x : ℤ, int32 (int32 (x + pageSize * k) + pageSize) =
        int32 (x + pageSize * (k + 1 : ℕ)) := fun x => by
      rw [int32_add]
      congr 1
      simp only [pageSize]
      omega
    simp only [map_ok, ok_bind, pure, Except.pure, withTarget, after, hs, ha]

/-- The loop performs the reads of the full pages. -/
theorem forLoop_page (l : Loading) {k : ℕ} (hsize : pageSize * k ≤ l.size)
    (hint : IsInt32 l.size) (haddr : IsInt32 l.addr) (hpos : IsInt32 l.inFileAddr) :
    forLoop (fun l _ => l.page executable numPages) k l =
      (((List.range k).map l.pageRead).foldlM (Read.perform executable numPages) l.target).map
        (l.after k) := by
  induction k with
  | zero =>
    simp [pure, Except.pure, after, withTarget, target, int32_of_isInt32 haddr,
      int32_of_isInt32 hpos]
  | succ k ih =>
    have hsize' : pageSize * (k + 1) ≤ l.size := by exact_mod_cast hsize
    have hle : pageSize * k ≤ l.size := by
      simp only [pageSize] at hsize' ⊢
      omega
    rw [forLoop_succ, ih hle, List.range_succ, List.map_append, foldlM_append_except]
    cases ((List.range k).map l.pageRead).foldlM (Read.perform executable numPages) l.target with
    | error e => rfl
    | ok t =>
      simp only [map_ok, List.map_singleton, foldlM_cons_except, Except.bind]
      rw [page_after l t hsize' hint]
      cases Read.perform executable numPages t (l.pageRead k) <;> rfl

/-- The last part reads what the full pages have left of the segment. -/
theorem tail_after (l : Loading) (t : Target) {z : ℕ} (hz : l.size = z) :
    ((l.after (z / pageSize) t).tail executable numPages).map target =
      (if z % pageSize = 0 then [] else
        [{ l.pageRead (z / pageSize) with len := z % pageSize }]).foldlM
          (Read.perform executable numPages) t := by
  have hleft : (l.after (z / pageSize) t).size = (z % pageSize : ℕ) := by
    simp only [after, hz, pageSize]
    omega
  have hmod : (l.after (z / pageSize) t).size.tmod pageSize = (z % pageSize : ℕ) := by
    rw [hleft, ← Int.ofNat_tmod, Nat.mod_mod]
  unfold tail
  rw [hmod]
  by_cases h : z % pageSize = 0
  · simp [h, pure, Except.pure, after, withTarget, target]
  · have h' : ((z % pageSize : ℕ) : ℤ) ≠ 0 := by exact_mod_cast h
    rw [if_pos h', if_neg h, chunk_eq, foldlM_cons_except]
    change ((Read.perform executable numPages t _).map _).map target = _
    simp only [after, pageRead]
    cases Read.perform executable numPages t _ <;> rfl

theorem head_of_aligned (l : Loading) (h : l.addr % pageSize = 0) :
    l.head executable numPages = .ok l := by
  have h' : l.addr.tmod pageSize = 0 :=
    Int.tmod_eq_zero_of_dvd (Int.dvd_of_emod_eq_zero h)
  unfold head
  rw [if_neg (not_not.2 h')]
  rfl

/-- The first part reads the bytes that exceed full pages. It does not change `addr` and
`inFileAddr`. -/
theorem head_of_not_aligned (l : Loading) (h : l.addr % pageSize ≠ 0) {z : ℕ} (hz : l.size = z)
    (hint : IsInt32 l.size) (haddr : IsInt32 l.addr) (hpos : IsInt32 l.inFileAddr) :
    l.head executable numPages =
      (Read.perform executable numPages l.target ⟨l.addr, z % pageSize, l.inFileAddr⟩).map
        fun t => { l.withTarget t with size := (pageSize * (z / pageSize) : ℕ) } := by
  have h' : l.addr.tmod pageSize ≠ 0 := fun h0 =>
    h (Int.emod_eq_zero_of_dvd (Int.dvd_of_tmod_eq_zero h0))
  have hmod : l.size.tmod pageSize = (z % pageSize : ℕ) := by rw [hz, Int.ofNat_tmod]
  unfold head
  rw [if_pos h', hmod, chunk_eq]
  cases Read.perform executable numPages l.target ⟨l.addr, z % pageSize, l.inFileAddr⟩ with
  | error e => rfl
  | ok t =>
    have hsize : int32 (l.size - (z % pageSize : ℕ)) = (pageSize * (z / pageSize) : ℕ) := by
      rw [int32_of_isInt32, hz]
      · simp only [pageSize]
        omega
      · unfold IsInt32 at hint ⊢
        simp only [pageSize] at hint ⊢
        omega
    have hrest : ((pageSize * (z / pageSize) : ℕ) : ℤ).tmod pageSize = 0 := by
      rw [← Int.ofNat_tmod, Nat.mul_mod_right]
      rfl
    have hwith : (l.withTarget t).size = l.size := rfl
    simp only [map_ok, ok_bind, pure, Except.pure, hwith, hmod, hsize, hrest, Int.add_zero]
    simp only [withTarget, int32_of_isInt32 haddr, int32_of_isInt32 hpos]

/-- The loop and the last part of `LoadSegment`. -/
theorem loop_tail (executable : OpenFile) (numPages : ℕ) (l : Loading) {z : ℕ} (hz : l.size = z)
    (hint : IsInt32 l.size) (haddr : IsInt32 l.addr) (hpos : IsInt32 l.inFileAddr) :
    (forLoop (fun l _ => l.page executable numPages) (l.size.tdiv pageSize).toNat l >>=
        fun l => l.tail executable numPages).map target =
      ((List.range (z / pageSize)).map l.pageRead ++ if z % pageSize = 0 then [] else
        [{ l.pageRead (z / pageSize) with len := z % pageSize }]).foldlM
          (Read.perform executable numPages) l.target := by
  have hloops : (l.size.tdiv pageSize).toNat = z / pageSize := by
    rw [hz, ← Int.ofNat_tdiv, Int.toNat_natCast]
  have hfull : ((pageSize : ℕ) : ℤ) * (z / pageSize : ℕ) ≤ l.size := by
    simp only [hz, pageSize]
    omega
  rw [hloops, forLoop_page l hfull hint haddr hpos, foldlM_append_except]
  cases ((List.range (z / pageSize)).map l.pageRead).foldlM (Read.perform executable numPages)
    l.target with
  | error e => rfl
  | ok t => exact tail_after l t hz

end Loading

theorem Segment.size_eq_toNat {seg : Segment} (hz : 0 < seg.size.toInt) :
    seg.size.toInt = seg.size.toNat :=
  BitVec.toInt_eq_toNat_of_lt (BitVec.toInt_pos_iff.1 (Int.le_of_lt hz))

/-- `LoadSegment` performs the reads of the segment. -/
theorem loadSegment_eq_foldlM {executable : OpenFile} {numPages : ℕ} {seg : Segment} {junk : ℤ}
    {pageTable : List TranslationEntry} {mem : MainMemory} (hz : 0 < seg.size.toInt) :
    (loadSegment executable numPages seg junk pageTable mem).map Loading.target =
      seg.reads.foldlM (Read.perform executable numPages) ⟨junk, pageTable, mem⟩ := by
  have hsize := Segment.size_eq_toNat hz
  set l : Loading := ⟨junk, seg.size.toInt, seg.virtualAddr.toInt, seg.inFileAddr.toInt, pageTable,
    mem⟩ with hl
  have hint : IsInt32 l.size := isInt32_toInt _
  have haddr : IsInt32 l.addr := isInt32_toInt _
  have hpos : IsInt32 l.inFileAddr := isInt32_toInt _
  unfold loadSegment Segment.reads
  by_cases hv : seg.virtualAddr.toInt % pageSize = 0
  · rw [← hl, Loading.head_of_aligned l hv, if_pos hv]
    exact Loading.loop_tail executable numPages l hsize hint haddr hpos
  · rw [← hl, Loading.head_of_not_aligned l hv hsize hint haddr hpos, if_neg hv,
      foldlM_cons_except]
    have hfirst : (⟨l.addr, seg.size.toNat % pageSize, l.inFileAddr⟩ : Read) =
        { seg.pageRead 0 with len := seg.size.toNat % pageSize } := by
      simp [Segment.pageRead, hl, int32_of_isInt32, isInt32_toInt]
    rw [← hfirst]
    change _ = (Read.perform executable numPages l.target _).bind _
    cases Read.perform executable numPages l.target
      ⟨l.addr, seg.size.toNat % pageSize, l.inFileAddr⟩ with
    | error e => rfl
    | ok t =>
      have hle : pageSize * (seg.size.toNat / pageSize) ≤ seg.size.toNat := Nat.mul_div_le _ _
      have hint' : IsInt32 (pageSize * (seg.size.toNat / pageSize) : ℕ) := by
        have := (isInt32_toInt seg.size).2
        unfold IsInt32
        omega
      simp only [map_ok, ok_bind]
      have hrest := Loading.loop_tail executable numPages
        { l.withTarget t with size := (pageSize * (seg.size.toNat / pageSize) : ℕ) } rfl hint' haddr
        hpos
      rw [Nat.mul_div_cancel_left _ (by decide), Nat.mul_mod_right, if_pos rfl,
        List.append_nil] at hrest
      exact hrest

/-! ### Translation in an address space -/

variable {start numPages : ℕ} {pageTable : List TranslationEntry} {virtAddr : ℤ}

/-- A page table that maps the pages of an address space to consecutive frames. -/
structure MapsTo (start numPages : ℕ) (pageTable : List TranslationEntry) : Prop where
  length_eq : pageTable.length = numPages
  entry : ∀ i < numPages, ∃ e, pageTable[i]? = some e ∧ e.valid = true ∧ e.physicalPage = i + start

theorem mapsTo_newPageTable (start numPages : ℕ) :
    MapsTo start numPages (newPageTable start numPages) := by
  refine ⟨by simp [newPageTable], fun i hi => ⟨⟨i, i + start, true, false, false, false⟩, ?_, rfl,
    rfl⟩⟩
  simp [newPageTable, hi]

/-- Setting the use bit of an entry. -/
theorem MapsTo.set_use (h : MapsTo start numPages pageTable) {i : ℕ} {e : TranslationEntry}
    (he : pageTable[i]? = some e) :
    MapsTo start numPages (pageTable.set i { e with use := true }) := by
  refine ⟨by simp [h.length_eq], fun j hj => ?_⟩
  obtain ⟨e', he', hv, hp⟩ := h.entry j hj
  by_cases hij : i = j
  · subst hij
    obtain rfl : e = e' := Option.some.inj (he.symm.trans he')
    have hlt : i < pageTable.length := by rw [h.length_eq]; exact hj
    exact ⟨{ e with use := true }, by simp [hlt], hv, hp⟩
  · exact ⟨e', by simp [hij, he'], hv, hp⟩

theorem translate_of_outside (h : virtAddr < 0 ∨ pageSize * numPages ≤ virtAddr)
    (physAddr size : ℤ) :
    translate virtAddr physAddr size pageTable numPages =
      .ok (.addressErrorException, physAddr, pageTable) := by
  unfold translate
  by_cases hneg : virtAddr < 0
  · rw [if_pos hneg]
  · have hle : numPages ≤ virtAddr.toNat / pageSize := by
      simp only [pageSize] at h ⊢
      omega
    rw [if_neg hneg, if_pos hle]

/-- Consecutive frames: the physical address is the virtual one, counted from the first frame. -/
theorem translate_of_inside (hm : MapsTo start numPages pageTable)
    (hle : start + numPages ≤ numPhysPages) (h₀ : 0 ≤ virtAddr)
    (h₁ : virtAddr < pageSize * numPages) (physAddr size : ℤ) :
    ∃ pageTable', MapsTo start numPages pageTable' ∧
      translate virtAddr physAddr size pageTable numPages =
        if pageSize * start + virtAddr + size ≤ memorySize then
          .ok (.noException, pageSize * start + virtAddr, pageTable')
        else .error .assertion := by
  obtain ⟨a, rfl⟩ := Int.eq_ofNat_of_zero_le h₀
  have hvpn : a / pageSize < numPages := by
    simp only [pageSize] at h₁ ⊢
    omega
  obtain ⟨e, he, hv, hp⟩ := hm.entry _ hvpn
  refine ⟨_, hm.set_use he, ?_⟩
  have hframe : ¬numPhysPages ≤ e.physicalPage := by omega
  have hphys : ((e.physicalPage * pageSize + a % pageSize : ℕ) : ℤ) = pageSize * start + a := by
    simp only [hp, pageSize]
    omega
  unfold translate
  simp only [Int.not_lt.2 h₀, if_false, Int.toNat_natCast, Nat.not_le.2 hvpn, he, hv,
    Bool.true_eq_false, hframe, hphys]
  have h0 : (0 : ℤ) ≤ pageSize * start + a := by
    simp only [pageSize]
    omega
  simp only [h0, true_and]

end Nachos.UserProg
