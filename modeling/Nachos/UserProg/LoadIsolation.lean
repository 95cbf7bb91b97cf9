import Nachos.UserProg.FrameOwnership
import Nachos.UserProg.SegmentLoading

/-!
# Loading and the memory of others

`LoadSegment` drops the result of `Translate` and reads up to a page to an address that need not
be the start of one. Whether loading an executable can change memory outside the frames of the
new address space depends on the header only. This file says which headers are harmless and proves
that they are.

## Main definitions

* `Segment.Fits`, `Segment.Readable`, `NoffHeader.StaysInside`: the headers that are harmless.
* `LeavesOthersAlone`: loading changes only the newly marked frames.

## Main results

* `Segment.readable_iff`: when the positions from which a segment is read are not negative.
* `leavesOthersAlone_of_staysInside`: loading an executable with such a header leaves the memory
  of others alone.
-/

namespace Nachos.UserProg

open Foundations StepSystem

/-! ### Which headers are harmless -/

namespace Segment

/-- The number of times that `LoadSegment` advances its position in the file, with the first
read. -/
def advances (seg : Segment) : ℕ :=
  if seg.virtualAddr.toInt % pageSize = 0 then (seg.size.toNat + (pageSize - 1)) / pageSize
  else max 1 (seg.size.toNat / pageSize)

/-- No position from which the segment is read is negative, as an `int`. -/
def Readable (seg : Segment) : Prop :=
  0 ≤ seg.inFileAddr.toInt ∧ seg.inFileAddr.toInt + pageSize * (seg.advances - 1 : ℕ) < 2 ^ 31

/-- The segment begins in an address space of `numPages` pages, and at the start of a page; or
neither the bytes that exceed its full pages nor its full pages, both of which are read to its
beginning, go beyond the end. -/
def Fits (seg : Segment) (numPages : ℕ) : Prop :=
  (0 ≤ seg.virtualAddr.toInt ∧ seg.virtualAddr.toInt < pageSize * numPages) ∧
    (seg.virtualAddr.toInt % pageSize = 0 ∨
      seg.virtualAddr.toInt + (seg.size.toNat % pageSize : ℕ) ≤ pageSize * numPages ∧
      seg.virtualAddr.toInt + pageSize * (seg.size.toNat / pageSize : ℕ) ≤ pageSize * numPages)

instance (seg : Segment) : Decidable seg.Readable := inferInstanceAs (Decidable (_ ∧ _))

instance (seg : Segment) (numPages : ℕ) : Decidable (seg.Fits numPages) :=
  inferInstanceAs (Decidable ((_ ∧ _) ∧ (_ ∨ _ ∧ _)))

end Segment

/-- The segments that the constructor loads. -/
def NoffHeader.loaded (noffH : NoffHeader) : List Segment :=
  [noffH.code, noffH.initData].filter fun seg => 0 < seg.size.toInt

/-- The headers that are harmless: the address space takes all of main memory or more, or a
segment cannot be read, or all segments fit. -/
def NoffHeader.StaysInside (noffH : NoffHeader) : Prop :=
  numPhysPages ≤ noffH.numPages ∨ (∃ seg ∈ noffH.loaded, ¬seg.Readable) ∨
    ∀ seg ∈ noffH.loaded, seg.Fits noffH.numPages

instance (noffH : NoffHeader) : Decidable noffH.StaysInside :=
  inferInstanceAs (Decidable (_ ∨ _ ∨ _))

/-- Loading an executable with this header stops, at an assertion or at an operation without a
defined behaviour, or changes only bytes of main memory in the frames that are marked for it,
whatever the live address spaces, the contents of main memory, the policy, and the rest of the
executable. -/
def LeavesOthersAlone (noffH : NoffHeader) : Prop :=
  ∀ s, memorySystem.Reachable Always s → ∀ memAll executable junk,
    readHeader executable junk.stack = .ok noffH → ∀ space map' mem',
    AddrSpace.new memAll executable junk s.map s.mainMemory = .ok (space, map', mem') →
    ∀ a < memorySize, mem' a ≠ s.mainMemory a → a / pageSize ∈ marked map' \ marked s.map

/-! ### One read -/

variable {executable : OpenFile} {start numPages : ℕ} {t t' : Target} {r : Read}

/-- What a read that succeeds has done. -/
theorem Read.perform_eq_ok (h : Read.perform executable numPages t r = .ok t') :
    0 ≤ r.position ∧
      ∃ bytes, bytes = (executable.drop r.position.toNat).take r.len ∧
        (bytes = [] ∨ 0 ≤ t'.physAddr ∧ t'.physAddr + bytes.length ≤ memorySize) ∧
        t'.mainMemory = t.mainMemory.store t'.physAddr.toNat bytes ∧
        ∃ which, translate r.addr t.physAddr r.len t.pageTable numPages =
          .ok (which, t'.physAddr, t'.pageTable) := by
  simp only [Read.perform, bind_eq_ok] at h
  obtain ⟨⟨which, physAddr, pageTable⟩, htr, bytes, hbytes, h⟩ := h
  unfold OpenFile.readAt at hbytes
  split_ifs at hbytes with hpos
  obtain rfl := Except.ok.inj hbytes
  split_ifs at h with hmem
  obtain rfl := Except.ok.inj h
  exact ⟨by omega, _, rfl, hmem, rfl, which, htr⟩

/-- The address to which a read goes. -/
theorem Read.physAddr_of_perform (h : Read.perform executable numPages t r = .ok t')
    (hm : MapsTo start numPages t.pageTable) (hle : start + numPages ≤ numPhysPages) :
    MapsTo start numPages t'.pageTable ∧
      (0 ≤ r.addr ∧ r.addr < pageSize * numPages ∧ t'.physAddr = pageSize * start + r.addr ∨
        (r.addr < 0 ∨ pageSize * numPages ≤ r.addr) ∧ t'.physAddr = t.physAddr) := by
  obtain ⟨-, -, -, -, -, which, htr⟩ := Read.perform_eq_ok h
  by_cases hin : 0 ≤ r.addr ∧ r.addr < pageSize * numPages
  · obtain ⟨pageTable', hm', htr'⟩ :=
      translate_of_inside hm hle hin.1 hin.2 t.physAddr r.len
    rw [htr'] at htr
    split_ifs at htr
    simp only [Except.ok.injEq, Prod.mk.injEq] at htr
    exact ⟨htr.2.2 ▸ hm', .inl ⟨hin.1, hin.2, htr.2.1.symm⟩⟩
  · have hout : r.addr < 0 ∨ pageSize * numPages ≤ r.addr := by omega
    rw [translate_of_outside hout] at htr
    simp only [Except.ok.injEq, Prod.mk.injEq] at htr
    exact ⟨htr.2.2 ▸ hm, .inr ⟨hout, htr.2.1.symm⟩⟩

/-! ### Positions -/

/-- Positions that advance by pages and do not become negative do not leave the range of an
`int`. -/
theorem lt_of_forall_nonneg {f : ℤ} (hf : IsInt32 f) {m : ℕ}
    (h : ∀ k : ℕ, k < m → 0 ≤ int32 (f + pageSize * k)) :
    ∀ k : ℕ, k < m → 0 ≤ f ∧ f + pageSize * k < 2 ^ 31 := by
  intro k hk
  induction k with
  | zero =>
    have h₀ := h 0 hk
    unfold IsInt32 at hf
    rw [show f + pageSize * (0 : ℕ) = f by simp, int32_of_isInt32 hf] at h₀
    simp only [pageSize]
    omega
  | succ k ih =>
    obtain ⟨h₀, hlt⟩ := ih (by omega)
    refine ⟨h₀, ?_⟩
    by_contra hge
    have hneg := h (k + 1) hk
    have := int32_of_le (x := f + pageSize * (k + 1 : ℕ)) (by omega)
      (by simp only [pageSize] at hlt ⊢; omega)
    omega

namespace Segment

variable {seg : Segment}

theorem mem_reads_iff_of_aligned (hv : seg.virtualAddr.toInt % pageSize = 0) :
    r ∈ seg.reads ↔ (∃ k < seg.size.toNat / pageSize, r = seg.pageRead k) ∨
      seg.size.toNat % pageSize ≠ 0 ∧
        r = { seg.pageRead (seg.size.toNat / pageSize) with len := seg.size.toNat % pageSize } := by
  unfold reads
  rw [if_pos hv]
  by_cases hz : seg.size.toNat % pageSize = 0 <;> simp [hz, eq_comm]

theorem mem_reads_iff_of_not_aligned (hv : seg.virtualAddr.toInt % pageSize ≠ 0) :
    r ∈ seg.reads ↔ r = { seg.pageRead 0 with len := seg.size.toNat % pageSize } ∨
      ∃ k < seg.size.toNat / pageSize, r = seg.pageRead k := by
  unfold reads
  rw [if_neg hv]
  simp [eq_comm]

/-- The reads go through the positions and addresses of consecutive pages. -/
theorem exists_of_mem_reads (hr : r ∈ seg.reads) :
    ∃ k < seg.advances, r.position = (seg.pageRead k).position := by
  unfold advances
  by_cases hv : seg.virtualAddr.toInt % pageSize = 0
  · rw [if_pos hv]
    simp only [pageSize]
    obtain ⟨k, hk, rfl⟩ | ⟨hz, rfl⟩ := (mem_reads_iff_of_aligned hv).1 hr
    · simp only [pageSize] at hk
      exact ⟨k, by omega, rfl⟩
    · simp only [pageSize] at hz
      exact ⟨_, by simp only [pageSize]; omega, rfl⟩
  · rw [if_neg hv]
    obtain rfl | ⟨k, hk, rfl⟩ := (mem_reads_iff_of_not_aligned hv).1 hr
    · exact ⟨0, by omega, rfl⟩
    · exact ⟨k, by omega, rfl⟩

theorem exists_mem_reads {k : ℕ} (hk : k < seg.advances) :
    ∃ r ∈ seg.reads, r.position = (seg.pageRead k).position := by
  unfold advances at hk
  by_cases hv : seg.virtualAddr.toInt % pageSize = 0
  · rw [if_pos hv] at hk
    simp only [mem_reads_iff_of_aligned hv]
    by_cases hlt : k < seg.size.toNat / pageSize
    · exact ⟨_, .inl ⟨k, hlt, rfl⟩, rfl⟩
    · simp only [pageSize] at hk hlt
      obtain rfl : k = seg.size.toNat / 256 := by omega
      exact ⟨_, .inr ⟨by simp only [pageSize]; omega, rfl⟩, rfl⟩
  · rw [if_neg hv] at hk
    simp only [mem_reads_iff_of_not_aligned hv]
    by_cases hlt : k < seg.size.toNat / pageSize
    · exact ⟨_, .inr ⟨k, hlt, rfl⟩, rfl⟩
    · obtain rfl : k = 0 := by omega
      exact ⟨_, .inl rfl, rfl⟩

theorem len_le_of_mem_reads (hr : r ∈ seg.reads) : r.len ≤ pageSize := by
  have hmod : seg.size.toNat % pageSize ≤ pageSize := (Nat.mod_lt _ (by decide)).le
  by_cases hv : seg.virtualAddr.toInt % pageSize = 0
  · obtain ⟨k, -, rfl⟩ | ⟨-, rfl⟩ := (mem_reads_iff_of_aligned hv).1 hr
    · exact le_rfl
    · exact hmod
  · obtain rfl | ⟨k, -, rfl⟩ := (mem_reads_iff_of_not_aligned hv).1 hr
    · exact hmod
    · exact le_rfl

theorem advances_pos (hz : 0 < seg.size.toInt) : 0 < seg.advances := by
  have := size_eq_toNat hz
  unfold advances
  split_ifs
  · simp only [pageSize]
    omega
  · omega

/-- A segment is read from positions that are not negative only if it is readable. -/
theorem readable_iff (hz : 0 < seg.size.toInt) :
    (∀ r ∈ seg.reads, 0 ≤ r.position) ↔ seg.Readable := by
  have hadv := advances_pos hz
  constructor
  · intro h
    have hk : ∀ k : ℕ, k < seg.advances → 0 ≤ int32 (seg.inFileAddr.toInt + pageSize * k) := by
      intro k hk
      obtain ⟨r, hr, hpos⟩ := exists_mem_reads hk
      have hnonneg := h r hr
      rwa [hpos] at hnonneg
    exact lt_of_forall_nonneg (isInt32_toInt _) hk _ (by omega)
  · rintro ⟨h₀, hlt⟩ r hr
    obtain ⟨k, hk, hpos⟩ := exists_of_mem_reads hr
    have hle : (pageSize : ℤ) * k ≤ pageSize * (seg.advances - 1 : ℕ) := by
      simp only [pageSize]
      omega
    have hnonneg : (0 : ℤ) ≤ pageSize * k := by
      simp only [pageSize]
      omega
    rw [hpos]
    change 0 ≤ int32 (seg.inFileAddr.toInt + pageSize * k)
    rw [int32_of_isInt32]
    · omega
    · unfold IsInt32
      omega

end Segment

/-! ### Segments that fit -/

/-- The addresses of the frames of an address space. -/
def frameBytes (start numPages : ℕ) : Set ℕ :=
  Set.Ico (pageSize * start) (pageSize * (start + numPages))

/-- A read within the frames of the address space. -/
theorem Read.unchanged_of_perform {mem : MainMemory}
    (h : Read.perform executable numPages t r = .ok t') (hm : MapsTo start numPages t.pageTable)
    (hle : start + numPages ≤ numPhysPages)
    (hin : 0 ≤ r.addr → r.addr < pageSize * numPages → r.addr + r.len ≤ pageSize * numPages)
    (hout : r.addr < 0 ∨ pageSize * numPages ≤ r.addr → pageSize * start ≤ t.physAddr ∧
      t.physAddr + r.len ≤ pageSize * (start + numPages))
    (hmem : ∀ a ∉ frameBytes start numPages, t.mainMemory a = mem a) :
    ∀ a ∉ frameBytes start numPages, t'.mainMemory a = mem a := by
  intro a ha
  obtain ⟨-, bytes, hbytes, -, hstore, -⟩ := Read.perform_eq_ok h
  have hlen : bytes.length ≤ r.len := hbytes ▸ List.length_take_le _ _
  have hrange : pageSize * start ≤ t'.physAddr ∧
      t'.physAddr + r.len ≤ pageSize * (start + numPages) := by
    rcases (Read.physAddr_of_perform h hm hle).2 with ⟨h₀, h₁, hp⟩ | ⟨hr, hp⟩
    · have := hin h₀ h₁
      simp only [pageSize] at *
      omega
    · exact hp ▸ hout hr
  rw [hstore, ← hmem a ha]
  simp only [frameBytes, Set.mem_Ico, pageSize] at ha hrange
  by_cases hlt : a < t'.physAddr.toNat
  · exact MainMemory.store_of_lt _ _ hlt
  · exact MainMemory.store_of_le _ _ (by omega)

theorem int32_emod (x : ℤ) : int32 x % pageSize = x % pageSize := by
  have hmod : ((2 ^ 32 : ℕ) : ℤ) = 4294967296 := rfl
  obtain ⟨c, hc⟩ : ((2 ^ 32 : ℕ) : ℤ) ∣ int32 x - x := Int.dvd_bmod_sub_self
  rw [hmod] at hc
  simp only [pageSize]
  omega

namespace Segment

variable {seg : Segment} {mem : MainMemory}

theorem addr_pageRead_emod (hv : seg.virtualAddr.toInt % pageSize = 0) (k : ℕ) :
    (seg.pageRead k).addr % pageSize = 0 := by
  simp only [pageRead, int32_emod]
  simp only [pageSize] at hv ⊢
  omega

theorem exists_reads_eq_cons (hz : 0 < seg.size.toInt)
    (hv : seg.virtualAddr.toInt % pageSize = 0) :
    ∃ r rs, seg.reads = r :: rs ∧ r.addr = seg.virtualAddr.toInt := by
  have hsize := size_eq_toNat hz
  have h₀ : (seg.pageRead 0).addr = seg.virtualAddr.toInt := by
    simp [pageRead, int32_of_isInt32, isInt32_toInt]
  unfold reads
  rw [if_pos hv]
  cases hq : seg.size.toNat / pageSize with
  | zero =>
    have hr : seg.size.toNat % pageSize ≠ 0 := by
      simp only [pageSize] at hq ⊢
      omega
    exact ⟨{ seg.pageRead 0 with len := seg.size.toNat % pageSize }, [], by simp [hr], h₀⟩
  | succ q =>
    rw [List.range_succ_eq_map, List.map_cons, List.cons_append]
    exact ⟨_, _, rfl, h₀⟩

/-- A segment that begins at the start of a page of the address space: once the first page has
been translated, an address without a translation goes to the frame of the previous page. -/
theorem unchanged_of_aligned (hz : 0 < seg.size.toInt)
    (hv : seg.virtualAddr.toInt % pageSize = 0)
    (hin : 0 ≤ seg.virtualAddr.toInt ∧ seg.virtualAddr.toInt < pageSize * numPages)
    (hle : start + numPages ≤ numPhysPages) (hm : MapsTo start numPages t.pageTable)
    (hmem : ∀ a ∉ frameBytes start numPages, t.mainMemory a = mem a)
    (h : seg.reads.foldlM (Read.perform executable numPages) t = .ok t') :
    MapsTo start numPages t'.pageTable ∧
      ∀ a ∉ frameBytes start numPages, t'.mainMemory a = mem a := by
  have haligned : ∀ r ∈ seg.reads, r.addr % pageSize = 0 := by
    intro r hr
    obtain ⟨k, -, rfl⟩ | ⟨-, rfl⟩ := (mem_reads_iff_of_aligned hv).1 hr
    · exact addr_pageRead_emod hv k
    · exact addr_pageRead_emod hv _
  have hlen : ∀ r ∈ seg.reads, r.len ≤ pageSize := fun r => len_le_of_mem_reads
  -- a read to an aligned address of the address space ends in the page
  have hpage : ∀ r : Read, r.addr % pageSize = 0 → r.len ≤ pageSize →
      r.addr < pageSize * numPages → r.addr + pageSize ≤ pageSize * numPages := by
    intro r ha hl hlt
    simp only [pageSize] at *
    omega
  obtain ⟨r, rs, hreads, haddr⟩ := exists_reads_eq_cons hz hv
  rw [hreads] at h haligned hlen
  rw [foldlM_cons_except] at h
  cases hr : Read.perform executable numPages t r with
  | error e => simp [hr, Except.bind] at h
  | ok t₁ =>
    rw [hr] at h
    have hra := haligned r (by simp)
    have hrl := hlen r (by simp)
    have hrend := hpage r hra hrl (haddr ▸ hin.2)
    obtain ⟨hm₁, hp₁⟩ := Read.physAddr_of_perform hr hm hle
    have hmem₁ := Read.unchanged_of_perform hr hm hle (fun _ _ => by omega)
      (fun hout => by omega) hmem
    have hp₁' : t₁.physAddr = pageSize * start + r.addr := by
      rcases hp₁ with hp | hp
      · exact hp.2.2
      · omega
    have h' := foldlM_invariant (fun t : Target => MapsTo start numPages t.pageTable ∧
      ((pageSize : ℤ) * start ≤ t.physAddr ∧
        t.physAddr + pageSize ≤ pageSize * (start + numPages)) ∧
      ∀ a ∉ frameBytes start numPages, t.mainMemory a = mem a) h ⟨hm₁, ?_, hmem₁⟩ ?_
    · exact ⟨h'.1, h'.2.2⟩
    · simp only [pageSize] at *
      omega
    · rintro r hr t t' ⟨hm, hp, hmem⟩ h
      have hra := haligned r (by simp [hr])
      have hrl := hlen r (by simp [hr])
      obtain ⟨hm', hp'⟩ := Read.physAddr_of_perform h hm hle
      refine ⟨hm', ?_, Read.unchanged_of_perform h hm hle (fun _ hlt => ?_) (fun _ => ?_) hmem⟩
      · rcases hp' with ⟨h₀, hlt, hp'⟩ | ⟨-, hp'⟩
        · have := hpage r hra hrl hlt
          simp only [pageSize] at *
          omega
        · exact hp' ▸ hp
      · have := hpage r hra hrl hlt
        omega
      · omega

/-- A segment that does not begin at the start of a page: no read goes beyond the end. -/
theorem unchanged_of_not_aligned (hv : seg.virtualAddr.toInt % pageSize ≠ 0)
    (hfits : seg.Fits numPages) (hle : start + numPages ≤ numPhysPages)
    (hm : MapsTo start numPages t.pageTable)
    (hmem : ∀ a ∉ frameBytes start numPages, t.mainMemory a = mem a)
    (h : seg.reads.foldlM (Read.perform executable numPages) t = .ok t') :
    MapsTo start numPages t'.pageTable ∧
      ∀ a ∉ frameBytes start numPages, t'.mainMemory a = mem a := by
  obtain ⟨⟨h₀, h₁⟩, hends⟩ := hfits
  obtain ⟨hhead, hpages⟩ := hends.resolve_left hv
  have hread : ∀ r ∈ seg.reads,
      0 ≤ r.addr ∧ r.addr < pageSize * numPages ∧ r.addr + r.len ≤ pageSize * numPages := by
    intro r hr
    have haddr : ∀ k : ℕ, k ≤ seg.size.toNat / pageSize →
        (seg.pageRead k).addr = seg.virtualAddr.toInt + pageSize * k := fun k hk => by
      apply int32_of_isInt32
      unfold IsInt32
      simp only [pageSize, numPhysPages] at *
      omega
    obtain rfl | ⟨k, hk, rfl⟩ := (mem_reads_iff_of_not_aligned hv).1 hr
    · have := haddr 0 (Nat.zero_le _)
      simp only [this]
      simp only [pageSize] at *
      omega
    · have := haddr k hk.le
      simp only [this]
      simp only [pageRead, pageSize] at *
      omega
  refine foldlM_invariant (fun t : Target => MapsTo start numPages t.pageTable ∧
    ∀ a ∉ frameBytes start numPages, t.mainMemory a = mem a) h ⟨hm, hmem⟩ ?_
  rintro r hr t t' ⟨hm, hmem⟩ h
  obtain ⟨h₀, h₁, hend⟩ := hread r hr
  exact ⟨(Read.physAddr_of_perform h hm hle).1, Read.unchanged_of_perform h hm hle
    (fun _ _ => hend) (fun hout => by omega) hmem⟩

end Segment

/-! ### Harmless headers -/

variable {noffH : NoffHeader} {seg : Segment} {mem mem' : MainMemory} {junk : ℤ}
  {pageTable pageTable' : List TranslationEntry}

theorem loadNonempty_of_pos (hz : 0 < seg.size.toInt) :
    loadNonempty executable numPages seg junk pageTable mem =
      (seg.reads.foldlM (Read.perform executable numPages) ⟨junk, pageTable, mem⟩).map
        fun t => (t.pageTable, t.mainMemory) := by
  rw [← loadSegment_eq_foldlM hz, loadNonempty, if_pos hz]
  cases loadSegment executable numPages seg junk pageTable mem <;> rfl

theorem readable_of_loadNonempty
    (h : loadNonempty executable numPages seg junk pageTable mem = .ok (pageTable', mem'))
    (hz : 0 < seg.size.toInt) : seg.Readable := by
  rw [loadNonempty_of_pos hz, map_eq_ok] at h
  obtain ⟨t, ht, -⟩ := h
  exact (Segment.readable_iff hz).1
    (foldlM_forall _ ht fun _ _ _ hr => (Read.perform_eq_ok hr).1)

/-- A segment that fits is loaded into the frames of the address space. -/
theorem unchanged_of_loadNonempty (mem₀ : MainMemory)
    (h : loadNonempty executable numPages seg junk pageTable mem = .ok (pageTable', mem'))
    (hfits : 0 < seg.size.toInt → seg.Fits numPages)
    (hframes : ∀ f ∈ Set.Ico start (start + numPages), f < numPhysPages)
    (hm : MapsTo start numPages pageTable)
    (hmem : ∀ a ∉ frameBytes start numPages, mem a = mem₀ a) :
    MapsTo start numPages pageTable' ∧ ∀ a ∉ frameBytes start numPages, mem' a = mem₀ a := by
  by_cases hz : 0 < seg.size.toInt
  · have hin := (hfits hz).1
    have hle : start + numPages ≤ numPhysPages := by
      have := hframes (start + numPages - 1)
      simp only [Set.mem_Ico, pageSize, numPhysPages] at *
      omega
    rw [loadNonempty_of_pos hz, map_eq_ok] at h
    obtain ⟨t, ht, hres⟩ := h
    simp only [Prod.mk.injEq] at hres
    rw [← hres.1, ← hres.2]
    by_cases hv : seg.virtualAddr.toInt % pageSize = 0
    · exact Segment.unchanged_of_aligned hz hv hin hle hm hmem ht
    · exact Segment.unchanged_of_not_aligned hv (hfits hz) hle hm hmem ht
  · rw [loadNonempty, if_neg hz] at h
    cases h
    exact ⟨hm, hmem⟩

theorem newPageTable_succ (start n : ℕ) : newPageTable start (n + 1) =
    newPageTable start n ++ [⟨n, n + start, true, false, false, false⟩] := by
  simp [newPageTable, List.range_succ]

/-- The constructor clears its frames. -/
theorem clearPages_newPageTable (start n : ℕ) (mem : MainMemory) (a : ℕ) :
    clearPages (newPageTable start n) mem a =
      if pageSize * start ≤ a ∧ a < pageSize * (start + n) then 0 else mem a := by
  induction n with
  | zero =>
    rw [if_neg (by simp only [pageSize]; omega)]
    rfl
  | succ n ih =>
    rw [newPageTable_succ, clearPages, List.foldl_append]
    change MainMemory.bzero (clearPages (newPageTable start n) mem) ((n + start) * pageSize)
      pageSize a = _
    simp only [MainMemory.bzero, ih, pageSize]
    split_ifs <;> first | rfl | omega

/-- What a construction that finds space does. -/
theorem AddrSpace.new_eq_ok_of_spaceFound {memAll : MemAll} {junk : Junk}
    {map map' : BitMap numPhysPages} {space : AddrSpace}
    (hnoffH : readHeader executable junk.stack = .ok noffH)
    (h : AddrSpace.new memAll executable junk map mem = .ok (space, map', mem'))
    (hf : space.spaceFound = true) :
    space.numPages = noffH.numPages ∧ ∃ pageTable₁ mem₁ pageTable₂,
      loadNonempty executable noffH.numPages noffH.code junk.codePhysAddr
        (newPageTable space.startHere noffH.numPages)
        (clearPages (newPageTable space.startHere noffH.numPages) mem) = .ok (pageTable₁, mem₁) ∧
      loadNonempty executable noffH.numPages noffH.initData junk.dataPhysAddr pageTable₁ mem₁ =
        .ok (pageTable₂, mem') ∧ space.pageTable = some pageTable₂ := by
  simp only [AddrSpace.new, hnoffH, ok_bind, bind_eq_ok] at h
  obtain ⟨found, -, h⟩ := h
  split_ifs at h
  · simp only [bind_eq_ok] at h
    obtain ⟨map₁, -, ⟨pageTable₁, mem₁⟩, h₁, ⟨pageTable₂, mem₂⟩, h₂, h⟩ := h
    cases h
    exact ⟨rfl, pageTable₁, mem₁, pageTable₂, h₁, h₂, rfl⟩
  · cases h
    cases hf

theorem mem_loaded : seg ∈ noffH.loaded ↔
    (seg = noffH.code ∨ seg = noffH.initData) ∧ 0 < seg.size.toInt := by
  simp [NoffHeader.loaded]

/-- Loading an executable with a harmless header. -/
theorem AddrSpace.changed_of_new {memAll : MemAll} {junk : Junk} {map map' : BitMap numPhysPages}
    {space : AddrSpace} (h : noffH.StaysInside)
    (hnoffH : readHeader executable junk.stack = .ok noffH)
    (hnew : AddrSpace.new memAll executable junk map mem = .ok (space, map', mem')) {a : ℕ}
    (ha : a < memorySize) (hne : mem' a ≠ mem a) : a / pageSize ∈ marked map' \ marked map := by
  obtain ⟨hframes, hmarked, -, hsame⟩ := AddrSpace.new_eq_ok hnew
  cases hf : space.spaceFound with
  | false => exact absurd (congrFun (hsame hf).2 a) hne
  | true =>
    obtain ⟨hn, pageTable₁, mem₁, pageTable₂, h₁, h₂, -⟩ :=
      AddrSpace.new_eq_ok_of_spaceFound hnoffH hnew hf
    rw [AddrSpace.frames_of_spaceFound hf, hn] at hframes hmarked
    have hown : a / pageSize ∈ Set.Ico space.startHere (space.startHere + noffH.numPages) →
        a / pageSize ∈ marked map' \ marked map := fun hown =>
      ⟨hmarked ▸ .inr hown, (hframes _ hown).2⟩
    refine hown ?_
    rcases h with hbig | ⟨seg, hseg, hread⟩ | hfits
    · have hpos : 0 < noffH.numPages := by
        simp only [numPhysPages] at hbig
        omega
      have := (hframes (space.startHere + noffH.numPages - 1) ⟨by omega, by omega⟩).1
      simp only [Set.mem_Ico, pageSize, numPhysPages, memorySize] at *
      omega
    · obtain ⟨rfl | rfl, hz⟩ := mem_loaded.1 hseg
      · exact absurd (readable_of_loadNonempty h₁ hz) hread
      · exact absurd (readable_of_loadNonempty h₂ hz) hread
    · by_contra hnot
      have hbytes : a ∉ frameBytes space.startHere noffH.numPages := fun hin => hnot (by
        simp only [frameBytes, Set.mem_Ico, pageSize] at *
        omega)
      have hfr := fun f hf => (hframes f hf).1
      obtain ⟨hm₁, hmem₁⟩ := unchanged_of_loadNonempty mem h₁
        (fun hz => hfits _ (mem_loaded.2 ⟨.inl rfl, hz⟩)) hfr (mapsTo_newPageTable _ _)
        fun b hb => by
          rw [clearPages_newPageTable]
          exact if_neg hb
      obtain ⟨-, hmem₂⟩ := unchanged_of_loadNonempty mem h₂
        (fun hz => hfits _ (mem_loaded.2 ⟨.inr rfl, hz⟩)) hfr hm₁ hmem₁
      exact hne (hmem₂ a hbytes)

/-- It changes the memory of the new address space only. -/
theorem leavesOthersAlone_of_staysInside (h : noffH.StaysInside) : LeavesOthersAlone noffH :=
  fun _ _ _ _ _ hnoffH _ _ _ hnew _ => AddrSpace.changed_of_new h hnoffH hnew

end Nachos.UserProg
