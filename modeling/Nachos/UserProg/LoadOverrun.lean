import Mathlib.Data.List.Perm.Subperm
import Nachos.UserProg.LoadIsolation

/-!
# Executables that overwrite the memory of others

For a header that is not harmless there is an executable whose loading changes the first byte
after the frames of the new address space: the bytes of the file after the header go to memory,
and one of them overwrites a byte that does not occur in the file.

## Main definitions

* `NoffHeader.bytes`, `craftedFile`: an executable with a given header.

## Main results

* `Segment.exists_read_beyond`: a segment that does not fit has a read that reaches the end of the
  address space.
* `leavesOthersAlone_iff`: loading leaves the memory of others alone exactly for harmless headers.
* `neighbour_overwritten`: a load that changes the frame of another process.
-/

namespace Nachos.UserProg

open Foundations StepSystem

/-! ### An executable with a given header -/

/-- The bytes of a word, in the order of a little-endian host. -/
def wordBytes (w : BitVec 32) : List (BitVec 8) :=
  [w.extractLsb' 0 8, w.extractLsb' 8 8, w.extractLsb' 16 8, w.extractLsb' 24 8]

def Segment.bytes (seg : Segment) : List (BitVec 8) :=
  wordBytes seg.virtualAddr ++ wordBytes seg.inFileAddr ++ wordBytes seg.size

/-- The bytes of a header. -/
def NoffHeader.bytes (noffH : NoffHeader) : List (BitVec 8) :=
  wordBytes noffH.noffMagic ++ noffH.code.bytes ++ noffH.initData.bytes ++ noffH.uninitData.bytes

theorem append_wordBytes (w : BitVec 32) :
    w.extractLsb' 24 8 ++ w.extractLsb' 16 8 ++ w.extractLsb' 8 8 ++ w.extractLsb' 0 8 = w := by
  apply BitVec.eq_of_getLsbD_eq
  intro i hi
  simp only [BitVec.getLsbD_append, BitVec.getLsbD_extractLsb']
  grind

/-- The constructor reads the header that the file contains. -/
theorem readHeader_bytes {noffH : NoffHeader} (hm : noffH.noffMagic = noffMagic)
    (rest : List (BitVec 8)) (stack : ℕ → BitVec 8) :
    readHeader (noffH.bytes ++ rest) stack = .ok noffH := by
  have hheader : (⟨wordAt (fun i => (noffH.bytes ++ rest).getD i (stack i)) 0,
      segmentAt (fun i => (noffH.bytes ++ rest).getD i (stack i)) 4,
      segmentAt (fun i => (noffH.bytes ++ rest).getD i (stack i)) 16,
      segmentAt (fun i => (noffH.bytes ++ rest).getD i (stack i)) 28⟩ : NoffHeader) = noffH := by
    simp [NoffHeader.bytes, Segment.bytes, wordBytes, wordAt, segmentAt, append_wordBytes]
  have hmagic := congrArg NoffHeader.noffMagic hheader
  simp only [hm] at hmagic
  unfold readHeader
  simp only [hheader, if_pos hmagic]

/-- The largest position at which a read can start. -/
abbrev maxPosition : ℕ := 2 ^ 31

/-- An executable with the given header that is long enough for every read. -/
def craftedFile (noffH : NoffHeader) (len : ℕ) : OpenFile := noffH.bytes ++ List.replicate len 1

/-- Some byte does not occur in the executable. -/
theorem exists_notMem_craftedFile (noffH : NoffHeader) (len : ℕ) :
    ∃ b, b ∉ craftedFile noffH len := by
  by_contra hall
  have hmem : ∀ b, b ∈ noffH.bytes ++ [1] := by
    intro b
    have hb : b ∈ craftedFile noffH len := not_not.1 fun hb => hall ⟨b, hb⟩
    rw [craftedFile, List.mem_append, List.mem_replicate] at hb
    rw [List.mem_append, List.mem_singleton]
    exact hb.imp_right And.right
  have hnodup : ((List.range 256).map (BitVec.ofNat 8)).Nodup := by
    refine List.Nodup.map_on (fun i hi j hj h => ?_) List.nodup_range
    simp only [List.mem_range] at hi hj
    simpa [Nat.mod_eq_of_lt hi, Nat.mod_eq_of_lt hj] using congrArg BitVec.toNat h
  have hle := (hnodup.subperm fun b _ => hmem b).length_le
  simp [NoffHeader.bytes, Segment.bytes, wordBytes] at hle

/-! ### A read that goes beyond the end -/

namespace Segment

variable {seg : Segment} {numPages : ℕ}

theorem addr_pageRead_zero (seg : Segment) : (seg.pageRead 0).addr = seg.virtualAddr.toInt := by
  simp [pageRead, int32_of_isInt32, isInt32_toInt]

/-- The read of a segment goes to an address of the address space and beyond its end, or it goes
where the variable `physAddr` points before any address has been translated. -/
def Beyond (numPages : ℕ) (before : List Read) (r : Read) : Prop :=
  (0 ≤ r.addr ∧ r.addr < pageSize * numPages ∧ pageSize * numPages < r.addr + r.len) ∨
    (∀ q ∈ before ++ [r], q.addr < 0 ∨ pageSize * numPages ≤ q.addr) ∧ 0 < r.len

/-- A segment that begins outside the address space. -/
theorem exists_read_beyond_of_outside (hz : 0 < seg.size.toInt)
    (hout : seg.virtualAddr.toInt < 0 ∨ pageSize * numPages ≤ seg.virtualAddr.toInt) :
    ∃ before r after, seg.reads = before ++ r :: after ∧ Beyond numPages before r := by
  have hsize := size_eq_toNat hz
  have h₀ := addr_pageRead_zero seg
  by_cases hv : seg.virtualAddr.toInt % pageSize = 0
  · unfold reads
    rw [if_pos hv]
    cases hq : seg.size.toNat / pageSize with
    | zero =>
      have hr : seg.size.toNat % pageSize ≠ 0 := by
        simp only [pageSize] at hq ⊢
        omega
      refine ⟨[], { seg.pageRead 0 with len := seg.size.toNat % pageSize }, [], by simp [hr],
        .inr ⟨?_, by simp only; omega⟩⟩
      simpa [h₀] using hout
    | succ q =>
      rw [List.range_succ_eq_map, List.map_cons, List.cons_append]
      refine ⟨[], seg.pageRead 0, _, rfl, .inr ⟨?_, by simp [pageRead]⟩⟩
      simpa [h₀] using hout
  · unfold reads
    rw [if_neg hv]
    by_cases hr : seg.size.toNat % pageSize = 0
    · obtain ⟨q, hq⟩ : ∃ q, seg.size.toNat / pageSize = q + 1 := by
        refine ⟨seg.size.toNat / pageSize - 1, ?_⟩
        simp only [pageSize] at hr ⊢
        omega
      rw [hq, List.range_succ_eq_map, List.map_cons]
      refine ⟨[_], seg.pageRead 0, _, rfl, .inr ⟨?_, by simp [pageRead]⟩⟩
      simpa [h₀] using hout
    · refine ⟨[], _, _, rfl, .inr ⟨?_, by simp only; omega⟩⟩
      simpa [h₀] using hout

/-- A segment that does not begin at the start of a page, and of which a read goes beyond the
end. -/
theorem exists_read_beyond_of_inside (hn : numPages < numPhysPages)
    (hv : seg.virtualAddr.toInt % pageSize ≠ 0)
    (hin : 0 ≤ seg.virtualAddr.toInt ∧ seg.virtualAddr.toInt < pageSize * numPages)
    (hend : pageSize * numPages < seg.virtualAddr.toInt + (seg.size.toNat % pageSize : ℕ) ∨
      pageSize * numPages < seg.virtualAddr.toInt + pageSize * (seg.size.toNat / pageSize : ℕ)) :
    ∃ r ∈ seg.reads, ∀ before, Beyond numPages before r := by
  simp only [mem_reads_iff_of_not_aligned hv]
  rcases hend with hhead | hpages
  · refine ⟨_, .inl rfl, fun _ => .inl ?_⟩
    rw [addr_pageRead_zero]
    exact ⟨hin.1, hin.2, hhead⟩
  · -- the page in which the address space ends
    obtain ⟨v, hvn⟩ := Int.eq_ofNat_of_zero_le hin.1
    have hk : (pageSize * numPages - v) / pageSize < seg.size.toNat / pageSize := by
      simp only [pageSize] at *
      omega
    refine ⟨_, .inr ⟨_, hk, rfl⟩, fun _ => .inl ?_⟩
    have haddr : (seg.pageRead ((pageSize * numPages - v) / pageSize)).addr =
        seg.virtualAddr.toInt + pageSize * ((pageSize * numPages - v) / pageSize : ℕ) := by
      apply int32_of_isInt32
      unfold IsInt32
      simp only [pageSize, numPhysPages] at *
      omega
    rw [haddr]
    simp only [pageRead, pageSize] at *
    omega

/-- A segment that does not fit has a read that reaches the end of the address space. -/
theorem exists_read_beyond (hz : 0 < seg.size.toInt) (hn : numPages < numPhysPages)
    (hfits : ¬seg.Fits numPages) :
    ∃ before r after, seg.reads = before ++ r :: after ∧ Beyond numPages before r := by
  by_cases hout : seg.virtualAddr.toInt < 0 ∨ pageSize * numPages ≤ seg.virtualAddr.toInt
  · exact exists_read_beyond_of_outside hz hout
  · have hin : 0 ≤ seg.virtualAddr.toInt ∧ seg.virtualAddr.toInt < pageSize * numPages := by omega
    have hnot : ¬(seg.virtualAddr.toInt % pageSize = 0 ∨ _) := fun h => hfits ⟨hin, h⟩
    obtain ⟨hv, hend⟩ := not_or.1 hnot
    obtain ⟨r, hr, hbeyond⟩ := exists_read_beyond_of_inside hn hv hin (by omega)
    obtain ⟨before, after, hreads⟩ := List.append_of_mem hr
    exact ⟨before, r, after, hreads, hbeyond before⟩

end Segment

/-! ### Reads of the executable -/

variable {executable : OpenFile} {numPages : ℕ} {t t' : Target} {r : Read}

/-- The page table maps the first frames, and `physAddr` points at most to the end of them. -/
structure Target.Low (numPages : ℕ) (t : Target) : Prop where
  mapsTo : MapsTo 0 numPages t.pageTable
  nonneg : 0 ≤ t.physAddr
  le : t.physAddr ≤ pageSize * numPages

theorem Read.perform_of_translate {which : ExceptionType} {physAddr : ℤ}
    {pageTable : List TranslationEntry} {bytes : List (BitVec 8)}
    (htr : translate r.addr t.physAddr r.len t.pageTable numPages =
      .ok (which, physAddr, pageTable))
    (hread : executable.readAt r.len r.position = .ok bytes)
    (hmem : 0 ≤ physAddr ∧ physAddr + bytes.length ≤ memorySize) :
    Read.perform executable numPages t r =
      .ok ⟨physAddr, pageTable, t.mainMemory.store physAddr.toNat bytes⟩ := by
  simp only [Read.perform, htr, hread, ok_bind]
  exact if_pos (.inr hmem)

/-- In the first frames a read succeeds. -/
theorem Target.Low.perform (ht : t.Low numPages) (hn : numPages < numPhysPages)
    (hlen : r.len ≤ pageSize) (hpos : 0 ≤ r.position) :
    ∃ t', Read.perform executable numPages t r = .ok t' ∧ t'.Low numPages := by
  obtain ⟨bytes, hread, hbytes⟩ :
      ∃ bytes, executable.readAt r.len r.position = .ok bytes ∧ bytes.length ≤ r.len :=
    ⟨_, if_neg (by omega), List.length_take_le _ _⟩
  obtain ⟨hm, h₀, hle⟩ := ht
  by_cases hin : 0 ≤ r.addr ∧ r.addr < pageSize * numPages
  · obtain ⟨pageTable', hm', htr⟩ := translate_of_inside hm (by omega) hin.1 hin.2 t.physAddr r.len
    rw [if_pos (by simp only [memorySize, pageSize, numPhysPages] at *; omega)] at htr
    have hmem : 0 ≤ (pageSize : ℤ) * (0 : ℕ) + r.addr ∧
        (pageSize : ℤ) * (0 : ℕ) + r.addr + bytes.length ≤ memorySize := by
      simp only [memorySize, pageSize, numPhysPages] at *
      omega
    refine ⟨_, Read.perform_of_translate htr hread hmem, hm', hmem.1, ?_⟩
    simp only [pageSize] at *
    omega
  · have hout : r.addr < 0 ∨ pageSize * numPages ≤ r.addr := by omega
    have htr : translate r.addr t.physAddr r.len t.pageTable numPages =
        .ok (.addressErrorException, t.physAddr, t.pageTable) :=
      translate_of_outside hout t.physAddr r.len
    have hmem : 0 ≤ t.physAddr ∧ t.physAddr + bytes.length ≤ memorySize := by
      simp only [memorySize, pageSize, numPhysPages] at *
      omega
    exact ⟨_, Read.perform_of_translate htr hread hmem, hm, h₀, hle⟩

/-- The bytes that a read stores are in the file. -/
private theorem getD_mem {i n m : ℕ} (h : i < ((executable.drop n).take m).length) :
    ((executable.drop n).take m).getD i 0 ∈ executable := by
  rw [List.getD_eq_getElem?_getD, List.getElem?_eq_getElem h, Option.getD_some]
  exact List.mem_of_mem_drop (List.mem_of_mem_take (List.getElem_mem h))

/-- A byte of memory that is in the file stays in the file. -/
theorem Read.mem_of_perform (h : Read.perform executable numPages t r = .ok t') {x : ℕ}
    (hx : t.mainMemory x ∈ executable) : t'.mainMemory x ∈ executable := by
  obtain ⟨-, bytes, hbytes, -, hstore, -⟩ := Read.perform_eq_ok h
  rw [hstore]
  by_cases hin : t'.physAddr.toNat ≤ x ∧ x < t'.physAddr.toNat + bytes.length
  · rw [MainMemory.store_of_mem _ _ hin.1 hin.2]
    subst hbytes
    exact getD_mem (by omega)
  · rwa [MainMemory.store, if_neg hin]

/-- The read stores a byte of the file at `x`. -/
theorem Read.mem_of_perform_of_le (h : Read.perform executable numPages t r = .ok t') {x : ℕ}
    (hfile : r.position + r.len ≤ executable.length) (h₀ : 0 ≤ t'.physAddr)
    (hle : t'.physAddr ≤ x) (hlt : x < t'.physAddr + r.len) : t'.mainMemory x ∈ executable := by
  obtain ⟨hpos, bytes, hbytes, -, hstore, -⟩ := Read.perform_eq_ok h
  have hlen : bytes.length = r.len := by
    rw [hbytes, List.length_take, List.length_drop]
    omega
  rw [hstore, MainMemory.store_of_mem _ _ (by omega) (by omega)]
  subst hbytes
  exact getD_mem (by omega)

/-! ### The other headers -/

variable {noffH : NoffHeader} {seg : Segment} {mem : MainMemory}
  {pageTable : List TranslationEntry}

theorem Read.position_add_len_le (hr : r ∈ seg.reads)
    (hlen : maxPosition + pageSize ≤ executable.length) :
    r.position + r.len ≤ executable.length := by
  have hle := Segment.len_le_of_mem_reads hr
  obtain ⟨k, -, hk⟩ := Segment.exists_of_mem_reads hr
  have hlt : r.position < 2 ^ 31 := hk ▸ (isInt32_int32 _).2
  simp only [maxPosition, pageSize] at *
  omega

/-- A read beyond the end stores a byte of the file there. -/
theorem Segment.Beyond.mem_of_perform {before : List Read} {t₁ : Target}
    (hbeyond : Segment.Beyond numPages before r)
    (hbefore : before.foldlM (Read.perform executable numPages)
      ⟨pageSize * numPages, pageTable, mem⟩ = .ok t₁)
    (hm : MapsTo 0 numPages pageTable) (hn : numPages < numPhysPages) (h₁ : t₁.Low numPages)
    (h : Read.perform executable numPages t₁ r = .ok t')
    (hfile : r.position + r.len ≤ executable.length) :
    t'.mainMemory (pageSize * numPages) ∈ executable := by
  have hp := (Read.physAddr_of_perform h h₁.mapsTo (by omega)).2
  rcases hbeyond with ⟨h₀, hlt, hend⟩ | ⟨hout, hlen⟩
  · have hp' : t'.physAddr = r.addr := by
      simp only [pageSize] at *
      omega
    refine Read.mem_of_perform_of_le h hfile (by omega) ?_ ?_
    · simp only [hp', pageSize] at *
      omega
    · simp only [hp', pageSize] at *
      omega
  · -- no address has been translated yet
    have hinv := foldlM_invariant
      (fun t : Target => MapsTo 0 numPages t.pageTable ∧ t.physAddr = pageSize * numPages)
      hbefore ⟨hm, rfl⟩ fun q hq t t' ⟨hm, hp⟩ hperform => by
        obtain ⟨hm', hp'⟩ := Read.physAddr_of_perform hperform hm (by omega)
        have hq' := hout q (List.mem_append_left _ hq)
        exact ⟨hm', by omega⟩
    have hr := hout r (by simp)
    have hp' : t'.physAddr = pageSize * numPages := by omega
    refine Read.mem_of_perform_of_le h hfile ?_ ?_ ?_
    · simp only [hp', pageSize]
      omega
    · simp only [hp', pageSize]
      omega
    · simp only [hp', pageSize]
      omega

/-- Loading a segment into the first frames succeeds, and stores a byte of the file at the end of
the address space if the segment does not fit. -/
theorem loadNonempty_mem (executable : OpenFile) (mem : MainMemory) (hn : numPages < numPhysPages)
    (hlen : maxPosition + pageSize ≤ executable.length)
    (hread : 0 < seg.size.toInt → seg.Readable) (hm : MapsTo 0 numPages pageTable) :
    ∃ pageTable' mem', loadNonempty executable numPages seg (pageSize * numPages) pageTable mem =
        .ok (pageTable', mem') ∧ MapsTo 0 numPages pageTable' ∧
      (mem (pageSize * numPages) ∈ executable ∨ 0 < seg.size.toInt ∧ ¬seg.Fits numPages →
        mem' (pageSize * numPages) ∈ executable) := by
  by_cases hz : 0 < seg.size.toInt
  · have hpos := (Segment.readable_iff hz).2 (hread hz)
    have hlow : (⟨pageSize * numPages, pageTable, mem⟩ : Target).Low numPages :=
      ⟨hm, by simp only [pageSize]; omega, le_rfl⟩
    have hstep : ∀ r ∈ seg.reads, ∀ t : Target, t.Low numPages →
        ∃ t', Read.perform executable numPages t r = .ok t' ∧ t'.Low numPages :=
      fun r hr t ht => ht.perform hn (Segment.len_le_of_mem_reads hr) (hpos r hr)
    obtain ⟨t', ht', hlow'⟩ := foldlM_spec (Target.Low numPages) hlow hstep
    refine ⟨t'.pageTable, t'.mainMemory, by rw [loadNonempty_of_pos hz, ht', map_ok], hlow'.mapsTo,
      ?_⟩
    have hkeep : ∀ (rs : List Read) (t t' : Target),
        rs.foldlM (Read.perform executable numPages) t = .ok t' →
        t.mainMemory (pageSize * numPages) ∈ executable →
        t'.mainMemory (pageSize * numPages) ∈ executable := fun rs t t' h hx =>
      foldlM_invariant (fun t : Target => t.mainMemory (pageSize * numPages) ∈ executable) h hx
        fun _ _ _ _ hx h => Read.mem_of_perform h hx
    rintro (hx | ⟨-, hfits⟩)
    · exact hkeep _ _ _ ht' hx
    · obtain ⟨before, r, after, hsplit, hbeyond⟩ := Segment.exists_read_beyond hz hn hfits
      rw [hsplit] at ht' hstep
      obtain ⟨t₁, t₂, h₁, h₂, h₃⟩ := exists_of_foldlM_append_cons ht'
      obtain ⟨t₁', h₁', hlow₁⟩ :=
        foldlM_spec (Target.Low numPages) hlow fun r hr => hstep r (List.mem_append_left _ hr)
      obtain rfl : t₁' = t₁ := Except.ok.inj (h₁'.symm.trans h₁)
      have hr : r ∈ seg.reads := by simp [hsplit]
      exact hkeep _ _ _ h₃
        (hbeyond.mem_of_perform h₁ hm hn hlow₁ h₂ (Read.position_add_len_le hr hlen))
  · refine ⟨pageTable, mem, if_neg hz, hm, ?_⟩
    exact fun hx => hx.elim id fun h => absurd h.1 hz

/-- In an empty memory the first frames are free. -/
theorem firstFit_empty : ∀ m < numPhysPages,
    ((firstFit (⟨#v[0]⟩ : BitMap numPhysPages) m).map fun s => (s.spaceFound, s.startHere)) =
      .ok (true, 0) := by
  decide +kernel

/-- A header that is not harmless: some executable with this header overwrites the byte after the
first frames. -/
theorem staysInside_of_leavesOthersAlone (hm : noffH.noffMagic = noffMagic)
    (h : LeavesOthersAlone noffH) : noffH.StaysInside := by
  by_contra hnot
  simp only [NoffHeader.StaysInside, not_or, not_exists, not_and, not_not, not_forall] at hnot
  obtain ⟨hn, hread, seg, hseg, hfits⟩ := hnot
  replace hn : noffH.numPages < numPhysPages := by omega
  obtain ⟨len, hlen⟩ : ∃ len, maxPosition + pageSize ≤ len := ⟨_, le_rfl⟩
  obtain ⟨b, hb⟩ := exists_notMem_craftedFile noffH len
  have hlength : maxPosition + pageSize ≤ (craftedFile noffH len).length := by
    simp only [craftedFile, List.length_append, List.length_replicate]
    omega
  have hreach : memorySystem.Reachable Always ⟨⟨#v[0]⟩, fun _ => b, fun _ => none⟩ :=
    Reachable.step (i := .run fun _ => b)
      (Reachable.init (s := ⟨⟨#v[0]⟩, fun _ => 0, fun _ => none⟩)
        ⟨⟨#v[0], by decide +kernel⟩, rfl, rfl⟩) trivial rfl
  obtain ⟨pageTable₁, mem₁, h₁, hm₁, hx₁⟩ := loadNonempty_mem (craftedFile noffH len)
    (clearPages (newPageTable 0 noffH.numPages) fun _ => b) hn hlength
    (fun hz => hread noffH.code (mem_loaded.2 ⟨.inl rfl, hz⟩)) (mapsTo_newPageTable 0 _)
  obtain ⟨pageTable₂, mem₂, h₂, -, hx₂⟩ := loadNonempty_mem (craftedFile noffH len)
    mem₁ hn hlength
    (fun hz => hread noffH.initData (mem_loaded.2 ⟨.inr rfl, hz⟩)) hm₁
  have hx : mem₂ (pageSize * noffH.numPages) ∈ craftedFile noffH len := by
    obtain ⟨rfl | rfl, hz⟩ := mem_loaded.1 hseg
    · exact hx₂ (.inl (hx₁ (.inr ⟨hz, hfits⟩)))
    · exact hx₂ (.inr ⟨hz, hfits⟩)
  obtain ⟨found, hfound, hstart⟩ := map_eq_ok.1 (firstFit_empty noffH.numPages hn)
  simp only [Prod.mk.injEq] at hstart
  have hframes : ∀ f ∈ Set.Ico 0 (0 + noffH.numPages), f < numPhysPages := fun f hf => by
    have := hf.2
    omega
  obtain ⟨map', hmap', hmarked⟩ := markFrames_spec hframes ⟨#v[0]⟩
  have hnew : AddrSpace.new .firstFit (craftedFile noffH len)
      ⟨fun _ => 0, pageSize * noffH.numPages, pageSize * noffH.numPages⟩ ⟨#v[0]⟩ (fun _ => b) =
      .ok (⟨some pageTable₂, noffH.numPages, 0, true⟩, map', mem₂) := by
    simp only [AddrSpace.new, craftedFile, readHeader_bytes hm, ok_bind, memoryAllocation, hfound,
      hstart, if_true, hmap']
    simp only [craftedFile] at h₁ h₂
    rw [h₁, ok_bind]
    simp only [h₂, ok_bind]
    rfl
  have hown := h _ hreach _ _ _ (readHeader_bytes hm _ _) _ _ _ hnew (pageSize * noffH.numPages)
    (by simp only [memorySize, pageSize]; omega) fun heq => hb (by rwa [heq] at hx)
  have hlt : noffH.numPages ∈ Set.Ico 0 (0 + noffH.numPages) := by
    rw [Nat.mul_div_cancel_left _ (by decide), hmarked] at hown
    exact hown.1.resolve_left hown.2
  exact absurd hlt.2 (by omega)

/-- Loading leaves the memory of others alone exactly for harmless headers. -/
theorem leavesOthersAlone_iff (noffH : NoffHeader) (hm : noffH.noffMagic = noffMagic) :
    LeavesOthersAlone noffH ↔ noffH.StaysInside :=
  ⟨staysInside_of_leavesOthersAlone hm, leavesOthersAlone_of_staysInside⟩

/-- A header with two bytes of code, the second of which is beyond the five pages of the address
space. -/
def overrunning : NoffHeader := ⟨noffMagic, ⟨1279, 0, 2⟩, ⟨0, 0, 0⟩, ⟨0, 0, 0⟩⟩

theorem not_leavesOthersAlone_overrunning : ¬LeavesOthersAlone overrunning := fun h =>
  absurd ((leavesOthersAlone_iff overrunning rfl).1 h) (by decide +kernel)

/-- The first process has exited; loading the program into its frames overwrites the first byte
of the second process. -/
theorem neighbour_overwritten : ∃ s, memorySystem.Reachable Always s ∧ ∃ space map' mem',
    AddrSpace.new .firstFit overrunning.bytes ⟨fun _ => 0, 0, 0⟩ s.map s.mainMemory =
      .ok (space, map', mem') ∧
    mem' 1280 ≠ s.mainMemory 1280 ∧ 1280 / pageSize ∈ s.frames 2 ∧
    1280 / pageSize ∉ marked map' \ marked s.map := by
  obtain ⟨s, hs, ht⟩ := exists_reachable_of_runInputs (S := memorySystem)
    (show memorySystem.init ⟨⟨#v[0]⟩, fun _ => 0, fun _ => none⟩ from
      ⟨⟨#v[0], by decide +kernel⟩, rfl, rfl⟩)
    [.construct 1 .firstFit overrunning.bytes ⟨fun _ => 0, 0, 0⟩,
      .construct 2 .firstFit emptyProgram ⟨fun _ => 0, 0, 0⟩, .destroy 1]
    (fun s => ((AddrSpace.new .firstFit overrunning.bytes ⟨fun _ => 0, 0, 0⟩ s.map
      s.mainMemory).toOption.any fun r => r.2.2 1280 != s.mainMemory 1280) &&
        (s.space 2).any fun space => space.spaceFound && space.startHere == 5 &&
          space.numPages == 4)
    (by decide +kernel)
  simp only [Bool.and_eq_true, Option.any_eq_true, bne_iff_ne, beq_iff_eq] at ht
  obtain ⟨⟨⟨space, map', mem'⟩, hnew, hne⟩, space₂, hspace₂, ⟨hf, hstart⟩, hpages⟩ := ht
  have hframe : 1280 / pageSize ∈ s.frames 2 := by
    rw [MemoryState.frames_of_eq_some hspace₂, AddrSpace.frames_of_spaceFound hf, hstart, hpages]
    decide
  exact ⟨s, hs, space, map', mem', toOption_eq_some.1 hnew, hne, hframe,
    fun h => h.2 ((owned_of_reachable hs).partition.subset 2 hframe)⟩

end Nachos.UserProg
