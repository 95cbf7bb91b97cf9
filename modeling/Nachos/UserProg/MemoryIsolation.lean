import Nachos.Machine.Confinement
import Nachos.UserProg.Processes
import Nachos.UserProg.SegmentContents

/-!
# Processes do not touch the memory of others

The page table of a live address space leads to frames of this address space only. As long as that
is so, the instructions of a process, its system calls and its exit change main memory only in its
own frames, and a process that it loads is put into frames that were free, provided that the
segments of the executable lie inside the new address space.

## Main definitions

* `MemoryState.Mapped`: every page table leads to frames of its address space only.
* `MemoryState.Confined`: the memory of one process may have changed.
* `MemoryState.Spares`: the memory of one process has not changed.

## Main results

* `MemoryState.Mapped.confined`, `MemoryState.Mapped.construct`, `MemoryState.Mapped.destroy`: what
  processes do keeps the invariant.
* `MemoryState.Mapped.spares_confined`, `MemoryState.Mapped.spares_construct`,
  `MemoryState.Mapped.spares_destroy`: what processes do spares the others.
-/

namespace Nachos.UserProg

open Foundations Machine Function

variable {memAll : MemAll} {executable : OpenFile} {junk : Junk} {map map' : BitMap numPhysPages}
  {mem mem' : MainMemory} {space space' : AddrSpace} {pageTable pageTable' : List TranslationEntry}
  {numPages : ℕ}

/-! ### Page tables that are loaded -/

/-- `AddrSpace::Translate` sets bits of the page table only. -/
theorem below_of_translate {virtAddr physAddr physAddr' size : ℤ} {which : ExceptionType}
    (h : translate virtAddr physAddr size pageTable numPages = .ok (which, physAddr', pageTable')) :
    TableBelow pageTable pageTable' := by
  dsimp only [translate] at h
  split_ifs at h
  · cases h
    exact .refl _
  · cases h
    exact .refl _
  cases he : pageTable[virtAddr.toNat / pageSize]? with
  | none => simp [he] at h
  | some entry =>
    simp only [he] at h
    split_ifs at h
    · cases h
      exact .refl _
    · cases h
      exact .refl _
    · cases h
      exact .set he ⟨rfl, rfl, rfl, rfl, fun _ => rfl, id⟩

theorem below_of_loadNonempty {seg : Segment} {physAddr : ℤ}
    (h : loadNonempty executable numPages seg physAddr pageTable mem = .ok (pageTable', mem')) :
    TableBelow pageTable pageTable' := by
  by_cases hz : 0 < seg.size.toInt
  · rw [loadNonempty_of_pos hz, map_eq_ok] at h
    obtain ⟨t, ht, hres⟩ := h
    obtain ⟨rfl, -⟩ := Prod.mk.inj hres
    refine foldlM_invariant (fun t : Target => TableBelow pageTable t.pageTable) ht (.refl _)
      fun t r t' hr hbelow hperform => ?_
    obtain ⟨-, _, -, -, -, which, htranslate⟩ := Read.perform_eq_ok hperform
    exact hbelow.trans (below_of_translate htranslate)
  · rw [loadNonempty, if_neg hz] at h
    cases h
    exact .refl _

/-- The page table of a new address space leads to its frames. -/
theorem AddrSpace.pages_of_new
    (h : AddrSpace.new memAll executable junk map mem = .ok (space, map', mem')) :
    ∀ pageTable ∈ space.pageTable, ∀ p ∈ physicalPages pageTable, p ∈ space.frames := by
  intro pageTable hp p hmem
  simp only [AddrSpace.new, bind_eq_ok] at h
  obtain ⟨noffH, -, found, -, h⟩ := h
  split_ifs at h
  · simp only [bind_eq_ok] at h
    obtain ⟨map₁, -, ⟨pageTable₁, mem₁⟩, h₁, ⟨pageTable₂, mem₂⟩, h₂, h⟩ := h
    cases h
    obtain rfl := Option.some.inj hp
    have hbelow := (below_of_loadNonempty h₁).trans (below_of_loadNonempty h₂)
    rw [hbelow.physicalPages_eq, physicalPages, newPageTable, List.map_map, List.mem_map] at hmem
    obtain ⟨i, hi, rfl⟩ := hmem
    have hlt := List.mem_range.1 hi
    exact ⟨rfl, Nat.le_add_left .., by simp only [Function.comp_apply]; omega⟩
  · cases h
    cases hp

/-- Segments that lie inside the address space are harmless. -/
theorem NoffHeader.staysInside_of_inside {noffH : NoffHeader}
    (h : ∀ seg ∈ noffH.loaded, seg.Inside noffH.numPages) : noffH.StaysInside := by
  refine .inr (.inr fun seg hseg => ?_)
  obtain ⟨hle, hlt⟩ := h seg hseg
  obtain ⟨-, hz⟩ := mem_loaded.1 hseg
  have hsize := Segment.size_eq_toNat hz
  refine ⟨⟨hle, by omega⟩, .inr ?_⟩
  simp only [pageSize] at *
  omega

/-- The destructor changes main memory only in the pages of the page table. -/
theorem clearPages_of_notMem {a : ℕ} (h : a / pageSize ∉ physicalPages pageTable) :
    clearPages pageTable mem a = mem a := by
  induction pageTable generalizing mem with
  | nil => rfl
  | cons entry pageTable ih =>
    obtain ⟨hne, hnot⟩ := not_or.1 (mt List.mem_cons.2 h)
    refine (ih hnot).trans (MainMemory.bzero_of_notMem _ fun ⟨hle, hlt⟩ => hne ?_)
    simp only [pageSize] at *
    omega

theorem AddrSpace.unchanged_of_delete
    (h : space.delete map mem = .ok (space', map', mem')) {a : ℕ}
    (ha : ∀ pageTable ∈ space.pageTable, a / pageSize ∉ physicalPages pageTable) :
    mem' a = mem a := by
  unfold AddrSpace.delete at h
  cases hp : space.pageTable with
  | none => simp [hp] at h
  | some pageTable =>
    simp only [hp, bind_eq_ok] at h
    obtain ⟨map₁, -, h⟩ := h
    cases h
    refine clearPages_of_notMem fun hmem => ha pageTable hp ?_
    rw [physicalPages, List.map_take] at hmem
    exact List.mem_of_mem_take hmem

/-! ### The memory of all processes -/

/-- What remains of an address space when the bits of its page table are forgotten. -/
def AddrSpace.footprint (space : AddrSpace) : Option (List ℕ) × ℕ × ℕ × Bool :=
  (space.pageTable.map physicalPages, space.numPages, space.startHere, space.spaceFound)

theorem AddrSpace.frames_of_footprint (h : space'.footprint = space.footprint) :
    space'.frames = space.frames := by
  simp only [AddrSpace.footprint, Prod.mk.injEq] at h
  obtain ⟨-, hn, hs, hf⟩ := h
  unfold AddrSpace.frames
  rw [hn, hs, hf]

namespace MemoryState

variable {s s' s'' : MemoryState} {t p : ℕ}

/-- Every live address space has its frames for itself, and every page table leads to frames of its
address space only. -/
structure Mapped (s : MemoryState) : Prop where
  owned : s.Owned
  pages : ∀ t, ∀ space ∈ s.space t, ∀ pageTable ∈ space.pageTable,
    ∀ p ∈ physicalPages pageTable, p ∈ space.frames

/-- At most the memory of the process `t` has changed, and in its page table at most bits. -/
structure Confined (t : ℕ) (s s' : MemoryState) : Prop where
  map : s'.map = s.map
  other : ∀ u ≠ t, s'.space u = s.space u
  self : (s'.space t).map AddrSpace.footprint = (s.space t).map AddrSpace.footprint
  bytes : ∀ a, a / pageSize ∉ s.frames t → s'.mainMemory a = s.mainMemory a

/-- The page table of the process `p`, and the bytes in its frames, are as they were. -/
structure Spares (p : ℕ) (s s' : MemoryState) : Prop where
  space : s'.space p = s.space p
  bytes : ∀ a, a / pageSize ∈ s.frames p → s'.mainMemory a = s.mainMemory a

theorem mapped_of_empty (hmap : ∀ f, s.map.isSet f = false) (hspace : ∀ t, s.space t = none) :
    s.Mapped :=
  ⟨owned_of_empty hmap hspace, fun t _ hs => nomatch (hspace t).symm.trans hs⟩

theorem frames_congr (h : s'.space p = s.space p) : s'.frames p = s.frames p := by
  simp only [frames, h]

theorem Spares.refl (p : ℕ) (s : MemoryState) : Spares p s s := ⟨rfl, fun _ _ => rfl⟩

theorem Spares.trans (h : Spares p s s') (h' : Spares p s' s'') : Spares p s s'' := by
  refine ⟨h'.space.trans h.space, fun a ha => (h'.bytes a ?_).trans (h.bytes a ha)⟩
  rwa [frames_congr h.space]

theorem Confined.footprint (h : Confined t s s') (u : ℕ) :
    (s'.space u).map AddrSpace.footprint = (s.space u).map AddrSpace.footprint := by
  by_cases hu : u = t
  · exact hu ▸ h.self
  · rw [h.other u hu]

theorem Confined.frames (h : Confined t s s') : s'.frames = s.frames := by
  funext u
  have hu := h.footprint u
  cases hs : s.space u with
  | none =>
    rw [hs, Option.map_none, Option.map_eq_none_iff] at hu
    rw [frames_of_eq_none hs, frames_of_eq_none hu]
  | some space =>
    rw [hs, Option.map_some, Option.map_eq_some_iff] at hu
    obtain ⟨space', hs', hfoot⟩ := hu
    rw [frames_of_eq_some hs, frames_of_eq_some hs', AddrSpace.frames_of_footprint hfoot]

theorem Confined.trans (h : Confined t s s') (h' : Confined t s' s'') : Confined t s s'' := by
  refine ⟨h'.map.trans h.map, fun u hu => (h'.other u hu).trans (h.other u hu),
    h'.self.trans h.self, fun a ha => (h'.bytes a ?_).trans (h.bytes a ha)⟩
  rwa [h.frames]

/-- What changes the memory of one process only keeps the invariant. -/
theorem Mapped.confined (h : s.Mapped) (hc : Confined t s s') : s'.Mapped := by
  have hsome {u : ℕ} {space' : AddrSpace} (hs' : space' ∈ s'.space u) :
      ∃ space, s.space u = some space ∧ space'.footprint = space.footprint := by
    have hu := hc.footprint u
    rw [Option.mem_def.1 hs', Option.map_some, eq_comm, Option.map_eq_some_iff] at hu
    obtain ⟨space, hs, hfoot⟩ := hu
    exact ⟨space, hs, hfoot.symm⟩
  refine ⟨⟨?_, fun u space' hs' hf => ?_⟩, fun u space' hs' pageTable' hp' q hq => ?_⟩
  · rw [hc.map, hc.frames]
    exact h.owned.partition
  · obtain ⟨space, hs, hfoot⟩ := hsome hs'
    simp only [AddrSpace.footprint, Prod.mk.injEq] at hfoot
    have hisSome := congrArg Option.isSome hfoot.1
    rw [Option.isSome_map, Option.isSome_map] at hisSome
    rw [hisSome]
    exact h.owned.pageTable u space hs (hfoot.2.2.2 ▸ hf)
  · obtain ⟨space, hs, hfoot⟩ := hsome hs'
    rw [AddrSpace.frames_of_footprint hfoot]
    simp only [AddrSpace.footprint, Prod.mk.injEq] at hfoot
    have hp := hfoot.1
    rw [Option.mem_def.1 hp', Option.map_some, eq_comm, Option.map_eq_some_iff] at hp
    obtain ⟨pageTable, hp, hpages⟩ := hp
    exact h.pages u space hs pageTable hp q (hpages ▸ hq)

/-- The frames of other processes are others. -/
theorem Mapped.notMem_frames (h : s.Mapped) (hne : p ≠ t) {f : ℕ} (hf : f ∈ s.frames p) :
    f ∉ s.frames t := fun hf' => hne (h.owned.partition.disjoint hf hf')

theorem Mapped.spares_confined (h : s.Mapped) (hc : Confined t s s') (hne : p ≠ t) :
    Spares p s s' :=
  ⟨hc.other p hne, fun a ha => hc.bytes a (h.notMem_frames hne ha)⟩

/-- A new process. -/
theorem Mapped.construct (h : s.Mapped) (ht : s.space t = none)
    (hnew : AddrSpace.new memAll executable junk s.map s.mainMemory = .ok (space, map', mem')) :
    (⟨map', mem', update s.space t (some space)⟩ : MemoryState).Mapped := by
  refine ⟨h.owned.construct ht hnew, fun u space' hs' => ?_⟩
  by_cases hu : u = t
  · subst hu
    obtain rfl : space = space' := by simpa using hs'
    exact AddrSpace.pages_of_new hnew
  · exact h.pages u space' (by simpa [hu] using hs')

theorem Mapped.spares_construct (h : s.Mapped)
    (hin : ∀ noffH, readHeader executable junk.stack = .ok noffH →
      ∀ seg ∈ noffH.loaded, seg.Inside noffH.numPages)
    (hnew : AddrSpace.new memAll executable junk s.map s.mainMemory = .ok (space, map', mem'))
    (hne : p ≠ t) : Spares p s ⟨map', mem', update s.space t (some space)⟩ := by
  refine ⟨update_of_ne hne _ _, fun a ha => ?_⟩
  by_contra hchanged
  obtain ⟨noffH, hnoffH, -⟩ := bind_eq_ok.1 hnew
  have hmarked : a / pageSize ∈ marked s.map := h.owned.partition.subset p ha
  have hlt : a < memorySize := by
    have := lt_of_mem_marked hmarked
    simp only [pageSize, numPhysPages, memorySize] at *
    omega
  exact (AddrSpace.changed_of_new (NoffHeader.staysInside_of_inside (hin noffH hnoffH)) hnoffH hnew
    hlt hchanged).2 hmarked

/-- A process exits. -/
theorem Mapped.destroy (h : s.Mapped) (hs : s.space t = some space)
    (hf : space.spaceFound = true)
    (hdel : space.delete s.map s.mainMemory = .ok (space', map', mem')) :
    (⟨map', mem', update s.space t none⟩ : MemoryState).Mapped := by
  refine ⟨h.owned.destroy hs hf hdel, fun u space' hs' => ?_⟩
  by_cases hu : u = t
  · simp [hu] at hs'
  · exact h.pages u space' (by simpa [hu] using hs')

theorem Mapped.spares_destroy (h : s.Mapped) (hs : s.space t = some space)
    (hdel : space.delete s.map s.mainMemory = .ok (space', map', mem')) (hne : p ≠ t) :
    Spares p s ⟨map', mem', update s.space t none⟩ := by
  refine ⟨update_of_ne hne _ _, fun a ha => ?_⟩
  refine AddrSpace.unchanged_of_delete hdel fun pageTable hp hmem => ?_
  exact h.notMem_frames hne ha (frames_of_eq_some hs ▸ h.pages t space hs pageTable hp _ hmem)

end MemoryState

end Nachos.UserProg
