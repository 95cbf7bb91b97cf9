import Mathlib.Order.CompletePartialOrder
import Mathlib.Order.Interval.Set.Basic
import Nachos.Foundations.Partition
import Nachos.Foundations.Run
import Nachos.UserProg.AddrSpace

/-!
# Frames have one owner

The constructor of `AddrSpace` marks the frames that a policy has found, the destructor unmarks
them. Over any history of constructions and destructions, the marked frames are those of the live
address spaces, and no two of these share a frame.

## Main definitions

* `marked`, `AddrSpace.frames`: the marked frames, and the frames of an address space.
* `memorySystem`: histories of constructions and destructions.

## Main results

* `AddrSpace.new_eq_ok`, `AddrSpace.delete_spec`: which frames the constructor marks and the
  destructor unmarks.
* `partition_of_reachable`: the live address spaces have the marked frames, one owner each.
* `frame_ownership_of_reachable`: with what follows for the next construction and destruction.
-/

namespace Nachos.UserProg

open Foundations StepSystem Function

variable {memAll : MemAll} {executable : OpenFile} {junk : Junk} {map map' : BitMap numPhysPages}
  {mem mem' : MainMemory} {space space' : AddrSpace} {startHere numPages : ℕ}

/-! ### Marking and clearing -/

/-- The marked frames. -/
def marked (map : BitMap numPhysPages) : Set ℕ := {f | map.isSet f = true}

/-- The frames of an address space, if it has any. -/
def AddrSpace.frames (space : AddrSpace) : Set ℕ :=
  {f | space.spaceFound = true ∧ f ∈ Set.Ico space.startHere (space.startHere + space.numPages)}

theorem lt_of_mem_marked {f : ℕ} (h : f ∈ marked map) : f < numPhysPages := BitMap.lt_of_isSet h

theorem AddrSpace.frames_of_spaceFound (h : space.spaceFound = true) :
    space.frames = Set.Ico space.startHere (space.startHere + space.numPages) := by
  ext f
  simp [frames, h]

theorem markFrames_spec (h : ∀ f ∈ Set.Ico startHere (startHere + numPages), f < numPhysPages)
    (map : BitMap numPhysPages) :
    ∃ map', markFrames startHere numPages map = .ok map' ∧
      marked map' = marked map ∪ Set.Ico startHere (startHere + numPages) := by
  refine forLoop_spec
    (fun n (map' : BitMap numPhysPages) =>
      marked map' = marked map ∪ Set.Ico startHere (startHere + n))
    (by simp) fun i map' hi hmap => ?_
  have hlt : i + startHere < numPhysPages := h _ ⟨by omega, by omega⟩
  refine ⟨_, BitMap.mark_of_lt _ hlt, ?_⟩
  ext f
  have hf : map'.isSet f = true ↔ f ∈ marked map ∪ Set.Ico startHere (startHere + i) := by
    rw [← hmap]
    rfl
  simp only [marked, Set.mem_ofPred_eq, BitMap.isSet_setBit, Bool.or_eq_true, decide_eq_true_eq,
    hf, Set.mem_union, Set.mem_Ico]
  have hor : i + startHere = f ∨ startHere ≤ f ∧ f < startHere + i ↔
      startHere ≤ f ∧ f < startHere + (i + 1) := by omega
  tauto

theorem clearFrames_spec (h : ∀ f ∈ Set.Ico startHere (startHere + numPages), f < numPhysPages)
    (map : BitMap numPhysPages) :
    ∃ map', clearFrames startHere numPages map = .ok map' ∧
      marked map' = marked map \ Set.Ico startHere (startHere + numPages) := by
  refine forLoop_spec
    (fun n (map' : BitMap numPhysPages) =>
      marked map' = marked map \ Set.Ico startHere (startHere + n))
    (by simp) fun i map' hi hmap => ?_
  have hlt : i + startHere < numPhysPages := h _ ⟨by omega, by omega⟩
  refine ⟨_, BitMap.clear_of_lt _ hlt, ?_⟩
  ext f
  have hf : map'.isSet f = true ↔ f ∈ marked map \ Set.Ico startHere (startHere + i) := by
    rw [← hmap]
    rfl
  simp only [marked, Set.mem_ofPred_eq, BitMap.isSet_clearBit, Bool.and_eq_true, Bool.not_eq_true',
    decide_eq_false_iff_not, hf, Set.mem_sdiff, Set.mem_Ico]
  have hor : i + startHere = f ∨ startHere ≤ f ∧ f < startHere + i ↔
      startHere ≤ f ∧ f < startHere + (i + 1) := by omega
  tauto

/-! ### The constructor and the destructor -/

/-- What a policy returns, in terms of frames. -/
theorem memoryAllocation_frames (memAll : MemAll) (map : BitMap numPhysPages) (numPages : ℕ) :
    ∃ found, memoryAllocation memAll map numPages = .ok found ∧ (found.spaceFound = true →
      ∀ f ∈ Set.Ico found.startHere (found.startHere + numPages),
        f < numPhysPages ∧ f ∉ marked map) := by
  obtain ⟨found, hfound, hrun⟩ := memoryAllocation_spec memAll map numPages
  refine ⟨found, hfound, fun hf f ⟨hle, hlt⟩ => ?_⟩
  obtain ⟨hlt', hfree⟩ := hrun hf (f - found.startHere) (by omega)
  rw [show found.startHere + (f - found.startHere) = f by omega] at hlt' hfree
  exact ⟨hlt', by simp [marked, hfree]⟩

/-- A construction that succeeds either changes nothing, or marks the frames of the new address
space, which were free. -/
theorem AddrSpace.new_eq_ok
    (h : AddrSpace.new memAll executable junk map mem = .ok (space, map', mem')) :
    (∀ f ∈ space.frames, f < numPhysPages ∧ f ∉ marked map) ∧
      marked map' = marked map ∪ space.frames ∧
      (space.spaceFound = true → space.pageTable.isSome) ∧
      (space.spaceFound = false → map' = map ∧ mem' = mem) := by
  simp only [AddrSpace.new, bind_eq_ok] at h
  obtain ⟨noffH, -, found, hfound, h⟩ := h
  obtain ⟨found', hfound', hrun⟩ := memoryAllocation_frames memAll map noffH.numPages
  obtain rfl : found' = found := Except.ok.inj (hfound'.symm.trans hfound)
  split_ifs at h with hf
  · simp only [bind_eq_ok] at h
    obtain ⟨map₁, hmap₁, ⟨table₁, mem₁⟩, -, ⟨table₂, mem₂⟩, -, h⟩ := h
    cases h
    obtain ⟨map₂, hmap₂, hmarked⟩ := markFrames_spec (fun f hf' => (hrun hf f hf').1) map
    obtain rfl : map₂ = map' := Except.ok.inj (hmap₂.symm.trans hmap₁)
    simp only [AddrSpace.frames_of_spaceFound]
    exact ⟨hrun hf, hmarked, fun _ => rfl, nofun⟩
  · cases h
    simp [AddrSpace.frames]

/-- The destructor of an address space with a page table and existing frames unmarks these. -/
theorem AddrSpace.delete_spec (hf : space.spaceFound = true) (ht : space.pageTable.isSome)
    (h : ∀ f ∈ space.frames, f < numPhysPages) (map : BitMap numPhysPages) (mem : MainMemory) :
    ∃ space' map' mem', space.delete map mem = .ok (space', map', mem') ∧
      marked map' = marked map \ space.frames := by
  obtain ⟨table, ht⟩ := Option.isSome_iff_exists.1 ht
  rw [frames_of_spaceFound hf] at h ⊢
  obtain ⟨map', hmap', hmarked⟩ := clearFrames_spec h map
  exact ⟨_, map', _, by simp only [AddrSpace.delete, ht, hmap', ok_bind]; rfl, hmarked⟩

/-! ### Histories -/

/-- Main memory, its bitmap, and the live address spaces, named by their processes. -/
structure MemoryState where
  map : BitMap numPhysPages
  mainMemory : MainMemory
  space : ℕ → Option AddrSpace

/-- What happens to the memory: a process is loaded, a process exits, or programs run and change
the contents of main memory. -/
inductive MemoryInput
  | construct (pid : ℕ) (memAll : MemAll) (executable : OpenFile) (junk : Junk)
  | destroy (pid : ℕ)
  | run (mainMemory : MainMemory)

namespace MemoryState

/-- One event. A process is loaded once, and exits only if memory was found for it. -/
def step (s : MemoryState) : MemoryInput → Except Fault MemoryState
  | .construct pid memAll executable junk =>
    match s.space pid with
    | some _ => .error .disabled
    | none => do
      let (space, map, mem) ← AddrSpace.new memAll executable junk s.map s.mainMemory
      return ⟨map, mem, update s.space pid (some space)⟩
  | .destroy pid =>
    match s.space pid with
    | none => .error .disabled
    | some space =>
      if space.spaceFound then do
        let (_, map, mem) ← space.delete s.map s.mainMemory
        return ⟨map, mem, update s.space pid none⟩
      else .error .disabled
  | .run mem => .ok { s with mainMemory := mem }

/-- The frames of a process. -/
def frames (s : MemoryState) (pid : ℕ) : Set ℕ := {f | ∃ space ∈ s.space pid, f ∈ space.frames}

/-- The invariant: the live address spaces have the marked frames, one owner each, and those for
which memory was found have a page table. -/
structure Owned (s : MemoryState) : Prop where
  partition : Partition (marked s.map) s.frames
  pageTable : ∀ pid, ∀ space ∈ s.space pid, space.spaceFound = true → space.pageTable.isSome

variable {s s' : MemoryState} {pid : ℕ}

theorem frames_of_eq_some (h : s.space pid = some space) : s.frames pid = space.frames := by
  ext f
  simp [frames, h]

theorem frames_of_eq_none (h : s.space pid = none) : s.frames pid = ∅ := by
  ext f
  simp [frames, h]

theorem frames_update (map : BitMap numPhysPages) (mem : MainMemory) (o : Option AddrSpace) :
    (⟨map, mem, update s.space pid o⟩ : MemoryState).frames =
      update s.frames pid {f | ∃ space ∈ o, f ∈ space.frames} := by
  ext p f
  by_cases hp : p = pid
  · subst hp
    simp [frames]
  · simp [frames, hp]

theorem Owned.lt (h : s.Owned) (hs : s.space pid = some space) :
    ∀ f ∈ space.frames, f < numPhysPages := fun _ hf =>
  lt_of_mem_marked (h.partition.subset pid (frames_of_eq_some hs ▸ hf))

theorem Owned.construct (h : s.Owned) (hpid : s.space pid = none)
    (hnew : AddrSpace.new memAll executable junk s.map s.mainMemory = .ok (space, map', mem')) :
    (⟨map', mem', update s.space pid (some space)⟩ : MemoryState).Owned := by
  obtain ⟨hfree, hmarked, htable, -⟩ := AddrSpace.new_eq_ok hnew
  refine ⟨?_, fun p sp hsp hf => ?_⟩
  · rw [frames_update, hmarked]
    simpa using h.partition.take (frames_of_eq_none hpid) fun _ hf => (hfree _ hf).2
  · by_cases hp : p = pid
    · subst hp
      obtain rfl : space = sp := by simpa using hsp
      exact htable hf
    · exact h.pageTable p sp (by simpa [hp] using hsp) hf

theorem Owned.destroy (h : s.Owned) (hs : s.space pid = some space)
    (hf : space.spaceFound = true)
    (hdel : space.delete s.map s.mainMemory = .ok (space', map', mem')) :
    (⟨map', mem', update s.space pid none⟩ : MemoryState).Owned := by
  obtain ⟨space₁, map₁, mem₁, hdel₁, hmarked⟩ :=
    AddrSpace.delete_spec hf (h.pageTable pid space hs hf) (h.lt hs) s.map s.mainMemory
  obtain ⟨-, rfl, -⟩ : space₁ = space' ∧ map₁ = map' ∧ mem₁ = mem' := by
    simpa using hdel₁.symm.trans hdel
  refine ⟨?_, fun p sp hsp hf => ?_⟩
  · rw [frames_update, hmarked, ← frames_of_eq_some hs]
    simpa using h.partition.release pid
  · by_cases hp : p = pid
    · simp [hp] at hsp
    · exact h.pageTable p sp (by simpa [hp] using hsp) hf

/-- As long as no address space exists, no frame is marked. -/
theorem owned_of_empty (hmap : ∀ f, s.map.isSet f = false) (hspace : ∀ pid, s.space pid = none) :
    s.Owned := by
  refine ⟨⟨?_, ?_⟩, ?_⟩
  · simp [frames, hspace]
  · simp [frames, hspace, marked, hmap]
  · simp [hspace]

/-- An event keeps the invariant. -/
theorem Owned.step {i : MemoryInput} (h : s.Owned) (hs : s.step i = .ok s') : s'.Owned := by
  cases i with
  | construct pid memAll executable junk =>
    simp only [MemoryState.step] at hs
    split at hs
    · cases hs
    · rename_i hpid
      obtain ⟨⟨space, map', mem'⟩, hnew, hs⟩ := bind_eq_ok.1 hs
      obtain rfl := Except.ok.inj hs
      exact h.construct hpid hnew
  | destroy pid =>
    simp only [MemoryState.step] at hs
    split at hs
    · cases hs
    · rename_i space hspace
      split_ifs at hs with hf
      obtain ⟨⟨space', map', mem'⟩, hdel, hs⟩ := bind_eq_ok.1 hs
      obtain rfl := Except.ok.inj hs
      exact h.destroy hspace hf hdel
  | run mem =>
    obtain rfl := Except.ok.inj hs
    exact ⟨h.partition, h.pageTable⟩

end MemoryState

/-- Histories that begin with the creation of `MainMemMap` for the first process. Main memory is
initially zero; no address space exists. -/
def memorySystem : StepSystem MemoryState MemoryInput Fault where
  init s := (∃ words, BitMap.new words = .ok s.map) ∧ s.mainMemory = (fun _ => 0) ∧
    s.space = fun _ => none
  step := MemoryState.step

variable {C : MemoryState → MemoryInput → Prop} {s : MemoryState}

/-- In every reachable state the live address spaces have the marked frames, one owner each. -/
theorem owned_of_reachable (h : memorySystem.Reachable C s) : s.Owned := by
  refine h.invariant MemoryState.Owned ?_ fun _ _ _ hs _ hstep => hs.step hstep
  rintro s ⟨⟨words, hmap⟩, -, hspace⟩
  obtain ⟨map, hmap', hclear⟩ := BitMap.new_spec words
  obtain rfl : map = s.map := Except.ok.inj (hmap'.symm.trans hmap)
  exact MemoryState.owned_of_empty hclear fun _ => congrFun hspace _

/-- Whatever address spaces have been constructed and destroyed: the frames of the live ones exist
and are pairwise disjoint, and a frame is marked if and only if it belongs to exactly one of them.
In such a state the allocation and the marking of the frames for the next address space do not
fail an assertion; a construction marks frames that were free, none if it found no space; and the
destruction of an address space succeeds and unmarks the frames that its construction marked. -/
theorem frame_ownership_of_reachable (s : MemoryState) (h : memorySystem.Reachable Always s) :
    (∀ pid, ∀ f ∈ s.frames pid, f < numPhysPages) ∧
    (∀ pid pid', pid ≠ pid' → Disjoint (s.frames pid) (s.frames pid')) ∧
    (∀ f, s.map.isSet f = true ↔ ∃! pid, f ∈ s.frames pid) ∧
    (∀ memAll numPages, ∃ found, memoryAllocation memAll s.map numPages = .ok found ∧
      (found.spaceFound = true →
        ∃ map', markFrames found.startHere numPages s.map = .ok map')) ∧
    (∀ memAll executable junk space map' mem',
      AddrSpace.new memAll executable junk s.map s.mainMemory = .ok (space, map', mem') →
      (space.spaceFound = false → map' = s.map) ∧ Disjoint (marked s.map) space.frames ∧
        marked map' = marked s.map ∪ space.frames) ∧
    ∀ pid, ∀ space ∈ s.space pid, space.spaceFound = true →
      ∃ space' map' mem', space.delete s.map s.mainMemory = .ok (space', map', mem') ∧
        marked map' = marked s.map \ space.frames := by
  have hs := owned_of_reachable h
  refine ⟨?_, ?_, hs.partition.mem_iff_existsUnique, ?_, ?_, ?_⟩
  · exact fun pid f hf => lt_of_mem_marked (hs.partition.subset pid hf)
  · exact fun pid pid' hne => Set.disjoint_left.2 fun f hf hf' => hne (hs.partition.disjoint hf hf')
  · intro memAll numPages
    obtain ⟨found, hfound, hrun⟩ := memoryAllocation_frames memAll s.map numPages
    refine ⟨found, hfound, fun hf => ?_⟩
    obtain ⟨map', hmap', -⟩ := markFrames_spec (fun f hf' => (hrun hf f hf').1) s.map
    exact ⟨map', hmap'⟩
  · intro memAll executable junk space map' mem' hnew
    obtain ⟨hfree, hmarked, -, hsame⟩ := AddrSpace.new_eq_ok hnew
    exact ⟨fun hf => (hsame hf).1, Set.disjoint_right.2 fun _ hf => (hfree _ hf).2, hmarked⟩
  · exact fun pid space hspace hf => AddrSpace.delete_spec hf (hs.pageTable pid space hspace hf)
      (hs.lt hspace) s.map s.mainMemory

/-- Three processes have been loaded, and the second one has exited. -/
theorem frame_ownership_of_three_processes :
    ∃ s, memorySystem.Reachable Always s ∧ s.frames 1 = Set.Ico 0 4 ∧ s.space 2 = none ∧
      s.frames 3 = Set.Ico 8 12 ∧ Disjoint (s.frames 1) (s.frames 3) ∧
      (∃! pid, 3 ∈ s.frames pid) ∧ (∃! pid, 9 ∈ s.frames pid) ∧ ¬∃! pid, 5 ∈ s.frames pid := by
  obtain ⟨s, hs, ht⟩ := exists_reachable_of_runInputs (S := memorySystem)
    (show memorySystem.init ⟨⟨#v[0]⟩, fun _ => 0, fun _ => none⟩ from
      ⟨⟨#v[0], by decide +kernel⟩, rfl, rfl⟩)
    [.construct 1 .firstFit emptyProgram ⟨fun _ => 0, 0, 0⟩,
      .construct 2 .firstFit emptyProgram ⟨fun _ => 0, 0, 0⟩,
      .construct 3 .firstFit emptyProgram ⟨fun _ => 0, 0, 0⟩, .destroy 2]
    (fun s => s.map.isSet 3 && s.map.isSet 9 && !s.map.isSet 5 && (s.space 2).isNone &&
      ((s.space 1).any fun space => space.spaceFound && space.startHere == 0 &&
        space.numPages == 4) &&
      (s.space 3).any fun space => space.spaceFound && space.startHere == 8 &&
        space.numPages == 4)
    (by decide +kernel)
  simp only [Bool.and_eq_true, Bool.not_eq_true', Option.isNone_iff_eq_none, Option.any_eq_true,
    beq_iff_eq] at ht
  obtain ⟨⟨⟨⟨⟨h3, h9⟩, h5⟩, hnone⟩, space, hspace, ⟨hf, hstart⟩, hpages⟩,
    space', hspace', ⟨hf', hstart'⟩, hpages'⟩ := ht
  obtain ⟨-, hdisjoint, howner, -⟩ := frame_ownership_of_reachable s hs
  refine ⟨s, hs, ?_, hnone, ?_, hdisjoint 1 3 (by decide), (howner 3).1 h3, (howner 9).1 h9,
    fun h => ?_⟩
  · rw [MemoryState.frames_of_eq_some hspace, AddrSpace.frames_of_spaceFound hf, hstart, hpages]
  · rw [MemoryState.frames_of_eq_some hspace', AddrSpace.frames_of_spaceFound hf', hstart',
      hpages']
  · rw [(howner 5).2 h] at h5
    cases h5

end Nachos.UserProg
