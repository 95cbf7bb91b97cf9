import Nachos.Machine.Relocation
import Nachos.UserProg.MemoryIsolation

/-!
# Programs do not depend on their placement

The allocation policies put an address space where there is room. The page table makes up for this:
the bytes of the executable are at the same virtual addresses wherever the frames are, so that a
program runs in the same way in both places, whatever others do between its instructions, as long
as they spare its frames.

## Main results

* `sameView_of_new`: two address spaces of an executable look the same to it.
* `placement_independence`: what is seen of a program does not depend on the allocation policy, on
  the frames that are taken, on what was in memory, nor on others.
-/

namespace Nachos.UserProg

open Foundations

variable {memAll memAll' : MemAll} {executable : OpenFile} {junk junk' : Junk}
  {map map' map₁ map₁' : BitMap numPhysPages} {mem mem' mem₁ mem₁' : MainMemory}
  {noffH : NoffHeader} {space space' : AddrSpace} {pageTable pageTable' : List TranslationEntry}

/-! ### The contents of two address spaces -/

/-- A segment is loaded at the same distance from the first frame. -/
theorem Segment.contents_move (seg : Segment) (executable : OpenFile) {start start' o : ℕ}
    (h : mem (pageSize * start + o) = mem' (pageSize * start' + o)) :
    seg.contents executable start mem (pageSize * start + o) =
      seg.contents executable start' mem' (pageSize * start' + o) := by
  have hsub (start : ℕ) : pageSize * start + o - seg.base start = o - seg.virtualAddr.toNat :=
    Nat.add_sub_add_left ..
  simp only [Segment.contents, hsub]
  simp only [Segment.base, Nat.add_le_add_iff_left, Nat.add_assoc, Nat.add_lt_add_iff_left]
  rw [h]

/-- Two address spaces of an executable contain the same bytes. -/
theorem NoffHeader.contents_move (noffH : NoffHeader) (executable : OpenFile)
    (mem mem' : MainMemory) (start start' : ℕ) {o : ℕ} (ho : o < pageSize * noffH.numPages) :
    noffH.contents executable start mem (pageSize * start + o) =
      noffH.contents executable start' mem' (pageSize * start' + o) := by
  refine Segment.contents_move _ _ (Segment.contents_move _ _ ?_)
  have hlt : (o : ℤ) < pageSize * noffH.numPages := mod_cast ho
  have hcast (start : ℕ) : ((pageSize * start + o : ℕ) : ℤ) = pageSize * start + o := by
    simp only [pageSize]
    omega
  rw [NoffHeader.clear_of_inside mem (hcast start) (Int.natCast_nonneg o) hlt,
    NoffHeader.clear_of_inside mem' (hcast start') (Int.natCast_nonneg o) hlt]

/-! ### The page tables -/

/-- What the constructor leaves, when it has found room. -/
theorem AddrSpace.loaded_of_new (hnoffH : readHeader executable junk.stack = .ok noffH)
    (hin : ∀ seg ∈ noffH.loaded, seg.Inside noffH.numPages)
    (h : AddrSpace.new memAll executable junk map mem = .ok (space, map₁, mem₁))
    (hp : pageTable ∈ space.pageTable) :
    space.numPages = noffH.numPages ∧
      TableBelow (newPageTable space.startHere space.numPages) pageTable ∧
      (∀ f ∈ Set.Ico space.startHere (space.startHere + space.numPages), f < numPhysPages) ∧
      mem₁ = noffH.contents executable space.startHere mem := by
  have hframes := (AddrSpace.new_eq_ok h).1
  simp only [AddrSpace.new, hnoffH, ok_bind, bind_eq_ok] at h
  obtain ⟨found, -, h⟩ := h
  split_ifs at h
  · simp only [bind_eq_ok] at h
    obtain ⟨map₁, -, ⟨table₁, memCode⟩, h₁, ⟨table₂, memData⟩, h₂, h⟩ := h
    cases h
    cases Option.mem_some_iff.1 hp
    rw [AddrSpace.frames_of_spaceFound rfl] at hframes
    have hfr := fun f hf => (hframes f hf).1
    obtain ⟨-, hload₁, hload₂⟩ := noffH.loads_contents hin hfr h₁ h₂
    refine ⟨rfl, (below_of_loadNonempty h₁).trans (below_of_loadNonempty h₂), hfr, ?_⟩
    have hcode := congrArg Prod.snd (Except.ok.inj ((hload₁ _ _).symm.trans h₁))
    have hdata := congrArg Prod.snd (Except.ok.inj ((hload₂ _ _).symm.trans h₂))
    exact hdata.symm.trans
      (congrArg (noffH.initData.contents executable found.startHere) hcode.symm)
  · cases h
    cases hp

theorem getElem?_newPageTable {start numPages i : ℕ} {e : TranslationEntry} :
    (newPageTable start numPages)[i]? = some e ↔
      i < numPages ∧ ⟨i, i + start, true, false, false, false⟩ = e := by
  simp [newPageTable, List.getElem?_eq_some_iff]

theorem physicalPages_newPageTable (start numPages : ℕ) :
    (physicalPages (newPageTable start numPages)).Nodup := by
  rw [physicalPages, newPageTable, List.map_map]
  exact List.nodup_range.map fun i j h => Nat.add_right_cancel h

/-- Two address spaces with the same contents, before bits of their page tables have been set. -/
theorem sameView_newPageTable (registers : Registers) {start start' numPages : ℕ}
    (hframes : ∀ f ∈ Set.Ico start (start + numPages), f < numPhysPages)
    (hframes' : ∀ f ∈ Set.Ico start' (start' + numPages), f < numPhysPages)
    (hbytes : ∀ o < pageSize * numPages,
      mem' (pageSize * start' + o) = mem (pageSize * start + o)) :
    Machine.SameView ⟨registers, newPageTable start numPages, mem⟩
      ⟨registers, newPageTable start' numPages, mem'⟩ where
  registers := rfl
  length := by simp [newPageTable]
  entry he hf := by
    obtain ⟨hi, rfl⟩ := getElem?_newPageTable.1 he
    obtain ⟨-, rfl⟩ := getElem?_newPageTable.1 hf
    refine ⟨rfl, rfl, iff_of_false ?_ ?_⟩
    · exact not_le.2 (hframes' _ ⟨Nat.le_add_left .., by dsimp only; omega⟩)
    · exact not_le.2 (hframes _ ⟨Nat.le_add_left .., by dsimp only; omega⟩)
  bytes he hf o ho := by
    obtain ⟨hi, rfl⟩ := getElem?_newPageTable.1 he
    obtain ⟨-, rfl⟩ := getElem?_newPageTable.1 hf
    have haddr (i start : ℕ) : (i + start) * pageSize + o =
        pageSize * start + (i * pageSize + o) := by
      simp only [pageSize]
      omega
    simp only [MainMemory.pageByte, haddr]
    refine hbytes _ ?_
    simp only [pageSize] at *
    omega
  nodup := physicalPages_newPageTable ..
  nodup' := physicalPages_newPageTable ..

/-- Two address spaces of an executable look the same to it. -/
theorem sameView_of_new (hnoffH : readHeader executable junk.stack = .ok noffH)
    (hnoffH' : readHeader executable junk'.stack = .ok noffH)
    (hin : ∀ seg ∈ noffH.loaded, seg.Inside noffH.numPages)
    (h : AddrSpace.new memAll executable junk map mem = .ok (space, map₁, mem₁))
    (h' : AddrSpace.new memAll' executable junk' map' mem' = .ok (space', map₁', mem₁'))
    (hp : pageTable ∈ space.pageTable) (hp' : pageTable' ∈ space'.pageTable) :
    Machine.SameView ⟨space.initRegisters, pageTable, mem₁⟩
      ⟨space'.initRegisters, pageTable', mem₁'⟩ := by
  obtain ⟨hn, hbelow, hframes, rfl⟩ := AddrSpace.loaded_of_new hnoffH hin h hp
  obtain ⟨hn', hbelow', hframes', rfl⟩ := AddrSpace.loaded_of_new hnoffH' hin h' hp'
  have hnum : space'.numPages = space.numPages := hn'.trans hn.symm
  have hregisters : space'.initRegisters = space.initRegisters := by
    simp only [AddrSpace.initRegisters, hnum]
  rw [hnum] at hbelow' hframes'
  rw [hregisters]
  refine (sameView_newPageTable space.initRegisters hframes hframes' fun o ho => ?_).withPageTable
    hbelow hbelow'
  exact (noffH.contents_move executable mem mem' space.startHere space'.startHere (hn ▸ ho)).symm

/-- What is seen of a program does not depend on where the allocation policy has put it, nor on what
was in memory, nor on what other programs do between its instructions. -/
theorem placement_independence (memAll memAll' : MemAll) (executable : OpenFile)
    (junk junk' : Junk) (map map' map₁ map₁' : BitMap numPhysPages)
    (mem mem' mem₁ mem₁' : MainMemory) (noffH : NoffHeader) (space space' : AddrSpace)
    (pageTable pageTable' : List TranslationEntry)
    (hnoffH : readHeader executable junk.stack = .ok noffH)
    (hnoffH' : readHeader executable junk'.stack = .ok noffH)
    (hin : ∀ seg ∈ noffH.loaded, seg.Inside noffH.numPages)
    (h : AddrSpace.new memAll executable junk map mem = .ok (space, map₁, mem₁))
    (h' : AddrSpace.new memAll' executable junk' map' mem' = .ok (space', map₁', mem₁'))
    (hp : pageTable ∈ space.pageTable) (hp' : pageTable' ∈ space'.pageTable)
    (kernel : ℕ → Except Trap Unit → Cpu Unit) (hkernel : ∀ i result, UserLevel (kernel i result))
    (others others' : Machine.Others) (n : ℕ) :
    Machine.trace kernel others n ⟨space.initRegisters, pageTable, mem₁⟩ =
      Machine.trace kernel others' n ⟨space'.initRegisters, pageTable', mem₁'⟩ :=
  (sameView_of_new hnoffH hnoffH' hin h h' hp hp').trace_eq hkernel others others' n

/-- Others that clear all other pages. -/
def clearOthers : Machine.Others where
  change _ m :=
    { m with mainMemory := fun a =>
      if a / pageSize ∈ physicalPages m.pageTable then m.mainMemory a else 0 }
  spares _ _ := ⟨rfl, rfl, fun _ ha => if_pos ha⟩

/-- A kernel that records the address of an exception and leaves the instruction to be repeated. -/
def recordTrap (_ : ℕ) : Except Trap Unit → Cpu Unit
  | .error (.exception _ badVAddr) =>
    Computation.write fun m => { m with registers := { m.registers with badVAddr } }
  | _ => pure ()

theorem userLevel_recordTrap (i : ℕ) (result : Except Trap Unit) :
    UserLevel (recordTrap i result) := by
  rcases result with ⟨which, badVAddr⟩ | f | _
  · exact .write fun registers => { registers with badVAddr }
  · exact .pure ()
  · exact .pure ()

/-- `dataProgram` at the first frame, and at the second one. After the load there is another
instruction before the byte is in its register. -/
theorem placement_independence_of_dataProgram :
    ∃ space space' map₁ map₁' mem₁ mem₁' pageTable pageTable',
      AddrSpace.new .firstFit dataProgram ⟨fun _ => 0, 0, 0⟩ ⟨Vector.replicate _ 0⟩ (fun _ => 0) =
        .ok (space, map₁, mem₁) ∧
      AddrSpace.new .bestFit dataProgram ⟨fun _ => 1, 1, 1⟩ ⟨Vector.replicate _ 1⟩ (fun _ => 1) =
        .ok (space', map₁', mem₁') ∧
      physicalPages pageTable = [0, 1, 2, 3, 4] ∧ physicalPages pageTable' = [1, 2, 3, 4, 5] ∧
      (Machine.trace recordTrap clearOthers 3 ⟨space.initRegisters, pageTable, mem₁⟩).map
        (fun seen => seen.registers.gpr 8) = [0, 5, 5] ∧
      Machine.trace recordTrap clearOthers 1000 ⟨space.initRegisters, pageTable, mem₁⟩ =
        Machine.trace recordTrap clearOthers 1000 ⟨space'.initRegisters, pageTable', mem₁'⟩ := by
  have hok : (AddrSpace.new .firstFit dataProgram ⟨fun _ => 0, 0, 0⟩ ⟨Vector.replicate _ 0⟩
      (fun _ => 0)).toOption.any (fun r => r.1.pageTable.any fun pageTable =>
        decide (physicalPages pageTable = [0, 1, 2, 3, 4] ∧
        (Machine.trace recordTrap clearOthers 3 ⟨r.1.initRegisters, pageTable, r.2.2⟩).map
          (fun seen => seen.registers.gpr 8) = [0, 5, 5])) = true := by decide +kernel
  have hok' : (AddrSpace.new .bestFit dataProgram ⟨fun _ => 1, 1, 1⟩ ⟨Vector.replicate _ 1⟩
      (fun _ => 1)).toOption.any (fun r => r.1.pageTable.any fun pageTable =>
        physicalPages pageTable = [1, 2, 3, 4, 5]) = true := by decide +kernel
  obtain ⟨⟨space, map₁, mem₁⟩, h, htable⟩ := Option.any_eq_true _ _ |>.1 hok
  obtain ⟨⟨space', map₁', mem₁'⟩, h', htable'⟩ := Option.any_eq_true _ _ |>.1 hok'
  obtain ⟨pageTable, hp, hseen⟩ := Option.any_eq_true _ _ |>.1 htable
  obtain ⟨pageTable', hp', hpages'⟩ := Option.any_eq_true _ _ |>.1 htable'
  obtain ⟨hpages, hloaded⟩ := of_decide_eq_true hseen
  have hnew := toOption_eq_some.1 h
  have hnew' := toOption_eq_some.1 h'
  exact ⟨space, space', map₁, map₁', mem₁, mem₁', pageTable, pageTable', hnew, hnew',
    hpages, of_decide_eq_true hpages', hloaded,
    placement_independence .firstFit .bestFit dataProgram ⟨fun _ => 0, 0, 0⟩ ⟨fun _ => 1, 1, 1⟩
      ⟨Vector.replicate _ 0⟩ ⟨Vector.replicate _ 1⟩ map₁ map₁' (fun _ => 0) (fun _ => 1) mem₁ mem₁'
      dataHeader space space' pageTable pageTable'
      (by decide +kernel) (by decide +kernel) inside_of_mem_loaded_dataHeader hnew hnew' hp hp'
      recordTrap userLevel_recordTrap clearOthers clearOthers 1000⟩

end Nachos.UserProg
