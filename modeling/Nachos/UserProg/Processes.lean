import Nachos.UserProg.Syscalls

/-!
# What a user instruction does to the processes

Most of what a process does between two ticks of the clock concerns the machine only. This file
says which calls issue from an instruction, and which of the variables of the kernel change with
them.

## Main definitions

* `SameProcesses`: two states that differ in the machine only.
* `Reads`: what reading memory on behalf of a system call does to the machine.
* `Effect`: what an instruction does.

## Main results

* `effect_of_instruction`: an instruction has one of these effects.
* `load_eq_ok`, `exit_eq_ok`: what `SC_Exec` and `SC_Exit` do to the list of processes and to the
  memory.
-/

namespace Nachos.UserProg

open Foundations Threads Machine Function

variable {s s' s'' : UserState} {m m' : Machine} {t : ℕ} {memAll : MemAll} {isMain : Bool}
  {input : UserInput} {calls : List UserCall}

/-! ### States that differ in the machine -/

/-- What remains of an address space when the contents of its page table are forgotten. -/
def AddrSpace.outline (space : AddrSpace) : AddrSpace :=
  { space with pageTable := space.pageTable.map fun _ => [] }

/-- The two states differ in the machine only, to which the contents of page tables belong. -/
structure SameProcesses (s s' : UserState) : Prop where
  installed : s'.installed = s.installed
  userRegisters : s'.userRegisters = s.userRegisters
  processId : s'.processId = s.processId
  numProcess : s'.numProcess = s.numProcess
  pcb : s'.pcb = s.pcb
  exited : s'.exited = s.exited
  map : s'.memory.map = s.memory.map
  outline : ∀ t, (s'.memory.space t).map AddrSpace.outline =
    (s.memory.space t).map AddrSpace.outline

namespace SameProcesses

theorem refl (s : UserState) : SameProcesses s s :=
  ⟨rfl, rfl, rfl, rfl, rfl, rfl, rfl, fun _ => rfl⟩

theorem trans (h : SameProcesses s s') (h' : SameProcesses s' s'') : SameProcesses s s'' :=
  ⟨h'.installed.trans h.installed, h'.userRegisters.trans h.userRegisters,
    h'.processId.trans h.processId, h'.numProcess.trans h.numProcess, h'.pcb.trans h.pcb,
    h'.exited.trans h.exited, h'.map.trans h.map, fun t => (h'.outline t).trans (h.outline t)⟩

theorem mapRegisters (f : Machine → Machine) (s : UserState) :
    SameProcesses s (s.mapRegisters f) :=
  ⟨rfl, rfl, rfl, rfl, rfl, rfl, rfl, fun _ => rfl⟩

theorem result (value : Word) (s : UserState) : SameProcesses s (s.result value) :=
  mapRegisters _ s

end SameProcesses

/-- An instruction needs a page table. -/
theorem UserState.machine_eq_ok : s.machine = .ok m ↔ ∃ t space pageTable,
    s.installed = some t ∧ s.memory.space t = some space ∧ space.pageTable = some pageTable ∧
      m = ⟨s.registers, pageTable, s.memory.mainMemory⟩ := by
  unfold UserState.machine
  cases hi : s.installed with
  | none => simp
  | some t =>
    cases hs : s.memory.space t with
    | none => simp [hs]
    | some space =>
      cases hp : space.pageTable with
      | none => simp [hs, hp]
      | some pageTable => simp [hs, hp, eq_comm]

theorem SameProcesses.setMachine (h : s.machine = .ok m) (m' : Machine) :
    SameProcesses s (s.setMachine m') := by
  obtain ⟨t, space, pageTable, hi, hs, hp, -⟩ := UserState.machine_eq_ok.1 h
  refine ⟨rfl, rfl, rfl, rfl, rfl, rfl, rfl, fun u => ?_⟩
  by_cases hu : u = t
  · subst hu
    simp [UserState.setMachine, hi, hs, hp, AddrSpace.outline]
  · simp [UserState.setMachine, hi, hu]

/-- The machine is found as it was left. -/
theorem UserState.machine_setMachine (h : s.machine = .ok m) (m' : Machine) :
    (s.setMachine m').machine = .ok m' := by
  obtain ⟨t, space, pageTable, hi, hs, hp, -⟩ := machine_eq_ok.1 h
  refine machine_eq_ok.2 ⟨t, { space with pageTable := some m'.pageTable }, m'.pageTable, hi, ?_,
    rfl, rfl⟩
  simp [UserState.setMachine, hi, hs]

@[simp]
theorem UserState.setMachine_registers (s : UserState) (m : Machine) :
    (s.setMachine m).registers = m.registers := rfl

@[simp]
theorem UserState.setMachine_pcb (s : UserState) (m : Machine) : (s.setMachine m).pcb = s.pcb := rfl

@[simp]
theorem UserState.setMachine_processId (s : UserState) (m : Machine) :
    (s.setMachine m).processId = s.processId := rfl

theorem UserState.createId_eq_ok : s.createId = .ok s' ↔
    s.processId + 1 < 2 ^ 31 ∧ { s with processId := s.processId + 1 } = s' := by
  rw [UserState.createId]
  split_ifs with h
  · exact ⟨fun he => ⟨h, Except.ok.inj he⟩, fun he => congrArg _ he.2⟩
  · exact ⟨nofun, fun he => absurd he.1 h⟩

/-! ### Reading the name of a file -/

/-- The handler changes nothing, unless it ends the simulation or performs a system call. -/
theorem eq_of_exceptionHandler {f : Fault} {which : ExceptionType}
    (h : exceptionHandler isMain (fun _ => .error f) which m = .ok m') : m' = m := by
  by_cases ha : Aborts isMain which
  · rw [exceptionHandler_of_aborts ha] at h
    cases h
  · by_cases hw : which = .syscallException
    · subst hw
      cases h
    · rw [exceptionHandler_of_not_aborts ha hw] at h
      exact (Except.ok.inj h).symm

/-- From `m` to `m'` the machine has read memory. If it has not got a value, it has raised an
exception. -/
def Reads {α : Type} (m : Machine) (o : Option α) (m' : Machine) : Prop :=
  m.Below m' ∨ o = none ∧ ∃ m₁ badVAddr, m.Below m₁ ∧ m' = m₁.trap badVAddr

theorem Reads.below {α : Type} {a : α} (h : Reads m (some a) m') : m.Below m' :=
  h.resolve_right fun h => nomatch h.1

/-- A value is read, and then others. -/
theorem Reads.trans {α β : Type} {a : α} {o : Option β} {m₁ : Machine} (h : Reads m (some a) m₁)
    (h' : Reads m₁ o m') : Reads m o m' :=
  h'.imp (IsTrans.trans _ _ _ h.below)
    fun ⟨ho, n, badVAddr, hn, hm'⟩ => ⟨ho, n, badVAddr, IsTrans.trans _ _ _ h.below hn, hm'⟩

theorem Reads.none {α β : Type} (h : Reads m (none : Option α) m') :
    Reads m (none : Option β) m' := h.imp_right fun h => ⟨rfl, h.2⟩

section Name

variable {addr value : Word} {filename : List (BitVec 8)} {o : Option (List (BitVec 8))}

theorem reads_of_readByte {o : Option Word} (h : readByte isMain addr m = .ok (o, m')) :
    Reads m o m' := by
  have hobs : Observes Below (readMem addr .one) := inferInstance
  unfold readByte at h
  split at h
  · rename_i hread
    cases h
    exact .inl (hobs.above hread)
  · rename_i which badVAddr m₁ hread
    obtain ⟨m₂, hraise, heq⟩ := map_eq_ok.1 h
    cases heq
    exact .inr ⟨rfl, m₁, badVAddr, hobs.above hread, eq_of_exceptionHandler hraise⟩
  · cases h

theorem reads_of_readName {room : ℕ}
    (h : readName isMain room addr value filename m = .ok (o, m')) : Reads m o m' := by
  induction room generalizing addr value filename m with
  | zero =>
    unfold readName at h
    by_cases hv : value = 0
    · rw [if_pos hv] at h
      split_ifs at h
      cases h
      exact .inl (refl _)
    · rw [if_neg hv] at h
      cases h
      exact .inl (refl _)
  | succ room ih =>
    unfold readName at h
    split_ifs at h
    · cases h
      exact .inl (refl _)
    · obtain ⟨⟨next, m₁⟩, hbyte, h⟩ := bind_eq_ok.1 h
      cases next with
      | none =>
        cases h
        exact (reads_of_readByte hbyte).none
      | some next => exact (reads_of_readByte hbyte).trans (ih h)

/-- Reading the name of a file does not change registers, unless it raises an exception. -/
theorem reads_of_fileName (h : fileName isMain addr m = .ok (o, m')) : Reads m o m' := by
  obtain ⟨⟨value, m₁⟩, hbyte, h⟩ := bind_eq_ok.1 h
  cases value with
  | none =>
    cases h
    exact (reads_of_readByte hbyte).none
  | some value => exact (reads_of_readByte hbyte).trans (reads_of_readName h)

end Name

/-! ### The effects of an instruction -/

/-- What an instruction of the process `t` does. -/
inductive Effect (memAll : MemAll) (t : ℕ) (input : UserInput) (s : UserState) :
    UserState → List UserCall → Prop
  /-- An instruction, an exception or a system call that concerns the machine only. -/
  | machine {s' : UserState} (h : SameProcesses s s') : Effect memAll t input s s' []
  /-- `Yield`. -/
  | yield {s' : UserState} (h : SameProcesses s s') :
    Effect memAll t input s s' [.yield, .code .yielded]
  /-- `Join` for a process that is in the list. -/
  | join {s' : UserState} {childPID : ℤ} {a b : ℕ} (h : SameProcesses s s')
    (ha : s.pcb.list.returnElement childPID = .ok (some a))
    (hvalid : (s.pcb.list.element a).valid = true)
    (hb : s.pcb.list.returnElement (s.pcb.list.element a).parentPID = .ok (some b)) :
    Effect memAll t input s s' [.p (.process b), .code (.joined childPID)]
  /-- `Exec` without a file to load. -/
  | execFailed {s' : UserState} (hlt : s.processId + 1 < 2 ^ 31)
    (h : SameProcesses { s with processId := s.processId + 1 } s') :
    Effect memAll t input s s' []
  /-- `Exec` with a file. -/
  | load {s₁ s' : UserState} {calls : List UserCall} (file : OpenFile)
    (hlt : s.processId + 1 < 2 ^ 31)
    (h : SameProcesses { s with processId := s.processId + 1 } s₁)
    (hload : load memAll t file input s₁ = .ok (s', calls)) : Effect memAll t input s s' calls
  /-- `Exit`. -/
  | exit {s₁ s' : UserState} {calls : List UserCall} (h : SameProcesses s s₁)
    (hexit : exit t input s₁ = .ok (s', calls)) : Effect memAll t input s s' calls

/-- The ways in which `SC_Exec` goes. -/
theorem exec_eq_ok (h : exec memAll isMain t input s = .ok (s', calls)) :
    s.processId + 1 < 2 ^ 31 ∧ ∃ m filename m',
      ({ s with processId := s.processId + 1 } : UserState).machine = .ok m ∧
      fileName isMain (m.registers.gpr 4) m = .ok (filename, m') ∧
      let s₁ := ({ s with processId := s.processId + 1 } : UserState).setMachine m'
      (filename = none ∧ s' = s₁.result (BitVec.ofNat 32 (s.processId + 1)) ∧ calls = [] ∨
        ∃ name, filename = some name ∧
          (input.executable = none ∧ s' = s₁.mapRegisters advancePC ∧ calls = [] ∨
            ∃ file, input.executable = some file ∧
              load memAll t file input s₁ = .ok (s', calls))) := by
  obtain ⟨s₁, hs₁, h⟩ := bind_eq_ok.1 h
  obtain ⟨hlt, rfl⟩ := UserState.createId_eq_ok.1 hs₁
  obtain ⟨m, hm, h⟩ := bind_eq_ok.1 h
  obtain ⟨⟨filename, m'⟩, hname, h⟩ := bind_eq_ok.1 h
  refine ⟨hlt, m, filename, m', hm, hname, ?_⟩
  cases filename with
  | none =>
    cases h
    exact .inl ⟨rfl, rfl, rfl⟩
  | some name =>
    refine .inr ⟨name, rfl, ?_⟩
    cases hfile : input.executable with
    | none =>
      simp only [hfile] at h
      cases h
      exact .inl ⟨rfl, rfl, rfl⟩
    | some file =>
      simp only [hfile] at h
      exact .inr ⟨file, rfl, h⟩

theorem effect_of_exec
    (h : exec memAll isMain t input s = .ok (s', calls)) : Effect memAll t input s s' calls := by
  obtain ⟨hlt, m, filename, m', hm, -, h⟩ := exec_eq_ok h
  have hsame := SameProcesses.setMachine hm m'
  obtain ⟨-, rfl, rfl⟩ | ⟨name, -, ⟨-, rfl, rfl⟩ | ⟨file, -, hload⟩⟩ := h
  · exact .execFailed hlt (hsame.trans (.result _ _))
  · exact .execFailed hlt (hsame.trans (.mapRegisters _ _))
  · exact .load file hlt hsame hload

theorem effect_of_join (h : join s = .ok (s', calls)) : Effect memAll t input s s' calls := by
  obtain ⟨o, ha, h⟩ := bind_eq_ok.1 h
  cases o with
  | none =>
    cases h
    exact .machine (.result _ _)
  | some a =>
    dsimp only at h
    split_ifs at h with hvalid
    · obtain ⟨o, hb, h⟩ := bind_eq_ok.1 h
      cases o with
      | none => cases h
      | some b =>
        cases h
        exact .join (.refl _) ha hvalid hb
    · cases h
      exact .machine (.mapRegisters _ _)

theorem Effect.of_same {s₁ : UserState} (h : SameProcesses s s₁)
    (he : Effect memAll t input s₁ s' calls) : Effect memAll t input s s' calls := by
  have hcreate : SameProcesses { s with processId := s.processId + 1 }
      { s₁ with processId := s₁.processId + 1 } :=
    ⟨h.installed, h.userRegisters, by simp [h.processId], h.numProcess, h.pcb, h.exited, h.map,
      h.outline⟩
  cases he with
  | machine h' => exact .machine (h.trans h')
  | yield h' => exact .yield (h.trans h')
  | join h' ha hvalid hb =>
    rw [h.pcb] at ha hvalid hb
    exact .join (h.trans h') ha hvalid hb
  | execFailed hlt h' => exact .execFailed (h.processId ▸ hlt) (hcreate.trans h')
  | load file hlt h' hload => exact .load file (h.processId ▸ hlt) (hcreate.trans h') hload
  | exit h' hexit => exact .exit (h.trans h') hexit

theorem effect_of_syscall (hm : s.machine = .ok m)
    (h : syscall memAll isMain t input s = .ok (s', calls)) :
    Effect memAll t input s s' calls := by
  dsimp only [syscall] at h
  split_ifs at h
  · exact .exit (.refl s) h
  · exact effect_of_exec h
  · exact effect_of_join h
  · rw [hm, ok_bind] at h
    obtain ⟨m', -, h⟩ := bind_eq_ok.1 h
    cases h
    exact .machine (.setMachine hm m')
  · cases h
    exact .yield (.refl s)
  · cases h
    exact .machine (.mapRegisters _ s)

/-- An instruction either enters a system call, or concerns the machine only. -/
theorem instruction_eq_ok (h : instruction memAll isMain t input s = .ok (s', calls)) :
    (∃ s₁, s.trapped = some s₁ ∧ SameProcesses s s₁ ∧ (∃ m, s₁.machine = .ok m) ∧
      syscall memAll isMain t input s₁ = .ok (s', calls)) ∨
    s.trapped = none ∧ SameProcesses s s' ∧ calls = [] := by
  obtain ⟨m, hm, h⟩ := bind_eq_ok.1 h
  rcases hx : execute.outcome m with ⟨(⟨which, badVAddr⟩ | f) | _, m'⟩
  · simp only [hx] at h
    split_ifs at h with hw
    · exact .inl ⟨_, by simp only [UserState.trapped, hm, hx, if_pos hw], .setMachine hm _,
        ⟨_, UserState.machine_setMachine hm _⟩, h⟩
    · obtain ⟨m₁, -, h⟩ := bind_eq_ok.1 h
      cases h
      exact .inr ⟨by simp only [UserState.trapped, hm, hx, if_neg hw], .setMachine hm m₁, rfl⟩
  · simp only [hx] at h
    cases h
  · simp only [hx] at h
    cases h
    exact .inr ⟨by simp only [UserState.trapped, hm, hx], .setMachine hm m', rfl⟩

/-- An instruction has one of the effects. -/
theorem effect_of_instruction (h : instruction memAll isMain t input s = .ok (s', calls)) :
    Effect memAll t input s s' calls := by
  obtain ⟨s₁, -, hsame, ⟨m, hm⟩, h⟩ | ⟨-, hsame, rfl⟩ := instruction_eq_ok h
  · exact .of_same hsame (effect_of_syscall hm h)
  · exact .machine hsame

/-! ### Exec and Exit -/

/-- The thread has an address space in memory. -/
def UserState.Loaded (s : UserState) (t : ℕ) : Prop :=
  ∃ space ∈ s.memory.space t, space.spaceFound = true

theorem SameProcesses.loaded_iff (h : SameProcesses s s') (t : ℕ) : s'.Loaded t ↔ s.Loaded t := by
  have hiff (s : UserState) : s.Loaded t ↔
      ∃ space ∈ (s.memory.space t).map AddrSpace.outline, space.spaceFound = true := by
    simp [UserState.Loaded, AddrSpace.outline]
  rw [hiff, hiff, h.outline]

theorem load_eq_ok {file : OpenFile} (h : load memAll t file input s = .ok (s', calls)) :
    ∃ space map mainMemory, AddrSpace.new memAll file input.junk s.memory.map s.memory.mainMemory =
        .ok (space, map, mainMemory) ∧
      { s with
        memory := ⟨map, mainMemory, update s.memory.space s.processId (some space)⟩
        pcb :=
          { s.pcb with list := s.pcb.list.create s.processId space.spaceFound t } } = s' ∧
      (if space.spaceFound then execCalls s.pcb.list.created s.processId
        else [.code (.append s.pcb.list.created s.processId)]) = calls := by
  obtain ⟨⟨space, map, mainMemory⟩, hnew, h⟩ := bind_eq_ok.1 h
  obtain ⟨hs, hcalls⟩ := Prod.mk.inj (Except.ok.inj h)
  exact ⟨space, map, mainMemory, hnew, hs, hcalls⟩

theorem UserState.loaded_of_space_eq {u : ℕ} {o : Option AddrSpace}
    (h : s'.memory.space = update s.memory.space u o) (t : ℕ) :
    s'.Loaded t ↔ if t = u then ∃ space ∈ o, space.spaceFound = true else s.Loaded t := by
  unfold Loaded
  rw [h]
  split_ifs with ht
  · rw [ht, update_self]
  · rw [update_of_ne ht]

/-- The ways in which `StartProcess` goes. -/
theorem startProcess_eq_ok (h : startProcess memAll t input s = .ok (s', calls)) :
    s' = s ∧ calls = [] ∨ s.processId + 1 < 2 ^ 31 ∧ ∃ file map₀ space map mainMemory,
      BitMap.new input.words = .ok map₀ ∧
      AddrSpace.new memAll file input.junk map₀ s.memory.mainMemory =
        .ok (space, map, mainMemory) ∧
      let s₁ : UserState :=
        { s with
          processId := s.processId + 1
          memory := ⟨map, mainMemory, update s.memory.space t (some space)⟩ }
      ((space.spaceFound = true ∧ ∃ list, ((ProcessList.empty s.pcb.list.element).create
            (s.processId + 1 : ℕ) true 0).append 0 = .ok list ∧
          s' = { s₁ with numProcess := 0, pcb := ⟨list, [0], [0]⟩ } ∧ calls = startCalls) ∨
        space.spaceFound = false ∧ s' = s₁ ∧ calls = [.finish]) := by
  unfold startProcess at h
  cases hfile : input.executable with
  | none =>
    simp only [hfile] at h
    cases h
    exact .inl ⟨rfl, rfl⟩
  | some file =>
    simp only [hfile] at h
    obtain ⟨s₁, hs₁, h⟩ := bind_eq_ok.1 h
    obtain ⟨hlt, rfl⟩ := UserState.createId_eq_ok.1 hs₁
    obtain ⟨map₀, hmap₀, h⟩ := bind_eq_ok.1 h
    obtain ⟨⟨space, map, mainMemory⟩, hnew, h⟩ := bind_eq_ok.1 h
    refine .inr ⟨hlt, file, map₀, space, map, mainMemory, hmap₀, hnew, ?_⟩
    dsimp only at h
    split_ifs at h with hfound
    · obtain ⟨list, hlist, h⟩ := bind_eq_ok.1 h
      cases h
      exact .inl ⟨hfound, list, hlist, rfl, rfl⟩
    · cases h
      exact .inr ⟨Bool.eq_false_iff.2 hfound, rfl, rfl⟩

theorem removeEntry_eq_ok {junk parentPID : ℤ} {pcb pcb' : ListState} :
    removeEntry t junk pcb = .ok (pcb', parentPID) ↔
      pcb.list.returnElement t = .ok none ∧ pcb' = pcb ∧ parentPID = junk ∨
      ∃ a list, pcb.list.returnElement t = .ok (some a) ∧ pcb.list.remove a = .ok list ∧
        pcb' = { pcb with list := list, entries := pcb.entries.erase a } ∧
        parentPID = (pcb.list.element a).parentPID := by
  unfold removeEntry
  rcases hr : pcb.list.returnElement t with e | _ | a
  · simp
  · simp [pure, Except.pure, eq_comm]
  · simp only [ok_bind, map_eq_ok, Prod.mk.injEq]
    constructor
    · rintro ⟨list, hlist, rfl, rfl⟩
      exact .inr ⟨a, list, rfl, hlist, rfl, rfl⟩
    · rintro (⟨hnone, -⟩ | ⟨b, list, hb, hlist, rfl, rfl⟩)
      · cases hnone
      · cases hb
        exact ⟨list, hlist, rfl, rfl⟩

theorem exit_eq_ok (h : exit t input s = .ok (s', calls)) :
    ∃ space space' map mainMemory pcb parentPID parent, s.memory.space t = some space ∧
      space.delete s.memory.map s.memory.mainMemory = .ok (space', map, mainMemory) ∧
      removeEntry t input.parentPID s.pcb = .ok (pcb, parentPID) ∧
      findParent parentPID pcb = .ok parent ∧
      { s.mapRegisters advancePC with
        memory := ⟨map, mainMemory, update s.memory.space t none⟩
        pcb := pcb
        exited := s.exited ++ [t] } = s' ∧
      exitCalls parent = calls := by
  unfold exit at h
  cases hs : s.memory.space t with
  | none => simp [hs] at h
  | some space =>
    simp only [hs] at h
    obtain ⟨⟨space', map, mainMemory⟩, hdelete, h⟩ := bind_eq_ok.1 h
    obtain ⟨⟨pcb, parentPID⟩, hremove, h⟩ := bind_eq_ok.1 h
    obtain ⟨parent, hparent, h⟩ := bind_eq_ok.1 h
    obtain ⟨hs', hcalls⟩ := Prod.mk.inj (Except.ok.inj h)
    exact ⟨space, space', map, mainMemory, pcb, parentPID, parent, rfl, hdelete, hremove, hparent,
      hs', hcalls⟩

/-- The results of `Join` before it calls `P`: there is no element of the child, or it is not valid,
or the process has to wait. -/
theorem join_eq_ok (h : join s = .ok (s', calls)) :
    (s' = s.result (-1) ∧ calls = []) ∨ (s' = s.mapRegisters advancePC ∧ calls = []) ∨
      s' = s ∧ ∃ parent, calls =
        [.p (.process parent), .code (.joined (s.registers.gpr 4).toInt)] := by
  obtain ⟨o, -, h⟩ := bind_eq_ok.1 h
  cases o with
  | none =>
    cases h
    exact .inl ⟨rfl, rfl⟩
  | some a =>
    dsimp only at h
    split_ifs at h
    · obtain ⟨o, -, h⟩ := bind_eq_ok.1 h
      cases o with
      | none => cases h
      | some b =>
        cases h
        exact .inr (.inr ⟨rfl, b, rfl⟩)
    · cases h
      exact .inr (.inl ⟨rfl, rfl⟩)

/-- `Join` changes registers only, before it calls `P`. -/
theorem registers_of_join (h : join s = .ok (s', calls)) :
    ∃ registers, s' = { s with registers } := by
  obtain ⟨rfl, -⟩ | ⟨rfl, -⟩ | ⟨rfl, -⟩ := join_eq_ok h
  all_goals exact ⟨_, rfl⟩

/-- A process exits in no other system call than `Exit`. -/
theorem exited_of_syscall (hne : s.registers.gpr 2 ≠ 1)
    (h : syscall memAll isMain t input s = .ok (s', calls)) : s'.exited = s.exited := by
  dsimp only [syscall] at h
  split_ifs at h
  · obtain ⟨-, m, filename, m', -, -, h⟩ := exec_eq_ok h
    obtain ⟨-, rfl, -⟩ | ⟨name, -, ⟨-, rfl, -⟩ | ⟨file, -, hload⟩⟩ := h
    · rfl
    · rfl
    · obtain ⟨space, map, mainMemory, -, rfl, -⟩ := load_eq_ok hload
      rfl
  · obtain ⟨registers, rfl⟩ := registers_of_join h
    rfl
  · obtain ⟨m, -, h⟩ := bind_eq_ok.1 h
    obtain ⟨m', -, h⟩ := bind_eq_ok.1 h
    cases h
    rfl
  · cases h
    rfl
  · cases h
    rfl

end Nachos.UserProg
