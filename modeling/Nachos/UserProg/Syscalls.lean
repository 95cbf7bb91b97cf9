import Nachos.Threads.Tasks
import Nachos.UserProg.FrameOwnership
import Nachos.UserProg.ProcessHistory
import Nachos.UserProg.UserException

/-!
# User processes on top of the thread kernel

What the threads of `code/userprog` execute: `StartProcess` and `processCreator`, which begin to
run a user program; the loop of `Machine::Run`; and the system calls of `ExceptionHandler`. It is a
client of the thread kernel, so that other processes run wherever a call of the kernel or a tick of
the clock lets them.

A thread is named by its PID. `Thread::CreatId` numbers the threads that are created, from 1 for
the thread `"main"`. The address space of a thread is in `memory` until its destructor has given
back its frames; `machine->pageTable` is a pointer, of which `installed` keeps whose page table it
points to. The page table of a thread that has exited has been deleted.

Which file `Open` returns is the environment's choice, and so is what `Read` and `Write` transfer.

## Main definitions

* `UserState`: the variables of the kernel that user processes share.
* `readByte`, `readName`: how `SC_Exec` reads the name of a file.
* `exec`, `join`, `removeEntry`, `findParent`, `exit`, `syscall`: the system calls.
* `UserState.trapped`: the next instruction is a system call.
* `userClient`, `userSystem`: the processes as a client of the kernel, and its runs.
-/

namespace Nachos.UserProg

open Foundations Threads Machine Function

/-- `MutexNumProc`, and the semaphore of each element of the list of processes. -/
inductive UserSemaphore
  | mutexNumProc
  | process (a : ℕ)
  deriving DecidableEq

/-- The pieces of code that the threads execute. -/
inductive UserCode
  /-- `StartProcess`, up to its first call of `P`. -/
  | startProcess
  | processCreator
  /-- `InitRegisters` and `RestoreState`, before `Machine::Run` is called. -/
  | initRegisters
  /-- The loop of `Machine::Run`. -/
  | run
  /-- `++NumProcess`. -/
  | countProcess
  /-- `NumProcess--`. -/
  | uncountProcess
  /-- `SC_Exec` from the call of `Append` on, with the variables `ProcessTemp` and `PID`. -/
  | append (a pid : ℕ)
  /-- `SC_Join` after `P`, with the variable `ChildPID`. -/
  | joined (childPID : ℤ)
  /-- `SC_Yield` after `Yield`. -/
  | yielded
  deriving DecidableEq

abbrev UserCall : Type := Call ℕ UserSemaphore UserCode

/-- What the environment decides. -/
structure UserInput where
  /-- The file that `fileSystem->Open` returns. -/
  executable : Option OpenFile
  /-- What the constructor of `AddrSpace` finds in uninitialised memory. -/
  junk : Junk
  /-- The words of a new `BitMap`. -/
  words : Vector (BitVec 32) (divRoundUp numPhysPages 32)
  /-- The field `ParentPID` of the element that `CleanupExit` creates. -/
  parentPID : ℤ
  /-- What `Read` and `Write` do to the machine. -/
  transfer : Machine → Except Fault Machine

/-- The variables of the kernel that concern user processes. -/
structure UserState where
  /-- `machine->registers`. -/
  registers : Registers
  /-- The thread to whose page table `machine->pageTable` points. -/
  installed : Option ℕ
  /-- `MainMemMap`, `machine->mainMemory`, and the address spaces of the threads. -/
  memory : MemoryState
  /-- `userRegisters` of the threads. -/
  userRegisters : ℕ → Registers
  processId : ℕ
  numProcess : ℤ
  pcb : ListState
  /-- The threads that have begun to delete their address space. Their `space` still points
  to it. -/
  exited : List ℕ

namespace UserState

/-- The pointer `space` of a thread is not null. -/
def hasSpace (s : UserState) (t : ℕ) : Bool :=
  (s.memory.space t).isSome || decide (t ∈ s.exited)

/-- `Thread::CreatId`. The PID that it creates is the new value of `ProcessId`. -/
def createId (s : UserState) : Except Fault UserState :=
  if s.processId + 1 < 2 ^ 31 then .ok { s with processId := s.processId + 1 }
  else .error .undefined

/-- The machine as an instruction finds it. -/
def machine (s : UserState) : Except Fault Machine :=
  match s.installed with
  | none => .error .assertion
  | some t =>
    match (s.memory.space t).bind AddrSpace.pageTable with
    | none => .error .undefined
    | some pageTable => .ok ⟨s.registers, pageTable, s.memory.mainMemory⟩

/-- The machine after an instruction. It sets bits in the page table that is installed. -/
def setMachine (s : UserState) (m : Machine) : UserState :=
  { s with
    registers := m.registers
    memory :=
      { s.memory with
        mainMemory := m.mainMemory
        space := match s.installed with
          | none => s.memory.space
          | some t => update s.memory.space t
            ((s.memory.space t).map fun space => { space with pageTable := some m.pageTable }) } }

/-- An operation that concerns only the registers. -/
def mapRegisters (f : Machine → Machine) (s : UserState) : UserState :=
  { s with registers := (f ⟨s.registers, [], s.memory.mainMemory⟩).registers }

/-- `machine->WriteRegister(2, value)` and `AdvancePC`. -/
def result (value : Word) (s : UserState) : UserState :=
  s.mapRegisters fun m => advancePC (m.setGpr 2 value)

end UserState

/-! ### Exec -/

/-- `NumBuff`. -/
def numBuff : ℕ := 128

/-- `machine->ReadMem(addr, 1, &value)` within the kernel: an exception calls `ExceptionHandler`
again, and then there is no value. -/
def readByte (isMain : Bool) (addr : Word) (m : Machine) : Except Fault (Option Word × Machine) :=
  match (readMem addr .one).outcome m with
  | (.ok value, m) => .ok (some value, m)
  | (.error (.exception which badVAddr), m) =>
    (raiseException (exceptionHandler isMain fun _ => .error .disabled) which badVAddr m).map
      fun m => (none, m)
  | (.error (.fault f), _) => .error f

/-- The loop of `SC_Exec` that reads the name of the file, with the variables `AddrFile`, `ValTemp`
and the first `i` characters of `filename`. It has `room` iterations left before it gives up. The
test `i <= NumBuff` does not keep the store within the buffer. -/
def readName (isMain : Bool) : ℕ → Word → Word → List (BitVec 8) → Machine →
    Except Fault (Option (List (BitVec 8)) × Machine)
  | room, addr, value, filename, m =>
    if value = 0 then
      if filename.length < numBuff then .ok (some filename, m) else .error .undefined
    else
      match room with
      | 0 => .ok (none, m)
      | room + 1 =>
        if filename.length < numBuff then do
          let (next, m) ← readByte isMain (addr + 1) m
          match next with
          | none => .ok (none, m)
          | some next =>
            readName isMain room (addr + 1) next (filename ++ [value.truncate 8]) m
        else .error .undefined

/-- The name of the file, unless a character cannot be read or the name is too long. -/
def fileName (isMain : Bool) (addr : Word) (m : Machine) :
    Except Fault (Option (List (BitVec 8)) × Machine) := do
  let (value, m) ← readByte isMain addr m
  match value with
  | none => return (none, m)
  | some value => readName isMain (numBuff + 1) addr value [] m

/-- The rest of `SC_Exec` from the first call of `P` on, for a new process that fits into
memory. -/
def execCalls (a pid : ℕ) : List UserCall :=
  [.p .mutexNumProc, .code .countProcess, .v .mutexNumProc, .fork pid .processCreator,
    .code (.append a pid)]

/-- `SC_Exec` when the file is open, up to the first call of `P`. -/
def load (memAll : MemAll) (t : ℕ) (file : OpenFile) (input : UserInput) (s : UserState) :
    Except Fault (UserState × List UserCall) := do
  let pid := s.processId
  let (space, map, mainMemory) ←
    AddrSpace.new memAll file input.junk s.memory.map s.memory.mainMemory
  let a := s.pcb.list.created
  let s : UserState :=
    { s with
      memory := ⟨map, mainMemory, update s.memory.space pid (some space)⟩
      pcb := { s.pcb with list := s.pcb.list.create pid space.spaceFound t } }
  return (s, if space.spaceFound then execCalls a pid else [.code (.append a pid)])

/-- `SC_Exec`. -/
def exec (memAll : MemAll) (isMain : Bool) (t : ℕ) (input : UserInput) (s : UserState) :
    Except Fault (UserState × List UserCall) := do
  let s ← s.createId
  let m ← s.machine
  let (filename, m) ← fileName isMain (m.registers.gpr 4) m
  let s := s.setMachine m
  match filename with
  | none => return (s.result (BitVec.ofNat 32 s.processId), [])
  | some _ =>
    match input.executable with
    -- nothing is written to register 2
    | none => return (s.mapRegisters advancePC, [])
    | some file => load memAll t file input s

/-! ### Join and Exit -/

/-- `SC_Join`. -/
def join (s : UserState) : Except Fault (UserState × List UserCall) := do
  let childPID := (s.registers.gpr 4).toInt
  match ← s.pcb.list.returnElement childPID with
  | none => return (s.result (-1), [])
  | some a =>
    let child := s.pcb.list.element a
    if child.valid then
      match ← s.pcb.list.returnElement child.parentPID with
      | none => .error .nullPointer
      | some parent => return (s, [.p (.process parent), .code (.joined childPID)])
    else return (s.mapRegisters advancePC, [])

/-- The first part of `CleanupExit`, which removes the entry of the process, with `ParentPID`.
Without an entry, that is the field of a new element, which is `junk`. -/
def removeEntry (t : ℕ) (junk : ℤ) (pcb : ListState) : Except Fault (ListState × ℤ) := do
  match ← pcb.list.returnElement t with
  | none => return (pcb, junk)
  | some a =>
    (pcb.list.remove a).map fun list =>
      ({ pcb with list := list, entries := pcb.entries.erase a }, (pcb.list.element a).parentPID)

/-- The second part of `CleanupExit`: the element of the parent, on whose semaphore it calls `V`. -/
def findParent (parentPID : ℤ) (pcb : ListState) : Except Fault (Option ℕ) :=
  if parentPID = 0 then .ok none
  else do
    match ← pcb.list.returnElement parentPID with
    | none => .error .nullPointer
    | some parent => return (some parent)

/-- The rest of the destructor of `AddrSpace` from the call of `V` in `CleanupExit` on, for the
element of the parent. -/
def exitCalls (parent : Option ℕ) : List UserCall :=
  (parent.toList.map fun a => .v (.process a)) ++
    [.p .mutexNumProc, .code .uncountProcess, .v .mutexNumProc, .finish]

/-- `SC_Exit`, with the destructor of `AddrSpace`. -/
def exit (t : ℕ) (input : UserInput) (s : UserState) : Except Fault (UserState × List UserCall) :=
  match s.memory.space t with
  | none => .error .undefined
  | some space => do
    let (_, map, mainMemory) ← space.delete s.memory.map s.memory.mainMemory
    let (pcb, parentPID) ← removeEntry t input.parentPID s.pcb
    let parent ← findParent parentPID pcb
    let s : UserState :=
      { s.mapRegisters advancePC with
        memory := ⟨map, mainMemory, update s.memory.space t none⟩
        pcb := pcb
        exited := s.exited ++ [t] }
    return (s, exitCalls parent)

/-! ### User programs -/

/-- The system call that register 2 asks for. -/
def syscall (memAll : MemAll) (isMain : Bool) (t : ℕ) (input : UserInput) (s : UserState) :
    Except Fault (UserState × List UserCall) :=
  let type := s.registers.gpr 2
  -- `SC_Halt`, `SC_Exit`, `SC_Exec`, `SC_Join`, `SC_Read`, `SC_Write` and `SC_Yield`
  if type = 0 then .error .halt
  else if type = 1 then exit t input s
  else if type = 2 then exec memAll isMain t input s
  else if type = 3 then join s
  else if type = 6 ∨ type = 7 then do
    let m ← input.transfer (← s.machine)
    return (s.setMachine m, [])
  else if type = 10 then .ok (s, [.yield, .code .yielded])
  else .ok (s.mapRegisters advancePC, [])

/-- `OneInstruction` with its exceptions. -/
def instruction (memAll : MemAll) (isMain : Bool) (t : ℕ) (input : UserInput) (s : UserState) :
    Except Fault (UserState × List UserCall) := do
  match execute.outcome (← s.machine) with
  | (.ok _, m) => return (s.setMachine m, [])
  | (.error (.exception which badVAddr), m) =>
    let m := m.trap badVAddr
    if which = .syscallException then syscall memAll isMain t input (s.setMachine m)
    else
      let m ← exceptionHandler isMain (fun _ => .error .disabled) which m
      return (s.setMachine m, [])
  | (.error (.fault f), _) => .error f

/-- The state in which `ExceptionHandler` finds a system call, if the next instruction is one. -/
def UserState.trapped (s : UserState) : Option UserState :=
  match s.machine with
  | .error _ => none
  | .ok m =>
    match execute.outcome m with
    | (.error (.exception which badVAddr), m) =>
      if which = .syscallException then some (s.setMachine (m.trap badVAddr)) else none
    | _ => none

/-- `AddrSpace::InitRegisters`. -/
def AddrSpace.initRegisters (space : AddrSpace) : Registers where
  gpr r := if r = 29 then BitVec.ofNat 32 (space.numPages * pageSize) - 16 else 0
  hi := 0
  lo := 0
  pc := 0
  nextPC := 4
  prevPC := 0
  loadReg := 0
  loadValue := 0
  badVAddr := 0

/-- The rest of `StartProcess` from the first call of `P` on. -/
def startCalls : List UserCall :=
  [.p .mutexNumProc, .code .countProcess, .v .mutexNumProc, .code .initRegisters]

/-- `StartProcess`, up to the first call of `P`. -/
def startProcess (memAll : MemAll) (t : ℕ) (input : UserInput) (s : UserState) :
    Except Fault (UserState × List UserCall) :=
  match input.executable with
  | none => .ok (s, [])
  | some file => do
    let s ← s.createId
    let map ← BitMap.new input.words
    let (space, map, mainMemory) ← AddrSpace.new memAll file input.junk map s.memory.mainMemory
    let s : UserState :=
      { s with memory := ⟨map, mainMemory, update s.memory.space t (some space)⟩ }
    if space.spaceFound then
      let a := 0
      let list ← ((ProcessList.empty s.pcb.list.element).create s.processId true 0).append a
      return ({ s with numProcess := 0, pcb := ⟨list, [a], [a]⟩ }, startCalls)
    else return (s, [.finish])

/-- The processes as a client of the kernel. `merged` tells whether the name of the first thread
and the literal `"main"` in `ExceptionHandler` are the same object. -/
def userClient (memAll : MemAll) (merged : Bool) :
    Client ℕ UserSemaphore UserCode Empty UserState UserInput where
  exec t
    | .startProcess, input, s => startProcess memAll t input s
    | .processCreator, _, s => .ok (s, [.yield, .code .initRegisters])
    | .initRegisters, _, s =>
      match s.memory.space t with
      | none => .error .undefined
      | some space =>
        .ok ({ s with registers := space.initRegisters, installed := some t }, [.code .run])
    | .run, input, s =>
      (instruction memAll (merged && t == 1) t input s).map fun r =>
        (r.1, r.2 ++ [.oneTick, .code .run])
    | .countProcess, _, s => .ok ({ s with numProcess := s.numProcess + 1 }, [])
    | .uncountProcess, _, s => .ok ({ s with numProcess := s.numProcess - 1 }, [])
    | .append a pid, _, s =>
      (s.pcb.list.append a).map fun list =>
        ({ s with pcb := ⟨list, s.pcb.appended ++ [a], s.pcb.entries ++ [a]⟩ }.result
          (BitVec.ofNat 32 pid), [])
    | .joined _, _, s => .ok (s.result 0, [])
    | .yielded, _, s => .ok (s.mapRegisters advancePC, [])
  saveState t s :=
    if s.hasSpace t then { s with userRegisters := update s.userRegisters t s.registers } else s
  restoreState t s :=
    if s.hasSpace t then { s with registers := s.userRegisters t, installed := some t } else s
  delayedLoad := UserState.mapRegisters fun m => m.delayedLoad 0 0
  handler := Empty.elim

/-- The registers that `Machine` clears. -/
def Registers.cleared : Registers := ⟨fun _ => 0, 0, 0, 0, 0, 0, 0, 0, 0⟩

/-- The variables when `Initialize` is done. What is not initialised before `StartProcess` is
left empty. -/
def UserState.initial : UserState where
  registers := Registers.cleared
  installed := none
  memory := ⟨⟨Vector.replicate _ 0⟩, fun _ => 0, fun _ => none⟩
  userRegisters _ := Registers.cleared
  processId := 0
  numProcess := 0
  pcb := ⟨.empty fun _ => ⟨none, none, 0, false, 0⟩, [], []⟩
  exited := []

/-- The initial values of the semaphores. -/
def UserSemaphore.initialValue : UserSemaphore → ℕ
  | mutexNumProc => 1
  | process _ => 0

/-- The kernel with user processes. -/
abbrev UserKernel : Type := Kernel ℕ UserSemaphore UserCode UserState

/-- The kernel when the thread `"main"` calls `StartProcess`. -/
abbrev UserKernel.boot : UserKernel :=
  Threads.boot 1 .startProcess UserSemaphore.initialValue .initial

/-- The runs of the kernel with user processes. -/
abbrev userSystem (memAll : MemAll) (merged : Bool) :
    StepSystem UserKernel (Input Empty UserInput) Fault :=
  threadSystem (userClient memAll merged) 1 .startProcess UserSemaphore.initialValue .initial

end Nachos.UserProg
