import Mathlib.Algebra.Group.Int.Defs
import Mathlib.Data.Int.Notation
import Nachos.Foundations.Run
import Nachos.Foundations.SortedQueue
import Nachos.Threads.Kernel

/-!
# Simulated interrupts

`machine/interrupt.cc`: simulated time, and the interrupts that devices have scheduled. A call of
`OneTick` or `Idle` runs the handlers of the interrupts that have become due. The pending list is
the sorted list of `threads/list.cc`, with the times of the interrupts as keys.

What a handler does is the environment's choice: `react n` lists the calls that the `n`-th handler
makes. A call of `Yield` at the end of `OneTick` gives the processor to other code; what this code
calls, and the assignment `status = old` after it, are further calls (`Call.setStatus`).

## Main definitions

* `PendingInterrupt`, `Statistics`, `Interrupt`: the state, with history variables (`History`) that
  the source does not have.
* `Interrupt.checkIfDue`, `Interrupt.oneTick`, `Interrupt.idle`, `Interrupt.setLevel`,
  `Interrupt.schedule`.
* `interruptSystem`: any sequence of calls.
-/

namespace Nachos.Devices

open Foundations
open Threads (IntStatus)

/-- `MachineStatus`. -/
inductive MachineStatus
  | idleMode
  | systemMode
  | userMode
  deriving DecidableEq, Repr

/-- `IntType`. -/
inductive IntType
  | timerInt
  | diskInt
  | consoleWriteInt
  | consoleReadInt
  | networkSendInt
  | networkRecvInt
  deriving DecidableEq, Repr

/-- `UserTick`. -/
abbrev userTick : ℤ := 1

/-- `SystemTick`. -/
abbrev systemTick : ℤ := 10

/-- `PendingInterrupt`. The number `serial` tells the objects apart. -/
structure PendingInterrupt (η : Type) where
  /-- `handler` with `arg`. -/
  handler : η
  when : ℤ
  type : IntType
  serial : ℕ
  deriving DecidableEq

/-- The times in `Statistics`. -/
structure Statistics where
  totalTicks : ℤ
  idleTicks : ℤ
  systemTicks : ℤ
  userTicks : ℤ

/-- A call of a handler, at the time `time`. -/
structure HandlerRun (η : Type) where
  interrupt : PendingInterrupt η
  time : ℤ
  deriving DecidableEq

/-- What happened so far. The source keeps none of this. -/
structure History (η : Type) where
  /-- The interrupts that were scheduled. -/
  scheduled : List (PendingInterrupt η)
  /-- The handlers that were called. -/
  runs : List (HandlerRun η)
  /-- The interrupt level when a handler is called, and after each of its calls. -/
  levels : List IntStatus

/-- `Interrupt` with the global `stats`. -/
structure Interrupt (η : Type) where
  level : IntStatus
  pending : List (PendingInterrupt η)
  inHandler : Bool
  yieldOnReturn : Bool
  status : MachineStatus
  stats : Statistics
  /-- `Halt` was called. -/
  halted : Bool
  history : History η

/-- A call that a handler makes. -/
inductive HandlerCall (η : Type)
  | schedule (handler : η) (fromNow : ℤ) (type : IntType)
  | setLevel (now : IntStatus)
  | yieldOnReturn

/-- A call that other code makes. -/
inductive Call (η : Type)
  | setLevel (now : IntStatus)
  | oneTick
  | idle
  | schedule (handler : η) (fromNow : ℤ) (type : IntType)
  | setStatus (st : MachineStatus)

namespace Interrupt

variable {η : Type}

/-- Put an interrupt into the pending list. -/
def insertPending (toOccur : PendingInterrupt η) (s : Interrupt η) : Interrupt η :=
  { s with pending := sortedInsert PendingInterrupt.when toOccur s.pending }

/-- `Interrupt::Schedule`. -/
def schedule (handler : η) (fromNow : ℤ) (type : IntType) (s : Interrupt η) :
    Except Fault (Interrupt η) :=
  -- the sum is an `int`
  if 2 ^ 31 ≤ s.stats.totalTicks + fromNow then .error .undefined
  else
    let toOccur : PendingInterrupt η :=
      ⟨handler, s.stats.totalTicks + fromNow, type, s.history.scheduled.length⟩
    if fromNow > 0 then
      .ok (insertPending toOccur
        { s with history := { s.history with scheduled := s.history.scheduled ++ [toOccur] } })
    else .error .assertion

/-- What a handler calls. It is not allowed to enable interrupts. -/
def handlerCall (s : Interrupt η) : HandlerCall η → Except Fault (Interrupt η)
  | .schedule handler fromNow type => s.schedule handler fromNow type
  | .setLevel .on => .error .assertion
  | .setLevel .off => .ok { s with level := .off }
  | .yieldOnReturn => .ok { s with yieldOnReturn := true }

/-- Note the interrupt level. -/
def noteLevel (s : Interrupt η) : Interrupt η :=
  { s with history := { s.history with levels := s.history.levels ++ [s.level] } }

/-- The calls of a handler, one after the other. -/
def handlerCalls (calls : List (HandlerCall η)) (s : Interrupt η) : Except Fault (Interrupt η) :=
  calls.foldlM (fun s call => (s.handlerCall call).map noteLevel) s

variable (react : ℕ → List (HandlerCall η))

/-- The end of `CheckIfDue`: call the handler. -/
def fire (toOccur : PendingInterrupt η) (s : Interrupt η) : Except Fault (Interrupt η) :=
  let called := noteLevel { s with
    inHandler := true
    status := .systemMode
    history := { s.history with runs := s.history.runs ++ [⟨toOccur, s.stats.totalTicks⟩] } }
  (called.handlerCalls (react s.history.runs.length)).map fun s' =>
    { s' with status := s.status, inHandler := false }

/-- The clock is advanced to the time of an interrupt. -/
def advanceTo (when : ℤ) (s : Interrupt η) : Interrupt η :=
  { s with stats := { s.stats with
    idleTicks := s.stats.idleTicks + (when - s.stats.totalTicks)
    totalTicks := when } }

/-- `CheckIfDue`, after an interrupt has been taken off the list and its time has come. -/
def fireUnlessIdle (toOccur : PendingInterrupt η) (s : Interrupt η) :
    Except Fault (Bool × Interrupt η) :=
  -- nothing is left to do but to wait for the timer
  if s.status = .idleMode ∧ toOccur.type = .timerInt ∧ s.pending = [] then
    .ok (false, s.insertPending toOccur)
  else (s.fire react toOccur).map (true, ·)

/-- `Interrupt::CheckIfDue`. -/
def checkIfDue (advanceClock : Bool) (s : Interrupt η) : Except Fault (Bool × Interrupt η) :=
  if s.level = .off then
    match s.pending with
    | [] => .ok (false, s)
    | toOccur :: rest =>
      let removed := { s with pending := rest }
      if advanceClock = true ∧ toOccur.when > s.stats.totalTicks then
        fireUnlessIdle react toOccur (removed.advanceTo toOccur.when)
      else if toOccur.when > s.stats.totalTicks then .ok (false, removed.insertPending toOccur)
      else fireUnlessIdle react toOccur removed
  else .error .assertion

/-- `while (CheckIfDue(FALSE)) ;`. -/
def checkPending : ℕ → Interrupt η → Except Fault (Interrupt η)
  | 0, _ => .error .outOfFuel
  | fuel + 1, s => do
    let (fired, s') ← s.checkIfDue react false
    if fired then checkPending fuel s' else return s'

/-- The loop over `CheckIfDue` with enough fuel: it calls a handler of every interrupt at most
once, and those that are scheduled meanwhile are not due. -/
def checkAll (s : Interrupt η) : Except Fault (Interrupt η) :=
  s.checkPending react (s.pending.length + 1)

/-- The time of one tick. -/
def advance (s : Interrupt η) : Except Fault (Interrupt η) :=
  let tick := if s.status = .systemMode then systemTick else userTick
  if 2 ^ 31 ≤ s.stats.totalTicks + tick then .error .undefined
  else if s.status = .systemMode then
    .ok { s with stats := { s.stats with
      totalTicks := s.stats.totalTicks + systemTick
      systemTicks := s.stats.systemTicks + systemTick } }
  else
    .ok { s with stats := { s.stats with
      totalTicks := s.stats.totalTicks + userTick
      userTicks := s.stats.userTicks + userTick } }

/-- `Interrupt::OneTick`, up to the call of `Yield`. -/
def oneTick (s : Interrupt η) : Except Fault (Interrupt η) := do
  let s ← s.advance
  let s ← checkAll react { s with level := .off }
  let s := { s with level := .on }
  if s.yieldOnReturn then return { s with yieldOnReturn := false, status := .systemMode }
  else return s

/-- `Interrupt::SetLevel`. -/
def setLevel (now : IntStatus) (s : Interrupt η) : Except Fault (Interrupt η) :=
  if now = .off ∨ s.inHandler = false then
    if now = .on ∧ s.level = .off then oneTick react { s with level := now }
    else .ok { s with level := now }
  else .error .assertion

/-- `Interrupt::Idle`. -/
def idle (s : Interrupt η) : Except Fault (Interrupt η) := do
  let (fired, s) ← checkIfDue react true { s with status := .idleMode }
  if fired then
    let s ← checkAll react s
    return { s with yieldOnReturn := false, status := .systemMode }
  else return { s with halted := true }

/-- A call. `Halt` never returns. -/
def perform (s : Interrupt η) (call : Call η) : Except Fault (Interrupt η) :=
  if s.halted then .error .halt
  else
    match call with
    | .setLevel now => s.setLevel react now
    | .oneTick => s.oneTick react
    | .idle => s.idle react
    | .schedule handler fromNow type => s.schedule handler fromNow type
    | .setStatus st => .ok { s with status := st }

/-- The constructor of `Interrupt`, with the statistics at zero. -/
def initial : Interrupt η where
  level := .off
  pending := []
  inHandler := false
  yieldOnReturn := false
  status := .systemMode
  stats := ⟨0, 0, 0, 0⟩
  halted := false
  history := ⟨[], [], []⟩

end Interrupt

/-- Any sequence of calls. -/
def interruptSystem {η : Type} (react : ℕ → List (HandlerCall η)) :
    StepSystem (Interrupt η) (Call η) Fault where
  init s := s = .initial
  step := Interrupt.perform react

end Nachos.Devices
