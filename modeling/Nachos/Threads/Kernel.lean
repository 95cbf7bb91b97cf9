import Mathlib.Data.Int.Notation
import Mathlib.Data.Nat.Notation
import Mathlib.Logic.Function.Basic
import Mathlib.Tactic.Common
import Nachos.Foundations.Run
import Nachos.Machine.Fault

/-!
# The thread kernel

Nachos threads are coroutines of one UNIX process: a thread runs until it calls
`Scheduler::Run`, and interrupts are simulated, so that code is interrupted only where
`Interrupt::OneTick` is called. A state of this model therefore keeps, for every thread, the
stack of kernel code it has still to execute (`Frame`), and one step executes the top frame of
`currentThread`. Straight-line code between two points at which another thread can run or an
interrupt can be taken is one step.

The code that calls the kernel is a parameter (`Client`): it acts on an environment `ε` of its
own and issues calls (`Call`). Client code runs with interrupts enabled.

* `Semaphore::P` and `Semaphore::V` are `p`, `pLoop`, `v` and `wake`; `value` is an unbounded
  integer, so a run whose `value` would leave the range of an `int`, which C++ leaves undefined,
  is kept as well.
* `Thread::Fork`, `Yield`, `Sleep` and `Finish` are `fork`, `yield`, `sleep` and `finish`.
* `Scheduler::ReadyToRun` and `Run` are `readyToRun`, `run` and `afterSwitch`; the last is the
  part of `Run` that a thread executes once it has been switched back in.
* `Interrupt::SetLevel`, `OneTick` and `Idle` are `setLevel`, `oneTick` and `idle`. Which
  interrupts have become due is the environment's choice; a device handler calls `V`, the timer
  handler calls `YieldOnReturn`.

## Main definitions

* `Kernel`: the state, with history variables (`History`) that the source does not have.
* `Client`: the code on top of the kernel.
* `perform`, `step`: one step.
* `threadSystem`: the runs of the kernel from the state that `Initialize` sets up.
-/

namespace Nachos.Threads

open Function

/-- `IntStatus`: interrupts are disabled or enabled. -/
inductive IntStatus
  | off
  | on
  deriving DecidableEq, Repr

/-- `ThreadStatus`. -/
inductive ThreadStatus
  | justCreated
  | running
  | ready
  | blocked
  deriving DecidableEq, Repr

/-- A semaphore: its value and the threads waiting in `P`. -/
structure Semaphore (τ : Type) where
  value : ℤ
  queue : List τ

/-- A call that client code makes. The code itself is a call too, so that a list of calls is a
piece of code: call the kernel, then go on with `k`. -/
inductive Call (τ σ κ : Type)
  | p (s : σ)
  | v (s : σ)
  | fork (t : τ) (func : κ)
  | yield
  | sleep
  | finish
  | oneTick
  | code (k : κ)
  deriving DecidableEq

/-- A piece of code that a thread has still to execute. -/
inductive Frame (τ σ κ : Type)
  | call (c : Call τ σ κ)
  /-- `(void) interrupt->SetLevel(now)`. -/
  | setLevel (now : IntStatus)
  /-- The test of the loop in `Semaphore::P`, after `Sleep` has returned. -/
  | retest (s : σ)
  /-- The loop in `Thread::Sleep` that looks for a thread to run. -/
  | sleepLoop
  /-- The call `scheduler->Run(next)`. -/
  | run (next : τ)
  /-- The rest of `Scheduler::Run`, after `SWITCH` has returned. -/
  | afterSwitch
  deriving DecidableEq

/-- An interrupt that has become due. -/
inductive Interrupt (δ : Type)
  | timer
  | device (d : δ)

namespace Interrupt

def isTimer {δ : Type} : Interrupt δ → Bool
  | timer => true
  | device _ => false

end Interrupt

/-- What happened so far. The source keeps none of this. -/
structure History (τ σ : Type) where
  /-- The number of calls of `V`. -/
  ups : σ → ℕ
  /-- The number of completed calls of `P`. -/
  downs : σ → ℕ
  /-- The threads that `V` took off the queue and that have not tested the value since. -/
  woken : σ → List τ
  /-- The threads on which `Fork` was called. -/
  forked : List τ
  /-- The threads that called `Finish`. -/
  finished : List τ
  /-- The threads that called `Sleep` themselves, not through `P` or `Finish`. -/
  slept : List τ
  /-- The threads that `Scheduler::Run` deleted. -/
  deleted : List τ

/-- The state of the kernel and of the environment of its client. -/
structure Kernel (τ σ κ ε : Type) where
  level : IntStatus
  currentThread : τ
  threadToBeDestroyed : Option τ
  readyList : List τ
  status : τ → ThreadStatus
  semaphore : σ → Semaphore τ
  /-- What each thread has still to execute, innermost call first. -/
  stack : τ → List (Frame τ σ κ)
  env : ε
  history : History τ σ

/-- The code on top of the kernel. -/
structure Client (τ σ κ δ ε ι : Type) where
  /-- Client code, executed by the current thread: the new environment, and what to call. -/
  exec : τ → κ → ι → ε → Except Fault (ε × List (Call τ σ κ))
  /-- What `Scheduler::Run` saves of a thread that is switched out. -/
  saveState : τ → ε → ε
  /-- What `Scheduler::Run` restores of a thread that is switched in. -/
  restoreState : τ → ε → ε
  /-- What `Interrupt::CheckIfDue` does to the environment before it calls a handler. -/
  delayedLoad : ε → ε
  /-- The semaphore on which the handler of a device calls `V`. -/
  handler : δ → σ

/-- What the environment decides in one step. -/
structure Input (δ ι : Type) where
  /-- The interrupts that have become due, when the step polls for them. -/
  interrupts : List (Interrupt δ)
  /-- The input of client code, when the step executes some. -/
  code : ι

variable {τ σ κ δ ε ι : Type} [DecidableEq τ] [DecidableEq σ]

namespace Kernel

/-- The current thread has to execute `fs` next. -/
@[simps -fullyApplied]
def push (fs : List (Frame τ σ κ)) (k : Kernel τ σ κ ε) : Kernel τ σ κ ε :=
  { k with stack := update k.stack k.currentThread (fs ++ k.stack k.currentThread) }

/-! ### Scheduler and interrupt level -/

/-- `Scheduler::ReadyToRun`. -/
@[simps -fullyApplied]
def readyToRun (t : τ) (k : Kernel τ σ κ ε) : Kernel τ σ κ ε :=
  { k with status := update k.status t .ready, readyList := k.readyList ++ [t] }

/-- `Interrupt::SetLevel`: enabling the interrupts advances the time. -/
def setLevel (now : IntStatus) (k : Kernel τ σ κ ε) : Kernel τ σ κ ε :=
  if now = .on ∧ k.level = .off then { k with level := now }.push [.call .oneTick]
  else { k with level := now }

/-- `Scheduler::Run`, up to `SWITCH`. -/
@[simps -fullyApplied]
def run (c : Client τ σ κ δ ε ι) (next : τ) (k : Kernel τ σ κ ε) : Kernel τ σ κ ε :=
  let old := k.push [.afterSwitch]
  { old with
    env := c.saveState k.currentThread k.env
    currentThread := next
    status := update k.status next .running }

/-- `Scheduler::Run`, after `SWITCH`: delete the thread that has finished, restore the state of
the current thread. -/
def afterSwitch (c : Client τ σ κ δ ε ι) (k : Kernel τ σ κ ε) :
    Except Fault (Kernel τ σ κ ε) :=
  let restored := { k with env := c.restoreState k.currentThread k.env }
  match k.threadToBeDestroyed with
  | none => .ok restored
  | some t =>
    -- `Thread::~Thread` begins with `ASSERT(this != currentThread)`.
    if t = k.currentThread then .error .assertion
    else .ok { restored with
      threadToBeDestroyed := none
      history := { k.history with deleted := k.history.deleted ++ [t] } }

/-! ### Semaphores -/

/-- `Thread::Sleep`, up to its loop. -/
def sleep (k : Kernel τ σ κ ε) : Except Fault (Kernel τ σ κ ε) :=
  if k.level = .off then
    .ok ({ k with status := update k.status k.currentThread .blocked }.push [.sleepLoop])
  else .error .assertion

/-- The loop of `Semaphore::P`: with value 0 the current thread joins the queue and sleeps, and
tests again after that; otherwise it takes a unit. -/
def pLoop (s : σ) (k : Kernel τ σ κ ε) : Except Fault (Kernel τ σ κ ε) :=
  let tested := { k.history with
    woken := update k.history.woken s ((k.history.woken s).erase k.currentThread) }
  if (k.semaphore s).value = 0 then
    { k with
      semaphore := update k.semaphore s
        { k.semaphore s with queue := (k.semaphore s).queue ++ [k.currentThread] }
      history := tested }.push [.retest s] |>.sleep
  else
    .ok { k with
      semaphore := update k.semaphore s
        { k.semaphore s with value := (k.semaphore s).value - 1 }
      history := { tested with downs := update k.history.downs s (k.history.downs s + 1) } }

/-- `Semaphore::P`. -/
def p (s : σ) (k : Kernel τ σ κ ε) : Except Fault (Kernel τ σ κ ε) :=
  pLoop s ({ k with level := .off }.push [.setLevel k.level])

/-- `Semaphore::V` between its two calls of `SetLevel`. -/
def wake (s : σ) (k : Kernel τ σ κ ε) : Kernel τ σ κ ε :=
  match (k.semaphore s).queue with
  | [] =>
    { k with
      semaphore := update k.semaphore s
        { k.semaphore s with value := (k.semaphore s).value + 1 } }
  | t :: queue =>
    { k with
      semaphore := update k.semaphore s ⟨(k.semaphore s).value + 1, queue⟩
      history := { k.history with
        woken := update k.history.woken s (k.history.woken s ++ [t]) } }.readyToRun t

/-- A call of `V` is counted. -/
@[simps -fullyApplied]
def countUp (s : σ) (k : Kernel τ σ κ ε) : Kernel τ σ κ ε :=
  { k with history := { k.history with ups := update k.history.ups s (k.history.ups s + 1) } }

/-- `Semaphore::V`. -/
def v (s : σ) (k : Kernel τ σ κ ε) : Kernel τ σ κ ε :=
  wake s ({ k with level := .off }.push [.setLevel k.level])

/-! ### Threads -/

/-- `Thread::Fork`: the new thread starts in `ThreadRoot`, which enables interrupts, calls `func`
and then `Finish`. A thread is forked at most once. -/
def fork (t : τ) (func : κ) (k : Kernel τ σ κ ε) : Except Fault (Kernel τ σ κ ε) :=
  if k.status t = .justCreated then
    let k' := { k with level := .off }.push [.setLevel k.level]
    .ok ({ k' with
      stack := update k'.stack t [.setLevel .on, .call (.code func), .call .finish]
      history := { k.history with forked := k.history.forked ++ [t] } }.readyToRun t)
  else .error .disabled

/-- `Thread::Yield`. -/
def yield (k : Kernel τ σ κ ε) : Kernel τ σ κ ε :=
  match k.readyList with
  | [] => { k with level := .off }.push [.setLevel k.level]
  | next :: rest =>
    ({ k with level := .off, readyList := rest }.readyToRun k.currentThread).push
      [.run next, .setLevel k.level]

/-- `Thread::Finish`. -/
def finish (k : Kernel τ σ κ ε) : Except Fault (Kernel τ σ κ ε) :=
  { k with
    level := .off
    threadToBeDestroyed := some k.currentThread
    history := { k.history with finished := k.history.finished ++ [k.currentThread] } }.sleep

/-- A thread that calls `Sleep` itself: it disables interrupts, sleeps, and restores the
interrupt level. -/
def sleepDirectly (k : Kernel τ σ κ ε) : Except Fault (Kernel τ σ κ ε) :=
  { k with
    level := .off
    history := { k.history with slept := k.history.slept ++ [k.currentThread] } }.push
      [.setLevel k.level] |>.sleep

/-! ### Interrupts -/

/-- The handlers of the interrupts that are due, in order (`Interrupt::CheckIfDue`). -/
def runHandlers (c : Client τ σ κ δ ε ι) :
    List (Interrupt δ) → Kernel τ σ κ ε → Kernel τ σ κ ε
  | [], k => k
  | .timer :: is, k => runHandlers c is { k with env := c.delayedLoad k.env }
  | .device d :: is, k =>
    runHandlers c is
      (wake (c.handler d) (countUp (c.handler d) { k with env := c.delayedLoad k.env }))

/-- `Interrupt::OneTick`: run the handlers with interrupts off; the timer's makes the current
thread yield on return. -/
def oneTick (c : Client τ σ κ δ ε ι) (is : List (Interrupt δ)) (k : Kernel τ σ κ ε) :
    Kernel τ σ κ ε :=
  let k' := runHandlers c is { k with level := .off }
  if is.any Interrupt.isTimer then { k' with level := .on }.push [.call .yield]
  else { k' with level := .on }

/-- `Interrupt::Idle`: if nothing is pending, Nachos halts. -/
def idle (c : Client τ σ κ δ ε ι) (is : List (Interrupt δ)) (k : Kernel τ σ κ ε) :
    Except Fault (Kernel τ σ κ ε) :=
  if is.isEmpty then .error .halt else .ok (runHandlers c is k)

/-- The loop of `Thread::Sleep`: run the next ready thread, or idle. -/
def sleepLoop (c : Client τ σ κ δ ε ι) (is : List (Interrupt δ)) (k : Kernel τ σ κ ε) :
    Except Fault (Kernel τ σ κ ε) :=
  match k.readyList with
  | [] => (idle c is k).map (push [.sleepLoop])
  | next :: rest => .ok ({ k with readyList := rest }.push [.run next])

/-! ### Steps -/

/-- Execute client code. -/
def exec (c : Client τ σ κ δ ε ι) (code : κ) (i : ι) (k : Kernel τ σ κ ε) :
    Except Fault (Kernel τ σ κ ε) :=
  (c.exec k.currentThread code i k.env).map fun r =>
    { k with env := r.1 }.push (r.2.map .call)

/-- Execute a call of client code. -/
def performCall (c : Client τ σ κ δ ε ι) (i : Input δ ι) (k : Kernel τ σ κ ε) :
    Call τ σ κ → Except Fault (Kernel τ σ κ ε)
  | .p s => k.p s
  | .v s => .ok ((k.countUp s).v s)
  | .fork t func => k.fork t func
  | .yield => .ok k.yield
  | .sleep => k.sleepDirectly
  | .finish => k.finish
  | .oneTick => .ok (k.oneTick c i.interrupts)
  | .code code => k.exec c code i.code

/-- Execute a frame that has been taken off the stack of the current thread. -/
def perform (c : Client τ σ κ δ ε ι) (i : Input δ ι) (k : Kernel τ σ κ ε) :
    Frame τ σ κ → Except Fault (Kernel τ σ κ ε)
  | .call f => k.performCall c i f
  | .setLevel now => .ok (k.setLevel now)
  | .retest s => k.pLoop s
  | .sleepLoop => k.sleepLoop c i.interrupts
  | .run next => .ok (k.run c next)
  | .afterSwitch => k.afterSwitch c

/-- The current thread's stack holds `fs` from now on. -/
@[simps -fullyApplied]
def setStack (fs : List (Frame τ σ κ)) (k : Kernel τ σ κ ε) : Kernel τ σ κ ε :=
  { k with stack := update k.stack k.currentThread fs }

/-- One step: the current thread executes the top frame of its stack. -/
def step (c : Client τ σ κ δ ε ι) (k : Kernel τ σ κ ε) (i : Input δ ι) :
    Except Fault (Kernel τ σ κ ε) :=
  match k.stack k.currentThread with
  | [] => .error .disabled
  | f :: rest => (k.setStack rest).perform c i f

end Kernel

/-- The kernel as `Initialize` leaves it: `main` is the only thread, it runs with interrupts
enabled, executes `start` and then finishes. -/
def boot (main : τ) (start : κ) (value : σ → ℕ) (env : ε) : Kernel τ σ κ ε where
  level := .on
  currentThread := main
  threadToBeDestroyed := none
  readyList := []
  status := update (fun _ => .justCreated) main .running
  semaphore s := ⟨value s, []⟩
  stack := update (fun _ => []) main [.call (.code start), .call .finish]
  env := env
  history := ⟨fun _ => 0, fun _ => 0, fun _ => [], [], [], [], []⟩

/-- The runs of the kernel under a client. -/
def threadSystem (c : Client τ σ κ δ ε ι) (main : τ) (start : κ) (value : σ → ℕ) (env : ε) :
    Foundations.StepSystem (Kernel τ σ κ ε) (Input δ ι) Fault where
  init k := k = boot main start value env
  step := Kernel.step c

end Nachos.Threads
