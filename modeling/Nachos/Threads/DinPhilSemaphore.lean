import Nachos.Threads.Balance
import Nachos.Threads.Neighbours

/-!
# The dining philosophers with semaphores

The functions `DinPhilSemaphore`, `GetSticks`, `Eat`, `PutSticks` and `LeaveRoom` as a program
for the `P` philosophers that `ThreadTest` forks in task 4. A philosopher's function is cut where
it calls `P`, `V` or `Yield`; calls of other functions and the iterations of loops with such calls
in them are pieces of code of their own.

`stage` lists what a philosopher can have still to execute, together with its `PhilState` and
its `done` flag at that point.

## Main definitions

* `Globals`: the shared variables, and the log of what the philosophers do.
* `execute`, `program`: the program.
* `Stage`: the points of the program.

## Main results

* `stage_of_move`: every philosopher is at one of these points.
-/

namespace Nachos.Threads.DinPhilSemaphore

open Function Foundations

variable {P : ℕ}

/-! ### The program -/

/-- `pState`. -/
inductive PState
  | thinking
  | isEating
  | isHungry
  deriving DecidableEq

/-- The semaphores of the task. -/
inductive Sem (P : ℕ)
  | mutex
  | enterMutex
  | leaveMutex
  | sitSemaphore
  | leaveSemaphore
  | mealLeftMutex
  | philGrantSemaphore (i : Fin P)
  deriving DecidableEq

/-- The pieces of code. -/
inductive Code
  | dinPhilSemaphore
  | entered
  /-- `for (; j < P; j++) SitSemaphore->V()`. -/
  | grantSeats (j : ℕ)
  | whileNotDone
  | getSticks
  /-- `GetSticks` after `mutex->P()`. -/
  | hungry
  /-- The loop of `GetSticks`. -/
  | whileHungry
  | eat
  /-- `Eat` after `MealLeftMutex->P()`. -/
  | meal
  | putSticks
  /-- `PutSticks`: what concerns the left neighbour, the right neighbour, and what follows. -/
  | wakeLeft
  | wakeRight
  | think
  | busyWaitingLoop
  | leaveRoom
  /-- `LeaveRoom` after the first `LeaveMutex->P()`. -/
  | readyToLeave
  /-- `for (; j < P; j++) LeaveSemaphore->V()`. -/
  | grantLeave (j : ℕ)
  /-- `LeaveRoom` after the second `LeaveMutex->P()`. -/
  | granted
  deriving DecidableEq

/-- What the philosophers do; the source prints it. -/
inductive Event (P : ℕ)
  | entered (i : Fin P)
  | getsSticks (i : Fin P)
  | eatsMeal (i : Fin P)
  | leavesRoom (i : Fin P)
  deriving DecidableEq

def Event.isMeal : Event P → Bool
  | eatsMeal _ => true
  | _ => false

/-- The shared variables; `log`, which the source does not have, is what happened so far. -/
structure Globals (P : ℕ) where
  mealLeft : ℤ
  numPhilNotIn : ℤ
  philState : Fin P → PState
  done : Fin P → Bool
  leaveGrant : Bool
  numRdyLeave : ℤ
  numGrantLeave : ℤ
  log : List (Event P)

namespace Globals

def setState (i : Fin P) (s : PState) (g : Globals P) : Globals P :=
  { g with philState := update g.philState i s }

def record (e : Event P) (g : Globals P) : Globals P := { g with log := g.log ++ [e] }

/-- The condition under which `GetSticks` takes the chopsticks. -/
def SticksFree (g : Globals P) (i : Fin P) : Prop :=
  g.philState i = .isHungry ∧ g.philState (leftOf i) ≠ .isEating ∧
      g.philState (rightOf i) ≠ .isEating ∧ 2 < P ∨
    g.philState i = .isHungry ∧ g.philState (rightOf i) ≠ .isEating ∧ P = 2

instance (g : Globals P) (i : Fin P) : Decidable (g.SticksFree i) := by
  unfold SticksFree
  infer_instance

end Globals

/-- `while (PhilState[i] == ISHUNGRY)` of `GetSticks`. -/
def whileHungry (i : Fin P) (g : Globals P) : Globals P × List (Op (Sem P) Code) :=
  if g.philState i = .isHungry then
    if g.SticksFree i then
      (g.setState i .isEating, [.v (.philGrantSemaphore i), .v .mutex, .p (.philGrantSemaphore i),
        .run .whileHungry])
    else (g, [.v .mutex, .p (.philGrantSemaphore i), .run .whileHungry])
  else (g, [])

/-- What the philosopher `i` does; `random` is the value of `Random()`. -/
def execute (i : Fin P) (code : Code) (random : ℕ) (g : Globals P) :
    Globals P × List (Op (Sem P) Code) :=
  match code with
  | .dinPhilSemaphore => (g, [.p .enterMutex, .run .entered, .v .enterMutex, .p .sitSemaphore,
      .run .whileNotDone, .run .leaveRoom])
  | .entered => ({ g with numPhilNotIn := g.numPhilNotIn - 1 }.record (.entered i),
      if g.numPhilNotIn - 1 = 0 then [.run (.grantSeats 0)] else [])
  | .grantSeats j => (g, if j < P then [.v .sitSemaphore, .run (.grantSeats (j + 1))] else [])
  | .whileNotDone => (g, if g.done i ≠ true then [.run .getSticks, .run .eat, .run .putSticks,
      .run .busyWaitingLoop, .run .whileNotDone] else [])
  | .getSticks => (g.record (.getsSticks i), [.p .mutex, .run .hungry])
  | .hungry => whileHungry i (g.setState i .isHungry)
  | .whileHungry => whileHungry i g
  | .eat => (g, [.p .mealLeftMutex, .run .meal, .v .mealLeftMutex, .run .busyWaitingLoop])
  | .meal =>
    if g.mealLeft ≠ 0 then ({ g with mealLeft := g.mealLeft - 1 }.record (.eatsMeal i), [])
    else ({ g with done := update g.done i true }, [])
  | .putSticks => (g, [.p .mutex, .run .wakeLeft, .run .wakeRight, .run .think, .v .mutex])
  | .wakeLeft => (g, if g.philState (leftOf i) = .isHungry
      then [.v (.philGrantSemaphore (leftOf i))] else [])
  | .wakeRight => (g, if 2 < P ∧ g.philState (rightOf i) = .isHungry
      then [.v (.philGrantSemaphore (rightOf i))] else [])
  | .think => (g.setState i .thinking, [])
  | .busyWaitingLoop => (g, List.replicate (random % 4 + 2) .yield)
  | .leaveRoom => (g.record (.leavesRoom i), [.p .leaveMutex, .run .readyToLeave, .v .leaveMutex,
      .p .leaveSemaphore, .p .leaveMutex, .run .granted])
  | .readyToLeave => ({ g with numRdyLeave := g.numRdyLeave + 1 },
      if g.numRdyLeave + 1 = P then [.run (.grantLeave 0)] else [])
  | .grantLeave j => (g, if j < P then [.v .leaveSemaphore, .run (.grantLeave (j + 1))] else [])
  | .granted =>
    if g.numGrantLeave < P - 1 then
      ({ g with numGrantLeave := g.numGrantLeave + 1 }, [.v .leaveMutex])
    else if g.leaveGrant = false then ({ g with leaveGrant := true }, [])
    else (g, [])

/-- The function `DinPhilSemaphore`. -/
def program (P : ℕ) : Program P (Sem P) Code (Globals P) ℕ where
  start := .dinPhilSemaphore
  exec i code random g := .ok (execute i code random g)

/-- The initial values of the semaphores. -/
def value : Sem P → ℕ
  | .mutex | .enterMutex | .leaveMutex | .mealLeftMutex => 1
  | .sitSemaphore | .leaveSemaphore | .philGrantSemaphore _ => 0

/-- The shared variables as `ThreadTest` initialises them for `M` meals. -/
def globals (P M : ℕ) : Globals P where
  mealLeft := M
  numPhilNotIn := P
  philState _ := .thinking
  done _ := false
  leaveGrant := false
  numRdyLeave := 0
  numGrantLeave := 0
  log := []

/-- The runs of the task for `P` philosophers and `M` meals. -/
abbrev system (P M : ℕ) := (program P).system value (globals P M)

/-- The states of the task. -/
abbrev State (P : ℕ) := Kernel (Participant P) (Sem P) (TaskCode Code) (Globals P)

/-- What the philosopher `i` has still to execute. -/
abbrev remaining (k : State P) (i : Fin P) : List (Op (Sem P) Code) := (program P).remaining k i

/-! ### The points of the program -/

/-- What follows the round of a philosopher that is not done. -/
abbrev nextRound : List (Op (Sem P) Code) :=
  [.run .busyWaitingLoop, .run .whileNotDone, .run .leaveRoom]

/-- What follows the loop of `GetSticks`. -/
abbrev dinner : List (Op (Sem P) Code) := .run .eat :: .run .putSticks :: nextRound

/-- What the philosopher `i` can have still to execute, by its `PhilState` and its `done`. -/
inductive Stage (i : Fin P) : PState → Bool → List (Op (Sem P) Code) → Prop
  | dinPhilSemaphore : Stage i .thinking false [.run .dinPhilSemaphore]
  | enter : Stage i .thinking false [.p .enterMutex, .run .entered, .v .enterMutex,
      .p .sitSemaphore, .run .whileNotDone, .run .leaveRoom]
  | entered : Stage i .thinking false [.run .entered, .v .enterMutex, .p .sitSemaphore,
      .run .whileNotDone, .run .leaveRoom]
  | grantSeats (j : ℕ) : Stage i .thinking false [.run (.grantSeats j), .v .enterMutex,
      .p .sitSemaphore, .run .whileNotDone, .run .leaveRoom]
  | grantSeat (j : ℕ) (hj : j < P) : Stage i .thinking false [.v .sitSemaphore,
      .run (.grantSeats (j + 1)), .v .enterMutex, .p .sitSemaphore, .run .whileNotDone,
      .run .leaveRoom]
  | exitEnter : Stage i .thinking false [.v .enterMutex, .p .sitSemaphore, .run .whileNotDone,
      .run .leaveRoom]
  | sit : Stage i .thinking false [.p .sitSemaphore, .run .whileNotDone, .run .leaveRoom]
  | whileNotDone (d : Bool) : Stage i .thinking d [.run .whileNotDone, .run .leaveRoom]
  | getSticks : Stage i .thinking false (.run .getSticks :: dinner)
  | lockSticks : Stage i .thinking false (.p .mutex :: .run .hungry :: dinner)
  | hungry : Stage i .thinking false (.run .hungry :: dinner)
  | grant : Stage i .isEating false (.v (.philGrantSemaphore i) :: .v .mutex ::
      .p (.philGrantSemaphore i) :: .run .whileHungry :: dinner)
  | unlockSticks (s : PState) (hs : s ≠ .thinking) : Stage i s false (.v .mutex ::
      .p (.philGrantSemaphore i) :: .run .whileHungry :: dinner)
  | await (s : PState) (hs : s ≠ .thinking) : Stage i s false (.p (.philGrantSemaphore i) ::
      .run .whileHungry :: dinner)
  | whileHungry (s : PState) (hs : s ≠ .thinking) : Stage i s false (.run .whileHungry :: dinner)
  | eat : Stage i .isEating false dinner
  | lockMeal : Stage i .isEating false (.p .mealLeftMutex :: .run .meal :: .v .mealLeftMutex ::
      .run .busyWaitingLoop :: .run .putSticks :: nextRound)
  | meal : Stage i .isEating false (.run .meal :: .v .mealLeftMutex :: .run .busyWaitingLoop ::
      .run .putSticks :: nextRound)
  | unlockMeal (d : Bool) : Stage i .isEating d (.v .mealLeftMutex :: .run .busyWaitingLoop ::
      .run .putSticks :: nextRound)
  | digest (d : Bool) : Stage i .isEating d (.run .busyWaitingLoop :: .run .putSticks :: nextRound)
  | putSticks (d : Bool) : Stage i .isEating d (.run .putSticks :: nextRound)
  | relockSticks (d : Bool) : Stage i .isEating d (.p .mutex :: .run .wakeLeft ::
      .run .wakeRight :: .run .think :: .v .mutex :: nextRound)
  | wakeLeft (d : Bool) : Stage i .isEating d (.run .wakeLeft :: .run .wakeRight :: .run .think ::
      .v .mutex :: nextRound)
  | wakingLeft (d : Bool) : Stage i .isEating d (.v (.philGrantSemaphore (leftOf i)) ::
      .run .wakeRight :: .run .think :: .v .mutex :: nextRound)
  | wakeRight (d : Bool) : Stage i .isEating d (.run .wakeRight :: .run .think :: .v .mutex ::
      nextRound)
  | wakingRight (d : Bool) : Stage i .isEating d (.v (.philGrantSemaphore (rightOf i)) ::
      .run .think :: .v .mutex :: nextRound)
  | think (d : Bool) : Stage i .isEating d (.run .think :: .v .mutex :: nextRound)
  | reunlockSticks (d : Bool) : Stage i .thinking d (.v .mutex :: nextRound)
  | rest (d : Bool) : Stage i .thinking d nextRound
  | leaveRoom : Stage i .thinking true [.run .leaveRoom]
  | lockLeave : Stage i .thinking true [.p .leaveMutex, .run .readyToLeave, .v .leaveMutex,
      .p .leaveSemaphore, .p .leaveMutex, .run .granted]
  | readyToLeave : Stage i .thinking true [.run .readyToLeave, .v .leaveMutex,
      .p .leaveSemaphore, .p .leaveMutex, .run .granted]
  | grantLeaves (j : ℕ) : Stage i .thinking true [.run (.grantLeave j), .v .leaveMutex,
      .p .leaveSemaphore, .p .leaveMutex, .run .granted]
  | grantLeave (j : ℕ) (hj : j < P) : Stage i .thinking true [.v .leaveSemaphore,
      .run (.grantLeave (j + 1)), .v .leaveMutex, .p .leaveSemaphore, .p .leaveMutex,
      .run .granted]
  | unlockLeave : Stage i .thinking true [.v .leaveMutex, .p .leaveSemaphore, .p .leaveMutex,
      .run .granted]
  | awaitLeave : Stage i .thinking true [.p .leaveSemaphore, .p .leaveMutex, .run .granted]
  | relockLeave : Stage i .thinking true [.p .leaveMutex, .run .granted]
  | granted : Stage i .thinking true [.run .granted]
  | lastUnlock : Stage i .thinking true [.v .leaveMutex]
  | left : Stage i .thinking true []

namespace Stage

variable {i : Fin P}

/-- Completing a call of the kernel leads to the next point. -/
theorem tail {s : PState} {d : Bool} {o : Op (Sem P) Code} {rest : List (Op (Sem P) Code)}
    (h : Stage i s d (o :: rest)) (ho : ∀ code, o ≠ .run code) : Stage i s d rest := by
  cases h with
  | grant => exact .unlockSticks _ (by simp)
  | unlockSticks s hs => exact .await s hs
  | await s hs => exact .whileHungry s hs
  | _ => first | exact absurd rfl (ho _) | constructor

/-- The loop of `GetSticks` leads to the next point. -/
private theorem whileHungry_of_ne {g : Globals P} (hs : g.philState i ≠ .thinking)
    (hd : g.done i = false) :
    Stage i ((DinPhilSemaphore.whileHungry i g).1.philState i)
      ((DinPhilSemaphore.whileHungry i g).1.done i)
      ((DinPhilSemaphore.whileHungry i g).2.filter Op.isWork ++ dinner) := by
  unfold DinPhilSemaphore.whileHungry
  split_ifs with hh hf
  · simpa [Globals.setState, hd] using Stage.grant
  · simpa [hh, hd] using Stage.unlockSticks (i := i) .isHungry (by simp)
  · have he : g.philState i = .isEating := by
      cases hg : g.philState i <;> simp_all
    simpa [he, hd] using Stage.eat

/-- Executing code leads to the next point. -/
theorem execute {g : Globals P} {code : Code} {rest : List (Op (Sem P) Code)}
    (h : Stage i (g.philState i) (g.done i) (.run code :: rest)) (random : ℕ) :
    Stage i ((execute i code random g).1.philState i) ((execute i code random g).1.done i)
      ((execute i code random g).2.filter Op.isWork ++ rest) := by
  generalize hs : g.philState i = s at h
  generalize hd : g.done i = d at h
  cases h with
  | hungry =>
    exact whileHungry_of_ne (g := g.setState i .isHungry) (by simp [Globals.setState]) hd
  | whileHungry _ hne => exact whileHungry_of_ne (hs ▸ hne) hd
  | entered | grantSeats | wakeLeft | wakeRight | readyToLeave | grantLeaves =>
    simp only [DinPhilSemaphore.execute, Globals.record, hs, hd]
    split_ifs
    all_goals constructor
    all_goals assumption
  | whileNotDone d =>
    cases d <;> simp only [DinPhilSemaphore.execute, hs, hd] <;> constructor
  | meal =>
    simp only [DinPhilSemaphore.execute, Globals.record]
    split_ifs <;> simp only [hs, hd, update_self] <;> constructor
  | granted =>
    simp only [DinPhilSemaphore.execute]
    split_ifs <;> simp only [hs, hd] <;> constructor
  | _ =>
    simp [DinPhilSemaphore.execute, hs, hd, Globals.record, Globals.setState]
    constructor

end Stage

/-- A philosopher writes only its own `PhilState` and `done`. -/
theorem execute_of_ne {i j : Fin P} (hj : j ≠ i) (code : Code) (random : ℕ) (g : Globals P) :
    (execute i code random g).1.philState j = g.philState j ∧
      (execute i code random g).1.done j = g.done j := by
  cases code with
  | hungry | whileHungry =>
    simp only [execute, whileHungry]
    split_ifs <;> simp [Globals.setState, hj]
  | meal | granted =>
    simp only [execute]
    split_ifs <;> simp [Globals.record, hj]
  | _ => simp [execute, Globals.record, Globals.setState, hj]

/-- What a philosopher executes. -/
theorem executes_eq {k k' : State P} {input : Input Empty ℕ} {i : Fin P} {code : Code}
    {rest ops : List (Op (Sem P) Code)}
    (h : (program P).Executes k input k' i code rest ops) :
    k'.env = (execute i code input.code k.env).1 ∧ ops = (execute i code input.code k.env).2 := by
  have hx := Except.ok.inj h.exec
  exact ⟨congrArg Prod.fst hx.symm, congrArg Prod.snd hx.symm⟩

/-- Every philosopher is at a point of the program. -/
def Staged (k : State P) : Prop :=
  ∀ i, Stage i (k.env.philState i) (k.env.done i) (remaining k i)

/-- A move leads every philosopher from a point of the program to a point of the program. -/
theorem Staged.move {k k' : State P} {input : Input Empty ℕ} (h : Staged k)
    (hm : (program P).Move k input k') : Staged k' := by
  refine hm.forall_remaining (Q := fun i g => Stage i (g.philState i) (g.done i)) h
    (fun i o rest hst ho => hst.tail ho) ?_ ?_
  · intro i code rest ops hx hst
    obtain ⟨henv, rfl⟩ := executes_eq hx
    rw [henv]
    exact hst.execute input.code
  · intro i code rest ops hx j hj hst
    obtain ⟨henv, -⟩ := executes_eq hx
    obtain ⟨hs, hd⟩ := execute_of_ne hj code input.code k.env
    rwa [henv, hs, hd]

theorem staged_boot (M : ℕ) : Staged (Program.boot value (globals P M) : State P) := by
  intro i
  unfold remaining
  rw [Program.remaining_boot]
  exact .dinPhilSemaphore

end Nachos.Threads.DinPhilSemaphore
