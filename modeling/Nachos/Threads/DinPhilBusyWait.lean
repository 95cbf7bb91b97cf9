import Mathlib.Data.Finset.Card
import Nachos.Threads.Balance
import Nachos.Threads.Neighbours

/-!
# The dining philosophers with busy waiting

The functions `DinPhilBusyWait`, `ReachChopStick` and `BusyWaitingLoop` as a program for the `P`
philosophers that `ThreadTest` forks in task 3. There are no semaphores: chopsticks are flags, and
a philosopher gives up the processor only by `Yield`. A flag is tested and taken in one piece of
code, and every branch puts back what it has taken.

Who holds which chopstick, who eats, and how many meals have begun and ended is not kept by the
source; it follows what the source prints.

## Main definitions

* `Globals`: the shared variables, the local variables, and what happened so far.
* `execute`, `program`: the program.
* `Stage`: the points of the program.
* `Safe`: the invariant.

## Main results

* `dinPhilBusyWait_safe`: safety in every reachable state.
-/

namespace Nachos.Threads.DinPhilBusyWait

open Function Foundations StepSystem

variable {P : ℕ}

/-! ### The program -/

/-- The pieces of code. -/
inductive Code (P : ℕ)
  | dinPhilBusyWait
  /-- `while (NumPhilNotIn > 0)`. -/
  | waitToSit
  /-- `while (MealLeft != 0)`. -/
  | whileMealLeft
  /-- The loop of `ReachChopStick(c)`, after `checkCnt` failures. -/
  | reachChopStick (c : Fin P) (checkCnt : ℕ)
  /-- What follows the two calls of `ReachChopStick`. -/
  | pickedLeft
  | pickedRight
  /-- `if (AbortPickup == false)`. -/
  | proceed
  | finishEating
  | dropSticks
  | think
  | busyWaitingLoop
  | readyToLeave
  /-- `while (PhilosopherLeaveRdy < P)`. -/
  | waitToLeave
  deriving DecidableEq

/-- The local variables of `DinPhilBusyWait`, and the value that `ReachChopStick` returned. -/
structure Locals where
  abortPickup : Bool := false
  pickupLeft : Bool := false
  pickupRight : Bool := false
  pickup : Bool := false

/-- The shared variables and the local variables of the philosophers. -/
structure Globals (P : ℕ) where
  mealLeft : ℤ
  philosopherLeaveRdy : ℤ
  chopstick : Fin P → ℤ
  numPhilNotIn : ℤ
  seatGrant : Bool
  leaveGrant : Bool
  locals : Fin P → Locals
  /-- The philosophers that have picked up a chopstick and have not put it back. -/
  holders : Fin P → Finset (Fin P)
  /-- The philosophers that have begun a meal and have not finished it. -/
  eating : Finset (Fin P)
  /-- The numbers of meals that have begun and that have been finished. -/
  begun : ℕ
  finished : ℕ
  /-- The flag of some chopstick has been read or written. -/
  touched : Bool
  /-- The philosophers that have joined and those that are ready to leave. -/
  joined : Finset (Fin P)
  ready : Finset (Fin P)

namespace Globals

/-- `chopstick[c] = 0`, by the philosopher `i`. -/
def pickUp (i c : Fin P) (g : Globals P) : Globals P :=
  { g with
    chopstick := update g.chopstick c 0
    holders := update g.holders c (insert i (g.holders c)) }

/-- `chopstick[c] = 1`, by the philosopher `i`. -/
def putDown (i c : Fin P) (g : Globals P) : Globals P :=
  { g with
    chopstick := update g.chopstick c 1
    holders := update g.holders c ((g.holders c).erase i) }

def setLocals (i : Fin P) (l : Locals) (g : Globals P) : Globals P :=
  { g with locals := update g.locals i l }

end Globals

/-- What the philosopher `i` does; `random` is the value of `Random()`. -/
def execute (i : Fin P) (code : Code P) (random : ℕ) (g : Globals P) :
    Globals P × List (Op Empty (Code P)) :=
  let l := g.locals i
  match code with
  | .dinPhilBusyWait =>
    ({ g with numPhilNotIn := g.numPhilNotIn - 1, joined := insert i g.joined }.setLocals i {},
      [.run .waitToSit, .run .whileMealLeft, .run .readyToLeave])
  | .waitToSit =>
    if 0 < g.numPhilNotIn then (g, [.yield, .run .waitToSit])
    else if g.numPhilNotIn = 0 ∧ g.seatGrant = false then ({ g with seatGrant := true }, [])
    else (g, [])
  | .whileMealLeft => (g, if g.mealLeft ≠ 0 then [.run (.reachChopStick i 0), .run .pickedLeft,
      .run .proceed, .run .think, .run .whileMealLeft] else [])
  | .reachChopStick c checkCnt =>
    if checkCnt ≠ 5 then
      if g.chopstick c = 1 then
        (({ g with touched := true }.pickUp i c).setLocals i { l with pickup := true }, [])
      else ({ g with touched := true },
        [.run .busyWaitingLoop, .run (.reachChopStick c (checkCnt + 1))])
    else (g.setLocals i { l with pickup := false }, [])
  | .pickedLeft =>
    if l.pickup = true then (g.setLocals i { l with pickupLeft := true },
      [.run (.reachChopStick (rightOf i) 0), .run .pickedRight])
    else (g.setLocals i { l with pickupLeft := false, abortPickup := true }, [])
  | .pickedRight =>
    if l.pickup = true then (g.setLocals i { l with pickupRight := true }, [])
    else ((g.putDown i i).setLocals i { l with pickupRight := false, abortPickup := true }, [])
  | .proceed =>
    if l.abortPickup = false then
      if g.mealLeft = 0 then (g, [.run .dropSticks])
      else
        ({ g with
            mealLeft := g.mealLeft - 1
            begun := g.begun + 1
            eating := insert i g.eating },
          [.run .busyWaitingLoop, .run .finishEating, .run .dropSticks])
    else (g, [])
  | .finishEating =>
    ({ g with finished := g.finished + 1, eating := g.eating.erase i }, [])
  | .dropSticks => ((g.putDown i i).putDown i (rightOf i), [])
  | .think => (g.setLocals i {}, [.run .busyWaitingLoop])
  | .busyWaitingLoop => (g, List.replicate (random % 4 + 2) .yield)
  | .readyToLeave =>
    ({ g with
        philosopherLeaveRdy := g.philosopherLeaveRdy + 1
        ready := insert i g.ready }, [.run .waitToLeave])
  | .waitToLeave =>
    if g.philosopherLeaveRdy < P then (g, [.run .busyWaitingLoop, .run .waitToLeave])
    else if g.philosopherLeaveRdy = P ∧ g.leaveGrant = false then
      ({ g with leaveGrant := true }, [])
    else (g, [])

/-- The function `DinPhilBusyWait`. -/
def program (P : ℕ) : Program P Empty (Code P) (Globals P) ℕ where
  start := .dinPhilBusyWait
  exec i code random g := .ok (execute i code random g)

/-- The shared variables as `ThreadTest` initialises them for `M` meals. -/
def globals (P M : ℕ) : Globals P where
  mealLeft := M
  philosopherLeaveRdy := 0
  chopstick _ := 1
  numPhilNotIn := P
  seatGrant := false
  leaveGrant := false
  locals _ := {}
  holders _ := ∅
  eating := ∅
  begun := 0
  finished := 0
  touched := false
  joined := ∅
  ready := ∅

/-- The runs of the task for `P` philosophers and `M` meals. -/
abbrev system (P M : ℕ) := (program P).system Empty.elim (globals P M)

/-- The states of the task. -/
abbrev State (P : ℕ) := Kernel (Participant P) Empty (TaskCode (Code P)) (Globals P)

/-- What the philosopher `i` has still to execute. -/
abbrev remaining (k : State P) (i : Fin P) : List (Op Empty (Code P)) := (program P).remaining k i

/-! ### The points of the program -/

/-- What the shared variables say about one philosopher: its local variables, whether it holds its
left and its right chopstick, and how far it has come. -/
structure View where
  pickup : Bool := false
  abort : Bool := false
  left : Bool := false
  right : Bool := false
  eating : Bool := false
  joined : Bool := true
  ready : Bool := false

/-- The view of the philosopher `i`. -/
def Globals.view (g : Globals P) (i : Fin P) : View where
  pickup := (g.locals i).pickup
  abort := (g.locals i).abortPickup
  left := decide (i ∈ g.holders i)
  right := decide (i ∈ g.holders (rightOf i))
  eating := decide (i ∈ g.eating)
  joined := decide (i ∈ g.joined)
  ready := decide (i ∈ g.ready)

theorem Globals.view_eq_iff {g : Globals P} {i : Fin P} {v : View} : g.view i = v ↔
    (g.locals i).pickup = v.pickup ∧ (g.locals i).abortPickup = v.abort ∧
      (i ∈ g.holders i ↔ v.left = true) ∧ (i ∈ g.holders (rightOf i) ↔ v.right = true) ∧
      (i ∈ g.eating ↔ v.eating = true) ∧ (i ∈ g.joined ↔ v.joined = true) ∧
      (i ∈ g.ready ↔ v.ready = true) := by
  have hdec : ∀ (p : Prop) [Decidable p] (b : Bool), decide p = b ↔ (p ↔ b = true) :=
    fun p _ b => by cases b <;> simp
  cases v
  simp only [view, View.mk.injEq, hdec]

/-- What follows the iteration of the main loop. -/
abbrev nextMeal : List (Op Empty (Code P)) := [.run .whileMealLeft, .run .readyToLeave]

/-- What the philosopher `i` can have still to execute, by its view. -/
inductive Stage (i : Fin P) : View → List (Op Empty (Code P)) → Prop
  | dinPhilBusyWait (p a : Bool) :
    Stage i { pickup := p, abort := a, joined := false } [.run .dinPhilBusyWait]
  | waitToSit : Stage i {} (.run .waitToSit :: nextMeal)
  | whileMealLeft : Stage i {} nextMeal
  | reachLeft (n : ℕ) : Stage i {} (.run (.reachChopStick i n) :: .run .pickedLeft ::
      .run .proceed :: .run .think :: nextMeal)
  | busyLeft (n : ℕ) : Stage i {} (.run .busyWaitingLoop :: .run (.reachChopStick i n) ::
      .run .pickedLeft :: .run .proceed :: .run .think :: nextMeal)
  | pickedLeft (p : Bool) : Stage i { pickup := p, left := p }
      (.run .pickedLeft :: .run .proceed :: .run .think :: nextMeal)
  | reachRight (n : ℕ) : Stage i { pickup := true, left := true }
      (.run (.reachChopStick (rightOf i) n) :: .run .pickedRight :: .run .proceed ::
        .run .think :: nextMeal)
  | busyRight (n : ℕ) : Stage i { pickup := true, left := true }
      (.run .busyWaitingLoop :: .run (.reachChopStick (rightOf i) n) :: .run .pickedRight ::
        .run .proceed :: .run .think :: nextMeal)
  | pickedRight (p : Bool) : Stage i { pickup := p, left := true, right := p }
      (.run .pickedRight :: .run .proceed :: .run .think :: nextMeal)
  | proceed (p : Bool) : Stage i { pickup := p, abort := !p, left := p, right := p }
      (.run .proceed :: .run .think :: nextMeal)
  | eat : Stage i { pickup := true, left := true, right := true, eating := true }
      (.run .busyWaitingLoop :: .run .finishEating :: .run .dropSticks :: .run .think :: nextMeal)
  | finishEating : Stage i { pickup := true, left := true, right := true, eating := true }
      (.run .finishEating :: .run .dropSticks :: .run .think :: nextMeal)
  | dropSticks : Stage i { pickup := true, left := true, right := true }
      (.run .dropSticks :: .run .think :: nextMeal)
  | think (p a : Bool) : Stage i { pickup := p, abort := a } (.run .think :: nextMeal)
  | busyThink : Stage i {} (.run .busyWaitingLoop :: nextMeal)
  | readyToLeave : Stage i {} [.run .readyToLeave]
  | waitToLeave : Stage i { ready := true } [.run .waitToLeave]
  | busyLeave : Stage i { ready := true } [.run .busyWaitingLoop, .run .waitToLeave]
  | left : Stage i { ready := true } []

namespace Stage

variable {i : Fin P} {v : View} {ops : List (Op Empty (Code P))}

/-- There is no semaphore to call. -/
theorem eq_run {o : Op Empty (Code P)} (h : Stage i v (o :: ops)) : ∃ code, o = .run code := by
  cases h <;> exact ⟨_, rfl⟩

theorem of_view {g : Globals P} (h : Stage i v ops) (hv : g.view i = v) :
    Stage i (g.view i) ops :=
  hv ▸ h

/-- Executing code leads to the next point. -/
theorem execute {g : Globals P} {code : Code P} (hP : 2 ≤ P)
    (h : Stage i (g.view i) (.run code :: ops)) (random : ℕ) :
    Stage i ((execute i code random g).1.view i)
      ((execute i code random g).2.filter Op.isWork ++ ops) := by
  have hne := rightOf_ne hP i
  generalize hv : g.view i = v at h
  rw [Globals.view_eq_iff] at hv
  cases h with
  | dinPhilBusyWait p a =>
    exact waitToSit.of_view (by simp [DinPhilBusyWait.execute, Globals.view, Globals.setLocals, hv])
  | waitToSit =>
    simp only [DinPhilBusyWait.execute]
    split_ifs
    · exact waitToSit.of_view (by simp [Globals.view, hv])
    · exact whileMealLeft.of_view (by simp [Globals.view, hv])
    · exact whileMealLeft.of_view (by simp [Globals.view, hv])
  | whileMealLeft =>
    simp only [DinPhilBusyWait.execute]
    split_ifs
    · exact (reachLeft 0).of_view (by simp [Globals.view, hv])
    · exact readyToLeave.of_view (by simp [Globals.view, hv])
  | reachLeft n =>
    simp only [DinPhilBusyWait.execute]
    split_ifs
    · exact (pickedLeft true).of_view
        (by simp [Globals.view, Globals.pickUp, Globals.setLocals, hne, hv])
    · exact (busyLeft (n + 1)).of_view (by simp [Globals.view, hv])
    · exact (pickedLeft false).of_view (by simp [Globals.view, Globals.setLocals, hv])
  | busyLeft n =>
    simpa [DinPhilBusyWait.execute] using (reachLeft n).of_view (by simp [Globals.view, hv])
  | pickedLeft p =>
    cases p with
    | true =>
      simp only [DinPhilBusyWait.execute, hv, if_true]
      exact (reachRight 0).of_view (by simp [Globals.view, Globals.setLocals, hv])
    | false =>
      simp only [DinPhilBusyWait.execute, hv]
      exact (proceed false).of_view (by simp [Globals.view, Globals.setLocals, hv])
  | reachRight n =>
    simp only [DinPhilBusyWait.execute]
    split_ifs
    · exact (pickedRight true).of_view
        (by simp [Globals.view, Globals.pickUp, Globals.setLocals, hne.symm, hv])
    · exact (busyRight (n + 1)).of_view (by simp [Globals.view, hv])
    · exact (pickedRight false).of_view (by simp [Globals.view, Globals.setLocals, hv])
  | busyRight n =>
    simpa [DinPhilBusyWait.execute] using (reachRight n).of_view (by simp [Globals.view, hv])
  | pickedRight p =>
    cases p with
    | true =>
      simp only [DinPhilBusyWait.execute, hv, if_true]
      exact (proceed true).of_view (by simp [Globals.view, Globals.setLocals, hv])
    | false =>
      simp only [DinPhilBusyWait.execute, hv]
      exact (proceed false).of_view
        (by simp [Globals.view, Globals.putDown, Globals.setLocals, hne, hv])
  | proceed p =>
    cases p with
    | true =>
      simp only [DinPhilBusyWait.execute, hv, Bool.not_true, if_true]
      split_ifs
      · exact dropSticks.of_view (by simp [Globals.view, hv])
      · exact eat.of_view (by simp [Globals.view, hv])
    | false =>
      simp only [DinPhilBusyWait.execute, hv]
      exact (think false true).of_view (by simp [Globals.view, hv])
  | eat => simpa [DinPhilBusyWait.execute] using finishEating.of_view (by simp [Globals.view, hv])
  | finishEating => exact dropSticks.of_view (by simp [DinPhilBusyWait.execute, Globals.view, hv])
  | dropSticks =>
    exact (think true false).of_view
      (by simp [DinPhilBusyWait.execute, Globals.view, Globals.putDown, hne, hne.symm, hv])
  | think p a =>
    exact busyThink.of_view (by simp [DinPhilBusyWait.execute, Globals.view, Globals.setLocals, hv])
  | busyThink =>
    simpa [DinPhilBusyWait.execute] using whileMealLeft.of_view (by simp [Globals.view, hv])
  | readyToLeave => exact waitToLeave.of_view (by simp [DinPhilBusyWait.execute, Globals.view, hv])
  | waitToLeave =>
    simp only [DinPhilBusyWait.execute]
    split_ifs
    · exact busyLeave.of_view (by simp [Globals.view, hv])
    · exact left.of_view (by simp [Globals.view, hv])
    · exact left.of_view (by simp [Globals.view, hv])
  | busyLeave =>
    simpa [DinPhilBusyWait.execute] using waitToLeave.of_view (by simp [Globals.view, hv])

end Stage

/-! ### What one piece of code does -/

variable {i : Fin P} {code : Code P} {random : ℕ} {g : Globals P}

/-- A philosopher does not change what the shared variables say about another one. -/
theorem view_of_ne {j : Fin P} (hj : j ≠ i) (code : Code P) (random : ℕ) (g : Globals P) :
    (execute i code random g).1.view j = g.view j := by
  have hmem : ∀ (c d : Fin P) (f : Fin P → Finset (Fin P)) (s : Finset (Fin P)),
      (j ∈ s ↔ j ∈ f d) → (j ∈ update f d s c ↔ j ∈ f c) := by
    intro c d f s hs
    by_cases hc : c = d
    · subst hc
      simpa using hs
    · simp [hc]
  rw [Globals.view_eq_iff]
  cases code with
  | waitToSit | proceed | waitToLeave =>
    simp only [execute]
    split_ifs <;> simp [Globals.view, hj]
  | reachChopStick c n =>
    simp only [execute]
    split_ifs <;> simp [Globals.view, Globals.pickUp, Globals.setLocals, hj, hmem]
  | pickedLeft | pickedRight =>
    simp only [execute]
    split_ifs <;> simp [Globals.view, Globals.putDown, Globals.setLocals, hj, hmem]
  | dropSticks => simp [execute, Globals.view, Globals.putDown, hj, hmem]
  | _ => simp [execute, Globals.view, Globals.setLocals, hj]

/-- What a loop waits for stays so. -/
theorem execute_mono (i : Fin P) (code : Code P) (random : ℕ) (g : Globals P) :
    (execute i code random g).1.numPhilNotIn ≤ g.numPhilNotIn ∧
      (g.mealLeft = 0 → (execute i code random g).1.mealLeft = 0) ∧
      g.philosopherLeaveRdy ≤ (execute i code random g).1.philosopherLeaveRdy := by
  cases code with
  | waitToSit | proceed | waitToLeave | reachChopStick | pickedLeft | pickedRight =>
    simp only [execute]
    split_ifs <;> simp_all [Globals.pickUp, Globals.putDown, Globals.setLocals]
  | _ => simp [execute, Globals.setLocals, Globals.putDown]

/-! ### What a philosopher has left behind -/

/-- What the philosopher `i` has still to execute fits the shared variables: it is at a point of
the program, and the loops that it has left have nothing to wait for. -/
structure At (i : Fin P) (g : Globals P) (ops : List (Op Empty (Code P))) : Prop where
  stage : Stage i (g.view i) ops
  seated : .run .dinPhilBusyWait ∈ ops ∨ .run .waitToSit ∈ ops ∨ g.numPhilNotIn ≤ 0
  noMeal : .run .dinPhilBusyWait ∈ ops ∨ .run .whileMealLeft ∈ ops ∨ g.mealLeft = 0
  allReady : .run .dinPhilBusyWait ∈ ops ∨ .run .readyToLeave ∈ ops ∨
    .run .waitToLeave ∈ ops ∨ P ≤ g.philosopherLeaveRdy

namespace At

variable {rest : List (Op Empty (Code P))}

theorem tail {o : Op Empty (Code P)} (h : At i g (o :: rest)) (ho : ∀ code, o ≠ .run code) :
    At i g rest := by
  obtain ⟨code, rfl⟩ := h.stage.eq_run
  exact absurd rfl (ho code)

/-- Another philosopher executes code. -/
theorem frame {j : Fin P} {ops : List (Op Empty (Code P))} (h : At j g ops) (hj : j ≠ i)
    (code : Code P) (random : ℕ) : At j (execute i code random g).1 ops := by
  obtain ⟨hn, hm, hr⟩ := execute_mono i code random g
  refine ⟨view_of_ne hj code random g ▸ h.stage, ?_, ?_, ?_⟩
  · exact h.seated.imp_right (.imp_right hn.trans)
  · exact h.noMeal.imp_right (.imp_right hm)
  · exact h.allReady.imp_right (.imp_right (.imp_right hr.trans'))

/-- A philosopher executes code. -/
theorem execute (hP : 2 ≤ P) (h : At i g (.run code :: rest)) (random : ℕ) :
    At i (execute i code random g).1
      ((execute i code random g).2.filter Op.isWork ++ rest) := by
  obtain ⟨hst, hseat, hmeal, hready⟩ := h
  obtain ⟨hn, hm, hr⟩ := execute_mono i code random g
  refine ⟨hst.execute hP random, ?_, ?_, ?_⟩
  · cases code with
    | dinPhilBusyWait => simp [DinPhilBusyWait.execute]
    | waitToSit =>
      simp only [DinPhilBusyWait.execute]
      split_ifs <;> simp <;> omega
    | _ =>
      simp only [List.mem_cons, Op.run.injEq, reduceCtorEq, false_or, List.mem_append] at hseat ⊢
      exact hseat.imp .inr (.imp .inr hn.trans)
  · cases code with
    | dinPhilBusyWait => simp [DinPhilBusyWait.execute]
    | whileMealLeft =>
      simp only [DinPhilBusyWait.execute]
      split_ifs with hm
      · simp
      · simp [not_not.1 hm]
    | _ =>
      simp only [List.mem_cons, Op.run.injEq, reduceCtorEq, false_or, List.mem_append] at hmeal ⊢
      exact hmeal.imp .inr (.imp .inr hm)
  · cases code with
    | dinPhilBusyWait => simp [DinPhilBusyWait.execute]
    | readyToLeave => simp [DinPhilBusyWait.execute]
    | waitToLeave =>
      simp only [DinPhilBusyWait.execute]
      split_ifs <;> simp <;> omega
    | _ =>
      simp only [List.mem_cons, Op.run.injEq, reduceCtorEq, false_or, List.mem_append] at hready ⊢
      exact hready.imp .inr (.imp .inr (.imp .inr hr.trans'))

end At

/-! ### The chopsticks -/

/-- A chopstick is free, or it is held by one philosopher that sits next to it. -/
def Globals.StickKept (g : Globals P) (c : Fin P) : Prop :=
  g.chopstick c = 1 ∧ g.holders c = ∅ ∨
    g.chopstick c = 0 ∧ ∃ i, g.holders c = {i} ∧ (c = i ∨ c = rightOf i)

namespace Globals.StickKept

variable {c d : Fin P}

/-- A free chopstick is picked up. -/
theorem pickUp (h : g.StickKept d) (hc : g.chopstick c = 1) (hu : c = i ∨ c = rightOf i) :
    (g.pickUp i c).StickKept d := by
  by_cases hd : d = c
  · subst hd
    have hfree : g.holders d = ∅ := by
      rcases h with ⟨-, hfree⟩ | ⟨hzero, -⟩
      · exact hfree
      · simp [hzero] at hc
    exact .inr ⟨by simp [Globals.pickUp], i, by simp [Globals.pickUp, hfree], hu⟩
  · simpa [StickKept, Globals.pickUp, hd] using h

/-- A chopstick is put back by the philosopher that holds it. -/
theorem putDown (h : g.StickKept d) (hi : i ∈ g.holders c) : (g.putDown i c).StickKept d := by
  by_cases hd : d = c
  · subst hd
    have hone : g.holders d = {i} := by
      rcases h with ⟨-, hfree⟩ | ⟨-, j, hj, -⟩
      · simp [hfree] at hi
      · rw [hj, Finset.mem_singleton] at hi
        rw [hj, hi]
    exact .inl ⟨by simp [Globals.putDown], by simp [Globals.putDown, hone]⟩
  · simpa [StickKept, Globals.putDown, hd] using h

/-- Executing code keeps all chopsticks. -/
theorem execute (hP : 2 ≤ P) {rest : List (Op Empty (Code P))} (h : ∀ c, g.StickKept c)
    (hst : Stage i (g.view i) (.run code :: rest)) (random : ℕ) (d : Fin P) :
    (execute i code random g).1.StickKept d := by
  generalize hv : g.view i = v at hst
  rw [Globals.view_eq_iff] at hv
  cases code with
  | waitToSit | waitToLeave | proceed | pickedLeft =>
    simp only [DinPhilBusyWait.execute]
    split_ifs <;> exact h d
  | reachChopStick c n =>
    have hu : c = i ∨ c = rightOf i := by cases hst <;> simp
    simp only [DinPhilBusyWait.execute]
    split_ifs with hn hc
    · exact (show StickKept { g with touched := true } d from h d).pickUp hc hu
    · exact h d
    · exact h d
  | pickedRight =>
    have hi : i ∈ g.holders i := by cases hst; simp [hv]
    simp only [DinPhilBusyWait.execute]
    split_ifs
    · exact h d
    · exact (h d).putDown hi
  | dropSticks =>
    obtain ⟨hi, hr⟩ : i ∈ g.holders i ∧ i ∈ g.holders (rightOf i) := by cases hst; simp [hv]
    exact ((h d).putDown hi).putDown (by simp [Globals.putDown, rightOf_ne hP, hr])
  | _ => exact h d

end Globals.StickKept

/-! ### The invariant -/

/-- The counters agree with what has happened. -/
structure Accounts (M : ℕ) (g : Globals P) : Prop where
  mealLeft_nonneg : 0 ≤ g.mealLeft
  meals : g.mealLeft + g.begun = M
  eating : g.finished + g.eating.card = g.begun
  absent : g.numPhilNotIn + g.joined.card = P
  ready : g.philosopherLeaveRdy = g.ready.card
  touched : g.touched = true → g.joined = Finset.univ

namespace Accounts

variable {M : ℕ} {rest : List (Op Empty (Code P))}

/-- If nobody is missing, all have joined. -/
theorem joined_eq_univ (h : Accounts M g) (hn : g.numPhilNotIn ≤ 0) : g.joined = Finset.univ := by
  have habsent := h.absent
  have hle := g.joined.card_le_univ
  rw [Fintype.card_fin] at hle
  rw [← Finset.card_eq_iff_eq_univ, Fintype.card_fin]
  omega

theorem ready_eq_univ (h : Accounts M g) (hn : P ≤ g.philosopherLeaveRdy) :
    g.ready = Finset.univ := by
  have hready := h.ready
  have hle := g.ready.card_le_univ
  rw [Fintype.card_fin] at hle
  rw [← Finset.card_eq_iff_eq_univ, Fintype.card_fin]
  omega

/-- Executing code keeps the accounts. -/
theorem execute (h : Accounts M g) (hat : At i g (.run code :: rest)) (random : ℕ) :
    Accounts M (execute i code random g).1 := by
  obtain ⟨hst, hseat, -, -⟩ := hat
  generalize hv : g.view i = v at hst
  rw [Globals.view_eq_iff] at hv
  cases code with
  | dinPhilBusyWait =>
    have hi : i ∉ g.joined := by cases hst; simp [hv]
    refine { h with absent := ?_, touched := fun ht => ?_ }
    · have := h.absent
      simp only [DinPhilBusyWait.execute, Globals.setLocals, Finset.card_insert_of_notMem hi]
      omega
    · have hall := h.touched ht
      simp [hall] at hi
  | waitToSit | waitToLeave | pickedLeft | pickedRight =>
    simp only [DinPhilBusyWait.execute]
    split_ifs <;> exact { h with }
  | reachChopStick c n =>
    have hj : g.joined = Finset.univ := h.joined_eq_univ (by cases hst <;> simpa using hseat)
    simp only [DinPhilBusyWait.execute]
    split_ifs
    · exact { h with touched := fun _ => hj }
    · exact { h with touched := fun _ => hj }
    · exact { h with }
  | proceed =>
    obtain ⟨hn, hm, he⟩ := (⟨h.mealLeft_nonneg, h.meals, h.eating⟩ : _ ∧ _ ∧ _)
    have hi : i ∉ g.eating := by cases hst; simp [hv]
    simp only [DinPhilBusyWait.execute]
    split_ifs
    · exact { h with }
    · refine { h with mealLeft_nonneg := ?_, meals := ?_, eating := ?_ }
      · simp only
        omega
      · push_cast
        omega
      · simp only [Finset.card_insert_of_notMem hi]
        omega
    · exact { h with }
  | finishEating =>
    have hi : i ∈ g.eating := by cases hst; simp [hv]
    refine { h with eating := ?_ }
    have := h.eating
    have := Finset.card_erase_add_one hi
    simp only [DinPhilBusyWait.execute]
    omega
  | readyToLeave =>
    have hi : i ∉ g.ready := by cases hst; simp [hv]
    refine { h with ready := ?_ }
    have := h.ready
    simp only [DinPhilBusyWait.execute, Finset.card_insert_of_notMem hi]
    omega
  | _ => exact { h with }

end Accounts

/-- What holds in every state of every run for `M` meals. -/
structure Safe (M : ℕ) (k : State P) : Prop where
  stages : ∀ i, At i k.env (remaining k i)
  sticks : ∀ c, k.env.StickKept c
  accounts : Accounts M k.env

namespace Safe

variable {M : ℕ} {k k' : State P} {input : Input Empty ℕ}

theorem boot (M : ℕ) : Safe M (Program.boot Empty.elim (globals P M) : State P) where
  stages i := by
    unfold remaining
    rw [Program.remaining_boot]
    exact ⟨.dinPhilBusyWait false false, .inl (by simp [program]), .inl (by simp [program]),
      .inl (by simp [program])⟩
  sticks c := .inl ⟨rfl, rfl⟩
  accounts := by constructor <;> simp [Threads.boot, globals]

/-- What a philosopher executes. -/
private theorem executes_eq {rest ops : List (Op Empty (Code P))}
    (h : (program P).Executes k input k' i code rest ops) :
    k'.env = (execute i code input.code k.env).1 ∧ ops = (execute i code input.code k.env).2 := by
  have hx := Except.ok.inj h.exec
  exact ⟨congrArg Prod.fst hx.symm, congrArg Prod.snd hx.symm⟩

theorem move (hP : 2 ≤ P) (h : Safe M k) (hm : (program P).Move k input k') : Safe M k' := by
  have hstages : ∀ i, At i k'.env (remaining k' i) := by
    refine hm.forall_remaining (Q := At) h.stages (fun i o rest hat ho => hat.tail ho) ?_ ?_
    · intro i code rest ops hx hat
      obtain ⟨henv, rfl⟩ := executes_eq hx
      exact henv ▸ hat.execute hP input.code
    · intro i code rest ops hx j hj hat
      exact (executes_eq hx).1 ▸ hat.frame hj code input.code
  obtain ⟨i, code, rest, ops, hx⟩ | hs := hm.executes_or_settles
  · have hat : At i k.env (.run code :: rest) := hx.remaining ▸ h.stages i
    refine ⟨hstages, ?_, ?_⟩ <;> rw [(executes_eq hx).1]
    · exact Globals.StickKept.execute hP h.sticks hat.stage input.code
    · exact h.accounts.execute hat input.code
  · exact ⟨hstages, hs.env ▸ h.sticks, hs.env ▸ h.accounts⟩

end Safe

/-! ### Safety -/

/-- The philosopher `i` has left. -/
def Returned (k : State P) (i : Fin P) : Prop := remaining k i = []

instance (k : State P) (i : Fin P) : Decidable (Returned k i) :=
  inferInstanceAs (Decidable (_ = _))

/-- A philosopher that eats holds both chopsticks. -/
theorem Stage.sticks_of_eating {v : View} {ops : List (Op Empty (Code P))} (h : Stage i v ops)
    (he : v.eating = true) : v.left = true ∧ v.right = true := by
  cases h <;> first | exact ⟨rfl, rfl⟩ | cases he

/-- A philosopher that has left holds nothing and does not eat. -/
theorem Stage.eq_of_nil {v : View} (h : Stage i v []) : v = { ready := true } := by
  cases h
  rfl

/-- In every state that `P ≥ 2` philosophers reach with `M` meals, every chopstick is free or held
by exactly one philosopher, a philosopher that eats holds both chopsticks, `MealLeft` is not
negative and `M - MealLeft` is the number of meals that have begun, no chopstick has been touched
unless all have joined, nobody has left unless all are ready to leave, and when all have left,
every chopstick is free and `M` meals have been eaten. -/
theorem dinPhilBusyWait_safe {M : ℕ} (hP : 2 ≤ P) (k : State P)
    (h : (system P M).Reachable Always k) :
    (∀ c, k.env.chopstick c = 1 ∧ k.env.holders c = ∅ ∨
        k.env.chopstick c = 0 ∧ ∃ i, k.env.holders c = {i}) ∧
      (∀ i ∈ k.env.eating, i ∈ k.env.holders i ∧ i ∈ k.env.holders (rightOf i)) ∧
      0 ≤ k.env.mealLeft ∧ M - k.env.mealLeft = k.env.begun ∧
      (k.env.touched = true → k.env.joined = Finset.univ) ∧
      (∀ i, Returned k i → k.env.ready = Finset.univ) ∧
      ((∀ i, Returned k i) →
        (∀ c, k.env.chopstick c = 1) ∧ k.env.begun = M ∧ k.env.finished = M) := by
  obtain ⟨-, hsafe⟩ := Program.Reachable.invariant (Safe M) h (.boot M)
    fun _ _ _ _ hI _ hm => hI.move hP hm
  have hmeals := hsafe.accounts.meals
  refine ⟨fun c => (hsafe.sticks c).imp_right fun ⟨hzero, i, hi, _⟩ => ⟨hzero, i, hi⟩,
    fun i hi => ?_, hsafe.accounts.mealLeft_nonneg, by omega, hsafe.accounts.touched,
    fun i hi => ?_, fun hall => ?_⟩
  · have hv := Globals.view_eq_iff.1 (Eq.refl (k.env.view i))
    obtain ⟨hl, hr⟩ := (hsafe.stages i).stage.sticks_of_eating (hv.2.2.2.2.1.1 hi)
    exact ⟨hv.2.2.1.2 hl, hv.2.2.2.1.2 hr⟩
  · have hat := hsafe.stages i
    rw [hi] at hat
    exact hsafe.accounts.ready_eq_univ (by simpa using hat.allReady)
  · have hview : ∀ i, k.env.view i = { ready := true } := by
      intro i
      have hat := hsafe.stages i
      rw [hall i] at hat
      exact hat.stage.eq_of_nil
    have hnone : ∀ i, i ∉ k.env.holders i ∧ i ∉ k.env.holders (rightOf i) ∧ i ∉ k.env.eating := by
      intro i
      have hv := Globals.view_eq_iff.1 (hview i)
      simp [hv]
    have hzero : k.env.mealLeft = 0 := by
      have hat := hsafe.stages ⟨0, by omega⟩
      rw [hall] at hat
      simpa using hat.noMeal
    have heating : k.env.eating = ∅ := Finset.eq_empty_of_forall_notMem fun i => (hnone i).2.2
    have hfinished := hsafe.accounts.eating
    rw [heating, Finset.card_empty] at hfinished
    refine ⟨fun c => ?_, by omega, by omega⟩
    rcases hsafe.sticks c with ⟨hone, -⟩ | ⟨-, i, hi, rfl | rfl⟩
    · exact hone
    · exact absurd (hi ▸ Finset.mem_singleton_self c) (hnone c).1
    · exact absurd (hi ▸ Finset.mem_singleton_self i) (hnone i).2.1

theorem dinPhilBusyWait_safe_of_two :
    ∃ k, (system 2 1).Reachable Always k ∧ (∀ i, Returned k i) ∧ (∀ c, k.env.chopstick c = 1) ∧
      k.env.finished = 1 := by
  obtain ⟨k, hk, ht⟩ := exists_reachable_of_runInputs (S := system 2 1) rfl
    (List.replicate 90 ⟨[], 0⟩) (fun k => decide (∀ i, Returned k i)) (by decide +kernel)
  have hall : ∀ i, Returned k i := of_decide_eq_true ht
  obtain ⟨-, -, -, -, -, -, hend⟩ := dinPhilBusyWait_safe le_rfl k hk
  obtain ⟨hfree, -, hfinished⟩ := hend hall
  exact ⟨k, hk, hall, hfree, hfinished⟩

end Nachos.Threads.DinPhilBusyWait
