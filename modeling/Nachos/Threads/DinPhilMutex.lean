import Nachos.Threads.DinPhilSafety

/-!
# The semaphore `mutex` of the dining philosophers

`GetSticks` calls `mutex->P()` once, before its loop, but `mutex->V()` in every iteration. A
philosopher that is woken up while it is still hungry goes through the loop again and returns a
unit that it does not hold. From then on `mutex` admits more than one philosopher at a time,
although the comment on it says that only one can get or drop the chopsticks at any moment.

## Main definitions

* `TestsAgain`: the step that goes wrong.
* `HoldsMutex`: between a completed `mutex->P()` and the `mutex->V()` that follows.

## Main results

* `mutex_of_not_testsAgain`: as long as no philosopher is woken up while it is hungry, `mutex` is
  a mutex.
* `mutex_exceeds_one`: two philosophers with one meal reach a state in which its value is 2.
-/

namespace Nachos.Threads.DinPhilSemaphore

open Function Foundations StepSystem

variable {P : ℕ}

/-- A philosopher is about to go through the loop of `GetSticks` once more because it has been
woken up while it is hungry. -/
def TestsAgain (k : State P) : Prop :=
  ∃ i, Program.IsNext k i .whileHungry ∧ k.env.philState i = .isHungry

instance (k : State P) : Decidable (TestsAgain k) :=
  inferInstanceAs (Decidable (∃ _, _ ∧ _))

/-- A participant that has to execute these operations holds `mutex`: it calls `V` on it before
it calls `P`. -/
def holdsMutex : List (Op (Sem P) Code) → Bool
  | [] => false
  | .p .mutex :: _ => false
  | .v .mutex :: _ => true
  | .run .hungry :: _ => true
  | _ :: rest => holdsMutex rest

/-- The philosopher `i` has completed `mutex->P()` and has not called `mutex->V()` since. -/
def HoldsMutex (k : State P) (i : Fin P) : Prop := holdsMutex (remaining k i) = true

/-- `GetSticks` after `mutex->P()` has to return the unit. -/
def mutexWeight : Code → ℤ
  | .hungry => 1
  | _ => 0

theorem Stage.mutex_load {i : Fin P} {s : PState} {d : Bool} {ops : List (Op (Sem P) Code)}
    (h : Stage i s d ops) :
    load 1 .mutex mutexWeight ops = if holdsMutex ops = true then 1 else 0 := by
  cases h <;> simp [Op.weight, mutexWeight, holdsMutex]

/-- Only the loop of `GetSticks` returns a unit of `mutex` that it does not hold. -/
theorem mutex_of_execute {i : Fin P} {code : Code} {g : Globals P} (random : ℕ)
    (h : code = .whileHungry → g.philState i ≠ .isHungry) :
    load 1 .mutex mutexWeight (execute i code random g).2 = mutexWeight code := by
  cases code with
  | whileHungry =>
    simp only [execute, whileHungry, if_neg (h rfl)]
    rfl
  | hungry =>
    simp only [execute, whileHungry]
    split_ifs with hh
    · simp [Op.weight, mutexWeight]
    · simp [Op.weight, mutexWeight]
    · simp [Globals.setState] at hh
  | entered | grantSeats | whileNotDone | meal | wakeLeft | wakeRight | readyToLeave | grantLeave
  | granted =>
    simp only [execute]
    split_ifs <;> simp [Op.weight, mutexWeight]
  | _ => simp [execute, Op.weight, mutexWeight]

/-- The unit of `mutex` is either in the semaphore or with a philosopher. -/
def MutexCounted (k : State P) : Prop :=
  (program P).balance 1 .mutex (fun _ => mutexWeight) (fun _ => 0) k = 1

theorem MutexCounted.move {k k' : State P} {input : Input Empty ℕ} (h : MutexCounted k)
    (hnot : ¬ TestsAgain k) (hm : (program P).Move k input k') : MutexCounted k' := by
  refine Eq.trans (hm.balance_eq fun i code rest ops hx => ?_) h
  obtain ⟨-, rfl⟩ := executes_eq hx
  rw [mutex_of_execute]
  rintro rfl hh
  exact hnot ⟨i, hx.isNext, hh⟩

/-- In every run in which no philosopher is woken up in `GetSticks` while it is still hungry, the
value of `mutex` never exceeds 1 and at most one philosopher is between `mutex->P()` and
`mutex->V()`. -/
theorem mutex_of_not_testsAgain {M : ℕ} (k : State P)
    (h : (system P M).Reachable (fun k _ => ¬ TestsAgain k) k) :
    (k.semaphore .mutex).value ≤ 1 ∧
      ∀ i j, HoldsMutex k i → HoldsMutex k j → i = j := by
  obtain ⟨hreg, hst, hcount⟩ := Program.Reachable.invariant
    (fun k => Staged k ∧ MutexCounted k) h
    ⟨staged_boot M, by
      rw [MutexCounted, Program.balance_boot]
      simp [value, program, mutexWeight]⟩
    fun _ _ _ _ hI hC hm => ⟨hI.1.move hm, hI.2.move hC hm⟩
  have hload : ∀ i, load 1 .mutex mutexWeight ((program P).remaining k i) =
      if holdsMutex ((program P).remaining k i) = true then 1 else 0 := fun i => (hst i).mutex_load
  have hlow : ∀ i, 0 ≤ load 1 .mutex mutexWeight ((program P).remaining k i) := by
    intro i
    rw [hload]
    split_ifs <;> simp
  have hvalue := (hreg.counted .mutex).nonneg
  simp only [MutexCounted, Program.balance] at hcount
  refine ⟨?_, fun i j hi hj => ?_⟩
  · have := Finset.sum_nonneg fun i (_ : i ∈ Finset.univ) => hlow i
    omega
  · by_contra hij
    have hle := Program.load_add_load_le hlow hij
    have hi' := (hload i).trans (if_pos hi)
    have hj' := (hload j).trans (if_pos hj)
    omega

/-- Two philosophers with one meal reach a state in which `mutex` has two units: the second one
is woken up while it is hungry. -/
theorem mutex_exceeds_one :
    ∃ k, (system 2 1).Reachable Always k ∧ (k.semaphore .mutex).value = 2 := by
  obtain ⟨k, hk, ht⟩ := exists_reachable_of_runInputs (S := system 2 1) rfl
    (List.replicate 124 ⟨[], 0⟩) (fun k => decide ((k.semaphore .mutex).value = 2))
    (by decide +kernel)
  exact ⟨k, hk, of_decide_eq_true ht⟩

/-- The first philosopher eats; nobody has been woken up yet. -/
theorem mutex_of_first_meal :
    ∃ k, (system 2 1).Reachable (fun k _ => ¬ TestsAgain k) k ∧ HoldsMutex k 1 ∧
      (k.semaphore .mutex).value ≤ 1 ∧ ¬ HoldsMutex k 0 := by
  obtain ⟨k, hk, ht⟩ := exists_reachable_of_runInputsIf (S := system 2 1)
    (C := fun k _ => ¬ TestsAgain k) rfl (c := fun k _ => !decide (TestsAgain k))
    (fun k _ hc => by simpa using hc) (List.replicate 54 ⟨[], 0⟩)
    (fun k => holdsMutex (remaining k 1)) (by decide +kernel)
  obtain ⟨hval, hone⟩ := mutex_of_not_testsAgain k hk
  exact ⟨k, hk, ht, hval, fun h0 => absurd (hone 0 1 h0 ht) (by decide)⟩

end Nachos.Threads.DinPhilSemaphore
