import Nachos.Threads.DinPhilSemaphore

/-!
# The dining philosophers with semaphores are safe

`GetSticks` tests the states of the neighbours and takes the chopsticks without an interruption
in between, so that neighbours never eat at the same time, with or without the semaphore `mutex`.
The barriers at the beginning and at the end, `SitSemaphore` and `LeaveSemaphore`, are opened by
the last philosopher that arrives; before that nobody gets through since the value and the units
in the hands of the philosophers are all accounted for.

## Main definitions

* `InsideEat`, `Returned`: where a philosopher is.
* `Safe`: the invariant.

## Main results

* `dinPhilSemaphore_safe`: safety in every reachable state.
-/

namespace Nachos.Threads.DinPhilSemaphore

open Function Foundations StepSystem

variable {P : ℕ}

/-- The condition of `GetSticks` in other words. -/
theorem Globals.sticksFree_iff (hP : 2 ≤ P) (g : Globals P) (i : Fin P) :
    g.SticksFree i ↔ g.philState i = .isHungry ∧ g.philState (leftOf i) ≠ .isEating ∧
      g.philState (rightOf i) ≠ .isEating := by
  unfold SticksFree
  rcases hP.lt_or_eq with h | h
  · simp [h, h.ne']
  · rw [leftOf_eq_rightOf h.symm]
    simp [← h]

/-! ### What one piece of code does -/

variable {i : Fin P} {code : Code} {random : ℕ} {g : Globals P}

/-- A philosopher starts to eat only if neither neighbour eats. -/
theorem isEating_of_execute (hP : 2 ≤ P)
    (h : (execute i code random g).1.philState i = .isEating) :
    g.philState i = .isEating ∨
      g.philState (leftOf i) ≠ .isEating ∧ g.philState (rightOf i) ≠ .isEating := by
  have hloop : ∀ g : Globals P, (whileHungry i g).1.philState i = .isEating →
      g.philState i = .isEating ∨
        g.philState (leftOf i) ≠ .isEating ∧ g.philState (rightOf i) ≠ .isEating := by
    intro g h
    unfold whileHungry at h
    split_ifs at h with hh hf
    · exact .inr ((g.sticksFree_iff hP i).1 hf).2
    · exact .inl h
    · exact .inl h
  cases code with
  | hungry =>
    exact .inr (by simpa [Globals.setState, leftOf_ne hP, rightOf_ne hP] using hloop _ h)
  | whileHungry => exact hloop g h
  | think => simp [execute, Globals.setState] at h
  | meal | granted =>
    simp only [execute] at h
    split_ifs at h <;> exact .inl h
  | _ => exact .inl h

/-- A meal that is eaten is taken off the number of meals. -/
theorem meals_of_execute (i : Fin P) (code : Code) (random : ℕ) (g : Globals P) :
    (execute i code random g).1.mealLeft + (execute i code random g).1.log.countP Event.isMeal =
        g.mealLeft + g.log.countP Event.isMeal ∧
      (0 ≤ g.mealLeft → 0 ≤ (execute i code random g).1.mealLeft) ∧
      (g.mealLeft = 0 → (execute i code random g).1.mealLeft = 0) := by
  cases code with
  | hungry | whileHungry =>
    simp only [execute, whileHungry]
    split_ifs <;> simp [Globals.setState]
  | granted =>
    simp only [execute]
    split_ifs <;> simp
  | meal =>
    simp only [execute]
    split_ifs with hm
    · simp [Globals.record, Event.isMeal]
      omega
    · simp
  | _ => simp [execute, Globals.record, Globals.setState, Event.isMeal]

/-- A philosopher is done only when no meal is left. -/
theorem done_of_execute {j : Fin P} (h : (execute i code random g).1.done j = true) :
    g.done j = true ∨ g.mealLeft = 0 := by
  cases code with
  | hungry | whileHungry =>
    simp only [execute, whileHungry] at h
    split_ifs at h <;> exact .inl h
  | granted =>
    simp only [execute] at h
    split_ifs at h <;> exact .inl h
  | meal =>
    simp only [execute] at h
    split_ifs at h with hm
    · exact .inl h
    · exact .inr (not_not.1 hm)
  | _ => exact .inl h

/-- Nothing disappears from the log. -/
theorem log_subset_execute (i : Fin P) (code : Code) (random : ℕ) (g : Globals P) :
    g.log ⊆ (execute i code random g).1.log := by
  cases code with
  | hungry | whileHungry =>
    simp only [execute, whileHungry]
    split_ifs <;> simp [Globals.setState]
  | meal | granted =>
    simp only [execute]
    split_ifs <;> simp [Globals.record]
  | _ => simp [execute, Globals.record, Globals.setState]

theorem numPhilNotIn_of_execute (h : code ≠ .entered) :
    (execute i code random g).1.numPhilNotIn = g.numPhilNotIn := by
  cases code with
  | entered => exact absurd rfl h
  | hungry | whileHungry | meal | granted =>
    simp only [execute, whileHungry]
    split_ifs <;> rfl
  | _ => rfl

theorem numRdyLeave_of_execute (h : code ≠ .readyToLeave) :
    (execute i code random g).1.numRdyLeave = g.numRdyLeave := by
  cases code with
  | readyToLeave => exact absurd rfl h
  | hungry | whileHungry | meal | granted =>
    simp only [execute, whileHungry]
    split_ifs <;> rfl
  | _ => rfl

/-! ### The barriers -/

/-- The philosophers that have not entered. -/
def enterWeight : Code → ℤ
  | .dinPhilSemaphore | .entered => 1
  | _ => 0

/-- The seats: everybody takes one, the last that enters grants them all. -/
def seatWeight (P : ℕ) : Code → ℤ
  | .dinPhilSemaphore => -1
  | .grantSeats j => (P - j : ℕ)
  | _ => 0

/-- The philosophers that are not ready to leave. -/
def readyWeight : Code → ℤ
  | .dinPhilSemaphore | .leaveRoom | .readyToLeave => 1
  | _ => 0

/-- The permissions to leave: everybody takes one, the last that is ready grants them all. -/
def leaveWeight (P : ℕ) : Code → ℤ
  | .dinPhilSemaphore | .leaveRoom => -1
  | .grantLeave j => (P - j : ℕ)
  | _ => 0

theorem enterWeight_nonneg (code : Code) : 0 ≤ enterWeight code := by
  cases code <;> simp [enterWeight]

theorem readyWeight_nonneg (code : Code) : 0 ≤ readyWeight code := by
  cases code <;> simp [readyWeight]

/-- The seats that have been or are being granted. -/
def Globals.seatsGranted (g : Globals P) : ℤ := if g.numPhilNotIn ≤ 0 then P else 0

/-- The permissions to leave that have been or are being granted. -/
def Globals.leavesGranted (g : Globals P) : ℤ := if P ≤ g.numRdyLeave then P else 0

/-- The two barriers. -/
structure Gates (k : State P) : Prop where
  absent : (program P).balance 0 .mutex (fun _ => enterWeight) (fun g => -g.numPhilNotIn) k = 0
  seats : (program P).balance 1 .sitSemaphore (fun _ => seatWeight P)
    (fun g => -g.seatsGranted) k = -P
  ready : (program P).balance 0 .mutex (fun _ => readyWeight) (fun g => g.numRdyLeave) k = P
  leaves : (program P).balance 1 .leaveSemaphore (fun _ => leaveWeight P)
    (fun g => -g.leavesGranted) k = -P

private theorem absent_of_execute (i : Fin P) (code : Code) (random : ℕ) (g : Globals P) :
    load 0 .mutex enterWeight (execute i code random g).2 +
      -(execute i code random g).1.numPhilNotIn = enterWeight code + -g.numPhilNotIn := by
  cases code with
  | entered =>
    simp only [execute]
    split_ifs <;> simp [Globals.record, Op.weight, enterWeight] <;> ring
  | hungry | whileHungry | grantSeats | whileNotDone | meal | wakeLeft | wakeRight | readyToLeave
  | grantLeave | granted =>
    simp only [execute, whileHungry]
    split_ifs <;> simp [Globals.record, Globals.setState, Op.weight, enterWeight]
  | _ => simp [execute, Globals.record, Globals.setState, Op.weight, enterWeight]

/-- The last philosopher that enters grants the seats. -/
private theorem seats_of_execute (i : Fin P) (code : Code) (random : ℕ) (g : Globals P)
    (h : code = .entered → 1 ≤ g.numPhilNotIn) :
    load 1 .sitSemaphore (seatWeight P) (execute i code random g).2 +
      -(execute i code random g).1.seatsGranted = seatWeight P code + -g.seatsGranted := by
  by_cases hc : code = .entered
  · subst hc
    have h := h rfl
    simp only [execute, Globals.seatsGranted, Globals.record]
    split_ifs <;> simp [Op.weight, seatWeight] <;> omega
  have hn : (execute i code random g).1.seatsGranted = g.seatsGranted := by
    unfold Globals.seatsGranted
    rw [numPhilNotIn_of_execute hc]
  rw [hn]
  congr 1
  cases code with
  | entered => exact absurd rfl hc
  | grantSeats j =>
    have hj : ((P - j : ℕ) : ℤ) = if j < P then 1 + ((P - (j + 1) : ℕ) : ℤ) else 0 := by
      split_ifs <;> omega
    simp only [execute, seatWeight, hj]
    split_ifs <;> simp [Op.weight, seatWeight]
  | hungry | whileHungry | whileNotDone | meal | wakeLeft | wakeRight | readyToLeave
  | grantLeave | granted =>
    simp only [execute, whileHungry]
    split_ifs <;> simp [Op.weight, seatWeight]
  | _ => simp [execute, Op.weight, seatWeight]

private theorem ready_of_execute (i : Fin P) (code : Code) (random : ℕ) (g : Globals P) :
    load 0 .mutex readyWeight (execute i code random g).2 +
      (execute i code random g).1.numRdyLeave = readyWeight code + g.numRdyLeave := by
  cases code with
  | readyToLeave =>
    simp only [execute]
    split_ifs <;> simp [Op.weight, readyWeight] <;> ring
  | entered | hungry | whileHungry | grantSeats | whileNotDone | meal | wakeLeft | wakeRight
  | grantLeave | granted =>
    simp only [execute, whileHungry]
    split_ifs <;> simp [Globals.record, Globals.setState, Op.weight, readyWeight]
  | _ => simp [execute, Globals.record, Globals.setState, Op.weight, readyWeight]

/-- The last philosopher that is ready grants the permissions to leave. -/
private theorem leaves_of_execute (i : Fin P) (code : Code) (random : ℕ) (g : Globals P)
    (h : code = .readyToLeave → g.numRdyLeave < P) :
    load 1 .leaveSemaphore (leaveWeight P) (execute i code random g).2 +
      -(execute i code random g).1.leavesGranted = leaveWeight P code + -g.leavesGranted := by
  by_cases hc : code = .readyToLeave
  · subst hc
    have h := h rfl
    simp only [execute, Globals.leavesGranted]
    split_ifs <;> simp [Op.weight, leaveWeight] <;> omega
  have hn : (execute i code random g).1.leavesGranted = g.leavesGranted := by
    unfold Globals.leavesGranted
    rw [numRdyLeave_of_execute hc]
  rw [hn]
  congr 1
  cases code with
  | readyToLeave => exact absurd rfl hc
  | grantLeave j =>
    have hj : ((P - j : ℕ) : ℤ) = if j < P then 1 + ((P - (j + 1) : ℕ) : ℤ) else 0 := by
      split_ifs <;> omega
    simp only [execute, leaveWeight, hj]
    split_ifs <;> simp [Op.weight, leaveWeight]
  | entered | hungry | whileHungry | grantSeats | whileNotDone | meal | wakeLeft | wakeRight
  | granted =>
    simp only [execute, whileHungry]
    split_ifs <;> simp [Op.weight, leaveWeight]
  | _ => simp [execute, Op.weight, leaveWeight]

namespace Gates

variable {k k' : State P} {input : Input Empty ℕ}

theorem boot (M : ℕ) : Gates (Program.boot value (globals P M) : State P) := by
  constructor <;> rw [Program.balance_boot] <;>
    simp [program, globals, value, enterWeight, seatWeight, readyWeight, leaveWeight,
      Globals.seatsGranted, Globals.leavesGranted]

/-- A philosopher that has not entered is among those that are missing. -/
theorem le_numPhilNotIn (h : Gates k) (i : Fin P) :
    load 0 .mutex enterWeight (remaining k i) ≤ k.env.numPhilNotIn := by
  have hsum := h.absent
  have hle := Finset.single_le_sum
    (fun j _ => load_nonneg .mutex enterWeight_nonneg (remaining k j)) (Finset.mem_univ i)
  simp only [Program.balance, remaining] at hsum hle ⊢
  omega

theorem le_sub_numRdyLeave (h : Gates k) (i : Fin P) :
    load 0 .mutex readyWeight (remaining k i) ≤ P - k.env.numRdyLeave := by
  have hsum := h.ready
  have hle := Finset.single_le_sum
    (fun j _ => load_nonneg .mutex readyWeight_nonneg (remaining k j)) (Finset.mem_univ i)
  simp only [Program.balance, remaining] at hsum hle ⊢
  omega

/-- A move keeps the accounts of the barriers. -/
theorem move (h : Gates k) (hm : (program P).Move k input k') : Gates k' := by
  have hload : ∀ {w : Code → ℤ} {i code rest ops},
      (program P).Executes k input k' i code rest ops → (∀ code, 0 ≤ w code) →
      w code ≤ load 0 .mutex w (remaining k i) := by
    intro w i code rest ops hx hw
    have hrest := load_nonneg (.mutex : Sem P) hw rest
    simp only [remaining, hx.remaining, load_cons, Op.weight]
    omega
  constructor
  · refine Eq.trans (hm.balance_eq fun i code rest ops hx => ?_) h.absent
    obtain ⟨henv, rfl⟩ := executes_eq hx
    rw [henv]
    exact absent_of_execute i code input.code k.env
  · refine Eq.trans (hm.balance_eq fun i code rest ops hx => ?_) h.seats
    obtain ⟨henv, rfl⟩ := executes_eq hx
    rw [henv]
    refine seats_of_execute i code input.code k.env fun hc => ?_
    have := (hload hx enterWeight_nonneg).trans (h.le_numPhilNotIn i)
    simpa [hc, enterWeight] using this
  · refine Eq.trans (hm.balance_eq fun i code rest ops hx => ?_) h.ready
    obtain ⟨henv, rfl⟩ := executes_eq hx
    rw [henv]
    exact ready_of_execute i code input.code k.env
  · refine Eq.trans (hm.balance_eq fun i code rest ops hx => ?_) h.leaves
    obtain ⟨henv, rfl⟩ := executes_eq hx
    rw [henv]
    refine leaves_of_execute i code input.code k.env fun hc => ?_
    have := (hload hx readyWeight_nonneg).trans (h.le_sub_numRdyLeave i)
    simp only [hc, readyWeight] at this
    omega

end Gates

/-! ### Nobody gets through a closed barrier -/

variable {k k' : State P} {input : Input Empty ℕ}

theorem Stage.neg_one_le_seat_load {s : PState} {d : Bool} {ops : List (Op (Sem P) Code)}
    (h : Stage i s d ops) : -1 ≤ load 1 .sitSemaphore (seatWeight P) ops := by
  cases h <;> simp [Op.weight, seatWeight]

/-- A philosopher that calls `GetSticks` has a seat. -/
theorem Stage.seat_load_getSticks {s : PState} {d : Bool} {rest : List (Op (Sem P) Code)}
    (h : Stage i s d (.run .getSticks :: rest)) :
    load 1 .sitSemaphore (seatWeight P) (.run .getSticks :: rest) = 0 := by
  cases h
  simp [Op.weight, seatWeight]

theorem Stage.neg_one_le_leave_load {s : PState} {d : Bool} {ops : List (Op (Sem P) Code)}
    (h : Stage i s d ops) : -1 ≤ load 1 .leaveSemaphore (leaveWeight P) ops := by
  cases h <;> simp [Op.weight, leaveWeight]

/-- If a philosopher has a seat, all have entered. -/
theorem Gates.numPhilNotIn_le (h : Gates k) (hst : Staged k)
    (hval : 0 ≤ (k.semaphore .sitSemaphore).value)
    (hi : load 1 .sitSemaphore (seatWeight P) (remaining k i) ≠ -1) : k.env.numPhilNotIn ≤ 0 := by
  by_contra hn
  have hsum := h.seats
  simp only [Program.balance, Globals.seatsGranted, if_neg hn] at hsum
  refine hi (Program.load_eq_neg_one (fun j => (hst j).neg_one_le_seat_load) ?_ i)
  simp only [remaining]
  omega

/-- If a philosopher has the permission to leave, all are ready. -/
theorem Gates.le_numRdyLeave (h : Gates k) (hst : Staged k)
    (hval : 0 ≤ (k.semaphore .leaveSemaphore).value)
    (hi : load 1 .leaveSemaphore (leaveWeight P) (remaining k i) ≠ -1) : P ≤ k.env.numRdyLeave := by
  by_contra hn
  have hsum := h.leaves
  simp only [Program.balance, Globals.leavesGranted, if_neg hn] at hsum
  refine hi (Program.load_eq_neg_one (fun j => (hst j).neg_one_le_leave_load) ?_ i)
  simp only [remaining]
  omega

/-! ### The log -/

/-- The calls of `LeaveRoom` that are still to come. -/
def callWeight : Code → ℤ
  | .dinPhilSemaphore | .leaveRoom => 1
  | _ => 0

/-- The log names the philosophers that have entered and those that have called `LeaveRoom`. -/
structure Logged (k : State P) : Prop where
  entered : ∀ i, .entered i ∈ k.env.log ∨ load 0 .mutex enterWeight (remaining k i) = 1
  leavesRoom : ∀ i, .leavesRoom i ∈ k.env.log ∨ load 0 .mutex callWeight (remaining k i) = 1

private theorem call_of_execute (i : Fin P) (hc : code ≠ .leaveRoom) (random : ℕ) (g : Globals P) :
    load 0 .mutex callWeight (execute i code random g).2 = callWeight code := by
  cases code with
  | leaveRoom => exact absurd rfl hc
  | entered | hungry | whileHungry | grantSeats | whileNotDone | meal | wakeLeft | wakeRight
  | readyToLeave | grantLeave | granted =>
    simp only [execute, whileHungry]
    split_ifs <;> simp [Op.weight, callWeight]
  | _ => simp [execute, Op.weight, callWeight]

theorem Logged.boot (M : ℕ) : Logged (Program.boot value (globals P M) : State P) := by
  constructor <;> intro i <;> right <;> simp only [remaining, Program.remaining_boot] <;>
    simp [program, Op.weight, enterWeight, callWeight]

theorem Logged.move (h : Logged k) (hm : (program P).Move k input k') : Logged k' := by
  have hlog : ∀ i code rest ops, (program P).Executes k input k' i code rest ops →
      k.env.log ⊆ k'.env.log := by
    intro i code rest ops hx
    rw [(executes_eq hx).1]
    exact log_subset_execute i code input.code k.env
  constructor
  · refine hm.forall_remaining
      (Q := fun j g ops => .entered j ∈ g.log ∨ load 0 .mutex enterWeight ops = 1) h.entered
      (fun j o rest hj ho => by rwa [load_cons_of_ne_run _ _ ho] at hj) ?_
      fun i code rest ops hx j hne hj => hj.imp_left fun he => hlog i code rest ops hx he
    intro i code rest ops hx hj
    obtain ⟨henv, rfl⟩ := executes_eq hx
    by_cases hc : code = .entered
    · subst hc
      left
      simp [henv, execute, Globals.record]
    · refine hj.imp (fun he => hlog _ _ _ _ hx he) fun hl => ?_
      have habs := absent_of_execute i code input.code k.env
      rw [numPhilNotIn_of_execute hc] at habs
      rw [load_append, load_filter_isWork]
      rw [load_cons] at hl
      exact (congrArg (· + _) (add_right_cancel habs)).trans hl
  · refine hm.forall_remaining
      (Q := fun j g ops => .leavesRoom j ∈ g.log ∨ load 0 .mutex callWeight ops = 1) h.leavesRoom
      (fun j o rest hj ho => by rwa [load_cons_of_ne_run _ _ ho] at hj) ?_
      fun i code rest ops hx j hne hj => hj.imp_left fun he => hlog i code rest ops hx he
    intro i code rest ops hx hj
    obtain ⟨henv, rfl⟩ := executes_eq hx
    by_cases hc : code = .leaveRoom
    · subst hc
      left
      simp [henv, execute, Globals.record]
    · refine hj.imp (fun he => hlog _ _ _ _ hx he) fun hl => ?_
      rw [load_append, load_filter_isWork, call_of_execute i hc]
      rwa [load_cons] at hl

private theorem getsSticks_of_execute {j : Fin P}
    (h : .getsSticks j ∈ (execute i code random g).1.log) :
    .getsSticks j ∈ g.log ∨ code = .getSticks := by
  cases code with
  | getSticks => exact .inr rfl
  | hungry | whileHungry | meal | granted =>
    simp only [execute, whileHungry] at h
    split_ifs at h <;> simp_all [Globals.record, Globals.setState]
  | _ => simp_all [execute, Globals.record, Globals.setState]

/-! ### The invariant -/

/-- What holds in every state of every run for `M` meals. -/
structure Safe (M : ℕ) (k : State P) : Prop where
  staged : Staged k
  gates : Gates k
  logged : Logged k
  apart : ∀ i, ¬ (k.env.philState i = .isEating ∧ k.env.philState (rightOf i) = .isEating)
  mealLeft_nonneg : 0 ≤ k.env.mealLeft
  meals : k.env.mealLeft + k.env.log.countP Event.isMeal = M
  noMeal : ∀ i, k.env.done i = true → k.env.mealLeft = 0
  sticks : ∀ i, .getsSticks i ∈ k.env.log → ∀ j, .entered j ∈ k.env.log

namespace Safe

variable {M : ℕ}

theorem boot (M : ℕ) : Safe M (Program.boot value (globals P M) : State P) where
  staged := staged_boot M
  gates := .boot M
  logged := .boot M
  apart i := by simp [Threads.boot, globals]
  mealLeft_nonneg := by simp [Threads.boot, globals]
  meals := by simp [Threads.boot, globals]
  noMeal i := by simp [Threads.boot, globals]
  sticks i := by simp [Threads.boot, globals]

/-- If nobody is missing, the log names everybody. -/
private theorem all_entered (h : Safe M k) (hn : k.env.numPhilNotIn ≤ 0) (j : Fin P) :
    .entered j ∈ k.env.log := by
  refine (h.logged.entered j).resolve_right fun hl => ?_
  have := h.gates.le_numPhilNotIn j
  omega

/-- Neighbours stay apart. -/
private theorem apart_of_execute (hP : 2 ≤ P)
    (h : ∀ i, ¬ (g.philState i = .isEating ∧ g.philState (rightOf i) = .isEating))
    (i : Fin P) (code : Code) (random : ℕ) (j : Fin P) :
    ¬ ((execute i code random g).1.philState j = .isEating ∧
      (execute i code random g).1.philState (rightOf j) = .isEating) := by
  rintro ⟨hj, hr⟩
  by_cases hji : j = i
  · subst hji
    rw [(execute_of_ne (rightOf_ne hP j) code random g).1] at hr
    rcases isEating_of_execute hP hj with he | ⟨-, he⟩
    · exact h j ⟨he, hr⟩
    · exact he hr
  · rw [(execute_of_ne hji code random g).1] at hj
    by_cases hri : rightOf j = i
    · subst hri
      rcases isEating_of_execute hP hr with he | ⟨he, -⟩
      · exact h j ⟨hj, he⟩
      · rw [leftOf_rightOf] at he
        exact he hj
    · rw [(execute_of_ne hri code random g).1] at hr
      exact h j ⟨hj, hr⟩

private theorem of_executes {ops rest : List (Op (Sem P) Code)} (hP : 2 ≤ P) (h : Safe M k)
    (hval : 0 ≤ (k.semaphore .sitSemaphore).value)
    (hx : (program P).Executes k input k' i code rest ops)
    (hm : (program P).Move k input k') : Safe M k' := by
  obtain ⟨henv, -⟩ := executes_eq hx
  obtain ⟨hmeals, hnonneg, hzero⟩ := meals_of_execute i code input.code k.env
  have hlog := log_subset_execute i code input.code k.env
  rw [← henv] at hmeals hnonneg hzero hlog
  refine ⟨h.staged.move hm, h.gates.move hm, h.logged.move hm, fun j => ?_,
    hnonneg h.mealLeft_nonneg, hmeals.trans h.meals, fun j hj => ?_, fun j hj j' => ?_⟩
  · rw [henv]
    exact apart_of_execute hP h.apart i code input.code j
  · rw [henv] at hj
    exact hzero ((done_of_execute hj).elim (h.noMeal j) id)
  · rw [henv] at hj
    rcases getsSticks_of_execute hj with hj | hc
    · exact hlog (h.sticks j hj j')
    · subst hc
      have hst := h.staged i
      have hrem : remaining k i = .run .getSticks :: rest := hx.remaining
      rw [hrem] at hst
      have hl : load 1 .sitSemaphore (seatWeight P) (remaining k i) ≠ -1 := by
        rw [hrem, hst.seat_load_getSticks]
        simp
      exact hlog (h.all_entered (h.gates.numPhilNotIn_le h.staged hval hl) j')

theorem move (hP : 2 ≤ P) (h : Safe M k) (hreg : (program P).Regular value k)
    (hm : (program P).Move k input k') : Safe M k' := by
  have hsame : k'.env = k.env → Safe M k' := fun henv =>
    ⟨h.staged.move hm, h.gates.move hm, h.logged.move hm, henv ▸ h.apart,
      henv ▸ h.mealLeft_nonneg, henv ▸ h.meals, henv ▸ h.noMeal, henv ▸ h.sticks⟩
  have hm' := hm
  cases hm with
  | exec i code rest ops hx => exact h.of_executes hP (hreg.counted _).nonneg hx hm'
  | wait i s rest hrem hvalue hrem' hsem henv => exact hsame henv
  | take i s rest hrem hvalue hrem' hsem henv => exact hsame henv
  | wake i s rest hrem hrem' hsem henv => exact hsame henv
  | silent hrem' hsem henv => exact hsame henv

end Safe

/-- The invariant holds in every state of every run. -/
theorem safe_of_reachable {M : ℕ} (hP : 2 ≤ P) {C : State P → Input Empty ℕ → Prop}
    (h : (system P M).Reachable C k) : (program P).Regular value k ∧ Safe M k :=
  Program.Reachable.invariant (Safe M) h (.boot M) fun _ _ _ hreg hI _ hm => hI.move hP hreg hm

/-! ### Safety -/

/-- The philosopher `i` has called `Eat` and has not called `PutSticks` since. -/
def InsideEat (k : State P) (i : Fin P) : Prop :=
  .run .putSticks ∈ remaining k i ∧ .run .eat ∉ remaining k i

instance (k : State P) (i : Fin P) : Decidable (InsideEat k i) :=
  inferInstanceAs (Decidable (_ ∧ _))

/-- The philosopher `i` has returned from `LeaveRoom`. -/
def Returned (k : State P) (i : Fin P) : Prop := remaining k i = []

theorem Stage.isEating {s : PState} {d : Bool} {ops : List (Op (Sem P) Code)}
    (h : Stage i s d ops) (hmem : .run .putSticks ∈ ops) (hnot : .run .eat ∉ ops) :
    s = .isEating := by
  cases h <;> simp_all

theorem Stage.done_of_nil {s : PState} {d : Bool} (h : Stage i s d []) : d = true := by
  cases h
  rfl

/-- In every state that `P ≥ 2` philosophers reach with `M` meals, no two neighbours eat at the
same time, a philosopher inside `Eat` is in the state `ISEATING`, `MealLeft` is not negative and
`M - MealLeft` is the number of meals that have been eaten, all philosophers have entered before
the first calls `GetSticks`, and all meals have been eaten and all philosophers have called
`LeaveRoom` before the first returns from it. The log only grows. -/
theorem dinPhilSemaphore_safe {M : ℕ} (hP : 2 ≤ P) (k : State P)
    (h : (system P M).Reachable Always k) :
    (∀ i, ¬ (k.env.philState i = .isEating ∧ k.env.philState (rightOf i) = .isEating)) ∧
      (∀ i, InsideEat k i → k.env.philState i = .isEating) ∧
      0 ≤ k.env.mealLeft ∧ M - k.env.mealLeft = k.env.log.countP Event.isMeal ∧
      (∀ i, .getsSticks i ∈ k.env.log → ∀ j, .entered j ∈ k.env.log) ∧
      ∀ i, Returned k i →
        k.env.log.countP Event.isMeal = M ∧ ∀ j, .leavesRoom j ∈ k.env.log := by
  obtain ⟨hreg, hsafe⟩ := safe_of_reachable hP h
  have hmeals := hsafe.meals
  refine ⟨hsafe.apart, fun i hi => (hsafe.staged i).isEating hi.1 hi.2, hsafe.mealLeft_nonneg,
    by omega, hsafe.sticks, fun i hi => ?_⟩
  have hst := hsafe.staged i
  rw [hi] at hst
  have hzero := hsafe.noMeal i hst.done_of_nil
  refine ⟨by omega, fun j => ?_⟩
  have hready : (P : ℤ) ≤ k.env.numRdyLeave :=
    hsafe.gates.le_numRdyLeave (i := i) hsafe.staged (hreg.counted _).nonneg (by rw [hi]; simp)
  refine (hsafe.logged.leavesRoom j).resolve_right fun hl => ?_
  have hle := hsafe.gates.le_sub_numRdyLeave j
  have hmono : load 0 .mutex callWeight (remaining k j) ≤
      load 0 .mutex readyWeight (remaining k j) :=
    load_le_load _ _ (fun code => by cases code <;> simp [callWeight, readyWeight]) _
  omega

theorem dinPhilSemaphore_safe_of_two :
    ∃ k, (system 2 1).Reachable Always k ∧ InsideEat k 1 ∧ k.env.philState 1 = .isEating ∧
      k.env.philState 0 ≠ .isEating := by
  obtain ⟨k, hk, ht⟩ := exists_reachable_of_runInputs (S := system 2 1) rfl
    (List.replicate 72 ⟨[], 0⟩) (fun k => decide (InsideEat k 1)) (by decide +kernel)
  have hin : InsideEat k 1 := of_decide_eq_true ht
  obtain ⟨hapart, heat, -⟩ := dinPhilSemaphore_safe le_rfl k hk
  exact ⟨k, hk, hin, heat 1 hin, fun h0 => hapart 0 ⟨h0, heat 1 hin⟩⟩

end Nachos.Threads.DinPhilSemaphore
