import Nachos.Threads.DinPhilMutex

/-!
# Lost wakeups of the dining philosophers

`PutSticks` forces its hungry neighbours to test again "for avoiding deadlock", but it calls
`PhilGrantSemaphore[..]->V()` before it sets its own state to `THINKING`. A timer interrupt at that
`V` lets the neighbour test while the philosopher is still `ISEATING`; the test fails, the wakeup
is used up, and nobody wakes the neighbour again. Once the other philosophers are done they wait in
`LeaveRoom` for the neighbour for ever.

As long as no philosopher tests at such a moment, a philosopher that waits for its grant has a
neighbour that eats and that has not yet looked at it, and there is no deadlock.

## Main definitions

* `PassedOver`, `TestsTooEarly`: the step that goes wrong.
* `Locks`: the units of the mutexes.
* `Awaited`: a waiting philosopher will be woken up.

## Main results

* `not_deadlock_of_not_testsTooEarly`: no deadlock as long as no philosopher tests too early.
* `dinPhilSemaphore_deadlock`: two philosophers with one meal reach a deadlock.
-/

namespace Nachos.Threads.DinPhilSemaphore

open Function Foundations StepSystem

variable {P : ℕ}

/-- `PutSticks(i)` has decided whether to wake up the neighbour `j`, but `i` is still `ISEATING`. -/
def PassedOver (k : State P) (i j : Fin P) : Prop :=
  .run .think ∈ remaining k i ∧
    (j = leftOf i ∧ .run .wakeLeft ∉ remaining k i ∨
      j = rightOf i ∧ .run .wakeRight ∉ remaining k i)

instance (k : State P) (i j : Fin P) : Decidable (PassedOver k i j) :=
  inferInstanceAs (Decidable (_ ∧ (_ ∧ _ ∨ _ ∧ _)))

/-- A philosopher is about to test whether its neighbours eat while one of them is about to stop
and will not wake it up. -/
def TestsTooEarly (k : State P) : Prop :=
  ∃ j, (Program.IsNext k j .hungry ∨ Program.IsNext k j .whileHungry) ∧ ∃ i, PassedOver k i j

instance (k : State P) : Decidable (TestsTooEarly k) :=
  inferInstanceAs (Decidable (∃ _, (_ ∨ _) ∧ ∃ _, _))

/-- A deadlock: some philosopher has not returned from `LeaveRoom`, and all that have not returned
sleep in `P`. -/
def Deadlock (k : State P) : Prop :=
  (∃ i, ¬ Returned k i) ∧ ∀ i, ¬ Returned k i → Program.Asleep k i

/-! ### The mutexes -/

/-- `LeaveRoom` after its second `LeaveMutex->P()` has to return the unit. -/
def leaveMutexWeight : Code → ℤ
  | .granted => 1
  | _ => 0

/-- The philosophers that have not been granted to leave. -/
def grantedWeight : Code → ℤ
  | .dinPhilSemaphore | .leaveRoom | .granted => 1
  | _ => 0

/-- The last philosopher keeps `LeaveMutex`. -/
def Globals.kept (g : Globals P) : ℤ := if g.leaveGrant = true then 1 else 0

/-- The units of the mutexes. `mutex` can have gained units. -/
structure Locks (k : State P) : Prop where
  enter : (program P).balance 1 .enterMutex (fun _ _ => 0) (fun _ => 0) k = 1
  meal : (program P).balance 1 .mealLeftMutex (fun _ _ => 0) (fun _ => 0) k = 1
  sticks : 1 ≤ (program P).balance 1 .mutex (fun _ => mutexWeight) (fun _ => 0) k
  leave : (program P).balance 1 .leaveMutex (fun _ => leaveMutexWeight) Globals.kept k = 1
  granted : (program P).balance 0 .mutex (fun _ => grantedWeight)
    (fun g => g.numGrantLeave + g.kept) k = P
  last : k.env.leaveGrant = true → P - 1 ≤ k.env.numGrantLeave

variable {i : Fin P} {code : Code} {g : Globals P}

/-- The units of `enterMutex` and `mealLeftMutex` are never kept from one piece of code to the
next. -/
private theorem load_of_execute {s : Sem P} (hs : s = .enterMutex ∨ s = .mealLeftMutex)
    (i : Fin P) (code : Code) (random : ℕ) (g : Globals P) :
    load 1 s (fun _ => 0) (execute i code random g).2 = 0 := by
  cases code with
  | entered | hungry | whileHungry | grantSeats | whileNotDone | meal | wakeLeft | wakeRight
  | readyToLeave | grantLeave | granted =>
    simp only [execute, whileHungry]
    rcases hs with rfl | rfl <;> split_ifs <;> simp [Op.weight]
  | _ => rcases hs with rfl | rfl <;> simp [execute, Op.weight]

private theorem le_mutex_of_execute (i : Fin P) (code : Code) (random : ℕ) (g : Globals P) :
    mutexWeight code ≤ load 1 .mutex mutexWeight (execute i code random g).2 := by
  by_cases h : code = .whileHungry → g.philState i ≠ .isHungry
  · exact (mutex_of_execute random h).ge
  · push Not at h
    obtain ⟨rfl, hh⟩ := h
    simp only [execute, whileHungry, if_pos hh]
    split_ifs <;> simp [Op.weight, mutexWeight]

private theorem leavers_of_execute (i : Fin P) (random : ℕ) (g : Globals P) (h : code ≠ .granted) :
    (execute i code random g).1.numGrantLeave = g.numGrantLeave ∧
      (execute i code random g).1.leaveGrant = g.leaveGrant := by
  cases code with
  | granted => exact absurd rfl h
  | hungry | whileHungry | meal =>
    simp only [execute, whileHungry]
    split_ifs <;> exact ⟨rfl, rfl⟩
  | _ => exact ⟨rfl, rfl⟩

private theorem leaveMutex_of_execute (i : Fin P) (random : ℕ) (g : Globals P)
    (h : code ≠ .granted) :
    load 1 .leaveMutex leaveMutexWeight (execute i code random g).2 = leaveMutexWeight code ∧
      load 0 .mutex grantedWeight (execute i code random g).2 = grantedWeight code := by
  cases code with
  | granted => exact absurd rfl h
  | entered | hungry | whileHungry | grantSeats | whileNotDone | meal | wakeLeft | wakeRight
  | readyToLeave | grantLeave =>
    simp only [execute, whileHungry]
    split_ifs <;> simp [Op.weight, leaveMutexWeight, grantedWeight]
  | _ => simp [execute, Op.weight, leaveMutexWeight, grantedWeight]

/-- The last philosopher keeps `LeaveMutex` instead of returning it. -/
private theorem granted_of_execute (i : Fin P) (code : Code) (random : ℕ) (g : Globals P)
    (h : code = .granted → g.numGrantLeave + g.kept < P) :
    load 1 .leaveMutex leaveMutexWeight (execute i code random g).2 +
        (execute i code random g).1.kept = leaveMutexWeight code + g.kept ∧
      load 0 .mutex grantedWeight (execute i code random g).2 +
          ((execute i code random g).1.numGrantLeave + (execute i code random g).1.kept) =
        grantedWeight code + (g.numGrantLeave + g.kept) := by
  by_cases hc : code = .granted
  · subst hc
    have h := h rfl
    simp only [execute, Globals.kept] at h ⊢
    split_ifs at h ⊢ <;> simp_all [Op.weight, leaveMutexWeight, grantedWeight] <;> omega
  · obtain ⟨hn, hl⟩ := leavers_of_execute i random g hc
    obtain ⟨hm, hg⟩ := leaveMutex_of_execute i random g hc
    have hk : (execute i code random g).1.kept = g.kept := by
      unfold Globals.kept
      rw [hl]
    rw [hm, hg, hn, hk]
    exact ⟨rfl, rfl⟩

private theorem last_of_execute (i : Fin P) (code : Code) (random : ℕ) (g : Globals P)
    (h : g.leaveGrant = true → P - 1 ≤ g.numGrantLeave)
    (h' : (execute i code random g).1.leaveGrant = true) :
    P - 1 ≤ (execute i code random g).1.numGrantLeave := by
  by_cases hc : code = .granted
  · subst hc
    simp only [execute] at h' ⊢
    split_ifs at h' ⊢ with hn hf
    · exact (h h').trans (by simp)
    · exact not_lt.1 hn
    · exact not_lt.1 hn
  · obtain ⟨hn, hl⟩ := leavers_of_execute i random g hc
    rw [hl] at h'
    rw [hn]
    exact h h'

namespace Locks

variable {k k' : State P} {input : Input Empty ℕ}

theorem boot (M : ℕ) : Locks (Program.boot value (globals P M) : State P) := by
  constructor
  all_goals first | rw [Program.balance_boot] | skip
  all_goals simp [program, globals, value, Threads.boot, mutexWeight, leaveMutexWeight,
    grantedWeight, Globals.kept]

theorem grantedWeight_nonneg (code : Code) : 0 ≤ grantedWeight code := by
  cases code <;> simp [grantedWeight]

theorem le_sub_numGrantLeave (h : Locks k) (i : Fin P) :
    load 0 .mutex grantedWeight (remaining k i) ≤ P - (k.env.numGrantLeave + k.env.kept) := by
  have hsum := h.granted
  have hle := Finset.single_le_sum
    (fun j _ => load_nonneg .mutex grantedWeight_nonneg (remaining k j)) (Finset.mem_univ i)
  simp only [Program.balance, remaining] at hsum hle ⊢
  omega

theorem move (h : Locks k) (hm : (program P).Move k input k') : Locks k' := by
  have hgranted : ∀ {i code rest ops}, (program P).Executes k input k' i code rest ops →
      code = .granted → k.env.numGrantLeave + k.env.kept < P := by
    rintro i code rest ops hx rfl
    have hrest := load_nonneg (.mutex : Sem P) grantedWeight_nonneg rest
    have hle := h.le_sub_numGrantLeave i
    simp only [remaining, hx.remaining, load_cons, Op.weight, grantedWeight] at hle hrest
    omega
  constructor
  · refine Eq.trans (hm.balance_eq fun i code rest ops hx => ?_) h.enter
    obtain ⟨-, rfl⟩ := executes_eq hx
    rw [load_of_execute (.inl rfl)]
  · refine Eq.trans (hm.balance_eq fun i code rest ops hx => ?_) h.meal
    obtain ⟨-, rfl⟩ := executes_eq hx
    rw [load_of_execute (.inr rfl)]
  · refine h.sticks.trans (hm.le_balance fun i code rest ops hx => ?_)
    obtain ⟨-, rfl⟩ := executes_eq hx
    exact add_le_add_left (le_mutex_of_execute i code input.code k.env) 0
  · refine Eq.trans (hm.balance_eq fun i code rest ops hx => ?_) h.leave
    obtain ⟨henv, rfl⟩ := executes_eq hx
    rw [henv]
    exact (granted_of_execute i code input.code k.env (hgranted hx)).1
  · refine Eq.trans (hm.balance_eq fun i code rest ops hx => ?_) h.granted
    obtain ⟨henv, rfl⟩ := executes_eq hx
    rw [henv]
    exact (granted_of_execute i code input.code k.env (hgranted hx)).2
  · cases hm with
    | exec i code rest ops hx =>
      rw [(executes_eq hx).1]
      exact last_of_execute i code input.code k.env h.last
    | wait i s rest hrem hvalue hrem' hsem henv => exact henv ▸ h.last
    | take i s rest hrem hvalue hrem' hsem henv => exact henv ▸ h.last
    | wake i s rest hrem hrem' hsem henv => exact henv ▸ h.last
    | silent hrem' hsem henv => exact henv ▸ h.last

end Locks

/-! ### A waiting philosopher will be woken up -/

variable {k k' : State P} {input : Input Empty ℕ}

/-- The units of `PhilGrantSemaphore[j]`, also those on their way, less the one that `j` waits
for. -/
def grants (k : State P) (j : Fin P) : ℤ :=
  (program P).balance 1 (.philGrantSemaphore j) (fun _ _ => 0) (fun _ => 0) k

/-- If the philosopher `j` waits for its grant and none is on its way, then it is hungry and a
neighbour eats that has not yet passed it over. -/
def Awaited (k : State P) (j : Fin P) : Prop :=
  0 ≤ grants k j ∨ k.env.philState j = .isHungry ∧ .p (.philGrantSemaphore j) ∈ remaining k j ∧
    -1 ≤ grants k j ∧ ∃ i, (j = leftOf i ∨ j = rightOf i) ∧ k.env.philState i = .isEating ∧
      ¬ PassedOver k i j

/-- Only the philosopher `j` waits for its grant, and for one at a time. -/
theorem Stage.grant_load {s : PState} {d : Bool} {ops : List (Op (Sem P) Code)} (j : Fin P)
    (h : Stage i s d ops) : (if j = i then -1 else 0) ≤
      load 1 (.philGrantSemaphore j) (fun _ => 0) ops := by
  cases h <;> simp [Op.weight] <;> split_ifs <;> simp_all

/-- What `j` waits for is at most one unit more than there is. -/
theorem value_le_grants (hst : Staged k) (j : Fin P) :
    (k.semaphore (.philGrantSemaphore j)).value - 1 ≤ grants k j := by
  have hsum : ∑ i, (if j = i then (-1 : ℤ) else 0) ≤
      ∑ i, load 1 (.philGrantSemaphore j) (fun _ => 0) ((program P).remaining k i) :=
    Finset.sum_le_sum fun i _ => (hst i).grant_load j
  simp only [Finset.sum_ite_eq, Finset.mem_univ, if_true] at hsum
  simp only [grants, Program.balance]
  omega

/-- Completing an operation of the kernel. -/
theorem Awaited.settle (hst : Staged k) (hval : ∀ s, 0 ≤ (k.semaphore s).value)
    (hs : (program P).Settles k k') {j : Fin P} (h : Awaited k j) : Awaited k' j := by
  have hg : grants k' j = grants k j := hs.balance _ _ _ _
  have hpass : ∀ i, PassedOver k' i j ↔ PassedOver k i j := fun i => by
    simp only [PassedOver, remaining, hs.mem_run_iff]
  obtain hpos | ⟨hh, hmem, hlow, i, hij, he, hnot⟩ := h
  · exact .inl (hg ▸ hpos)
  obtain hrem | ⟨o, ho, hrem, hvalue⟩ := hs.remaining j
  · refine .inr ⟨hs.env ▸ hh, ?_, hg ▸ hlow, i, hij, hs.env ▸ he, (hpass i).not.2 hnot⟩
    simpa only [remaining, hrem] using hmem
  · by_cases hop : o = .p (.philGrantSemaphore j)
    · have hle := value_le_grants hst j
      have hv := hval (.philGrantSemaphore j)
      have hne := hvalue _ hop
      refine .inl ?_
      rw [hg]
      omega
    · refine .inr ⟨hs.env ▸ hh, ?_, hg ▸ hlow, i, hij, hs.env ▸ he, (hpass i).not.2 hnot⟩
      rw [remaining, hrem] at hmem
      exact (List.mem_cons.1 hmem).resolve_left (Ne.symm hop)

/-- A philosopher that executes code does not wait for its grant. -/
theorem Stage.not_mem_of_run {s : PState} {d : Bool} {rest : List (Op (Sem P) Code)}
    (h : Stage i s d (.run code :: rest)) :
    .p (.philGrantSemaphore i) ∉ Op.run code :: rest := by
  cases h <;> simp

/-- Only a philosopher that finds its neighbours eating takes away a grant, its own. -/
private theorem grants_of_execute (hP : 2 ≤ P) (i j : Fin P) (code : Code) (random : ℕ)
    (g : Globals P) :
    0 ≤ load 1 (.philGrantSemaphore j) (fun _ => 0) (execute i code random g).2 ∨
      j = i ∧ (code = .hungry ∨ code = .whileHungry) ∧
        load 1 (.philGrantSemaphore j) (fun _ => 0) (execute i code random g).2 = -1 ∧
        (execute i code random g).1.philState i = .isHungry ∧
        .p (.philGrantSemaphore i) ∈ (execute i code random g).2 ∧
        (g.philState (leftOf i) = .isEating ∨ g.philState (rightOf i) = .isEating) := by
  have hloop : ∀ g : Globals P,
      0 ≤ load 1 (.philGrantSemaphore j) (fun _ => 0) (whileHungry i g).2 ∨
        j = i ∧ load 1 (.philGrantSemaphore j) (fun _ => 0) (whileHungry i g).2 = -1 ∧
          (whileHungry i g).1.philState i = .isHungry ∧
          .p (.philGrantSemaphore i) ∈ (whileHungry i g).2 ∧
          (g.philState (leftOf i) = .isEating ∨ g.philState (rightOf i) = .isEating) := by
    intro g
    unfold whileHungry
    split_ifs with hh hf
    · left
      simp [Op.weight]
      split_ifs <;> simp
    · rw [g.sticksFree_iff hP, not_and, not_and_or, not_not, not_not] at hf
      by_cases hj : i = j
      · exact .inr ⟨hj.symm, by simp [Op.weight, hj], hh, by simp, hf hh⟩
      · left
        simp [Op.weight, hj]
    · left
      simp
  cases code with
  | hungry =>
    obtain hl | ⟨hj, hl, hs, hp, hn⟩ := hloop (g.setState i .isHungry)
    · exact .inl hl
    · refine .inr ⟨hj, .inl rfl, hl, hs, hp, ?_⟩
      simpa [Globals.setState, leftOf_ne hP, rightOf_ne hP] using hn
  | whileHungry =>
    obtain hl | ⟨hj, hl⟩ := hloop g
    · exact .inl hl
    · exact .inr ⟨hj, .inr rfl, hl⟩
  | entered | grantSeats | whileNotDone | meal | readyToLeave | grantLeave | granted =>
    left
    simp only [execute]
    split_ifs <;> simp [Op.weight]
  | wakeLeft | wakeRight =>
    left
    simp only [execute]
    split_ifs
    · simp [Op.weight]
      split_ifs <;> simp
    · simp
  | _ =>
    left
    simp [execute, Op.weight]

section Execute

variable {rest ops : List (Op (Sem P) Code)}

private theorem grants_of_executes (hx : (program P).Executes k input k' i code rest ops)
    (j : Fin P) : grants k' j = grants k j +
      load 1 (.philGrantSemaphore j) (fun _ => 0) (execute i code input.code k.env).2 := by
  have h := hx.balance (c := 1) (s := .philGrantSemaphore j) (w := fun _ _ => 0) (f := fun _ => 0)
  rw [(executes_eq hx).2] at h
  unfold grants
  omega

private theorem remaining_of_executes_ne (hx : (program P).Executes k input k' i code rest ops)
    {j : Fin P} (hj : j ≠ i) : remaining k' j = remaining k j := by
  simp [remaining, hx.remaining', hj]

/-- A philosopher that tests its neighbours at the right moment will be woken up. -/
private theorem Awaited.execute_self (hP : 2 ≤ P) (hst : Staged k) (hnot : ¬ TestsTooEarly k)
    (hx : (program P).Executes k input k' i code rest ops) (h : Awaited k i) : Awaited k' i := by
  have hrem : remaining k i = .run code :: rest := hx.remaining
  have hpos : 0 ≤ grants k i := by
    have hsti := hst i
    rw [hrem] at hsti
    exact h.resolve_right fun hw => hsti.not_mem_of_run (hrem ▸ hw.2.1)
  have hg := grants_of_executes hx i
  obtain ⟨henv, hops⟩ := executes_eq hx
  obtain hl | ⟨-, hcode, hl, hs, hp, hn⟩ := grants_of_execute hP i i code input.code k.env
  · exact .inl (by omega)
  rw [← henv] at hs
  refine .inr ⟨hs, ?_, by omega, ?_⟩
  · simp only [remaining, hx.remaining', update_self, hops]
    exact List.mem_append_left _ (List.mem_filter.2 ⟨hp, rfl⟩)
  · have hnext : ∀ n, ¬ PassedOver k n i := by
      intro n hn
      refine hnot ⟨i, ?_, n, hn⟩
      rcases hcode with rfl | rfl
      · exact .inl hx.isNext
      · exact .inr hx.isNext
    have hstay : ∀ n, n ≠ i → k.env.philState n = .isEating →
        k'.env.philState n = .isEating ∧ ¬ PassedOver k' n i := by
      intro n hni he
      rw [henv, (execute_of_ne hni code input.code k.env).1]
      refine ⟨he, ?_⟩
      simpa only [PassedOver, remaining_of_executes_ne hx hni] using hnext n
    rcases hn with hn | hn
    · exact ⟨leftOf i, .inr (rightOf_leftOf i).symm, hstay _ (leftOf_ne hP i) hn⟩
    · exact ⟨rightOf i, .inl (leftOf_rightOf i).symm, hstay _ (rightOf_ne hP i) hn⟩

/-- A philosopher that eats either goes on eating, and does not pass over its hungry neighbour, or
wakes it up. -/
private theorem wakes_or_stays (hP : 2 ≤ P) (hst : Staged k)
    (hx : (program P).Executes k input k' i code rest ops) {j : Fin P}
    (hij : j = leftOf i ∨ j = rightOf i) (hh : k.env.philState j = .isHungry)
    (he : k.env.philState i = .isEating) (hnot : ¬ PassedOver k i j) :
    1 ≤ load 1 (.philGrantSemaphore j) (fun _ => 0) (execute i code input.code k.env).2 ∨
      k'.env.philState i = .isEating ∧ ¬ PassedOver k' i j := by
  have hrem : remaining k i = .run code :: rest := hx.remaining
  obtain ⟨henv, rfl⟩ := executes_eq hx
  have hrem' : remaining k' i =
      (execute i code input.code k.env).2.filter Op.isWork ++ rest := by
    simp [remaining, hx.remaining']
  have hsti := hst i
  rw [hrem, he] at hsti
  simp only [PassedOver, hrem, hrem', henv] at hnot ⊢
  generalize k.env.done i = d at hsti
  cases hsti with
  | whileHungry => right; simp [execute, whileHungry, he]
  | eat => right; simp [execute, he]
  | meal =>
    right
    simp only [execute]
    split_ifs <;> simp [Globals.record, he]
  | digest => right; simp [execute, he]
  | putSticks => right; simp [execute, he]
  | wakeLeft =>
    by_cases hj : j = leftOf i
    · left
      simp [execute, Op.weight, ← hj, hh]
    · right
      simp only [execute]
      split_ifs <;> simp [he, hj]
  | wakeRight =>
    have hj : j ≠ leftOf i := fun hj => hnot (by simp [hj])
    have hjr := hij.resolve_left hj
    have hP' : 2 < P := by
      refine lt_of_le_of_ne hP fun h => hj ?_
      rw [hjr, leftOf_eq_rightOf h.symm]
    left
    simp [execute, Op.weight, ← hjr, hh, hP']
  | think => exact absurd (by simpa using hij) hnot

private theorem Awaited.execute_ne (hP : 2 ≤ P) (hst : Staged k)
    (hx : (program P).Executes k input k' i code rest ops) {j : Fin P} (hj : j ≠ i)
    (h : Awaited k j) : Awaited k' j := by
  have hg := grants_of_executes hx j
  obtain ⟨henv, -⟩ := executes_eq hx
  have hl : 0 ≤ load 1 (.philGrantSemaphore j) (fun _ => 0)
      (execute i code input.code k.env).2 :=
    (grants_of_execute hP i j code input.code k.env).resolve_right
      fun hji => hj hji.1
  obtain hpos | ⟨hh, hmem, hlow, n, hn, he, hnot⟩ := h
  · exact .inl (by omega)
  have hh' : k'.env.philState j = .isHungry := by
    rw [henv, (execute_of_ne hj code input.code k.env).1, hh]
  have hmem' : .p (.philGrantSemaphore j) ∈ remaining k' j := by
    rwa [remaining_of_executes_ne hx hj]
  by_cases hni : n = i
  · subst hni
    obtain hw | ⟨he', hnot'⟩ := wakes_or_stays hP hst hx hn hh he hnot
    · exact .inl (by omega)
    · exact .inr ⟨hh', hmem', by omega, n, hn, he', hnot'⟩
  · refine .inr ⟨hh', hmem', by omega, n, hn, ?_, ?_⟩
    · rw [henv, (execute_of_ne hni code input.code k.env).1, he]
    · simpa only [PassedOver, remaining_of_executes_ne hx hni] using hnot

end Execute

theorem Awaited.move (hP : 2 ≤ P) (hreg : (program P).Regular value k) (hst : Staged k)
    (hnot : ¬ TestsTooEarly k) (hm : (program P).Move k input k') (h : ∀ j, Awaited k j)
    (j : Fin P) : Awaited k' j := by
  obtain ⟨i, code, rest, ops, hx⟩ | hs := hm.executes_or_settles
  · by_cases hj : j = i
    · subst hj
      exact (h j).execute_self hP hst hnot hx
    · exact (h j).execute_ne hP hst hx hj
  · exact (h j).settle hst (fun s => (hreg.counted s).nonneg) hs

/-! ### No deadlock -/

section Stuck

variable {s : Sem P} {st : PState} {d : Bool} {rest : List (Op (Sem P) Code)}

/-- A philosopher that calls `P` holds no mutex. -/
theorem Stage.mutex_loads_of_p (h : Stage i st d (.p s :: rest)) :
    load 1 .enterMutex (fun _ => 0) (.p s :: rest) = 0 ∧
      load 1 .mealLeftMutex (fun _ => 0) (.p s :: rest) = 0 ∧
      load 1 .mutex mutexWeight (.p s :: rest) = 0 ∧
      load 1 .leaveMutex leaveMutexWeight (.p s :: rest) = 0 := by
  cases h <;> simp [Op.weight, mutexWeight, leaveMutexWeight]

/-- A philosopher that calls `P` is about to give nothing to others. -/
theorem Stage.loads_of_p (h : Stage i st d (.p s :: rest)) :
    load 1 .sitSemaphore (seatWeight P) (.p s :: rest) ≤ 0 ∧
      load 1 .leaveSemaphore (leaveWeight P) (.p s :: rest) ≤ 0 ∧
      ∀ j, load 1 (.philGrantSemaphore j) (fun _ => 0) (.p s :: rest) =
        if s = .philGrantSemaphore j then -1 else 0 := by
  cases h <;> simp [Op.weight, seatWeight, leaveWeight]

/-- Where a philosopher calls `P`. -/
theorem Stage.p_cases (h : Stage i st d (.p s :: rest)) :
    (s = .sitSemaphore ∧ load 1 .sitSemaphore (seatWeight P) (.p s :: rest) = -1) ∨
      (s = .leaveSemaphore ∧ load 1 .leaveSemaphore (leaveWeight P) (.p s :: rest) = -1) ∨
      (s = .leaveMutex ∧ load 0 .mutex grantedWeight (.p s :: rest) = 1) ∨
      s = .philGrantSemaphore i ∨ s = .enterMutex ∨ s = .mealLeftMutex ∨ s = .mutex := by
  cases h <;> simp [Op.weight, seatWeight, leaveWeight, grantedWeight]

/-- A philosopher that eats calls `P` only for its grant or a mutex. -/
theorem Stage.p_cases_of_isEating (h : Stage i .isEating d (.p s :: rest)) :
    s = .philGrantSemaphore i ∨ s = .mealLeftMutex ∨ s = .mutex := by
  cases h <;> simp

theorem Stage.ne_nil {ops : List (Op (Sem P) Code)} (h : Stage i .isEating d ops) : ops ≠ [] := by
  cases h <;> simp

/-- A philosopher that has not entered calls `P` on `EnterMutex` only. -/
theorem Stage.enterMutex_of_load (h : Stage i st d (.p s :: rest))
    (hl : 0 < load 0 .mutex enterWeight (.p s :: rest)) : s = .enterMutex := by
  cases h <;> simp_all [Op.weight, enterWeight]

/-- A philosopher that is not ready to leave does not wait for the permission. -/
theorem Stage.ne_leaveSemaphore_of_load (h : Stage i st d (.p s :: rest))
    (hl : 0 < load 0 .mutex readyWeight (.p s :: rest)) : s ≠ .leaveSemaphore := by
  cases h <;> simp_all [Op.weight, readyWeight]

/-- The philosophers that have not returned all sleep. -/
structure Stuck (k : State P) : Prop where
  regular : (program P).Regular value k
  staged : Staged k
  asleep : ∀ i, remaining k i ≠ [] → Program.Asleep k i

namespace Stuck

theorem nil_or_p (h : Stuck k) (i : Fin P) : remaining k i = [] ∨
    ∃ s rest, remaining k i = .p s :: rest ∧ .forked i ∈ (k.semaphore s).queue := by
  by_cases hr : remaining k i = []
  · exact .inl hr
  · obtain ⟨s, hs⟩ := h.asleep i hr
    obtain ⟨rest, hrest⟩ := h.regular.remaining_of_mem_queue hs
    exact .inr ⟨s, rest, hrest, hs⟩

theorem value_eq_zero (h : Stuck k) (hi : .forked i ∈ (k.semaphore s).queue) :
    (k.semaphore s).value = 0 :=
  h.regular.value_eq_zero h.asleep hi

/-- What holds of an empty list and at every call of `P` holds of all philosophers. -/
private theorem forall_remaining (h : Stuck k) (Q : List (Op (Sem P) Code) → Prop) (hnil : Q [])
    (hp : ∀ i s rest, Stage i (k.env.philState i) (k.env.done i) (.p s :: rest) →
      .forked i ∈ (k.semaphore s).queue → Q (.p s :: rest)) (i : Fin P) :
    Q (remaining k i) := by
  obtain hr | ⟨s, rest, hr, hs⟩ := h.nil_or_p i
  · exact hr ▸ hnil
  · have hst := h.staged i
    rw [hr] at hst ⊢
    exact hp i s rest hst hs

/-- Nobody sleeps at a mutex whose unit is nowhere else. -/
private theorem notMem_of_load (h : Stuck k) {w : Code → ℤ}
    (hsum : 1 ≤ (program P).balance 1 s (fun _ => w) (fun _ => 0) k)
    (hload : ∀ i, load 1 s w (remaining k i) = 0) (i : Fin P) :
    .forked i ∉ (k.semaphore s).queue := by
  intro hi
  have hv := h.value_eq_zero hi
  have hzero : ∑ i, load 1 s w ((program P).remaining k i) = 0 :=
    Finset.sum_eq_zero fun i _ => hload i
  simp only [Program.balance, hv, hzero] at hsum
  omega

theorem notMem_enterMutex (h : Stuck k) (hl : Locks k) (i : Fin P) :
    .forked i ∉ (k.semaphore .enterMutex).queue :=
  h.notMem_of_load hl.enter.ge (h.forall_remaining (load 1 .enterMutex (fun _ => 0) · = 0) rfl
    fun _ _ _ hst _ => hst.mutex_loads_of_p.1) i

theorem notMem_mealLeftMutex (h : Stuck k) (hl : Locks k) (i : Fin P) :
    .forked i ∉ (k.semaphore .mealLeftMutex).queue :=
  h.notMem_of_load hl.meal.ge (h.forall_remaining (load 1 .mealLeftMutex (fun _ => 0) · = 0) rfl
    fun _ _ _ hst _ => hst.mutex_loads_of_p.2.1) i

theorem notMem_mutex (h : Stuck k) (hl : Locks k) (i : Fin P) :
    .forked i ∉ (k.semaphore .mutex).queue :=
  h.notMem_of_load hl.sticks (h.forall_remaining (load 1 .mutex mutexWeight · = 0) rfl
    fun _ _ _ hst _ => hst.mutex_loads_of_p.2.2.1) i

/-- The last philosopher, which keeps `LeaveMutex`, comes after all others. -/
theorem notMem_leaveMutex (h : Stuck k) (hl : Locks k) (i : Fin P) :
    .forked i ∉ (k.semaphore .leaveMutex).queue := by
  intro hi
  have hload : ∀ i, load 1 .leaveMutex leaveMutexWeight (remaining k i) = 0 :=
    h.forall_remaining (load 1 .leaveMutex leaveMutexWeight · = 0) rfl
      fun _ _ _ hst _ => hst.mutex_loads_of_p.2.2.2
  have hzero : ∑ i, load 1 .leaveMutex leaveMutexWeight ((program P).remaining k i) = 0 :=
    Finset.sum_eq_zero fun i _ => hload i
  have hleave := hl.leave
  simp only [Program.balance, h.value_eq_zero hi, hzero] at hleave
  have hgrant : k.env.leaveGrant = true := by
    by_contra hg
    simp [Globals.kept, hg] at hleave
  have hlast := hl.last hgrant
  obtain ⟨rest, hrest⟩ := h.regular.remaining_of_mem_queue hi
  have hle := hl.le_sub_numGrantLeave i
  have hst := h.staged i
  rw [remaining, hrest] at hle hst
  have hone : load 0 .mutex grantedWeight (.p .leaveMutex :: rest) = 1 := by
    simpa using hst.p_cases
  omega

/-- The seats have been granted to all. -/
theorem notMem_sitSemaphore (h : Stuck k) (hl : Locks k) (hg : Gates k) (i : Fin P) :
    .forked i ∉ (k.semaphore .sitSemaphore).queue := by
  intro hi
  have hup : ∀ i, load 1 .sitSemaphore (seatWeight P) ((program P).remaining k i) ≤ 0 :=
    h.forall_remaining (load 1 .sitSemaphore (seatWeight P) · ≤ 0) le_rfl
      fun _ _ _ hst _ => hst.loads_of_p.1
  obtain ⟨rest, hrest⟩ := h.regular.remaining_of_mem_queue hi
  have hst := h.staged i
  rw [remaining, hrest] at hst
  have hone : load 1 .sitSemaphore (seatWeight P) (.p .sitSemaphore :: rest) = -1 := by
    simpa using hst.p_cases
  have hsum := Program.sum_load_le hup i
  have hseats := hg.seats
  simp only [Program.balance, h.value_eq_zero hi] at hseats
  have hn : 0 < k.env.numPhilNotIn := by
    by_contra hn
    rw [Globals.seatsGranted, if_pos (not_lt.1 hn)] at hseats
    rw [hrest, hone] at hsum
    omega
  have hnone : ∀ j, load 0 .mutex enterWeight ((program P).remaining k j) ≤ 0 := by
    refine h.forall_remaining (load 0 .mutex enterWeight · ≤ 0) le_rfl fun j s rest hst hs => ?_
    by_contra hl'
    have he := hst.enterMutex_of_load (not_le.1 hl')
    exact h.notMem_enterMutex hl j (he ▸ hs)
  have habs := hg.absent
  have := Finset.sum_nonpos fun j (_ : j ∈ Finset.univ) => hnone j
  simp only [Program.balance] at habs
  omega

/-- A philosopher that waits for its grant has not got it. -/
private theorem grants_neg (h : Stuck k)
    (hi : .forked i ∈ (k.semaphore (.philGrantSemaphore i)).queue) : grants k i < 0 := by
  have hup : ∀ j, load 1 (.philGrantSemaphore i) (fun _ => 0) ((program P).remaining k j) ≤ 0 := by
    refine h.forall_remaining (load 1 (.philGrantSemaphore i) (fun _ => 0) · ≤ 0) le_rfl
      fun j s rest hst hs => ?_
    rw [hst.loads_of_p.2.2]
    split_ifs <;> simp
  obtain ⟨rest, hrest⟩ := h.regular.remaining_of_mem_queue hi
  have hst := h.staged i
  rw [remaining, hrest] at hst
  have hone := hst.loads_of_p.2.2 i
  have hsum := Program.sum_load_le hup i
  rw [hrest, hone, if_pos rfl] at hsum
  simp only [grants, Program.balance, h.value_eq_zero hi]
  omega

/-- A philosopher that waits for its grant would have a neighbour that eats and sleeps. -/
theorem notMem_philGrantSemaphore (h : Stuck k) (hl : Locks k) (hw : ∀ j, Awaited k j)
    (i : Fin P) : .forked i ∉ (k.semaphore (.philGrantSemaphore i)).queue := by
  intro hi
  obtain hpos | ⟨-, -, -, n, -, he, -⟩ := hw i
  · exact absurd (h.grants_neg hi) (not_lt.2 hpos)
  have hst := h.staged n
  rw [he] at hst
  obtain hr | ⟨s, rest, hr, hs⟩ := h.nil_or_p n
  · rw [hr] at hst
    exact hst.ne_nil rfl
  rw [hr] at hst
  obtain rfl | rfl | rfl := hst.p_cases_of_isEating
  · obtain hpos | ⟨hh, -⟩ := hw n
    · exact absurd (h.grants_neg hs) (not_lt.2 hpos)
    · simp [he] at hh
  · exact h.notMem_mealLeftMutex hl n hs
  · exact h.notMem_mutex hl n hs

/-- All philosophers are ready to leave. -/
theorem notMem_leaveSemaphore (h : Stuck k) (hl : Locks k) (hg : Gates k)
    (hw : ∀ j, Awaited k j) (i : Fin P) : .forked i ∉ (k.semaphore .leaveSemaphore).queue := by
  intro hi
  have hup : ∀ i, load 1 .leaveSemaphore (leaveWeight P) ((program P).remaining k i) ≤ 0 :=
    h.forall_remaining (load 1 .leaveSemaphore (leaveWeight P) · ≤ 0) le_rfl
      fun _ _ _ hst _ => hst.loads_of_p.2.1
  obtain ⟨rest, hrest⟩ := h.regular.remaining_of_mem_queue hi
  have hst := h.staged i
  rw [remaining, hrest] at hst
  have hone : load 1 .leaveSemaphore (leaveWeight P) (.p .leaveSemaphore :: rest) = -1 := by
    simpa using hst.p_cases
  have hsum := Program.sum_load_le hup i
  have hleaves := hg.leaves
  simp only [Program.balance, h.value_eq_zero hi] at hleaves
  have hn : k.env.numRdyLeave < P := by
    by_contra hn
    rw [Globals.leavesGranted, if_pos (not_lt.1 hn)] at hleaves
    rw [hrest, hone] at hsum
    omega
  have hnone : ∀ j, load 0 .mutex readyWeight ((program P).remaining k j) ≤ 0 := by
    refine h.forall_remaining (load 0 .mutex readyWeight · ≤ 0) le_rfl fun j s rest hst hs => ?_
    by_contra hl'
    have hne := hst.ne_leaveSemaphore_of_load (not_le.1 hl')
    obtain ⟨rfl, -⟩ | ⟨rfl, -⟩ | ⟨rfl, -⟩ | rfl | rfl | rfl | rfl := hst.p_cases
    · exact h.notMem_sitSemaphore hl hg j hs
    · exact hne rfl
    · exact h.notMem_leaveMutex hl j hs
    · exact h.notMem_philGrantSemaphore hl hw j hs
    · exact h.notMem_enterMutex hl j hs
    · exact h.notMem_mealLeftMutex hl j hs
    · exact h.notMem_mutex hl j hs
  have hready := hg.ready
  have := Finset.sum_nonpos fun j (_ : j ∈ Finset.univ) => hnone j
  simp only [Program.balance] at hready
  omega

/-- Then all have returned. -/
theorem remaining_eq_nil (h : Stuck k) (hl : Locks k) (hg : Gates k) (hw : ∀ j, Awaited k j)
    (i : Fin P) : remaining k i = [] := by
  obtain hr | ⟨s, rest, hr, hs⟩ := h.nil_or_p i
  · exact hr
  have hst := h.staged i
  rw [hr] at hst
  obtain ⟨rfl, -⟩ | ⟨rfl, -⟩ | ⟨rfl, -⟩ | rfl | rfl | rfl | rfl := hst.p_cases
  · exact absurd hs (h.notMem_sitSemaphore hl hg i)
  · exact absurd hs (h.notMem_leaveSemaphore hl hg hw i)
  · exact absurd hs (h.notMem_leaveMutex hl i)
  · exact absurd hs (h.notMem_philGrantSemaphore hl hw i)
  · exact absurd hs (h.notMem_enterMutex hl i)
  · exact absurd hs (h.notMem_mealLeftMutex hl i)
  · exact absurd hs (h.notMem_mutex hl i)

end Stuck

end Stuck

/-- In every run in which no philosopher tests its neighbours while one of them is about to stop
eating without waking it up, no deadlock is reached. -/
theorem not_deadlock_of_not_testsTooEarly {M : ℕ} (hP : 2 ≤ P) (k : State P)
    (h : (system P M).Reachable (fun k _ => ¬ TestsTooEarly k) k) : ¬ Deadlock k := by
  obtain ⟨hreg, hsafe⟩ := safe_of_reachable hP h
  obtain ⟨-, -, hlocks, hawaited⟩ := Program.Reachable.invariant
    (fun k => Staged k ∧ Locks k ∧ ∀ j, Awaited k j) h
    ⟨staged_boot M, .boot M, fun j => .inl (by
      rw [grants, Program.balance_boot]
      simp [value])⟩
    fun _ _ _ hreg hI hC hm =>
      ⟨hI.1.move hm, hI.2.1.move hm, Awaited.move hP hreg hI.1 hC hm hI.2.2⟩
  rintro ⟨⟨i, hi⟩, hall⟩
  exact hi (Stuck.remaining_eq_nil ⟨hreg, hsafe.staged, hall⟩ hlocks hsafe.gates hawaited i)

/-- The interrupts of a run with two philosophers and one meal: whenever philosopher 1 wakes up
philosopher 0 in `PutSticks`, the timer lets philosopher 0 test at once. -/
def lostWakeups : List (Input Empty ℕ) :=
  List.replicate 103 ⟨[], 0⟩ ++ ⟨[.timer], 0⟩ :: List.replicate 66 ⟨[], 0⟩ ++
    ⟨[.timer], 0⟩ :: List.replicate 38 ⟨[], 0⟩

/-- Two philosophers with one meal reach a deadlock: philosopher 1 waits in `LeaveRoom` and
philosopher 0 for its grant. -/
theorem dinPhilSemaphore_deadlock : ∃ k, (system 2 1).Reachable Always k ∧ Deadlock k := by
  obtain ⟨k, hk, ht⟩ := exists_reachable_of_runInputs (S := system 2 1) rfl lostWakeups
    (fun k => decide (remaining k 0 ≠ [] ∧
      .forked 0 ∈ (k.semaphore (.philGrantSemaphore 0)).queue ∧
      .forked 1 ∈ (k.semaphore .leaveSemaphore).queue)) (by decide +kernel)
  obtain ⟨hne, h0, h1⟩ := of_decide_eq_true ht
  refine ⟨k, hk, ⟨0, hne⟩, fun i _ => ?_⟩
  match i with
  | 0 => exact ⟨_, h0⟩
  | 1 => exact ⟨_, h1⟩

/-- Without interrupts philosopher 0 is woken up in time: it sleeps while philosopher 1 eats. -/
theorem not_deadlock_of_timely_test :
    ∃ k, (system 2 1).Reachable (fun k _ => ¬ TestsTooEarly k) k ∧ ¬ Deadlock k ∧
      .forked 0 ∈ (k.semaphore (.philGrantSemaphore 0)).queue := by
  obtain ⟨k, hk, ht⟩ := exists_reachable_of_runInputsIf (S := system 2 1)
    (C := fun k _ => ¬ TestsTooEarly k) rfl (c := fun k _ => !decide (TestsTooEarly k))
    (fun k _ hc => by simpa using hc) (List.replicate 96 ⟨[], 0⟩)
    (fun k => decide (.forked 0 ∈ (k.semaphore (.philGrantSemaphore 0)).queue))
    (by decide +kernel)
  exact ⟨k, hk, not_deadlock_of_not_testsTooEarly le_rfl k hk, of_decide_eq_true ht⟩

end Nachos.Threads.DinPhilSemaphore
