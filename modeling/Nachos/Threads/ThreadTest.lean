import Mathlib.Algebra.BigOperators.Group.Finset.Basic
import Mathlib.Algebra.Order.BigOperators.Group.Finset
import Mathlib.Data.Fintype.BigOperators
import Nachos.Threads.Waiting

/-!
# The tasks of `ThreadTest`

`ThreadTest` reads the number `P` of participants, initialises the variables that they share,
forks one thread for each of them and finishes; the thread with number `i` executes the same
function with the argument `i`. What such a function does between two switches of threads is a
`Program`: it acts on the shared variables and issues a list of operations (`Op`).

A kernel state is reduced to what the participants have still to execute
(`Program.remaining`), the semaphores and the shared variables, and a step of the kernel to a
`Program.Move`: somebody executes code, completes or begins to wait in `P`, or completes `V`, or
nothing of this changes.

## Main definitions

* `Op`, `Program`: the function that the participants execute.
* `Program.client`, `Program.system`: the task on top of the kernel.
* `Program.remaining`: what a participant has still to execute.
* `Program.Move`: what a step of the kernel is for the participants.

## Main results

* `Program.move_of_step`: every step of the kernel is a `Program.Move`.
* `Program.Reachable.invariant`: what every move preserves holds in every reachable state.
* `Program.Regular.value_eq_zero`: if all participants that have not returned sleep, then no
  semaphore in which one of them sleeps has a unit.
-/

namespace Nachos.Threads

open Function Foundations

/-- The threads of a task: the one that executes `ThreadTest`, and the participants. -/
inductive Participant (P : ℕ)
  | main
  | forked (i : Fin P)
  deriving DecidableEq

/-- The code of a task: the loop of `ThreadTest` that forks the threads from the `n`-th on, and
the code of the participants. -/
inductive TaskCode (κ : Type)
  | threadTest (n : ℕ)
  | body (code : κ)
  deriving DecidableEq

/-- What a participant does: the calls of the kernel and further code. -/
inductive Op (σ κ : Type)
  | p (s : σ)
  | v (s : σ)
  | yield
  | run (code : κ)
  deriving DecidableEq

/-- The function that the participants execute: the code it begins with, and what the
participant `i` does when it executes a piece of code. -/
structure Program (P : ℕ) (σ κ ε ι : Type) where
  start : κ
  exec : Fin P → κ → ι → ε → Except Fault (ε × List (Op σ κ))

variable {P : ℕ} {σ κ ε ι : Type}

namespace Op

/-- The operation as a call of client code. -/
def call : Op σ κ → Call (Participant P) σ (TaskCode κ)
  | p s => .p s
  | v s => .v s
  | yield => .yield
  | run code => .code (.body code)

/-- Everything but `Yield` remains to be done until it is done. -/
def isWork : Op σ κ → Bool
  | p _ => true
  | v _ => true
  | yield => false
  | run _ => true

variable (s : σ) (code : κ) (ops : List (Op σ κ))

@[simp]
theorem filter_isWork_p : (p s :: ops).filter isWork = p s :: ops.filter isWork := rfl

@[simp]
theorem filter_isWork_v : (v s :: ops).filter isWork = v s :: ops.filter isWork := rfl

@[simp]
theorem filter_isWork_yield : (yield :: ops).filter isWork = ops.filter isWork := rfl

@[simp]
theorem filter_isWork_run : (run code :: ops).filter isWork = run code :: ops.filter isWork := rfl

@[simp]
theorem filter_isWork_replicate_yield (n : ℕ) :
    (List.replicate n (yield : Op σ κ)).filter isWork = [] := by
  induction n with
  | zero => rfl
  | succ n ih => exact ih

end Op

/-- The operation that a call of client code is. -/
def Call.op : Call (Participant P) σ (TaskCode κ) → Option (Op σ κ)
  | .p s => some (.p s)
  | .v s => some (.v s)
  | .code (.body k) => some (.run k)
  | _ => none

theorem eq_of_task_eq_some {τ : Type} {c c' : Call τ σ κ} (h : c.task = some c') : c' = c := by
  cases c <;> first | exact (Option.some.inj h).symm | cases h

theorem filterMap_op_map_call (ops : List (Op σ κ)) :
    ((ops.map (Op.call (P := P))).filterMap Call.task).filterMap Call.op =
      ops.filter Op.isWork := by
  induction ops with
  | nil => rfl
  | cons o ops ih =>
    cases o with
    | yield => exact ih
    | p s => exact congrArg (Op.p s :: ·) ih
    | v s => exact congrArg (Op.v s :: ·) ih
    | run k => exact congrArg (Op.run k :: ·) ih

namespace Program

/-- The task as a client of the kernel. -/
def client (T : Program P σ κ ε ι) : Client (Participant P) σ (TaskCode κ) Empty ε ι where
  exec
    | .main, .threadTest n, _, env =>
      .ok (env, if h : n < P then
        [.fork (.forked ⟨n, h⟩) (.body T.start), .code (.threadTest (n + 1))] else [])
    | .forked i, .body code, input, env =>
      (T.exec i code input env).map fun r => (r.1, r.2.map Op.call)
    | _, _, _, _ => .error .disabled
  saveState _ env := env
  restoreState _ env := env
  delayedLoad env := env
  handler := Empty.elim

/-- The state in which `ThreadTest` has initialised the shared variables. -/
abbrev boot (value : σ → ℕ) (env : ε) : Kernel (Participant P) σ (TaskCode κ) ε :=
  Threads.boot .main (.threadTest 0) value env

variable (T : Program P σ κ ε ι)

/-- What the participant `i` has still to execute; everything as long as it is not forked. -/
def remaining (k : Kernel (Participant P) σ (TaskCode κ) ε) (i : Fin P) : List (Op σ κ) :=
  if .forked i ∈ k.history.forked then (k.tasks (.forked i)).filterMap Call.op
  else [.run T.start]

/-- The runs of the task. -/
abbrev system [DecidableEq σ] (value : σ → ℕ) (env : ε) :
    StepSystem (Kernel (Participant P) σ (TaskCode κ) ε) (Input Empty ι) Fault :=
  threadSystem T.client .main (.threadTest 0) value env

/-- The participant `i` executes `code`, which issues `ops`; `rest` is what it had to do after
that. -/
structure Executes (k : Kernel (Participant P) σ (TaskCode κ) ε) (input : Input Empty ι)
    (k' : Kernel (Participant P) σ (TaskCode κ) ε) (i : Fin P) (code : κ)
    (rest ops : List (Op σ κ)) : Prop where
  current : k.currentThread = .forked i
  stack : ∃ fs, k.stack (.forked i) = .call (.code (.body code)) :: fs
  exec : T.exec i code input.code k.env = .ok (k'.env, ops)
  remaining : T.remaining k i = .run code :: rest
  remaining' : T.remaining k' = update (T.remaining k) i (ops.filter Op.isWork ++ rest)
  semaphore : k'.semaphore = k.semaphore

/-- The next step executes the piece `code` of the participant `i`. -/
def IsNext (k : Kernel (Participant P) σ (TaskCode κ) ε) (i : Fin P) (code : κ) : Prop :=
  k.currentThread = .forked i ∧
    (k.stack (.forked i)).head? = some (.call (.code (.body code)))

instance [DecidableEq σ] [DecidableEq κ] (k : Kernel (Participant P) σ (TaskCode κ) ε) (i : Fin P)
    (code : κ) : Decidable (IsNext k i code) :=
  inferInstanceAs (Decidable (_ ∧ _))

/-- In the next step the participant `i` finds the value 0 in `P` and goes to sleep. -/
def FallsAsleep (k : Kernel (Participant P) σ (TaskCode κ) ε) (i : Fin P) (s : σ) : Prop :=
  k.currentThread = .forked i ∧ ((k.stack (.forked i)).head? = some (.call (.p s)) ∨
    (k.stack (.forked i)).head? = some (.retest s)) ∧ (k.semaphore s).value = 0

instance [DecidableEq σ] [DecidableEq κ] (k : Kernel (Participant P) σ (TaskCode κ) ε) (i : Fin P)
    (s : σ) : Decidable (FallsAsleep k i s) :=
  inferInstanceAs (Decidable (_ ∧ (_ ∨ _) ∧ _))

/-- What a step of the kernel is for the participants. -/
inductive Move [DecidableEq σ] (k : Kernel (Participant P) σ (TaskCode κ) ε) (input : Input Empty ι)
    (k' : Kernel (Participant P) σ (TaskCode κ) ε) : Prop
  /-- A participant executes code. -/
  | exec (i : Fin P) (code : κ) (rest ops : List (Op σ κ))
    (h : T.Executes k input k' i code rest ops)
  /-- A participant finds the value 0 in `P` and joins the queue. -/
  | wait (i : Fin P) (s : σ) (rest : List (Op σ κ)) (hrem : T.remaining k i = .p s :: rest)
    (hvalue : (k.semaphore s).value = 0) (hrem' : T.remaining k' = T.remaining k)
    (hsem : k'.semaphore = update k.semaphore s
      { k.semaphore s with queue := (k.semaphore s).queue ++ [.forked i] })
    (henv : k'.env = k.env) (hasleep : FallsAsleep k i s)
  /-- A participant completes `P`. -/
  | take (i : Fin P) (s : σ) (rest : List (Op σ κ)) (hrem : T.remaining k i = .p s :: rest)
    (hvalue : (k.semaphore s).value ≠ 0) (hrem' : T.remaining k' = update (T.remaining k) i rest)
    (hsem : k'.semaphore = update k.semaphore s
      { k.semaphore s with value := (k.semaphore s).value - 1 })
    (henv : k'.env = k.env)
  /-- A participant completes `V`. -/
  | wake (i : Fin P) (s : σ) (rest : List (Op σ κ)) (hrem : T.remaining k i = .v s :: rest)
    (hrem' : T.remaining k' = update (T.remaining k) i rest)
    (hsem : k'.semaphore = update k.semaphore s
      ⟨(k.semaphore s).value + 1, (k.semaphore s).queue.tail⟩)
    (henv : k'.env = k.env)
  /-- Nothing of this changes. -/
  | silent (hrem' : T.remaining k' = T.remaining k) (hsem : k'.semaphore = k.semaphore)
    (henv : k'.env = k.env)

variable {T} in
theorem Executes.isNext {k k' : Kernel (Participant P) σ (TaskCode κ) ε} {input : Input Empty ι}
    {i : Fin P} {code : κ} {rest ops : List (Op σ κ)}
    (h : T.Executes k input k' i code rest ops) : IsNext k i code := by
  obtain ⟨fs, hfs⟩ := h.stack
  exact ⟨h.current, by simp [hfs]⟩

/-! ### Every step is a move -/

/-- The calls that the threads have still to complete are those of a task. -/
structure Shaped (k : Kernel (Participant P) σ (TaskCode κ) ε) : Prop where
  main : ∀ c ∈ k.tasks .main, c = .finish ∨ (∃ n, c = .code (.threadTest n)) ∨
    ∃ i, c = .fork (.forked i) (.body T.start)
  forked : ∀ i, ∀ c ∈ k.tasks (.forked i), c = .finish ∨ ∃ o : Op σ κ, c = o.call

/-- What holds in every state of every run of a task. -/
structure Regular (value : σ → ℕ) (k : Kernel (Participant P) σ (TaskCode κ) ε) : Prop where
  sound : k.Sound .main
  counted : k.SemaphoresCounted value
  waiting : k.Waiting .main
  shaped : T.Shaped k

variable {T} {k k' : Kernel (Participant P) σ (TaskCode κ) ε} {input : Input Empty ι}

theorem shaped_boot (value : σ → ℕ) (env : ε) : T.Shaped (boot value env) := by
  constructor
  · intro c hc
    have hc : c = .code (.threadTest 0) ∨ c = .finish := by
      simpa [Threads.boot, Kernel.tasks, Frame.task, Call.task] using hc
    exact hc.elim (fun h => .inr (.inl ⟨0, h⟩)) .inl
  · intro i c hc
    simp [Threads.boot, Kernel.tasks] at hc

@[simp]
theorem remaining_boot (value : σ → ℕ) (env : ε) (i : Fin P) :
    T.remaining (boot value env) i = [.run T.start] := by
  simp [remaining, Threads.boot]

/-- The participants other than `i` have the same to do. -/
private theorem remaining_eq_update {i : Fin P} {calls : List (Call (Participant P) σ (TaskCode κ))}
    (hi : .forked i ∈ k.history.forked) (htasks : k'.tasks = update k.tasks (.forked i) calls)
    (hforked : k'.history.forked = k.history.forked) :
    T.remaining k' = update (T.remaining k) i (calls.filterMap Call.op) := by
  funext j
  by_cases hj : j = i
  · subst hj
    simp [remaining, hforked, hi, htasks]
  · simp [remaining, hforked, htasks, hj]

private theorem remaining_eq_of_main {calls : List (Call (Participant P) σ (TaskCode κ))}
    (htasks : k'.tasks = update k.tasks .main calls)
    (hforked : k'.history.forked = k.history.forked) : T.remaining k' = T.remaining k := by
  funext j
  simp [remaining, hforked, htasks]

private theorem remaining_of_tasks {i : Fin P} {c : Call (Participant P) σ (TaskCode κ)}
    {o : Op σ κ} {rest : List (Call (Participant P) σ (TaskCode κ))}
    (hi : .forked i ∈ k.history.forked) (htask : k.tasks (.forked i) = c :: rest)
    (ho : c.op = some o) : T.remaining k i = o :: rest.filterMap Call.op := by
  simp [remaining, hi, htask, ho]

namespace Shaped

/-- The next call of `main` in the loop of `ThreadTest`. -/
private theorem main_head (h : T.Shaped k) {c : Call (Participant P) σ (TaskCode κ)}
    {rest : List (Call (Participant P) σ (TaskCode κ))} (hc : k.tasks .main = c :: rest) :
    c = .finish ∨ (∃ n, c = .code (.threadTest n)) ∨ ∃ i, c = .fork (.forked i) (.body T.start) :=
  h.main c (by simp [hc])

private theorem forked_head (h : T.Shaped k) {i : Fin P}
    {c : Call (Participant P) σ (TaskCode κ)} {rest : List (Call (Participant P) σ (TaskCode κ))}
    (hc : k.tasks (.forked i) = c :: rest) : c = .finish ∨ ∃ o : Op σ κ, c = o.call :=
  h.forked i c (by simp [hc])

/-- Some thread has less to do. -/
private theorem of_tail (h : T.Shaped k) {t : Participant P}
    {c : Call (Participant P) σ (TaskCode κ)} {rest : List (Call (Participant P) σ (TaskCode κ))}
    (hc : k.tasks t = c :: rest) (htasks : k'.tasks = update k.tasks t rest) : T.Shaped k' := by
  have hsub : ∀ u, ∀ c ∈ k'.tasks u, c ∈ k.tasks u := by
    intro u c' hc'
    by_cases hu : u = t
    · subst hu
      rw [htasks, update_self] at hc'
      rw [hc]
      exact List.mem_cons_of_mem _ hc'
    · simpa [htasks, hu] using hc'
  exact ⟨fun c hc => h.main c (hsub _ c hc), fun i c hc => h.forked i c (hsub _ c hc)⟩

private theorem of_exec (h : T.Shaped k) {code : TaskCode κ} {env' : ε}
    {calls rest : List (Call (Participant P) σ (TaskCode κ))}
    (hexec : T.client.exec k.currentThread code input.code k.env = .ok (env', calls))
    (htask : k.tasks k.currentThread = .code code :: rest)
    (htasks : k'.tasks = update k.tasks k.currentThread (calls.filterMap Call.task ++ rest)) :
    T.Shaped k' := by
  cases ht : k.currentThread with
  | main =>
    rw [ht] at hexec htask htasks
    have hrest : ∀ c ∈ rest, c ∈ k.tasks .main := fun c hc => by simp [htask, hc]
    refine ⟨fun c hc => ?_, fun i c hc => h.forked i c (by simpa [htasks] using hc)⟩
    rw [htasks, update_self, List.mem_append] at hc
    rcases hc with hc | hc
    · cases code with
      | body code => simp [client] at hexec
      | threadTest n =>
        obtain ⟨-, rfl⟩ := Prod.mk.inj (Except.ok.inj hexec)
        split_ifs at hc
        · have hc : c = .fork (.forked ⟨n, ‹_›⟩) (.body T.start) ∨
              c = .code (.threadTest (n + 1)) := by simpa [Call.task] using hc
          rcases hc with rfl | rfl
          · exact .inr (.inr ⟨_, rfl⟩)
          · exact .inr (.inl ⟨_, rfl⟩)
        · simp at hc
    · exact h.main c (hrest c hc)
  | forked i =>
    rw [ht] at hexec htask htasks
    have hrest : ∀ c ∈ rest, c ∈ k.tasks (.forked i) := fun c hc => by simp [htask, hc]
    refine ⟨fun c hc => h.main c (by simpa [htasks] using hc), fun j c hc => ?_⟩
    by_cases hj : j = i
    · subst hj
      rw [htasks, update_self, List.mem_append] at hc
      rcases hc with hc | hc
      · cases code with
        | threadTest n => simp [client] at hexec
        | body code =>
          obtain ⟨r, -, hr⟩ := map_eq_ok.1 hexec
          obtain ⟨-, rfl⟩ := Prod.mk.inj hr
          obtain ⟨c', hc', htask'⟩ := List.mem_filterMap.1 hc
          obtain ⟨o, -, rfl⟩ := List.mem_map.1 hc'
          exact .inr ⟨o, eq_of_task_eq_some htask'⟩
      · exact h.forked j c (hrest c hc)
    · exact h.forked j c (by simpa [htasks, hj] using hc)

private theorem of_fork (h : T.Shaped k) {t : Participant P} {func : TaskCode κ}
    {rest : List (Call (Participant P) σ (TaskCode κ))}
    (htask : k.tasks k.currentThread = .fork t func :: rest)
    (htasks : k'.tasks = update (update k.tasks k.currentThread rest) t [.code func, .finish]) :
    (∃ j, k.currentThread = .main ∧ t = .forked j ∧ func = .body T.start) ∧ T.Shaped k' := by
  cases ht : k.currentThread with
  | forked i =>
    rw [ht] at htask
    obtain hc | ⟨o, ho⟩ := h.forked_head htask
    · cases hc
    · cases o <;> cases ho
  | main =>
    rw [ht] at htask htasks
    obtain hc | ⟨n, hc⟩ | ⟨j, hc⟩ := h.main_head htask
    · cases hc
    · cases hc
    · injection hc with hj hfunc
      subst hj hfunc
      refine ⟨⟨j, rfl, rfl, rfl⟩, fun c hc => h.main c ?_, fun i c hc => ?_⟩
      · have hc : c ∈ rest := by simpa [htasks] using hc
        simp [htask, hc]
      · by_cases hi : i = j
        · subst hi
          have hc : c = .code (.body T.start) ∨ c = .finish := by simpa [htasks] using hc
          exact hc.elim (fun hc => .inr ⟨.run T.start, hc⟩) .inl
        · exact h.forked i c (by simpa [htasks, hi] using hc)

/-- The threads keep to the calls of a task. -/
theorem step [DecidableEq σ] (h : T.Shaped k) (hw : k.step T.client input = .ok k') :
    T.Shaped k' := by
  cases k.progress_of_step hw with
  | exec code rest fs calls hstack hstack' hexec htask htasks hsem hforked hcur =>
    exact h.of_exec hexec htask htasks
  | fork t func rest fs hstack htask hnew htasks hsem henv hforked hcur =>
    exact (h.of_fork htask htasks).2
  | wait s rest fs hstack htask hvalue htasks hsem henv hforked hcur =>
    exact ⟨fun c hc => h.main c (htasks ▸ hc), fun i c hc => h.forked i c (htasks ▸ hc)⟩
  | take s rest fs hstack htask hvalue htasks hsem henv hforked hcur => exact h.of_tail htask htasks
  | wake s rest fs hstack htask htasks hsem henv hforked hcur => exact h.of_tail htask htasks
  | retire call rest fs hcall hstack htask htasks hsem henv hforked hcur =>
    exact h.of_tail htask htasks
  | internal htasks hsem henv hforked =>
    exact ⟨fun c hc => h.main c (htasks ▸ hc), fun i c hc => h.forked i c (htasks ▸ hc)⟩

end Shaped

/-- In a regular state a participant that has something to do in the kernel has been forked. -/
private theorem Regular.mem_forked {value : σ → ℕ} (h : T.Regular value k) {i : Fin P}
    (hi : k.tasks (.forked i) ≠ []) : .forked i ∈ k.history.forked := by
  by_contra hf
  exact hi (h.waiting.fresh (.forked i) (by simp) hf)

/-- `main` uses no semaphore. -/
private theorem Regular.exists_forked {value : σ → ℕ} (h : T.Regular value k)
    {c : Call (Participant P) σ (TaskCode κ)} {rest : List (Call (Participant P) σ (TaskCode κ))}
    (htask : k.tasks k.currentThread = c :: rest) {s : σ} (hc : c = .p s ∨ c = .v s) :
    ∃ i, k.currentThread = .forked i := by
  cases ht : k.currentThread with
  | forked i => exact ⟨i, rfl⟩
  | main =>
    rw [ht] at htask
    obtain rfl | ⟨n, rfl⟩ | ⟨j, rfl⟩ := h.shaped.main_head htask <;> simp at hc

/-- Code that `main` executes is the loop of `ThreadTest`. -/
private theorem exec_main {code : TaskCode κ} {env env' : ε} {input : ι}
    {calls : List (Call (Participant P) σ (TaskCode κ))}
    (h : T.client.exec .main code input env = .ok (env', calls)) : env' = env := by
  cases code with
  | threadTest n => exact (Prod.mk.inj (Except.ok.inj h)).1.symm
  | body code => simp [client] at h

/-- Code that a participant executes is code of its program. -/
private theorem exec_forked {code : TaskCode κ} {env env' : ε} {input : ι} {i : Fin P}
    {calls : List (Call (Participant P) σ (TaskCode κ))}
    (h : T.client.exec (.forked i) code input env = .ok (env', calls)) :
    ∃ k ops, code = .body k ∧ T.exec i k input env = .ok (env', ops) ∧ calls = ops.map Op.call := by
  cases code with
  | threadTest n => simp [client] at h
  | body k =>
    obtain ⟨⟨env'', ops⟩, hx, hr⟩ := map_eq_ok.1 h
    obtain ⟨rfl, rfl⟩ := Prod.mk.inj hr
    exact ⟨k, ops, rfl, hx, rfl⟩

/-- Every step of the kernel is a move of the participants. -/
theorem move_of_step [DecidableEq σ] {value : σ → ℕ} (h : T.Regular value k)
    (hw : k.step T.client input = .ok k') : T.Move k input k' := by
  have hforked : ∀ {i : Fin P} {c rest}, k.currentThread = .forked i →
      k.tasks k.currentThread = c :: rest → .forked i ∈ k.history.forked := by
    intro i c rest hcur htask
    exact h.mem_forked (by simp [← hcur, htask])
  cases k.progress_of_step hw with
  | exec code rest fs calls hstack hstack' hexec htask htasks hsem hf hcur =>
    cases ht : k.currentThread with
    | main =>
      rw [ht] at hexec htasks
      exact .silent (remaining_eq_of_main htasks hf) hsem (exec_main hexec)
    | forked i =>
      have hi := hforked ht htask
      rw [ht] at hexec htasks htask hstack
      obtain ⟨code, ops, rfl, hx, rfl⟩ := exec_forked hexec
      refine .exec i code (rest.filterMap Call.op) ops
        ⟨ht, ⟨fs, hstack⟩, hx, remaining_of_tasks hi htask rfl, ?_, hsem⟩
      rw [remaining_eq_update hi htasks hf, List.filterMap_append, filterMap_op_map_call]
  | fork t func rest fs hstack htask hnew htasks hsem henv hf hcur =>
    obtain ⟨⟨j, ht, rfl, rfl⟩, -⟩ := h.shaped.of_fork htask htasks
    refine .silent (funext fun i => ?_) hsem henv
    by_cases hi : i = j
    · subst hi
      have hnot : .forked i ∉ k.history.forked := by
        intro hmem
        have hset := h.sound.settled_of_calling hstack (.inl ⟨_, rfl⟩)
        exact (hset.forked_iff _).1 (.inr hmem) hnew
      simp [remaining, hf, hnot, htasks, Call.op]
    · simp [remaining, hf, htasks, hi, ht]
  | wait s rest fs hstack htask hvalue htasks hsem henv hf hcur =>
    obtain ⟨i, ht⟩ := h.exists_forked htask (.inl rfl)
    have hi := hforked ht htask
    rw [ht] at htask hsem
    refine .wait i s _ (remaining_of_tasks hi htask rfl) hvalue (funext fun j => ?_) hsem henv
      ⟨ht, ?_, hvalue⟩
    · simp [remaining, hf, htasks]
    · rw [ht] at hstack
      exact hstack.imp (fun h => by simp [h]) fun h => by simp [h]
  | take s rest fs hstack htask hvalue htasks hsem henv hf hcur =>
    obtain ⟨i, ht⟩ := h.exists_forked htask (.inl rfl)
    have hi := hforked ht htask
    rw [ht] at htask htasks
    exact .take i s _ (remaining_of_tasks hi htask rfl) hvalue (remaining_eq_update hi htasks hf)
      hsem henv
  | wake s rest fs hstack htask htasks hsem henv hf hcur =>
    obtain ⟨i, ht⟩ := h.exists_forked htask (.inr rfl)
    have hi := hforked ht htask
    rw [ht] at htask htasks
    exact .wake i s _ (remaining_of_tasks hi htask rfl) (remaining_eq_update hi htasks hf)
      hsem henv
  | retire call rest fs hcall hstack htask htasks hsem henv hf hcur =>
    refine .silent ?_ hsem henv
    cases ht : k.currentThread with
    | main =>
      rw [ht] at htasks
      exact remaining_eq_of_main htasks hf
    | forked i =>
      have hi := hforked ht htask
      rw [ht] at htask htasks
      have hop : call.op = none := by rcases hcall with rfl | rfl <;> rfl
      have hrem : T.remaining k i = rest.filterMap Call.op := by
        simp [remaining, hi, htask, hop]
      rw [remaining_eq_update hi htasks hf, ← hrem, update_eq_self]
  | internal htasks hsem henv hf =>
    refine .silent (funext fun j => ?_) hsem ?_
    · simp [remaining, hf, htasks]
    · exact henv.apply_eq (f := id) (fun _ => rfl) (fun _ _ => rfl) fun _ _ => rfl

/-- The next piece of code is executed. -/
theorem executes_of_isNext [DecidableEq σ] {value : σ → ℕ} (h : T.Regular value k)
    (hw : k.step T.client input = .ok k') {i : Fin P} {code : κ} (hi : IsNext k i code) :
    ∃ rest ops, T.Executes k input k' i code rest ops := by
  obtain ⟨fs, hfs⟩ := List.head?_eq_some_iff.1 hi.2
  have hcur : k.stack k.currentThread = .call (.code (.body code)) :: fs := hi.1 ▸ hfs
  obtain ⟨calls, hexec, hk'⟩ := Kernel.exec_of_step hcur hw
  rw [hi.1] at hexec
  obtain ⟨_, ops, hcode, hx, rfl⟩ := exec_forked hexec
  cases hcode
  have hstack : k'.stack = update k.stack (.forked i) ((ops.map Op.call).map .call ++ fs) := by
    rw [← hk', ← hi.1]
  have hhistory : k'.history = k.history := by rw [← hk']
  have hsem : k'.semaphore = k.semaphore := by rw [← hk']
  have htasks : k'.tasks = update k.tasks (.forked i)
      (((ops.map Op.call).map Frame.call ++ fs).filterMap Frame.task) := by
    rw [← Kernel.tasks_update_stack, ← hstack]
    rfl
  have htask : k.tasks (.forked i) = .code (.body code) :: fs.filterMap Frame.task := by
    simp [Kernel.tasks_of_cons hfs, Frame.task, Call.task]
  have hforked := h.mem_forked (i := i) (by simp [htask])
  refine ⟨_, ops, hi.1, ⟨fs, hfs⟩, hx, remaining_of_tasks hforked htask rfl, ?_, hsem⟩
  rw [remaining_eq_update hforked htasks (by rw [hhistory]), List.filterMap_append,
    filterMap_task_map_call, List.filterMap_append, filterMap_op_map_call]

/-- A property of what each participant has still to execute and of the shared variables is kept
if it is kept when an operation of the kernel is completed, when code is executed, and when
another participant executes code. -/
theorem Move.forall_remaining [DecidableEq σ] (h : T.Move k input k')
    {Q : Fin P → ε → List (Op σ κ) → Prop} (hQ : ∀ i, Q i k.env (T.remaining k i))
    (htail : ∀ i o rest, Q i k.env (o :: rest) → (∀ code, o ≠ .run code) → Q i k.env rest)
    (hexec : ∀ i code rest ops, T.Executes k input k' i code rest ops →
      Q i k.env (.run code :: rest) → Q i k'.env (ops.filter Op.isWork ++ rest))
    (hframe : ∀ i code rest ops, T.Executes k input k' i code rest ops → ∀ j ≠ i,
      Q j k.env (T.remaining k j) → Q j k'.env (T.remaining k j)) :
    ∀ i, Q i k'.env (T.remaining k' i) := by
  intro j
  have hj := hQ j
  cases h with
  | exec i code rest ops hx =>
    rw [hx.remaining']
    by_cases hji : j = i
    · subst hji
      rw [update_self]
      exact hexec j code rest ops hx (hx.remaining ▸ hj)
    · rw [update_of_ne hji]
      exact hframe i code rest ops hx j hji hj
  | wait i s rest hrem hvalue hrem' hsem henv => exact henv ▸ hrem' ▸ hj
  | take i s rest hrem hvalue hrem' hsem henv =>
    rw [henv, hrem']
    by_cases hji : j = i
    · subst hji
      rw [update_self]
      exact htail j _ rest (hrem ▸ hj) (by simp)
    · rwa [update_of_ne hji]
  | wake i s rest hrem hrem' hsem henv =>
    rw [henv, hrem']
    by_cases hji : j = i
    · subst hji
      rw [update_self]
      exact htail j _ rest (hrem ▸ hj) (by simp)
    · rwa [update_of_ne hji]
  | silent hrem' hsem henv => exact henv ▸ hrem' ▸ hj

/-! ### Runs -/

variable [DecidableEq σ] {value : σ → ℕ} {env : ε}

omit [DecidableEq σ] in
theorem regular_boot (T : Program P σ κ ε ι) (value : σ → ℕ) (env : ε) :
    T.Regular value (boot value env) :=
  ⟨Kernel.sound_boot _ _ value env, fun s => Counted.initial (value s), .boot _ _ value env,
    shaped_boot value env⟩

theorem Regular.step (h : T.Regular value k) (hw : k.step T.client input = .ok k') :
    T.Regular value k' :=
  ⟨h.sound.step hw, h.counted.step h.sound hw, h.waiting.step h.sound hw, h.shaped.step hw⟩

/-- What holds initially and is preserved by every move that meets the condition holds in every
state that such moves reach. -/
theorem Reachable.invariant
    {C : Kernel (Participant P) σ (TaskCode κ) ε → Input Empty ι → Prop}
    (I : Kernel (Participant P) σ (TaskCode κ) ε → Prop)
    (h : (T.system value env).Reachable C k) (h₀ : I (boot value env))
    (hstep : ∀ k input k', T.Regular value k → I k → C k input → T.Move k input k' → I k') :
    T.Regular value k ∧ I k := by
  refine StepSystem.Reachable.invariant (fun k => T.Regular value k ∧ I k) h ?_ ?_
  · rintro _ rfl
    exact ⟨regular_boot T value env, h₀⟩
  · rintro k input k' ⟨hreg, hI⟩ hC hw
    exact ⟨hreg.step hw, hstep k input k' hreg hI hC (move_of_step hreg hw)⟩

/-! ### Participants that sleep -/

/-- The participant `i` sleeps in `P`. -/
def Asleep (k : Kernel (Participant P) σ (TaskCode κ) ε) (i : Fin P) : Prop :=
  ∃ s, .forked i ∈ (k.semaphore s).queue

omit [DecidableEq σ] in
theorem Regular.remaining_of_mem_queue (h : T.Regular value k) {i : Fin P} {s : σ}
    (hi : .forked i ∈ (k.semaphore s).queue) : ∃ rest, T.remaining k i = .p s :: rest := by
  obtain ⟨rest, htask⟩ := h.waiting.atP hi
  exact ⟨_, remaining_of_tasks (h.mem_forked (by simp [htask])) htask rfl⟩

omit [DecidableEq σ] in
theorem Regular.remaining_of_isNext (h : T.Regular value k) {i : Fin P} {code : κ}
    (hi : IsNext k i code) : ∃ rest, T.remaining k i = .run code :: rest := by
  obtain ⟨fs, hfs⟩ := List.head?_eq_some_iff.1 hi.2
  have htask : k.tasks (.forked i) = .code (.body code) :: fs.filterMap Frame.task := by
    simp [Kernel.tasks_of_cons hfs, Frame.task, Call.task]
  exact ⟨_, remaining_of_tasks (h.mem_forked (by simp [htask])) htask rfl⟩

omit [DecidableEq σ] in
/-- If every participant that has not returned sleeps, then a semaphore in which one of them
sleeps has no unit. -/
theorem Regular.value_eq_zero (h : T.Regular value k)
    (hall : ∀ i, T.remaining k i ≠ [] → Asleep k i) {i : Fin P} {s : σ}
    (hi : .forked i ∈ (k.semaphore s).queue) : (k.semaphore s).value = 0 := by
  refine h.waiting.value_eq_zero (List.ne_nil_of_mem hi) (h.counted s).nonneg fun t ht => ?_
  obtain ⟨rest, htask⟩ := ht
  cases t with
  | main => obtain hc | ⟨n, hc⟩ | ⟨j, hc⟩ := h.shaped.main_head htask <;> cases hc
  | forked j =>
    have hrem := remaining_of_tasks (T := T) (h.mem_forked (by simp [htask])) htask rfl
    obtain ⟨s', hs'⟩ := hall j (by simp [hrem])
    have hs : s = s' := Kernel.AtP.unique ⟨rest, htask⟩ (h.waiting.atP hs')
    exact hs ▸ hs'

end Program

end Nachos.Threads
