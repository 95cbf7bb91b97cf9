import Mathlib.Logic.Relation
import Nachos.Foundations.Except
import Nachos.Threads.Placement

/-!
# What threads still have to do for their client

The code of a client sees little of the kernel: it makes calls one after the other, and other
threads run in between. This file forgets what the kernel does to switch threads and keeps, for
every thread, the calls that it has still to complete (`Kernel.tasks`). For clients without
devices, `Kernel.Progress` lists what one step does to these calls, to the semaphores and to the
environment of the client.

## Main definitions

* `Kernel.tasks`: the calls that a thread has still to complete.
* `Client.Adjusts`: what the kernel itself does to the environment.
* `Kernel.Progress`: what a step does.
* `Kernel.Advances`: what a step does to the stacks.
* `Kernel.Reclaim`: what a step does to threads that finish and to those that are deleted.

## Main results

* `Kernel.progress_of_step`, `Kernel.advances_of_step`, `Kernel.reclaim_of_step`: every step is of
  one of these kinds.
* `Kernel.finished_of_step`: which step makes a thread finish.
-/

namespace Nachos.Threads

open Function Foundations

variable {τ σ κ δ ε ι : Type}

/-! ### Tasks -/

/-- A call that is a task. Where a thread yields or an interrupt can be taken is left out. -/
def Call.task : Call τ σ κ → Option (Call τ σ κ)
  | .yield => none
  | .oneTick => none
  | c => some c

/-- The call that a frame has to complete, if it is a task. -/
def Frame.task : Frame τ σ κ → Option (Call τ σ κ)
  | .call c => c.task
  | .retest s => some (.p s)
  | _ => none

theorem filterMap_task_map_call (cs : List (Call τ σ κ)) :
    (cs.map Frame.call).filterMap Frame.task = cs.filterMap Call.task := by
  rw [List.filterMap_map]
  rfl

/-- What the kernel does to the environment when threads are switched or interrupts are taken. -/
def Client.Adjusts (c : Client τ σ κ δ ε ι) : ε → ε → Prop :=
  Relation.ReflTransGen fun e e' =>
    e' = c.delayedLoad e ∨ ∃ t, e' = c.saveState t e ∨ e' = c.restoreState t e

/-- What the kernel does to the environment does not change what is independent of it. -/
theorem Client.Adjusts.apply_eq {c : Client τ σ κ δ ε ι} {α : Type*} {f : ε → α} {e e' : ε}
    (h : c.Adjusts e e') (hload : ∀ e, f (c.delayedLoad e) = f e)
    (hsave : ∀ t e, f (c.saveState t e) = f e) (hrestore : ∀ t e, f (c.restoreState t e) = f e) :
    f e' = f e := by
  induction h with
  | refl => rfl
  | tail _ hstep ih =>
    obtain rfl | ⟨t, rfl | rfl⟩ := hstep
    · rw [hload, ih]
    · rw [hsave, ih]
    · rw [hrestore, ih]

namespace Kernel

variable {k k' : Kernel τ σ κ ε}

/-- The calls that a thread has still to complete, the next one first. -/
def tasks (k : Kernel τ σ κ ε) (t : τ) : List (Call τ σ κ) := (k.stack t).filterMap Frame.task

theorem tasks_of_cons {t : τ} {f : Frame τ σ κ} {rest : List (Frame τ σ κ)}
    (h : k.stack t = f :: rest) :
    k.tasks t = f.task.toList ++ rest.filterMap Frame.task := by
  unfold tasks
  rw [h, List.filterMap_cons]
  cases f.task <;> rfl

variable [DecidableEq τ]

theorem tasks_update_stack (t : τ) (fs : List (Frame τ σ κ)) :
    (fun u => (update k.stack t fs u).filterMap Frame.task) =
      update k.tasks t (fs.filterMap Frame.task) := by
  funext u
  by_cases hu : u = t
  · subst hu
    simp
  · simp [hu, tasks]

/-! ### What a step does -/

variable [DecidableEq σ]

/-- What a step does to the tasks of the threads, to the semaphores and to the environment. -/
inductive Progress (c : Client τ σ κ δ ε ι) (k : Kernel τ σ κ ε) (i : Input δ ι)
    (k' : Kernel τ σ κ ε) : Prop
  /-- Client code is executed. -/
  | exec (code : κ) (rest : List (Call τ σ κ)) (fs : List (Frame τ σ κ)) (calls : List (Call τ σ κ))
    (hstack : k.stack k.currentThread = .call (.code code) :: fs)
    (hstack' : k'.stack k.currentThread = calls.map .call ++ fs)
    (hexec : c.exec k.currentThread code i.code k.env = .ok (k'.env, calls))
    (htask : k.tasks k.currentThread = .code code :: rest)
    (htasks : k'.tasks = update k.tasks k.currentThread (calls.filterMap Call.task ++ rest))
    (hsem : k'.semaphore = k.semaphore) (hforked : k'.history.forked = k.history.forked)
    (hcur : k'.currentThread = k.currentThread)
  /-- A thread is forked. -/
  | fork (t : τ) (func : κ) (rest : List (Call τ σ κ)) (fs : List (Frame τ σ κ))
    (hstack : k.stack k.currentThread = .call (.fork t func) :: fs)
    (htask : k.tasks k.currentThread = .fork t func :: rest) (hnew : k.status t = .justCreated)
    (htasks : k'.tasks = update (update k.tasks k.currentThread rest) t [.code func, .finish])
    (hsem : k'.semaphore = k.semaphore) (henv : k'.env = k.env)
    (hforked : k'.history.forked = k.history.forked ++ [t])
    (hcur : k'.currentThread = k.currentThread)
  /-- `P` finds the value 0. -/
  | wait (s : σ) (rest : List (Call τ σ κ)) (fs : List (Frame τ σ κ))
    (hstack : k.stack k.currentThread = .call (.p s) :: fs ∨
      k.stack k.currentThread = .retest s :: fs)
    (htask : k.tasks k.currentThread = .p s :: rest)
    (hvalue : (k.semaphore s).value = 0) (htasks : k'.tasks = k.tasks)
    (hsem : k'.semaphore = update k.semaphore s
      { k.semaphore s with queue := (k.semaphore s).queue ++ [k.currentThread] })
    (henv : k'.env = k.env) (hforked : k'.history.forked = k.history.forked)
    (hcur : k'.currentThread = k.currentThread)
  /-- `P` completes. -/
  | take (s : σ) (rest : List (Call τ σ κ)) (fs : List (Frame τ σ κ))
    (hstack : k.stack k.currentThread = .call (.p s) :: fs ∨
      k.stack k.currentThread = .retest s :: fs)
    (htask : k.tasks k.currentThread = .p s :: rest) (hvalue : (k.semaphore s).value ≠ 0)
    (htasks : k'.tasks = update k.tasks k.currentThread rest)
    (hsem : k'.semaphore = update k.semaphore s
      { k.semaphore s with value := (k.semaphore s).value - 1 })
    (henv : k'.env = k.env) (hforked : k'.history.forked = k.history.forked)
    (hcur : k'.currentThread = k.currentThread)
  /-- `V` takes the first waiting thread off the queue. -/
  | wake (s : σ) (rest : List (Call τ σ κ)) (fs : List (Frame τ σ κ))
    (hstack : k.stack k.currentThread = .call (.v s) :: fs)
    (htask : k.tasks k.currentThread = .v s :: rest)
    (htasks : k'.tasks = update k.tasks k.currentThread rest)
    (hsem : k'.semaphore = update k.semaphore s
      ⟨(k.semaphore s).value + 1, (k.semaphore s).queue.tail⟩)
    (henv : k'.env = k.env) (hforked : k'.history.forked = k.history.forked)
    (hcur : k'.currentThread = k.currentThread)
  /-- A thread goes to sleep for good. -/
  | retire (call : Call τ σ κ) (rest : List (Call τ σ κ)) (fs : List (Frame τ σ κ))
    (hcall : call = .finish ∨ call = .sleep)
    (hstack : k.stack k.currentThread = .call call :: fs)
    (htask : k.tasks k.currentThread = call :: rest)
    (htasks : k'.tasks = update k.tasks k.currentThread rest)
    (hsem : k'.semaphore = k.semaphore) (henv : k'.env = k.env)
    (hforked : k'.history.forked = k.history.forked)
    (hcur : k'.currentThread = k.currentThread)
  /-- Threads are switched or interrupts are taken. -/
  | internal (htasks : k'.tasks = k.tasks) (hsem : k'.semaphore = k.semaphore)
    (henv : c.Adjusts k.env k'.env) (hforked : k'.history.forked = k.history.forked)

/-- The test of the value in `P`. -/
theorem pLoop_cases {s : σ} (hw : k.pLoop s = .ok k') :
    k'.env = k.env ∧ k'.currentThread = k.currentThread ∧
      k'.history.forked = k.history.forked ∧ ((k.semaphore s).value = 0 ∧
          k'.stack = update k.stack k.currentThread
            (.sleepLoop :: .retest s :: k.stack k.currentThread) ∧
          k'.semaphore = update k.semaphore s
            { k.semaphore s with queue := (k.semaphore s).queue ++ [k.currentThread] } ∨
        (k.semaphore s).value ≠ 0 ∧ k'.stack = k.stack ∧
          k'.semaphore = update k.semaphore s
            { k.semaphore s with value := (k.semaphore s).value - 1 }) := by
  unfold pLoop at hw
  split_ifs at hw with hv
  · obtain ⟨-, rfl⟩ := sleep_eq_ok hw
    refine ⟨rfl, rfl, rfl, .inl ⟨hv, ?_, rfl⟩⟩
    simp
  · obtain rfl := Except.ok.inj hw
    exact ⟨rfl, rfl, rfl, .inr ⟨hv, rfl, rfl⟩⟩

theorem wake_semaphore (k : Kernel τ σ κ ε) (s : σ) :
    (k.wake s).semaphore = update k.semaphore s
      ⟨(k.semaphore s).value + 1, (k.semaphore s).queue.tail⟩ := by
  unfold wake
  cases hq : (k.semaphore s).queue <;> simp [hq]

@[simp]
theorem wake_env (k : Kernel τ σ κ ε) (s : σ) : (k.wake s).env = k.env := by
  unfold wake
  split <;> rfl

@[simp]
theorem wake_forked (k : Kernel τ σ κ ε) (s : σ) :
    (k.wake s).history.forked = k.history.forked := by
  unfold wake
  split <;> rfl

/-- Without devices, handlers only finish delayed loads. -/
private theorem runHandlers_cases [IsEmpty δ] (c : Client τ σ κ δ ε ι) (is : List (Interrupt δ))
    (k : Kernel τ σ κ ε) : (runHandlers c is k).semaphore = k.semaphore ∧
      c.Adjusts k.env (runHandlers c is k).env ∧
      (runHandlers c is k).history.forked = k.history.forked := by
  induction is generalizing k with
  | nil => exact ⟨rfl, .refl, rfl⟩
  | cons i is ih =>
    cases i with
    | timer =>
      obtain ⟨hsem, henv, hforked⟩ := ih { k with env := c.delayedLoad k.env }
      exact ⟨hsem, .head (.inl rfl) henv, hforked⟩
    | device d => exact isEmptyElim d

omit [DecidableEq σ] in
private theorem tasks_eq_update {t : τ} (fs : List (Frame τ σ κ))
    (h : k'.stack = update k.stack t fs) :
    k'.tasks = update k.tasks t (fs.filterMap Frame.task) := by
  rw [← tasks_update_stack]
  unfold tasks
  rw [h]

omit [DecidableEq σ] in
/-- The tasks of the current thread after a frame that is no task. -/
private theorem tasks_eq_of_noTask {f : Frame τ σ κ} {rest : List (Frame τ σ κ)}
    (fs : List (Frame τ σ κ)) (hst : k.stack k.currentThread = f :: rest) (hf : f.task = none)
    (h : k'.stack = update k.stack k.currentThread fs)
    (hfs : fs.filterMap Frame.task = rest.filterMap Frame.task) : k'.tasks = k.tasks := by
  rw [tasks_eq_update fs h, hfs]
  have htask : k.tasks k.currentThread = rest.filterMap Frame.task := by
    simp [tasks_of_cons hst, hf]
  rw [← htask, update_eq_self]

variable {c : Client τ σ κ δ ε ι} {i : Input δ ι} {rest : List (Frame τ σ κ)}

omit [DecidableEq τ] [DecidableEq σ] in
private theorem tasks_of_call {call : Call τ σ κ}
    (hst : k.stack k.currentThread = .call call :: rest) (hcall : call.task = some call) :
    k.tasks k.currentThread = call :: rest.filterMap Frame.task := by
  simp [tasks_of_cons hst, Frame.task, hcall]

/-- `P`, or a test after a wakeup, when `fs` are the frames after the test. -/
private theorem progress_of_pLoop (k₁ : Kernel τ σ κ ε) {s : σ} {f : Frame τ σ κ}
    {fs : List (Frame τ σ κ)} (hst : k.stack k.currentThread = f :: rest)
    (hf : f = .call (.p s) ∨ f = .retest s) (hcur : k₁.currentThread = k.currentThread)
    (hstack : k₁.stack = update k.stack k.currentThread fs)
    (hfs : fs.filterMap Frame.task = rest.filterMap Frame.task)
    (hsem : k₁.semaphore = k.semaphore) (henv : k₁.env = k.env)
    (hforked : k₁.history.forked = k.history.forked) (hw : k₁.pLoop s = .ok k') :
    k.Progress c i k' := by
  have htask : k.tasks k.currentThread = .p s :: rest.filterMap Frame.task := by
    rw [tasks_of_cons hst]
    rcases hf with rfl | rfl <;> rfl
  have hst' : k.stack k.currentThread = .call (.p s) :: rest ∨
      k.stack k.currentThread = .retest s :: rest := by
    rw [hst]
    exact hf.imp (fun h => by rw [h]) fun h => by rw [h]
  obtain ⟨henv', hcur', hforked', ⟨hv, hstack', hsem'⟩ | ⟨hv, hstack', hsem'⟩⟩ := pLoop_cases hw
  · rw [hsem] at hv hsem'
    rw [hstack, hcur, update_self, update_idem] at hstack'
    refine .wait s _ rest hst' htask hv ?_ (hcur ▸ hsem') (henv'.trans henv)
      (hforked'.trans hforked) (hcur'.trans hcur)
    have hfs' : (Frame.sleepLoop :: .retest s :: fs).filterMap Frame.task =
        k.tasks k.currentThread := by
      rw [htask, ← hfs]
      rfl
    rw [tasks_eq_update _ hstack', hfs', update_eq_self]
  · rw [hsem] at hv hsem'
    rw [hstack] at hstack'
    refine .take s _ rest hst' htask hv ?_ hsem' (henv'.trans henv) (hforked'.trans hforked)
      (hcur'.trans hcur)
    rw [tasks_eq_update _ hstack', hfs]

private theorem progress_of_call [IsEmpty δ] {call : Call τ σ κ}
    (hst : k.stack k.currentThread = .call call :: rest)
    (hw : (k.setStack rest).performCall c i call = .ok k') : k.Progress c i k' := by
  cases call with
  | p s =>
    let k₁ : Kernel τ σ κ ε := { k.setStack rest with level := .off }.push [.setLevel k.level]
    have hstack : k₁.stack = update k.stack k.currentThread (.setLevel k.level :: rest) := by
      simp [k₁]
    exact progress_of_pLoop (f := .call (.p s)) k₁ hst (.inl rfl) rfl hstack rfl
      rfl rfl rfl hw
  | v s =>
    obtain rfl := Except.ok.inj hw
    have hstack : (((k.setStack rest).countUp s).v s).stack =
        update k.stack k.currentThread (.setLevel k.level :: rest) := by
      simp [v]
    exact .wake s _ rest hst (tasks_of_call hst rfl) ((tasks_eq_update _ hstack).trans rfl)
      (wake_semaphore _ s) (wake_env _ s) (wake_forked _ s) (wake_currentThread _ s)
  | fork t func =>
    simp only [performCall, fork] at hw
    split_ifs at hw with hnew
    let k₁ : Kernel τ σ κ ε := { k.setStack rest with level := .off }.push [.setLevel k.level]
    have hstack : k₁.stack = update k.stack k.currentThread (.setLevel k.level :: rest) := by
      simp [k₁]
    have htasks : k₁.tasks = update k.tasks k.currentThread (rest.filterMap Frame.task) :=
      (tasks_eq_update _ hstack).trans rfl
    obtain rfl := Except.ok.inj hw
    refine .fork t func _ rest hst (tasks_of_call hst rfl) hnew ?_ rfl rfl rfl rfl
    rw [← htasks]
    exact (tasks_eq_update (k := k₁) _ rfl).trans rfl
  | yield =>
    obtain rfl := Except.ok.inj hw
    simp only [yield]
    split
    · refine .internal (tasks_eq_of_noTask (.setLevel k.level :: rest) hst rfl ?_ rfl) rfl .refl
        rfl
      simp
    · rename_i next _ _
      refine .internal (tasks_eq_of_noTask (.run next :: .setLevel k.level :: rest) hst rfl ?_
        rfl) rfl .refl rfl
      simp
  | sleep =>
    unfold performCall sleepDirectly at hw
    obtain ⟨-, rfl⟩ := sleep_eq_ok hw
    refine .retire .sleep _ rest (.inr rfl) hst (tasks_of_call hst rfl) ?_ rfl rfl rfl rfl
    refine tasks_eq_update (.sleepLoop :: .setLevel k.level :: rest) ?_
    simp
  | finish =>
    unfold performCall finish at hw
    obtain ⟨-, rfl⟩ := sleep_eq_ok hw
    refine .retire .finish _ rest (.inl rfl) hst (tasks_of_call hst rfl) ?_ rfl rfl rfl rfl
    refine tasks_eq_update (.sleepLoop :: rest) ?_
    simp
  | oneTick =>
    obtain rfl := Except.ok.inj hw
    obtain ⟨hsem, henv, hforked⟩ :=
      runHandlers_cases c i.interrupts { k.setStack rest with level := .off }
    simp only [oneTick]
    split_ifs
    · refine .internal (tasks_eq_of_noTask (.call .yield :: rest) hst rfl ?_ rfl) hsem henv
        hforked
      simp
    · refine .internal (tasks_eq_of_noTask rest hst rfl ?_ rfl) hsem henv hforked
      simp
  | code code =>
    simp only [performCall, exec] at hw
    obtain ⟨r, hx, rfl⟩ := map_eq_ok.1 hw
    refine .exec code _ rest r.2 hst ?_ hx (tasks_of_call hst rfl) ?_ rfl rfl rfl
    · simp
    · rw [← filterMap_task_map_call, ← List.filterMap_append]
      refine tasks_eq_update _ ?_
      simp

private theorem progress_of_sleepLoop [IsEmpty δ] {is : List (Interrupt δ)}
    (hst : k.stack k.currentThread = .sleepLoop :: rest)
    (hw : (k.setStack rest).sleepLoop c is = .ok k') : k.Progress c i k' := by
  unfold sleepLoop idle at hw
  split at hw
  · split_ifs at hw
    · cases hw
    · obtain rfl := Except.ok.inj hw
      obtain ⟨hsem, henv, hforked⟩ := runHandlers_cases c is (k.setStack rest)
      refine .internal (tasks_eq_of_noTask (.sleepLoop :: rest) hst rfl ?_ rfl) hsem henv hforked
      simp
  · rename_i next _ _
    obtain rfl := Except.ok.inj hw
    refine .internal (tasks_eq_of_noTask (.run next :: rest) hst rfl ?_ rfl) rfl .refl rfl
    simp

/-- Every step is of one of these kinds. -/
theorem progress_of_step [IsEmpty δ] (hw : k.step c i = .ok k') : k.Progress c i k' := by
  unfold Kernel.step at hw
  split at hw
  · cases hw
  rename_i f rest hst
  cases f with
  | call call => exact progress_of_call hst hw
  | retest s =>
    exact progress_of_pLoop (f := .retest s) (k.setStack rest) hst (.inr rfl) rfl rfl
      rfl rfl rfl rfl hw
  | sleepLoop => exact progress_of_sleepLoop hst hw
  | setLevel now =>
    obtain rfl := Except.ok.inj hw
    simp only [setLevel]
    split_ifs
    · refine .internal (tasks_eq_of_noTask (.call .oneTick :: rest) hst rfl ?_ rfl) rfl .refl rfl
      simp
    · exact .internal (tasks_eq_of_noTask rest hst rfl rfl rfl) rfl .refl rfl
  | run next =>
    obtain rfl := Except.ok.inj hw
    refine .internal (tasks_eq_of_noTask (.afterSwitch :: rest) hst rfl ?_ rfl) rfl
      (.single (.inr ⟨k.currentThread, .inl rfl⟩)) rfl
    simp
  | afterSwitch =>
    have hk' : k'.stack = (k.setStack rest).stack ∧ k'.semaphore = k.semaphore ∧
        k'.env = c.restoreState k.currentThread k.env ∧
        k'.history.forked = k.history.forked := by
      simp only [perform, afterSwitch] at hw
      split at hw
      · obtain rfl := Except.ok.inj hw
        exact ⟨rfl, rfl, rfl, rfl⟩
      · split_ifs at hw
        obtain rfl := Except.ok.inj hw
        exact ⟨rfl, rfl, rfl, rfl⟩
    obtain ⟨hstack, hsem, henv, hforked⟩ := hk'
    exact .internal (tasks_eq_of_noTask rest hst rfl hstack rfl) hsem
      (.single (.inr ⟨k.currentThread, .inr henv⟩)) hforked

/-- A step of the code of the client. -/
theorem exec_of_step {code : κ}
    (hst : k.stack k.currentThread = .call (.code code) :: rest) (hw : k.step c i = .ok k') :
    ∃ calls, c.exec k.currentThread code i.code k.env = .ok (k'.env, calls) ∧
      { k with
        env := k'.env
        stack := update k.stack k.currentThread (calls.map .call ++ rest) } = k' := by
  unfold Kernel.step at hw
  rw [hst] at hw
  obtain ⟨⟨env, calls⟩, hx, rfl⟩ := map_eq_ok.1 hw
  refine ⟨calls, hx, ?_⟩
  simp [push, setStack]

/-- Only a new thread is forked. -/
theorem justCreated_of_fork {t : τ} {func : κ}
    (hst : k.stack k.currentThread = .call (.fork t func) :: rest) (hw : k.step c i = .ok k') :
    k.status t = .justCreated := by
  unfold Kernel.step at hw
  simp only [hst, perform, performCall, fork] at hw
  split_ifs at hw with hnew
  exact hnew

theorem forked_of_fork {t : τ} {func : κ}
    (hst : k.stack k.currentThread = .call (.fork t func) :: rest) (hw : k.step c i = .ok k') :
    k'.history.forked = k.history.forked ++ [t] := by
  unfold Kernel.step at hw
  simp only [hst, perform, performCall, fork] at hw
  split_ifs at hw
  obtain rfl := Except.ok.inj hw
  rfl

/-- Threads that have been forked remain so. -/
theorem forked_subset_of_step [IsEmpty δ] (hw : k.step c i = .ok k') :
    k.history.forked ⊆ k'.history.forked := by
  cases progress_of_step hw with
  | fork _ _ _ _ _ _ _ _ _ _ hforked => exact hforked ▸ List.subset_append_left _ _
  | exec _ _ _ _ _ _ _ _ _ _ hforked | wait _ _ _ _ _ _ _ _ _ hforked
  | take _ _ _ _ _ _ _ _ _ hforked | wake _ _ _ _ _ _ _ _ hforked
  | retire _ _ _ _ _ _ _ _ _ hforked | internal _ _ _ hforked => exact hforked ▸ List.Subset.refl _

/-! ### Stacks -/

/-- What a step does to the stacks: the current thread has new frames `fs` to execute in place of
`f`, and a thread that is forked begins in `ThreadRoot`. -/
structure Advances (k k' : Kernel τ σ κ ε) (f : Frame τ σ κ) (fs : List (Frame τ σ κ)) : Prop where
  current : ∃ rest, k.stack k.currentThread = f :: rest ∧ k'.stack k.currentThread = fs ++ rest
  other : ∀ t ≠ k.currentThread, k'.stack t = k.stack t ∨ ∃ func, f = .call (.fork t func) ∧
    k'.stack t = [.setLevel .on, .call (.code func), .call .finish]
  /-- A thread that will test the value again waits in the queue. -/
  retest : ∀ s, .retest s ∈ fs → k.currentThread ∈ (k'.semaphore s).queue
  code : ∀ code, .call (.code code) ∈ fs → ∃ code', f = .call (.code code')

omit [DecidableEq σ] in
private theorem Advances.of_update {f : Frame τ σ κ} {fs : List (Frame τ σ κ)}
    (hst : k.stack k.currentThread = f :: rest)
    (hstack : k'.stack = update k.stack k.currentThread (fs ++ rest))
    (hretest : ∀ s, .retest s ∈ fs → k.currentThread ∈ (k'.semaphore s).queue)
    (hcode : ∀ code, .call (.code code) ∈ fs → ∃ code', f = .call (.code code')) :
    Advances k k' f fs :=
  ⟨⟨rest, hst, by rw [hstack, update_self]⟩, fun t ht => .inl (by rw [hstack, update_of_ne ht]),
    hretest, hcode⟩

/-- `P`, or a test after a wakeup, when `fs` are the frames after the test. -/
private theorem advances_of_pLoop (k₁ : Kernel τ σ κ ε) {s : σ} {f : Frame τ σ κ}
    {fs : List (Frame τ σ κ)} (hst : k.stack k.currentThread = f :: rest)
    (hcur : k₁.currentThread = k.currentThread)
    (hstack : k₁.stack = update k.stack k.currentThread (fs ++ rest))
    (hfs : ∀ g ∈ fs, ∃ level, g = .setLevel level) (hw : k₁.pLoop s = .ok k') :
    ∃ fs', Advances k k' f fs' := by
  have hcall (call : Call τ σ κ) : .call call ∉ fs := fun h => by
    obtain ⟨level, hl⟩ := hfs _ h
    cases hl
  have hretest (s' : σ) : .retest s' ∉ fs := fun h => by
    obtain ⟨level, hl⟩ := hfs _ h
    cases hl
  obtain ⟨-, -, -, ⟨-, hstack', hsem⟩ | ⟨-, hstack', -⟩⟩ := pLoop_cases hw
  · rw [hstack, hcur, update_self, update_idem] at hstack'
    refine ⟨.sleepLoop :: .retest s :: fs, .of_update hst hstack' (fun s' hs' => ?_)
      (by simp [hcall])⟩
    obtain rfl : s' = s := by simpa [hretest] using hs'
    rw [hsem, update_self, hcur]
    simp
  · exact ⟨fs, .of_update hst (hstack'.trans hstack) (fun s' h => absurd h (hretest s'))
      fun code h => absurd h (hcall _)⟩

private theorem advances_of_call {call : Call τ σ κ}
    (hst : k.stack k.currentThread = .call call :: rest)
    (hnew : k.status k.currentThread ≠ .justCreated)
    (hw : (k.setStack rest).performCall c i call = .ok k') :
    ∃ fs, Advances k k' (.call call) fs := by
  cases call with
  | p s =>
    let k₁ : Kernel τ σ κ ε := { k.setStack rest with level := .off }.push [.setLevel k.level]
    have hstack : k₁.stack = update k.stack k.currentThread ([.setLevel k.level] ++ rest) := by
      simp [k₁]
    exact advances_of_pLoop k₁ hst rfl hstack (by simp) hw
  | v s =>
    obtain rfl := Except.ok.inj hw
    refine ⟨[.setLevel k.level], .of_update hst ?_ (by simp) (by simp)⟩
    simp [v]
  | fork t func =>
    simp only [performCall, fork] at hw
    split_ifs at hw with ht
    obtain rfl := Except.ok.inj hw
    have hne : k.currentThread ≠ t := fun he => hnew (he ▸ ht)
    refine ⟨[.setLevel k.level], ⟨rest, hst, ?_⟩, fun u hu => ?_, by simp, by simp⟩
    · simp [hne]
    · by_cases hut : u = t
      · subst hut
        exact .inr ⟨func, rfl, by simp⟩
      · exact .inl (by simp [hu, hut])
  | yield =>
    obtain rfl := Except.ok.inj hw
    simp only [yield]
    split
    · exact ⟨[.setLevel k.level], .of_update hst (by simp) (by simp) (by simp)⟩
    · rename_i next _ _
      exact ⟨[.run next, .setLevel k.level], .of_update hst (by simp) (by simp) (by simp)⟩
  | sleep =>
    unfold performCall sleepDirectly at hw
    obtain ⟨-, rfl⟩ := sleep_eq_ok hw
    exact ⟨[.sleepLoop, .setLevel k.level], .of_update hst (by simp) (by simp) (by simp)⟩
  | finish =>
    unfold performCall finish at hw
    obtain ⟨-, rfl⟩ := sleep_eq_ok hw
    exact ⟨[.sleepLoop], .of_update hst (by simp) (by simp) (by simp)⟩
  | oneTick =>
    obtain rfl := Except.ok.inj hw
    simp only [oneTick]
    split_ifs
    · exact ⟨[.call .yield], .of_update hst (by simp) (by simp) (by simp)⟩
    · exact ⟨[], .of_update hst (by simp) (by simp) (by simp)⟩
  | code code =>
    simp only [performCall, exec] at hw
    obtain ⟨r, -, rfl⟩ := map_eq_ok.1 hw
    exact ⟨r.2.map .call, .of_update hst (by simp) (by simp) fun _ _ => ⟨code, rfl⟩⟩

/-- Every step replaces the frame that the current thread executes. -/
theorem advances_of_step
    (hnew : ∀ call fs, k.stack k.currentThread = .call call :: fs →
      k.status k.currentThread ≠ .justCreated)
    (hw : k.step c i = .ok k') : ∃ f fs, Advances k k' f fs := by
  unfold Kernel.step at hw
  split at hw
  · cases hw
  rename_i f rest hst
  refine ⟨f, ?_⟩
  cases f with
  | call call => exact advances_of_call hst (hnew call rest hst) hw
  | retest s =>
    have hstack : (k.setStack rest).stack = update k.stack k.currentThread ([] ++ rest) := rfl
    exact advances_of_pLoop (k.setStack rest) hst rfl hstack (by simp) hw
  | sleepLoop =>
    simp only [perform, sleepLoop, idle] at hw
    split at hw
    · split_ifs at hw
      · cases hw
      · obtain rfl := Except.ok.inj hw
        exact ⟨[.sleepLoop], .of_update hst (by simp) (by simp) (by simp)⟩
    · rename_i next _ _
      obtain rfl := Except.ok.inj hw
      exact ⟨[.run next], .of_update hst (by simp) (by simp) (by simp)⟩
  | setLevel now =>
    obtain rfl := Except.ok.inj hw
    simp only [setLevel]
    split_ifs
    · exact ⟨[.call .oneTick], .of_update hst (by simp) (by simp) (by simp)⟩
    · exact ⟨[], .of_update hst (by simp) (by simp) (by simp)⟩
  | run next =>
    obtain rfl := Except.ok.inj hw
    exact ⟨[.afterSwitch], .of_update hst (by simp) (by simp) (by simp)⟩
  | afterSwitch =>
    have hstack : k'.stack = (k.setStack rest).stack := by
      simp only [perform, afterSwitch] at hw
      split at hw
      · obtain rfl := Except.ok.inj hw
        rfl
      · split_ifs at hw
        obtain rfl := Except.ok.inj hw
        rfl
    exact ⟨[], .of_update hst hstack (by simp) (by simp)⟩

omit [DecidableEq τ] [DecidableEq σ] in
/-- A frame that tests the value again remains, or the thread has joined the queue. -/
theorem Advances.retest_of_mem {f : Frame τ σ κ} {fs : List (Frame τ σ κ)} (h : Advances k k' f fs)
    {t : τ} {s : σ} (hmem : .retest s ∈ k'.stack t) :
    .retest s ∈ k.stack t ∨ t ∈ (k'.semaphore s).queue := by
  by_cases ht : t = k.currentThread
  · subst ht
    obtain ⟨rest, hst, hst'⟩ := h.current
    rw [hst'] at hmem
    obtain hmem | hmem := List.mem_append.1 hmem
    · exact .inr (h.retest s hmem)
    · exact .inl (hst ▸ List.mem_cons_of_mem f hmem)
  · obtain hst | ⟨func, -, hst⟩ := h.other t ht
    · exact .inl (hst ▸ hmem)
    · simp [hst] at hmem

/-! ### Threads that finish -/

/-- What a step does to the threads that have finished and to those that are deleted. -/
inductive Reclaim (k k' : Kernel τ σ κ ε) : Prop
  /-- The current thread finishes, and is to be deleted. -/
  | finish (fs : List (Frame τ σ κ)) (hstack : k.stack k.currentThread = .call .finish :: fs)
    (hpending : k'.threadToBeDestroyed = some k.currentThread)
    (hfinished : k'.history.finished = k.history.finished ++ [k.currentThread])
    (hdeleted : k'.history.deleted = k.history.deleted)
  /-- The current thread resumes in `Run`, and deletes the thread that is to be deleted. -/
  | resume (fs : List (Frame τ σ κ)) (hstack : k.stack k.currentThread = .afterSwitch :: fs)
    (hne : k.threadToBeDestroyed ≠ some k.currentThread)
    (hpending : k'.threadToBeDestroyed = none)
    (hfinished : k'.history.finished = k.history.finished)
    (hdeleted : k'.history.deleted = k.history.deleted ++ k.threadToBeDestroyed.toList)
  /-- Anything else. -/
  | other (hfinish : ∀ fs, k.stack k.currentThread ≠ .call .finish :: fs)
    (hresume : ∀ fs, k.stack k.currentThread ≠ .afterSwitch :: fs)
    (hpending : k'.threadToBeDestroyed = k.threadToBeDestroyed)
    (hfinished : k'.history.finished = k.history.finished)
    (hdeleted : k'.history.deleted = k.history.deleted)

/-- The data that record which threads have finished and which are deleted. -/
private def mortal (k : Kernel τ σ κ ε) : Option τ × List τ × List τ :=
  (k.threadToBeDestroyed, k.history.finished, k.history.deleted)

private theorem pLoop_mortal {s : σ} (hw : k.pLoop s = .ok k') : k'.mortal = k.mortal := by
  unfold pLoop at hw
  split_ifs at hw
  · obtain ⟨-, rfl⟩ := sleep_eq_ok hw
    rfl
  · obtain rfl := Except.ok.inj hw
    rfl

private theorem wake_mortal (k : Kernel τ σ κ ε) (s : σ) : (k.wake s).mortal = k.mortal := by
  unfold wake
  split <;> rfl

private theorem runHandlers_mortal (c : Client τ σ κ δ ε ι) (is : List (Interrupt δ))
    (k : Kernel τ σ κ ε) : (runHandlers c is k).mortal = k.mortal := by
  induction is generalizing k with
  | nil => rfl
  | cons i is ih =>
    cases i with
    | timer => exact ih _
    | device d => exact (ih _).trans (wake_mortal _ _)

private theorem performCall_mortal {call : Call τ σ κ} (hcall : call ≠ .finish)
    (hw : k.performCall c i call = .ok k') : k'.mortal = k.mortal := by
  cases call with
  | p s =>
    simp only [performCall, p] at hw
    exact (pLoop_mortal hw).trans rfl
  | v s =>
    obtain rfl := Except.ok.inj hw
    exact wake_mortal _ s
  | fork t func =>
    simp only [performCall, fork] at hw
    split_ifs at hw
    obtain rfl := Except.ok.inj hw
    rfl
  | yield =>
    obtain rfl := Except.ok.inj hw
    unfold yield
    split <;> rfl
  | sleep =>
    unfold performCall sleepDirectly at hw
    obtain ⟨-, rfl⟩ := sleep_eq_ok hw
    rfl
  | finish => exact absurd rfl hcall
  | oneTick =>
    obtain rfl := Except.ok.inj hw
    unfold oneTick
    simp only
    split_ifs <;> exact runHandlers_mortal c i.interrupts { k with level := .off }
  | code code =>
    simp only [performCall, exec] at hw
    obtain ⟨r, -, rfl⟩ := map_eq_ok.1 hw
    rfl

private theorem sleepLoop_mortal {is : List (Interrupt δ)} (hw : k.sleepLoop c is = .ok k') :
    k'.mortal = k.mortal := by
  unfold sleepLoop idle at hw
  split at hw
  · split_ifs at hw
    · cases hw
    · obtain rfl := Except.ok.inj hw
      exact runHandlers_mortal c is k
  · obtain rfl := Except.ok.inj hw
    rfl

omit [DecidableEq σ] in
private theorem setLevel_mortal (now : IntStatus) (k : Kernel τ σ κ ε) :
    (k.setLevel now).mortal = k.mortal := by
  unfold setLevel
  split_ifs <;> rfl

omit [DecidableEq τ] [DecidableEq σ] in
private theorem Reclaim.of_mortal (hfinish : ∀ fs, k.stack k.currentThread ≠ .call .finish :: fs)
    (hresume : ∀ fs, k.stack k.currentThread ≠ .afterSwitch :: fs)
    (h : k'.mortal = k.mortal) : k.Reclaim k' :=
  .other hfinish hresume (congrArg Prod.fst h) (congrArg (·.2.1) h) (congrArg (·.2.2) h)

/-- Every step is of one of these kinds. -/
theorem reclaim_of_step (hw : k.step c i = .ok k') : k.Reclaim k' := by
  unfold Kernel.step at hw
  split at hw
  · cases hw
  rename_i f rest hst
  have hset : (k.setStack rest).mortal = k.mortal := rfl
  cases f with
  | call call =>
    by_cases hcall : call = .finish
    · subst hcall
      unfold perform performCall finish at hw
      obtain ⟨-, rfl⟩ := sleep_eq_ok hw
      exact .finish rest hst rfl rfl rfl
    · refine .of_mortal (fun fs he => ?_) (by simp [hst])
        ((performCall_mortal hcall hw).trans hset)
      rw [hst] at he
      injection he with hcall'
      exact hcall (Frame.call.inj hcall')
  | setLevel now =>
    obtain rfl := Except.ok.inj hw
    exact .of_mortal (by simp [hst]) (by simp [hst]) ((setLevel_mortal now _).trans hset)
  | retest s =>
    simp only [perform] at hw
    exact .of_mortal (by simp [hst]) (by simp [hst]) ((pLoop_mortal hw).trans hset)
  | sleepLoop =>
    simp only [perform] at hw
    exact .of_mortal (by simp [hst]) (by simp [hst]) ((sleepLoop_mortal hw).trans hset)
  | run next =>
    obtain rfl := Except.ok.inj hw
    exact .of_mortal (by simp [hst]) (by simp [hst]) rfl
  | afterSwitch =>
    have hpending : (k.setStack rest).threadToBeDestroyed = k.threadToBeDestroyed := rfl
    simp only [perform, afterSwitch] at hw
    split at hw
    · rename_i hnone
      rw [hpending] at hnone
      obtain rfl := Except.ok.inj hw
      exact .resume rest hst (by simp [hnone]) hnone rfl (by simp [hnone])
    · rename_i t hsome
      rw [hpending] at hsome
      split_ifs at hw with ht
      obtain rfl := Except.ok.inj hw
      refine .resume rest hst (fun he => ht ?_) rfl rfl (by simp [hsome])
      exact Option.some.inj (hsome.symm.trans he)

/-- Only a call of `Finish` makes a thread finish. -/
theorem finished_of_step (hw : k.step c i = .ok k') :
    (∃ fs, k.stack k.currentThread = .call .finish :: fs) ∧
        k'.history.finished = k.history.finished ++ [k.currentThread] ∨
      (∀ fs, k.stack k.currentThread ≠ .call .finish :: fs) ∧
        k'.history.finished = k.history.finished := by
  cases reclaim_of_step hw with
  | finish fs hstack hpending hfinished hdeleted => exact .inl ⟨⟨fs, hstack⟩, hfinished⟩
  | resume fs hstack hne hpending hfinished hdeleted =>
    exact .inr ⟨by simp [hstack], hfinished⟩
  | other hfinish hresume hpending hfinished hdeleted => exact .inr ⟨hfinish, hfinished⟩

end Kernel

end Nachos.Threads
