import Nachos.Threads.Places

/-!
# Every thread is in exactly one place

The invariant of the thread kernel, for every client and every run. It has two parts. `Settled`
says that the data that record the places of threads fit together, and that every thread that
can be switched to is in a position to resume. `Control` says what the current thread has still
to execute: with interrupts enabled only client code, with interrupts disabled the rest of one
kernel operation.

## Main definitions

* `Kernel.Settled`, `Kernel.Control`, `Kernel.Sound`: the invariant.
* `Kernel.OnCpu`, `Kernel.OnReadyList`, `Kernel.OnQueue`: the places in which a thread can be.

## Main results

* `Kernel.Sound.step`: a step keeps the invariant.
* `sound_of_reachable`: the invariant holds in every reachable state.
* `exactly_one_place_of_reachable`: every thread that has been forked and has not finished is in
  exactly one place, unless it called `Sleep` without a queue to wait on; a finished thread is in
  none; and `Run` is entered with interrupts disabled.
-/

namespace Nachos.Threads

open Function Foundations StepSystem

variable {τ σ κ δ ε ι : Type}

/-! ### Code that resumes -/

/-- Client code only. -/
def IsClientCode (fs : List (Frame τ σ κ)) : Prop := ∀ f ∈ fs, ∃ c, f = .call c

/-- The rest of a kernel operation that returns to client code: restore the interrupt level,
in the case of `P` after testing the value of the semaphore again. -/
inductive Resumable : List (Frame τ σ κ) → Prop
  | restore {fs} (h : IsClientCode fs) : Resumable (.setLevel .on :: fs)
  | retest {fs} (s : σ) (h : IsClientCode fs) : Resumable (.retest s :: .setLevel .on :: fs)

/-- What a thread that is not running executes once it is switched to: a thread that has run
before is in `Run`. -/
inductive Suspended : List (Frame τ σ κ) → Prop
  | fresh {fs} (h : Resumable fs) : Suspended fs
  | switched {fs} (h : Resumable fs) : Suspended (.afterSwitch :: fs)

theorem IsClientCode.cons {fs : List (Frame τ σ κ)} (c : Call τ σ κ) (h : IsClientCode fs) :
    IsClientCode (.call c :: fs) :=
  List.forall_mem_cons.2 ⟨⟨c, rfl⟩, h⟩

theorem isClientCode_map_append {fs : List (Frame τ σ κ)} (cs : List (Call τ σ κ))
    (h : IsClientCode fs) : IsClientCode (cs.map .call ++ fs) := by
  intro f hf
  rcases List.mem_append.1 hf with hf | hf
  · obtain ⟨c, -, rfl⟩ := List.mem_map.1 hf
    exact ⟨c, rfl⟩
  · exact h f hf

namespace Kernel

variable {k k' : Kernel τ σ κ ε} {main : τ} {ph : Phase τ}

/-! ### The invariant -/

/-- The data of the kernel that record where threads are. -/
def places (k : Kernel τ σ κ ε) : Places τ σ where
  current := k.currentThread
  ready := k.readyList
  queue s := (k.semaphore s).queue
  status := k.status
  gone := {t | t ∈ k.history.finished ∨ t ∈ k.history.slept}

/-- A thread that can be switched to, now or after a `V`. -/
def Parked (k : Kernel τ σ κ ε) (t : τ) : Prop :=
  k.status t = .ready ∨ ∃ s, t ∈ (k.semaphore s).queue

/-- The data on the threads other than the current one fit together. -/
structure Settled (main : τ) (ph : Phase τ) (k : Kernel τ σ κ ε) : Prop where
  placement : Placement k.places ph
  suspended : ∀ t, k.Parked t → t ≠ k.currentThread → Suspended (k.stack t)
  forked_iff : ∀ t, t = main ∨ t ∈ k.history.forked ↔ k.status t ≠ .justCreated

/-- What the current thread has still to execute, by the phase it is in. -/
inductive Control (k : Kernel τ σ κ ε) : Phase τ → Prop
  | client (hl : k.level = .on) (hs : IsClientCode (k.stack k.currentThread)) :
    Control k .executing
  | kernel (hl : k.level = .off) (hs : Suspended (k.stack k.currentThread)) :
    Control k .executing
  | sleepLoop {fs} (hl : k.level = .off) (hs : k.stack k.currentThread = .sleepLoop :: fs)
    (hr : k.Parked k.currentThread → Resumable fs) : Control k .sleeping
  | run {n fs} (hl : k.level = .off) (hs : k.stack k.currentThread = .run n :: fs)
    (hr : k.Parked k.currentThread → Resumable fs) : Control k (.switching n)

/-- The invariant of the kernel. -/
def Sound (main : τ) (k : Kernel τ σ κ ε) : Prop := ∃ ph, k.Settled main ph ∧ k.Control ph

/-- Only the data of `places`, `forked` and the stacks of other threads matter. -/
theorem Settled.congr (h : k.Settled main ph) (hp : k'.places = k.places)
    (hf : k'.history.forked = k.history.forked)
    (hs : ∀ t ≠ k.currentThread, k'.stack t = k.stack t) : k'.Settled main ph := by
  have hc : k'.currentThread = k.currentThread := congrArg Places.current hp
  have hst : k'.status = k.status := congrArg Places.status hp
  have hq : ∀ s, (k'.semaphore s).queue = (k.semaphore s).queue := fun s =>
    congrFun (congrArg Places.queue hp) s
  refine ⟨hp ▸ h.placement, fun t ht hne => ?_, fun t => by rw [hf, hst]; exact h.forked_iff t⟩
  rw [hc] at hne
  rw [hs t hne]
  refine h.suspended t ?_ hne
  simpa only [Parked, hst, hq] using ht

theorem Settled.setLevel (h : k.Settled main ph) (l : IntStatus) :
    ({ k with level := l } : Kernel τ σ κ ε).Settled main ph :=
  h.congr rfl rfl fun _ _ => rfl

theorem Settled.setEnv (h : k.Settled main ph) (e : ε) :
    ({ k with env := e } : Kernel τ σ κ ε).Settled main ph :=
  h.congr rfl rfl fun _ _ => rfl

theorem Settled.status_current (h : k.Settled main .executing) :
    k.status k.currentThread = .running :=
  h.placement.status_current

variable [DecidableEq τ]

theorem Settled.push (h : k.Settled main ph) (fs : List (Frame τ σ κ)) :
    (k.push fs).Settled main ph :=
  h.congr rfl rfl fun _ ht => update_of_ne ht _ _

theorem Settled.setStack (h : k.Settled main ph) (fs : List (Frame τ σ κ)) :
    (k.setStack fs).Settled main ph :=
  h.congr rfl rfl fun _ ht => update_of_ne ht _ _

@[simp]
theorem push_stack_self (k : Kernel τ σ κ ε) (fs : List (Frame τ σ κ)) :
    (k.push fs).stack k.currentThread = fs ++ k.stack k.currentThread :=
  update_self _ _ _

/-- The status of a forked thread changes to another status of a forked thread. -/
theorem Settled.forked_iff_update (h : k.Settled main ph) {t : τ} (ht : k.status t ≠ .justCreated)
    {st : ThreadStatus} (hst : st ≠ .justCreated) (u : τ) :
    u = main ∨ u ∈ k.history.forked ↔ update k.status t st u ≠ .justCreated := by
  by_cases hu : u = t
  · subst hu
    simpa [hst] using (h.forked_iff u).2 ht
  · rw [update_of_ne hu]
    exact h.forked_iff u

/-! ### Sleeping -/

theorem sleep_eq_ok {k k' : Kernel τ σ κ ε} (h : k.sleep = .ok k') :
    k.level = .off ∧
      k' = { k with status := update k.status k.currentThread .blocked }.push [.sleepLoop] := by
  unfold sleep at h
  split_ifs at h with hl
  exact ⟨hl, (Except.ok.inj h).symm⟩

/-- `Sleep`, from a state `k₁` in which the current thread has been put where it waits. -/
theorem Settled.sound_sleep {k₁ : Kernel τ σ κ ε} (h : k.Settled main .executing)
    (hw : k₁.sleep = .ok k') (hc : k₁.currentThread = k.currentThread) (hst : k₁.status = k.status)
    (hf : k₁.history.forked = k.history.forked)
    (hs : ∀ t ≠ k.currentThread, k₁.stack t = k.stack t)
    (hq : ∀ t ≠ k.currentThread, ∀ s, t ∈ (k₁.semaphore s).queue → t ∈ (k.semaphore s).queue)
    (hp : Placement { k₁.places with status := update k.status k.currentThread .blocked } .sleeping)
    (hr : ∀ s, k.currentThread ∈ (k₁.semaphore s).queue → Resumable (k₁.stack k.currentThread)) :
    k'.Sound main := by
  obtain ⟨hl, rfl⟩ := sleep_eq_ok hw
  rw [hst, hc]
  refine ⟨.sleeping, ⟨?_, fun t ht hne => ?_, fun t => ?_⟩,
    Control.sleepLoop hl (push_stack_self _ _) ?_⟩
  · simpa [places, hc] using hp
  · have hne' : t ≠ k.currentThread := hne
    have hk : k.Parked t := by
      rcases ht with ht | ⟨s, ht⟩
      · exact .inl (by simpa [hne'] using ht)
      · exact .inr ⟨s, hq t hne' s ht⟩
    simpa [hne', hs t hne'] using h.suspended t hk hne'
  · have hcur : k.status k.currentThread ≠ .justCreated := by simp [h.status_current]
    simpa [hf] using h.forked_iff_update hcur (show ThreadStatus.blocked ≠ _ by simp) t
  · rintro (ht | ⟨s, ht⟩)
    · simp at ht
    · exact hr s ht

/-- The current thread goes to sleep for good, in `Finish` or by a call of `Sleep`. -/
theorem Settled.sound_retire {k₁ : Kernel τ σ κ ε} (h : k.Settled main .executing)
    (hw : k₁.sleep = .ok k')
    (hp : k₁.places = { k.places with gone := insert k.currentThread k.places.gone })
    (hf : k₁.history.forked = k.history.forked)
    (hs : ∀ t ≠ k.currentThread, k₁.stack t = k.stack t) : k'.Sound main := by
  have hq : ∀ s, (k₁.semaphore s).queue = (k.semaphore s).queue := fun s =>
    congrFun (congrArg Places.queue hp) s
  refine h.sound_sleep hw (congrArg Places.current hp) (congrArg Places.status hp) hf hs
    (fun t _ s => by rw [hq s]; exact id) ?_ fun s hcs => ?_
  · rw [hp]
    exact h.placement.retire
  · rw [hq s] at hcs
    exact absurd hcs (h.placement.notMem_queue (by simp [places, h.status_current]) s)

theorem Settled.sound_finish (h : k.Settled main .executing) (hw : k.finish = .ok k') :
    k'.Sound main := by
  unfold finish at hw
  refine h.sound_retire hw ?_ rfl fun _ _ => rfl
  simp only [places, Places.mk.injEq, true_and, List.mem_append, List.mem_singleton]
  ext t
  simp only [Set.mem_ofPred_eq, Set.mem_insert_iff]
  tauto

theorem Settled.sound_sleepDirectly (h : k.Settled main .executing)
    (hw : k.sleepDirectly = .ok k') : k'.Sound main := by
  unfold sleepDirectly at hw
  refine h.sound_retire hw ?_ rfl fun _ ht => update_of_ne ht _ _
  simp only [push_currentThread, push_readyList, push_semaphore, push_status, push_history, places,
    Places.mk.injEq, true_and, List.mem_append, List.mem_singleton]
  ext t
  simp only [Set.mem_ofPred_eq, Set.mem_insert_iff]
  tauto

/-! ### Switching -/

/-- `Run`: the next thread resumes. -/
theorem Settled.sound_run (c : Client τ σ κ δ ε ι) {n : τ} (h : k.Settled main (.switching n))
    (hl : k.level = .off) (hr : k.Parked k.currentThread → Resumable (k.stack k.currentThread)) :
    (k.run c n).Sound main := by
  have hn : k.status n = .ready := h.placement.status_next
  have hsus : ∀ t, k.Parked t → Suspended ((k.run c n).stack t) := by
    intro t ht
    by_cases hc : t = k.currentThread
    · subst hc
      simpa using Suspended.switched (hr ht)
    · simpa [hc] using h.suspended t ht hc
  refine ⟨.executing, ⟨h.placement.dispatch, fun t ht hne => hsus t ?_, fun t => ?_⟩,
    .kernel hl (hsus n (.inl hn))⟩
  · exact ht.imp_left fun ht => by simpa [show t ≠ n from hne] using ht
  · exact h.forked_iff_update (by simp [hn]) (by simp) t

theorem afterSwitch_eq_ok {c : Client τ σ κ δ ε ι} (h : k.afterSwitch c = .ok k') :
    k'.level = k.level ∧ k'.stack = k.stack ∧ k'.places = k.places ∧
      k'.history.forked = k.history.forked := by
  unfold afterSwitch at h
  split at h
  · obtain rfl := Except.ok.inj h
    exact ⟨rfl, rfl, rfl, rfl⟩
  · split_ifs at h
    obtain rfl := Except.ok.inj h
    exact ⟨rfl, rfl, rfl, rfl⟩

/-! ### Calls without a semaphore -/

theorem Settled.sound_yield (h : k.Settled main .executing) (hl : k.level = .on)
    (hs : IsClientCode (k.stack k.currentThread)) : k.yield.Sound main := by
  have hres : Resumable (Frame.setLevel k.level :: k.stack k.currentThread) :=
    hl ▸ .restore hs
  unfold yield
  split
  · exact ⟨.executing, (h.setLevel .off).push _, .kernel rfl (by simpa using .fresh hres)⟩
  · rename_i n rest hr
    refine ⟨.switching n, Settled.push ⟨h.placement.yield hr, fun t ht hne => ?_, ?_⟩ _,
      .run rfl (push_stack_self _ _) fun _ => hres⟩
    · exact h.suspended t (ht.imp_left (by simp [show t ≠ k.currentThread from hne])) hne
    · exact h.forked_iff_update (by simp [h.status_current]) (by simp)

theorem Settled.sound_fork (h : k.Settled main .executing) (hl : k.level = .on)
    (hs : IsClientCode (k.stack k.currentThread)) {t : τ} {func : κ}
    (hw : k.fork t func = .ok k') : k'.Sound main := by
  unfold fork at hw
  split_ifs at hw with ht
  obtain rfl := Except.ok.inj hw
  have hne : t ≠ k.currentThread := fun he => by simp [he, h.status_current] at ht
  have hroot : IsClientCode [Frame.call (.code func : Call τ σ κ), .call .finish] :=
    IsClientCode.cons _ (IsClientCode.cons _ (by simp [IsClientCode]))
  refine ⟨.executing, ⟨h.placement.fork ht, fun u hu hc => ?_, fun u => ?_⟩, .kernel rfl ?_⟩
  · by_cases hut : u = t
    · subst hut
      simpa using Suspended.fresh (.restore hroot)
    · have hu' : k.Parked u := hu.imp_left (by simp [hut])
      have hc' : u ≠ k.currentThread := hc
      simpa [hut, hc'] using h.suspended u hu' hc'
  · by_cases hut : u = t
    · simp [hut]
    · simpa [hut] using h.forked_iff u
  · simpa [hne.symm, hl] using Suspended.fresh (.restore hs)

/-- Client code issues calls. -/
theorem Settled.sound_exec {c : Client τ σ κ δ ε ι} (h : k.Settled main .executing)
    (hl : k.level = .on) (hs : IsClientCode (k.stack k.currentThread)) {code : κ} {i : ι}
    (hw : k.exec c code i = .ok k') : k'.Sound main := by
  unfold exec at hw
  cases hx : c.exec k.currentThread code i k.env with
  | error e => simp [hx, Except.map] at hw
  | ok r =>
    rw [hx] at hw
    obtain rfl := Except.ok.inj hw
    refine ⟨.executing, (h.setEnv _).push _, .client hl ?_⟩
    simpa using isClientCode_map_append r.2 hs

theorem Settled.sound_setLevel (h : k.Settled main .executing) (hl : k.level = .off)
    (hs : IsClientCode (k.stack k.currentThread)) : (k.setLevel .on).Sound main := by
  unfold Kernel.setLevel
  rw [if_pos ⟨rfl, hl⟩]
  refine ⟨.executing, (h.setLevel .on).push _, .client rfl ?_⟩
  simpa using hs.cons .oneTick

/-! ### Semaphores -/

variable [DecidableEq σ]

omit [DecidableEq τ] in
private theorem queue_update (f : σ → Semaphore τ) (s : σ) (x : Semaphore τ) :
    (fun s' => (update f s x s').queue) = update (fun s' => (f s').queue) s x.queue :=
  comp_update Semaphore.queue f s x

/-- The test of the value in `P`. -/
theorem Settled.sound_pLoop (h : k.Settled main .executing) (hl : k.level = .off)
    {fs : List (Frame τ σ κ)} (hs : k.stack k.currentThread = .setLevel .on :: fs)
    (hfs : IsClientCode fs) {s : σ} (hw : k.pLoop s = .ok k') : k'.Sound main := by
  unfold pLoop at hw
  split_ifs at hw with hv
  · refine h.sound_sleep hw rfl rfl rfl (fun _ ht => update_of_ne ht _ _) (fun t ht s' => ?_) ?_
      fun _ _ => ?_
    · by_cases hss : s' = s
      · subst hss
        simp [ht]
      · simp [hss]
    · have := h.placement.enqueue s
      simpa [places, queue_update] using this
    · simpa [hs] using Resumable.retest s hfs
  · obtain rfl := Except.ok.inj hw
    refine ⟨.executing, h.congr ?_ rfl fun _ _ => rfl, .kernel hl ?_⟩
    · simp [places, queue_update]
    · exact .fresh (hs ▸ .restore hfs)

@[simp]
theorem wake_level (k : Kernel τ σ κ ε) (s : σ) : (k.wake s).level = k.level := by
  unfold wake; split <;> rfl

@[simp]
theorem wake_currentThread (k : Kernel τ σ κ ε) (s : σ) :
    (k.wake s).currentThread = k.currentThread := by
  unfold wake; split <;> rfl

@[simp]
theorem wake_stack (k : Kernel τ σ κ ε) (s : σ) : (k.wake s).stack = k.stack := by
  unfold wake; split <;> rfl

omit [DecidableEq τ] in
private theorem mem_queue_of_update {f : σ → Semaphore τ} {s s' : σ} {x : Semaphore τ} {t : τ}
    (hx : t ∈ x.queue → t ∈ (f s).queue) (h : t ∈ (update f s x s').queue) :
    t ∈ (f s').queue := by
  by_cases hs : s' = s
  · subst hs
    exact hx (by simpa using h)
  · simpa [hs] using h

/-- `V` makes no thread wait that did not. -/
theorem parked_of_wake {s : σ} {t : τ} (h : (k.wake s).Parked t) : k.Parked t := by
  unfold wake at h
  split at h
  · exact h.imp_right fun ⟨s', hs'⟩ => ⟨s', mem_queue_of_update (by simp) hs'⟩
  · rename_i u q hq
    by_cases hu : t = u
    · exact .inr ⟨s, by simp [hq, hu]⟩
    · refine h.imp (by simp [hu]) fun ⟨s', hs'⟩ => ⟨s', mem_queue_of_update ?_ hs'⟩
      simpa [hq] using Or.inr

omit [DecidableEq τ] in
theorem Settled.countUp (h : k.Settled main ph) (s : σ) : (k.countUp s).Settled main ph :=
  h.congr rfl rfl fun _ _ => rfl

theorem Settled.wake (h : k.Settled main ph) (s : σ) : (k.wake s).Settled main ph := by
  have hpark : ∀ t, (k.wake s).Parked t → k.Parked t := fun t => parked_of_wake
  cases hq : (k.semaphore s).queue with
  | nil =>
    simp only [Kernel.wake, hq]
    refine h.congr ?_ rfl fun _ _ => rfl
    simp [places, queue_update, ← comp_def, hq]
  | cons t q =>
    have hst : k.status t = .blocked :=
      h.placement.status_of_mem_queue (s := s) (by simp [places, hq])
    simp only [Kernel.wake, hq] at hpark ⊢
    refine ⟨?_, fun u hu hne => h.suspended u (hpark u hu) hne, ?_⟩
    · simpa [places, queue_update] using h.placement.wake (s := s) (t := t) (q := q) hq
    · simpa using h.forked_iff_update (by simp [hst]) (by simp)

/-! ### Interrupts -/

section Handlers

variable (c : Client τ σ κ δ ε ι)

@[simp]
theorem runHandlers_level (is : List (Interrupt δ)) (k : Kernel τ σ κ ε) :
    (runHandlers c is k).level = k.level := by
  induction is generalizing k with
  | nil => rfl
  | cons i is ih => cases i <;> simp [runHandlers, ih]

@[simp]
theorem runHandlers_currentThread (is : List (Interrupt δ)) (k : Kernel τ σ κ ε) :
    (runHandlers c is k).currentThread = k.currentThread := by
  induction is generalizing k with
  | nil => rfl
  | cons i is ih => cases i <;> simp [runHandlers, ih]

@[simp]
theorem runHandlers_stack (is : List (Interrupt δ)) (k : Kernel τ σ κ ε) :
    (runHandlers c is k).stack = k.stack := by
  induction is generalizing k with
  | nil => rfl
  | cons i is ih => cases i <;> simp [runHandlers, ih]

theorem parked_of_runHandlers {is : List (Interrupt δ)} {t : τ}
    (h : (runHandlers c is k).Parked t) : k.Parked t := by
  induction is generalizing k with
  | nil => exact h
  | cons i is ih =>
    cases i with
    | timer => exact ih (k := { k with env := c.delayedLoad k.env }) h
    | device d =>
      exact parked_of_wake (k := Kernel.countUp (c.handler d) { k with env := c.delayedLoad k.env })
        (ih (k := Kernel.wake (c.handler d)
          (Kernel.countUp (c.handler d) { k with env := c.delayedLoad k.env })) h)

theorem Settled.runHandlers (h : k.Settled main ph) (is : List (Interrupt δ)) :
    (runHandlers c is k).Settled main ph := by
  induction is generalizing k with
  | nil => exact h
  | cons i is ih =>
    cases i with
    | timer => exact ih (h.setEnv _)
    | device d => exact ih (((h.setEnv _).countUp _).wake _)

/-- `OneTick` returns to client code, and possibly calls `Yield` before. -/
theorem Settled.sound_oneTick (h : k.Settled main .executing)
    (hs : IsClientCode (k.stack k.currentThread)) (is : List (Interrupt δ)) :
    (k.oneTick c is).Sound main := by
  have h' := ((h.setLevel .off).runHandlers c is).setLevel .on
  unfold oneTick
  split_ifs
  · refine ⟨.executing, h'.push _, .client rfl ?_⟩
    simpa using hs.cons .yield
  · exact ⟨.executing, h', .client rfl (by simpa using hs)⟩

/-- The loop of `Sleep` takes a ready thread, or idles and goes on. -/
theorem Settled.sound_sleepLoop (h : k.Settled main .sleeping) (hl : k.level = .off)
    (hr : k.Parked k.currentThread → Resumable (k.stack k.currentThread))
    {is : List (Interrupt δ)} (hw : k.sleepLoop c is = .ok k') : k'.Sound main := by
  unfold Kernel.sleepLoop idle at hw
  split at hw
  · split_ifs at hw
    · simp [Except.map] at hw
    obtain rfl := Except.ok.inj hw
    refine ⟨.sleeping, (h.runHandlers c is).push _, .sleepLoop (by simpa) (push_stack_self _ _) ?_⟩
    rw [push_currentThread, runHandlers_currentThread, runHandlers_stack]
    exact fun hp => hr (parked_of_runHandlers c hp)
  · rename_i n rest hready
    obtain rfl := Except.ok.inj hw
    refine ⟨.switching n, ?_, .run hl (push_stack_self _ _) ?_⟩
    · refine Settled.push (k := { k with readyList := rest }) ⟨h.placement.choose hready, ?_, ?_⟩ _
      · exact h.suspended
      · exact h.forked_iff
    · exact hr

end Handlers

/-! ### Steps -/

variable {c : Client τ σ κ δ ε ι}

theorem Settled.sound_p (h : k.Settled main .executing) (hl : k.level = .on)
    (hs : IsClientCode (k.stack k.currentThread)) {s : σ} (hw : k.p s = .ok k') :
    k'.Sound main :=
  ((h.setLevel .off).push _).sound_pLoop rfl (by simp [hl]) hs hw

theorem Settled.sound_v (h : k.Settled main .executing) (hl : k.level = .on)
    (hs : IsClientCode (k.stack k.currentThread)) (s : σ) : (k.v s).Sound main := by
  refine ⟨.executing, ((h.setLevel .off).push _).wake s, .kernel (by simp [v]) ?_⟩
  simpa [v, hl] using Suspended.fresh (.restore hs)

theorem Settled.sound_performCall (h : k.Settled main .executing) (hl : k.level = .on)
    (hs : IsClientCode (k.stack k.currentThread)) {i : Input δ ι} {f : Call τ σ κ}
    (hw : k.performCall c i f = .ok k') : k'.Sound main := by
  cases f with
  | p s => exact h.sound_p hl hs hw
  | v s =>
    obtain rfl := Except.ok.inj hw
    exact (h.countUp s).sound_v hl hs s
  | fork t func => exact h.sound_fork hl hs hw
  | yield =>
    obtain rfl := Except.ok.inj hw
    exact h.sound_yield hl hs
  | sleep => exact h.sound_sleepDirectly hw
  | finish => exact h.sound_finish hw
  | oneTick =>
    obtain rfl := Except.ok.inj hw
    exact h.sound_oneTick c hs i.interrupts
  | code code => exact h.sound_exec hl hs hw

/-- The rest of a kernel operation goes on. -/
theorem Settled.sound_resume (h : k.Settled main .executing) (hl : k.level = .off)
    {f : Frame τ σ κ} {fs : List (Frame τ σ κ)} (hfs : Resumable (f :: fs))
    (hs : k.stack k.currentThread = fs) {i : Input δ ι} (hw : k.perform c i f = .ok k') :
    k'.Sound main := by
  cases hfs with
  | restore hc =>
    obtain rfl := Except.ok.inj hw
    exact h.sound_setLevel hl (hs ▸ hc)
  | retest s hc => exact h.sound_pLoop hl hs hc hw

theorem Settled.sound_suspended (h : k.Settled main .executing) (hl : k.level = .off)
    {f : Frame τ σ κ} {fs : List (Frame τ σ κ)} (hfs : Suspended (f :: fs))
    (hs : k.stack k.currentThread = fs) {i : Input δ ι} (hw : k.perform c i f = .ok k') :
    k'.Sound main := by
  cases hfs with
  | fresh hres => exact h.sound_resume hl hres hs hw
  | switched hres =>
    obtain ⟨hl', hs', hp, hf⟩ := afterSwitch_eq_ok hw
    have hc : k'.currentThread = k.currentThread := congrArg Places.current hp
    refine ⟨.executing, h.congr hp hf fun t _ => by rw [hs'], .kernel (hl' ▸ hl) ?_⟩
    rw [hs', hc, hs]
    exact .fresh hres

/-- A step keeps the invariant of the kernel. -/
theorem Sound.step {i : Input δ ι} (h : k.Sound main) (hw : k.step c i = .ok k') :
    k'.Sound main := by
  obtain ⟨ph, h, hctl⟩ := h
  unfold Kernel.step at hw
  split at hw
  · cases hw
  rename_i f rest hst
  have h' := h.setStack rest
  have hs : (k.setStack rest).stack (k.setStack rest).currentThread = rest := update_self _ _ _
  cases hctl with
  | client hl hs' =>
    rw [hst] at hs'
    obtain ⟨⟨call, rfl⟩, hrest⟩ := List.forall_mem_cons.1 hs'
    exact h'.sound_performCall hl (by rw [hs]; exact hrest) hw
  | kernel hl hs' => exact h'.sound_suspended hl (hst ▸ hs') hs hw
  | sleepLoop hl hs' hr =>
    obtain ⟨rfl, rfl⟩ := List.cons.inj (hst.symm.trans hs')
    exact h'.sound_sleepLoop c hl (by rw [hs]; exact hr) hw
  | run hl hs' hr =>
    obtain ⟨rfl, rfl⟩ := List.cons.inj (hst.symm.trans hs')
    obtain rfl := Except.ok.inj hw
    exact h'.sound_run c hl (by rw [hs]; exact hr)

omit [DecidableEq σ] in
theorem sound_boot (main : τ) (start : κ) (value : σ → ℕ) (env : ε) :
    (boot main start value env).Sound main := by
  refine ⟨.executing, ⟨?_, fun t ht hne => ?_, fun t => ?_⟩, .client rfl ?_⟩
  · simpa [boot, places] using Placement.initial main
  · have hne' : t ≠ main := hne
    simp [Parked, boot, hne'] at ht
  · by_cases ht : t = main <;> simp [boot, ht]
  · simp [boot, IsClientCode]

end Kernel

/-! ### Places -/

section

variable {k : Kernel τ σ κ ε} {main t : τ} {ph : Phase τ}

theorem Kernel.Control.executing (h : k.Control ph) (hl : k.level = .on) : ph = .executing := by
  cases h <;> simp_all

theorem Kernel.Control.level_of_run (h : k.Control ph) {n : τ} {fs : List (Frame τ σ κ)}
    (hs : k.stack k.currentThread = .run n :: fs) : k.level = .off := by
  cases h with
  | client _ hs' =>
    obtain ⟨c, hc⟩ := hs' (.run n) (by simp [hs])
    cases hc
  | kernel hl | sleepLoop hl | run hl => exact hl

/-- The thread is in no place where it could run or be woken up. -/
def Kernel.Nowhere (k : Kernel τ σ κ ε) (t : τ) : Prop :=
  t ≠ k.currentThread ∧ t ∉ k.readyList ∧ ∀ s, t ∉ (k.semaphore s).queue

theorem Kernel.Settled.nowhere (h : k.Settled main .executing)
    (ht : t ∈ k.history.finished ∨ t ∈ k.history.slept) : k.status t = .blocked ∧ k.Nowhere t := by
  have hpl := h.placement
  have hst : k.status t = .blocked := hpl.status_of_mem_gone ht
  refine ⟨hst, fun hc => ?_, hpl.notMem_ready (by simp [Kernel.places, hst]), hpl.gone_notMem ht⟩
  have := h.status_current
  simp [← hc, hst] at this

variable [DecidableEq τ]

/-- The thread is in exactly one place: it is the current thread and has the status `running`,
or it occurs once in the ready list and has the status `ready`, or it occurs once in the queue of
exactly one semaphore and has the status `blocked`; and it is in no other place. -/
inductive Kernel.InOnePlace (k : Kernel τ σ κ ε) (t : τ) : Prop
  | cpu (hc : t = k.currentThread) (hs : k.status t = .running) (hr : t ∉ k.readyList)
    (hq : ∀ s, t ∉ (k.semaphore s).queue)
  | ready (hr : k.readyList.count t = 1) (hs : k.status t = .ready) (hc : t ≠ k.currentThread)
    (hq : ∀ s, t ∉ (k.semaphore s).queue)
  | queue (s : σ) (hq : (k.semaphore s).queue.count t = 1) (hs : k.status t = .blocked)
    (hq' : ∀ s' ≠ s, t ∉ (k.semaphore s').queue) (hc : t ≠ k.currentThread)
    (hr : t ∉ k.readyList)

theorem Kernel.InOnePlace.not_nowhere (h : k.InOnePlace t) : ¬ k.Nowhere t := by
  rintro ⟨hc, hr, hq⟩
  cases h with
  | cpu hc' => exact hc hc'
  | ready hr' => exact hr (List.count_pos_iff.1 (by omega))
  | queue s hq' => exact hq s (List.count_pos_iff.1 (by omega))

theorem Kernel.Settled.inOnePlace (h : k.Settled main .executing)
    (ht : t = main ∨ t ∈ k.history.forked) (hf : t ∉ k.history.finished)
    (hs : t ∉ k.history.slept) : k.InOnePlace t := by
  have hpl := h.placement
  have hcur : k.status t ≠ .running → t ≠ k.currentThread := fun hr hc =>
    hr (hc ▸ h.status_current)
  cases hst : k.status t with
  | justCreated => exact absurd hst ((h.forked_iff t).1 ht)
  | running =>
    refine .cpu ((hpl.running_iff t).1 hst).1 hst ?_ ?_
    · exact hpl.notMem_ready (by simp [Kernel.places, hst])
    · exact hpl.notMem_queue (by simp [Kernel.places, hst])
  | ready =>
    have hr : t ∈ k.readyList := ((hpl.ready_iff t).1 hst).resolve_right nofun
    refine .ready (List.count_eq_one_of_mem hpl.ready_nodup hr) hst (hcur (by simp [hst])) ?_
    exact hpl.notMem_queue (by simp [Kernel.places, hst])
  | blocked =>
    obtain ⟨s, hq⟩ | hg := (hpl.blocked_iff t).1 hst
    · refine .queue s (List.count_eq_one_of_mem (hpl.queue_nodup s) hq) hst ?_
        (hcur (by simp [hst])) ?_
      · exact fun s' hne hq' => hne (hpl.queue_unique hq' hq)
      · exact hpl.notMem_ready (by simp [Kernel.places, hst])
    · exact (not_or_intro hf hs hg).elim

end

variable [DecidableEq τ] [DecidableEq σ]

/-- The invariant of the kernel holds in every state of every run. -/
theorem sound_of_reachable {c : Client τ σ κ δ ε ι} {main : τ} {start : κ} {value : σ → ℕ}
    {env : ε} {C : Kernel τ σ κ ε → Input δ ι → Prop} {k : Kernel τ σ κ ε}
    (h : (threadSystem c main start value env).Reachable C k) : k.Sound main := by
  refine h.invariant (Kernel.Sound main) ?_ fun _ _ _ hk _ hs => Kernel.Sound.step hk hs
  rintro _ rfl
  exact Kernel.sound_boot main start value env

/-- Whenever a thread executes with interrupts enabled, every thread that was forked (or is the
initial one) and has not finished is in exactly one place, unless it called `Sleep` itself: then
it is blocked and in none. A finished thread is in none. `Run` is entered with interrupts
disabled only. -/
theorem exactly_one_place_of_reachable (c : Client τ σ κ δ ε ι) (main : τ) (start : κ)
    (value : σ → ℕ) (env : ε) (k : Kernel τ σ κ ε)
    (h : (threadSystem c main start value env).Reachable Always k) :
    (k.level = .on →
      (∀ t, t = main ∨ t ∈ k.history.forked → t ∉ k.history.finished → t ∉ k.history.slept →
        k.InOnePlace t) ∧
      (∀ t ∈ k.history.slept, k.status t = .blocked ∧ k.Nowhere t) ∧
      ∀ t ∈ k.history.finished, k.Nowhere t) ∧
    ∀ n fs, k.stack k.currentThread = .run n :: fs → k.level = .off := by
  obtain ⟨ph, hset, hctl⟩ := sound_of_reachable h
  refine ⟨fun hl => ?_, fun _ _ hs => hctl.level_of_run hs⟩
  obtain rfl := hctl.executing hl
  exact ⟨fun t => hset.inOnePlace, fun t ht => hset.nowhere (.inr ht),
    fun t ht => (hset.nowhere (.inl ht)).2⟩

/-- A client whose initial thread, `false`, forks the thread `true`, which only calls `Sleep`. -/
def sleeper : Client Bool Empty Bool Empty Unit Unit where
  exec _ code _ env := .ok (env, if code then [.sleep] else [.fork true true, .yield])
  saveState _ env := env
  restoreState _ env := env
  delayedLoad env := env
  handler := Empty.elim

/-- A run of `sleeper` without interrupts, up to the return of `Yield` in the initial thread. -/
private theorem sleeper_run : ∃ k, (threadSystem sleeper false false nofun ()).Reachable Always k ∧
    k.level = .on ∧ k.currentThread = false ∧ k.readyList = [] ∧ true ∈ k.history.forked ∧
    k.history.finished = [] ∧ k.history.slept = [true] := by
  obtain ⟨k, hk, ht⟩ := exists_reachable_of_runInputs
    (S := threadSystem sleeper false false nofun ()) rfl (List.replicate 14 ⟨[], ()⟩)
    (fun k => decide (k.level = .on ∧ k.currentThread = false ∧ k.readyList = [] ∧
      true ∈ k.history.forked ∧ k.history.finished = [] ∧ k.history.slept = [true]))
    (by decide)
  exact ⟨k, hk, of_decide_eq_true ht⟩

theorem exactly_one_place_of_sleeper :
    ∃ k, (threadSystem sleeper false false nofun ()).Reachable Always k ∧
      k.InOnePlace false ∧ k.Nowhere true := by
  obtain ⟨k, hk, hl, -, -, -, hf, hs⟩ := sleeper_run
  have h := (exactly_one_place_of_reachable sleeper false false nofun () k hk).1 hl
  exact ⟨k, hk, h.1 false (.inl rfl) (by simp [hf]) (by simp [hs]), (h.2.1 true (by simp [hs])).2⟩

/-- A thread that calls `Sleep` itself has been forked and has not finished, but is in no
place. -/
theorem forked_thread_in_no_place :
    ∃ k, (threadSystem sleeper false false nofun ()).Reachable Always k ∧ k.level = .on ∧
      true ∈ k.history.forked ∧ true ∉ k.history.finished ∧ ¬ k.InOnePlace true := by
  obtain ⟨k, hk, hl, hc, hr, hfork, hf, -⟩ := sleeper_run
  refine ⟨k, hk, hl, hfork, by simp [hf], fun hp => hp.not_nowhere ⟨?_, ?_, nofun⟩⟩
  · simp [hc]
  · simp [hr]

end Nachos.Threads
