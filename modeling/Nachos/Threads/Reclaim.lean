import Nachos.Threads.Waiting

/-!
# Deleting the threads that have finished

A thread cannot delete itself, since it executes on its own stack. `Thread::Finish` therefore
only records the thread in `threadToBeDestroyed`, and the thread that executes next is to delete
it: "once we're running in the context of a different thread", `Scheduler::Run` calls the
destructor. It does so after `SWITCH` has returned. In a thread that has just been forked
`SWITCH` does not return, it enters `ThreadRoot`; such a thread can call `Finish` while the
variable still holds another thread, which is then forgotten.

In every run, a thread is deleted at most once and never while it is the current thread. The
variable is empty at a call of `Finish` exactly if a thread has resumed in `Run` since the call
before.

## Main definitions

* `Kernel.CallsFinish`, `Kernel.Resumes`: the next step is a call of `Finish`, or the end of `Run`.
* `NobodyResumed`: no thread has resumed in `Run` since the last call of `Finish`.
* `Kernel.Mortal`: the invariant of the threads that have finished.

## Main results

* `Kernel.Mortal.step`: a step keeps the invariant.
* `pending_iff_nobodyResumed`: when a thread is still to be deleted.
* `noneForgotten_iff`: which runs forget no thread.
* `finished_reclaimed_iff`: what holds in every run, and in which runs no thread is forgotten.
-/

namespace Nachos.Threads

open Function Foundations StepSystem

variable {τ σ κ δ ε ι : Type}

namespace Kernel

variable {k k' : Kernel τ σ κ ε} {main t : τ}

/-- The current thread calls `Finish`. -/
def CallsFinish (k : Kernel τ σ κ ε) : Prop := ∃ fs, k.stack k.currentThread = .call .finish :: fs

/-- The current thread resumes in `Run`, behind `SWITCH`. -/
def Resumes (k : Kernel τ σ κ ε) : Prop := ∃ fs, k.stack k.currentThread = .afterSwitch :: fs

/-- No finished thread is forgotten: it is deleted or recorded. -/
def NoneForgotten (k : Kernel τ σ κ ε) : Prop :=
  ∀ t ∈ k.history.finished, t ∈ k.history.deleted ∨ k.threadToBeDestroyed = some t

/-- Threads finish at most once; those that are deleted, or recorded to be, have finished; and
the recorded thread is not deleted yet. -/
structure Mortal (k : Kernel τ σ κ ε) : Prop where
  finished_nodup : k.history.finished.Nodup
  deleted_subset : ∀ t ∈ k.history.deleted, t ∈ k.history.finished
  deleted_nodup : k.history.deleted.Nodup
  pending_finished : ∀ t, k.threadToBeDestroyed = some t → t ∈ k.history.finished
  pending_notMem : ∀ t, k.threadToBeDestroyed = some t → t ∉ k.history.deleted

/-- The thread that resumes in `Run` is running. -/
theorem Sound.settled_of_resumes (h : k.Sound main) (hk : k.Resumes) :
    k.Settled main .executing := by
  obtain ⟨fs, hst⟩ := hk
  obtain ⟨ph, hset, hctl⟩ := h
  cases hctl with
  | client | kernel => exact hset
  | sleepLoop _ hs _ | run _ hs _ =>
    rw [hs] at hst
    cases hst

theorem Sound.settled_of_callsFinish (h : k.Sound main) (hk : k.CallsFinish) :
    k.Settled main .executing := by
  obtain ⟨fs, hst⟩ := hk
  exact h.settled_of_calling hst (.inl ⟨_, rfl⟩)

namespace Mortal

/-- The thread that is to be deleted is not the one that deletes it. -/
theorem pending_ne_current (h : k.Mortal) (hset : k.Settled main .executing) :
    k.threadToBeDestroyed ≠ some k.currentThread :=
  fun hp => hset.current_notMem_finished (h.pending_finished _ hp)

theorem boot [DecidableEq τ] (main : τ) (start : κ) (value : σ → ℕ) (env : ε) :
    (boot main start value env).Mortal := by
  constructor <;> simp [Threads.boot]

/-- `Finish`: the thread that finishes has neither finished before nor been deleted. -/
private theorem finish (h : k.Mortal) (ht : t ∉ k.history.finished)
    (hpending : k'.threadToBeDestroyed = some t)
    (hfinished : k'.history.finished = k.history.finished ++ [t])
    (hdeleted : k'.history.deleted = k.history.deleted) : k'.Mortal := by
  constructor
  · rw [hfinished]
    exact h.finished_nodup.append (List.nodup_singleton t) (by simpa using ht)
  · intro u hu
    rw [hdeleted] at hu
    simp [hfinished, h.deleted_subset u hu]
  · rw [hdeleted]
    exact h.deleted_nodup
  · intro u hu
    obtain rfl := Option.some.inj (hpending.symm.trans hu)
    simp [hfinished]
  · intro u hu
    obtain rfl := Option.some.inj (hpending.symm.trans hu)
    rw [hdeleted]
    exact fun hd => ht (h.deleted_subset t hd)

/-- `Run` deletes the recorded thread, if there is one. -/
private theorem resume (h : k.Mortal) (hpending : k'.threadToBeDestroyed = none)
    (hfinished : k'.history.finished = k.history.finished)
    (hdeleted : k'.history.deleted = k.history.deleted ++ k.threadToBeDestroyed.toList) :
    k'.Mortal := by
  constructor
  · rw [hfinished]
    exact h.finished_nodup
  · intro u hu
    simp only [hdeleted, List.mem_append, Option.mem_toList] at hu
    rw [hfinished]
    exact hu.elim (h.deleted_subset u) (h.pending_finished u)
  · rw [hdeleted]
    cases hp : k.threadToBeDestroyed with
    | none => simpa using h.deleted_nodup
    | some t =>
      refine h.deleted_nodup.append (List.nodup_singleton t) ?_
      simpa using h.pending_notMem t hp
  · simp [hpending]
  · simp [hpending]

variable [DecidableEq τ] [DecidableEq σ]

/-- A step keeps the invariant of the threads that have finished. -/
theorem step {c : Client τ σ κ δ ε ι} {i : Input δ ι} (h : k.Mortal) (hsound : k.Sound main)
    (hw : k.step c i = .ok k') : k'.Mortal := by
  cases reclaim_of_step hw with
  | finish fs hstack hpending hfinished hdeleted =>
    have hset := hsound.settled_of_callsFinish ⟨fs, hstack⟩
    exact h.finish hset.current_notMem_finished hpending hfinished hdeleted
  | resume fs hstack hne hpending hfinished hdeleted =>
    exact h.resume hpending hfinished hdeleted
  | other hfinish hresume hpending hfinished hdeleted =>
    constructor
    · simpa only [hfinished] using h.finished_nodup
    · simpa only [hfinished, hdeleted] using h.deleted_subset
    · simpa only [hdeleted] using h.deleted_nodup
    · simpa only [hfinished, hpending] using h.pending_finished
    · simpa only [hdeleted, hpending] using h.pending_notMem

end Mortal

end Kernel

/-! ### Runs -/

section

variable {S : StepSystem (Kernel τ σ κ ε) (Input δ ι) Fault}

/-- The run has reached `k` from a call of `Finish` without a thread resuming in `Run` on the
way. -/
def NobodyResumed (S : StepSystem (Kernel τ σ κ ε) (Input δ ι) Fault) (k : Kernel τ σ κ ε) :
    Prop :=
  ∃ k₀ i k₁, S.Reachable Always k₀ ∧ k₀.CallsFinish ∧ S.step k₀ i = .ok k₁ ∧
    S.Steps (fun k _ => ¬ k.Resumes) k₁ k

/-- A call of `Finish` comes after a thread has resumed in `Run` since the call before. -/
def FinishesInTurn (S : StepSystem (Kernel τ σ κ ε) (Input δ ι) Fault) (k : Kernel τ σ κ ε)
    (_ : Input δ ι) : Prop :=
  k.CallsFinish → ¬ NobodyResumed S k

end

variable [DecidableEq τ] [DecidableEq σ]

section

variable {c : Client τ σ κ δ ε ι} {main : τ} {start : κ} {value : σ → ℕ} {env : ε}
  {k : Kernel τ σ κ ε}

theorem mortal_of_reachable (h : (threadSystem c main start value env).Reachable Always k) :
    k.Mortal := by
  obtain ⟨k₀, rfl, hr⟩ := h
  have hboth : k.Sound main ∧ k.Mortal := by
    refine hr.invariant (fun k => k.Sound main ∧ k.Mortal) ⟨?_, ?_⟩ fun k i k' hk _ hs => ?_
    · exact Kernel.sound_boot main start value env
    · exact Kernel.Mortal.boot main start value env
    · exact ⟨hk.1.step hs, hk.2.step hk.1 hs⟩
  exact hboth.2

/-- A thread is still to be deleted exactly if no thread has resumed since the last call of
`Finish`. -/
theorem pending_iff_nobodyResumed
    (h : (threadSystem c main start value env).Reachable Always k) :
    k.threadToBeDestroyed ≠ none ↔ NobodyResumed (threadSystem c main start value env) k := by
  constructor
  · obtain ⟨k₀, rfl, hr⟩ := h
    induction hr with
    | refl => simp [boot]
    | @tail k k' hr hs ih =>
      intro hp
      have hreach : (threadSystem c main start value env).Reachable Always k := ⟨_, rfl, hr⟩
      obtain ⟨i, -, hs⟩ := hs
      cases Kernel.reclaim_of_step hs with
      | finish fs hstack hpending hfinished hdeleted =>
        exact ⟨k, i, k', hreach, ⟨fs, hstack⟩, hs, .refl _⟩
      | resume fs hstack hne hpending hfinished hdeleted => exact absurd hpending hp
      | other hfinish hresume hpending hfinished hdeleted =>
        obtain ⟨k₀, i₀, k₁, h₀, hcalls, hstep, hrun⟩ := ih (hpending ▸ hp)
        exact ⟨k₀, i₀, k₁, h₀, hcalls, hstep, hrun.tail (not_exists.2 hresume) hs⟩
  · rintro ⟨k₀, i, k₁, h₀, ⟨fs, hst⟩, hstep, hrun⟩
    refine hrun.invariant (fun k => k.threadToBeDestroyed ≠ none) ?_ fun k i k' hk hres hs => ?_
    · cases Kernel.reclaim_of_step hstep with
      | finish fs' hstack hpending hfinished hdeleted => simp [hpending]
      | resume fs' hstack hne hpending hfinished hdeleted =>
        rw [hst] at hstack
        cases hstack
      | other hfinish hresume hpending hfinished hdeleted => exact absurd hst (hfinish fs)
    · cases Kernel.reclaim_of_step hs with
      | finish fs' hstack hpending hfinished hdeleted => simp [hpending]
      | resume fs' hstack hne hpending hfinished hdeleted => exact absurd ⟨fs', hstack⟩ hres
      | other hfinish hresume hpending hfinished hdeleted => rwa [hpending]

/-- No thread is forgotten after a step if none was before, unless the step is a call of `Finish`
while another thread is to be deleted. -/
private theorem noneForgotten_step {k' : Kernel τ σ κ ε} {i : Input δ ι} (hk : k.Mortal)
    (hsound : k.Sound main) (hs : k.step c i = .ok k') :
    k'.NoneForgotten ↔ k.NoneForgotten ∧ (k.CallsFinish → k.threadToBeDestroyed = none) := by
  cases Kernel.reclaim_of_step hs with
  | finish fs hstack hpending hfinished hdeleted =>
    have hcalls : k.CallsFinish := ⟨fs, hstack⟩
    have hcur := (hsound.settled_of_callsFinish hcalls).current_notMem_finished
    have hiff : k'.NoneForgotten ↔ ∀ t ∈ k.history.finished, t ∈ k.history.deleted := by
      simp only [Kernel.NoneForgotten, hpending, hfinished, hdeleted, Option.some.injEq]
      constructor
      · intro h t ht
        exact (h t (by simp [ht])).resolve_right fun he => hcur (he ▸ ht)
      · intro h t ht
        rcases List.mem_append.1 ht with ht | ht
        · exact .inl (h t ht)
        · exact .inr (List.mem_singleton.1 ht).symm
    rw [hiff]
    constructor
    · refine fun h => ⟨fun t ht => .inl (h t ht), fun _ => ?_⟩
      -- The recorded thread has finished, and would be deleted already.
      refine Option.eq_none_iff_forall_ne_some.2 fun t ht => ?_
      exact hk.pending_notMem t ht (h t (hk.pending_finished t ht))
    · rintro ⟨h, hnone⟩ t ht
      exact (h t ht).resolve_right (by simp [hnone hcalls])
  | resume fs hstack hne hpending hfinished hdeleted =>
    have hcalls : ¬ k.CallsFinish := by simp [Kernel.CallsFinish, hstack]
    simp [Kernel.NoneForgotten, hpending, hfinished, hdeleted, hcalls]
  | other hfinish hresume hpending hfinished hdeleted =>
    have hcalls : ¬ k.CallsFinish := fun ⟨fs, hst⟩ => hfinish fs hst
    simp [Kernel.NoneForgotten, hpending, hfinished, hdeleted, hcalls]

/-- A run has forgotten no thread exactly if its calls of `Finish` came in turn. -/
theorem noneForgotten_iff (h : (threadSystem c main start value env).Reachable Always k) :
    k.NoneForgotten ↔ (threadSystem c main start value env).Reachable
      (FinishesInTurn (threadSystem c main start value env)) k := by
  constructor
  · obtain ⟨k₀, rfl, hr⟩ := h
    induction hr with
    | refl => exact fun _ => .init rfl
    | @tail k k' hr hs ih =>
      intro hnone
      have hreach : (threadSystem c main start value env).Reachable Always k := ⟨_, rfl, hr⟩
      obtain ⟨i, -, hs⟩ := hs
      obtain ⟨hk, hcalls⟩ :=
        (noneForgotten_step (mortal_of_reachable hreach) (sound_of_reachable hreach) hs).1 hnone
      refine (ih hk).step (fun hfin hnobody => ?_) hs
      exact (pending_iff_nobodyResumed hreach).2 hnobody (hcalls hfin)
  · obtain ⟨k₀, rfl, hr⟩ := h
    rintro ⟨_, rfl, hrun⟩
    have hboth : (threadSystem c main start value env).Reachable Always k ∧ k.NoneForgotten := by
      refine hrun.invariant (fun k => (threadSystem c main start value env).Reachable Always k ∧
        k.NoneForgotten) ⟨.init rfl, ?_⟩ fun k i k' hk hturn hs => ⟨hk.1.step trivial hs, ?_⟩
      · simp [Kernel.NoneForgotten, boot]
      · refine (noneForgotten_step (mortal_of_reachable hk.1) (sound_of_reachable hk.1) hs).2
          ⟨hk.2, fun hfin => ?_⟩
        by_contra hp
        exact hturn hfin ((pending_iff_nobodyResumed hk.1).1 hp)
    exact hboth.2

end

/-- In every run a thread is deleted at most once, and only after it has finished; the thread
that deletes it is another one. `Finish` finds `threadToBeDestroyed` empty exactly if a thread has
resumed in `Run` since the call of `Finish` before, and no finished thread has been forgotten
exactly if this was so at every call of the run. -/
theorem finished_reclaimed_iff (c : Client τ σ κ δ ε ι) (main : τ) (start : κ) (value : σ → ℕ)
    (env : ε) (k : Kernel τ σ κ ε)
    (h : (threadSystem c main start value env).Reachable Always k) :
    k.history.deleted.Nodup ∧ (∀ t ∈ k.history.deleted, t ∈ k.history.finished) ∧
    (k.Resumes → ∀ t, k.threadToBeDestroyed = some t →
      t ≠ k.currentThread ∧ t ∈ k.history.finished ∧ t ∉ k.history.deleted) ∧
    (k.CallsFinish → (k.threadToBeDestroyed = none ↔
      ¬ NobodyResumed (threadSystem c main start value env) k)) ∧
    (k.NoneForgotten ↔ (threadSystem c main start value env).Reachable
      (FinishesInTurn (threadSystem c main start value env)) k) := by
  have hk := mortal_of_reachable h
  refine ⟨hk.deleted_nodup, hk.deleted_subset, fun hres t ht => ⟨?_, ?_, ?_⟩, fun _ => ?_,
    noneForgotten_iff h⟩
  · rintro rfl
    exact hk.pending_ne_current ((sound_of_reachable h).settled_of_resumes hres) ht
  · exact hk.pending_finished t ht
  · exact hk.pending_notMem t ht
  · rw [← pending_iff_nobodyResumed h, not_not]

/-- A client whose initial thread, `false`, forks the thread `true`, which does nothing. Between
this and its end, the initial thread may yield. -/
def forker (yields : Bool) : Client Bool Empty Bool Empty Unit Unit where
  exec _ code _ env :=
    .ok (env, if code then [] else .fork true true :: if yields then [.yield] else [])
  saveState _ env := env
  restoreState _ env := env
  delayedLoad env := env
  handler := Empty.elim

/-- The initial thread yields, and deletes the other thread when it resumes. -/
theorem finished_reclaimed_of_forker :
    ∃ k, (threadSystem (forker true) false false nofun ()).Reachable Always k ∧ k.CallsFinish ∧
      k.history.deleted = [true] ∧
      ¬ NobodyResumed (threadSystem (forker true) false false nofun ()) k := by
  obtain ⟨k, hk, ht⟩ := exists_reachable_of_runInputs
    (S := threadSystem (forker true) false false nofun ()) rfl (List.replicate 15 ⟨[], ()⟩)
    (fun k => decide (k.stack k.currentThread = [.call .finish] ∧
      k.history.deleted = [true] ∧ k.threadToBeDestroyed = none))
    (by decide)
  obtain ⟨hst, hdel, hnone⟩ := of_decide_eq_true ht
  have h := finished_reclaimed_iff (forker true) false false nofun () k hk
  exact ⟨k, hk, ⟨_, hst⟩, hdel, (h.2.2.2.1 ⟨_, hst⟩).1 hnone⟩

/-- The initial thread finishes at once. The other thread starts in `ThreadRoot` and finishes as
well, so that the initial thread is never deleted. -/
theorem finish_forgets_thread :
    ∃ k k', (threadSystem (forker false) false false nofun ()).Reachable Always k ∧
      k.CallsFinish ∧ k.threadToBeDestroyed = some false ∧
      k.step (forker false) ⟨[], ()⟩ = .ok k' ∧ k'.history.finished = [false, true] ∧
      k'.history.deleted = [] ∧ k'.threadToBeDestroyed = some true := by
  obtain ⟨k, hk, ht⟩ := exists_reachable_of_runInputs
    (S := threadSystem (forker false) false false nofun ()) rfl (List.replicate 10 ⟨[], ()⟩)
    (fun k => decide (k.stack k.currentThread = [.call .finish] ∧
      k.threadToBeDestroyed = some false) &&
      (k.step (forker false) ⟨[], ()⟩).toOption.any fun (k' : Kernel Bool Empty Bool Unit) =>
        decide (k'.history.finished = [false, true] ∧ k'.history.deleted = [] ∧
          k'.threadToBeDestroyed = some true))
    (by decide)
  obtain ⟨hcalls, hstep⟩ := Bool.and_eq_true_iff.1 ht
  obtain ⟨hst, hpending⟩ := of_decide_eq_true hcalls
  obtain ⟨k', hk', hafter⟩ := (Option.any_eq_true _ _).1 hstep
  exact ⟨k, k', hk, ⟨_, hst⟩, hpending, toOption_eq_some.1 hk', of_decide_eq_true hafter⟩

end Nachos.Threads
