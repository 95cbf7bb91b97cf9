import Nachos.Threads.SemaphoreCount
import Nachos.Threads.Tasks

/-!
# Threads that wait in `P`

A thread that sleeps in the queue of a semaphore has still to complete a call of `P` on it. As
long as a thread waits, every unit of the semaphore is matched by a thread that is in `P` as well
and does not sleep. Hence, if every thread that is in `P` sleeps, no semaphore on which a thread
waits has a unit left. This is how the absence of a deadlock is used in the programs on top of
the kernel.

## Main definitions

* `Kernel.AtP`: the next call that a thread has to complete is `P`.
* `Kernel.Waiting`: the invariant of the queues and the calls that are still to be completed.

## Main results

* `Kernel.Waiting.step`: a step keeps the invariant.
* `Kernel.Waiting.value_eq_zero`: no unit is left if every thread in `P` sleeps.
-/

namespace Nachos.Threads

open Function Foundations

variable {τ σ κ δ ε ι : Type}

namespace Kernel

variable {k k' : Kernel τ σ κ ε} {main : τ} {s s' : σ} {t : τ}

/-- The next call that the thread `t` has to complete is `P` on `s`. -/
def AtP (k : Kernel τ σ κ ε) (s : σ) (t : τ) : Prop := ∃ rest, k.tasks t = .p s :: rest

theorem AtP.unique (h : k.AtP s t) (h' : k.AtP s' t) : s = s' := by
  obtain ⟨rest, h⟩ := h
  obtain ⟨rest', h'⟩ := h'
  rw [h] at h'
  injection h' with hp
  injection hp

/-- The queues fit the calls that the threads have still to complete. -/
structure Waiting (main : τ) (k : Kernel τ σ κ ε) : Prop where
  fresh : ∀ t ≠ main, t ∉ k.history.forked → k.tasks t = []
  atP : ∀ {s t}, t ∈ (k.semaphore s).queue → k.AtP s t
  awake : ∀ s, (k.semaphore s).queue ≠ [] → ∃ l : List τ, l.Nodup ∧
    (∀ t ∈ l, k.AtP s t ∧ t ∉ (k.semaphore s).queue) ∧ (k.semaphore s).value ≤ l.length

namespace Waiting

theorem boot [DecidableEq τ] (main : τ) (start : κ) (value : σ → ℕ) (env : ε) :
    Waiting main (boot main start value env) := by
  refine ⟨fun t ht _ => ?_, fun h => ?_, fun s h => ?_⟩
  · simp [tasks, Threads.boot, update_of_ne ht]
  · simp [Threads.boot] at h
  · simp [Threads.boot] at h

/-- If every thread that is in `P` on `s` sleeps in the queue, no unit is left. -/
theorem value_eq_zero (h : k.Waiting main) (hq : (k.semaphore s).queue ≠ [])
    (hnonneg : 0 ≤ (k.semaphore s).value)
    (hall : ∀ t, k.AtP s t → t ∈ (k.semaphore s).queue) : (k.semaphore s).value = 0 := by
  obtain ⟨l, -, hl, hle⟩ := h.awake s hq
  have hnil : l = [] := by
    refine List.eq_nil_iff_forall_not_mem.2 fun t ht => ?_
    exact (hl t ht).2 (hall t (hl t ht).1)
  rw [hnil] at hle
  exact le_antisymm (by simpa using hle) hnonneg

end Waiting

/-- A thread that executes a call, or tests the value of a semaphore again, is running. -/
theorem Sound.settled_of_calling (h : k.Sound main) {f : Frame τ σ κ} {fs : List (Frame τ σ κ)}
    (hst : k.stack k.currentThread = f :: fs)
    (hf : (∃ call, f = .call call) ∨ ∃ s, f = .retest s) : k.Settled main .executing := by
  obtain ⟨ph, hset, hctl⟩ := h
  cases hctl with
  | client | kernel => exact hset
  | sleepLoop _ hs _ | run _ hs _ =>
    rw [hs] at hst
    injection hst with he
    rcases hf with ⟨call, rfl⟩ | ⟨s, rfl⟩ <;> cases he

/-- What a step does to the stacks. -/
theorem Sound.advances_of_step [DecidableEq τ] [DecidableEq σ] (h : k.Sound main)
    {c : Client τ σ κ δ ε ι} {i : Input δ ι} (hw : k.step c i = .ok k') :
    ∃ f fs, k.Advances k' f fs :=
  Kernel.advances_of_step (fun _ _ hst => by
    simp [(h.settled_of_calling hst (.inl ⟨_, rfl⟩)).status_current]) hw

/-- A thread that executes a call has only calls to execute. -/
theorem Sound.isClientCode (h : k.Sound main) {call : Call τ σ κ} {fs : List (Frame τ σ κ)}
    (hst : k.stack k.currentThread = .call call :: fs) : IsClientCode (.call call :: fs) := by
  obtain ⟨ph, -, hctl⟩ := h
  cases hctl with
  | client _ hs => exact hst ▸ hs
  | kernel _ hs =>
    rw [hst] at hs
    cases hs with
    | fresh hr => cases hr
  | sleepLoop _ hs _ | run _ hs _ => cases hst.symm.trans hs

theorem Settled.current_notMem_queue (h : k.Settled main .executing) (s : σ) :
    k.currentThread ∉ (k.semaphore s).queue :=
  h.placement.notMem_queue (t := k.currentThread) (by simp [places, h.status_current]) s

theorem Settled.current_forked (h : k.Settled main .executing) :
    k.currentThread = main ∨ k.currentThread ∈ k.history.forked :=
  (h.forked_iff _).2 (by simp [h.status_current])

/-- A thread that is running has not finished. -/
theorem Settled.current_notMem_finished (h : k.Settled main .executing) :
    k.currentThread ∉ k.history.finished :=
  fun hf => (h.nowhere (.inl hf)).2.1 rfl

namespace Waiting

/-- The current thread makes progress outside `P`; the queues stay as they are. -/
private theorem of_update [DecidableEq τ] (h : k.Waiting main) {c : τ} {rest : List (Call τ σ κ)}
    (hcur : c = main ∨ c ∈ k.history.forked) (hnotP : ∀ s, ¬ k.AtP s c)
    (htasks : k'.tasks = update k.tasks c rest) (hsem : k'.semaphore = k.semaphore)
    (hforked : k'.history.forked = k.history.forked) : k'.Waiting main := by
  have hat : ∀ {s t}, k.AtP s t → k'.AtP s t := by
    intro s t ht
    have hne : t ≠ c := fun he => hnotP s (he ▸ ht)
    simpa [AtP, htasks, hne] using ht
  refine ⟨fun t ht hf => ?_, fun {s t} ht => ?_, fun s hs => ?_⟩
  · rw [hforked] at hf
    have hne : t ≠ c := by
      rintro rfl
      exact hcur.elim ht hf
    simpa [htasks, hne] using h.fresh t ht hf
  · rw [hsem] at ht
    exact hat (h.atP ht)
  · rw [hsem] at hs ⊢
    obtain ⟨l, hnd, hl, hle⟩ := h.awake s hs
    exact ⟨l, hnd, fun t ht => ⟨hat (hl t ht).1, (hl t ht).2⟩, hle⟩

private theorem not_atP_of_head {call : Call τ σ κ} {rest : List (Call τ σ κ)}
    (h : k.tasks t = call :: rest) (hcall : ∀ s, call ≠ .p s) (s : σ) : ¬ k.AtP s t := by
  rintro ⟨rest', h'⟩
  rw [h] at h'
  injection h' with he
  exact hcall s he

variable [DecidableEq τ]

private theorem of_fork (h : k.Waiting main) {c : τ} {func : κ} {rest : List (Call τ σ κ)}
    (hcur : c = main ∨ c ∈ k.history.forked) (hc : k.tasks c = .fork t func :: rest)
    (ht : t ≠ main ∧ t ∉ k.history.forked)
    (htasks : k'.tasks = update (update k.tasks c rest) t [.code func, .finish])
    (hsem : k'.semaphore = k.semaphore)
    (hforked : k'.history.forked = k.history.forked ++ [t]) : k'.Waiting main := by
  have hat : ∀ {s u}, k.AtP s u → k'.AtP s u := by
    intro s u hu
    have hne : u ≠ c := fun he => not_atP_of_head hc (by simp) s (he ▸ hu)
    have hne' : u ≠ t := by
      rintro rfl
      obtain ⟨rest', hu⟩ := hu
      simp [h.fresh u ht.1 ht.2] at hu
    simpa [AtP, htasks, hne, hne'] using hu
  refine ⟨fun u hu hf => ?_, fun {s u} hu => ?_, fun s hs => ?_⟩
  · simp only [hforked, List.mem_append, List.mem_singleton, not_or] at hf
    have hne : u ≠ c := by
      rintro rfl
      exact hcur.elim hu hf.1
    simpa [htasks, hne, hf.2] using h.fresh u hu hf.1
  · rw [hsem] at hu
    exact hat (h.atP hu)
  · rw [hsem] at hs ⊢
    obtain ⟨l, hnd, hl, hle⟩ := h.awake s hs
    exact ⟨l, hnd, fun u hu => ⟨hat (hl u hu).1, (hl u hu).2⟩, hle⟩

variable [DecidableEq σ]

omit [DecidableEq τ] in
/-- `P` puts a thread into the queue: the value is 0, so nobody needs to be awake. -/
private theorem of_wait (h : k.Waiting main) {c : τ} (hc : k.AtP s c)
    (hvalue : (k.semaphore s).value = 0) (htasks : k'.tasks = k.tasks)
    (hsem : k'.semaphore = update k.semaphore s
      { k.semaphore s with queue := (k.semaphore s).queue ++ [c] })
    (hforked : k'.history.forked = k.history.forked) : k'.Waiting main := by
  have hat : ∀ {s t}, k'.AtP s t ↔ k.AtP s t := by simp [AtP, htasks]
  refine ⟨fun t ht hf => ?_, fun {s' t} ht => ?_, fun s' hs => ?_⟩
  · rw [hforked] at hf
    exact htasks ▸ h.fresh t ht hf
  · rw [hat]
    by_cases hs : s' = s
    · subst hs
      simp only [hsem, update_self, List.mem_append, List.mem_singleton] at ht
      rcases ht with ht | rfl
      · exact h.atP ht
      · exact hc
    · rw [hsem, update_of_ne hs] at ht
      exact h.atP ht
  · by_cases hs' : s' = s
    · subst hs'
      exact ⟨[], List.nodup_nil, by simp, by simp [hsem, hvalue]⟩
    · rw [hsem, update_of_ne hs'] at hs ⊢
      obtain ⟨l, hnd, hl, hle⟩ := h.awake s' hs
      exact ⟨l, hnd, fun t ht => ⟨hat.2 (hl t ht).1, (hl t ht).2⟩, hle⟩

/-- `P` takes a unit: there is one thread less that is in `P` and awake. -/
private theorem of_take (h : k.Waiting main) {c : τ} {rest : List (Call τ σ κ)}
    (hcur : c = main ∨ c ∈ k.history.forked) (hq : ∀ s, c ∉ (k.semaphore s).queue)
    (hc : k.tasks c = .p s :: rest) (htasks : k'.tasks = update k.tasks c rest)
    (hsem : k'.semaphore = update k.semaphore s
      { k.semaphore s with value := (k.semaphore s).value - 1 })
    (hforked : k'.history.forked = k.history.forked) : k'.Waiting main := by
  have hat : ∀ {s t}, t ≠ c → k.AtP s t → k'.AtP s t := by
    intro s t hne ht
    simpa [AtP, htasks, hne] using ht
  have hqueue : ∀ s', (k'.semaphore s').queue = (k.semaphore s').queue := by
    intro s'
    by_cases hs : s' = s
    · subst hs
      simp [hsem]
    · simp [hsem, hs]
  refine ⟨fun t ht hf => ?_, fun {s' t} ht => ?_, fun s' hs => ?_⟩
  · rw [hforked] at hf
    have hne : t ≠ c := by
      rintro rfl
      exact hcur.elim ht hf
    simpa [htasks, hne] using h.fresh t ht hf
  · rw [hqueue] at ht
    exact hat (fun he => hq s' (he ▸ ht)) (h.atP ht)
  · rw [hqueue] at hs ⊢
    obtain ⟨l, hnd, hl, hle⟩ := h.awake s' hs
    refine ⟨l.erase c, hnd.erase c, fun t ht => ?_, ?_⟩
    · obtain ⟨hne, ht⟩ := hnd.mem_erase_iff.1 ht
      exact ⟨hat hne (hl t ht).1, (hl t ht).2⟩
    · by_cases hs' : s' = s
      · subst hs'
        have hlen : l.length ≤ (l.erase c).length + 1 := by
          rw [List.length_erase]
          split <;> omega
        simp only [hsem, update_self]
        omega
      · have hnot : c ∉ l := fun hl' => hs' ((hl c hl').1.unique ⟨rest, hc⟩)
        rw [List.erase_of_not_mem hnot, hsem, update_of_ne hs']
        exact hle

/-- `V` takes the first thread off the queue: it is in `P` and awake from now on. -/
private theorem of_wake (h : k.Waiting main) {c : τ} {rest : List (Call τ σ κ)}
    (hcur : c = main ∨ c ∈ k.history.forked) (hnd : (k.semaphore s).queue.Nodup)
    (hc : k.tasks c = .v s :: rest) (htasks : k'.tasks = update k.tasks c rest)
    (hsem : k'.semaphore = update k.semaphore s
      ⟨(k.semaphore s).value + 1, (k.semaphore s).queue.tail⟩)
    (hforked : k'.history.forked = k.history.forked) : k'.Waiting main := by
  have hat : ∀ {s t}, k.AtP s t → k'.AtP s t := by
    intro s t ht
    have hne : t ≠ c := fun he => not_atP_of_head hc (by simp) s (he ▸ ht)
    simpa [AtP, htasks, hne] using ht
  refine ⟨fun t ht hf => ?_, fun {s' t} ht => ?_, fun s' hs => ?_⟩
  · rw [hforked] at hf
    have hne : t ≠ c := by
      rintro rfl
      exact hcur.elim ht hf
    simpa [htasks, hne] using h.fresh t ht hf
  · by_cases hs : s' = s
    · subst hs
      rw [hsem, update_self] at ht
      exact hat (h.atP (List.mem_of_mem_tail ht))
    · rw [hsem, update_of_ne hs] at ht
      exact hat (h.atP ht)
  · by_cases hs' : s' = s
    · subst hs'
      simp only [hsem, update_self] at hs ⊢
      cases hqu : (k.semaphore s').queue with
      | nil => simp [hqu] at hs
      | cons u q =>
        have hu : u ∈ (k.semaphore s').queue := by simp [hqu]
        obtain ⟨l, hlnd, hl, hle⟩ := h.awake s' (List.ne_nil_of_mem hu)
        rw [hqu, List.nodup_cons] at hnd
        refine ⟨u :: l, List.nodup_cons.2 ⟨fun hul => (hl u hul).2 hu, hlnd⟩, ?_, ?_⟩
        · simp only [List.mem_cons, List.tail_cons, forall_eq_or_imp]
          refine ⟨⟨hat (h.atP hu), hnd.1⟩, fun t ht => ⟨hat (hl t ht).1, fun htq => ?_⟩⟩
          exact (hl t ht).2 (by simp [hqu, htq])
        · simp only [List.length_cons]
          push_cast
          omega
    · rw [hsem, update_of_ne hs'] at hs ⊢
      obtain ⟨l, hlnd, hl, hle⟩ := h.awake s' hs
      exact ⟨l, hlnd, fun t ht => ⟨hat (hl t ht).1, (hl t ht).2⟩, hle⟩

/-- A step keeps the invariant of the queues. -/
theorem step [IsEmpty δ] (h : k.Waiting main) (hsound : k.Sound main)
    {c : Client τ σ κ δ ε ι} {i : Input δ ι} (hw : k.step c i = .ok k') : k'.Waiting main := by
  cases progress_of_step hw with
  | exec code rest fs calls hstack hstack' hexec htask htasks hsem hforked hcur =>
    have hset := hsound.settled_of_calling hstack (.inl ⟨_, rfl⟩)
    exact h.of_update hset.current_forked (not_atP_of_head htask (by simp)) htasks hsem hforked
  | fork t func rest fs hstack htask hnew htasks hsem henv hforked hcur =>
    have hset := hsound.settled_of_calling hstack (.inl ⟨_, rfl⟩)
    have ht : ¬ (t = main ∨ t ∈ k.history.forked) := by
      rw [hset.forked_iff]
      exact fun hne => hne hnew
    exact h.of_fork hset.current_forked htask (not_or.1 ht) htasks hsem hforked
  | wait s rest fs hstack htask hvalue htasks hsem henv hforked hcur =>
    exact h.of_wait ⟨rest, htask⟩ hvalue htasks hsem hforked
  | take s rest fs hstack htask hvalue htasks hsem henv hforked hcur =>
    obtain ⟨f, hf, hcall⟩ : ∃ f, k.stack k.currentThread = f :: fs ∧
        ((∃ call, f = .call call) ∨ ∃ s, f = .retest s) := by
      rcases hstack with hst | hst
      · exact ⟨_, hst, .inl ⟨_, rfl⟩⟩
      · exact ⟨_, hst, .inr ⟨_, rfl⟩⟩
    have hset := hsound.settled_of_calling hf hcall
    exact h.of_take hset.current_forked hset.current_notMem_queue htask htasks hsem hforked
  | wake s rest fs hstack htask htasks hsem henv hforked hcur =>
    have hset := hsound.settled_of_calling hstack (.inl ⟨_, rfl⟩)
    exact h.of_wake hset.current_forked (hset.placement.queue_nodup s) htask htasks hsem hforked
  | retire call rest fs hcall hstack htask htasks hsem henv hforked hcur =>
    have hset := hsound.settled_of_calling hstack (.inl ⟨_, rfl⟩)
    refine h.of_update hset.current_forked (not_atP_of_head htask ?_) htasks hsem hforked
    rcases hcall with rfl | rfl <;> simp
  | internal htasks hsem henv hforked =>
    have hat : ∀ {s t}, k'.AtP s t ↔ k.AtP s t := by simp [AtP, htasks]
    refine ⟨fun t ht hf => htasks ▸ h.fresh t ht (hforked ▸ hf), fun ht => ?_, fun s hs => ?_⟩
    · exact hat.2 (h.atP (hsem ▸ ht))
    · rw [hsem] at hs ⊢
      obtain ⟨l, hnd, hl, hle⟩ := h.awake s hs
      exact ⟨l, hnd, fun t ht => ⟨hat.2 (hl t ht).1, (hl t ht).2⟩, hle⟩

end Waiting

end Kernel

end Nachos.Threads
