import Nachos.Threads.Placement

/-!
# Semaphores neither lose wakeups nor over-admit

`V` adds a unit and takes a thread off the queue; `P` tests the value again when it is woken up,
so that another thread can have taken the unit in between. What keeps a waiting thread from
being forgotten is that, as long as a thread waits, the units do not outnumber the threads that
have been woken up and have not tested the value yet.

## Main definitions

* `Counted`: the invariant of one semaphore.
* `Kernel.SemaphoresCounted`: the invariant of all semaphores.

## Main results

* `Counted.wait`, `Counted.take`, `Counted.signal`, `Counted.wakeup`: what `P` and `V` do to one
  semaphore keeps its invariant.
* `Kernel.SemaphoresCounted.step`: so does a step of the kernel, for every semaphore.
* `semaphore_count_of_reachable`: the invariant holds in every state of every run.
-/

namespace Nachos.Threads

open Function Foundations StepSystem

variable {τ σ κ δ ε ι : Type}

/-! ### One semaphore -/

/-- The value of a semaphore with the initial value `init`, after `ups` calls of `V` and `downs`
completed calls of `P`, when the threads in `woken` have been taken off the queue and have not
tested the value since. -/
structure Counted (init ups downs : ℕ) (woken : List τ) (sem : Semaphore τ) : Prop where
  nonneg : 0 ≤ sem.value
  balance : sem.value = init + ups - downs
  woken_nodup : woken.Nodup
  notMem_queue : ∀ t ∈ woken, t ∉ sem.queue
  le_woken : sem.queue ≠ [] → sem.value ≤ woken.length

namespace Counted

variable {init ups downs : ℕ} {woken : List τ} {sem : Semaphore τ}

theorem initial (init : ℕ) : Counted init 0 0 ([] : List τ) ⟨init, []⟩ := by
  constructor <;> simp

/-- `V` with no thread waiting. -/
theorem signal (h : Counted init ups downs woken sem) (hq : sem.queue = []) :
    Counted init (ups + 1) downs woken { sem with value := sem.value + 1 } := by
  have h₁ := h.nonneg
  have h₂ := h.balance
  refine ⟨?_, ?_, h.woken_nodup, h.notMem_queue, fun hne => absurd hq hne⟩
  · simp only
    omega
  · push_cast
    omega

/-- `V` wakes up the first waiting thread. -/
theorem wakeup (h : Counted init ups downs woken sem) {t : τ} {q : List τ}
    (hq : sem.queue = t :: q) (hnd : sem.queue.Nodup) :
    Counted init (ups + 1) downs (woken ++ [t]) ⟨sem.value + 1, q⟩ := by
  have h₁ := h.nonneg
  have h₂ := h.balance
  have h₃ := h.le_woken (by simp [hq])
  have ht : t ∉ woken := fun hw => h.notMem_queue t hw (by simp [hq])
  rw [hq, List.nodup_cons] at hnd
  refine ⟨?_, ?_, ?_, fun u hu => ?_, fun _ => ?_⟩
  · simp only
    omega
  · push_cast
    omega
  · simpa [List.nodup_append, h.woken_nodup] using fun u hu (he : u = t) => ht (he ▸ hu)
  · rcases List.mem_append.1 hu with hu | hu
    · exact fun huq => h.notMem_queue u hu (by simp [hq, huq])
    · exact List.mem_singleton.1 hu ▸ hnd.1
  · simp only [List.length_append, List.length_singleton]
    push_cast
    omega

variable [DecidableEq τ]

/-- A thread that finds the value 0 in `P` joins the queue. -/
theorem wait (h : Counted init ups downs woken sem) (hv : sem.value = 0) (t : τ) :
    Counted init ups downs (woken.erase t) { sem with queue := sem.queue ++ [t] } := by
  refine ⟨h.nonneg, h.balance, h.woken_nodup.erase t, fun u hu => ?_, fun _ => ?_⟩
  · rw [h.woken_nodup.mem_erase_iff] at hu
    simpa [hu.1] using h.notMem_queue u hu.2
  · simp [hv]

/-- A thread that finds a unit in `P` takes it. If it had been woken up, there is one woken
thread less, but also one unit less. -/
theorem take (h : Counted init ups downs woken sem) (hv : sem.value ≠ 0) (t : τ) :
    Counted init ups (downs + 1) (woken.erase t) { sem with value := sem.value - 1 } := by
  have h₁ := h.nonneg
  have h₂ := h.balance
  have hlen : woken.length ≤ (woken.erase t).length + 1 := by
    rw [List.length_erase]
    split <;> omega
  refine ⟨?_, ?_, h.woken_nodup.erase t, fun u hu => ?_, fun hq => ?_⟩
  · simp only
    omega
  · push_cast
    omega
  · exact h.notMem_queue u (List.mem_of_mem_erase hu)
  · have h₃ := h.le_woken hq
    simp only
    omega

end Counted

/-! ### All semaphores -/

namespace Kernel

variable {value₀ : σ → ℕ} {k k' : Kernel τ σ κ ε} {main : τ} {ph : Phase τ}

/-- The invariant of the semaphores, whose initial values are `value₀`. -/
def SemaphoresCounted (value₀ : σ → ℕ) (k : Kernel τ σ κ ε) : Prop :=
  ∀ s, Counted (value₀ s) (k.history.ups s) (k.history.downs s) (k.history.woken s) (k.semaphore s)

variable [DecidableEq τ]

theorem SemaphoresCounted.sleep (h : k.SemaphoresCounted value₀) (hw : k.sleep = .ok k') :
    k'.SemaphoresCounted value₀ := by
  obtain ⟨-, rfl⟩ := sleep_eq_ok hw
  exact h

variable [DecidableEq σ]

theorem SemaphoresCounted.pLoop (h : k.SemaphoresCounted value₀) {s : σ}
    (hw : k.pLoop s = .ok k') : k'.SemaphoresCounted value₀ := by
  intro s'
  unfold Kernel.pLoop at hw
  split_ifs at hw with hv
  · obtain ⟨-, rfl⟩ := sleep_eq_ok hw
    by_cases hs : s' = s
    · subst hs
      simpa using (h s').wait hv k.currentThread
    · simpa [hs] using h s'
  · obtain rfl := Except.ok.inj hw
    by_cases hs : s' = s
    · subst hs
      simpa using (h s').take hv k.currentThread
    · simpa [hs] using h s'

/-- `V` adds the unit for which its call has been counted. -/
theorem SemaphoresCounted.wake (h : k.SemaphoresCounted value₀) (hset : k.Settled main ph)
    (s : σ) : ((k.countUp s).wake s).SemaphoresCounted value₀ := by
  intro s'
  unfold Kernel.wake
  split
  · rename_i hq
    by_cases hs : s' = s
    · subst hs
      simpa using (h s').signal hq
    · simpa [hs] using h s'
  · rename_i t q hq
    by_cases hs : s' = s
    · subst hs
      simpa using (h s').wakeup hq (hset.placement.queue_nodup s')
    · simpa [hs] using h s'

theorem SemaphoresCounted.runHandlers (h : k.SemaphoresCounted value₀)
    (hset : k.Settled main ph) (c : Client τ σ κ δ ε ι) (is : List (Interrupt δ)) :
    (runHandlers c is k).SemaphoresCounted value₀ := by
  induction is generalizing k with
  | nil => exact h
  | cons i is ih =>
    cases i with
    | timer => exact ih h (hset.setEnv _)
    | device d =>
      have hset' := hset.setEnv (c.delayedLoad k.env)
      exact ih (SemaphoresCounted.wake (k := { k with env := c.delayedLoad k.env }) h hset' _)
        ((hset'.countUp _).wake _)

theorem SemaphoresCounted.performCall (h : k.SemaphoresCounted value₀) (hset : k.Settled main ph)
    {c : Client τ σ κ δ ε ι} {i : Input δ ι} {f : Call τ σ κ} (hw : k.performCall c i f = .ok k') :
    k'.SemaphoresCounted value₀ := by
  cases f with
  | p s =>
    unfold Kernel.performCall p at hw
    exact SemaphoresCounted.pLoop (by exact h) hw
  | v s =>
    obtain rfl := Except.ok.inj hw
    exact SemaphoresCounted.wake (k := { k with level := .off }.push [.setLevel k.level]) h
      ((hset.setLevel .off).push _) s
  | fork t func =>
    simp only [Kernel.performCall, fork] at hw
    split_ifs at hw
    obtain rfl := Except.ok.inj hw
    exact h
  | yield =>
    obtain rfl := Except.ok.inj hw
    unfold yield
    split <;> exact h
  | sleep =>
    unfold Kernel.performCall sleepDirectly at hw
    exact SemaphoresCounted.sleep (by exact h) hw
  | finish =>
    unfold Kernel.performCall finish at hw
    exact SemaphoresCounted.sleep (by exact h) hw
  | oneTick =>
    obtain rfl := Except.ok.inj hw
    have h' := SemaphoresCounted.runHandlers (k := { k with level := .off }) h
      (hset.setLevel .off) c i.interrupts
    unfold oneTick
    split_ifs <;> exact h'
  | code code =>
    simp only [Kernel.performCall, exec] at hw
    cases hx : c.exec k.currentThread code i.code k.env with
    | error e => simp [hx, Except.map] at hw
    | ok r =>
      rw [hx] at hw
      obtain rfl := Except.ok.inj hw
      exact h

theorem SemaphoresCounted.sleepLoop (h : k.SemaphoresCounted value₀) (hset : k.Settled main ph)
    {c : Client τ σ κ δ ε ι} {is : List (Interrupt δ)} (hw : k.sleepLoop c is = .ok k') :
    k'.SemaphoresCounted value₀ := by
  unfold Kernel.sleepLoop idle at hw
  split at hw
  · split_ifs at hw
    · cases hw
    · obtain rfl := Except.ok.inj hw
      exact h.runHandlers hset c is
  · obtain rfl := Except.ok.inj hw
    exact h

theorem SemaphoresCounted.perform (h : k.SemaphoresCounted value₀) (hset : k.Settled main ph)
    {c : Client τ σ κ δ ε ι} {i : Input δ ι} {f : Frame τ σ κ} (hw : k.perform c i f = .ok k') :
    k'.SemaphoresCounted value₀ := by
  cases f with
  | call f => exact h.performCall hset hw
  | setLevel now =>
    obtain rfl := Except.ok.inj hw
    unfold Kernel.setLevel
    split_ifs <;> exact h
  | retest s => exact h.pLoop hw
  | sleepLoop => exact h.sleepLoop hset hw
  | run next =>
    obtain rfl := Except.ok.inj hw
    exact h
  | afterSwitch =>
    simp only [Kernel.perform, afterSwitch] at hw
    split at hw
    · obtain rfl := Except.ok.inj hw
      exact h
    · split_ifs at hw
      obtain rfl := Except.ok.inj hw
      exact h

/-- A step keeps the invariant of the semaphores. -/
theorem SemaphoresCounted.step (h : k.SemaphoresCounted value₀) (hsound : k.Sound main)
    {c : Client τ σ κ δ ε ι} {i : Input δ ι} (hw : k.step c i = .ok k') :
    k'.SemaphoresCounted value₀ := by
  obtain ⟨ph, hset, -⟩ := hsound
  unfold Kernel.step at hw
  split at hw
  · cases hw
  · exact SemaphoresCounted.perform (by exact h) (hset.setStack _) hw

end Kernel

/-- In every state of every run the value of a semaphore is not negative, it is the initial value
plus the number of calls of `V` minus the number of completed calls of `P`, and as long as a
thread waits in the queue it is at most the number of threads that `V` has taken off the queue
and that have not tested the value since. -/
theorem semaphore_count_of_reachable [DecidableEq τ] [DecidableEq σ] (c : Client τ σ κ δ ε ι)
    (main : τ) (start : κ) (value₀ : σ → ℕ) (env : ε) (k : Kernel τ σ κ ε)
    (h : (threadSystem c main start value₀ env).Reachable Always k) (s : σ) :
    0 ≤ (k.semaphore s).value ∧
      (k.semaphore s).value = value₀ s + k.history.ups s - k.history.downs s ∧
      ((k.semaphore s).queue ≠ [] → (k.history.woken s).Nodup ∧
        (k.semaphore s).value ≤ (k.history.woken s).length) := by
  have hk : k.Sound main ∧ k.SemaphoresCounted value₀ := by
    refine h.invariant (fun k => k.Sound main ∧ k.SemaphoresCounted value₀) ?_ ?_
    · rintro _ rfl
      exact ⟨Kernel.sound_boot main start value₀ env, fun s => Counted.initial (value₀ s)⟩
    · rintro k i k' ⟨hsound, hcount⟩ - hs
      exact ⟨hsound.step hs, hcount.step hsound hs⟩
  have hs := hk.2 s
  exact ⟨hs.nonneg, hs.balance, fun hq => ⟨hs.woken_nodup, hs.le_woken hq⟩⟩

/-- A client whose initial thread forks two others and calls `P`; the first of them calls `P` too,
and the second one calls `V`. -/
def threeThreads : Client (Fin 3) Unit (Fin 3) Empty Unit Unit where
  exec _ code _ env := .ok (env, if code = 0 then [.fork 1 1, .fork 2 2, .p ()]
    else if code = 1 then [.p ()] else [.v ()])
  saveState _ env := env
  restoreState _ env := env
  delayedLoad env := env
  handler := Empty.elim

/-- Two threads wait, and `V` takes the first of them off the queue: it has not tested the unit
yet. -/
theorem semaphore_count_of_threeThreads :
    ∃ k, (threadSystem threeThreads 0 0 (fun _ => 0) ()).Reachable Always k ∧
      (k.semaphore ()).queue = [1] ∧ k.history.woken () = [0] ∧ k.history.ups () = 1 ∧
      (k.semaphore ()).value = 1 - k.history.downs () ∧ 0 ≤ (k.semaphore ()).value ∧
      (k.semaphore ()).value ≤ 1 := by
  obtain ⟨k, hk, ht⟩ := exists_reachable_of_runInputs
    (S := threadSystem threeThreads 0 0 (fun _ => 0) ()) rfl (List.replicate 20 ⟨[], ()⟩)
    (fun k => decide ((k.semaphore ()).queue = [1] ∧ k.history.woken () = [0] ∧
      k.history.ups () = 1)) (by decide)
  obtain ⟨hq, hwoken, hups⟩ := of_decide_eq_true ht
  obtain ⟨hnonneg, hvalue, hle⟩ :=
    semaphore_count_of_reachable threeThreads 0 0 (fun _ => 0) () k hk ()
  rw [hups] at hvalue
  have hle' := (hle (by simp [hq])).2
  rw [hwoken] at hle'
  exact ⟨k, hk, hq, hwoken, hups, by simpa using hvalue, hnonneg, hle'⟩

end Nachos.Threads
