import Mathlib.Data.List.Nodup
import Mathlib.Data.Set.Insert
import Nachos.Threads.Kernel

/-!
# Where the threads are

The kernel keeps the place of a thread in three kinds of data that different functions update:
the status field, the ready list and the semaphore queues. This file collects them in one record
(`Places`) and states how they fit together (`Placement`): the status of a thread determines the
list it is on. Between `Sleep` and `Run`, or within `Yield`, no thread has the status `running`;
the phase of the current thread (`Phase`) records that.

Each operation of the kernel on these data has one lemma, which says that it keeps them fitting.

## Main definitions

* `Places`, `Phase`, `Placement`.

## Main results

* `Placement.wake`, `Placement.enqueue`, `Placement.retire`, `Placement.yield`,
  `Placement.choose`, `Placement.dispatch`, `Placement.fork`.
-/

namespace Nachos.Threads

open Function

variable {τ σ : Type}

/-- The data that record where threads are. -/
structure Places (τ σ : Type) where
  current : τ
  ready : List τ
  queue : σ → List τ
  status : τ → ThreadStatus
  /-- The threads that sleep for good: those that have called `Finish`, and those that have called
  `Sleep` themselves. -/
  gone : Set τ

/-- What the current thread is doing: executing code, looking for a thread to run, or calling
`Run` for `next`, which is on no list any more. -/
inductive Phase (τ : Type)
  | executing
  | sleeping
  | switching (next : τ)

/-- The status of every thread names the place where it is. -/
structure Placement (pl : Places τ σ) (ph : Phase τ) : Prop where
  ready_nodup : pl.ready.Nodup
  queue_nodup : ∀ s, (pl.queue s).Nodup
  queue_unique : ∀ {s s' t}, t ∈ pl.queue s → t ∈ pl.queue s' → s = s'
  running_iff : ∀ t, pl.status t = .running ↔ t = pl.current ∧ ph = .executing
  ready_iff : ∀ t, pl.status t = .ready ↔ t ∈ pl.ready ∨ ph = .switching t
  next_notMem : ∀ {t}, ph = .switching t → t ∉ pl.ready
  blocked_iff : ∀ t, pl.status t = .blocked ↔
    (∃ s, t ∈ pl.queue s) ∨ t ∈ pl.gone
  gone_notMem : ∀ {t}, t ∈ pl.gone → ∀ s, t ∉ pl.queue s

namespace Placement

variable {pl : Places τ σ} {ph : Phase τ}

theorem status_of_mem_ready (h : Placement pl ph) {t : τ} (ht : t ∈ pl.ready) :
    pl.status t = .ready :=
  (h.ready_iff t).2 (.inl ht)

theorem status_of_mem_queue (h : Placement pl ph) {s : σ} {t : τ} (ht : t ∈ pl.queue s) :
    pl.status t = .blocked :=
  (h.blocked_iff t).2 (.inl ⟨s, ht⟩)

theorem status_of_mem_gone (h : Placement pl ph) {t : τ} (ht : t ∈ pl.gone) :
    pl.status t = .blocked :=
  (h.blocked_iff t).2 (.inr ht)

theorem status_current (h : Placement pl .executing) : pl.status pl.current = .running :=
  (h.running_iff _).2 ⟨rfl, rfl⟩

theorem status_next {t : τ} (h : Placement pl (.switching t)) : pl.status t = .ready :=
  (h.ready_iff t).2 (.inr rfl)

/-- A thread of another status is on no queue. -/
theorem notMem_queue (h : Placement pl ph) {t : τ} (ht : pl.status t ≠ .blocked) (s : σ) :
    t ∉ pl.queue s :=
  fun hs => ht (h.status_of_mem_queue hs)

theorem notMem_ready (h : Placement pl ph) {t : τ} (ht : pl.status t ≠ .ready) :
    t ∉ pl.ready :=
  fun hr => ht (h.status_of_mem_ready hr)

/-! ### The moves of the kernel -/

/-- Only the initial thread runs. -/
theorem initial [DecidableEq τ] (main : τ) :
    Placement (σ := σ) ⟨main, [], fun _ => [], update (fun _ => .justCreated) main .running, ∅⟩
      .executing := by
  have hst : ∀ t, t = main ∨ update (fun _ => ThreadStatus.justCreated) main .running t =
      .justCreated := fun t => by
    by_cases ht : t = main
    · exact .inl ht
    · exact .inr (update_of_ne ht _ _)
  refine ⟨?_, ?_, ?_, fun t => ?_, fun t => ?_, ?_, fun t => ?_, ?_⟩
  · simp
  · simp
  · simp
  · rcases hst t with rfl | ht
    · simp
    · have hne : t ≠ main := by
        rintro rfl
        simp at ht
      simp [hne]
  · rcases hst t with rfl | ht <;> simp [*]
  · nofun
  · rcases hst t with rfl | ht <;> simp [*]
  · simp

/-- The loop of `Sleep` takes the first thread off the ready list. -/
theorem choose (h : Placement pl .sleeping) {n : τ} {rest : List τ} (hr : pl.ready = n :: rest) :
    Placement { pl with ready := rest } (.switching n) := by
  have hnd : n ∉ rest ∧ rest.Nodup := by simpa [hr] using h.ready_nodup
  constructor
  · exact hnd.2
  · exact h.queue_nodup
  · exact h.queue_unique
  · intro t
    simpa using h.running_iff t
  · intro t
    have := h.ready_iff t
    simp only [hr, List.mem_cons, reduceCtorEq, or_false] at this
    simp [this, or_comm, eq_comm]
  · intro t ht
    obtain rfl := Phase.switching.inj ht
    exact hnd.1
  · exact h.blocked_iff
  · exact h.gone_notMem

variable [DecidableEq τ]

/-- `Run` gives the processor to the next thread. -/
theorem dispatch {n : τ} (h : Placement pl (.switching n)) :
    Placement { pl with current := n, status := update pl.status n .running } .executing := by
  have hn := h.status_next
  constructor
  · exact h.ready_nodup
  · exact h.queue_nodup
  · exact h.queue_unique
  · intro t
    rcases eq_or_ne t n with rfl | hne
    · simp
    · have := (h.running_iff t).not.2 (by simp)
      simp [this, hne]
  · intro t
    rcases eq_or_ne t n with rfl | hne
    · simpa using h.next_notMem rfl
    · simpa [update_of_ne hne, hne.symm] using h.ready_iff t
  · nofun
  · intro t
    rcases eq_or_ne t n with rfl | hne
    · have := (h.blocked_iff t).not.1 (by simp [hn])
      simpa using this
    · simpa [update_of_ne hne] using h.blocked_iff t
  · exact h.gone_notMem

/-- A current thread that gets another status leaves the processor. -/
theorem running_iff_of_leave (h : Placement pl .executing) {st : ThreadStatus}
    (hst : st ≠ .running) (hph : ph ≠ .executing) (t : τ) :
    update pl.status pl.current st t = .running ↔ t = pl.current ∧ ph = .executing := by
  rcases eq_or_ne t pl.current with rfl | hne
  · simp [hst, hph]
  · have hnot := (h.running_iff t).not.2 fun hr => hne hr.1
    simp [hnot, hne]

/-- The ready list is as before when the current thread goes to sleep. -/
theorem ready_iff_of_sleep (h : Placement pl .executing) (t : τ) :
    update pl.status pl.current .blocked t = .ready ↔
      t ∈ pl.ready ∨ Phase.sleeping = .switching t := by
  rcases eq_or_ne t pl.current with rfl | hne
  · simpa using h.notMem_ready (by simp [h.status_current])
  · simpa [update_of_ne hne] using h.ready_iff t

/-- `Yield` puts the current thread at the end of the ready list and takes the first thread
off it. -/
theorem yield (h : Placement pl .executing) {n : τ} {rest : List τ} (hr : pl.ready = n :: rest) :
    Placement { pl with
      ready := rest ++ [pl.current]
      status := update pl.status pl.current .ready } (.switching n) := by
  have hcur := h.status_current
  have hnd : n ∉ rest ∧ rest.Nodup := by simpa [hr] using h.ready_nodup
  have hcr := h.notMem_ready (t := pl.current) (by simp [hcur])
  rw [hr, List.mem_cons, not_or] at hcr
  constructor
  · simpa [List.nodup_append, hnd.2] using fun t ht (he : t = pl.current) => hcr.2 (he ▸ ht)
  · exact h.queue_nodup
  · exact h.queue_unique
  · exact h.running_iff_of_leave nofun nofun
  · intro t
    rcases eq_or_ne t pl.current with rfl | hne
    · simp
    · have := h.ready_iff t
      simp only [hr, List.mem_cons, reduceCtorEq, or_false] at this
      simp [this, hne, or_comm, eq_comm]
  · intro t ht hmem
    obtain rfl := Phase.switching.inj ht
    rcases List.mem_append.1 hmem with hmem | hmem
    · exact hnd.1 hmem
    · exact hcr.1 (List.mem_singleton.1 hmem).symm
  · intro t
    rcases eq_or_ne t pl.current with rfl | hne
    · have := (h.blocked_iff pl.current).not.1 (by simp [hcur])
      simpa using this
    · simpa [update_of_ne hne] using h.blocked_iff t
  · exact h.gone_notMem

/-- The current thread goes to sleep for good. -/
theorem retire (h : Placement pl .executing) :
    Placement { pl with
      gone := insert pl.current pl.gone
      status := update pl.status pl.current .blocked } .sleeping := by
  have hcur := h.status_current
  have hnq := h.notMem_queue (t := pl.current) (by simp [hcur])
  constructor
  · exact h.ready_nodup
  · exact h.queue_nodup
  · exact h.queue_unique
  · exact h.running_iff_of_leave nofun nofun
  · exact h.ready_iff_of_sleep
  · nofun
  · intro t
    rcases eq_or_ne t pl.current with rfl | hne
    · simp
    · simpa [update_of_ne hne, hne] using h.blocked_iff t
  · rintro t (rfl | hg) s'
    · exact hnq s'
    · exact h.gone_notMem hg s'

/-- `Fork` puts a new thread on the ready list. -/
theorem fork (h : Placement pl .executing) {t : τ} (ht : pl.status t = .justCreated) :
    Placement { pl with
      ready := pl.ready ++ [t]
      status := update pl.status t .ready } .executing := by
  have htr := h.notMem_ready (t := t) (by simp [ht])
  constructor
  · simpa [List.nodup_append, h.ready_nodup] using fun u hu (he : u = t) => htr (he ▸ hu)
  · exact h.queue_nodup
  · exact h.queue_unique
  · intro u
    rcases eq_or_ne u t with rfl | hne
    · have := (h.running_iff u).not.1 (by simp [ht])
      simpa using this
    · simpa [update_of_ne hne] using h.running_iff u
  · intro u
    rcases eq_or_ne u t with rfl | hne
    · simp
    · simpa [update_of_ne hne, hne] using h.ready_iff u
  · nofun
  · intro u
    rcases eq_or_ne u t with rfl | hne
    · have := (h.blocked_iff u).not.1 (by simp [ht])
      simpa using this
    · simpa [update_of_ne hne] using h.blocked_iff u
  · exact h.gone_notMem

variable [DecidableEq σ]

/-- `V` moves the first waiting thread to the ready list. -/
theorem wake (h : Placement pl ph) {s : σ} {t : τ} {q : List τ} (hq : pl.queue s = t :: q) :
    Placement { pl with
      ready := pl.ready ++ [t]
      queue := update pl.queue s q
      status := update pl.status t .ready } ph := by
  have htq : t ∈ pl.queue s := by simp [hq]
  have hst := h.status_of_mem_queue htq
  have hnd : t ∉ q ∧ q.Nodup := by simpa [hq] using h.queue_nodup s
  have hsub : ∀ {s' u}, u ∈ update pl.queue s q s' ↔ u ∈ pl.queue s' ∧ u ≠ t := by
    intro s' u
    rcases eq_or_ne s' s with rfl | hs
    · rw [update_self, hq, List.mem_cons]
      constructor
      · exact fun hu => ⟨.inr hu, fun he => hnd.1 (he ▸ hu)⟩
      · exact fun ⟨hu, hne⟩ => hu.resolve_left hne
    · rw [update_of_ne hs]
      exact ⟨fun hu => ⟨hu, fun he => hs (h.queue_unique (he ▸ hu) htq)⟩, And.left⟩
  have hphase : ph ≠ .switching t := fun hp => by
    have := (h.ready_iff t).2 (.inr hp)
    simp [hst] at this
  constructor
  · exact List.nodup_append.2 ⟨h.ready_nodup, List.nodup_singleton t,
      fun a ha b hb => by
        rintro rfl
        exact h.notMem_ready (by simp [hst]) (List.mem_singleton.1 hb ▸ ha)⟩
  · intro s'
    rcases eq_or_ne s' s with rfl | hs
    · simpa using hnd.2
    · simpa [update_of_ne hs] using h.queue_nodup s'
  · exact fun hu hu' => h.queue_unique (hsub.1 hu).1 (hsub.1 hu').1
  · intro u
    rcases eq_or_ne u t with rfl | hu
    · have := (h.running_iff u).not.1 (by simp [hst])
      simpa using this
    · simpa [update_of_ne hu] using h.running_iff u
  · intro u
    rcases eq_or_ne u t with rfl | hu
    · simp
    · simpa [update_of_ne hu, hu] using h.ready_iff u
  · intro u hu hmem
    rcases List.mem_append.1 hmem with hmem | hmem
    · exact h.next_notMem hu hmem
    · exact hphase (List.mem_singleton.1 hmem ▸ hu)
  · intro u
    rcases eq_or_ne u t with rfl | hu
    · simpa [hsub] using fun hg => h.gone_notMem hg s htq
    · simpa [update_of_ne hu, hsub, hu] using h.blocked_iff u
  · exact fun hg s' hu => h.gone_notMem hg s' (hsub.1 hu).1

/-- The current thread joins a queue in `P`. -/
theorem enqueue (h : Placement pl .executing) (s : σ) :
    Placement { pl with
      queue := update pl.queue s (pl.queue s ++ [pl.current])
      status := update pl.status pl.current .blocked } .sleeping := by
  have hcur := h.status_current
  have hnq := h.notMem_queue (t := pl.current) (by simp [hcur])
  have hmem : ∀ {s' t}, t ∈ update pl.queue s (pl.queue s ++ [pl.current]) s' ↔
      t ∈ pl.queue s' ∨ t = pl.current ∧ s' = s := by
    intro s' t
    rcases eq_or_ne s' s with rfl | hs
    · simp
    · simp [hs]
  constructor
  · exact h.ready_nodup
  · intro s'
    rcases eq_or_ne s' s with rfl | hs
    · simpa [List.nodup_append, h.queue_nodup] using
        fun t ht (he : t = pl.current) => hnq s' (he ▸ ht)
    · simpa [update_of_ne hs] using h.queue_nodup s'
  · intro s₁ s₂ t h₁ h₂
    rcases hmem.1 h₁ with m₁ | ⟨e₁, rfl⟩ <;> rcases hmem.1 h₂ with m₂ | ⟨e₂, rfl⟩
    · exact h.queue_unique m₁ m₂
    · exact absurd (e₂ ▸ m₁) (hnq _)
    · exact absurd (e₁ ▸ m₂) (hnq _)
    · rfl
  · exact h.running_iff_of_leave nofun nofun
  · exact h.ready_iff_of_sleep
  · nofun
  · intro t
    rcases eq_or_ne t pl.current with rfl | hne
    · simp [hmem]
    · simpa [update_of_ne hne, hmem, hne] using h.blocked_iff t
  · intro t hg s' hs'
    rcases hmem.1 hs' with hs' | ⟨rfl, -⟩
    · exact h.gone_notMem hg s' hs'
    · simpa [hcur] using h.status_of_mem_gone hg

end Placement

end Nachos.Threads
