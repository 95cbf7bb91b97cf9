import Nachos.Foundations.Fifo
import Nachos.Threads.SemaphoreCount
import Nachos.Threads.Tasks

/-!
# Threads run in the order in which they became ready

`Scheduler::ReadyToRun` appends a thread to the ready list and `Scheduler::FindNextToRun` takes the
first one, and `Semaphore::P` and `V` use the queue of a semaphore in the same way. A log of the
calls of `ReadyToRun` and `Run` therefore explains what the ready list holds, and one of the threads
that went to sleep in `P` and that `V` woke up explains the queue of a semaphore. A thread that
yields in vain is not put on the ready list.

## Main definitions

* `Log`, `Kernel.note`: the log of a run.
* `Kernel.chosen`: the thread that is about to be switched to, which is on no list any more.
* `Kernel.Logged`: the log explains the lists.

## Main results

* `Kernel.Logged.step`: one step.
* `threads_run_in_order`: any run.
* `runs_after_readyList`: a ready thread runs after those that are before it on the ready list, and
  before any thread that becomes ready later.
-/

namespace Nachos.Threads

open Function Foundations StepSystem

variable {τ σ κ δ ε ι : Type}

/-- The calls of `ReadyToRun` and `Run`, and the threads that have waited for each semaphore. -/
structure Log (τ σ : Type) where
  ready : FifoLog τ
  waiting : σ → FifoLog τ

/-- Nothing has happened. -/
def Log.empty : Log τ σ := ⟨.empty, fun _ => .empty⟩

/-- A later log. -/
def Log.Continues (l l' : Log τ σ) : Prop :=
  l.ready.Continues l'.ready ∧ ∀ s, (l.waiting s).Continues (l'.waiting s)

namespace Kernel

/-! ### The log of a step -/

section

variable [DecidableEq σ]

/-- `V` wakes up the first thread of the queue. -/
def noteWake (s : σ) (k : Kernel τ σ κ ε) (l : Log τ σ) : Log τ σ :=
  match (k.semaphore s).queue with
  | [] => l
  | t :: _ => ⟨l.ready.enter t, update l.waiting s ((l.waiting s).leave t)⟩

/-- The loop of `P` puts the current thread on the queue. -/
def notePLoop (s : σ) (k : Kernel τ σ κ ε) (l : Log τ σ) : Log τ σ :=
  if (k.semaphore s).value = 0 then
    { l with waiting := update l.waiting s ((l.waiting s).enter k.currentThread) }
  else l

/-- The interrupt handlers call `V`. -/
def noteHandlers [DecidableEq τ] (c : Client τ σ κ δ ε ι) :
    List (Interrupt δ) → Kernel τ σ κ ε → Log τ σ → Log τ σ
  | [], _, l => l
  | .timer :: is, k, l => noteHandlers c is { k with env := c.delayedLoad k.env } l
  | .device d :: is, k, l =>
    let k' := { k with env := c.delayedLoad k.env }
    noteHandlers c is (wake (c.handler d) (countUp (c.handler d) k')) (noteWake (c.handler d) k' l)

/-- What a step adds to the log. -/
def note [DecidableEq τ] (c : Client τ σ κ δ ε ι) (k : Kernel τ σ κ ε) (i : Input δ ι)
    (l : Log τ σ) : Log τ σ :=
  match k.stack k.currentThread with
  | .call (.p s) :: _ | .retest s :: _ => notePLoop s k l
  | .call (.v s) :: _ => noteWake s k l
  | .call (.fork t _) :: _ => { l with ready := l.ready.enter t }
  | .call .yield :: _ =>
    if k.readyList.isEmpty then l else { l with ready := l.ready.enter k.currentThread }
  | .call .oneTick :: _ => noteHandlers c i.interrupts k l
  | .sleepLoop :: _ => if k.readyList.isEmpty then noteHandlers c i.interrupts k l else l
  | .run next :: _ => { l with ready := l.ready.leave next }
  | _ => l

end

/-- The thread for which `Run` is about to be called. -/
def chosen : List (Frame τ σ κ) → List τ
  | .run next :: _ => [next]
  | _ => []

theorem chosen_of_isClientCode {fs : List (Frame τ σ κ)} (h : IsClientCode fs) :
    chosen fs = [] := by
  cases fs with
  | nil => rfl
  | cons f fs =>
    obtain ⟨c, rfl⟩ := h f List.mem_cons_self
    rfl

theorem chosen_of_resumable {fs : List (Frame τ σ κ)} (h : Resumable fs) : chosen fs = [] := by
  cases h <;> rfl

theorem chosen_of_suspended {fs : List (Frame τ σ κ)} (h : Suspended fs) : chosen fs = [] := by
  cases h with
  | fresh h => exact chosen_of_resumable h
  | switched h => rfl

variable {k k' : Kernel τ σ κ ε} {l : Log τ σ} {main : τ} {ts : List τ}

/-! ### The invariant -/

/-- The log explains the ready list, behind threads that have been taken off it, and the queues. -/
structure QueuesLogged (ts : List τ) (k : Kernel τ σ κ ε) (l : Log τ σ) : Prop where
  ready : l.ready.Explains (ts ++ k.readyList)
  waiting : ∀ s, (l.waiting s).Explains (k.semaphore s).queue

/-- The log explains the lists, and the current thread is the last one for which `Run` has been
called. -/
structure Logged (main : τ) (k : Kernel τ σ κ ε) (l : Log τ σ) : Prop where
  queues : QueuesLogged (chosen (k.stack k.currentThread)) k l
  current : k.currentThread = (main :: l.ready.left).getLast (List.cons_ne_nil _ _)

theorem QueuesLogged.congr (h : QueuesLogged ts k l) (hready : k'.readyList = k.readyList)
    (hqueue : ∀ s, (k'.semaphore s).queue = (k.semaphore s).queue) : QueuesLogged ts k' l :=
  ⟨hready ▸ h.ready, fun s => hqueue s ▸ h.waiting s⟩

variable [DecidableEq σ]

theorem QueuesLogged.notePLoop (h : QueuesLogged ts k l) {s : σ}
    (hready : k'.readyList = k.readyList)
    (hsem : (k.semaphore s).value = 0 ∧ k'.semaphore = update k.semaphore s
        { k.semaphore s with queue := (k.semaphore s).queue ++ [k.currentThread] } ∨
      (k.semaphore s).value ≠ 0 ∧ k'.semaphore = update k.semaphore s
        { k.semaphore s with value := (k.semaphore s).value - 1 }) :
    QueuesLogged ts k' (notePLoop s k l) ∧ (notePLoop s k l).ready = l.ready := by
  obtain ⟨hv, hsem⟩ | ⟨hv, hsem⟩ := hsem
  · rw [Kernel.notePLoop, if_pos hv]
    refine ⟨⟨hready ▸ h.ready, fun s' => ?_⟩, rfl⟩
    rw [hsem]
    by_cases hs : s' = s
    · subst hs
      simpa using (h.waiting s').enter k.currentThread
    · simpa [hs] using h.waiting s'
  · rw [Kernel.notePLoop, if_neg hv]
    refine ⟨h.congr hready fun s' => ?_, rfl⟩
    rw [hsem]
    by_cases hs : s' = s
    · subst hs
      simp
    · simp [hs]

variable [DecidableEq τ]

theorem wake_readyList (k : Kernel τ σ κ ε) (s : σ) :
    (k.wake s).readyList = k.readyList ++ (k.semaphore s).queue.head?.toList := by
  unfold wake
  cases (k.semaphore s).queue <;> simp

theorem QueuesLogged.noteWake (h : QueuesLogged ts k l) (s : σ) :
    QueuesLogged ts (k.wake s) (noteWake s k l) := by
  have hqueue (s' : σ) : ((k.wake s).semaphore s').queue =
      if s' = s then (k.semaphore s).queue.tail else (k.semaphore s').queue := by
    rw [wake_semaphore, update_apply]
    split_ifs <;> rfl
  unfold Kernel.noteWake
  cases hq : (k.semaphore s).queue with
  | nil =>
    refine h.congr (by simp [wake_readyList, hq]) fun s' => ?_
    rw [hqueue]
    split_ifs with hs
    · rw [hs, hq]
      rfl
    · rfl
  | cons t q =>
    refine ⟨?_, fun s' => ?_⟩
    · rw [wake_readyList, hq, ← List.append_assoc]
      exact h.ready.enter t
    · dsimp only
      rw [hqueue, update_apply]
      split_ifs with hs
      · have hwaiting := h.waiting s
        rw [hq] at hwaiting ⊢
        exact hwaiting.leave
      · exact h.waiting s'

omit [DecidableEq τ] in
theorem left_noteWake (s : σ) (k : Kernel τ σ κ ε) (l : Log τ σ) :
    (noteWake s k l).ready.left = l.ready.left := by
  unfold noteWake
  split <;> rfl

theorem QueuesLogged.noteHandlers (h : QueuesLogged ts k l) (c : Client τ σ κ δ ε ι)
    (is : List (Interrupt δ)) :
    QueuesLogged ts (runHandlers c is k) (noteHandlers c is k l) := by
  induction is generalizing k l with
  | nil => exact h
  | cons i is ih =>
    cases i with
    | timer => exact ih (h.congr rfl fun _ => rfl)
    | device d =>
      have h' : QueuesLogged ts (countUp (c.handler d) { k with env := c.delayedLoad k.env }) l :=
        h.congr rfl fun _ => rfl
      exact ih (h'.noteWake (c.handler d))

theorem left_noteHandlers (c : Client τ σ κ δ ε ι) (is : List (Interrupt δ)) (k : Kernel τ σ κ ε)
    (l : Log τ σ) : (noteHandlers c is k l).ready.left = l.ready.left := by
  induction is generalizing k l with
  | nil => rfl
  | cons i is ih =>
    cases i with
    | timer => exact ih _ _
    | device d => exact (ih _ _).trans (left_noteWake _ _ _)

/-- Only the queues matter for what the handlers add to the log. -/
theorem noteHandlers_congr (c : Client τ σ κ δ ε ι) (is : List (Interrupt δ))
    (k k' : Kernel τ σ κ ε) (l : Log τ σ) (h : k.semaphore = k'.semaphore) :
    noteHandlers c is k l = noteHandlers c is k' l := by
  induction is generalizing k k' l with
  | nil => rfl
  | cons i is ih =>
    cases i with
    | timer => exact ih _ _ _ h
    | device d =>
      have hnote : noteWake (c.handler d) { k with env := c.delayedLoad k.env } l =
          noteWake (c.handler d) { k' with env := c.delayedLoad k'.env } l := by
        simp only [noteWake, h]
      rw [noteHandlers, noteHandlers, hnote]
      exact ih _ _ _ (by simp only [wake_semaphore, countUp_semaphore, h])

/-! ### One step -/

omit [DecidableEq σ] [DecidableEq τ] in
/-- The current thread has executed a frame other than those that look for a thread to run. -/
theorem chosen_of_control {ph : Phase τ} {f : Frame τ σ κ} {rest : List (Frame τ σ κ)}
    (h : k.Control ph) (hst : k.stack k.currentThread = f :: rest) (hsleep : f ≠ .sleepLoop)
    (hrun : ∀ next, f ≠ .run next) : chosen rest = [] := by
  cases h with
  | client hl hs =>
    rw [hst] at hs
    exact chosen_of_isClientCode (List.forall_mem_cons.1 hs).2
  | kernel hl hs =>
    rw [hst] at hs
    cases hs with
    | fresh h =>
      cases h with
      | restore hc => exact chosen_of_isClientCode hc
      | retest s hc => rfl
    | switched h => exact chosen_of_resumable h
  | sleepLoop hl hs hr => exact absurd (List.cons.inj (hst.symm.trans hs)).1 hsleep
  | run hl hs hr => exact absurd (List.cons.inj (hst.symm.trans hs)).1 (hrun _)

omit [DecidableEq σ] in
/-- A thread to which `Run` switches has not chosen another one. -/
theorem chosen_of_next {n : τ} {fs : List (Frame τ σ κ)} (h : k.Sound main)
    (hst : k.stack k.currentThread = .run n :: fs) (c : Client τ σ κ δ ε ι) :
    chosen ((run c n (k.setStack fs)).stack n) = [] := by
  obtain ⟨ph, hset, hctl⟩ := h
  by_cases hn : n = k.currentThread
  · simp [hn, chosen]
  · have hph : ph = .switching n := by
      cases hctl with
      | run hl hs hr => rw [(Frame.run.inj (List.cons.inj (hst.symm.trans hs)).1)]
      | sleepLoop hl hs hr => cases hst.symm.trans hs
      | client hl hs =>
        rw [hst] at hs
        obtain ⟨call, hcall⟩ := hs _ List.mem_cons_self
        cases hcall
      | kernel hl hs =>
        rw [hst] at hs
        cases hs with
        | fresh h => cases h
    have hready : k.status n = .ready := by
      subst hph
      exact hset.placement.status_next
    have hstack : (run c n (k.setStack fs)).stack n = k.stack n := by
      simp [hn]
    rw [hstack]
    exact chosen_of_suspended (hset.suspended n (.inl hready) hn)

omit [DecidableEq σ] [DecidableEq τ] in
/-- The lists and the log after a step of the current thread that chooses no thread. -/
theorem Logged.of_queues {l' : Log τ σ} (h : k.Logged main l)
    (hq : QueuesLogged [] k' l') (hchosen : chosen (k'.stack k.currentThread) = [])
    (hcur : k'.currentThread = k.currentThread) (hleft : l'.ready.left = l.ready.left) :
    k'.Logged main l' := by
  refine ⟨by rw [hcur, hchosen]; exact hq, ?_⟩
  rw [hcur, h.current]
  simp only [hleft]

theorem pLoop_readyList {s : σ} (hw : k.pLoop s = .ok k') : k'.readyList = k.readyList := by
  unfold pLoop at hw
  split_ifs at hw
  · obtain ⟨-, rfl⟩ := sleep_eq_ok hw
    rfl
  · obtain rfl := Except.ok.inj hw
    rfl

/-- The loop of `P`, when the current thread has then to execute `rest`. -/
theorem Logged.pLoop {k₁ : Kernel τ σ κ ε} {s : σ} (h : k.Logged main l)
    (hq : QueuesLogged [] k₁ l) (hcur : k₁.currentThread = k.currentThread)
    (hrest : chosen (k₁.stack k.currentThread) = []) (hw : k₁.pLoop s = .ok k') :
    k'.Logged main (Kernel.notePLoop s k₁ l) := by
  obtain ⟨-, hcur', -, hcase⟩ := pLoop_cases hw
  obtain ⟨hq', hready⟩ := hq.notePLoop (pLoop_readyList hw)
    (hcase.imp (fun hc => ⟨hc.1, hc.2.2⟩) fun hc => ⟨hc.1, hc.2.2⟩)
  refine h.of_queues hq' ?_ (hcur'.trans hcur) (by rw [hready])
  rw [← hcur] at hrest ⊢
  obtain ⟨-, hst, -⟩ | ⟨-, hst, -⟩ := hcase
  · rw [hst, update_self]
    rfl
  · rwa [hst]

section Frames

variable {c : Client τ σ κ δ ε ι} {i : Input δ ι} {rest : List (Frame τ σ κ)}

omit [DecidableEq σ] [DecidableEq τ] in
/-- Only with `Run` at the top of the stack a thread is chosen. -/
theorem Logged.queues_of_top (h : k.Logged main l) {f : Frame τ σ κ}
    (hst : k.stack k.currentThread = f :: rest) (hf : chosen (f :: rest) = []) :
    QueuesLogged [] k l := by
  have hqueues := h.queues
  rwa [hst, hf] at hqueues

theorem Logged.p (h : k.Logged main l) {s : σ}
    (hst : k.stack k.currentThread = .call (.p s) :: rest)
    (hw : (k.setStack rest).p s = .ok k') : k'.Logged main (note c k i l) := by
  have hnote : note c k i l = Kernel.notePLoop s
      ({ k.setStack rest with level := .off }.push [.setLevel k.level]) l := by
    simp only [note, hst]
    rfl
  have hw' : ({ k.setStack rest with level := .off }.push [.setLevel k.level]).pLoop s =
      .ok k' := hw
  rw [hnote]
  exact h.pLoop ((h.queues_of_top hst rfl).congr rfl fun _ => rfl) rfl (by simp [chosen]) hw'

theorem Logged.v (h : k.Logged main l) {s : σ}
    (hst : k.stack k.currentThread = .call (.v s) :: rest) :
    (((k.setStack rest).countUp s).v s).Logged main (note c k i l) := by
  have hnote : note c k i l = Kernel.noteWake s k l := by simp only [note, hst]
  rw [hnote]
  refine h.of_queues ?_ ?_ (wake_currentThread _ _) (left_noteWake s k l)
  · exact QueuesLogged.noteWake
      (k := { (k.setStack rest).countUp s with level := .off }.push [.setLevel k.level])
      ((h.queues_of_top hst rfl).congr rfl fun _ => rfl) s
  · simp [Kernel.v, chosen]

theorem Logged.fork (h : k.Logged main l) {t : τ} {func : κ}
    (hst : k.stack k.currentThread = .call (.fork t func) :: rest)
    (hw : (k.setStack rest).fork t func = .ok k') : k'.Logged main (note c k i l) := by
  unfold Kernel.fork at hw
  split_ifs at hw
  obtain rfl := Except.ok.inj hw
  have hnote : note c k i l = { l with ready := l.ready.enter t } := by simp only [note, hst]
  have hq := h.queues_of_top hst rfl
  rw [hnote]
  refine h.of_queues ⟨hq.ready.enter t, hq.waiting⟩ ?_ rfl rfl
  by_cases ht : k.currentThread = t <;> simp [ht, chosen]

/-- A thread that yields in vain is not put on the ready list. -/
theorem Logged.yield (h : k.Logged main l)
    (hst : k.stack k.currentThread = .call .yield :: rest) :
    (k.setStack rest).yield.Logged main (note c k i l) := by
  have hq := h.queues_of_top hst rfl
  cases hready : k.readyList with
  | nil =>
    have hnote : note c k i l = l := by simp only [note, hst, hready]; rfl
    have hyield : (k.setStack rest).yield =
        { k.setStack rest with level := .off }.push [.setLevel k.level] := by
      simp [Kernel.yield, hready]
    rw [hnote, hyield]
    exact h.of_queues (hq.congr rfl fun _ => rfl) (by simp [chosen]) rfl rfl
  | cons n ns =>
    have hnote : note c k i l = { l with ready := l.ready.enter k.currentThread } := by
      simp only [note, hst, hready]
      rfl
    have hyield : (k.setStack rest).yield =
        ({ k.setStack rest with level := .off, readyList := ns }.readyToRun
          k.currentThread).push [.run n, .setLevel k.level] := by
      simp [Kernel.yield, hready]
    have hentered := hq.ready.enter k.currentThread
    rw [hready] at hentered
    rw [hnote, hyield]
    refine ⟨⟨?_, hq.waiting⟩, h.current⟩
    simpa [chosen] using hentered

theorem Logged.sleepDirectly (h : k.Logged main l)
    (hst : k.stack k.currentThread = .call .sleep :: rest)
    (hw : (k.setStack rest).sleepDirectly = .ok k') : k'.Logged main (note c k i l) := by
  obtain ⟨-, rfl⟩ := sleep_eq_ok hw
  have hnote : note c k i l = l := by simp only [note, hst]
  rw [hnote]
  exact h.of_queues ((h.queues_of_top hst rfl).congr rfl fun _ => rfl) (by simp [chosen]) rfl rfl

theorem Logged.finish (h : k.Logged main l)
    (hst : k.stack k.currentThread = .call .finish :: rest)
    (hw : (k.setStack rest).finish = .ok k') : k'.Logged main (note c k i l) := by
  obtain ⟨-, rfl⟩ := sleep_eq_ok hw
  have hnote : note c k i l = l := by simp only [note, hst]
  rw [hnote]
  exact h.of_queues ((h.queues_of_top hst rfl).congr rfl fun _ => rfl) (by simp [chosen]) rfl rfl

theorem Logged.oneTick (h : k.Logged main l)
    (hst : k.stack k.currentThread = .call .oneTick :: rest) (hrest : chosen rest = []) :
    ((k.setStack rest).oneTick c i.interrupts).Logged main (note c k i l) := by
  have hnote : note c k i l = Kernel.noteHandlers c i.interrupts k l := by simp only [note, hst]
  rw [hnote]
  have hhandlers := QueuesLogged.noteHandlers (k := { k.setStack rest with level := .off })
    ((h.queues_of_top hst rfl).congr rfl fun _ => rfl) c i.interrupts
  have hsame := noteHandlers_congr c i.interrupts { k.setStack rest with level := .off } k l rfl
  refine h.of_queues ?_ ?_ ?_ (left_noteHandlers c i.interrupts k l)
  · rw [← hsame]
    unfold Kernel.oneTick
    dsimp only
    split_ifs <;> exact hhandlers.congr rfl fun _ => rfl
  · unfold Kernel.oneTick
    dsimp only
    split_ifs
    · simp [chosen]
    · simpa using hrest
  · unfold Kernel.oneTick
    dsimp only
    split_ifs <;> simp

theorem Logged.exec (h : k.Logged main l) {code : κ}
    (hst : k.stack k.currentThread = .call (.code code) :: rest) (hrest : chosen rest = [])
    (hw : (k.setStack rest).exec c code i.code = .ok k') : k'.Logged main (note c k i l) := by
  obtain ⟨⟨env, calls⟩, -, rfl⟩ := map_eq_ok.1 hw
  have hnote : note c k i l = l := by simp only [note, hst]
  rw [hnote]
  refine h.of_queues ((h.queues_of_top hst rfl).congr rfl fun _ => rfl) ?_ rfl rfl
  cases calls with
  | nil => simpa using hrest
  | cons call calls => simp [chosen]

theorem Logged.performCall {call : Call τ σ κ} (h : k.Logged main l)
    (hst : k.stack k.currentThread = .call call :: rest) (hrest : chosen rest = [])
    (hw : (k.setStack rest).performCall c i call = .ok k') : k'.Logged main (note c k i l) := by
  cases call with
  | p s => exact h.p hst hw
  | v s => exact Except.ok.inj hw ▸ h.v hst
  | fork t func => exact h.fork hst hw
  | yield => exact Except.ok.inj hw ▸ h.yield hst
  | sleep => exact h.sleepDirectly hst hw
  | finish => exact h.finish hst hw
  | oneTick => exact Except.ok.inj hw ▸ h.oneTick hst hrest
  | code code => exact h.exec hst hrest hw

theorem Logged.setLevel (h : k.Logged main l) {now : IntStatus}
    (hst : k.stack k.currentThread = .setLevel now :: rest) (hrest : chosen rest = []) :
    ((k.setStack rest).setLevel now).Logged main (note c k i l) := by
  have hqueues := h.queues_of_top hst rfl
  have hnote : note c k i l = l := by simp only [note, hst]
  rw [hnote]
  unfold Kernel.setLevel
  split_ifs
  · exact h.of_queues (hqueues.congr rfl fun _ => rfl) (by simp [chosen]) rfl rfl
  · exact h.of_queues (hqueues.congr rfl fun _ => rfl) (by simpa using hrest) rfl rfl

theorem Logged.retest (h : k.Logged main l) {s : σ}
    (hst : k.stack k.currentThread = .retest s :: rest) (hrest : chosen rest = [])
    (hw : (k.setStack rest).pLoop s = .ok k') : k'.Logged main (note c k i l) := by
  have hnote : note c k i l = notePLoop s (k.setStack rest) l := by
    simp only [note, hst]
    rfl
  rw [hnote]
  exact h.pLoop ((h.queues_of_top hst rfl).congr rfl fun _ => rfl) rfl (by simpa using hrest) hw

/-- `FindNextToRun` takes the first thread from the ready list, and without one the handlers of
interrupts are called. -/
theorem Logged.sleepLoop (h : k.Logged main l)
    (hst : k.stack k.currentThread = .sleepLoop :: rest)
    (hw : (k.setStack rest).sleepLoop c i.interrupts = .ok k') :
    k'.Logged main (note c k i l) := by
  have hqueues := h.queues_of_top hst rfl
  unfold Kernel.sleepLoop idle at hw
  cases hready : k.readyList with
  | nil =>
    have hnote : note c k i l = noteHandlers c i.interrupts (k.setStack rest) l := by
      simp only [note, hst, hready]
      exact noteHandlers_congr c i.interrupts k (k.setStack rest) l rfl
    simp only [setStack_readyList, hready] at hw
    split_ifs at hw
    · cases hw
    · obtain rfl := Except.ok.inj hw
      rw [hnote]
      refine h.of_queues ?_ ?_ (by simp) (left_noteHandlers c i.interrupts _ l)
      · have hhandlers := QueuesLogged.noteHandlers (k := k.setStack rest)
          (hqueues.congr rfl fun _ => rfl) c i.interrupts
        exact hhandlers.congr rfl fun _ => rfl
      · simp [chosen]
  | cons n ns =>
    have hnote : note c k i l = l := by
      simp only [note, hst, hready]
      rfl
    simp only [setStack_readyList, hready] at hw
    obtain rfl := Except.ok.inj hw
    rw [hnote]
    refine ⟨⟨?_, hqueues.waiting⟩, h.current⟩
    have hentered := hqueues.ready
    rw [hready] at hentered
    simpa [chosen] using hentered

/-- The chosen thread leaves the ready list. -/
theorem Logged.run (h : k.Logged main l) (hsound : k.Sound main) {n : τ}
    (hst : k.stack k.currentThread = .run n :: rest) :
    (Kernel.run c n (k.setStack rest)).Logged main (note c k i l) := by
  have hqueues := h.queues
  rw [hst] at hqueues
  have hnote : note c k i l = { l with ready := l.ready.leave n } := by simp only [note, hst]
  rw [hnote]
  refine ⟨⟨?_, hqueues.waiting⟩, by simp⟩
  have hnext := chosen_of_next hsound hst c
  rw [run_currentThread, hnext]
  exact hqueues.ready.leave

theorem Logged.afterSwitch (h : k.Logged main l)
    (hst : k.stack k.currentThread = .afterSwitch :: rest) (hrest : chosen rest = [])
    (hw : Kernel.afterSwitch c (k.setStack rest) = .ok k') : k'.Logged main (note c k i l) := by
  have hnote : note c k i l = l := by simp only [note, hst]
  rw [hnote]
  obtain ⟨-, hstack, hplaces, -⟩ := afterSwitch_eq_ok hw
  have hcur : k'.currentThread = k.currentThread := congrArg Places.current hplaces
  have hready : k'.readyList = k.readyList := congrArg Places.ready hplaces
  refine h.of_queues ((h.queues_of_top hst rfl).congr hready fun s => ?_) ?_ hcur rfl
  · exact congrFun (congrArg Places.queue hplaces) s
  · rw [hstack]
    simpa using hrest

theorem Logged.step (h : k.Logged main l) (hsound : k.Sound main) (hw : k.step c i = .ok k') :
    k'.Logged main (note c k i l) := by
  have hctl := hsound
  obtain ⟨ph, -, hctl⟩ := hctl
  unfold Kernel.step at hw
  split at hw
  · cases hw
  rename_i f rest hst
  cases f with
  | call call => exact h.performCall hst (chosen_of_control hctl hst (by simp) (by simp)) hw
  | setLevel now =>
    exact Except.ok.inj hw ▸ h.setLevel hst (chosen_of_control hctl hst (by simp) (by simp))
  | retest s => exact h.retest hst (chosen_of_control hctl hst (by simp) (by simp)) hw
  | sleepLoop => exact h.sleepLoop hst hw
  | run n => exact Except.ok.inj hw ▸ h.run hsound hst
  | afterSwitch => exact h.afterSwitch hst (chosen_of_control hctl hst (by simp) (by simp)) hw

end Frames

/-! ### Runs -/

omit [DecidableEq τ] in
theorem continues_noteWake (s : σ) (k : Kernel τ σ κ ε) (l : Log τ σ) :
    l.Continues (noteWake s k l) := by
  unfold noteWake
  split
  · exact ⟨.refl _, fun _ => .refl _⟩
  · refine ⟨FifoLog.continues_enter _ _, fun s' => ?_⟩
    by_cases hs : s' = s
    · subst hs
      simpa using FifoLog.continues_leave _ _
    · simpa [hs] using FifoLog.Continues.refl _

omit [DecidableEq τ] in
theorem continues_notePLoop (s : σ) (k : Kernel τ σ κ ε) (l : Log τ σ) :
    l.Continues (notePLoop s k l) := by
  unfold notePLoop
  split_ifs
  · refine ⟨.refl _, fun s' => ?_⟩
    by_cases hs : s' = s
    · subst hs
      simpa using FifoLog.continues_enter _ _
    · simpa [hs] using FifoLog.Continues.refl _
  · exact ⟨.refl _, fun _ => .refl _⟩

theorem continues_noteHandlers (c : Client τ σ κ δ ε ι) (is : List (Interrupt δ))
    (k : Kernel τ σ κ ε) (l : Log τ σ) : l.Continues (noteHandlers c is k l) := by
  induction is generalizing k l with
  | nil => exact ⟨.refl _, fun _ => .refl _⟩
  | cons i is ih =>
    cases i with
    | timer => exact ih _ _
    | device d =>
      have hwake := continues_noteWake (c.handler d) { k with env := c.delayedLoad k.env } l
      have hrest := ih
        (wake (c.handler d) (countUp (c.handler d) { k with env := c.delayedLoad k.env }))
        (noteWake (c.handler d) { k with env := c.delayedLoad k.env } l)
      exact ⟨hwake.1.trans hrest.1, fun s => (hwake.2 s).trans (hrest.2 s)⟩

/-- A step only adds to the log. -/
theorem continues_note (c : Client τ σ κ δ ε ι) (k : Kernel τ σ κ ε) (i : Input δ ι)
    (l : Log τ σ) : l.Continues (note c k i l) := by
  have hrefl : l.Continues l := ⟨.refl _, fun _ => .refl _⟩
  unfold note
  split
  · exact continues_notePLoop _ k l
  · exact continues_notePLoop _ k l
  · exact continues_noteWake _ k l
  · exact ⟨FifoLog.continues_enter _ _, hrefl.2⟩
  · split_ifs
    · exact hrefl
    · exact ⟨FifoLog.continues_enter _ _, hrefl.2⟩
  · exact continues_noteHandlers c _ k l
  · split_ifs
    · exact continues_noteHandlers c _ k l
    · exact hrefl
  · exact ⟨FifoLog.continues_leave _ _, hrefl.2⟩
  · exact hrefl

end Kernel

variable [DecidableEq τ] [DecidableEq σ]

/-- The runs of the kernel with the log. -/
def loggedSystem (c : Client τ σ κ δ ε ι) (main : τ) (start : κ) (value : σ → ℕ) (env : ε) :
    StepSystem (Kernel τ σ κ ε × Log τ σ) (Input δ ι) Fault :=
  (threadSystem c main start value env).withHistory (Kernel.note c) .empty

theorem loggedSystem_init (c : Client τ σ κ δ ε ι) (main : τ) (start : κ) (value : σ → ℕ)
    (env : ε) :
    (loggedSystem c main start value env).init (boot main start value env, .empty) :=
  ⟨rfl, rfl⟩

theorem logged_of_reachable {c : Client τ σ κ δ ε ι} {main : τ} {start : κ} {value : σ → ℕ}
    {env : ε} {s : Kernel τ σ κ ε × Log τ σ}
    (h : (loggedSystem c main start value env).Reachable Always s) :
    s.1.Sound main ∧ s.1.Logged main s.2 := by
  refine h.invariant (fun s => s.1.Sound main ∧ s.1.Logged main s.2) ?_ ?_
  · rintro ⟨_, _⟩ ⟨rfl, rfl⟩
    refine ⟨Kernel.sound_boot main start value env, ⟨?_, fun _ => rfl⟩, rfl⟩
    simp [boot, Kernel.chosen, Log.empty, FifoLog.explains_empty]
  · rintro s i s' ⟨hsound, hlogged⟩ - hs
    obtain ⟨hs, hlog⟩ := withHistory_step hs
    exact ⟨hsound.step hs, hlog ▸ hlogged.step hsound hs⟩

/-- In every run threads are switched to in the order in which `ReadyToRun` was called for them: the
calls of `ReadyToRun` were for the threads that `Run` has been called for, then the one that is
about to be switched to, then those on the ready list. The current thread is the last one for which
`Run` was called. Likewise the threads that went to sleep in `P` on a semaphore were those that `V`
has woken up, in the same order, then those in the queue. -/
theorem threads_run_in_order (c : Client τ σ κ δ ε ι) (main : τ) (start : κ) (value : σ → ℕ)
    (env : ε) (s : Kernel τ σ κ ε × Log τ σ)
    (h : (loggedSystem c main start value env).Reachable Always s) :
    s.2.ready.entered = s.2.ready.left ++
        (Kernel.chosen (s.1.stack s.1.currentThread) ++ s.1.readyList) ∧
      s.1.currentThread = (main :: s.2.ready.left).getLast (List.cons_ne_nil _ _) ∧
      ∀ sem, (s.2.waiting sem).entered = (s.2.waiting sem).left ++ (s.1.semaphore sem).queue := by
  obtain ⟨-, hlogged⟩ := logged_of_reachable h
  exact ⟨hlogged.queues.ready, hlogged.current, hlogged.queues.waiting⟩

/-- Two threads have been switched to, and the second one has woken up the initial thread, which
comes next on the ready list; the first one waits behind it. -/
theorem threads_run_in_order_of_threeThreads :
    ∃ s, (loggedSystem threeThreads 0 0 (fun _ => 0) ()).Reachable Always s ∧
      s.2.ready.entered = [1, 2, 0] ∧ s.2.ready.left = [1, 2] ∧ s.1.currentThread = 2 ∧
      s.1.readyList = [0] ∧ (s.2.waiting ()).entered = [0, 1] ∧ (s.2.waiting ()).left = [0] ∧
      (s.1.semaphore ()).queue = [1] := by
  obtain ⟨s, hs, ht⟩ := exists_reachable_of_runInputs
    (loggedSystem_init threeThreads 0 0 (fun _ => 0) ()) (List.replicate 20 ⟨[], ()⟩)
    (fun s => decide (s.2.ready.entered = [1, 2, 0] ∧ s.1.readyList = [0] ∧
      Kernel.chosen (s.1.stack s.1.currentThread) = [] ∧ (s.2.waiting ()).entered = [0, 1] ∧
      (s.1.semaphore ()).queue = [1])) (by decide)
  obtain ⟨hentered, hready, hchosen, hwaiting, hqueue⟩ := of_decide_eq_true ht
  obtain ⟨horder, hcur, hqueues⟩ := threads_run_in_order threeThreads 0 0 (fun _ => 0) () s hs
  rw [hentered, hready, hchosen, List.nil_append] at horder
  have hleft : s.2.ready.left = [1, 2] :=
    (List.append_cancel_right (horder : [1, 2] ++ [0] = s.2.ready.left ++ [0])).symm
  have hqueues := hqueues ()
  rw [hwaiting, hqueue] at hqueues
  refine ⟨s, hs, hentered, hleft, ?_, hready, hwaiting, ?_, hqueue⟩
  · rw [hcur]
    simp only [hleft]
    rfl
  · exact (List.append_cancel_right
      (hqueues : [0] ++ [1] = (s.2.waiting ()).left ++ [1])).symm

/-- A thread on the ready list runs after exactly the threads before it: if there are `j` of them,
then it is the one that the `j + 1`-th switch from now on is to, not counting one that has been
chosen already. -/
theorem runs_after_readyList (c : Client τ σ κ δ ε ι) (main : τ) (start : κ) (value : σ → ℕ)
    (env : ε) {s s' : Kernel τ σ κ ε × Log τ σ}
    (h : (loggedSystem c main start value env).Reachable Always s)
    (hs : (loggedSystem c main start value env).Steps Always s s') {t : τ} {j : ℕ}
    (hj : s.1.readyList[j]? = some t)
    (hlen : s.2.ready.left.length + ((Kernel.chosen (s.1.stack s.1.currentThread)).length + j) <
      s'.2.ready.left.length) :
    s'.2.ready.left[s.2.ready.left.length +
      ((Kernel.chosen (s.1.stack s.1.currentThread)).length + j)]? = some t := by
  have hreach : (loggedSystem c main start value env).Reachable Always s' := by
    obtain ⟨s₀, h₀, hr⟩ := h
    exact ⟨s₀, h₀, Relation.ReflTransGen.trans hr hs⟩
  have hcontinues : s.2.ready.Continues s'.2.ready := by
    refine hs.invariant (fun s' => s.2.ready.Continues s'.2.ready) (.refl _) ?_
    rintro s₁ i s₂ hc - hstep
    obtain ⟨-, hlog⟩ := withHistory_step hstep
    exact hc.trans (hlog ▸ (Kernel.continues_note c s₁.1 i s₁.2).1)
  refine (logged_of_reachable h).2.queues.ready.getElem?_left
    (logged_of_reachable hreach).2.queues.ready hcontinues ?_ hlen
  rw [List.getElem?_append_right (Nat.le_add_right _ _), Nat.add_sub_cancel_left]
  exact hj

/-- The second thread on the ready list is the second one that is switched to. -/
theorem runs_after_readyList_of_threeThreads :
    ∃ s s', (loggedSystem threeThreads 0 0 (fun _ => 0) ()).Steps Always s s' ∧
      s.1.readyList[1]? = some 2 ∧ s'.2.ready.left[1]? = some 2 := by
  obtain ⟨s, hs, ht⟩ := exists_reachable_of_runInputs
    (loggedSystem_init threeThreads 0 0 (fun _ => 0) ())
    (List.replicate 7 ⟨[], ()⟩) (fun s => decide (s.1.readyList = [1, 2] ∧ s.2.ready.left = [] ∧
      Kernel.chosen (s.1.stack s.1.currentThread) = []) &&
      (((loggedSystem threeThreads 0 0 (fun _ => 0) ()).runInputs s
        (List.replicate 9 ⟨[], ()⟩)).toOption.any fun s' => s'.2.ready.left.length == 2))
    (by decide)
  obtain ⟨hs₁, hs₂⟩ := Bool.and_eq_true_iff.1 ht
  obtain ⟨hready, hleft, hchosen⟩ := of_decide_eq_true hs₁
  cases hrun : (loggedSystem threeThreads 0 0 (fun _ => 0) ()).runInputs s
      (List.replicate 9 ⟨[], ()⟩) with
  | error e =>
    rw [hrun] at hs₂
    cases hs₂
  | ok s' =>
    rw [hrun] at hs₂
    have hlen : s'.2.ready.left.length = 2 := by simpa [Except.toOption] using hs₂
    have hruns := runs_after_readyList threeThreads 0 0 (fun _ => 0) () hs
      (steps_of_runInputs hrun) (t := 2) (j := 1) (by rw [hready]; rfl)
      (by rw [hleft, hchosen, hlen]; decide)
    rw [hleft, hchosen] at hruns
    exact ⟨s, s', steps_of_runInputs hrun, by rw [hready]; rfl, hruns⟩

end Nachos.Threads
