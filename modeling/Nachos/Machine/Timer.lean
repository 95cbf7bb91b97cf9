import Mathlib.Data.List.Chain
import Nachos.Machine.InterruptDelay

/-!
# The timer

`machine/timer.cc`, with `TimerInterruptHandler` of `threads/system.cc` as its handler. Every call
of `TimerExpired` schedules the next one, so that there is always one interrupt of the timer in
the pending list. As no interrupt is overdue for long, the calls come at regular intervals, whatever
the other devices and the threads do.

## Main definitions

* `Timer`, `Timer.timerExpired`.
* `Timer.system`: any sequence of calls after the constructor of the timer.
* `Timer.Ticking`: the invariant.

## Main results

* `timer_ticks`: in every run, one interrupt of the timer is pending, not longer than the interval
  after the last call of `TimerExpired`, and the calls are as far apart as the interval says.
-/

namespace Nachos.Devices

open Foundations StepSystem

/-- `TimerTicks`. -/
abbrev timerTicks : ℤ := 100

/-- `Timer`. -/
structure Timer (η : Type) where
  /-- `TimerHandler` with the timer as its argument. -/
  handler : η
  randomize : Bool

variable {η : Type}

namespace Timer

variable (t : Timer η)

/-- `Timer::TimeOfNextInterrupt`, where `random` is what `Random` returns. -/
def timeOfNextInterrupt (random : ℕ) : ℤ :=
  if t.randomize then 1 + random % (timerTicks * 2) else timerTicks

/-- `Timer::TimerExpired`. `CheckIfDue` has left `IdleMode` when it calls a handler, so that
`TimerInterruptHandler` calls `YieldOnReturn`. -/
def timerExpired (random : ℕ) : List (HandlerCall η) :=
  [.schedule t.handler (t.timeOfNextInterrupt random) .timerInt, .yieldOnReturn]

/-- Calls of the `Interrupt` object after the constructor of the timer. -/
def system (random : ℕ) (react : ℕ → List (HandlerCall η)) :
    StepSystem (Interrupt η) (Call η) Fault where
  init s := Interrupt.initial.schedule t.handler (t.timeOfNextInterrupt random) .timerInt = .ok s
  step := Interrupt.perform react

/-- The shortest time between two interrupts. -/
def shortest : ℤ := if t.randomize then 1 else timerTicks

/-- The longest time between two interrupts. -/
def longest : ℤ := if t.randomize then timerTicks * 2 else timerTicks

theorem timeOfNextInterrupt_mem (random : ℕ) : t.shortest ≤ t.timeOfNextInterrupt random ∧
    t.timeOfNextInterrupt random ≤ t.longest := by
  unfold shortest longest timeOfNextInterrupt
  split_ifs
  · simp only [timerTicks]
    omega
  · exact ⟨le_rfl, le_rfl⟩

variable [DecidableEq η]

/-- The interrupt belongs to the timer. -/
def Owns (i : PendingInterrupt η) : Bool := i.handler = t.handler

/-- The calls of `TimerExpired`. -/
def calls (runs : List (HandlerRun η)) : List (HandlerRun η) :=
  runs.filter fun r => t.Owns r.interrupt

/-- When `TimerExpired` was called last; at first, when the constructor was called. -/
def lastCall (runs : List (HandlerRun η)) : ℤ :=
  ((t.calls runs).map HandlerRun.time).getLastD 0

theorem snd_of_mem_getLast? {runs : List (HandlerRun η)} {a : ℤ × ℤ}
    (h : a ∈ ((0, 0) :: (t.calls runs).map fun r => (r.interrupt.when, r.time)).getLast?) :
    a.2 = t.lastCall runs := by
  rw [List.getLast?_cons, List.getLast?_map] at h
  cases h
  rw [lastCall, List.getLastD_eq_getLast?, List.getLast?_map]
  cases (t.calls runs).getLast? <;> rfl

/-- The time `due` for which an interrupt was scheduled at the time `last`. -/
def Follows (last due : ℤ) : Prop := last + t.shortest ≤ due ∧ due ≤ last + t.longest

/-- The interrupts of the timer: one is pending, and each was scheduled when the one before it was
handled. -/
structure Ticking (pending : List (PendingInterrupt η)) (runs : List (HandlerRun η)) : Prop where
  count : pending.countP t.Owns = 1
  next : ∀ i ∈ pending, t.Owns i → t.Follows (t.lastCall runs) i.when
  chain : ((0, 0) :: (t.calls runs).map fun r => (r.interrupt.when, r.time)).IsChain
    fun a b => t.Follows a.2 b.1

namespace Ticking

variable {t} {pending pending' : List (PendingInterrupt η)} {runs : List (HandlerRun η)}
  {i : PendingInterrupt η} {first : ℤ}

/-- The constructor schedules the first interrupt. -/
theorem start (hfollows : t.shortest ≤ first ∧ first ≤ t.longest) (serial : ℕ) :
    t.Ticking [⟨t.handler, 0 + first, .timerInt, serial⟩] [] := by
  refine ⟨by simp [Owns], fun i hi _ => ?_, List.isChain_singleton _⟩
  rw [List.mem_singleton.1 hi]
  exact ⟨Int.add_le_add_left hfollows.1 _, Int.add_le_add_left hfollows.2 _⟩

theorem perm (h : t.Ticking pending runs) (hp : pending'.Perm pending) :
    t.Ticking pending' runs :=
  ⟨hp.countP_eq _ ▸ h.count, fun i hi => h.next i (hp.mem_iff.1 hi), h.chain⟩

/-- Another device schedules an interrupt. -/
theorem insertOther (h : t.Ticking pending runs) (hi : t.Owns i = false) :
    t.Ticking (sortedInsert PendingInterrupt.when i pending) runs := by
  refine perm ⟨?_, fun j hj howns => ?_, h.chain⟩ (perm_sortedInsert _ i pending)
  · rw [List.countP_cons_of_neg (by simp [hi]), h.count]
  · rcases List.mem_cons.1 hj with rfl | hj
    · rw [hi] at howns
      cases howns
    · exact h.next j hj howns

/-- The handler of another device is called. -/
theorem runOther (h : t.Ticking (i :: pending) runs) (hi : t.Owns i = false) (time : ℤ) :
    t.Ticking pending (runs ++ [⟨i, time⟩]) := by
  have hcalls : t.calls (runs ++ [⟨i, time⟩]) = t.calls runs := by
    simp [calls, List.filter_append, hi]
  have hcount := h.count
  rw [List.countP_cons_of_neg (by simp [hi])] at hcount
  refine ⟨hcount, fun j hj howns => ?_, hcalls ▸ h.chain⟩
  rw [lastCall, hcalls]
  exact h.next j (List.mem_cons_of_mem _ hj) howns

/-- `TimerExpired` is called, and schedules the next interrupt. -/
theorem runTimer (h : t.Ticking (i :: pending) runs) (hi : t.Owns i = true) (time : ℤ)
    {next : PendingInterrupt η} (hnext : t.Owns next = true)
    (hfollows : t.Follows time next.when) :
    t.Ticking (sortedInsert PendingInterrupt.when next pending) (runs ++ [⟨i, time⟩]) := by
  have hcalls : t.calls (runs ++ [⟨i, time⟩]) = t.calls runs ++ [⟨i, time⟩] := by
    simp [calls, List.filter_append, hi]
  have hcount : pending.countP t.Owns = 0 := by
    have := h.count
    rw [List.countP_cons_of_pos hi] at this
    omega
  refine perm ⟨?_, fun j hj howns => ?_, ?_⟩ (perm_sortedInsert _ next pending)
  · rw [List.countP_cons_of_pos hnext, hcount]
  · rw [lastCall, hcalls, List.map_append, List.map_singleton, List.getLastD_concat]
    rcases List.mem_cons.1 hj with rfl | hj
    · exact hfollows
    · exact absurd howns (List.countP_eq_zero.1 hcount j hj)
  · rw [hcalls, List.map_append, ← List.cons_append, List.isChain_append]
    refine ⟨h.chain, List.isChain_singleton _, fun a ha b hb => ?_⟩
    cases hb
    rw [t.snd_of_mem_getLast? ha]
    exact h.next i (List.mem_cons_self ..) hi

end Ticking

end Timer

/-! ### Changes of the interrupts -/

namespace Interrupt

variable {react : ℕ → List (HandlerCall η)} {s s' : Interrupt η}

/-- What `OneTick` and `Idle` do, step by step: interrupts are put back, or the first one is taken
off the list and its handler called. -/
inductive Move (react : ℕ → List (HandlerCall η)) : Interrupt η → Interrupt η → Prop
  | quiet {s s' : Interrupt η} :
    s'.pending.Perm s.pending → s'.history.runs = s.history.runs → Move react s s'
  | fire {s s' : Interrupt η} (toOccur : PendingInterrupt η) (s₁ : Interrupt η) :
    s.pending = toOccur :: s₁.pending → s₁.history = s.history →
    s₁.fire react toOccur = .ok s' → Move react s s'

/-- Several moves. -/
abbrev Moves (react : ℕ → List (HandlerCall η)) : Interrupt η → Interrupt η → Prop :=
  Relation.ReflTransGen (Move react)

theorem Moves.quiet (hpending : s'.pending = s.pending) (hruns : s'.history.runs = s.history.runs) :
    Moves react s s' :=
  .single (.quiet (hpending ▸ .refl _) hruns)

theorem move_of_checkIfDue {advanceClock fired : Bool}
    (hs : s.checkIfDue react advanceClock = .ok (fired, s')) : Move react s s' := by
  rcases checkIfDue_cases hs with ⟨-, hperm, hhistory, -⟩ |
    ⟨toOccur, s₁, -, hp, hhistory, -, -, -, hfire⟩
  · exact .quiet hperm (by rw [hhistory])
  · exact .fire toOccur s₁ hp hhistory hfire

theorem moves_of_checkPending {fuel : ℕ} (hs : s.checkPending react fuel = .ok s') :
    Moves react s s' := by
  induction fuel generalizing s with
  | zero => cases hs
  | succ fuel ih =>
    rw [checkPending] at hs
    obtain ⟨⟨fired, s₁⟩, hcheck, hrest⟩ := bind_eq_ok.1 hs
    have hmove := move_of_checkIfDue hcheck
    cases fired with
    | false =>
      cases hrest
      exact .single hmove
    | true => exact .head hmove (ih hrest)

theorem moves_of_oneTick (hs : s.oneTick react = .ok s') : Moves react s s' := by
  rw [oneTick] at hs
  obtain ⟨s₁, hadvance, hs⟩ := bind_eq_ok.1 hs
  obtain ⟨s₂, hcheck, hs⟩ := bind_eq_ok.1 hs
  have h₁ : Moves react s { s₁ with level := .off } := by
    simp only [advance] at hadvance
    split_ifs at hadvance
    all_goals
      cases hadvance
      exact Moves.quiet rfl rfl
  refine (h₁.trans (moves_of_checkPending hcheck)).trans ?_
  simp only at hs
  split_ifs at hs
  all_goals
    cases hs
    exact Moves.quiet rfl rfl

theorem moves_of_idle (hs : s.idle react = .ok s') : Moves react s s' := by
  rw [idle] at hs
  obtain ⟨⟨fired, s₁⟩, hcheck, hs⟩ := bind_eq_ok.1 hs
  have h₁ : Moves react s { s with status := .idleMode } := Moves.quiet rfl rfl
  refine (h₁.tail (move_of_checkIfDue hcheck)).trans ?_
  cases fired with
  | false =>
    cases hs
    exact Moves.quiet rfl rfl
  | true =>
    obtain ⟨s₂, hall, hs⟩ := bind_eq_ok.1 hs
    cases hs
    exact (moves_of_checkPending hall).trans (Moves.quiet rfl rfl)

/-- Every call but `Schedule` is a sequence of moves. -/
theorem moves_of_perform {call : Call η} (hs : s.perform react call = .ok s') :
    Moves react s s' ∨ ∃ handler fromNow type, call = .schedule handler fromNow type ∧
      s.schedule handler fromNow type = .ok s' := by
  simp only [perform] at hs
  split_ifs at hs
  cases call with
  | setLevel now =>
    have hset : s.setLevel react now = .ok s' := hs
    have h₁ : Moves react s { s with level := now } := Moves.quiet rfl rfl
    rw [setLevel] at hset
    split_ifs at hset
    · exact .inl (h₁.trans (moves_of_oneTick hset))
    · cases hset
      exact .inl h₁
  | oneTick => exact .inl (moves_of_oneTick hs)
  | idle => exact .inl (moves_of_idle hs)
  | schedule handler fromNow type => exact .inr ⟨_, _, _, rfl, hs⟩
  | setStatus st =>
    cases hs
    exact .inl (Moves.quiet rfl rfl)

theorem runs_prefix_of_moves (h : Moves react s s') : s.history.runs <+: s'.history.runs := by
  induction h with
  | refl => exact List.prefix_rfl
  | tail _ hmove ih =>
    refine ih.trans ?_
    cases hmove with
    | quiet _ hruns => exact hruns ▸ List.prefix_rfl
    | fire toOccur s₁ _ hhistory hfire =>
      rw [(runs_of_fire hfire).2.2, hhistory]
      exact List.prefix_append _ _

theorem runs_of_schedule {handler : η} {fromNow : ℤ} {type : IntType}
    (hs : s.schedule handler fromNow type = .ok s') : s'.history.runs = s.history.runs ∧
      s'.pending = sortedInsert PendingInterrupt.when
        ⟨handler, s.stats.totalTicks + fromNow, type, s.history.scheduled.length⟩ s.pending := by
  simp only [schedule] at hs
  split_ifs at hs
  cases hs
  exact ⟨rfl, rfl⟩

end Interrupt

/-! ### The interrupts of the timer -/

variable {t : Timer η} {random : ℕ → ℕ} {handle : η → ℕ → List (HandlerCall η)}
  {react : ℕ → List (HandlerCall η)} {s s' : Interrupt η}

/-- The handlers that have run made the calls that `handle` lists for them. -/
def Dispatches (handle : η → ℕ → List (HandlerCall η)) (react : ℕ → List (HandlerCall η))
    (s : Interrupt η) : Prop :=
  ∀ n r, s.history.runs[n]? = some r → react n = handle r.interrupt.handler n

/-- The handler of the timer is `TimerExpired`, and no other one schedules it. -/
structure Timer.Drives (t : Timer η) (random : ℕ → ℕ) (handle : η → ℕ → List (HandlerCall η)) :
    Prop where
  timer (n : ℕ) : handle t.handler n = t.timerExpired (random n)
  other {h handler : η} {n : ℕ} {fromNow : ℤ} {type : IntType} :
    h ≠ t.handler → .schedule handler fromNow type ∈ handle h n → handler ≠ t.handler

/-- Other code does not schedule interrupts of the timer, nor does it set the status to
`IdleMode`. -/
def Timer.Spares (t : Timer η) (_ : Interrupt η) (call : Call η) : Prop :=
  call ≠ .setStatus .idleMode ∧ ∀ fromNow type, call ≠ .schedule t.handler fromNow type

theorem Dispatches.of_later (h : Dispatches handle react s')
    (hearlier : s.history.runs <+: s'.history.runs) : Dispatches handle react s := by
  intro n r hr
  refine h n r ?_
  rw [← hr]
  exact (List.prefix_iff_getElem?.1 hearlier n (List.getElem?_eq_some_iff.1 hr).1).trans
    (List.getElem?_eq_getElem _).symm

theorem reachable_of_timer {first : ℕ} (h : (t.system first react).Reachable t.Spares s) :
    (interruptSystem react).Reachable NotIdle s := by
  obtain ⟨s₀, h₀, hsteps⟩ := h
  have hfirst : (interruptSystem react).step .initial
      (.schedule t.handler (t.timeOfNextInterrupt first) .timerInt) = .ok s₀ := by
    have hperform : Interrupt.perform react .initial
        (.schedule t.handler (t.timeOfNextInterrupt first) .timerInt) = .ok s₀ := by
      rw [Interrupt.perform, if_neg (by simp [Interrupt.initial])]
      exact h₀
    exact hperform
  have hnotIdle : (interruptSystem react).Steps NotIdle s₀ s := by
    refine Relation.ReflTransGen.mono ?_ _ _ hsteps
    rintro s s' ⟨call, hcall, hstep⟩
    exact ⟨call, hcall.1, hstep⟩
  exact ⟨.initial, rfl, .head (by simp [NotIdle]) hfirst hnotIdle⟩

variable [DecidableEq η]

namespace Timer.Ticking

/-- Calls of the handler of another device. -/
theorem handlerCalls {calls : List (HandlerCall η)}
    (hother : ∀ handler fromNow type, .schedule handler fromNow type ∈ calls → handler ≠ t.handler)
    (h : t.Ticking s.pending s.history.runs) (hs : s.handlerCalls calls = .ok s') :
    t.Ticking s'.pending s'.history.runs := by
  refine foldlM_invariant (fun s : Interrupt η => t.Ticking s.pending s.history.runs) hs h
    fun call hcall s₁ s₂ h₁ h₂ => ?_
  obtain ⟨s₃, hs₃, rfl⟩ := map_eq_ok.1 h₂
  cases call with
  | schedule handler fromNow type =>
    obtain ⟨hruns, hpending⟩ := Interrupt.runs_of_schedule hs₃
    change t.Ticking s₃.pending s₃.history.runs
    rw [hruns, hpending]
    exact h₁.insertOther (decide_eq_false (hother _ _ _ hcall))
  | setLevel now =>
    cases now with
    | on => cases hs₃
    | off =>
      cases hs₃
      exact h₁
  | yieldOnReturn =>
    cases hs₃
    exact h₁

/-- The call of the handler of an interrupt that has been taken off the list. -/
theorem fire {toOccur : PendingInterrupt η} (hdrives : t.Drives random handle)
    (h : t.Ticking (toOccur :: s.pending) s.history.runs)
    (hreact : react s.history.runs.length = handle toOccur.handler s.history.runs.length)
    (hfire : s.fire react toOccur = .ok s') : t.Ticking s'.pending s'.history.runs := by
  obtain ⟨s₂, hcalls, rfl⟩ := map_eq_ok.1 hfire
  rw [hreact] at hcalls
  by_cases ht : toOccur.handler = t.handler
  · rw [ht, hdrives.timer] at hcalls
    obtain ⟨s₃, hs₃, hrest⟩ := bind_eq_ok.1 hcalls
    obtain ⟨s₄, hs₄, rfl⟩ := map_eq_ok.1 hs₃
    cases hrest
    obtain ⟨hruns, hpending⟩ := Interrupt.runs_of_schedule hs₄
    change t.Ticking s₄.pending s₄.history.runs
    rw [hruns, hpending]
    have hnext := t.timeOfNextInterrupt_mem (random s.history.runs.length)
    exact h.runTimer (decide_eq_true ht) s.stats.totalTicks (decide_eq_true rfl)
      ⟨Int.add_le_add_left hnext.1 _, Int.add_le_add_left hnext.2 _⟩
  · have h₂ : t.Ticking s₂.pending s₂.history.runs := by
      refine handlerCalls (fun handler fromNow type => hdrives.other ht) ?_ hcalls
      exact h.runOther (decide_eq_false ht) s.stats.totalTicks
    exact h₂

theorem moves (hdrives : t.Drives random handle) (h : t.Ticking s.pending s.history.runs)
    (hmoves : Interrupt.Moves react s s') (hdispatch : Dispatches handle react s') :
    t.Ticking s'.pending s'.history.runs := by
  induction hmoves with
  | refl => exact h
  | tail hmoves hmove ih =>
    have hearlier := Interrupt.runs_prefix_of_moves (.single hmove)
    have h₁ := ih (hdispatch.of_later hearlier)
    cases hmove with
    | quiet hperm hruns =>
      rw [hruns]
      exact h₁.perm hperm
    | fire toOccur s₁ hp hhistory hfire =>
      rw [hp, ← hhistory] at h₁
      refine h₁.fire hdrives (hdispatch _ ⟨toOccur, s₁.stats.totalTicks⟩ ?_) hfire
      rw [(Interrupt.runs_of_fire hfire).2.2, List.getElem?_concat_length]

end Timer.Ticking

/-- The times at which `TimerExpired` was called. -/
def Timer.callTimes (t : Timer η) (s : Interrupt η) : List ℤ :=
  (t.calls s.history.runs).map HandlerRun.time

theorem ticking_of_reachable {first : ℕ} (hdrives : t.Drives random handle)
    (h : (t.system first react).Reachable t.Spares s) (hdispatch : Dispatches handle react s) :
    t.Ticking s.pending s.history.runs := by
  revert hdispatch
  refine h.invariant
    (fun s => Dispatches handle react s → t.Ticking s.pending s.history.runs) ?_ ?_
  · intro s hs _
    obtain ⟨hruns, hpending⟩ := Interrupt.runs_of_schedule hs
    rw [hruns, hpending]
    exact .start (t.timeOfNextInterrupt_mem first) _
  · intro s call s' hs hcall hstep hdispatch
    rcases Interrupt.moves_of_perform hstep with hmoves | ⟨handler, fromNow, type, rfl, hschedule⟩
    · exact (hs (hdispatch.of_later (Interrupt.runs_prefix_of_moves hmoves))).moves hdrives hmoves
        hdispatch
    · obtain ⟨hruns, hpending⟩ := Interrupt.runs_of_schedule hschedule
      have h₁ := hs (hdispatch.of_later (hruns ▸ List.prefix_rfl))
      rw [hruns, hpending]
      refine h₁.insertOther (decide_eq_false fun heq => ?_)
      exact hcall.2 fromNow type (congrArg (Call.schedule · fromNow type) heq)

/-- In every run in which only the timer schedules its interrupts: there is always one of them, not
overdue and not longer than the longest interval after the last call of `TimerExpired`. The calls
are apart by at least the shortest interval, and at most `SystemTick` more than the longest one. -/
theorem timer_ticks (t : Timer η) (first : ℕ) (random : ℕ → ℕ)
    (handle : η → ℕ → List (HandlerCall η)) (react : ℕ → List (HandlerCall η)) (s : Interrupt η)
    (hdrives : t.Drives random handle) (h : (t.system first react).Reachable t.Spares s)
    (hdispatch : Dispatches handle react s) :
    (∃ i, s.pending.filter t.Owns = [i] ∧ s.stats.totalTicks ≤ i.when ∧
      t.Follows (t.lastCall s.history.runs) i.when) ∧
    (0 :: t.callTimes s).IsChain fun a b =>
      a + t.shortest ≤ b ∧ b ≤ a + t.longest + systemTick := by
  have hticking := ticking_of_reachable hdrives h hdispatch
  obtain ⟨hpending, hruns⟩ := handlers_prompt react s (reachable_of_timer h)
  constructor
  · obtain ⟨i, hi⟩ := List.length_eq_one_iff.1
      (List.countP_eq_length_filter.symm.trans hticking.count)
    have hmem : i ∈ s.pending.filter t.Owns := by simp [hi]
    obtain ⟨hmem, howns⟩ := List.mem_filter.1 hmem
    exact ⟨i, hi, hpending i hmem, hticking.next i hmem howns⟩
  · have hlate : ∀ b ∈ (t.calls s.history.runs).map (fun r => (r.interrupt.when, r.time)),
        b.1 ≤ b.2 ∧ b.2 ≤ b.1 + systemTick := by
      intro b hb
      obtain ⟨r, hr, rfl⟩ := List.mem_map.1 hb
      exact hruns r (List.mem_of_mem_filter hr)
    have htimes : 0 :: t.callTimes s = ((0, 0) :: (t.calls s.history.runs).map
        fun r => (r.interrupt.when, r.time)).map Prod.snd := by
      simp [Timer.callTimes]
    rw [htimes]
    refine List.isChain_map_of_isChain Prod.snd (fun a b => id) ?_
    refine hticking.chain.imp_of_mem_tail_imp fun a b _ hb hab => ?_
    obtain ⟨hle, hge⟩ := hlate b hb
    obtain ⟨hshort, hlong⟩ := hab
    simp only [systemTick] at *
    omega

/-- A timer at fixed intervals. -/
def fixedTimer : Timer ℕ := ⟨0, false⟩

/-- The calls of its handler, and of others, which call nothing. -/
def fixedCalls (h _ : ℕ) : List (HandlerCall ℕ) := if h = 0 then fixedTimer.timerExpired 0 else []

/-- The handler of another device is the second one to run. -/
def fixedReact (n : ℕ) : List (HandlerCall ℕ) := fixedCalls (if n = 1 then 1 else 0) n

/-- After the constructor. -/
def fixedStart : Interrupt ℕ :=
  { (Interrupt.initial : Interrupt ℕ) with
    pending := [⟨0, 100, .timerInt, 0⟩]
    history := ⟨[⟨0, 100, .timerInt, 0⟩], [], []⟩ }

/-- Ticks, and interrupts of other devices. -/
def sparesFixed (_ : Interrupt ℕ) : Call ℕ → Bool
  | .oneTick => true
  | .schedule h _ _ => h != 0
  | _ => false

theorem spares_of_sparesFixed (s : Interrupt ℕ) (call : Call ℕ) (h : sparesFixed s call = true) :
    fixedTimer.Spares s call := by
  cases call with
  | oneTick => exact ⟨by simp, by simp⟩
  | schedule handler fromNow type => exact ⟨by simp, by simpa [sparesFixed, fixedTimer] using h⟩
  | _ => cases h

theorem drives_fixedCalls : fixedTimer.Drives (fun _ => 0) fixedCalls where
  timer _ := rfl
  other {h _ _ _ _} hne hmem := by
    have hh : h ≠ 0 := hne
    simp [fixedCalls, hh] at hmem

/-- A timer at fixed intervals, and an interrupt of the disk that comes in between. -/
theorem timer_ticks_of_disk : ∃ s : Interrupt ℕ,
    s.history.runs.map (fun r => (r.interrupt.handler, r.time)) = [(0, 100), (1, 110), (0, 200)] ∧
    ∃ i, s.pending.filter fixedTimer.Owns = [i] ∧ s.stats.totalTicks ≤ i.when ∧
      fixedTimer.Follows (fixedTimer.lastCall s.history.runs) i.when := by
  have hstart : (fixedTimer.system 0 fixedReact).init fixedStart := by
    simp [Timer.system, Interrupt.schedule, Interrupt.initial, fixedStart, fixedTimer, timerTicks,
      Timer.timeOfNextInterrupt, Interrupt.insertPending, sortedInsert]
  obtain ⟨s, hs, hruns⟩ := exists_reachable_of_runInputsIf hstart spares_of_sparesFixed
    (.schedule 1 105 .diskInt :: List.replicate 22 .oneTick)
    (fun s => decide (s.history.runs.map (fun r => (r.interrupt.handler, r.time)) =
      [(0, 100), (1, 110), (0, 200)])) (by decide +kernel)
  have hruns := of_decide_eq_true hruns
  refine ⟨s, hruns, (timer_ticks fixedTimer 0 (fun _ => 0) fixedCalls fixedReact s drives_fixedCalls
    hs ?_).1⟩
  intro n r hr
  have hhandlers : s.history.runs.map (fun r => r.interrupt.handler) = [0, 1, 0] := by
    simpa [Function.comp_def] using congrArg (List.map Prod.fst) hruns
  have hn : [0, 1, 0][n]? = some r.interrupt.handler := by
    rw [← hhandlers, List.getElem?_map, hr, Option.map_some]
  unfold fixedReact
  obtain _ | _ | _ | n := n
  · rw [← Option.some.inj hn]
    rfl
  · rw [← Option.some.inj hn]
    rfl
  · rw [← Option.some.inj hn]
    rfl
  · cases hn

end Nachos.Devices
