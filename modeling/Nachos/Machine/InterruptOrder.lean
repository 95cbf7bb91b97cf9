import Mathlib.Data.List.Nodup
import Mathlib.Data.List.Range
import Nachos.Foundations.Except
import Nachos.Foundations.Loop
import Nachos.Machine.Interrupt

/-!
# Simulated time and the order of interrupts

The invariant of `interrupt.cc`, for any sequence of calls and any handlers: the pending list is
sorted and holds the interrupts whose handlers have not run, the handlers have run in the order of
their times and not before them, and the counters of the time add up. A handler is called after
its interrupt has been taken off the list; an interrupt that it schedules is later than the current
time, and so than all interrupts whose handlers have run.

## Main definitions

* `Interrupt.Ordered`: the invariant.

## Main results

* `Interrupt.checkIfDue_spec`: one call of `CheckIfDue`.
* `Interrupt.checkAll_ne_outOfFuel`: the loop over `CheckIfDue` ends.
* `Interrupt.Ordered.perform`: every call keeps the invariant.
* `interrupts_ordered`: what holds in every reachable state.
* `Interrupt.checkIfDue_eq_self_iff`: when a call of `CheckIfDue` before the time of the first
  interrupt changes nothing. The interrupt is put back behind those that have the same time.
-/

namespace Nachos.Devices

open Foundations StepSystem
open Threads (IntStatus)

variable {η : Type}

namespace Interrupt

variable {s s' s₁ : Interrupt η} {toOccur : PendingInterrupt η}

/-- The invariant of the pending list, the handlers that have run, and the time. -/
structure Ordered (s : Interrupt η) : Prop where
  ticks : s.stats.totalTicks = s.stats.idleTicks + s.stats.systemTicks + s.stats.userTicks
  serials : s.history.scheduled.map PendingInterrupt.serial =
    List.range s.history.scheduled.length
  perm : (s.pending ++ s.history.runs.map HandlerRun.interrupt).Perm s.history.scheduled
  sorted : s.pending.Pairwise fun i j => i.when ≤ j.when
  runs_sorted : s.history.runs.Pairwise fun r r' => r.interrupt.when ≤ r'.interrupt.when
  runs_le : ∀ r ∈ s.history.runs, ∀ i ∈ s.pending, r.interrupt.when ≤ i.when
  due : ∀ r ∈ s.history.runs, r.interrupt.when ≤ r.time ∧ r.time ≤ s.stats.totalTicks
  levels : ∀ l ∈ s.history.levels, l = .off

/-- The number of interrupts whose time has come. -/
def dueCount (s : Interrupt η) : ℕ :=
  s.pending.countP fun i => i.when ≤ s.stats.totalTicks

/-- `CheckIfDue` has taken the first interrupt off the pending list, and possibly advanced the
time. -/
structure Taken (s : Interrupt η) (toOccur : PendingInterrupt η) (s₁ : Interrupt η) : Prop where
  pending : s.pending = toOccur :: s₁.pending
  history : s₁.history = s.history
  level : s₁.level = .off
  ticks : s₁.stats.totalTicks =
    s₁.stats.idleTicks + s₁.stats.systemTicks + s₁.stats.userTicks
  le : s.stats.totalTicks ≤ s₁.stats.totalTicks

namespace Ordered

theorem initial : (initial : Interrupt η).Ordered := by
  constructor <;> simp [Interrupt.initial]

/-- The pending list is put into another order, and time passes. -/
theorem of_perm (h : s.Ordered) (hperm : s'.pending.Perm s.pending)
    (hsorted : s'.pending.Pairwise fun i j => i.when ≤ j.when) (hhistory : s'.history = s.history)
    (hticks : s'.stats.totalTicks =
      s'.stats.idleTicks + s'.stats.systemTicks + s'.stats.userTicks)
    (hle : s.stats.totalTicks ≤ s'.stats.totalTicks) : s'.Ordered := by
  refine ⟨hticks, ?_, ?_, hsorted, ?_, fun r hr i hi => ?_, fun r hr => ?_, ?_⟩
  · rw [hhistory]
    exact h.serials
  · rw [hhistory]
    exact (hperm.append_right _).trans h.perm
  · rw [hhistory]
    exact h.runs_sorted
  · rw [hhistory] at hr
    exact h.runs_le r hr i (hperm.mem_iff.1 hi)
  · rw [hhistory] at hr
    exact ⟨(h.due r hr).1, (h.due r hr).2.trans hle⟩
  · rw [hhistory]
    exact h.levels

/-- Only the pending list, the times and the history matter. -/
theorem congr (h : s.Ordered) (hpending : s'.pending = s.pending) (hstats : s'.stats = s.stats)
    (hhistory : s'.history = s.history) : s'.Ordered := by
  refine h.of_perm (by rw [hpending]) (hpending ▸ h.sorted) hhistory ?_ (by rw [hstats])
  rw [hstats]
  exact h.ticks

/-- An interrupt that has been taken off the list is put back. -/
theorem putBack (h : s.Ordered) (ht : Taken s toOccur s₁) :
    (s₁.insertPending toOccur).Ordered := by
  have hsorted := h.sorted
  rw [ht.pending] at hsorted
  refine h.of_perm ?_ (pairwise_sortedInsert hsorted.of_cons toOccur) ht.history ht.ticks ht.le
  rw [ht.pending]
  exact perm_sortedInsert _ _ _

theorem noteLevel (h : s.Ordered) (hl : s.level = .off) : s.noteLevel.Ordered := by
  refine ⟨h.ticks, h.serials, h.perm, h.sorted, h.runs_sorted, h.runs_le, h.due, fun l hmem => ?_⟩
  rcases List.mem_append.1 hmem with hmem | hmem
  · exact h.levels l hmem
  · rw [List.mem_singleton.1 hmem, hl]

/-- A new interrupt is later than all whose handlers have run. -/
theorem schedule (h : s.Ordered) {handler : η} {fromNow : ℤ} {type : IntType}
    (hs : s.schedule handler fromNow type = .ok s') :
    s'.Ordered ∧ s'.level = s.level ∧ s'.stats = s.stats ∧ s'.dueCount = s.dueCount := by
  simp only [Interrupt.schedule] at hs
  split_ifs at hs with hbound hpos
  obtain rfl := Except.ok.inj hs
  refine ⟨?_, rfl, rfl, ?_⟩
  · refine ⟨h.ticks, ?_, ?_, pairwise_sortedInsert h.sorted _, h.runs_sorted,
      fun r hr i hi => ?_, h.due, h.levels⟩
    · simp [insertPending, h.serials, List.range_succ]
    · refine ((perm_sortedInsert _ _ _).append_right _).trans ?_
      rw [List.cons_append]
      exact (h.perm.cons _).trans (List.perm_append_singleton _ _).symm
    · rcases mem_sortedInsert.1 hi with rfl | hi
      · have := h.due r hr
        simp only
        omega
      · exact h.runs_le r hr i hi
  · rw [dueCount, dueCount, insertPending, (perm_sortedInsert _ _ _).countP_eq,
      List.countP_cons_of_neg]
    rw [decide_eq_true_eq]
    simp only
    omega

/-- A call of a handler. -/
theorem handlerCall (h : s.Ordered) (hl : s.level = .off) {call : HandlerCall η}
    (hs : s.handlerCall call = .ok s') :
    s'.Ordered ∧ s'.level = .off ∧ s'.stats = s.stats ∧ s'.dueCount = s.dueCount := by
  cases call with
  | schedule handler fromNow type =>
    obtain ⟨ho, hlevel, hstats, hdue⟩ := h.schedule hs
    exact ⟨ho, hlevel.trans hl, hstats, hdue⟩
  | setLevel now =>
    cases now with
    | on => cases hs
    | off =>
      obtain rfl := Except.ok.inj hs
      exact ⟨h.congr rfl rfl rfl, rfl, rfl, rfl⟩
  | yieldOnReturn =>
    obtain rfl := Except.ok.inj hs
    exact ⟨h.congr rfl rfl rfl, hl, rfl, rfl⟩

/-- All calls of a handler. -/
theorem handlerCalls (h : s.Ordered) (hl : s.level = .off) {calls : List (HandlerCall η)}
    (hs : s.handlerCalls calls = .ok s') :
    s'.Ordered ∧ s'.level = .off ∧ s'.stats = s.stats ∧ s'.dueCount = s.dueCount := by
  refine foldlM_invariant (fun s' => s'.Ordered ∧ s'.level = .off ∧ s'.stats = s.stats ∧
    s'.dueCount = s.dueCount) hs ⟨h, hl, rfl, rfl⟩ fun call _ s₁ s₂ hs₁ hs₂ => ?_
  obtain ⟨ho, hlevel, hstats, hdue⟩ := hs₁
  obtain ⟨s₃, hcall, rfl⟩ := map_eq_ok.1 hs₂
  obtain ⟨ho', hlevel', hstats', hdue'⟩ := ho.handlerCall hlevel hcall
  exact ⟨ho'.noteLevel hlevel', hlevel', hstats'.trans hstats, hdue'.trans hdue⟩

/-- The handler of the interrupt that has been taken off the list is called, when its time has
come. -/
theorem fire {react : ℕ → List (HandlerCall η)} (h : s.Ordered) (ht : Taken s toOccur s₁)
    (hdue : toOccur.when ≤ s₁.stats.totalTicks) (hs : s₁.fire react toOccur = .ok s') :
    s'.Ordered ∧ s'.level = .off ∧ s'.stats = s₁.stats ∧ s'.dueCount = s₁.dueCount := by
  have hsorted := h.sorted
  have hmem : toOccur ∈ s.pending := by simp [ht.pending]
  rw [ht.pending, List.pairwise_cons] at hsorted
  have hcalled : ({ s₁ with
      inHandler := true
      status := .systemMode
      history := { s₁.history with
        runs := s₁.history.runs ++ [⟨toOccur, s₁.stats.totalTicks⟩] } } :
      Interrupt η).Ordered := by
    rw [ht.history]
    refine ⟨ht.ticks, h.serials, ?_, hsorted.2, ?_, fun r hr i hi => ?_, fun r hr => ?_, h.levels⟩
    · refine List.Perm.trans ?_ h.perm
      rw [ht.pending, List.map_append, ← List.append_assoc]
      exact List.perm_append_singleton _ _
    · refine List.pairwise_append.2 ⟨h.runs_sorted, List.pairwise_singleton _ _,
        fun r hr r' hr' => ?_⟩
      rw [List.mem_singleton.1 hr']
      exact h.runs_le r hr toOccur hmem
    · rcases List.mem_append.1 hr with hr | hr
      · exact h.runs_le r hr i (ht.pending ▸ List.mem_cons_of_mem _ hi)
      · rw [List.mem_singleton.1 hr]
        exact hsorted.1 i hi
    · rcases List.mem_append.1 hr with hr | hr
      · exact ⟨(h.due r hr).1, (h.due r hr).2.trans ht.le⟩
      · rw [List.mem_singleton.1 hr]
        exact ⟨hdue, le_rfl⟩
  obtain ⟨s₂, hcalls, rfl⟩ := map_eq_ok.1 hs
  obtain ⟨ho, hlevel, hstats, hcount⟩ := (hcalled.noteLevel ht.level).handlerCalls ht.level hcalls
  exact ⟨ho.congr rfl rfl rfl, hlevel, hstats, hcount⟩

variable {react : ℕ → List (HandlerCall η)}

/-- The handler is called, unless only the timer is left. -/
theorem fireUnlessIdle (h : s.Ordered) (ht : Taken s toOccur s₁)
    (hdue : toOccur.when ≤ s₁.stats.totalTicks) {fired : Bool}
    (hs : s₁.fireUnlessIdle react toOccur = .ok (fired, s')) :
    s'.Ordered ∧ s'.level = .off ∧ s'.stats = s₁.stats ∧
      (fired = true → s'.dueCount = s₁.dueCount) := by
  rw [Interrupt.fireUnlessIdle] at hs
  split_ifs at hs with hidle
  · obtain ⟨rfl, rfl⟩ := Prod.mk.inj (Except.ok.inj hs)
    exact ⟨h.putBack ht, ht.level, rfl, nofun⟩
  · obtain ⟨s₂, hfire, hpair⟩ := map_eq_ok.1 hs
    obtain ⟨rfl, rfl⟩ := Prod.mk.inj hpair
    obtain ⟨ho, hlevel, hstats, hcount⟩ := h.fire ht hdue hfire
    exact ⟨ho, hlevel, hstats, fun _ => hcount⟩

/-- `CheckIfDue` keeps the invariant, and time does not go back. If it calls a handler without
advancing the time, then there is one interrupt less whose time has come. -/
theorem checkIfDue (h : s.Ordered) {advanceClock fired : Bool}
    (hs : s.checkIfDue react advanceClock = .ok (fired, s')) :
    s'.Ordered ∧ s'.level = .off ∧ s.stats.totalTicks ≤ s'.stats.totalTicks ∧
      (advanceClock = false → fired = true → s'.dueCount < s.dueCount) := by
  rw [Interrupt.checkIfDue] at hs
  split_ifs at hs with hl
  rcases hp : s.pending with _ | ⟨toOccur, rest⟩
  · rw [hp] at hs
    obtain ⟨rfl, rfl⟩ := Prod.mk.inj (Except.ok.inj hs)
    exact ⟨h, hl, le_rfl, fun _ => nofun⟩
  rw [hp] at hs
  have htaken : Taken s toOccur { s with pending := rest } := ⟨hp, rfl, hl, h.ticks, le_rfl⟩
  simp only at hs
  split_ifs at hs with hadvance hlater
  · -- the clock is advanced
    have htaken' : Taken s toOccur (advanceTo toOccur.when { s with pending := rest }) := by
      refine ⟨hp, rfl, hl, ?_, hadvance.2.le⟩
      have := h.ticks
      simp only [advanceTo]
      omega
    obtain ⟨ho, hlevel, hstats, -⟩ := h.fireUnlessIdle htaken' le_rfl hs
    refine ⟨ho, hlevel, ?_, fun hfalse => ?_⟩
    · rw [hstats]
      exact htaken'.le
    · rw [hfalse] at hadvance
      exact absurd hadvance.1 (by decide)
  · -- its time has not come
    obtain ⟨rfl, rfl⟩ := Prod.mk.inj (Except.ok.inj hs)
    exact ⟨h.putBack htaken, hl, le_rfl, fun _ => nofun⟩
  · obtain ⟨ho, hlevel, hstats, hcount⟩ := h.fireUnlessIdle htaken (le_of_not_gt hlater) hs
    refine ⟨ho, hlevel, by rw [hstats], fun _ hfired => ?_⟩
    rw [hcount hfired, dueCount, dueCount, hp, List.countP_cons_of_pos]
    · exact Nat.lt_succ_self _
    · exact decide_eq_true (le_of_not_gt hlater)

/-- The loop over `CheckIfDue` keeps the invariant. -/
theorem checkPending {fuel : ℕ} (h : s.Ordered)
    (hs : s.checkPending react fuel = .ok s') :
    s'.Ordered ∧ s.stats.totalTicks ≤ s'.stats.totalTicks := by
  induction fuel generalizing s with
  | zero => cases hs
  | succ fuel ih =>
    rw [Interrupt.checkPending] at hs
    obtain ⟨⟨fired, s₁⟩, hcheck, hrest⟩ := bind_eq_ok.1 hs
    obtain ⟨ho, -, hle, -⟩ := h.checkIfDue hcheck
    cases fired with
    | false =>
      obtain rfl := Except.ok.inj hrest
      exact ⟨ho, hle⟩
    | true =>
      obtain ⟨ho', hle'⟩ := ih ho hrest
      exact ⟨ho', hle.trans hle'⟩

/-- The time of one tick. -/
theorem advance (h : s.Ordered) (hs : s.advance = .ok s') :
    s'.Ordered ∧ s.stats.totalTicks ≤ s'.stats.totalTicks := by
  rw [Interrupt.advance] at hs
  have hticks := h.ticks
  simp only at hs
  split_ifs at hs
  all_goals
    obtain rfl := Except.ok.inj hs
    refine ⟨h.of_perm (List.Perm.refl _) h.sorted rfl ?_ ?_, ?_⟩
    all_goals
      simp only [systemTick, userTick]
      omega

theorem oneTick (h : s.Ordered) (hs : s.oneTick react = .ok s') :
    s'.Ordered ∧ s.stats.totalTicks ≤ s'.stats.totalTicks := by
  rw [Interrupt.oneTick] at hs
  obtain ⟨s₁, hadvance, hs⟩ := bind_eq_ok.1 hs
  obtain ⟨s₂, hcheck, hs⟩ := bind_eq_ok.1 hs
  obtain ⟨ho₁, hle₁⟩ := h.advance hadvance
  have ho₁' : ({ s₁ with level := .off } : Interrupt η).Ordered := ho₁.congr rfl rfl rfl
  obtain ⟨ho₂, hle₂⟩ := ho₁'.checkPending hcheck
  simp only at hs
  split_ifs at hs
  all_goals
    obtain rfl := Except.ok.inj hs
    exact ⟨ho₂.congr rfl rfl rfl, hle₁.trans hle₂⟩

theorem setLevel (h : s.Ordered) {now : IntStatus} (hs : s.setLevel react now = .ok s') :
    s'.Ordered ∧ s.stats.totalTicks ≤ s'.stats.totalTicks := by
  rw [Interrupt.setLevel] at hs
  have h' : ({ s with level := now } : Interrupt η).Ordered := h.congr rfl rfl rfl
  split_ifs at hs
  · exact h'.oneTick hs
  · obtain rfl := Except.ok.inj hs
    exact ⟨h', le_rfl⟩

theorem idle (h : s.Ordered) (hs : s.idle react = .ok s') :
    s'.Ordered ∧ s.stats.totalTicks ≤ s'.stats.totalTicks := by
  rw [Interrupt.idle] at hs
  have h' : ({ s with status := .idleMode } : Interrupt η).Ordered := h.congr rfl rfl rfl
  obtain ⟨⟨fired, s₁⟩, hcheck, hs⟩ := bind_eq_ok.1 hs
  obtain ⟨ho₁, -, hle₁, -⟩ := h'.checkIfDue hcheck
  cases fired with
  | false =>
    obtain rfl := Except.ok.inj hs
    exact ⟨ho₁.congr rfl rfl rfl, hle₁⟩
  | true =>
    obtain ⟨s₂, hall, hs⟩ := bind_eq_ok.1 hs
    obtain ⟨ho₂, hle₂⟩ := ho₁.checkPending hall
    obtain rfl := Except.ok.inj hs
    exact ⟨ho₂.congr rfl rfl rfl, hle₁.trans hle₂⟩

/-- Every call keeps the invariant, and time does not go back. -/
theorem perform (h : s.Ordered) {call : Call η} (hs : s.perform react call = .ok s') :
    s'.Ordered ∧ s.stats.totalTicks ≤ s'.stats.totalTicks := by
  simp only [Interrupt.perform] at hs
  split_ifs at hs
  cases call with
  | setLevel now => exact h.setLevel hs
  | oneTick => exact h.oneTick hs
  | idle => exact h.idle hs
  | schedule handler fromNow type =>
    obtain ⟨ho, -, hstats, -⟩ := h.schedule hs
    exact ⟨ho, by rw [hstats]⟩
  | setStatus st =>
    obtain rfl := Except.ok.inj hs
    exact ⟨h.congr rfl rfl rfl, le_rfl⟩

end Ordered

/-! ### The loop over `CheckIfDue` ends -/

section

variable {react : ℕ → List (HandlerCall η)}

theorem handlerCall_ne_outOfFuel (call : HandlerCall η) :
    s.handlerCall call ≠ .error .outOfFuel := by
  cases call with
  | schedule handler fromNow type =>
    simp only [handlerCall, schedule]
    split_ifs <;> simp
  | setLevel now => cases now <;> simp [handlerCall]
  | yieldOnReturn => simp [handlerCall]

theorem handlerCalls_ne_outOfFuel (calls : List (HandlerCall η)) :
    s.handlerCalls calls ≠ .error .outOfFuel := by
  induction calls generalizing s with
  | nil => exact nofun
  | cons call calls ih =>
    rw [handlerCalls, foldlM_cons_except]
    cases hc : s.handlerCall call with
    | error e =>
      rintro he
      cases he
      exact handlerCall_ne_outOfFuel call hc
    | ok s₁ => exact ih

theorem fireUnlessIdle_ne_outOfFuel (toOccur : PendingInterrupt η) :
    s.fireUnlessIdle react toOccur ≠ .error .outOfFuel := by
  rw [fireUnlessIdle]
  split_ifs
  · exact nofun
  · rw [fire, Ne, map_eq_error, map_eq_error]
    exact handlerCalls_ne_outOfFuel _

theorem checkIfDue_ne_outOfFuel (advanceClock : Bool) :
    s.checkIfDue react advanceClock ≠ .error .outOfFuel := by
  rw [checkIfDue]
  split_ifs
  · split
    · exact nofun
    · simp only
      split_ifs
      · exact fireUnlessIdle_ne_outOfFuel _
      · exact nofun
      · exact fireUnlessIdle_ne_outOfFuel _
  · exact nofun

theorem checkPending_ne_outOfFuel {fuel : ℕ} (h : s.Ordered) (hfuel : s.dueCount < fuel) :
    s.checkPending react fuel ≠ .error .outOfFuel := by
  induction fuel generalizing s with
  | zero => exact absurd hfuel (Nat.not_lt_zero _)
  | succ fuel ih =>
    rw [checkPending]
    cases hc : s.checkIfDue react false with
    | error e =>
      rintro he
      cases he
      exact checkIfDue_ne_outOfFuel false hc
    | ok v =>
      obtain ⟨fired, s₁⟩ := v
      obtain ⟨ho, -, -, hcount⟩ := h.checkIfDue hc
      cases fired with
      | false => exact nofun
      | true => exact ih ho (by have := hcount rfl rfl; omega)

/-- The loop does not use up its fuel. -/
theorem checkAll_ne_outOfFuel (h : s.Ordered) : s.checkAll react ≠ .error .outOfFuel :=
  checkPending_ne_outOfFuel h (Nat.lt_succ_of_le List.countP_le_length)

end

end Interrupt

/-! ### Runs -/

section

variable {react : ℕ → List (HandlerCall η)} {s s' : Interrupt η}

theorem ordered_of_reachable (h : (interruptSystem react).Reachable Always s) : s.Ordered := by
  refine h.invariant Interrupt.Ordered ?_ fun s call s' hs _ hstep => (hs.perform hstep).1
  rintro _ rfl
  exact .initial

theorem totalTicks_le_of_steps (h : (interruptSystem react).Reachable Always s)
    (hs : (interruptSystem react).Steps Always s s') :
    s.stats.totalTicks ≤ s'.stats.totalTicks := by
  have hboth : s'.Ordered ∧ s.stats.totalTicks ≤ s'.stats.totalTicks := by
    refine hs.invariant (fun s' => s'.Ordered ∧ s.stats.totalTicks ≤ s'.stats.totalTicks)
      ⟨ordered_of_reachable h, le_rfl⟩ fun s₁ call s₂ hs₁ _ hstep => ?_
    obtain ⟨ho, hle⟩ := hs₁.1.perform hstep
    exact ⟨ho, hs₁.2.trans hle⟩
  exact hboth.2

end

/-- In every state of every run: time does not go back from there and is the sum of its parts; no
handler has run twice, or before its time; every scheduled interrupt whose handler has not run is in
the pending list exactly once; the handlers have run in the order of their times, and with
interrupts disabled. -/
theorem interrupts_ordered [DecidableEq η] (react : ℕ → List (HandlerCall η)) (s : Interrupt η)
    (h : (interruptSystem react).Reachable Always s) :
    (∀ s', (interruptSystem react).Steps Always s s' →
      s.stats.totalTicks ≤ s'.stats.totalTicks) ∧
    s.stats.totalTicks = s.stats.idleTicks + s.stats.systemTicks + s.stats.userTicks ∧
    (s.history.runs.map HandlerRun.interrupt).Nodup ∧
    (∀ r ∈ s.history.runs, r.interrupt ∈ s.history.scheduled ∧ r.interrupt.when ≤ r.time) ∧
    (∀ i ∈ s.history.scheduled, i ∉ s.history.runs.map HandlerRun.interrupt →
      s.pending.count i = 1) ∧
    (s.history.runs.Pairwise fun r r' => r.interrupt.when ≤ r'.interrupt.when) ∧
    ∀ l ∈ s.history.levels, l = .off := by
  have ho := ordered_of_reachable h
  have hscheduled : s.history.scheduled.Nodup := by
    refine List.Nodup.of_map PendingInterrupt.serial ?_
    rw [ho.serials]
    exact List.nodup_range
  have hnodup := ho.perm.nodup_iff.2 hscheduled
  refine ⟨fun s' hs => totalTicks_le_of_steps h hs, ho.ticks, hnodup.of_append_right,
    fun r hr => ⟨?_, (ho.due r hr).1⟩, fun i hi hrun => ?_, ho.runs_sorted, ho.levels⟩
  · exact ho.perm.subset (List.mem_append_right _ (List.mem_map_of_mem hr))
  · have hmem : i ∈ s.pending :=
      (List.mem_append.1 (ho.perm.symm.subset hi)).resolve_right hrun
    exact List.count_eq_one_of_mem hnodup.of_append_left hmem

/-- A handler that schedules another interrupt: both handlers run, the second one after the
machine has idled. -/
theorem interrupts_ordered_of_two_handlers :
    ∃ s, (interruptSystem fun n => if n = 0 then [.schedule 1 4 .diskInt] else []).Reachable
        Always s ∧ s.history.runs.map HandlerRun.time = [10, 14] ∧
      s.stats.totalTicks = s.stats.idleTicks + s.stats.systemTicks + s.stats.userTicks ∧
      s.history.runs.Pairwise fun r r' => r.interrupt.when ≤ r'.interrupt.when := by
  obtain ⟨s, hs, ht⟩ := exists_reachable_of_runInputs
    (S := interruptSystem fun n => if n = 0 then [.schedule 1 4 .diskInt] else []) rfl
    [.schedule 0 5 .diskInt, .setLevel .on, .setLevel .off, .idle]
    (fun s => decide (s.history.runs.map HandlerRun.time = [10, 14])) (by decide)
  have h := interrupts_ordered _ s hs
  exact ⟨s, hs, of_decide_eq_true ht, h.2.1, h.2.2.2.2.2.1⟩

/-! ### Interrupts whose time has not come -/

namespace Interrupt

/-- `CheckIfDue` before the time of the first interrupt changes nothing if and only if no other
interrupt has the same time. -/
theorem checkIfDue_eq_self_iff (react : ℕ → List (HandlerCall η)) (s : Interrupt η)
    (first : PendingInterrupt η) (rest : List (PendingInterrupt η)) (hl : s.level = .off)
    (hp : s.pending = first :: rest) (hsorted : s.pending.Pairwise fun i j => i.when ≤ j.when)
    (hlater : s.stats.totalTicks < first.when) :
    checkIfDue react false s = .ok (false, s) ↔ ∀ i ∈ rest, i.when = first.when → i = first := by
  have hcheck : checkIfDue react false s =
      .ok (false, { s with pending := sortedInsert PendingInterrupt.when first rest }) := by
    rw [checkIfDue, if_pos hl, hp]
    simp only [insertPending, gt_iff_lt, hlater, reduceCtorEq, false_and, if_false, if_true]
  rw [hcheck, ← sortedInsert_eq_cons_iff (hp ▸ hsorted)]
  constructor
  · intro h
    exact (congrArg pending (Prod.mk.inj (Except.ok.inj h)).2).trans hp
  · intro h
    rw [h, ← hp]

/-- A disk and a console. -/
theorem checkIfDue_eq_self_of_two_times :
    let s : Interrupt ℕ :=
      { initial with pending := [⟨0, 20, .diskInt, 0⟩, ⟨1, 21, .consoleReadInt, 1⟩] }
    checkIfDue (fun _ => []) false s = .ok (false, s) :=
  (checkIfDue_eq_self_iff (fun _ => []) _ ⟨0, 20, .diskInt, 0⟩ [⟨1, 21, .consoleReadInt, 1⟩] rfl
    rfl (by decide) (by decide)).2 (by decide)

/-- A disk and a console at the same time: the one that was scheduled first becomes the second
one. -/
theorem checkIfDue_exchanges_two :
    ∃ s : Interrupt ℕ, (interruptSystem fun _ => []).Reachable Always s ∧
      s.pending.map PendingInterrupt.serial = [0, 1] ∧ s.stats.totalTicks = 0 ∧
      (checkIfDue (fun _ => []) false s).map
        (fun v => (v.1, v.2.pending.map PendingInterrupt.serial)) = .ok (false, [1, 0]) := by
  obtain ⟨s, hs, ht⟩ := exists_reachable_of_runInputs (S := interruptSystem fun _ => []) rfl
    [.schedule 0 20 .diskInt, .schedule 1 20 .consoleReadInt]
    (fun s => decide (s.pending.map PendingInterrupt.serial = [0, 1] ∧ s.stats.totalTicks = 0 ∧
      (checkIfDue (fun _ => []) false s).map
        (fun v => (v.1, v.2.pending.map PendingInterrupt.serial)) = .ok (false, [1, 0])))
    (by decide)
  exact ⟨s, hs, of_decide_eq_true ht⟩

end Interrupt

end Nachos.Devices
