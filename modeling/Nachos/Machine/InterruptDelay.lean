import Nachos.Machine.InterruptOrder

/-!
# How late interrupts are

Whenever the clock advances, `OneTick` calls the handlers of all interrupts that have become due. No
interrupt whose time is over is left when other code runs, and a handler is called at most
`SystemTick` ticks after the time of its interrupt, which is by how much a tick of the kernel
advances the clock.

While the status is `IdleMode`, an interrupt of the timer is not called if it is the last one.
`Idle` leaves this status before it returns, so that the next tick calls the handler.

## Main definitions

* `Interrupt.Prompt`: how much the interrupts are late that are pending, and the handlers that have
  run.

## Main results

* `Interrupt.checkIfDue_cases`: what a call of `CheckIfDue` can do.
* `handlers_prompt`: in every run, no interrupt is overdue between two calls, and no handler was
  called too late.
-/

namespace Nachos.Devices

open Foundations StepSystem
open Threads (IntStatus)

variable {η : Type} {react : ℕ → List (HandlerCall η)} {d : ℤ}

namespace Interrupt

variable {s s' s₁ : Interrupt η} {toOccur : PendingInterrupt η}

/-! ### What a call of `CheckIfDue` can do -/

/-- What remains the same when handlers call `Schedule` or `YieldOnReturn`. -/
theorem stats_of_handlerCalls {calls : List (HandlerCall η)} (hs : s.handlerCalls calls = .ok s') :
    s'.stats = s.stats ∧ s'.history.runs = s.history.runs := by
  refine foldlM_invariant (fun s' => s'.stats = s.stats ∧ s'.history.runs = s.history.runs) hs
    ⟨rfl, rfl⟩ fun call _ s₁ s₂ h₁ h₂ => ?_
  obtain ⟨s₃, hcall, rfl⟩ := map_eq_ok.1 h₂
  cases call with
  | schedule handler fromNow type =>
    simp only [handlerCall, schedule] at hcall
    split_ifs at hcall
    cases hcall
    exact h₁
  | setLevel now =>
    cases now with
    | on => cases hcall
    | off =>
      cases hcall
      exact h₁
  | yieldOnReturn =>
    cases hcall
    exact h₁

/-- The call of a handler. -/
theorem runs_of_fire (hs : s.fire react toOccur = .ok s') : s'.stats = s.stats ∧
    s'.status = s.status ∧
    s'.history.runs = s.history.runs ++ [⟨toOccur, s.stats.totalTicks⟩] := by
  obtain ⟨s₂, hcalls, rfl⟩ := map_eq_ok.1 hs
  obtain ⟨hstats, hruns⟩ := stats_of_handlerCalls hcalls
  exact ⟨hstats, rfl, hruns⟩

/-- A call of `CheckIfDue` either puts back what it has taken off the list, or calls the handler of
the first interrupt, to whose time it may have advanced the clock. -/
theorem checkIfDue_cases {advanceClock fired : Bool}
    (hs : s.checkIfDue react advanceClock = .ok (fired, s')) :
    (fired = false ∧ s'.pending.Perm s.pending ∧ s'.history = s.history ∧ s'.status = s.status ∧
      (s'.stats = s.stats ∨ advanceClock = true ∧ ∃ toOccur rest,
        s.pending = toOccur :: rest ∧ s'.stats.totalTicks = toOccur.when)) ∨
    ∃ (toOccur : PendingInterrupt η) (s₁ : Interrupt η), fired = true ∧
      s.pending = toOccur :: s₁.pending ∧ s₁.history = s.history ∧ s₁.status = s.status ∧
      toOccur.when ≤ s₁.stats.totalTicks ∧
      (s₁.stats = s.stats ∨ advanceClock = true ∧ s₁.stats.totalTicks = toOccur.when) ∧
      s₁.fire react toOccur = .ok s' := by
  rw [checkIfDue] at hs
  split_ifs at hs
  rcases hp : s.pending with _ | ⟨toOccur, rest⟩
  · rw [hp] at hs
    cases hs
    exact .inl ⟨rfl, hp ▸ .refl _, rfl, rfl, .inl rfl⟩
  rw [hp] at hs
  have hperm : (sortedInsert PendingInterrupt.when toOccur rest).Perm (toOccur :: rest) :=
    perm_sortedInsert ..
  simp only [fireUnlessIdle] at hs
  split_ifs at hs with hadvance hidle hlater hidle
  · cases hs
    exact .inl ⟨rfl, hperm, rfl, rfl, .inr ⟨hadvance.1, toOccur, rest, rfl, rfl⟩⟩
  · obtain ⟨s₂, hfire, hpair⟩ := map_eq_ok.1 hs
    cases hpair
    exact .inr ⟨toOccur, advanceTo toOccur.when { s with pending := rest }, rfl, rfl, rfl, rfl,
      le_rfl, .inr ⟨hadvance.1, rfl⟩, hfire⟩
  · cases hs
    exact .inl ⟨rfl, hperm, rfl, rfl, .inl rfl⟩
  · cases hs
    exact .inl ⟨rfl, hperm, rfl, rfl, .inl rfl⟩
  · obtain ⟨s₂, hfire, hpair⟩ := map_eq_ok.1 hs
    cases hpair
    exact .inr ⟨toOccur, { s with pending := rest }, rfl, rfl, rfl, rfl, le_of_not_gt hlater,
      .inl rfl, hfire⟩

/-- When `CheckIfDue` has not called a handler, then no interrupt is due, unless the machine is
idle. -/
theorem lt_of_checkIfDue (hsorted : s.pending.Pairwise fun i j => i.when ≤ j.when)
    (hstatus : s.status ≠ .idleMode) (hs : s.checkIfDue react false = .ok (false, s')) :
    ∀ i ∈ s.pending, s.stats.totalTicks < i.when := by
  rw [checkIfDue] at hs
  split_ifs at hs
  rcases hp : s.pending with _ | ⟨toOccur, rest⟩
  · simp
  rw [hp] at hs hsorted
  simp only [fireUnlessIdle, false_and, if_false, hstatus] at hs
  split_ifs at hs with hlater
  · intro i hi
    rcases List.mem_cons.1 hi with rfl | hi
    · exact hlater
    · exact hlater.trans_le ((List.pairwise_cons.1 hsorted).1 i hi)
  · obtain ⟨s₂, -, hpair⟩ := map_eq_ok.1 hs
    cases hpair

/-! ### Handlers are called in time -/

/-- The pending interrupts are late by at most `d`, and the handlers were called at most
`SystemTick` after the times of their interrupts. -/
structure Prompt (d : ℤ) (s : Interrupt η) : Prop where
  pending : ∀ i ∈ s.pending, s.stats.totalTicks ≤ i.when + d
  runs : ∀ r ∈ s.history.runs, r.time ≤ r.interrupt.when + systemTick

namespace Prompt

theorem congr (h : s.Prompt d) (hpending : s'.pending.Perm s.pending)
    (hstats : s'.stats.totalTicks = s.stats.totalTicks)
    (hruns : s'.history.runs = s.history.runs) : s'.Prompt d :=
  ⟨fun i hi => hstats ▸ h.pending i (hpending.mem_iff.1 hi), hruns ▸ h.runs⟩

theorem schedule (h : s.Prompt d) (hd : 0 ≤ d) {handler : η} {fromNow : ℤ} {type : IntType}
    (hs : s.schedule handler fromNow type = .ok s') : s'.Prompt d := by
  simp only [Interrupt.schedule] at hs
  split_ifs at hs
  cases hs
  refine ⟨fun i hi => ?_, h.runs⟩
  rcases mem_sortedInsert.1 hi with rfl | hi
  · simp only [insertPending]
    omega
  · exact h.pending i hi

theorem handlerCalls (h : s.Prompt d) (hd : 0 ≤ d) {calls : List (HandlerCall η)}
    (hs : s.handlerCalls calls = .ok s') : s'.Prompt d := by
  refine foldlM_invariant (Prompt d) hs h fun call _ s₁ s₂ h₁ h₂ => ?_
  obtain ⟨s₃, hcall, rfl⟩ := map_eq_ok.1 h₂
  have h₃ : s₃.Prompt d := by
    cases call with
    | schedule handler fromNow type => exact h₁.schedule hd hcall
    | setLevel now =>
      cases now with
      | on => cases hcall
      | off =>
        cases hcall
        exact h₁.congr (.refl _) rfl rfl
    | yieldOnReturn =>
      cases hcall
      exact h₁.congr (.refl _) rfl rfl
  exact h₃.congr (.refl _) rfl rfl

theorem fire (h : s.Prompt d) (hd : 0 ≤ d)
    (hlate : s.stats.totalTicks ≤ toOccur.when + systemTick)
    (hs : s.fire react toOccur = .ok s') : s'.Prompt d := by
  obtain ⟨s₂, hcalls, rfl⟩ := map_eq_ok.1 hs
  have h₂ : s₂.Prompt d := by
    refine handlerCalls ?_ hd hcalls
    refine ⟨h.pending, fun r hr => ?_⟩
    rcases List.mem_append.1 hr with hr | hr
    · exact h.runs r hr
    · rw [List.mem_singleton.1 hr]
      exact hlate
  exact h₂.congr (.refl _) rfl rfl

theorem checkIfDue (h : s.Prompt d) (hd : 0 ≤ d) (hle : d ≤ systemTick)
    (hsorted : s.pending.Pairwise fun i j => i.when ≤ j.when) {advanceClock fired : Bool}
    (hs : s.checkIfDue react advanceClock = .ok (fired, s')) : s'.Prompt d := by
  have hfirst {toOccur : PendingInterrupt η} {rest : List (PendingInterrupt η)}
      (hp : s.pending = toOccur :: rest) : ∀ i ∈ s.pending, toOccur.when ≤ i.when + d := by
    rw [hp] at hsorted ⊢
    intro i hi
    rcases List.mem_cons.1 hi with rfl | hi
    · omega
    · have := (List.pairwise_cons.1 hsorted).1 i hi
      omega
  rcases checkIfDue_cases hs with ⟨-, hperm, hhistory, -, hstats⟩ |
    ⟨toOccur, s₁, -, hp, hhistory, -, -, hstats, hfire⟩
  · refine ⟨fun i hi => ?_, hhistory ▸ h.runs⟩
    have hi := hperm.mem_iff.1 hi
    rcases hstats with hstats | ⟨-, toOccur, rest, hp, hstats⟩
    · rw [hstats]
      exact h.pending i hi
    · rw [hstats]
      exact hfirst hp i hi
  · have hmem {i : PendingInterrupt η} (hi : i ∈ toOccur :: s₁.pending) :
        s₁.stats.totalTicks ≤ i.when + d := by
      rw [← hp] at hi
      rcases hstats with hstats | ⟨-, hstats⟩
      · rw [hstats]
        exact h.pending i hi
      · rw [hstats]
        exact hfirst hp i hi
    have h₁ : s₁.Prompt d := ⟨fun i hi => hmem (List.mem_cons_of_mem _ hi), hhistory ▸ h.runs⟩
    exact h₁.fire hd ((hmem (List.mem_cons_self ..)).trans (by omega)) hfire

/-- The loop over `CheckIfDue` leaves no interrupt that is due, unless the machine is idle. -/
theorem checkPending {fuel : ℕ} (h : s.Prompt d) (hd : 0 ≤ d) (hle : d ≤ systemTick)
    (ho : s.Ordered) (hs : s.checkPending react fuel = .ok s') :
    s'.Prompt d ∧ s'.status = s.status ∧ (s.status ≠ .idleMode → s'.Prompt 0) := by
  induction fuel generalizing s with
  | zero => cases hs
  | succ fuel ih =>
    rw [Interrupt.checkPending] at hs
    obtain ⟨⟨fired, s₁⟩, hcheck, hrest⟩ := bind_eq_ok.1 hs
    have h₁ := h.checkIfDue hd hle ho.sorted hcheck
    cases fired with
    | false =>
      cases hrest
      rcases checkIfDue_cases hcheck with ⟨-, hperm, -, hstatus, hstats⟩ | ⟨_, _, hfalse, -⟩
      · refine ⟨h₁, hstatus, fun hidle => ⟨fun i hi => ?_, h₁.runs⟩⟩
        have hlt := lt_of_checkIfDue ho.sorted hidle hcheck i (hperm.mem_iff.1 hi)
        obtain hstats | ⟨hfalse, -⟩ := hstats
        · rw [hstats]
          omega
        · cases hfalse
      · cases hfalse
    | true =>
      rcases checkIfDue_cases hcheck with ⟨hfalse, -⟩ | ⟨_, _, -, -, -, hstatus, -, -, hfire⟩
      · cases hfalse
      · obtain ⟨h', hstatus', hzero⟩ := ih h₁ (ho.checkIfDue hcheck).1 hrest
        rw [(runs_of_fire hfire).2.1, hstatus] at hstatus' hzero
        exact ⟨h', hstatus', hzero⟩

/-- A tick makes the interrupts late by at most `SystemTick`. -/
theorem advance (h : s.Prompt 0) (hs : s.advance = .ok s') :
    s'.Prompt systemTick ∧ s'.status = s.status := by
  have hpending := h.pending
  simp only [Interrupt.advance] at hs
  split_ifs at hs
  all_goals
    cases hs
    refine ⟨⟨fun i hi => ?_, h.runs⟩, rfl⟩
    have := hpending i hi
    simp only [systemTick, userTick] at *
    omega

theorem oneTick (h : s.Prompt 0) (ho : s.Ordered) (hstatus : s.status ≠ .idleMode)
    (hs : s.oneTick react = .ok s') : s'.Prompt 0 ∧ s'.status ≠ .idleMode := by
  rw [Interrupt.oneTick] at hs
  obtain ⟨s₁, hadvance, hs⟩ := bind_eq_ok.1 hs
  obtain ⟨s₂, hcheck, hs⟩ := bind_eq_ok.1 hs
  obtain ⟨h₁, hstatus₁⟩ := h.advance hadvance
  have ho₁ : ({ s₁ with level := .off } : Interrupt η).Ordered :=
    (ho.advance hadvance).1.congr rfl rfl rfl
  have h₁' : ({ s₁ with level := .off } : Interrupt η).Prompt systemTick :=
    h₁.congr (.refl _) rfl rfl
  obtain ⟨-, hstatus₂, hzero⟩ := h₁'.checkPending (by decide) le_rfl ho₁ hcheck
  have hidle : s₁.status ≠ .idleMode := hstatus₁ ▸ hstatus
  simp only at hs
  split_ifs at hs
  all_goals cases hs
  · exact ⟨(hzero hidle).congr (.refl _) rfl rfl, by simp⟩
  · exact ⟨(hzero hidle).congr (.refl _) rfl rfl, hstatus₂ ▸ hidle⟩

theorem idle (h : s.Prompt 0) (ho : s.Ordered) (hs : s.idle react = .ok s') :
    s'.Prompt 0 ∧ (s'.halted = false → s'.status ≠ .idleMode) := by
  rw [Interrupt.idle] at hs
  have ho' : ({ s with status := .idleMode } : Interrupt η).Ordered := ho.congr rfl rfl rfl
  have h' : ({ s with status := .idleMode } : Interrupt η).Prompt 0 := h.congr (.refl _) rfl rfl
  obtain ⟨⟨fired, s₁⟩, hcheck, hs⟩ := bind_eq_ok.1 hs
  have h₁ := h'.checkIfDue le_rfl (by decide) ho'.sorted hcheck
  cases fired with
  | false =>
    cases hs
    exact ⟨h₁.congr (.refl _) rfl rfl, by simp⟩
  | true =>
    obtain ⟨s₂, hall, hs⟩ := bind_eq_ok.1 hs
    obtain ⟨h₂, -, -⟩ := h₁.checkPending le_rfl (by decide) (ho'.checkIfDue hcheck).1 hall
    cases hs
    exact ⟨h₂.congr (.refl _) rfl rfl, by simp⟩

theorem setLevel (h : s.Prompt 0) (ho : s.Ordered) (hstatus : s.status ≠ .idleMode)
    {now : IntStatus} (hs : s.setLevel react now = .ok s') :
    s'.Prompt 0 ∧ s'.status ≠ .idleMode := by
  rw [Interrupt.setLevel] at hs
  have h' : ({ s with level := now } : Interrupt η).Prompt 0 := h.congr (.refl _) rfl rfl
  split_ifs at hs
  · exact h'.oneTick (ho.congr rfl rfl rfl) hstatus hs
  · cases hs
    exact ⟨h', hstatus⟩

/-- Every call keeps the invariant, if it does not set the status to `IdleMode`. -/
theorem perform (h : s.Prompt 0) (ho : s.Ordered)
    (hstatus : s.halted = false → s.status ≠ .idleMode) {call : Call η}
    (hcall : call ≠ .setStatus .idleMode) (hs : s.perform react call = .ok s') :
    s'.Prompt 0 ∧ (s'.halted = false → s'.status ≠ .idleMode) := by
  simp only [Interrupt.perform] at hs
  split_ifs at hs with hhalted
  have hidle := hstatus (by simpa using hhalted)
  cases call with
  | setLevel now =>
    obtain ⟨h₁, hidle₁⟩ := h.setLevel ho hidle hs
    exact ⟨h₁, fun _ => hidle₁⟩
  | oneTick =>
    obtain ⟨h₁, hidle₁⟩ := h.oneTick ho hidle hs
    exact ⟨h₁, fun _ => hidle₁⟩
  | idle => exact h.idle ho hs
  | schedule handler fromNow type =>
    refine ⟨h.schedule le_rfl hs, fun _ => ?_⟩
    simp only [Interrupt.schedule] at hs
    split_ifs at hs
    cases hs
    exact hidle
  | setStatus st =>
    cases hs
    exact ⟨h.congr (.refl _) rfl rfl, fun _ hst => hcall (congrArg Call.setStatus hst)⟩

end Prompt

end Interrupt

/-! ### Runs -/

/-- Other code does not set the status to `IdleMode`: it restores the status that it has found. -/
def NotIdle (_ : Interrupt η) (call : Call η) : Prop := call ≠ .setStatus .idleMode

/-- Whatever the handlers and other code do: between two calls, the time of no pending interrupt is
over, and every handler was called at its time or at most `SystemTick` ticks later. -/
theorem handlers_prompt (react : ℕ → List (HandlerCall η)) (s : Interrupt η)
    (h : (interruptSystem react).Reachable NotIdle s) :
    (∀ i ∈ s.pending, s.stats.totalTicks ≤ i.when) ∧
    ∀ r ∈ s.history.runs, r.interrupt.when ≤ r.time ∧ r.time ≤ r.interrupt.when + systemTick := by
  have hinv : s.Ordered ∧ s.Prompt 0 ∧ (s.halted = false → s.status ≠ .idleMode) := by
    refine h.invariant (fun s => s.Ordered ∧ s.Prompt 0 ∧ (s.halted = false → s.status ≠ .idleMode))
      ?_ fun s call s' hs hcall hstep => ?_
    · rintro _ rfl
      exact ⟨.initial, ⟨by simp [Interrupt.initial], by simp [Interrupt.initial]⟩,
        by simp [Interrupt.initial]⟩
    · obtain ⟨ho, hprompt, hidle⟩ := hs
      exact ⟨(ho.perform hstep).1, hprompt.perform ho hidle hcall hstep⟩
  obtain ⟨ho, hprompt, -⟩ := hinv
  exact ⟨fun i hi => by simpa using hprompt.pending i hi,
    fun r hr => ⟨(ho.due r hr).1, hprompt.runs r hr⟩⟩

/-- A test that the status is not set. -/
def setsNothing (_ : Interrupt ℕ) : Call ℕ → Bool
  | .setStatus _ => false
  | _ => true

theorem notIdle_of_setsNothing (s : Interrupt ℕ) (call : Call ℕ) (h : setsNothing s call = true) :
    NotIdle s call := by
  rintro rfl
  cases h

/-- The first interrupt is late, as a tick of the kernel has gone over its time. The machine idles
until the second one. -/
theorem handlers_prompt_of_two_handlers :
    ∃ s, (interruptSystem fun n => if n = 0 then [.schedule 1 4 .diskInt] else []).Reachable
        NotIdle s ∧ s.history.runs.map (fun r => (r.interrupt.when, r.time)) = [(5, 10), (14, 14)] ∧
      ∀ r ∈ s.history.runs,
        r.interrupt.when ≤ r.time ∧ r.time ≤ r.interrupt.when + systemTick := by
  obtain ⟨s, hs, ht⟩ := exists_reachable_of_runInputsIf
    (S := interruptSystem fun n => if n = 0 then [.schedule 1 4 .diskInt] else []) rfl
    notIdle_of_setsNothing [.schedule 0 5 .diskInt, .setLevel .on, .setLevel .off, .idle]
    (fun s => decide (s.history.runs.map (fun r => (r.interrupt.when, r.time)) =
      [(5, 10), (14, 14)])) (by decide)
  exact ⟨s, hs, of_decide_eq_true ht, (handlers_prompt _ s hs).2⟩

end Nachos.Devices
