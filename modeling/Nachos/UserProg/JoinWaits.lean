import Nachos.UserProg.ExecResult

/-!
# What `Join` waits for

`SC_Join` and `CleanupExit` communicate through one semaphore for each parent: an exit of any child
calls `V`, and `Join` for any child calls `P`. `Join` returns 0 after it has taken a unit, which
may be that of another child: one left over from an exit that nobody waited for, or one that was
meant for another thread. As long as no unit is taken or given in this way, the child has exited.

## Main definitions

* `UserKernel.ReturnsFromJoin`: the next step returns from `Join`.
* `UserKernel.HasExited`, `UserKernel.Gone`: a process has exited, and its entry is removed.
* `UserKernel.JoinsFit`: units go to threads whose child has exited.
* `UserKernel.Joining`: the invariant.

## Main results

* `gone_of_join`: if units only go to threads whose child has exited, `Join` returns 0 only after
  the exit.
-/

namespace Nachos.UserProg

open Foundations StepSystem Threads Machine Function

namespace UserKernel

variable {k k' : UserKernel} {memAll : MemAll} {merged : Bool} {i : Input Empty UserInput} {t : ℕ}
  {c : ℤ}

/-- The process with this PID has executed `Exit`. -/
def HasExited (k : UserKernel) (c : ℤ) : Prop := ∃ t ∈ k.env.exited, c = (t : ℤ)

/-- The process has executed `Exit`, and has no entry any more. -/
def Gone (k : UserKernel) (c : ℤ) : Prop :=
  k.HasExited c ∧ ∀ a ∈ k.env.pcb.entries, k.env.pcb.list.pid a ≠ c

/-- The step from `k` to `k'` returns from `Join` for the process `c`: the instruction has nothing
more to do, or `P` has returned. -/
inductive ReturnsFromJoin (k k' : UserKernel) (c : ℤ) : Prop
  | atOnce (s : UserState) (fs : List (Frame ℕ UserSemaphore UserCode))
    (hstack : k.stack k.currentThread = .call (.code .run) :: fs) (htrap : k.env.trapped = some s)
    (hjoin : s.registers.gpr 2 = 3) (harg : c = (s.registers.gpr 4).toInt)
    (hreturn : k'.stack k.currentThread = .call .oneTick :: .call (.code .run) :: fs)
  | joined (fs : List (Frame ℕ UserSemaphore UserCode))
    (hstack : k.stack k.currentThread = .call (.code (.joined c)) :: fs)

/-- What the next step must not do, for `Join` to wait for the right process. -/
structure JoinsFit (k : UserKernel) : Prop where
  /-- A process exits after its entry has been appended. -/
  exit : k.Exits → ¬k.EntryPending k.currentThread
  /-- `Join` calls `P` when no unit is left over, unless the child has exited. -/
  wait : ∀ a fs c, k.stack k.currentThread = .call (.p (.process a)) :: fs →
    .code (.joined c) ∈ k.tasks k.currentThread →
    (k.semaphore (.process a)).value = 0 ∨ k.HasExited c
  /-- `V` wakes a thread whose child has exited. -/
  wake : ∀ a fs u c, k.stack k.currentThread = .call (.v (.process a)) :: fs →
    u ∈ (k.semaphore (.process a)).queue.head? → .code (.joined c) ∈ k.tasks u → k.HasExited c

/-- How far the thread `t` is in `Join`. -/
inductive Joining (k : UserKernel) (t : ℕ) : Prop
  | no (h : ∀ c, .code (.joined c) ∉ k.tasks t)
  /-- The thread has still to take a unit. It has not been woken up before the child has exited. -/
  | waits (a : ℕ) (c : ℤ) (rest : List UserCall)
    (htask : k.tasks t = .p (.process a) :: .code (.joined c) :: rest)
    (hrest : ∀ c, .code (.joined c) ∉ rest)
    (hwoken : .retest (.process a) ∈ k.stack t → t ∈ (k.semaphore (.process a)).queue ∨
      k.HasExited c)
  | done (c : ℤ) (rest : List UserCall) (htask : k.tasks t = .code (.joined c) :: rest)
    (hrest : ∀ c, .code (.joined c) ∉ rest) (hexited : k.HasExited c)

/-- A thread that does not have to take a unit returns from `Join` at once, if at all. -/
theorem Joining.notMem (h : k.Joining t) {call : UserCall} {rest : List UserCall}
    (htask : k.tasks t = call :: rest) (hp : ∀ a, call ≠ .p (.process a)) :
    ∀ c, .code (.joined c) ∉ rest := by
  cases h with
  | no h => exact fun c hmem => h c (htask ▸ List.mem_cons_of_mem _ hmem)
  | waits a c rest' htask' =>
    rw [htask'] at htask
    injection htask with he
    exact absurd he.symm (hp a)
  | done c rest' htask' hrest =>
    rw [htask'] at htask
    injection htask with _ he
    exact he ▸ hrest

/-- The calls of a thread stay as they are. -/
theorem Joining.congr (h : k.Joining t) (htask : k'.tasks t = k.tasks t)
    (hretest : ∀ s, .retest s ∈ k'.stack t → .retest s ∈ k.stack t ∨ t ∈ (k'.semaphore s).queue)
    (hqueue : ∀ a, t ∈ (k.semaphore (.process a)).queue →
      t ∈ (k'.semaphore (.process a)).queue ∨ ∀ c, .code (.joined c) ∈ k.tasks t → k.HasExited c)
    (hexited : ∀ c, k.HasExited c → k'.HasExited c) : k'.Joining t := by
  cases h with
  | no h => exact .no (htask ▸ h)
  | waits a c rest htask' hrest hwoken =>
    refine .waits a c rest (htask.trans htask') hrest fun hmem => ?_
    obtain hmem | hmem := hretest _ hmem
    · obtain hq | hex := hwoken hmem
      · exact (hqueue a hq).imp_right fun hall => hexited c (hall c (by simp [htask']))
      · exact .inr (hexited c hex)
    · exact .inl hmem
  | done c rest htask' hrest hex => exact .done c rest (htask.trans htask') hrest (hexited c hex)

/-- Which code calls `P` for `Join`. -/
theorem joined_of_exec {code : UserCode} {calls : List UserCall}
    (hexec : (userClient memAll merged).exec t code i.code k.env = .ok (k'.env, calls))
    (hmem : .code (.joined c) ∈ calls) :
    ∃ a, calls = [.p (.process a), .code (.joined c), .oneTick, .code .run] := by
  cases code with
  | startProcess =>
    obtain ⟨-, rfl⟩ | ⟨-, file, map₀, space, map, mainMemory, -, -, h⟩ := startProcess_eq_ok hexec
    · cases hmem
    · obtain ⟨-, list, -, -, rfl⟩ | ⟨-, -, rfl⟩ := h
      · simp [startCalls] at hmem
      · simp at hmem
  | processCreator | countProcess | uncountProcess | joined | yielded =>
    obtain ⟨-, rfl⟩ := Prod.mk.inj (Except.ok.inj hexec)
    simp at hmem
  | initRegisters =>
    simp only [userClient] at hexec
    split at hexec
    · cases hexec
    · obtain ⟨-, rfl⟩ := Prod.mk.inj (Except.ok.inj hexec)
      simp at hmem
  | append a pid =>
    obtain ⟨list, -, heq⟩ := map_eq_ok.1 hexec
    obtain ⟨-, rfl⟩ := Prod.mk.inj heq
    cases hmem
  | run =>
    obtain ⟨⟨s, cs⟩, hrun, heq⟩ := map_eq_ok.1 hexec
    obtain ⟨rfl, rfl⟩ := Prod.mk.inj heq
    have hmem' : .code (.joined c) ∈ cs := by simpa using hmem
    cases effect_of_instruction hrun with
    | machine | execFailed => cases hmem'
    | yield => simp at hmem'
    | join h ha hvalid hb =>
      obtain rfl : c = _ := by simpa using hmem'
      exact ⟨_, rfl⟩
    | load file hlt h hload =>
      obtain ⟨space, map, mainMemory, -, -, rfl⟩ := load_eq_ok hload
      split_ifs at hmem'
      · simp [execCalls] at hmem'
      · simp at hmem'
    | exit h hexit =>
      obtain ⟨_, _, _, _, _, _, parent, -, -, -, -, -, rfl⟩ := exit_eq_ok hexit
      cases parent <;> simp [exitCalls] at hmem'

/-- A process that has exited does not come back. -/
theorem Sane.hasExited_step (h : k.Sane) (hw : k.step (userClient memAll merged) i = .ok k')
    (hc : k.HasExited c) : k'.HasExited c := by
  obtain ⟨-, o, hmove, -⟩ := h.step hw
  obtain ⟨t, ht, hct⟩ := hc
  exact ⟨t, hmove.exited_subset ht, hct⟩

/-- A thread that executes code has not called `P` before. -/
theorem Sane.retest_notMem (h : k.Sane) {call : UserCall}
    {fs : List (Frame ℕ UserSemaphore UserCode)}
    (hstack : k.stack k.currentThread = .call call :: fs) (s : UserSemaphore) :
    .retest s ∉ k.stack k.currentThread := by
  intro hmem
  rw [hstack] at hmem
  obtain ⟨call', hcall⟩ := h.sound.isClientCode hstack _ hmem
  cases hcall

/-- The current thread executes code, and may call `Join`. -/
theorem Joining.of_exec (h : k.Joining k.currentThread) (hs : k.Sane) {code : UserCode}
    {calls rest : List UserCall} {fs : List (Frame ℕ UserSemaphore UserCode)}
    (hstack : k.stack k.currentThread = .call (.code code) :: fs)
    (hexec : (userClient memAll merged).exec k.currentThread code i.code k.env =
      .ok (k'.env, calls))
    (htask : k.tasks k.currentThread = .code code :: rest)
    (htask' : k'.tasks k.currentThread = calls.filterMap Call.task ++ rest)
    (hretest : ∀ s, .retest s ∈ k'.stack k.currentThread → .retest s ∈ k.stack k.currentThread ∨
      k.currentThread ∈ (k'.semaphore s).queue) : k'.Joining k.currentThread := by
  have hrest := h.notMem htask (by simp)
  by_cases hmem : ∃ c, .code (.joined c) ∈ calls
  · obtain ⟨c, hmem⟩ := hmem
    obtain ⟨a, rfl⟩ := joined_of_exec hexec hmem
    refine .waits a c (.code .run :: rest) htask' (fun c' => ?_) fun hr => .inl ?_
    · simpa using hrest c'
    · exact (hretest _ hr).resolve_left (hs.retest_notMem hstack _)
  · refine .no fun c hc => ?_
    rw [htask'] at hc
    obtain hc | hc := List.mem_append.1 hc
    · obtain ⟨call, hcall, he⟩ := List.mem_filterMap.1 hc
      cases call with
      | code code =>
        cases he
        exact hmem ⟨c, hcall⟩
      | yield | oneTick => cases he
      | p | v | fork | sleep | finish => cases he
    · exact hrest c hc

/-- The current thread takes a unit. -/
theorem Joining.of_take (h : k.Joining k.currentThread) (hs : k.Sane) (hC : k.JoinsFit)
    (hexited : ∀ c, k.HasExited c → k'.HasExited c) {s : UserSemaphore} {rest : List UserCall}
    {fs : List (Frame ℕ UserSemaphore UserCode)}
    (hstack : k.stack k.currentThread = .call (.p s) :: fs ∨
      k.stack k.currentThread = .retest s :: fs)
    (htask : k.tasks k.currentThread = .p s :: rest) (hvalue : (k.semaphore s).value ≠ 0)
    (htask' : k'.tasks k.currentThread = rest) : k'.Joining k.currentThread := by
  cases h with
  | no h => exact .no fun c hmem => h c (htask ▸ List.mem_cons_of_mem _ (htask' ▸ hmem))
  | done c rest' htask'' => cases htask.symm.trans htask''
  | waits a c rest' htask'' hrest hwoken =>
    obtain ⟨hsem, rfl⟩ := List.cons.inj (htask.symm.trans htask'')
    cases hsem
    refine .done c rest' htask' hrest (hexited c ?_)
    obtain hstack | hstack := hstack
    · exact (hC.wait a fs c hstack (by simp [htask])).resolve_left hvalue
    · have hset := hs.sound.settled_of_calling hstack (.inr ⟨_, rfl⟩)
      exact (hwoken (by simp [hstack])).resolve_left (hset.current_notMem_queue _)

/-- A step that meets the condition keeps the invariant. -/
theorem joining_step (h : ∀ t, k.Joining t) (hs : k.Sane) (hC : k.JoinsFit)
    (hw : k.step (userClient memAll merged) i = .ok k') (t : ℕ) : k'.Joining t := by
  obtain ⟨f, fs, hadv⟩ := hs.sound.advances_of_step hw
  have hretest := fun t s => hadv.retest_of_mem (t := t) (s := s)
  have hexited := fun c => hs.hasExited_step (c := c) hw
  -- a thread whose calls stay as they are
  have hsame (htask : k'.tasks t = k.tasks t) (hsem : k'.semaphore = k.semaphore) :
      k'.Joining t :=
    (h t).congr htask (hretest t) (fun a hq => .inl (hsem ▸ hq)) hexited
  -- a thread that goes on after a call that is not `P`
  have htail {call : UserCall} {rest : List UserCall} (htask : k.tasks t = call :: rest)
      (hp : ∀ a, call ≠ .p (.process a)) (htask' : k'.tasks t = rest) : k'.Joining t :=
    .no (htask' ▸ (h t).notMem htask hp)
  cases Kernel.progress_of_step hw with
  | exec code rest fs calls hstack hstack' hexec htask htasks hsem hforked hcur =>
    by_cases ht : t = k.currentThread
    · subst ht
      exact (h _).of_exec hs hstack hexec htask (by rw [htasks, update_self]) (hretest _)
    · exact hsame (by rw [htasks, update_of_ne ht]) hsem
  | fork u func rest fs hstack htask hnew htasks hsem henv hforked hcur =>
    obtain ⟨rfl, -⟩ := hs.fork _ u func (htask ▸ List.mem_cons_self)
    by_cases htu : t = u
    · exact .no fun c hmem => by simp [htasks, htu] at hmem
    · by_cases ht : t = k.currentThread
      · subst ht
        exact htail htask (by simp) (by rw [htasks, update_of_ne htu, update_self])
      · exact hsame (by rw [htasks, update_of_ne htu, update_of_ne ht]) hsem
  | wait s rest fs hstack htask hvalue htasks hsem henv hforked hcur =>
    refine (h t).congr (congrFun htasks t) (hretest t) (fun a hq => .inl ?_) hexited
    by_cases hs : s = .process a
    · subst hs
      rw [hsem, update_self]
      exact List.mem_append_left _ hq
    · rwa [hsem, update_of_ne (Ne.symm hs)]
  | take s rest fs hstack htask hvalue htasks hsem henv hforked hcur =>
    by_cases ht : t = k.currentThread
    · subst ht
      exact (h _).of_take hs hC hexited hstack htask hvalue (by rw [htasks, update_self])
    · refine (h t).congr (by rw [htasks, update_of_ne ht]) (hretest t) (fun a hq => .inl ?_) hexited
      by_cases hs : s = .process a
      · subst hs
        rwa [hsem, update_self]
      · rwa [hsem, update_of_ne (Ne.symm hs)]
  | wake s rest fs hstack htask htasks hsem henv hforked hcur =>
    by_cases ht : t = k.currentThread
    · subst ht
      exact htail htask (by simp) (by rw [htasks, update_self])
    · refine (h t).congr (by rw [htasks, update_of_ne ht]) (hretest t) (fun a hq => ?_) hexited
      by_cases hs : s = .process a
      · subst hs
        rw [hsem, update_self]
        -- the first thread is taken off the queue
        cases hqueue : (k.semaphore (.process a)).queue with
        | nil => simp [hqueue] at hq
        | cons u q =>
          rw [hqueue] at hq
          obtain rfl | hq := List.mem_cons.1 hq
          · exact .inr fun c hmem => hC.wake a fs t c hstack (by simp [hqueue]) hmem
          · exact .inl hq
      · rw [hsem, update_of_ne (Ne.symm hs)]
        exact .inl hq
  | retire call rest fs hcall hstack htask htasks hsem henv hforked hcur =>
    by_cases ht : t = k.currentThread
    · subst ht
      exact htail htask (by rcases hcall with rfl | rfl <;> simp) (by rw [htasks, update_self])
    · exact hsame (by rw [htasks, update_of_ne ht]) hsem
  | internal htasks hsem henv hforked => exact hsame (congrFun htasks t) hsem

theorem joining_of_reachable (h : (userSystem memAll merged).Reachable (fun k _ => k.JoinsFit) k)
    (t : ℕ) : k.Joining t := by
  have hinv : k.Sane ∧ ∀ t, k.Joining t := by
    refine h.invariant (fun k => k.Sane ∧ ∀ t, k.Joining t) ?_ fun k i k' hk hC hw =>
      ⟨(hk.1.step hw).1, joining_step hk.2 hk.1 hC hw⟩
    rintro k rfl
    refine ⟨sane_boot, fun t => .no fun c hmem => ?_⟩
    by_cases ht : t = 1
    · subst ht
      simp [Kernel.tasks, Threads.boot, Frame.task, Call.task] at hmem
    · simp [Kernel.tasks, Threads.boot, ht] at hmem
  exact hinv.2 t

/-- What `Join` returns at once is not 0. -/
theorem result_of_join {s s' : UserState} (h : join s = .ok (s', []))
    (hjoin : s.registers.gpr 2 = 3) : s'.registers.gpr 2 ≠ 0 := by
  obtain ⟨o, -, h⟩ := bind_eq_ok.1 h
  cases o with
  | none =>
    cases h
    simp [UserState.result, UserState.mapRegisters, advancePC, setGpr]
  | some a =>
    dsimp only at h
    split_ifs at h
    · obtain ⟨o, -, h⟩ := bind_eq_ok.1 h
      cases o with
      | none => cases h
      | some b => cases h
    · cases h
      change s.registers.gpr 2 ≠ 0
      rw [hjoin]
      decide

/-- As long as units only go to threads whose child has exited, `Join` returns 0 only after the exit
of the child. -/
theorem gone_of_join (memAll : MemAll) (merged : Bool) (k k' : UserKernel)
    (i : Input Empty UserInput) (c : ℤ)
    (h : (userSystem memAll merged).Reachable (fun k _ => k.JoinsFit) k)
    (hw : k.step (userClient memAll merged) i = .ok k') (hret : k.ReturnsFromJoin k' c)
    (hzero : k'.env.registers.gpr 2 = 0) : k.Gone c := by
  cases hret with
  | atOnce s fs hstack htrap hjoin harg hreturn =>
    obtain ⟨-, hsys⟩ := syscall_of_return hw hstack htrap hreturn
    have hres : join s = .ok (k'.env, []) := by simpa [syscall, hjoin] using hsys
    exact absurd hzero (result_of_join hres hjoin)
  | joined fs hstack =>
    have htask := Kernel.tasks_of_cons hstack
    have hex : k.HasExited c := by
      cases joining_of_reachable h k.currentThread with
      | no hno => exact absurd (htask ▸ List.mem_cons_self) (hno c)
      | waits a c' rest htask' => cases htask.symm.trans htask'
      | done c' rest htask' hrest hex =>
        cases htask.symm.trans htask'
        exact hex
    refine ⟨hex, fun a ha hpid => ?_⟩
    obtain ⟨t, ht, rfl⟩ := hex
    exact (tidy_of_reachable (fun _ _ hC => hC.exit) h).entries a ha t ht hpid

/-! ### Runs -/

/-- A test that the next step meets the condition. -/
def fits (k : UserKernel) : Bool :=
  (!k.exits || k.env.pcb.entries.any fun a => k.env.pcb.list.pid a == k.currentThread) &&
    match k.stack k.currentThread with
    | .call (.p (.process a)) :: _ => (k.semaphore (.process a)).value == 0
    | .call (.v (.process a)) :: _ => (k.semaphore (.process a)).queue.head?.all fun u =>
      (k.tasks u).all fun
        | .code (.joined c) => k.env.exited.any fun t => c == t
        | _ => true
    | _ => true

theorem Sane.joinsFit (h : k.Sane) (hfits : k.fits = true) : k.JoinsFit := by
  simp only [fits, Bool.and_eq_true, Bool.or_eq_true, Bool.not_eq_true', List.any_eq_true,
    beq_iff_eq] at hfits
  refine ⟨fun hex => ?_, fun a fs c hstack _ => .inl ?_, fun a fs u c hstack hu hmem => ?_⟩
  · obtain hno | ⟨a, ha, hpid⟩ := hfits.1
    · simp [exits_iff.2 hex] at hno
    · exact h.not_entryPending ha hpid
  · simpa [hstack] using hfits.2
  · have hall := hfits.2
    rw [hstack] at hall
    simp only [Option.all_eq_true, List.all_eq_true] at hall
    have hc := hall u hu _ hmem
    simpa [HasExited] using hc

/-- The run along a list of inputs whose steps pass the test. -/
theorem exists_reachable_of_fits (memAll : MemAll) (merged : Bool)
    (is : List (Input Empty UserInput)) (p : UserKernel → Bool)
    (h : ((userSystem memAll merged).runInputsIf (fun k _ => k.fits) boot is).any p = true) :
    ∃ k, (userSystem memAll merged).Reachable (fun k _ => k.JoinsFit) k ∧ p k = true := by
  obtain ⟨k, hk, hp⟩ := exists_reachable_of_runInputsIf (S := userSystem memAll merged)
    (C := fun k _ => k.fits = true) (show (userSystem memAll merged).init boot from rfl)
    (c := fun k _ => k.fits) (fun _ _ hc => hc) is p h
  exact ⟨k, hk.mono_of_reachable fun _ _ hs hc => (sane_of_reachable hs).joinsFit hc, hp⟩

/-- A program that calls `Exec` for the file `a`, and `Join` for the new process. -/
def joinProgram : OpenFile :=
  program [0x24040020, 0x24020002, 0xc, 0x402021, 0x24020003, 0xc, 0x24020001, 0xc, 0x61]

/-- The first process waits for the process that it has created. -/
theorem gone_of_wait : ∃ (k k' : UserKernel) (i : Input Empty UserInput),
    (userSystem .firstFit false).Reachable (fun k _ => k.JoinsFit) k ∧
    k.step (userClient .firstFit false) i = .ok k' ∧ k.ReturnsFromJoin k' 2 ∧
    k'.env.registers.gpr 2 = 0 ∧ k.Gone 2 := by
  obtain ⟨k, hk, ht⟩ := exists_reachable_of_fits .firstFit false
    (userInputs joinProgram (fun _ => some exitProgram) [] 60)
    (fun k : UserKernel => (k.stack k.currentThread).head? = some (.call (.code (.joined 2))) ∧
      (k.step (userClient .firstFit false) (userInput false none)).toOption.any fun k' =>
        decide (k'.env.registers.gpr 2 = 0)) (by decide +kernel)
  simp only [decide_eq_true_eq, Option.any_eq_true, List.head?_eq_some_iff] at ht
  obtain ⟨⟨fs, hstack⟩, k', hw, hzero⟩ := ht
  have hret : k.ReturnsFromJoin k' 2 := .joined fs hstack
  exact ⟨k, k', _, hk, toOption_eq_some.1 hw, hret, hzero,
    gone_of_join .firstFit false k k' _ 2 hk (toOption_eq_some.1 hw) hret hzero⟩

/-- A program that calls `Exec` for the file `a`, `Yield` until the new process has exited, `Exec`
again, and `Join` for the second process. -/
def joinSecond : OpenFile :=
  program [0x2404002c, 0x24020002, 0xc, 0x2402000a, 0xc, 0xc, 0x24020002, 0xc, 0x402021, 0x24020003,
    0xc, 0x61]

/-- `Join` takes the unit of the first process, for which nobody has waited. -/
theorem not_gone_of_leftover : ∃ (k k' : UserKernel) (i : Input Empty UserInput),
    (userSystem .firstFit false).Reachable Always k ∧
    k.step (userClient .firstFit false) i = .ok k' ∧ k.ReturnsFromJoin k' 3 ∧
    k'.env.registers.gpr 2 = 0 ∧ ¬k.Gone 3 := by
  obtain ⟨k, hk, ht⟩ := exists_reachable_of_runInputs (S := userSystem .firstFit false)
    (show (userSystem .firstFit false).init boot from rfl)
    (userInputs joinSecond (fun _ => some exitProgram) [] 91)
    (fun k : UserKernel => (k.stack k.currentThread).head? = some (.call (.code (.joined 3))) ∧
      k.env.exited = [2] ∧
      (k.step (userClient .firstFit false) (userInput false none)).toOption.any fun k' =>
        decide (k'.env.registers.gpr 2 = 0)) (by decide +kernel)
  simp only [decide_eq_true_eq, Option.any_eq_true, List.head?_eq_some_iff] at ht
  obtain ⟨⟨fs, hstack⟩, hexited, k', hw, hzero⟩ := ht
  refine ⟨k, k', _, hk, toOption_eq_some.1 hw, .joined fs hstack, hzero, ?_⟩
  rintro ⟨⟨t, ht, htc⟩, -⟩
  rw [hexited, List.mem_singleton] at ht
  subst ht
  exact absurd htc (by decide)

end UserKernel

end Nachos.UserProg
