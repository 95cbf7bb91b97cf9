import Nachos.Machine.Relocation
import Nachos.UserProg.SyscallReturn

/-!
# Processes run as if they were alone

What a process has computed between two of its system calls does not depend on other processes. In
a run of the kernel, its registers, its page table and the bytes of its pages change only by its own
instructions, as they would if it were alone on the machine, and by interrupts, which complete a
load that is delayed. Everything else, as the instructions and system calls of others and being
switched out and in, spares them.

## Main definitions

* `Machine.replay`: a program that is alone on a machine.
* `UserKernel.ownMachine`: the machine as a process sees it, whether it is on the processor or not.
* `UserKernel.Undisturbed`: the steps in which a process makes no system call, and what is asked of
  the others.

## Main results

* `UserKernel.process_runs_alone`: a process does what it would do alone.
-/

namespace Nachos

open Foundations

/-- What happens to a program: an instruction, with what `RaiseException` does before it calls the
handler, or an interrupt. -/
inductive Event
  | instruction
  | interrupt
  deriving DecidableEq

namespace Machine

variable {m m' : Machine}

/-- The machine after an instruction. Handlers of exceptions that are no system calls change
nothing. -/
def afterInstruction (m : Machine) : Machine :=
  match execute.outcome m with
  | (.error (.exception _ badVAddr), m) => m.trap badVAddr
  | (_, m) => m

/-- The machine after an event. -/
def after (m : Machine) : Event → Machine
  | .instruction => m.afterInstruction
  | .interrupt => m.delayedLoad 0 0

/-- A program that is alone on the machine. -/
def replay (events : List Event) (m : Machine) : Machine := events.foldl after m

namespace Spares

theorem trap (h : Spares m m') (badVAddr : Word) : Spares (m.trap badVAddr) (m'.trap badVAddr) :=
  h.withRegisters fun registers => (Machine.trap ⟨registers, [], fun _ => 0⟩ badVAddr).registers

theorem delayedLoad (h : Spares m m') : Spares (m.delayedLoad 0 0) (m'.delayedLoad 0 0) :=
  h.withRegisters fun registers => (Machine.delayedLoad ⟨registers, [], fun _ => 0⟩ 0 0).registers

theorem afterInstruction (h : Spares m m') : Spares m.afterInstruction m'.afterInstruction := by
  have hagrees : Agrees Spares execute :=
    userLevel_execute.agrees (fun _ _ hr => hr.registers) fun _ _ g hr => hr.withRegisters g
  have hresult := hagrees.result h
  have hrelated := hagrees.related h
  unfold Machine.afterInstruction
  rcases hm : execute.outcome m with ⟨result, n⟩
  rcases hm' : execute.outcome m' with ⟨result', n'⟩
  rw [hm, hm'] at hresult hrelated
  cases hresult
  rcases result with ⟨which, badVAddr⟩ | _
  · exact hrelated.trap badVAddr
  · exact hrelated
  · exact hrelated

theorem replay (h : Spares m m') (events : List Event) :
    Spares (m.replay events) (m'.replay events) := by
  induction events generalizing m m' with
  | nil => exact h
  | cons event events ih =>
    refine ih ?_
    cases event with
    | instruction => exact h.afterInstruction
    | interrupt => exact h.delayedLoad

end Spares

end Machine

namespace UserProg

open StepSystem Threads Machine Function

variable {s s' : UserState} {m : Machine} {memAll : MemAll} {isMain merged : Bool} {t p : ℕ}
  {input : UserInput} {calls : List UserCall}

/-! ### Instructions that are no system calls -/

theorem instruction_of_not_trapped (htrapped : s.trapped = none)
    (h : instruction memAll isMain t input s = .ok (s', calls)) :
    ∃ m, s.machine = .ok m ∧ s' = s.setMachine m.afterInstruction ∧ calls = [] := by
  obtain ⟨m, hm, h⟩ := bind_eq_ok.1 h
  refine ⟨m, hm, ?_⟩
  unfold UserState.trapped at htrapped
  simp only [hm] at htrapped
  unfold afterInstruction
  rcases hout : execute.outcome m with ⟨(⟨which, badVAddr⟩ | f) | _, m'⟩
  · rw [hout] at h htrapped
    simp only at h htrapped
    split_ifs at h htrapped with hwhich
    obtain ⟨m₁, hhandler, h⟩ := bind_eq_ok.1 h
    cases h
    rw [eq_of_exceptionHandler hhandler]
    exact ⟨rfl, rfl⟩
  · rw [hout] at h
    cases h
  · rw [hout] at h
    cases h
    exact ⟨rfl, rfl⟩

namespace UserKernel

variable {k k' : UserKernel} {i : Input Empty UserInput}

/-! ### The machine of a process -/

/-- The registers of a process: those of the machine, unless the thread has been switched out. -/
def ownRegisters (k : UserKernel) (p : ℕ) : Registers :=
  if k.currentThread = p ∧ ¬k.InRun p then k.env.registers else k.env.userRegisters p

/-- The machine as a process sees it. -/
def ownMachine (k : UserKernel) (p : ℕ) : Option Machine :=
  ((k.env.memory.space p).bind AddrSpace.pageTable).map fun pageTable =>
    ⟨k.ownRegisters p, pageTable, k.env.memory.mainMemory⟩

/-- The thread executes its program, and has nothing else to execute. -/
structure Computes (p : ℕ) (k : UserKernel) : Prop where
  runs : k.Runs p
  only : ∀ code, .call (.code code) ∈ k.stack p → code = .run

/-- The process `p` makes no system call in this step. If another process calls `Read` or `Write`,
the step does what `ExceptionHandler` does for it. If it calls `Exec`, the segments of the
executable lie inside the address space that it requests: others would overwrite the process. -/
structure Undisturbed (merged : Bool) (p : ℕ) (k : UserKernel) (i : Input Empty UserInput) :
    Prop where
  performs : k.Performs merged i
  loads : k.LoadsInside i
  silent : k.currentThread = p → ∀ type, ¬k.Calls type

/-- The invariants of the kernel. -/
structure Orderly (k : UserKernel) : Prop where
  sane : k.Sane
  isolated : k.Isolated
  nested : k.Nested 1

theorem Orderly.step (h : k.Orderly) (hperforms : k.Performs merged i)
    (hw : k.step (userClient memAll merged) i = .ok k') : k'.Orderly :=
  ⟨(h.sane.step hw).1, h.isolated.step h.sane hperforms.transfersWithin hw,
    h.nested.step h.sane.sound hw⟩

theorem orderly_of_reachable (h : (userSystem memAll merged).Reachable (Performs merged) k) :
    k.Orderly := by
  refine h.invariant Orderly ?_ fun _ _ _ hk hperforms hw => hk.step hperforms hw
  rintro _ rfl
  exact ⟨sane_boot, isolated_boot, .boot 1 _ _ _⟩

/-! ### Steps -/

theorem ownMachine_eq_some : k.ownMachine p = some m ↔
    ∃ space pageTable, k.env.memory.space p = some space ∧ space.pageTable = some pageTable ∧
      m = ⟨k.ownRegisters p, pageTable, k.env.memory.mainMemory⟩ := by
  simp only [ownMachine, Option.map_eq_some_iff, Option.bind_eq_some_iff]
  constructor
  · rintro ⟨pageTable, ⟨space, hspace, hp⟩, rfl⟩
    exact ⟨space, pageTable, hspace, hp, rfl⟩
  · rintro ⟨space, pageTable, hspace, hp, rfl⟩
    exact ⟨pageTable, ⟨space, hspace, hp⟩, rfl⟩

theorem ownMachine_congr (hmemory : k'.env.memory = k.env.memory)
    (hregisters : k'.ownRegisters p = k.ownRegisters p) : k'.ownMachine p = k.ownMachine p := by
  simp only [ownMachine, hmemory, hregisters]

/-- While the process is on the processor, its machine is the one that instructions find. -/
theorem ownMachine_eq_some_iff_machine (hcur : k.currentThread = p) (hin : ¬k.InRun p)
    (hinstalled : k.env.installed = some p) :
    k.ownMachine p = some m ↔ k.env.machine = .ok m := by
  rw [ownMachine_eq_some, UserState.machine_eq_ok, ownRegisters, if_pos ⟨hcur, hin⟩]
  constructor
  · rintro ⟨space, pageTable, hspace, hp, rfl⟩
    exact ⟨p, space, pageTable, hinstalled, hspace, hp, rfl⟩
  · rintro ⟨t, space, pageTable, ht, hspace, hp, rfl⟩
    obtain rfl : p = t := Option.some.inj (hinstalled.symm.trans ht)
    exact ⟨space, pageTable, hspace, hp, rfl⟩

/-- What spares the memory of a process and leaves its registers as they were. -/
theorem spares_ownMachine (h : k.Orderly) (hm : k.ownMachine p = some m)
    (hspares : MemoryState.Spares p k.env.memory k'.env.memory)
    (hregisters : k'.ownRegisters p = k.ownRegisters p) :
    ∃ m', k'.ownMachine p = some m' ∧ m.Spares m' := by
  obtain ⟨space, pageTable, hspace, hp, rfl⟩ := ownMachine_eq_some.1 hm
  refine ⟨_, ownMachine_eq_some.2 ⟨space, pageTable, hspares.space.trans hspace, hp, rfl⟩,
    hregisters, rfl, fun a ha => hspares.bytes a ?_⟩
  rw [MemoryState.frames_of_eq_some hspace]
  exact h.isolated.mapped.pages p space hspace pageTable hp _ ha

theorem Computes.congr (h : k.Computes p) (hstack : k'.stack p = k.stack p) : k'.Computes p := by
  obtain ⟨hruns, honly⟩ := h
  unfold Runs at hruns
  rw [← hstack] at hruns honly
  exact ⟨hruns, honly⟩

/-- A step of another thread. -/
theorem spares_of_ne (h : k.Orderly) (hcomp : k.Computes p) (hC : Undisturbed merged p k i)
    (hne : p ≠ k.currentThread) (hw : k.step (userClient memAll merged) i = .ok k')
    (hm : k.ownMachine p = some m) :
    k'.Computes p ∧ ∃ m', k'.ownMachine p = some m' ∧ m.Spares m' := by
  have hstack := h.sane.stack_of_ne hw hcomp.runs hne
  refine ⟨hcomp.congr hstack, spares_ownMachine h hm
    (h.isolated.spares_step h.sane hC.performs.transfersWithin hC.loads hw hcomp.runs hne) ?_⟩
  obtain ⟨fs, hout⟩ := h.isolated.waits p hne hcomp.runs
  have hin : k'.InRun p := by
    rw [Kernel.InRun, hstack, hout]
    exact List.mem_cons_self
  rw [ownRegisters, ownRegisters, if_neg (by simp [hin]), if_neg fun hp => hne hp.1.symm]
  exact h.sane.userRegisters_step hw hne

/-- A thread goes on with what is left of its stack. -/
theorem Computes.of_stack (h : k.Computes p) {f : Frame ℕ UserSemaphore UserCode}
    {fs rest : List (Frame ℕ UserSemaphore UserCode)} (hst : k.stack p = f :: rest)
    (hf : ∀ code, f ≠ .call (.code code)) (hst' : k'.stack p = fs ++ rest)
    (hfs : ∀ code, .call (.code code) ∉ fs) : k'.Computes p := by
  obtain ⟨hruns, honly⟩ := h
  unfold Runs at hruns
  rw [hst] at hruns honly
  refine ⟨?_, fun code hcode => ?_⟩
  · unfold Runs
    rw [hst']
    exact List.mem_append_right _ ((List.mem_cons.1 hruns).resolve_left (hf .run).symm)
  · rw [hst'] at hcode
    exact honly code (List.mem_cons_of_mem _ ((List.mem_append.1 hcode).resolve_left (hfs code)))

section Current

variable {rest : List (Frame ℕ UserSemaphore UserCode)}

/-- An instruction. -/
theorem ownMachine_instruction (h : k.Orderly) (hcomp : k.Computes k.currentThread)
    (hst : k.stack k.currentThread = .call (.code .run) :: rest)
    (hsilent : ∀ type, ¬k.Calls type) (hw : k.step (userClient memAll merged) i = .ok k')
    (hm : k.ownMachine k.currentThread = some m) :
    k'.Computes k.currentThread ∧ k'.ownMachine k.currentThread = some m.afterInstruction := by
  obtain ⟨calls, hexec, hk'⟩ := Kernel.exec_of_step hst hw
  obtain ⟨⟨s', cs⟩, hinstr, heq⟩ := map_eq_ok.1 hexec
  obtain ⟨henv, rfl⟩ := Prod.mk.inj heq
  have htrapped : k.env.trapped = none := by
    cases htrap : k.env.trapped with
    | none => rfl
    | some s₁ => exact absurd ⟨⟨rest, hst⟩, s₁, htrap, rfl⟩ (hsilent _)
  obtain ⟨m₁, hm₁, rfl, rfl⟩ := instruction_of_not_trapped htrapped hinstr
  have hinstalled := h.isolated.installed hcomp.runs (by simp [hst])
  have hnot := h.nested.not_inRun hst (by simp)
  have hstack : k'.stack k.currentThread = [.call .oneTick, .call (.code .run)] ++ rest := by
    rw [← hk']
    simp
  have hcur : k'.currentThread = k.currentThread := by rw [← hk']
  have hnot' : ¬k'.InRun k.currentThread := by
    have hrest := h.nested.notMem_rest hst
    simp [Kernel.InRun, hstack, hrest]
  refine ⟨⟨by simp [Runs, hstack], fun code hcode => ?_⟩, ?_⟩
  · rw [hstack] at hcode
    have hcode' : code = .run ∨ .call (.code code) ∈ rest := by simpa using hcode
    exact hcode'.elim id fun hmem => hcomp.only code (hst ▸ List.mem_cons_of_mem _ hmem)
  · obtain rfl : m₁ = m :=
      Except.ok.inj (hm₁.symm.trans ((ownMachine_eq_some_iff_machine rfl hnot hinstalled).1 hm))
    rw [ownMachine_eq_some_iff_machine hcur hnot' (by rw [← henv]; exact hinstalled), ← henv]
    exact UserState.machine_setMachine hm₁ _

/-- The process is switched out: its registers are saved. -/
theorem ownMachine_out {next : ℕ} (h : k.Orderly) (hcomp : k.Computes k.currentThread)
    (hst : k.stack k.currentThread = .run next :: rest)
    (hw : k.step (userClient memAll merged) i = .ok k') :
    k'.Computes k.currentThread ∧
      k'.ownMachine k.currentThread = k.ownMachine k.currentThread := by
  obtain ⟨hstack, henv, -⟩ := Kernel.out_of_step hst hw
  have henv' : k'.env = { k.env with
      userRegisters := update k.env.userRegisters k.currentThread k.env.registers } :=
    henv.trans (if_pos (h.sane.hasSpace hcomp.runs))
  have hin : k'.InRun k.currentThread := by
    rw [Kernel.InRun, hstack]
    exact List.mem_cons_self
  refine ⟨?_, ownMachine_congr (by rw [henv']) ?_⟩
  · rw [← List.singleton_append] at hstack
    exact hcomp.of_stack hst (by simp) hstack (by simp)
  · rw [ownRegisters, ownRegisters, if_neg (by simp [hin]),
      if_pos ⟨rfl, h.nested.not_inRun hst (by simp)⟩, henv']
    exact update_self ..

/-- The process is switched in: its registers are restored. -/
theorem ownMachine_back (h : k.Orderly) (hcomp : k.Computes k.currentThread)
    (hst : k.stack k.currentThread = .afterSwitch :: rest) (hst' : k'.stack k.currentThread = rest)
    (hnot' : ¬k'.InRun k.currentThread)
    (henv : k'.env = (userClient memAll merged).restoreState k.currentThread k.env)
    (hcur : k'.currentThread = k.currentThread) :
    k'.Computes k.currentThread ∧
      k'.ownMachine k.currentThread = k.ownMachine k.currentThread := by
  have hin : k.InRun k.currentThread := by
    rw [Kernel.InRun, hst]
    exact List.mem_cons_self
  have henv' : k'.env = { k.env with
      registers := k.env.userRegisters k.currentThread
      installed := some k.currentThread } :=
    henv.trans (if_pos (h.sane.hasSpace hcomp.runs))
  refine ⟨?_, ownMachine_congr (by rw [henv']) ?_⟩
  · rw [← List.nil_append rest] at hst'
    exact hcomp.of_stack hst (by simp) hst' (by simp)
  · rw [ownRegisters, ownRegisters, if_pos ⟨hcur, hnot'⟩, if_neg (by simp [hin]), henv']

/-- What interrupts do. -/
theorem replay_of_loads {e e' : UserState} (h : (userClient memAll merged).Loads e e') :
    ∃ events, ∀ pageTable mainMemory, (⟨e'.registers, pageTable, mainMemory⟩ : Machine) =
      replay events ⟨e.registers, pageTable, mainMemory⟩ := by
  induction h with
  | refl => exact ⟨[], fun _ _ => rfl⟩
  | tail _ hstep ih =>
    obtain ⟨events, ih⟩ := ih
    refine ⟨events ++ [.interrupt], fun pageTable mainMemory => ?_⟩
    rw [replay, List.foldl_append, List.foldl_cons, List.foldl_nil, ← replay, ← ih, hstep]
    rfl

/-- What the current thread does itself, unless it is a system call. -/
theorem replay_of_current (h : k.Orderly) (hcomp : k.Computes k.currentThread)
    (hsilent : ∀ type, ¬k.Calls type) (hw : k.step (userClient memAll merged) i = .ok k')
    (hm : k.ownMachine k.currentThread = some m) :
    k'.Computes k.currentThread ∧
      ∃ events, k'.ownMachine k.currentThread = some (m.replay events) := by
  obtain ⟨f, fs, hadv⟩ := h.sane.sound.advances_of_step hw
  obtain ⟨rest, hst, hst'⟩ := hadv.current
  by_cases hcode : ∃ code, f = .call (.code code)
  · obtain ⟨code, rfl⟩ := hcode
    obtain rfl := hcomp.only code (hst ▸ List.mem_cons_self)
    obtain ⟨hcomp', hm'⟩ := ownMachine_instruction h hcomp hst hsilent hw hm
    exact ⟨hcomp', [.instruction], hm'⟩
  have hf : ∀ code, f ≠ .call (.code code) := fun code he => hcode ⟨code, he⟩
  by_cases hrun : ∃ next, f = .run next
  · obtain ⟨next, rfl⟩ := hrun
    obtain ⟨hcomp', hm'⟩ := ownMachine_out h hcomp hst hw
    exact ⟨hcomp', [], hm'.trans hm⟩
  have hnot' : ¬k'.InRun k.currentThread := fun hin =>
    hrun ((h.nested.inRun_current hadv hw).1 hin)
  cases Kernel.turn_of_step hadv hw with
  | exec code calls he => exact absurd he (hf code)
  | out next he => exact absurd ⟨next, he⟩ hrun
  | back he hfs henv hcur =>
    subst he hfs
    obtain ⟨hcomp', hm'⟩ := ownMachine_back h hcomp hst hst' hnot' henv hcur
    exact ⟨hcomp', [], hm'.trans hm⟩
  | stays hswitch hfs henv hcur =>
    have hmemory : k'.env.memory = k.env.memory :=
      henv.apply_eq (f := UserState.memory) fun _ => rfl
    obtain ⟨events, hevents⟩ := replay_of_loads henv
    refine ⟨hcomp.of_stack hst hf hst' hfs, events, ?_⟩
    obtain ⟨space, pageTable, hs, hp, rfl⟩ := ownMachine_eq_some.1 hm
    rw [ownMachine_eq_some]
    refine ⟨space, pageTable, hmemory ▸ hs, hp, ?_⟩
    rw [ownRegisters, ownRegisters, if_pos ⟨rfl, h.nested.not_inRun hst hswitch⟩,
      if_pos ⟨hcur, hnot'⟩, hevents, hmemory]

end Current

/-! ### Runs -/

/-- Whatever other processes do, as long as the segments of the executables that they load lie
inside their address spaces, a process whose thread executes its program computes what it would
compute alone on the machine, until it makes a system call. -/
theorem process_runs_alone (memAll : MemAll) (merged : Bool) (p : ℕ) (k k' : UserKernel)
    (m : Machine) (h : (userSystem memAll merged).Reachable (Performs merged) k)
    (hcomp : k.Computes p) (hm : k.ownMachine p = some m)
    (hsteps : (userSystem memAll merged).Steps (Undisturbed merged p) k k') :
    k'.Computes p ∧ ∃ events m', k'.ownMachine p = some m' ∧ (m.replay events).Spares m' := by
  have hinv : k'.Orderly ∧ k'.Computes p ∧
      ∃ events m', k'.ownMachine p = some m' ∧ (m.replay events).Spares m' := by
    refine hsteps.invariant (fun k' => k'.Orderly ∧ k'.Computes p ∧
      ∃ events m', k'.ownMachine p = some m' ∧ (m.replay events).Spares m')
      ⟨orderly_of_reachable h, hcomp, [], m, hm, rfl, rfl, fun _ _ => rfl⟩ ?_
    rintro k₁ i k₂ ⟨h₁, hcomp₁, events, m₁, hm₁, hspares₁⟩ hC hw
    refine ⟨h₁.step hC.performs hw, ?_⟩
    by_cases hcur : k₁.currentThread = p
    · subst hcur
      obtain ⟨hcomp₂, events', hm₂⟩ := replay_of_current h₁ hcomp₁ (hC.silent rfl) hw hm₁
      refine ⟨hcomp₂, events ++ events', _, hm₂, ?_⟩
      rw [replay, List.foldl_append]
      exact hspares₁.replay events'
    · obtain ⟨hcomp₂, m₂, hm₂, hspares₂⟩ := spares_of_ne h₁ hcomp₁ hC (Ne.symm hcur) hw hm₁
      exact ⟨hcomp₂, events, m₂, hm₂, hspares₁.trans hspares₂⟩
  exact hinv.2

/-- A test that the thread executes its program. -/
def computes (p : ℕ) (k : UserKernel) : Bool :=
  decide (.call (.code .run) ∈ k.stack p) && (k.stack p).all fun
    | .call (.code code) => decide (code = .run)
    | _ => true

theorem computes_of_test (h : k.computes p = true) : k.Computes p := by
  simp only [computes, Bool.and_eq_true, decide_eq_true_eq, List.all_eq_true] at h
  exact ⟨h.1, fun code hcode => of_decide_eq_true (h.2 _ hcode)⟩

/-- A test that the next step is no system call. -/
def silent (k : UserKernel) : Bool :=
  match k.stack k.currentThread with
  | .call (.code .run) :: _ => k.env.trapped.isNone
  | _ => true

theorem not_calls_of_silent (h : k.silent = true) (type : Word) : ¬k.Calls type := by
  rintro ⟨⟨fs, hst⟩, s, htrapped, -⟩
  simp [silent, hst, htrapped] at h

/-- A test that the next step is one of another process, which calls neither `Read` nor `Write` nor
`Exec`, or no system call. -/
def undisturbed (p : ℕ) (k : UserKernel) : Bool := k.others p || k.silent

theorem undisturbed_of_test (h : k.undisturbed p = true) : Undisturbed merged p k i := by
  rcases Bool.or_eq_true_iff.1 h with h | h
  · have hothers : Others p k i := others_of_test h
    have hnothing : k.transfersNothing = true := by
      simp only [others, Bool.and_eq_true] at h
      exact h.1.2
    exact ⟨performs_of_nothing hnothing, hothers.loads, fun hcur => absurd hcur hothers.ne⟩
  · refine ⟨fun fs s hst htrapped => ?_, fun hc => (not_calls_of_silent h _ hc).elim,
      fun _ => not_calls_of_silent h⟩
    exact (not_calls_of_silent h (s.registers.gpr 2) ⟨⟨fs, hst⟩, s, htrapped, rfl⟩).elim

/-- The timer interrupts the second process, and it goes on when the first one has exited. -/
theorem process_runs_alone_of_timer : ∃ (k k' : UserKernel) (m : Machine),
    (userSystem .firstFit false).Reachable (Performs false) k ∧ k.Computes 2 ∧
    k.ownMachine 2 = some m ∧ (userSystem .firstFit false).Steps (Undisturbed false 2) k k' ∧
    k'.env.exited = [1] ∧ k'.env.registers.gpr 2 = 1 ∧
    k'.Computes 2 ∧ ∃ events m', k'.ownMachine 2 = some m' ∧ (m.replay events).Spares m' := by
  obtain ⟨k, hk, ht⟩ := exists_reachable_of_runInputsIf (S := userSystem .firstFit false)
    (C := Performs false) (show (userSystem .firstFit false).init boot from rfl)
    (c := fun k _ => k.transfersNothing) (fun _ _ => performs_of_nothing)
    (userInputs execProgram (fun _ => some exitProgram) [22, 32] 39)
    (fun k : UserKernel => k.computes 2 ∧ (k.ownMachine 2).isSome ∧
      ((userSystem .firstFit false).runInputsIf (fun k _ => k.undisturbed 2) k
        (userInput false none :: userInput true none ::
          List.replicate 23 (userInput false none))).any fun k' =>
            decide (k'.env.exited = [1] ∧ k'.env.registers.gpr 2 = 1))
    (by decide +kernel)
  simp only [decide_eq_true_eq, Option.any_eq_true, Option.isSome_iff_exists] at ht
  obtain ⟨hcomp, ⟨m, hm⟩, k', hrun, hexited, hgpr⟩ := ht
  have hcomp := computes_of_test hcomp
  have hsteps : (userSystem .firstFit false).Steps (Undisturbed false 2) k k' :=
    steps_of_runInputsIf (fun _ _ => undisturbed_of_test) hrun
  exact ⟨k, k', m, hk, hcomp, hm, hsteps, hexited, hgpr,
    process_runs_alone .firstFit false 2 k k' m hk hcomp hm hsteps⟩

end UserKernel

end UserProg

end Nachos
