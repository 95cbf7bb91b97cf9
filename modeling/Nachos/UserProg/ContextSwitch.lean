import Nachos.UserProg.JoinWaits
import Nachos.UserProg.ProcessIsolation

/-!
# A process does not notice that it has been switched out

When `Scheduler::Run` switches a thread out, it saves the registers of the machine, and when it
switches the thread in again, it restores them and installs the page table of the process. Whatever
other processes do in between, they change neither what has been saved nor the page table nor the
frames to which it leads.

## Main definitions

* `UserState.Reaches`: the byte to which a page table leads.
* `Resumes`: a process finds the machine as it was.
* `UserKernel.Others`: the steps of other processes.

## Main results

* `UserKernel.Isolated.spares_step`: a step spares the processes that are not running.
* `UserKernel.resumes_of_switch`: on its return from `Run`, a process finds the machine as it was
  when it called `Run`.
-/

namespace Nachos.UserProg

open Foundations StepSystem Threads Machine Function

variable {p : ℕ} {s s' : UserState}

/-- The page table of the process `p` leads from the virtual address to the byte `a` of main
memory. -/
def UserState.Reaches (s : UserState) (p : ℕ) (virtAddr : Word) (a : ℕ) : Prop :=
  ∃ space ∈ s.memory.space p, ∃ pageTable ∈ space.pageTable, ∃ pageTable',
    Machine.translate pageTable virtAddr .one false = .ok (a, pageTable')

/-- In both states the page table of the process `p` is installed, and the process finds the same
registers, the same page table and the same memory. -/
structure Resumes (p : ℕ) (s s' : UserState) : Prop where
  registers : s'.registers = s.registers
  installed : s.installed = some p ∧ s'.installed = some p
  /-- The page table and its size. -/
  space : s'.memory.space p = s.memory.space p
  bytes : ∀ virtAddr a, s.Reaches p virtAddr a → s'.memory.mainMemory a = s.memory.mainMemory a

/-- A page table leads to the frames of its process. -/
theorem mem_frames_of_reaches (h : s.memory.Mapped) {virtAddr : Word} {a : ℕ}
    (ha : s.Reaches p virtAddr a) : a / pageSize ∈ s.memory.frames p := by
  obtain ⟨space, hspace, pageTable, hp, pageTable', htranslate⟩ := ha
  obtain ⟨e, he, -, hpage⟩ := div_of_translate htranslate
  rw [hpage a le_rfl (Nat.lt_succ_self a), MemoryState.frames_of_eq_some hspace]
  exact h.pages p space hspace pageTable hp _ (List.mem_map_of_mem he)

namespace UserKernel

variable {k k₁ k₂ k₃ k' : UserKernel} {memAll : MemAll} {merged : Bool}
  {i i' : Input Empty UserInput}

/-! ### Steps of other processes -/

/-- The memory of a process that is not running stays as it is. -/
theorem Isolated.spares_step (h : k.Isolated) (hs : k.Sane) (htransfer : k.TransfersWithin i)
    (hload : k.LoadsInside i) (hw : k.step (userClient memAll merged) i = .ok k')
    (hp : k.Runs p) (hne : p ≠ k.currentThread) :
    MemoryState.Spares p k.env.memory k'.env.memory := by
  obtain ⟨f, fs, hadv⟩ := hs.sound.advances_of_step hw
  obtain ⟨rest, hst, -⟩ := hadv.current
  have hstarted := hs.started_of_runs hp
  obtain ⟨code, calls, rfl, hexec⟩ | ⟨hmemory, -⟩ := memory_of_turn (Kernel.turn_of_step hadv hw)
  · obtain rfl | rfl | ⟨hmemory, -⟩ := memory_of_code hexec
    · -- no other process has been loaded
      exact absurd hstarted (hs.valid.elements.not_started_of_zero (hs.of_startProcess hst).2 p)
    · exact (h.memoryEffect htransfer hst hexec).spares h.mapped
        (fun hcalls => hload ⟨⟨rest, hst⟩, hcalls⟩) hne (hs.valid.elements.started_le hstarted).2
    · exact hmemory ▸ .refl p _
  · exact hmemory ▸ .refl p _

/-- What has been saved of a thread that is not running stays as it is. -/
theorem Sane.userRegisters_step (hs : k.Sane) (hw : k.step (userClient memAll merged) i = .ok k')
    (hne : p ≠ k.currentThread) : k'.env.userRegisters p = k.env.userRegisters p := by
  obtain ⟨f, fs, hadv⟩ := hs.sound.advances_of_step hw
  cases Kernel.turn_of_step hadv hw with
  | exec code calls hf hfs hexec hcur => rw [(installed_of_code hexec).2]
  | out next hf hfs henv hcur =>
    rw [henv]
    simp only [userClient]
    split_ifs
    · exact update_of_ne hne _ _
    · rfl
  | back hf hfs henv hcur =>
    rw [henv]
    simp only [userClient]
    split_ifs <;> rfl
  | stays hf hcode henv hcur =>
    exact henv.apply_eq (f := fun s : UserState => s.userRegisters p) fun _ => rfl

/-- A step of a process other than `p`. -/
structure Others (p : ℕ) (k : UserKernel) (i : Input Empty UserInput) : Prop where
  ne : k.currentThread ≠ p
  transfers : k.TransfersWithin i
  loads : k.LoadsInside i

/-- The process `p`, which was switched out in `k`, has not been switched in since. -/
structure Waits (p : ℕ) (k k' : UserKernel) : Prop where
  sane : k'.Sane
  isolated : k'.Isolated
  runs : k'.Runs p
  stack : k'.stack p = k.stack p
  spares : MemoryState.Spares p k.env.memory k'.env.memory
  userRegisters : k'.env.userRegisters p = k.env.userRegisters p

/-- A step of another process. -/
theorem Waits.step (h : Waits p k k₁) (hC : Others p k₁ i)
    (hw : k₁.step (userClient memAll merged) i = .ok k₂) : Waits p k k₂ := by
  have hstack := h.sane.stack_of_ne hw h.runs hC.ne.symm
  refine ⟨(h.sane.step hw).1, h.isolated.step h.sane hC.transfers hw, ?_, hstack.trans h.stack,
    h.spares.trans (h.isolated.spares_step h.sane hC.transfers hC.loads hw h.runs hC.ne.symm),
    (h.sane.userRegisters_step hw hC.ne.symm).trans h.userRegisters⟩
  unfold Runs
  rw [hstack]
  exact h.runs

/-! ### Out and back -/

/-- A process is switched out. -/
theorem Waits.of_out (hs : k.Sane) (h : k.Isolated) (htransfer : k.TransfersWithin i)
    (hruns : k.Runs k.currentThread) {next : ℕ} {fs : List (Frame ℕ UserSemaphore UserCode)}
    (hout : k.stack k.currentThread = .run next :: fs)
    (hw : k.step (userClient memAll merged) i = .ok k₁) : Waits k.currentThread k₁ k₁ := by
  obtain ⟨hstack, -, -⟩ := Kernel.out_of_step hout hw
  refine ⟨(hs.step hw).1, h.step hs htransfer hw, ?_, rfl, .refl _ _, rfl⟩
  unfold Runs at hruns ⊢
  rw [hout] at hruns
  rw [hstack]
  exact List.mem_cons_of_mem _ ((List.mem_cons.1 hruns).resolve_left (by simp))

theorem Waits.steps (h : Waits p k k₁)
    (hothers : (userSystem memAll merged).Steps (Others p) k₁ k₂) : Waits p k k₂ :=
  hothers.invariant (Waits p k) h fun _ _ _ hk hC hw => hk.step hC hw

/-- A process that has begun to run its program is switched out by `Run`, and other processes take
any steps until it is switched in again: when it returns from `Run`, it finds the machine as it
was. -/
theorem resumes_of_switch (memAll : MemAll) (merged : Bool) (p : ℕ) (k k₁ k₂ k₃ : UserKernel)
    (i i' : Input Empty UserInput) (next : ℕ) (fs : List (Frame ℕ UserSemaphore UserCode))
    (h : (userSystem memAll merged).Reachable TransfersWithin k) (hcur : k.currentThread = p)
    (hruns : k.Runs p) (hout : k.stack p = .run next :: fs)
    (hw : k.step (userClient memAll merged) i = .ok k₁)
    (hothers : (userSystem memAll merged).Steps (Others p) k₁ k₂) (hcur' : k₂.currentThread = p)
    (hw' : k₂.step (userClient memAll merged) i' = .ok k₃) :
    k₃.stack p = fs ∧ Resumes p k.env k₃.env := by
  subst hcur
  have hs := sane_of_reachable h
  have hk := isolated_of_reachable h
  -- `Run` is no system call
  have htransfer : k.TransfersWithin i := by
    rintro (⟨⟨fs', hst⟩, -⟩ | ⟨⟨fs', hst⟩, -⟩) <;> cases hout.symm.trans hst
  obtain ⟨hstack₁, henv₁, -⟩ := Kernel.out_of_step hout hw
  have hwaits := (Waits.of_out hs hk htransfer hruns hout hw).steps hothers
  have hstack₂ : k₂.stack k₂.currentThread = .afterSwitch :: fs := by
    rw [hcur', hwaits.stack, hstack₁]
  obtain ⟨hstack₃, henv₃, -⟩ := Kernel.back_of_step hstack₂ hw'
  rw [hcur'] at hstack₃ henv₃
  have henv₁' : k₁.env = { k.env with
      userRegisters := update k.env.userRegisters k.currentThread k.env.registers } :=
    henv₁.trans (if_pos (hs.hasSpace hruns))
  have henv₃' : k₃.env = { k₂.env with
      registers := k₂.env.userRegisters k.currentThread
      installed := some k.currentThread } :=
    henv₃.trans (if_pos (hwaits.sane.hasSpace hwaits.runs))
  have hmemory₁ : k₁.env.memory = k.env.memory := by rw [henv₁']
  have hmemory₃ : k₃.env.memory = k₂.env.memory := by rw [henv₃']
  have hspares := hwaits.spares
  rw [hmemory₁] at hspares
  refine ⟨hstack₃, ?_, ⟨hk.installed hruns (by simp [hout]), by rw [henv₃']⟩, ?_,
    fun virtAddr a ha => ?_⟩
  · rw [henv₃']
    change k₂.env.userRegisters k.currentThread = _
    rw [hwaits.userRegisters, henv₁']
    exact update_self _ _ _
  · rw [hmemory₃, hspares.space]
  · rw [hmemory₃, hspares.bytes a (mem_frames_of_reaches hk.mapped ha)]

/-- Whether the next step is this system call. -/
def calls (k : UserKernel) (type : Word) : Bool :=
  match k.stack k.currentThread with
  | .call (.code .run) :: _ => k.env.trapped.any fun s => s.registers.gpr 2 == type
  | _ => false

theorem not_calls_of_test {type : Word} (h : k.calls type = false) : ¬k.Calls type := by
  rintro ⟨⟨fs, hst⟩, s, htrap, hs⟩
  simp [calls, hst, htrap, hs] at h

/-- A test that the next step calls neither `Read` nor `Write`. -/
def transfersNothing (k : UserKernel) : Bool := !k.calls 6 && !k.calls 7

theorem transfersWithin_of_nothing (h : k.transfersNothing = true) : k.TransfersWithin i := by
  simp only [transfersNothing, Bool.and_eq_true, Bool.not_eq_true'] at h
  exact fun hc => (hc.elim (not_calls_of_test h.1) (not_calls_of_test h.2)).elim

/-- A test that the next step is one of another process, which does not call `Exec` either. -/
def others (p : ℕ) (k : UserKernel) : Bool :=
  k.currentThread != p && k.transfersNothing && !k.calls 2

theorem others_of_test (h : k.others p = true) : Others p k i := by
  simp only [others, Bool.and_eq_true, bne_iff_ne, Bool.not_eq_true'] at h
  exact ⟨h.1.1, transfersWithin_of_nothing h.1.2, fun hc => (not_calls_of_test h.2 hc).elim⟩

/-- The first process calls `Join` for a process that it has created, and returns from `Run` when
the other one has exited. -/
theorem resumes_of_join : ∃ (k k₁ k₂ k₃ : UserKernel) (i i' : Input Empty UserInput)
    (fs : List (Frame ℕ UserSemaphore UserCode)),
    (userSystem .firstFit false).Reachable TransfersWithin k ∧ k.currentThread = 1 ∧ k.Runs 1 ∧
    k.stack 1 = .run 2 :: fs ∧ k.step (userClient .firstFit false) i = .ok k₁ ∧
    (userSystem .firstFit false).Steps (Others 1) k₁ k₂ ∧ k₂.env.exited = [2] ∧
    k₂.currentThread = 1 ∧ k₂.step (userClient .firstFit false) i' = .ok k₃ ∧
    k₃.stack 1 = fs ∧ Resumes 1 k.env k₃.env := by
  let i := userInput false none
  obtain ⟨k, hk, ht⟩ := exists_reachable_of_runInputsIf (S := userSystem .firstFit false)
    (C := TransfersWithin) (show (userSystem .firstFit false).init boot from rfl)
    (c := fun k _ => k.transfersNothing) (fun _ _ => transfersWithin_of_nothing)
    (userInputs joinProgram (fun _ => some exitProgram) [] 32)
    (fun k : UserKernel => k.currentThread = 1 ∧ .call (.code .run) ∈ k.stack 1 ∧
      (k.stack 1).head? = some (.run 2) ∧
      (k.step (userClient .firstFit false) i).toOption.any fun k₁ =>
        ((userSystem .firstFit false).runInputsIf (fun k _ => k.others 1) k₁
          (List.replicate 23 i)).any fun k₂ => decide (k₂.env.exited = [2] ∧
            k₂.currentThread = 1 ∧ (k₂.step (userClient .firstFit false) i).toOption.isSome))
    (by decide +kernel)
  simp only [decide_eq_true_eq, Option.any_eq_true, Option.isSome_iff_exists,
    List.head?_eq_some_iff] at ht
  obtain ⟨hcur, hruns, ⟨fs, hst⟩, k₁, hw, k₂, hrun, hexited, hcur', k₃, hw'⟩ := ht
  have hothers : (userSystem .firstFit false).Steps (Others 1) k₁ k₂ :=
    steps_of_runInputsIf (fun _ _ => others_of_test) hrun
  exact ⟨k, k₁, k₂, k₃, i, i, fs, hk, hcur, hruns, hst, toOption_eq_some.1 hw, hothers, hexited,
    hcur', toOption_eq_some.1 hw', resumes_of_switch .firstFit false 1 k k₁ k₂ k₃ i i 2 fs hk hcur
      hruns hst (toOption_eq_some.1 hw) hothers hcur' (toOption_eq_some.1 hw')⟩

end UserKernel

end Nachos.UserProg
