import Nachos.UserProg.RegisterInvariant
import Nachos.UserProg.SyscallReturn

/-!
# The registers of user processes

What the kernel with user processes does to the registers is a sequence of the operations of
`RegisterEvent`. Hence what holds of these operations in any order holds in the runs of the kernel.

## Main definitions

* `HandlerMove`: what `ExceptionHandler` does to the registers.
* `UserKernel.registerState`: the registers of the machine and of the threads in a state of the
  kernel.
* `UserKernel.Tracked`: what is known of the threads that are in `Run`.

## Main results

* `UserKernel.steps_registerState`: a step of the kernel is a sequence of operations.
* `UserKernel.gpr_zero_of_reachable`: in every state of every run, register 0 contains 0.
-/

namespace Nachos.UserProg

open Foundations StepSystem Threads Machine Function

/-! ### What `ExceptionHandler` does -/

/-- What `ExceptionHandler` does to the registers. -/
inductive HandlerMove : Registers → Registers → Prop
  /-- An access to user memory raises an exception. -/
  | trap (m : Machine) (badVAddr : Word) : HandlerMove m.registers (m.trap badVAddr).registers
  | result (m : Machine) (value : Word) : HandlerMove m.registers (m.setGpr 2 value).registers
  | advancePC (m : Machine) : HandlerMove m.registers (advancePC m).registers

/-- A sequence of these. -/
abbrev HandlerMoves : Registers → Registers → Prop := Relation.ReflTransGen HandlerMove

variable {m m' m₁ : Machine} {r r' : Registers} {isMain : Bool} {s s' : UserState} {t : ℕ}
  {memAll : MemAll} {merged : Bool} {input : UserInput} {calls : List UserCall}

namespace HandlerMoves

theorem of_traps (h : Traps r r') : HandlerMoves r r' := by
  induction h with
  | refl => exact .refl
  | tail _ htrap ih =>
    obtain ⟨m, badVAddr, rfl, rfl⟩ := htrap
    exact ih.tail (.trap m badVAddr)

theorem advancePC (m : Machine) : HandlerMoves m.registers (advancePC m).registers :=
  .single (.advancePC m)

theorem result (m : Machine) (value : Word) :
    HandlerMoves m.registers (UserProg.advancePC (m.setGpr 2 value)).registers :=
  .tail (.single (.result m value)) (.advancePC (m.setGpr 2 value))

theorem of_read {word : FileSys.CString} {contents : Word → List (BitVec 8)} {junk : Bytes}
    (h : read isMain word contents junk m = .ok m') : HandlerMoves m.registers m'.registers := by
  obtain ⟨⟨count, log, m₁⟩, hread, h⟩ := bind_eq_ok.1 h
  cases h
  obtain ⟨next, k, hcopy⟩ := exists_copyOut_of_sread hread
  exact (of_traps (.of_copyOut hcopy)).trans (result m₁ _)

theorem of_write {fuel : ℕ} {outputs : List Output} (h : write isMain fuel m = .ok (outputs, m')) :
    HandlerMoves m.registers m'.registers := by
  obtain ⟨⟨ch, m₁⟩, hloop, h⟩ := bind_eq_ok.1 h
  cases h
  exact (of_traps (.of_copyLoop hloop)).trans (advancePC m₁)

theorem of_transfer {type : Word} (hperforms : input.Performs isMain type)
    (htype : type = 6 ∨ type = 7) (h : input.transfer m = .ok m') :
    HandlerMoves m.registers m'.registers := by
  rcases htype with h₆ | h₇
  · obtain ⟨word, contents, junk, heq⟩ := hperforms.1 h₆
    rw [heq] at h
    exact of_read h
  · obtain ⟨fuel, heq⟩ := hperforms.2 h₇
    rw [heq] at h
    obtain ⟨⟨outputs, m₁⟩, hwrite, rfl⟩ := map_eq_ok.1 h
    exact of_write hwrite

theorem mapRegisters (s : UserState) :
    HandlerMoves s.registers (s.mapRegisters UserProg.advancePC).registers :=
  advancePC ⟨s.registers, [], s.memory.mainMemory⟩

theorem of_result (s : UserState) (value : Word) :
    HandlerMoves s.registers (s.result value).registers :=
  result ⟨s.registers, [], s.memory.mainMemory⟩ value

theorem of_exec (h : exec memAll isMain t input s = .ok (s', calls)) :
    HandlerMoves s.registers s'.registers := by
  obtain ⟨-, m₁, filename, m₂, hm₁, hname, h⟩ := exec_eq_ok h
  have hr₁ : m₁.registers = s.registers := UserState.registers_of_machine hm₁
  have htraps : HandlerMoves s.registers m₂.registers := hr₁ ▸ of_traps (.of_fileName hname)
  let s₁ := ({ s with processId := s.processId + 1 } : UserState).setMachine m₂
  obtain ⟨-, rfl, -⟩ | ⟨name, -, ⟨-, rfl, -⟩ | ⟨file, -, hload⟩⟩ := h
  · exact htraps.trans (of_result s₁ _)
  · exact htraps.trans (mapRegisters s₁)
  · obtain ⟨space, map, mainMemory, -, rfl, -⟩ := load_eq_ok hload
    exact htraps

theorem of_syscall (hperforms : input.Performs isMain (s.registers.gpr 2))
    (h : syscall memAll isMain t input s = .ok (s', calls)) :
    HandlerMoves s.registers s'.registers := by
  dsimp only [syscall] at h
  split_ifs at h with h₀ h₁ h₂ h₃ h₆ h₁₀
  · obtain ⟨_, _, _, _, _, _, parent, -, -, -, -, rfl, -⟩ := exit_eq_ok h
    exact mapRegisters s
  · exact of_exec h
  · obtain ⟨rfl, -⟩ | ⟨rfl, -⟩ | ⟨rfl, -⟩ := join_eq_ok h
    · exact of_result s _
    · exact mapRegisters s
    · exact .refl
  · obtain ⟨m, hm, h⟩ := bind_eq_ok.1 h
    obtain ⟨m', htransfer, h⟩ := bind_eq_ok.1 h
    cases h
    exact UserState.registers_of_machine hm ▸ of_transfer hperforms h₆ htransfer
  · cases h
    exact .refl
  · cases h
    exact mapRegisters s

/-- An instruction is executed, and `ExceptionHandler` if it has raised an exception. -/
theorem of_instruction
    (hperforms : ∀ s₁, s.trapped = some s₁ → input.Performs isMain (s₁.registers.gpr 2))
    (h : instruction memAll isMain t input s = .ok (s', calls)) :
    ∃ m m₁, s.machine = .ok m ∧ m.oneInstruction (fun _ m => .ok m) = .ok m₁ ∧
      HandlerMoves m₁.registers s'.registers := by
  obtain ⟨m, hm, h⟩ := bind_eq_ok.1 h
  rcases hx : execute.outcome m with ⟨(⟨which, badVAddr⟩ | f) | _, m₁⟩
  · simp only [hx] at h
    refine ⟨m, m₁.trap badVAddr, hm, by simp [oneInstruction, raiseException, hx], ?_⟩
    split_ifs at h with hw
    · refine of_syscall (hperforms _ ?_) h
      simp only [UserState.trapped, hm, hx, if_pos hw]
    · obtain ⟨m₂, hhandler, h⟩ := bind_eq_ok.1 h
      cases h
      rw [eq_of_exceptionHandler hhandler]
      exact .refl
  · simp only [hx] at h
    cases h
  · simp only [hx] at h
    cases h
    exact ⟨m, m₁, hm, by simp [oneInstruction, hx], .refl⟩

end HandlerMoves

/-! ### Operations on the registers -/

namespace RegisterState

open ArrayMachine RegisterArray

variable {τ : Type} [DecidableEq τ] {a a' : RegisterState τ} {e : RegisterEvent τ}

omit [DecidableEq τ] in
theorem setRegisters_setRegisters (a : RegisterState τ) (b c : RegisterArray) :
    (a.setRegisters b).setRegisters c = a.setRegisters c := rfl

theorem steps_of_event (h : a.step e = .ok a') : (registerSystem τ).Steps Always a a' :=
  (Steps.refl a).tail trivial h

/-- What `ExceptionHandler` does is an operation. -/
theorem exists_step_of_move (a : RegisterState τ) (h : HandlerMove r r') :
    ∃ e, (a.setRegisters r.toArray).step e = .ok (a.setRegisters r'.toArray) := by
  cases h with
  | trap m badVAddr =>
    let m₁ : Machine := ⟨m.registers, a.machine.pageTable, a.machine.mainMemory⟩
    have htrap : (a.setRegisters m.registers.toArray).machine.trap badVAddr =
        .ok (m₁.trap badVAddr).toArray := trap_toArray m₁ badVAddr
    refine ⟨.raiseException badVAddr, ?_⟩
    rw [RegisterState.step, htrap]
    rfl
  | result m value =>
    have hwrite : m.registers.toArray.writeRegister 2 value =
        .ok (m.setGpr 2 value).registers.toArray :=
      congrArg Except.ok (update_gpr m.registers 2 value)
    refine ⟨.result value, ?_⟩
    change (do return a.setRegisters (← m.registers.toArray.writeRegister 2 value)) = _
    rw [hwrite]
    rfl
  | advancePC m =>
    have hadvance : m.registers.toArray.advancePC =
        (UserProg.advancePC m).registers.toArray := by
      unfold RegisterArray.advancePC
      dsimp only
      rw [update_prevPCReg, update_pcReg, update_nextPCReg]
      rfl
    exact ⟨.advancePC, congrArg (fun r => Except.ok (a.setRegisters r)) hadvance⟩

theorem steps_of_moves (ha : a.machine.registers = r.toArray) (h : HandlerMoves r r') :
    (registerSystem τ).Steps Always a (a.setRegisters r'.toArray) := by
  induction h with
  | refl =>
    rw [← ha]
    exact Steps.refl a
  | tail _ hmove ih =>
    obtain ⟨e, he⟩ := a.exists_step_of_move hmove
    exact ih.tail trivial he

theorem steps_of_setSpace {u : τ} (hu : a.inRun u = false) :
    (registerSystem τ).Steps Always a { a with space := update a.space u true } := by
  refine steps_of_event (e := .setSpace u) ?_
  simp only [RegisterState.step, hu, Bool.false_eq_true, if_false]

/-- An instruction is executed with the page table and the memory that the kernel has set. -/
theorem steps_of_oneInstruction (ha : a.machine.registers = m.registers.toArray)
    (h : m.oneInstruction (fun _ m => .ok m) = .ok m₁) :
    (registerSystem τ).Steps Always a (a.setRegisters m₁.registers.toArray) := by
  obtain ⟨⟨_, pageTable, mainMemory⟩, currentThread, space, userRegisters, inRun⟩ := a
  obtain rfl : _ = m.registers.toArray := ha
  have hone : m.toArray.oneInstruction = .ok m₁.toArray := by
    rw [oneInstruction_toArray, h]
    rfl
  let a (n : ArrayMachine) : RegisterState τ := ⟨n, currentThread, space, userRegisters, inRun⟩
  have hset : (registerSystem τ).Steps Always (a ⟨m.registers.toArray, pageTable, mainMemory⟩)
      (a m.toArray) := steps_of_event (e := .setMemory m.pageTable m.mainMemory) rfl
  have hstep : (a m.toArray).step .instruction = .ok (a m₁.toArray) := by
    change (do return a (← m.toArray.oneInstruction)) = _
    rw [hone]
    rfl
  exact (hset.trans (steps_of_event hstep)).trans
    (steps_of_event (e := .setMemory pageTable mainMemory) rfl)

end RegisterState

/-! ### Pointers to address spaces -/

theorem SameProcesses.hasSpace (h : SameProcesses s s') : s'.hasSpace = s.hasSpace := by
  funext u
  have hsome : (s'.memory.space u).isSome = (s.memory.space u).isSome := by
    rw [← Option.isSome_map (f := AddrSpace.outline), h.outline, Option.isSome_map]
  rw [UserState.hasSpace, UserState.hasSpace, hsome, h.exited]

/-- A thread gets an address space. -/
theorem hasSpace_of_update {space : AddrSpace}
    (hspace : s'.memory.space = update s.memory.space t (some space))
    (hexited : s'.exited = s.exited) : s'.hasSpace = update s.hasSpace t true := by
  funext u
  rw [UserState.hasSpace, hspace, hexited]
  by_cases hu : u = t
  · rw [hu, update_self, update_self]
    rfl
  · rw [update_of_ne hu, update_of_ne hu]
    rfl

/-- A process that exits has begun to delete its address space. -/
theorem hasSpace_of_exit (h : exit t input s = .ok (s', calls)) : s'.hasSpace = s.hasSpace := by
  obtain ⟨space, _, _, _, _, _, _, hspace, -, -, -, rfl, -⟩ := exit_eq_ok h
  funext u
  by_cases hu : u = t
  · simp [UserState.hasSpace, hu, hspace]
  · simp [UserState.hasSpace, hu]

/-- `Exec` sets the pointer of the new thread. -/
theorem hasSpace_of_effect (h : Effect memAll t input s s' calls) : s'.hasSpace = s.hasSpace ∨
    s'.hasSpace = update s.hasSpace (s.processId + 1) true := by
  cases h with
  | machine h | yield h | join h => exact .inl h.hasSpace
  | execFailed _ h => exact .inl h.hasSpace
  | @load s₁ s' _ file _ h hload =>
    obtain ⟨space, map, mainMemory, -, hs', -⟩ := load_eq_ok hload
    have hspace : s'.hasSpace = update s₁.hasSpace s₁.processId true := by
      rw [← hs']
      exact hasSpace_of_update rfl rfl
    rw [hspace, h.hasSpace, h.processId]
    exact .inr rfl
  | exit h hexit => exact .inl ((hasSpace_of_exit hexit).trans h.hasSpace)

/-! ### Client code -/

/-- The registers as the operations find them. The page table is set for an instruction only. -/
def UserState.registerState (s : UserState) (t : ℕ) (inRun : ℕ → Bool) : RegisterState ℕ where
  machine := ⟨s.registers.toArray, [], s.memory.mainMemory⟩
  currentThread := t
  space := s.hasSpace
  userRegisters u := (s.userRegisters u).toArray
  inRun := inRun

namespace RegisterState

open RegisterArray

variable {inRun : ℕ → Bool}

/-- The registers have changed, and then a pointer to an address space and the memory. -/
theorem steps_of_registers (huser : s'.userRegisters = s.userRegisters)
    (hspace : s'.hasSpace = s.hasSpace ∨
      ∃ u, inRun u = false ∧ s'.hasSpace = update s.hasSpace u true)
    (h : (registerSystem ℕ).Steps Always (s.registerState t inRun)
      ((s.registerState t inRun).setRegisters s'.registers.toArray)) :
    (registerSystem ℕ).Steps Always (s.registerState t inRun) (s'.registerState t inRun) := by
  have hmemory := h.trans (steps_of_event (e := .setMemory [] s'.memory.mainMemory) rfl)
  obtain hspace | ⟨u, hu, hspace⟩ := hspace
  · rw [UserState.registerState, UserState.registerState, huser, hspace]
    exact hmemory
  · rw [UserState.registerState, UserState.registerState, huser, hspace]
    exact hmemory.trans (steps_of_setSpace hu)

theorem cleared_toArray : Registers.cleared.toArray = fun _ => 0 :=
  RegisterArray.ext (fun i => toArray_gpr _ i) fun j => by fin_cases j <;> rfl

theorem initRegisters_toArray (space : AddrSpace) :
    RegisterArray.initRegisters space.numPages = space.initRegisters.toArray := by
  have hgpr : update Registers.cleared.gpr 29 (BitVec.ofNat 32 (space.numPages * pageSize) - 16) =
      space.initRegisters.gpr := funext fun r => update_apply ..
  unfold RegisterArray.initRegisters
  dsimp only
  rw [← cleared_toArray, update_pcReg, update_nextPCReg, update_gpr]
  dsimp only
  rw [hgpr]
  rfl

/-- Client code is executed. The thread of a new process is not in `Run`. -/
theorem steps_of_code {code : UserCode} (hcur : inRun t = false)
    (hnew : code = .run → inRun (s.processId + 1) = false)
    (hperforms : code = .run → ∀ s₁, s.trapped = some s₁ →
      input.Performs (merged && t == 1) (s₁.registers.gpr 2))
    (h : (userClient memAll merged).exec t code input s = .ok (s', calls)) :
    (registerSystem ℕ).Steps Always (s.registerState t inRun) (s'.registerState t inRun) := by
  have huser : s'.userRegisters = s.userRegisters := (installed_of_code h).2
  have hmoves (hspace : s'.hasSpace = s.hasSpace) (hr : HandlerMoves s.registers s'.registers) :
      (registerSystem ℕ).Steps Always (s.registerState t inRun) (s'.registerState t inRun) :=
    steps_of_registers huser (.inl hspace) (steps_of_moves rfl hr)
  cases code with
  | startProcess =>
    obtain ⟨rfl, -⟩ | ⟨-, file, map₀, space, map, mainMemory, -, -, h⟩ := startProcess_eq_ok h
    · exact Steps.refl _
    · obtain ⟨-, list, -, rfl, -⟩ | ⟨-, rfl, -⟩ := h <;>
        exact steps_of_registers huser (.inr ⟨t, hcur, hasSpace_of_update rfl rfl⟩) (Steps.refl _)
  | processCreator | countProcess | uncountProcess =>
    cases h
    exact Steps.refl _
  | initRegisters =>
    simp only [userClient] at h
    split at h
    · cases h
    · rename_i space _
      cases h
      refine steps_of_registers huser (.inl rfl)
        (steps_of_event (e := .initRegisters space.numPages) ?_)
      rw [RegisterState.step, initRegisters_toArray]
  | run =>
    obtain ⟨⟨s₁, cs⟩, hrun, heq⟩ := map_eq_ok.1 h
    obtain ⟨rfl, -⟩ := Prod.mk.inj heq
    obtain ⟨m, m₁, hm, hone, hr⟩ := HandlerMoves.of_instruction (hperforms rfl) hrun
    have hregs : s.registers = m.registers := (UserState.registers_of_machine hm).symm
    have hsteps := steps_of_oneInstruction (a := s.registerState t inRun)
      (congrArg Registers.toArray hregs) hone
    have hsteps' := hsteps.trans (steps_of_moves rfl hr)
    rw [setRegisters_setRegisters] at hsteps'
    refine steps_of_registers huser ?_ hsteps'
    exact (hasSpace_of_effect (effect_of_instruction hrun)).imp_right
      fun hspace => ⟨_, hnew rfl, hspace⟩
  | append a pid =>
    obtain ⟨list, -, heq⟩ := map_eq_ok.1 h
    cases heq
    exact hmoves rfl (.of_result _ _)
  | joined =>
    cases h
    exact hmoves rfl (.of_result s 0)
  | yielded =>
    cases h
    exact hmoves rfl (.mapRegisters s)

/-! ### `Run` and interrupts -/

theorem switchOut_registerState (s : UserState) (t next : ℕ) (inRun : ℕ → Bool) :
    (s.registerState t inRun).switchOut next =
      ((userClient memAll merged).saveState t s).registerState next (update inRun t true) := by
  by_cases hspace : s.hasSpace t = true
  · have huser : update (fun u => (s.userRegisters u).toArray) t s.registers.toArray =
        fun u => (update s.userRegisters t s.registers u).toArray :=
      funext fun u => (apply_update (fun _ => Registers.toArray) s.userRegisters t _ u).symm
    simp only [RegisterState.switchOut, UserState.registerState, userClient, hspace, if_true, huser]
    rfl
  · simp only [RegisterState.switchOut, UserState.registerState, userClient, hspace,
      Bool.false_eq_true, if_false]

theorem switchIn_registerState (s : UserState) (t : ℕ) (inRun : ℕ → Bool) :
    (s.registerState t inRun).switchIn =
      ((userClient memAll merged).restoreState t s).registerState t (update inRun t false) := by
  by_cases hspace : s.hasSpace t = true
  · simp only [RegisterState.switchIn, UserState.registerState, userClient, hspace, if_true]
    rfl
  · simp only [RegisterState.switchIn, UserState.registerState, userClient, hspace,
      Bool.false_eq_true, if_false]

/-- Interrupt handlers are called. -/
theorem steps_of_loads (h : (userClient memAll merged).Loads s s') :
    (registerSystem ℕ).Steps Always (s.registerState t inRun) (s'.registerState t inRun) := by
  induction h with
  | refl => exact Steps.refl _
  | @tail s₁ _ _ hload ih =>
    subst hload
    let m : Machine := ⟨s₁.registers, [], s₁.memory.mainMemory⟩
    refine ih.trans (steps_of_event (e := .interrupt) ?_)
    have hload : (s₁.registerState t inRun).machine.registers.delayedLoad 0 0 =
        .ok (m.delayedLoad 0 0).registers.toArray := delayedLoad_toArray m 0 0
    rw [RegisterState.step, hload]
    rfl

end RegisterState

/-! ### Steps of the kernel -/

namespace UserKernel

variable {k k' : UserKernel} {i : Input Empty UserInput}

/-- The registers of the machine and of the threads. -/
def registerState (k : UserKernel) : RegisterState ℕ :=
  k.env.registerState k.currentThread fun t => decide (k.InRun t)

/-- What is known of the threads that are in `Run`. -/
structure Tracked (k : UserKernel) : Prop where
  sane : k.Sane
  nested : k.Nested 1
  forked : ∀ t ∈ k.history.forked, t ≤ k.env.processId

theorem tracked_boot : UserKernel.boot.Tracked where
  sane := sane_boot
  nested := .boot ..
  forked t ht := by cases ht

theorem Tracked.step (h : k.Tracked) (hw : k.step (userClient memAll merged) i = .ok k') :
    k'.Tracked where
  sane := (h.sane.step hw).1
  nested := h.nested.step h.sane.sound hw
  forked t ht := by
    obtain ⟨-, o, hmove, -⟩ := h.sane.step hw
    have hle : k.env.processId ≤ k'.env.processId := hmove.processId_le
    refine le_trans ?_ hle
    by_cases hmem : t ∈ k.history.forked
    · exact h.forked t hmem
    · cases Kernel.progress_of_step hw with
      | fork u func rest _ _ htask _ _ _ _ hforked =>
        rw [hforked] at ht
        obtain rfl : t = u := by simpa [hmem] using ht
        have hstarted := (h.sane.fork _ t func (htask ▸ List.mem_cons_self)).2
        exact (h.sane.valid.elements.started_le hstarted).2
      | exec _ _ _ _ _ _ _ _ _ _ hforked | wait _ _ _ _ _ _ _ _ _ hforked
      | take _ _ _ _ _ _ _ _ _ hforked | wake _ _ _ _ _ _ _ _ hforked
      | retire _ _ _ _ _ _ _ _ _ hforked | internal _ _ _ hforked =>
        exact absurd (hforked ▸ ht) hmem

/-- The next PID is not that of a thread in `Run`. -/
theorem Tracked.not_inRun (h : k.Tracked) {fs : List (Frame ℕ UserSemaphore UserCode)}
    (hst : k.stack k.currentThread = .call (.code .run) :: fs) :
    ¬k.InRun (k.env.processId + 1) := by
  have hstarted : k.ledger.Started k.currentThread := .inl (h.sane.loaded_of_run hst)
  have hle := h.sane.valid.elements.started_le hstarted
  have hid : k.ledger.processId = k.env.processId := rfl
  have hnot : k.env.processId + 1 ∉ k.history.forked := fun hmem => by
    have := h.forked _ hmem
    omega
  rw [Kernel.InRun, h.nested.fresh _ (by omega) hnot]
  exact List.not_mem_nil

variable {f : Frame ℕ UserSemaphore UserCode} {fs : List (Frame ℕ UserSemaphore UserCode)}

/-- Which threads are in `Run` after a step. -/
theorem Tracked.inRun_step (h : k.Tracked) (hadv : k.Advances k' f fs)
    (hw : k.step (userClient memAll merged) i = .ok k') {b : Bool}
    (hb : b = true ↔ ∃ next, f = .run next) :
    (fun t => decide (k'.InRun t)) =
      update (fun t => decide (k.InRun t)) k.currentThread b := by
  funext t
  by_cases ht : t = k.currentThread
  · subst ht
    rw [update_self, Bool.eq_iff_iff, decide_eq_true_iff, hb]
    exact h.nested.inRun_current hadv hw
  · rw [update_of_ne ht, decide_eq_decide]
    exact h.nested.inRun_of_ne h.sane.sound hadv hw ht

/-- A step of the kernel is a sequence of operations. -/
theorem steps_registerState (h : k.Tracked) (hperforms : k.Performs merged i)
    (hw : k.step (userClient memAll merged) i = .ok k') :
    (registerSystem ℕ).Steps Always k.registerState k'.registerState := by
  obtain ⟨f, fs, hadv⟩ := h.sane.sound.advances_of_step hw
  obtain ⟨rest, hst, -⟩ := hadv.current
  unfold registerState
  by_cases hrun : ∃ next, f = .run next
  · rw [h.inRun_step hadv hw (b := true) (by simpa using hrun)]
    obtain ⟨next, rfl⟩ := hrun
    obtain ⟨-, henv, hcur⟩ := Kernel.out_of_step hst hw
    rw [henv, hcur, ← RegisterState.switchOut_registerState]
    exact RegisterState.steps_of_event (e := .switchOut next) rfl
  · rw [h.inRun_step hadv hw (b := false) (by simpa using hrun)]
    -- a thread that does not return from `Run` is not in `Run`
    have hout (hf : f ≠ .afterSwitch) : decide (k.InRun k.currentThread) = false :=
      decide_eq_false (h.nested.not_inRun hst hf)
    have hsame (hf : f ≠ .afterSwitch) :
        update (fun t => decide (k.InRun t)) k.currentThread false =
          fun t => decide (k.InRun t) := by
      rw [← hout hf, update_eq_self]
    cases Kernel.turn_of_step hadv hw with
    | exec code calls hf hfs hexec hcur =>
      subst hf
      rw [hcur, hsame (by simp)]
      refine RegisterState.steps_of_code (hout (by simp)) (fun hcode => ?_) (fun hcode => ?_) hexec
      · subst hcode
        exact decide_eq_false (h.not_inRun hst)
      · subst hcode
        exact fun s₁ => hperforms rest s₁ hst
    | out next hf => exact absurd ⟨next, hf⟩ hrun
    | back hf hfs henv hcur =>
      subst hf
      rw [henv, hcur, ← RegisterState.switchIn_registerState]
      have hin : k.InRun k.currentThread := by
        rw [Kernel.InRun, hst]
        exact List.mem_cons_self
      exact RegisterState.steps_of_event (e := .switchIn) (if_pos (decide_eq_true hin))
    | stays hf hcode henv hcur =>
      rw [hcur, hsame hf]
      exact RegisterState.steps_of_loads henv

theorem tracked_of_reachable {C : UserKernel → Input Empty UserInput → Prop}
    (h : (userSystem memAll merged).Reachable C k) : k.Tracked := by
  refine h.invariant Tracked ?_ fun _ _ _ hk _ hw => hk.step hw
  rintro k rfl
  exact tracked_boot

/-- The registers of the kernel are in a state that the operations reach. -/
theorem reachable_registerState (h : (userSystem memAll merged).Reachable (Performs merged) k) :
    (registerSystem ℕ).Reachable Always k.registerState := by
  refine h.map registerState ?_ fun k i k' hk hperforms hw =>
    steps_registerState (tracked_of_reachable hk) hperforms hw
  rintro k rfl
  exact ⟨.inl RegisterState.cleared_toArray,
    fun t => decide_eq_false (Kernel.not_inRun_boot _ _ _ _ t)⟩

/-- In every state of every run, register 0 of the machine contains 0, and so does register 0 of
every process that is switched out. -/
theorem gpr_zero_of_reachable (h : (userSystem memAll merged).Reachable (Performs merged) k) :
    k.env.registers.gpr 0 = 0 ∧
      ∀ t, k.InRun t → k.env.hasSpace t = true → (k.env.userRegisters t).gpr 0 = 0 := by
  have hzero {r : Registers} (hr : r.toArray.WellFormed) : r.gpr 0 = 0 :=
    (RegisterArray.toArray_gpr r 0).symm.trans hr.zero
  have hsound := RegisterState.sound_of_reachable (reachable_registerState h)
  exact ⟨hzero hsound.registers,
    fun t ht hspace => hzero (hsound.saved t (decide_eq_true ht) hspace)⟩

end UserKernel

end Nachos.UserProg
