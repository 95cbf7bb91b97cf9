import Nachos.Foundations.Run
import Nachos.Machine.RegisterArray

/-!
# What every instruction finds in the registers

User programs, exceptions, system calls, interrupts and context switches all work on the one array
`machine->registers`. Before each instruction, register 0 contains 0 and `LoadReg` the number of a
general purpose register, so that the store of `DelayedLoad` writes one of those. `Run` saves the
whole array for a thread with an address space and restores it when `SWITCH` returns in that thread.
In a thread that has not begun it does not return, whatever its `userRegisters` contain.

What the kernel does between two accesses to the registers is left open: the operations may follow
each other in any order, for any threads.

## Main definitions

* `RegisterState`, `RegisterEvent`: the registers of the machine and of the threads, and the
  operations on them.
* `RegisterState.CallsDelayedLoad`: the registers with which `DelayedLoad` is called.

## Main results

* `RegisterState.wellFormed_of_reachable`: the invariant.
-/

namespace Nachos.UserProg

open Foundations StepSystem Function

/-! ### Registers of the machine and of the threads -/

/-- `machine->registers`, and what decides which of them a thread gets back. -/
structure RegisterState (τ : Type) where
  machine : ArrayMachine
  currentThread : τ
  /-- The pointer `space` of a thread is not null. -/
  space : τ → Bool
  /-- `userRegisters` of the threads. They are not initialised. -/
  userRegisters : τ → RegisterArray
  /-- The thread has called `Run`, which has not returned. -/
  inRun : τ → Bool

/-- The operations on the registers. -/
inductive RegisterEvent (τ : Type)
  /-- `Machine::Run` executes an instruction, up to `ExceptionHandler` if it raises an exception. -/
  | instruction
  /-- An access to user memory by the kernel raises an exception. -/
  | raiseException (badVAddr : Word)
  /-- `WriteRegister(2, value)` in `ExceptionHandler`. -/
  | result (value : Word)
  | advancePC
  /-- `CheckIfDue` calls an interrupt handler. -/
  | interrupt
  | initRegisters (numPages : ℕ)
  /-- The kernel changes the memory, the page table or the pointer to it. -/
  | setMemory (pageTable : List TranslationEntry) (mainMemory : MainMemory)
  /-- `StartProcess` sets `space` of the current thread, and `SC_Exec` that of a thread before
  `Fork`. -/
  | setSpace (t : τ)
  /-- `new Thread`, which finds `junk` in the memory that it is given. -/
  | newThread (t : τ) (junk : RegisterArray)
  /-- `Scheduler::Run` up to `SWITCH`. -/
  | switchOut (next : τ)
  /-- `SWITCH` returns in the thread that is now the current one. -/
  | switchIn

namespace RegisterState

open ArrayMachine RegisterArray

variable {τ : Type} [DecidableEq τ]

/-- Change the registers of the machine. -/
def setRegisters (s : RegisterState τ) (r : RegisterArray) : RegisterState τ :=
  { s with machine := { s.machine with registers := r } }

/-- `Run` up to `SWITCH`: `SaveUserState` copies the registers. -/
def switchOut (s : RegisterState τ) (next : τ) : RegisterState τ :=
  { s with
    currentThread := next
    userRegisters :=
      if s.space s.currentThread then update s.userRegisters s.currentThread s.machine.registers
      else s.userRegisters
    inRun := update s.inRun s.currentThread true }

/-- `Run` after `SWITCH`: `RestoreUserState` copies the registers back. -/
def switchIn (s : RegisterState τ) : RegisterState τ :=
  let s := { s with inRun := update s.inRun s.currentThread false }
  if s.space s.currentThread then s.setRegisters (s.userRegisters s.currentThread) else s

/-- One operation. -/
def step (s : RegisterState τ) : RegisterEvent τ → Except Fault (RegisterState τ)
  | .instruction => do return { s with machine := ← s.machine.oneInstruction }
  | .raiseException badVAddr => do return { s with machine := ← s.machine.trap badVAddr }
  | .result value => do return s.setRegisters (← s.machine.registers.writeRegister 2 value)
  | .advancePC => .ok (s.setRegisters s.machine.registers.advancePC)
  | .interrupt => do return s.setRegisters (← s.machine.registers.delayedLoad 0 0)
  | .initRegisters numPages => .ok (s.setRegisters (RegisterArray.initRegisters numPages))
  | .setMemory pageTable mainMemory =>
    .ok { s with machine := { s.machine with pageTable, mainMemory } }
  | .setSpace t =>
    if s.inRun t then .error .disabled else .ok { s with space := update s.space t true }
  | .newThread t junk =>
    if t = s.currentThread ∨ s.inRun t then .error .disabled
    else .ok { s with
      space := update s.space t false
      userRegisters := update s.userRegisters t junk }
  | .switchOut next => .ok (s.switchOut next)
  -- a thread that has not begun does not return from `Run`
  | .switchIn => if s.inRun s.currentThread then .ok s.switchIn else .error .disabled

/-- `Machine::Machine` or `AddrSpace::InitRegisters` has set the registers, and no thread has
called `Run`. -/
structure Initial (s : RegisterState τ) : Prop where
  registers : (s.machine.registers = fun _ => 0) ∨
    ∃ numPages, s.machine.registers = RegisterArray.initRegisters numPages
  inRun : ∀ t, s.inRun t = false

/-- In the step, `DelayedLoad` is called with these registers. -/
inductive CallsDelayedLoad (s : RegisterState τ) : RegisterEvent τ → RegisterArray → Prop
  /-- At the end of `OneInstruction`. -/
  | finish {effect : Effect} {m : ArrayMachine}
      (h : fetchAndPerform.outcome s.machine = (.ok effect, m)) :
      CallsDelayedLoad s .instruction m.registers
  /-- In `RaiseException`. -/
  | exception {which : ExceptionType} {badVAddr : Word} {m : ArrayMachine}
      (h : fetchAndPerform.outcome s.machine = (.error (.exception which badVAddr), m)) :
      CallsDelayedLoad s .instruction (update m.registers badVAddrReg badVAddr)
  | kernel (badVAddr : Word) :
      CallsDelayedLoad s (.raiseException badVAddr)
        (update s.machine.registers badVAddrReg badVAddr)
  | interrupt : CallsDelayedLoad s .interrupt s.machine.registers

end RegisterState

/-- The runs of the operations. -/
def registerSystem (τ : Type) [DecidableEq τ] :
    StepSystem (RegisterState τ) (RegisterEvent τ) Fault where
  init := RegisterState.Initial
  step := RegisterState.step

namespace RegisterState

open ArrayMachine RegisterArray

variable {τ : Type} [DecidableEq τ] {s s' : RegisterState τ} {e : RegisterEvent τ}
  {r : RegisterArray}

/-! ### The invariant -/

/-- The registers of the machine are well-formed, and so are those that a thread will get back. -/
structure Sound (s : RegisterState τ) : Prop where
  registers : s.machine.registers.WellFormed
  saved : ∀ t, s.inRun t = true → s.space t = true → (s.userRegisters t).WellFormed

theorem wellFormed_zero : WellFormed fun _ => 0 := by
  constructor <;> decide

theorem wellFormed_initRegisters (numPages : ℕ) :
    (RegisterArray.initRegisters numPages).WellFormed :=
  ((wellFormed_zero.update (by decide) (by decide)).update (by decide) (by decide)).update
    (by decide) (by decide)

theorem wellFormed_advancePC (h : r.WellFormed) : r.advancePC.WellFormed :=
  ((h.update (by decide) (by decide)).update (by decide) (by decide)).update (by decide)
    (by decide)

omit [DecidableEq τ] in
theorem Initial.sound (h : s.Initial) : s.Sound where
  registers := by
    rcases h.registers with hr | ⟨numPages, hr⟩
    · exact hr ▸ wellFormed_zero
    · exact hr ▸ wellFormed_initRegisters numPages
  saved t ht := by
    rw [h.inRun t] at ht
    cases ht

omit [DecidableEq τ] in
/-- An operation on the registers of the machine only. -/
theorem Sound.of_registers (h : s.Sound) {m : ArrayMachine} (hm : m.registers.WellFormed) :
    Sound { s with machine := m } := ⟨hm, h.saved⟩

omit [DecidableEq τ] in
/-- Threads that are not in `Run` are of no concern. -/
theorem Sound.of_threads (h : s.Sound) {space : τ → Bool} {userRegisters : τ → RegisterArray}
    (heq : ∀ t, s.inRun t = true → space t = s.space t ∧ userRegisters t = s.userRegisters t) :
    Sound { s with space, userRegisters } where
  registers := h.registers
  saved t ht hspace := by
    obtain ⟨hs, hu⟩ := heq t ht
    change (userRegisters t).WellFormed
    rw [hu]
    exact h.saved t ht (hs.symm.trans hspace)

/-- A thread that is switched out has saved well-formed registers, if it has an address space. -/
theorem Sound.switchOut (h : s.Sound) (next : τ) : (s.switchOut next).Sound where
  registers := h.registers
  saved t ht hspace := by
    simp only [RegisterState.switchOut] at ht hspace ⊢
    by_cases hcur : t = s.currentThread
    · rw [← hcur, if_pos hspace, update_self]
      exact h.registers
    · rw [update_of_ne hcur] at ht
      split_ifs
      · rw [update_of_ne hcur]
        exact h.saved t ht hspace
      · exact h.saved t ht hspace

theorem Sound.switchIn (h : s.Sound) (hrun : s.inRun s.currentThread = true) :
    s.switchIn.Sound := by
  have hsaved (t : τ) (ht : update s.inRun s.currentThread false t = true)
      (hspace : s.space t = true) : (s.userRegisters t).WellFormed := by
    refine h.saved t ?_ hspace
    by_cases hcur : t = s.currentThread
    · exact hcur ▸ hrun
    · rwa [update_of_ne hcur] at ht
  unfold RegisterState.switchIn
  dsimp only
  split_ifs with hspace
  · exact ⟨h.saved _ hrun hspace, hsaved⟩
  · exact ⟨h.registers, hsaved⟩

theorem Sound.step (h : s.Sound) (hs : s.step e = .ok s') : s'.Sound := by
  cases e with
  | instruction =>
    obtain ⟨m, hm, hs⟩ := bind_eq_ok.1 hs
    obtain rfl := Except.ok.inj hs
    exact h.of_registers (h.registers.oneInstruction hm)
  | raiseException badVAddr =>
    obtain ⟨m, hm, hs⟩ := bind_eq_ok.1 hs
    obtain rfl := Except.ok.inj hs
    obtain ⟨n, hn⟩ := h.registers.exists_toArray
    rw [← hn] at hm
    exact h.of_registers (wellFormed_of_trap hm)
  | result value =>
    obtain ⟨r, hr, hs⟩ := bind_eq_ok.1 hs
    obtain rfl := Except.ok.inj hs
    obtain rfl := Except.ok.inj hr
    exact h.of_registers (h.registers.update (by decide) (by decide))
  | advancePC =>
    obtain rfl := Except.ok.inj hs
    exact h.of_registers (wellFormed_advancePC h.registers)
  | interrupt =>
    obtain ⟨r, hr, hs⟩ := bind_eq_ok.1 hs
    obtain rfl := Except.ok.inj hs
    exact h.of_registers (h.registers.delayedLoad hr)
  | initRegisters numPages =>
    obtain rfl := Except.ok.inj hs
    exact h.of_registers (wellFormed_initRegisters numPages)
  | setMemory pageTable mainMemory =>
    obtain rfl := Except.ok.inj hs
    exact h.of_registers h.registers
  | setSpace t =>
    simp only [RegisterState.step] at hs
    split_ifs at hs with ht
    obtain rfl := Except.ok.inj hs
    refine h.of_threads fun t' ht' => ?_
    have hne : t' ≠ t := fun he => ht (he ▸ ht')
    exact ⟨update_of_ne hne _ _, rfl⟩
  | newThread t junk =>
    simp only [RegisterState.step] at hs
    split_ifs at hs with ht
    obtain rfl := Except.ok.inj hs
    refine h.of_threads fun t' ht' => ?_
    have hne : t' ≠ t := fun he => ht (.inr (he ▸ ht'))
    exact ⟨update_of_ne hne _ _, update_of_ne hne _ _⟩
  | switchOut next =>
    obtain rfl := Except.ok.inj hs
    exact h.switchOut next
  | switchIn =>
    simp only [RegisterState.step] at hs
    split_ifs at hs with hrun
    obtain rfl := Except.ok.inj hs
    exact h.switchIn hrun

omit [DecidableEq τ] in
/-- `DelayedLoad` is called with well-formed registers, except that the `switch` may have written
register 0. -/
theorem Sound.storesGeneral (h : s.Sound) (hc : s.CallsDelayedLoad e r) : r.StoresGeneral := by
  cases hc with
  | finish hx =>
    obtain ⟨n, -, rfl, -⟩ := h.registers.fetchAndPerform hx
    exact storesGeneral_toArray n.registers
  | exception hx =>
    obtain ⟨n, -, rfl, -⟩ := h.registers.fetchAndPerform hx
    exact (update_badVAddrReg n.registers _).symm ▸ storesGeneral_toArray _
  | kernel badVAddr => exact (h.registers.update (by decide) (by decide)).storesGeneral
  | interrupt => exact h.registers.storesGeneral

theorem sound_of_reachable (h : (registerSystem τ).Reachable Always s) : s.Sound :=
  h.invariant Sound (fun _ => Initial.sound) fun _ _ _ hs _ hstep => hs.step hstep

/-- Before every instruction, register 0 contains 0 and `LoadReg` a number from 0 to 31, and every
call of `DelayedLoad` writes a general purpose register through it. -/
theorem wellFormed_of_reachable (τ : Type) [DecidableEq τ] (s : RegisterState τ)
    (h : (registerSystem τ).Reachable Always s) :
    s.machine.registers.WellFormed ∧ ∀ e r, s.CallsDelayedLoad e r → r.StoresGeneral := by
  have hsound : s.Sound := sound_of_reachable h
  exact ⟨hsound.registers, fun _ _ => hsound.storesGeneral⟩

/-- The instruction `lw $5, 0($0)` has been executed by a thread, which is then switched out. A new
thread begins, clears the registers and has to wait in turn. -/
theorem wellFormed_of_pending_load : ∃ s : RegisterState ℕ,
    (registerSystem ℕ).Reachable Always s ∧
    (s.machine.registers loadReg = 5 ∧ s.userRegisters 1 loadReg = 0) ∧
    s.machine.registers.WellFormed ∧ ∀ e r, s.CallsDelayedLoad e r → r.StoresGeneral := by
  let pageTable : List TranslationEntry := [⟨0, 0, true, false, false, false⟩]
  let mainMemory : MainMemory := MainMemory.store (fun _ => 0) 0 (Machine.bytes 0x8c050000 .four)
  let s₀ : RegisterState ℕ :=
    ⟨⟨fun _ => 0, pageTable, mainMemory⟩, 0, fun _ => false, fun _ _ => 77, fun _ => false⟩
  have hinit : s₀.Initial := ⟨.inl rfl, fun _ => rfl⟩
  obtain ⟨s, hs, ht⟩ := exists_reachable_of_runInputs (S := registerSystem ℕ) hinit
    [.setSpace 0, .initRegisters 8, .instruction, .newThread 1 fun _ => 77, .setSpace 1,
      .switchOut 1, .initRegisters 8, .interrupt, .switchOut 0, .switchIn]
    (fun s => s.machine.registers loadReg == 5 && s.userRegisters 1 loadReg == 0)
    (by decide +kernel)
  simp only [Bool.and_eq_true, beq_iff_eq] at ht
  exact ⟨s, hs, ht, wellFormed_of_reachable ℕ s hs⟩

end RegisterState

end Nachos.UserProg
