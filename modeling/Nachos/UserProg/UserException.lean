import Nachos.Machine.MipsSim
import Mathlib.Logic.Relation

/-!
# Exceptions of user programs

The cases of `ExceptionHandler` (`userprog/exception.cc`) for exceptions other than system calls.
The handler compares the name of the current thread with `"main"`, as pointers. For such a thread
most cases fail an assertion, and for every other thread they return with the program counter where
it was, so that `Machine::Run` executes the instruction again.

System calls are a parameter of this file, and so is the result of the comparison. `Run` lets the
clock tick between two instructions, and other processes may run then; a state is the one that the
process finds when it goes on.

## Main definitions

* `exceptionHandler`, `Machine.userException`.
* `Retakes`: an instruction raises an exception, and `Run` executes the next one in another state.
* `NotRetaken`: an exception ends the simulation or changes the state, and the instruction is never
  executed again in the identical state.

## Main results

* `notRetaken_iff`: the exceptions that are not taken again for ever.
-/

namespace Nachos.UserProg

open Foundations Machine

/-- `AdvancePC`. -/
def advancePC (m : Machine) : Machine :=
  { m with
    registers :=
      { m.registers with
        prevPC := m.registers.pc
        pc := m.registers.nextPC
        nextPC := m.registers.nextPC + 4 } }

/-- `ASSERT(FALSE)` under a condition. -/
def assertFalseIf (c : Bool) (m : Machine) : Except Fault Machine :=
  if c then .error .assertion else .ok m

/-- `ExceptionHandler`, where `isMain` tells whether the current thread has the name `"main"`. -/
def exceptionHandler (isMain : Bool) (syscall : Machine → Except Fault Machine)
    (which : ExceptionType) (m : Machine) : Except Fault Machine :=
  match which with
  | .noException => .ok m
  | .syscallException => syscall m
  | .readOnlyException => assertFalseIf isMain m
  | .busErrorException => assertFalseIf isMain m
  | .addressErrorException => assertFalseIf isMain m
  | .overflowException => assertFalseIf isMain m
  -- only the call of `AdvancePC` depends on the name
  | .illegalInstrException => assertFalseIf true (if isMain then advancePC m else m)
  -- there is no case for this exception
  | .pageFaultException => .ok m

/-- The exception that the current instruction raises, unless it is a system call. -/
def userException (m : Machine) : Option ExceptionType :=
  match execute.outcome m with
  | (.error (.exception which _), _) => if which = .syscallException then none else some which
  | _ => none

variable (isMain : Bool) (syscall : Machine → Except Fault Machine)

/-- The current instruction raises an exception, and then `Run` executes an instruction in the
state `m'`. -/
def Retakes (m m' : Machine) : Prop :=
  (userException m).isSome ∧ oneInstruction (exceptionHandler isMain syscall) m = .ok m'

/-- After an exception the process is terminated or resumed in a different state, and as long as it
executes instructions that raise exceptions, it executes none of them twice in the identical
state. -/
structure NotRetaken (m : Machine) : Prop where
  resumed : oneInstruction (exceptionHandler isMain syscall) m = .error .assertion ∨
    ∃ m', oneInstruction (exceptionHandler isMain syscall) m = .ok m' ∧ m' ≠ m
  never {m' : Machine} : Relation.ReflTransGen (Retakes isMain syscall) m m' →
    ¬Retakes isMain syscall m' m'

/-- The exceptions for which the handler ends the simulation: those with an assertion, which is
unconditional for an illegal instruction only. -/
def Aborts (which : ExceptionType) : Prop :=
  which = .illegalInstrException ∨
    isMain = true ∧ which ∉ [.noException, .syscallException, .pageFaultException]

instance (which : ExceptionType) : Decidable (Aborts isMain which) := by
  unfold Aborts
  infer_instance

variable {isMain syscall} {m m' n : Machine} {which which' : ExceptionType} {badVAddr : Word}

theorem exceptionHandler_of_aborts (h : Aborts isMain which) :
    exceptionHandler isMain syscall which m = .error .assertion := by
  rcases h with rfl | ⟨rfl, hw⟩
  · rfl
  · cases which <;> first | rfl | exact absurd (by simp) hw

theorem exceptionHandler_of_not_aborts (h : ¬Aborts isMain which)
    (hw : which ≠ .syscallException) : exceptionHandler isMain syscall which m = .ok m := by
  cases isMain with
  | false => cases which <;> first | rfl | contradiction
  | true => cases which <;> first | rfl | contradiction

theorem userException_eq_some : userException m = some which ↔
    which ≠ .syscallException ∧
      ∃ badVAddr m', execute.outcome m = (.error (.exception which badVAddr), m') := by
  unfold userException
  rcases h : execute.outcome m with ⟨(e | f) | a, m'⟩
  · simp only [Prod.mk.injEq, Except.error.injEq, Trap.exception.injEq]
    split_ifs with hs
    · simp only [false_iff, not_and]
      rintro hw ⟨_, _, ⟨rfl, -⟩, -⟩
      exact hw hs
    · constructor
      · rintro ⟨⟩
        exact ⟨hs, _, _, ⟨rfl, rfl⟩, rfl⟩
      · rintro ⟨-, _, _, ⟨rfl, -⟩, -⟩
        rfl
  · simp
  · simp

/-! ### Delayed loads -/

/-- No load is delayed. -/
structure Settled (m : Machine) : Prop where
  loadReg : m.registers.loadReg = 0
  loadValue : m.registers.loadValue = 0
  zero : m.registers.gpr 0 = 0

theorem settled_trap (m : Machine) (badVAddr : Word) : Settled (m.trap badVAddr) where
  loadReg := rfl
  loadValue := rfl
  zero := by simp [Machine.trap, delayedLoad, setGpr]

theorem Settled.trap (h : Settled m) (badVAddr : Word) :
    m.trap badVAddr = { m with registers := { m.registers with badVAddr } } := by
  have h₀ : Function.update m.registers.gpr 0 0 = m.registers.gpr := by
    rw [← h.zero, Function.update_eq_self]
  simp only [Machine.trap, delayedLoad, setGpr, h.loadReg, h.loadValue, h₀]

theorem trap_trap (m : Machine) (badVAddr : Word) :
    (m.trap badVAddr).trap badVAddr = m.trap badVAddr :=
  (settled_trap m badVAddr).trap badVAddr

theorem below_trap (h : m.Below m') (badVAddr : Word) :
    (m.delayedLoad 0 0).Below (m'.trap badVAddr) where
  registers := by
    simp only [Machine.trap, delayedLoad, setGpr]
    rw [h.registers]
  mainMemory := h.mainMemory
  pageTable := h.pageTable

theorem Settled.of_below (h : m.Below m') (hs : Settled m) : Settled m' := by
  constructor <;> rw [h.registers]
  exacts [hs.loadReg, hs.loadValue, hs.zero]

/-! ### What `Run` executes after an exception -/

theorem oneInstruction_of_aborts (h : userException m = some which) (ha : Aborts isMain which) :
    oneInstruction (exceptionHandler isMain syscall) m = .error .assertion := by
  obtain ⟨-, badVAddr, m', he⟩ := userException_eq_some.1 h
  simp only [oneInstruction, he, raiseException]
  exact exceptionHandler_of_aborts ha

/-- Without an assertion the process goes on at the same instruction. Its delayed load has been
performed. -/
theorem oneInstruction_of_not_aborts (syscall : Machine → Except Fault Machine)
    (h : userException m = some which) (ha : ¬Aborts isMain which) : ∃ badVAddr m',
      execute.outcome m = (.error (.exception which badVAddr), m') ∧ m.Below m' ∧
      oneInstruction (exceptionHandler isMain syscall) m = .ok (m'.trap badVAddr) := by
  obtain ⟨hw, badVAddr, m', he⟩ := userException_eq_some.1 h
  refine ⟨badVAddr, m', he, restartable_execute.above he, ?_⟩
  simp only [oneInstruction, he, raiseException]
  exact exceptionHandler_of_not_aborts ha hw

/-- An exception does not depend on what an earlier attempt has changed. -/
theorem userException_congr (h : m.Below m') : userException m' = userException m := by
  ext which
  simp only [userException_eq_some]
  refine and_congr_right fun _ => exists_congr fun badVAddr => ?_
  exact (restartable_execute.stops_iff _ h).symm

theorem not_retakes_of_aborts (h : userException m = some which) (ha : Aborts isMain which) :
    ¬Retakes isMain syscall m m' := by
  rintro ⟨-, hm⟩
  rw [oneInstruction_of_aborts h ha] at hm
  cases hm

/-- An instruction without a delayed load that does not end the simulation is executed again in
the identical state, for the second time at the latest. -/
theorem exists_retakes (syscall : Machine → Except Fault Machine) (hs : Settled m)
    (h : userException m = some which) (ha : ¬Aborts isMain which) :
    ∃ m', Retakes isMain syscall m m' ∧ Retakes isMain syscall m' m' := by
  obtain ⟨badVAddr, m', he, hb, ho⟩ := oneInstruction_of_not_aborts syscall h ha
  have hs' : Settled m' := hs.of_below hb
  refine ⟨m'.trap badVAddr, ⟨by simp [h], ho⟩, ?_⟩
  have hm : m'.Below (m'.trap badVAddr) := by
    rw [hs'.trap]
    exact ⟨rfl, rfl, .refl _⟩
  have he' := restartable_execute.again he hm
  have hu : userException (m'.trap badVAddr) = some which :=
    userException_eq_some.2 ⟨(userException_eq_some.1 h).1, _, _, he'⟩
  obtain ⟨badVAddr', m'', he'', -, ho'⟩ := oneInstruction_of_not_aborts syscall hu ha
  cases he'.symm.trans he''
  rw [trap_trap] at ho'
  exact ⟨by simp [hu], ho'⟩

/-! ### The exceptions that are not taken again for ever -/

theorem NotRetaken.of_aborts (h : userException m = some which) (ha : Aborts isMain which) :
    NotRetaken isMain syscall m where
  resumed := .inl (oneInstruction_of_aborts h ha)
  never hm hr := by
    rcases hm.cases_head with rfl | ⟨_, hm, -⟩
    · exact not_retakes_of_aborts h ha hr
    · exact not_retakes_of_aborts h ha hm

/-- The state after an exception that does not end the simulation, up to bits of the page table. -/
theorem userException_of_retakes (h : Retakes isMain syscall m m') :
    userException m' = userException (m.delayedLoad 0 0) := by
  obtain ⟨hu, hm⟩ := h
  obtain ⟨which, hu⟩ := Option.isSome_iff_exists.1 hu
  have ha : ¬Aborts isMain which := fun ha => not_retakes_of_aborts hu ha ⟨by simp [hu], hm⟩
  obtain ⟨badVAddr, m₁, -, hb, ho⟩ := oneInstruction_of_not_aborts syscall hu ha
  cases ho.symm.trans hm
  exact userException_congr (below_trap hb badVAddr)

theorem settled_of_retakes (h : Retakes isMain syscall m m') : Settled m' := by
  obtain ⟨hu, hm⟩ := h
  obtain ⟨which, hu⟩ := Option.isSome_iff_exists.1 hu
  have ha : ¬Aborts isMain which := fun ha => not_retakes_of_aborts hu ha ⟨by simp [hu], hm⟩
  obtain ⟨badVAddr, m₁, -, -, ho⟩ := oneInstruction_of_not_aborts syscall hu ha
  cases ho.symm.trans hm
  exact settled_trap m₁ badVAddr

/-- If the instruction still raises an exception after its delayed load, and neither of the two
exceptions ends the simulation, then it is executed for ever. -/
theorem not_notRetaken (h : userException m = some which) (ha : ¬Aborts isMain which)
    (h' : userException (m.delayedLoad 0 0) = some which') (ha' : ¬Aborts isMain which') :
    ¬NotRetaken isMain syscall m := by
  intro hn
  obtain ⟨badVAddr, m₁, -, -, ho⟩ := oneInstruction_of_not_aborts syscall h ha
  have hr : Retakes isMain syscall m (m₁.trap badVAddr) := ⟨by simp [h], ho⟩
  obtain ⟨m₂, hr', hr''⟩ := exists_retakes syscall (settled_of_retakes hr)
    ((userException_of_retakes hr).trans h') ha'
  exact hn.never (.head hr (.single hr')) hr''

/-- If the instruction raises no exception after its delayed load, or one that ends the
simulation, then it is executed at most twice. -/
theorem NotRetaken.of_delayedLoad (h : userException m = some which) (ha : ¬Aborts isMain which)
    (h' : ∀ which', userException (m.delayedLoad 0 0) = some which' → Aborts isMain which') :
    NotRetaken isMain syscall m := by
  have stops {m₁ m₂ : Machine} (hr : Retakes isMain syscall m m₁) :
      ¬Retakes isMain syscall m₁ m₂ := fun hr' => by
    obtain ⟨which', hu⟩ := Option.isSome_iff_exists.1 hr'.1
    exact not_retakes_of_aborts hu (h' which' ((userException_of_retakes hr).symm.trans hu)) hr'
  have hself : ¬Retakes isMain syscall m m := fun hr => stops hr hr
  constructor
  · obtain ⟨badVAddr, m₁, -, -, ho⟩ := oneInstruction_of_not_aborts syscall h ha
    refine .inr ⟨_, ho, fun hm => hself ?_⟩
    exact ⟨by simp [h], by rw [ho, hm]⟩
  · intro m' hm hr
    rcases hm.cases_head with rfl | ⟨m₁, hm₁, hm⟩
    · exact hself hr
    · rcases hm.cases_head with rfl | ⟨m₂, hm₂, -⟩
      · exact stops hm₁ hr
      · exact stops hm₁ hm₂

/-- An exception is not taken again for ever if and only if it ends the simulation, or a load was
delayed and the instruction then raises no exception, or one that ends the simulation. -/
theorem notRetaken_iff (isMain : Bool) (syscall : Machine → Except Fault Machine) (m : Machine)
    (which : ExceptionType) (h : userException m = some which) :
    NotRetaken isMain syscall m ↔ Aborts isMain which ∨
      ∀ which', userException (m.delayedLoad 0 0) = some which' → Aborts isMain which' := by
  constructor
  · intro hn
    by_contra hc
    simp only [not_or, not_forall, exists_prop] at hc
    obtain ⟨ha, which', h', ha'⟩ := hc
    exact not_notRetaken h ha h' ha' hn
  · intro hc
    by_cases ha : Aborts isMain which
    · exact .of_aborts h ha
    · exact .of_delayedLoad h ha (hc.resolve_left ha)

/-- The first instruction of a program, `lw $1, 1($0)`, when the program starts. -/
def misalignedLoad : Machine where
  registers := ⟨fun r => if r = 29 then 2032 else 0, 0, 0, 0, 4, 0, 0, 0, 0⟩
  pageTable := (List.range 8).map fun i => ⟨i, i, true, false, false, false⟩
  mainMemory := MainMemory.store (fun _ => 0) 0 (bytes 0x8c010001 .four)

/-- A process with another name than `"main"` executes this instruction for ever. -/
theorem misalignedLoad_retaken :
    ¬NotRetaken false (fun m => .ok (advancePC m)) misalignedLoad := by
  have h : userException misalignedLoad = some .addressErrorException := by decide
  have h' : userException (misalignedLoad.delayedLoad 0 0) = some .addressErrorException := by
    decide
  exact not_notRetaken h (by decide) h' (by decide)

theorem notRetaken_misalignedLoad :
    NotRetaken true (fun m => .ok (advancePC m)) misalignedLoad :=
  (notRetaken_iff true _ _ .addressErrorException (by decide)).2 (.inl (by decide))

end Nachos.UserProg
