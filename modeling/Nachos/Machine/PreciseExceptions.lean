import Nachos.Machine.Multiplication
import Nachos.Machine.RegisterWrites

/-!
# Precise exceptions

When `ExceptionHandler` is entered, the instruction that has raised the exception has changed
nothing: only the load that was delayed before it is completed. So the instruction can be executed
again. `ADD`, `ADDI` and `SUB` raise an exception exactly if the signed result is not one of a
word.

## Main definitions

* `Machine.Raises`: an exception with the state in which the handler is entered.
* `Machine.Precise`: the handler finds the state before the instruction.
* `Instruction.exactResult`: the sum or difference of signed operands.

## Main results

* `Machine.precise_of_raises`: every exception is precise.
* `Machine.overflow_iff`: the results at which `OverflowException` is raised.
-/

namespace Nachos

open Foundations

namespace Machine

/-! ### The state of which the handler knows -/

/-- `OneInstruction` raises an exception and enters `ExceptionHandler` in the state `s`. -/
def Raises (m : Machine) (which : ExceptionType) (s : Machine) : Prop :=
  ∃ badVAddr m', execute.outcome m = (.error (.exception which badVAddr), m') ∧
    s = m'.trap badVAddr

/-- The state `s` is the state before the instruction with the delayed load completed, apart from
`BadVAddrReg` and the bits of the page table. -/
structure Precise (m s : Machine) : Prop where
  pc : s.registers.pc = m.registers.pc
  nextPC : s.registers.nextPC = m.registers.nextPC
  hi : s.registers.hi = m.registers.hi
  lo : s.registers.lo = m.registers.lo
  mainMemory : s.mainMemory = m.mainMemory
  gpr : ∀ r, s.registers.gpr r = if r = 0 then 0 else if r = m.registers.loadReg then
    m.registers.loadValue else m.registers.gpr r
  loadReg : s.registers.loadReg = 0

variable {m m' s : Machine} {which : ExceptionType} {instr : Instruction}

theorem Below.precise (h : Below m m') (badVAddr : Word) : Precise m (m'.trap badVAddr) := by
  have htrap : (m'.trap badVAddr).registers =
      ({ m with registers := { m.registers with badVAddr } }.delayedLoad 0 0).registers := by
    rw [trap, h.registers]
    rfl
  refine ⟨?_, ?_, ?_, ?_, h.mainMemory, fun r => ?_, rfl⟩
  any_goals
    rw [htrap]
    rfl
  rw [htrap, gpr_delayedLoad]

/-- An instruction that raises an exception has written nothing: the handler finds the state
before the instruction, with the delayed load completed. -/
theorem precise_of_raises (handler : ExceptionType → Machine → Except Fault Machine)
    (m s : Machine) (which : ExceptionType) (h : m.Raises which s) :
    oneInstruction handler m = handler which s ∧ Precise m s := by
  obtain ⟨badVAddr, m', he, rfl⟩ := h
  refine ⟨?_, Below.precise (restartable_execute.above he) badVAddr⟩
  rw [oneInstruction, he]
  rfl

/-- A machine with one instruction, the operands `a` and `b` in the registers 1 and 2, and a
delayed load of the word 5 into the register 3. -/
def ofOperands (word a b : Word) : Machine :=
  let m := ((ofWord word).setGpr 1 a).setGpr 2 b
  { m with registers := { m.registers with loadReg := 3, loadValue := 5 } }

/-- `SYSCALL` with the operands 7 and 9: the handler finds the delayed load completed. -/
theorem precise_of_syscall :
    ∃ s, (ofOperands 0x0000000c 7 9).Raises .syscallException s ∧
      Precise (ofOperands 0x0000000c 7 9) s ∧
      s.registers.gpr 1 = 7 ∧ s.registers.gpr 2 = 9 ∧ s.registers.gpr 3 = 5 := by
  have hraises : (ofOperands 0x0000000c 7 9).Raises .syscallException
      ((execute.outcome (ofOperands 0x0000000c 7 9)).2.trap 0) := ⟨0, _, rfl, rfl⟩
  have hprecise := (precise_of_raises (fun _ => .ok) _ _ _ hraises).2
  exact ⟨_, hraises, hprecise, hprecise.gpr 1, hprecise.gpr 2, hprecise.gpr 3⟩

end Machine

/-! ### Overflows -/

/-- The register for the sum or difference of the signed operands, and its value. -/
def Instruction.exactResult (instr : Instruction) (gpr : Fin 32 → Word) : Option (Fin 32 × ℤ) :=
  match instr.opCode with
  | .add => some (instr.rd, (gpr instr.rs).toInt + (gpr instr.rt).toInt)
  | .addi => some (instr.rt, (gpr instr.rs).toInt + instr.extra.toInt)
  | .sub => some (instr.rd, (gpr instr.rs).toInt - (gpr instr.rt).toInt)
  | _ => none

/-- The range of a signed word. -/
def InRange (x : ℤ) : Prop := -2 ^ 31 ≤ x ∧ x < 2 ^ 31

instance : DecidablePred InRange := fun x => inferInstanceAs (Decidable (-2 ^ 31 ≤ x ∧ x < 2 ^ 31))

namespace Machine

variable {m m₁ : Machine} {instr : Instruction}

/-- The signs of the operands and of the sum, as `ADD` and `ADDI` compare them. -/
theorem add_overflow_iff (a b : Word) :
    ¬IsNegative (a ^^^ b) ∧ IsNegative (a ^^^ (a + b)) ↔ ¬InRange (a.toInt + b.toInt) := by
  have hoverflow : a.saddOverflow b = true ↔ ¬InRange (a.toInt + b.toInt) := by
    simp [BitVec.saddOverflow, InRange]
    omega
  rw [← hoverflow, BitVec.saddOverflow_eq, isNegative_iff, isNegative_iff, BitVec.msb_xor,
    BitVec.msb_xor]
  cases a.msb <;> cases b.msb <;> cases (a + b).msb <;> decide

/-- The signs of the operands and of the difference, as `SUB` compares them. -/
theorem sub_overflow_iff (a b : Word) :
    IsNegative (a ^^^ b) ∧ IsNegative (a ^^^ (a - b)) ↔ ¬InRange (a.toInt - b.toInt) := by
  have hoverflow : a.ssubOverflow b = true ↔ ¬InRange (a.toInt - b.toInt) := by
    simp [BitVec.ssubOverflow, InRange]
    omega
  rw [← hoverflow, BitVec.ssubOverflow_eq, isNegative_iff, isNegative_iff, BitVec.msb_xor,
    BitVec.msb_xor]
  cases a.msb <;> cases b.msb <;> cases (a - b).msb <;> decide

theorem toInt_add_of_inRange {a b : Word} (h : InRange (a.toInt + b.toInt)) :
    (a + b).toInt = a.toInt + b.toInt := by
  rw [BitVec.toInt_add]
  exact Int.bmod_eq_of_le (by have := h.1; omega) (by have := h.2; omega)

theorem toInt_sub_of_inRange {a b : Word} (h : InRange (a.toInt - b.toInt)) :
    (a - b).toInt = a.toInt - b.toInt := by
  rw [BitVec.toInt_sub]
  exact Int.bmod_eq_of_le (by have := h.1; omega) (by have := h.2; omega)

theorem outcome_checked {r : Fin 32} {value pcAfter : Word} {overflow c : Prop} [Decidable overflow]
    [Decidable c] (h : overflow ↔ ¬c) : (checked r value overflow pcAfter).outcome m =
      if c then (.ok (.proceed pcAfter), m.setGpr r value)
      else (.error (.exception .overflowException 0), m) := by
  rw [checked, raiseIf]
  by_cases hc : c
  · rw [if_neg fun ho => h.1 ho hc, if_pos hc]
    rfl
  · rw [if_pos (h.2 hc), if_neg hc]
    rfl

/-- `ADD`, `ADDI` and `SUB`. -/
theorem outcome_perform_of_exactResult {dest : Fin 32} {v : ℤ} (nextPC : Word)
    (h : instr.exactResult m.registers.gpr = some (dest, v)) :
    ∃ value, (InRange v → value.toInt = v) ∧ (perform instr nextPC).outcome m =
      if InRange v then (.ok (.proceed (nextPC + 4)), m.setGpr dest value)
      else (.error (.exception .overflowException 0), m) := by
  obtain ⟨opCode, rs, rt, rd, extra⟩ := instr
  cases opCode with
  | add =>
    cases h
    refine ⟨_, toInt_add_of_inRange, ?_⟩
    simp only [perform]
    rw [outcome_reg, outcome_reg]
    exact outcome_checked (add_overflow_iff _ _)
  | addi =>
    cases h
    refine ⟨_, toInt_add_of_inRange, ?_⟩
    simp only [perform]
    rw [outcome_reg]
    refine outcome_checked ?_
    -- the sign of the sum is compared with the one of the other operand
    rw [BitVec.xor_comm (m.registers.gpr _), BitVec.add_comm (m.registers.gpr _),
      Int.add_comm (m.registers.gpr _).toInt]
    exact add_overflow_iff _ _
  | sub =>
    cases h
    refine ⟨_, toInt_sub_of_inRange, ?_⟩
    simp only [perform]
    rw [outcome_reg, outcome_reg]
    exact outcome_checked (sub_overflow_iff _ _)
  | _ => cases h

/-- `ADD`, `ADDI` and `SUB` raise `OverflowException` if and only if the exact result is not one of
a word. The handler then finds the program counters as before, and the registers too, apart from the
load that was delayed; otherwise the destination contains the exact result, if no load into it was
delayed. -/
theorem overflow_iff (m : Machine) (instr : Instruction) (dest : Fin 32) (v : ℤ)
    (hfetch : m.fetched = some instr)
    (h : instr.exactResult m.registers.gpr = some (dest, v)) :
    ((∃ s, m.Raises .overflowException s) ↔ ¬InRange v) ∧
      (∀ s, m.Raises .overflowException s → Precise m s) ∧
      (InRange v → ∃ m', execute.outcome m = (.ok (), m') ∧
        (dest ≠ 0 → m.registers.loadReg ≠ dest → (m'.registers.gpr dest).toInt = v)) := by
  obtain ⟨m₁, hregs, hexec⟩ := exists_outcome_execute hfetch
  obtain ⟨value, hvalue, hperform⟩ :=
    outcome_perform_of_exactResult m₁.registers.nextPC (m := m₁) (hregs ▸ h)
  by_cases hv : InRange v
  · rw [if_pos hv] at hperform
    rw [Computation.outcome_bind_of_ok _ hperform] at hexec
    refine ⟨iff_of_false ?_ (not_not_intro hv), ?_, fun _ => ⟨_, hexec, fun h₀ hload => ?_⟩⟩
    · rintro ⟨s, badVAddr, m', he, -⟩
      cases hexec.symm.trans he
    · rintro s ⟨badVAddr, m', he, -⟩
      cases hexec.symm.trans he
    · have hgpr := gpr_delayedLoad (m₁.setGpr dest value) 0 0 (r := dest)
      have hload₁ : dest ≠ (m₁.setGpr dest value).registers.loadReg := by
        change dest ≠ m₁.registers.loadReg
        rw [hregs]
        exact Ne.symm hload
      rw [if_neg h₀, if_neg hload₁] at hgpr
      refine Eq.trans (congrArg BitVec.toInt (hgpr.trans ?_)) (hvalue hv)
      exact Function.update_self ..
  · rw [if_neg hv] at hperform
    rw [Computation.outcome_bind_of_error _ hperform] at hexec
    exact ⟨iff_of_true ⟨_, _, _, hexec, rfl⟩ hv,
      fun s hs => (precise_of_raises (fun _ => .ok) m s _ hs).2, fun h => absurd h hv⟩

/-- `ADD r4, r1, r2` of the largest word and 1. -/
theorem overflow_iff_of_largest :
    ∃ s, (ofOperands 0x00222020 0x7fffffff 1).Raises .overflowException s := by
  refine (overflow_iff (ofOperands 0x00222020 0x7fffffff 1) (decode 0x00222020) 4 (2 ^ 31) rfl
    (by decide)).1.2 ?_
  decide

/-- `ADD r3, r1, r2` with a delayed load into the register 3: the handler finds another destination
than the instruction, and a sum that is a word is lost. -/
theorem add_delayedLoad :
    (ofOperands 0x00221820 0x7fffffff 1).fetched = some (decode 0x00221820) ∧
    (∃ s, (ofOperands 0x00221820 0x7fffffff 1).Raises .overflowException s ∧
      s.registers.gpr 3 ≠ (ofOperands 0x00221820 0x7fffffff 1).registers.gpr 3) ∧
    ∃ m', execute.outcome (ofOperands 0x00221820 1 2) = (.ok (), m') ∧
      (m'.registers.gpr 3).toInt ≠ 1 + 2 :=
  ⟨rfl, ⟨_, ⟨0, _, rfl, rfl⟩, by decide⟩, _, rfl, by decide⟩

end Machine

end Nachos
