import Mathlib.Logic.Relation
import Nachos.Machine.RegisterWrites

/-!
# Delayed loads and the next instruction

A load is completed by `DelayedLoad` at the end of the next instruction, after that instruction has
written its own register. If both registers are the same, the loaded word replaces the result of
the instruction that comes later.

## Main definitions

* `Machine.Leaves`: what can happen without a write of a register.

## Main results

* `Machine.result_lasts_iff`: the result lasts if and only if it is the loaded word.
-/

namespace Nachos.Machine

open Foundations

/-- A step that does not write the register `r`: an instruction with another destination, or
anything else that leaves the register and delays no load into it. -/
inductive Leaves (r : Fin 32) : Machine → Machine → Prop
  | instruction {m m' : Machine} (instr : Instruction) (hfetch : m.fetched = some instr)
      (hexec : execute.outcome m = (.ok (), m'))
      (hwrite : ∀ value, instr.written m.registers ≠ some (r, value))
      (hload : instr.loadTarget ≠ r) : Leaves r m m'
  | kernel {m m' : Machine} (hgpr : m'.registers.gpr r = m.registers.gpr r)
      (hload : m'.registers.loadReg ≠ r) : Leaves r m m'

variable {m m' m₁ m₂ : Machine} {r : Fin 32} {value : Word}

theorem writeBack_of_ne {write : Option (Fin 32 × Word)} (h : ∀ value, write ≠ some (r, value))
    (gpr : Fin 32 → Word) : writeBack write gpr r = gpr r := by
  rcases write with _ | ⟨r', value⟩
  · rfl
  · have hne : r ≠ r' := fun he => h value (he ▸ rfl)
    exact Function.update_of_ne hne _ _

/-- A register for which no load is pending stays the same, and no load becomes pending. -/
theorem Leaves.gpr_eq (h : Leaves r m m') (hr : r ≠ 0) (hload : m.registers.loadReg ≠ r) :
    m'.registers.gpr r = m.registers.gpr r ∧ m'.registers.loadReg ≠ r := by
  cases h with
  | instruction instr hfetch hexec hwrite htarget =>
    obtain ⟨hnext, hgpr⟩ := gpr_of_execute hfetch hexec
    rw [hgpr, if_neg hr, if_neg (Ne.symm hload), writeBack_of_ne hwrite, hnext]
    exact ⟨rfl, htarget⟩
  | kernel hgpr hload' => exact ⟨hgpr, hload'⟩

theorem gpr_eq_of_leaves (h : Relation.ReflTransGen (Leaves r) m m') (hr : r ≠ 0)
    (hload : m.registers.loadReg ≠ r) :
    m'.registers.gpr r = m.registers.gpr r ∧ m'.registers.loadReg ≠ r := by
  induction h with
  | refl => exact ⟨rfl, hload⟩
  | tail _ hstep ih =>
    obtain ⟨hgpr, hload'⟩ := hstep.gpr_eq hr ih.2
    exact ⟨hgpr.trans ih.1, hload'⟩

/-- After a load into a register and an instruction that writes the same register, the register
keeps the result of that instruction until it is written again if and only if the result is the
word that the load has delivered. -/
theorem result_lasts_iff (m m₁ m₂ : Machine) (load instr : Instruction) (r : Fin 32) (value : Word)
    (hfetch : m.fetched = some load) (hload : load.opCode ∈ loadOpCodes) (hrt : load.rt = r)
    (hr : r ≠ 0) (hexec : execute.outcome m = (.ok (), m₁))
    (hfetch₁ : m₁.fetched = some instr) (hinstr : instr.opCode ∉ loadOpCodes)
    (_hwrite : instr.written m₁.registers = some (r, value))
    (hexec₁ : execute.outcome m₁ = (.ok (), m₂)) :
    (∀ m', Relation.ReflTransGen (Leaves r) m₂ m' → m'.registers.gpr r = value) ↔
      m₁.registers.loadValue = value := by
  have hpending : m₁.registers.loadReg = r := by
    rw [(gpr_of_execute hfetch hexec).1, Instruction.loadTarget, if_pos hload, hrt]
  obtain ⟨hnext, hgpr⟩ := gpr_of_execute hfetch₁ hexec₁
  have hloaded : m₂.registers.gpr r = m₁.registers.loadValue := by
    rw [hgpr, if_neg hr, if_pos hpending.symm]
  have hnone : m₂.registers.loadReg ≠ r := by
    rw [hnext, Instruction.loadTarget, if_neg hinstr]
    exact Ne.symm hr
  constructor
  · intro h
    exact hloaded.symm.trans (h m₂ .refl)
  · intro h m' hm'
    rw [(gpr_eq_of_leaves hm' hr hnone).1, hloaded, h]

/-- A machine with two instructions and, behind them, the word 7. -/
def ofTwoWords (word word' : Word) : Machine where
  registers := (ofWord word).registers
  pageTable := (ofWord word).pageTable
  mainMemory := MainMemory.store (fun _ => 0) 0
    (bytes word .four ++ bytes word' .four ++ bytes 7 .four)

/-- `LW r1, 8(r0)` and `ADDIU r1, r0, 7`. -/
theorem result_lasts_of_seven :
    ∃ m₁ m₂, execute.outcome (ofTwoWords 0x8c010008 0x24010007) = (.ok (), m₁) ∧
      execute.outcome m₁ = (.ok (), m₂) ∧
      ∀ m', Relation.ReflTransGen (Leaves 1) m₂ m' → m'.registers.gpr 1 = 7 := by
  refine ⟨_, _, rfl, rfl, ?_⟩
  refine (result_lasts_iff (ofTwoWords 0x8c010008 0x24010007)
    (execute.outcome (ofTwoWords 0x8c010008 0x24010007)).2 _ (decode 0x8c010008) (decode 0x24010007)
    1 7 rfl (by decide) (by decide) (by decide) rfl rfl (by decide) (by decide) rfl).2 ?_
  decide

/-- `LW r1, 0(r0)` and `ADDIU r1, r0, 7`: the word of the first instruction remains. -/
theorem delayed_load_undoes_addiu :
    ∃ m₁ m₂, (ofTwoWords 0x8c010000 0x24010007).fetched = some (decode 0x8c010000) ∧
      execute.outcome (ofTwoWords 0x8c010000 0x24010007) = (.ok (), m₁) ∧
      m₁.fetched = some (decode 0x24010007) ∧
      (decode 0x24010007).written m₁.registers = some (1, 7) ∧
      execute.outcome m₁ = (.ok (), m₂) ∧ m₂.registers.gpr 1 = 0x8c010000 :=
  ⟨_, _, rfl, rfl, rfl, by decide, rfl, by decide⟩

end Nachos.Machine
