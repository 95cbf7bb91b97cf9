import Nachos.Machine.InstructionFaults

/-!
# The registers that instructions write

What the `switch` of `OneInstruction` does to the registers, for all instructions at once: it
writes at most one general purpose register, and the load that it delays is one into `rt`. The load
that the instruction before has delayed is completed after that.

## Main definitions

* `Instruction.written`: the register that is written, and the value.
* `Instruction.loadTarget`: the register that is loaded, 0 if there is none.

## Main results

* `Machine.switched_perform`: the registers after the `switch`.
* `Machine.gpr_of_execute`: the registers after the instruction.
-/

namespace Nachos

open Foundations

/-- The instructions that delay a load. -/
def loadOpCodes : List OpCode := [.lb, .lbu, .lh, .lhu, .lw, .lwl, .lwr]

namespace Instruction

/-- The register that is loaded; register 0 stands for none. -/
def loadTarget (instr : Instruction) : Fin 32 := if instr.opCode ∈ loadOpCodes then instr.rt else 0

/-- The register that the `switch` writes, and the value. -/
def written (instr : Instruction) (r : Registers) : Option (Fin 32 × Word) :=
  let a := r.gpr instr.rs
  let b := r.gpr instr.rt
  let extra := instr.extra
  match instr.opCode with
  | .add | .addu => some (instr.rd, a + b)
  | .addi | .addiu => some (instr.rt, a + extra)
  | .sub | .subu => some (instr.rd, a - b)
  | .and => some (instr.rd, a &&& b)
  | .andi => some (instr.rt, a &&& (extra &&& 0xffff))
  | .or => some (instr.rd, a ||| a)
  | .ori => some (instr.rt, a ||| (extra &&& 0xffff))
  | .xor => some (instr.rd, a ^^^ b)
  | .xori => some (instr.rt, a ^^^ (extra &&& 0xffff))
  | .nor => some (instr.rd, ~~~(a ||| b))
  | .lui => some (instr.rt, extra <<< 16)
  | .slt => some (instr.rd, if a.slt b then 1 else 0)
  | .slti => some (instr.rt, if a.slt extra then 1 else 0)
  | .sltu => some (instr.rd, if a < b then 1 else 0)
  | .sltiu => some (instr.rt, if a < extra then 1 else 0)
  | .sll => some (instr.rd, b <<< extra)
  | .sllv => some (instr.rd, b <<< (a &&& 0x1f))
  | .sra | .srl => some (instr.rd, b.sshiftRight' extra)
  | .srav | .srlv => some (instr.rd, b.sshiftRight' (a &&& 0x1f))
  | .mfhi => some (instr.rd, r.hi)
  | .mflo => some (instr.rd, r.lo)
  | .jalr => some (instr.rd, r.nextPC + 4)
  | .bgezal | .bltzal | .jal => some (31, r.nextPC + 4)
  | _ => none

end Instruction

namespace Machine

/-- The registers when at most one of them is written. -/
def writeBack (write : Option (Fin 32 × Word)) (gpr : Fin 32 → Word) : Fin 32 → Word :=
  match write with
  | none => gpr
  | some (r, value) => Function.update gpr r value

/-- What the `switch` has done to the registers, apart from `HiReg` and `LoReg`. -/
structure Switched (m : Machine) (write : Option (Fin 32 × Word)) (nextLoadReg : Fin 32)
    (effect : Effect) (m' : Machine) : Prop where
  gpr : m'.registers.gpr = writeBack write m.registers.gpr
  loadReg : m'.registers.loadReg = m.registers.loadReg
  loadValue : m'.registers.loadValue = m.registers.loadValue
  nextLoadReg : effect.nextLoadReg = nextLoadReg

variable {instr : Instruction} {m m' m₁ : Machine} {nextPC pcAfter value : Word} {r : Fin 32}
  {effect : Effect}

/-! ### Accesses to memory -/

/-- The registers are the same. -/
def SameRegisters (m m' : Machine) : Prop := m'.registers = m.registers

instance : Std.Refl SameRegisters := ⟨fun _ => rfl⟩

instance : IsTrans Machine SameRegisters :=
  ⟨fun _ _ _ (h : _ = _) (h' : _ = _) => h'.trans h⟩

section SameRegisters

variable {size : AccessSize}

instance {virtAddr : Word} {writing : Bool} :
    Respects SameRegisters (access virtAddr size writing) where
  related m := by
    rcases h : translate m.pageTable virtAddr size writing with which | ⟨physAddr, pt⟩
    · rw [outcome_access_of_error h]
      rfl
    · rw [outcome_access_of_ok h]
      rfl

instance (addr : Word) : Respects SameRegisters (readMem addr size) := by
  unfold readMem
  infer_instance

instance (addr value : Word) : Respects SameRegisters (writeMem addr size value) := by
  have hwrite (physAddr : ℕ) : Respects SameRegisters (Computation.write fun m =>
      { m with mainMemory := m.mainMemory.store physAddr (bytes value size) } : Cpu Unit) :=
    .write fun m => rfl
  unfold writeMem
  infer_instance

instance : Respects SameRegisters (reg r) := inferInstanceAs (Respects _ (Computation.read _))

instance {c : Prop} [Decidable c] (which : ExceptionType) (badVAddr : Word) :
    Respects SameRegisters (raiseIf c which badVAddr) := by
  unfold raiseIf
  infer_instance

instance {c : Prop} [Decidable c] (f : Fault) : Respects SameRegisters (require c f) := by
  unfold require
  infer_instance

instance {check : Word → Cpu Unit} [∀ tmp, Respects SameRegisters (check tmp)]
    {convert : Word → Word} : Respects SameRegisters (load instr pcAfter check size convert) := by
  unfold load
  infer_instance

instance {join : Word → Word → Word → Word} :
    Respects SameRegisters (loadUnaligned instr pcAfter join) := by
  unfold loadUnaligned
  infer_instance

instance : Respects SameRegisters (store instr pcAfter size) := by
  unfold store
  infer_instance

instance {join : Word → Word → Word → Word} :
    Respects SameRegisters (storeUnaligned instr pcAfter join) := by
  unfold storeUnaligned
  infer_instance

end SameRegisters

/-! ### The load that is delayed -/

section Delays

variable {size : AccessSize}

/-- The load that an instruction delays is one into the register `r`. -/
def Delays (r : Fin 32) (effect : Effect) : Prop := effect.nextLoadReg = r

instance {value : Word} : Yields (Delays r) (pure ⟨pcAfter, r, value⟩ : Cpu Effect) := .pure rfl

instance : Yields (Delays 0) (pure (.proceed pcAfter) : Cpu Effect) := .pure rfl

instance {check : Word → Cpu Unit} {convert : Word → Word} :
    Yields (Delays instr.rt) (load instr pcAfter check size convert) := by
  unfold load
  infer_instance

instance {join : Word → Word → Word → Word} :
    Yields (Delays instr.rt) (loadUnaligned instr pcAfter join) := by
  unfold loadUnaligned
  infer_instance

instance : Yields (Delays 0) (store instr pcAfter size) := by
  unfold store
  infer_instance

instance {join : Word → Word → Word → Word} :
    Yields (Delays 0) (storeUnaligned instr pcAfter join) := by
  unfold storeUnaligned
  infer_instance

/-- An access to memory writes no register. -/
theorem switched_of_sameRegisters {x : Cpu Effect} [hsame : Respects SameRegisters x]
    [hdelays : Yields (Delays r) x] (h : x.outcome m = (.ok effect, m')) :
    Switched m none r effect m' := by
  have hregs := hsame.related m
  rw [h] at hregs
  have hregs : m'.registers = m.registers := hregs
  exact ⟨by rw [hregs]; rfl, by rw [hregs], by rw [hregs], hdelays.holds h⟩

end Delays

/-! ### The `switch` -/

theorem switched_checked {overflow : Prop} [Decidable overflow]
    (h : (checked r value overflow pcAfter).outcome m = (.ok effect, m')) :
    Switched m (some (r, value)) 0 effect m' := by
  rw [checked, raiseIf] at h
  split_ifs at h with hover
  · cases h
  · cases h
    exact ⟨rfl, rfl, rfl, rfl⟩

theorem switched_perform (h : (perform instr m.registers.nextPC).outcome m = (.ok effect, m')) :
    Switched m (instr.written m.registers) instr.loadTarget effect m' := by
  unfold perform at h
  unfold Instruction.written Instruction.loadTarget
  cases ho : instr.opCode with
  | add | addi | sub =>
    rw [ho] at h
    simp only [outcome_reg] at h
    exact switched_checked h
  | lb | lbu | lh | lhu | lw | lwl | lwr =>
    rw [ho] at h
    dsimp only at h
    rw [if_pos (by decide)]
    exact switched_of_sameRegisters h
  | sb | sh | sw | swl | swr =>
    rw [ho] at h
    dsimp only at h
    rw [if_neg (by decide)]
    exact switched_of_sameRegisters h
  | div | divu =>
    rw [ho] at h
    dsimp only at h
    rw [outcome_reg, outcome_reg] at h
    simp only [divide, divideUnsigned, require] at h
    split_ifs at h <;> cases h <;> exact ⟨rfl, rfl, rfl, rfl⟩
  | syscall | res | unimp | rfe =>
    rw [ho] at h
    cases h
  | _ =>
    rw [ho] at h
    cases h
    exact ⟨rfl, rfl, rfl, rfl⟩

/-- What the delayed load leaves of the registers. -/
theorem gpr_delayedLoad (m : Machine) (nextReg : Fin 32) (nextValue : Word) :
    (m.delayedLoad nextReg nextValue).registers.gpr r =
      if r = 0 then 0 else if r = m.registers.loadReg then m.registers.loadValue
      else m.registers.gpr r := by
  simp only [delayedLoad, setGpr, Function.update_apply]

theorem registers_of_readMem {addr : Word} {size : AccessSize} {a : Except Trap Word}
    (h : (readMem addr size).outcome m = (a, m₁)) : m₁.registers = m.registers := by
  have hsame : SameRegisters m ((readMem addr size).outcome m).2 := Respects.related m
  rwa [h] at hsame

/-- `OneInstruction` after the fetch. -/
theorem exists_outcome_execute (hfetch : m.fetched = some instr) :
    ∃ m₁, m₁.registers = m.registers ∧ execute.outcome m = (do
      let effect ← perform instr m₁.registers.nextPC
      Computation.write fun m => m.finish effect : Cpu Unit).outcome m₁ := by
  rcases hread : (readMem m.registers.pc .four).outcome m with ⟨e | raw, m₁⟩
  · rw [fetched_of_error hread] at hfetch
    cases hfetch
  · rw [fetched_of_ok hread] at hfetch
    cases hfetch
    exact ⟨m₁, registers_of_readMem hread, outcome_execute_of_ok hread⟩

/-- The general purpose registers after an instruction that has been completed: the delayed load is
completed after the register has been written. -/
theorem gpr_of_execute (hfetch : m.fetched = some instr) (h : execute.outcome m = (.ok (), m')) :
    m'.registers.loadReg = instr.loadTarget ∧ ∀ r, m'.registers.gpr r =
      if r = 0 then 0 else if r = m.registers.loadReg then m.registers.loadValue
      else writeBack (instr.written m.registers) m.registers.gpr r := by
  obtain ⟨m₁, hregs, hexec⟩ := exists_outcome_execute hfetch
  rw [hexec] at h
  obtain ⟨effect, m₂, hperform, h⟩ := Computation.exists_of_outcome_bind h
  cases h
  have hswitched := switched_perform hperform
  rw [hregs] at hswitched
  refine ⟨hswitched.nextLoadReg, fun r => ?_⟩
  have hfinish : (m₂.finish effect).registers.gpr r =
      (m₂.delayedLoad effect.nextLoadReg effect.nextLoadValue).registers.gpr r := rfl
  rw [hfinish, gpr_delayedLoad, hswitched.gpr, hswitched.loadReg, hswitched.loadValue, hregs]

end Machine

end Nachos
