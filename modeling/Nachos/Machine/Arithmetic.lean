import Mathlib.Tactic.IntervalCases
import Nachos.Machine.InstructionFaults

/-!
# Arithmetic on registers

The instructions that compute a register from two registers, or from a register and an immediate
operand, and never raise an exception. Their meaning is the one of the MIPS architecture, in terms
of the fields of the instruction word. `OneInstruction` computes it except in two cases: `OR` joins
the first operand with itself, and `SRL` and `SRLV` shift an `int`, which keeps its sign.

## Main definitions

* `mipsResult`: the destination and the result of an instruction in MIPS.
* `Machine.FollowsMips`: the state after such an instruction.
* `ComputesMips`: the operands on which the simulator computes the result.

## Main results

* `Machine.oneInstruction_followsMips_iff`: the instructions that are executed as in MIPS.
-/

namespace Nachos

open Foundations

/-! ### The architecture -/

/-- The instructions with an immediate operand. -/
def immediateOpCodes : List OpCode := [.addiu, .andi, .ori, .xori, .lui, .slti, .sltiu]

/-- The instructions that shift by a constant. -/
def shiftOpCodes : List OpCode := [.sll, .srl, .sra]

/-- The destination and the result of the instruction `raw` when the registers contain `gpr`. -/
def mipsResult (opCode : OpCode) (raw : Word) (gpr : Fin 32 → Word) : Option (Fin 32 × Word) :=
  let a := gpr (raw.extractLsb' 21 5).toFin
  let rt := (raw.extractLsb' 16 5).toFin
  let b := gpr rt
  let rd := (raw.extractLsb' 11 5).toFin
  let shamt := (raw.extractLsb' 6 5).toNat
  let immediate := raw.extractLsb' 0 16
  match opCode with
  | .addu => some (rd, a + b)
  | .subu => some (rd, a - b)
  | .and => some (rd, a &&& b)
  | .or => some (rd, a ||| b)
  | .xor => some (rd, a ^^^ b)
  | .nor => some (rd, ~~~(a ||| b))
  | .slt => some (rd, if a.toInt < b.toInt then 1 else 0)
  | .sltu => some (rd, if a.toNat < b.toNat then 1 else 0)
  | .sll => some (rd, b <<< shamt)
  | .srl => some (rd, b >>> shamt)
  | .sra => some (rd, b.sshiftRight shamt)
  | .sllv => some (rd, b <<< (a.toNat % 32))
  | .srlv => some (rd, b >>> (a.toNat % 32))
  | .srav => some (rd, b.sshiftRight (a.toNat % 32))
  | .addiu => some (rt, a + immediate.signExtend 32)
  | .andi => some (rt, a &&& immediate.zeroExtend 32)
  | .ori => some (rt, a ||| immediate.zeroExtend 32)
  | .xori => some (rt, a ^^^ immediate.zeroExtend 32)
  | .lui => some (rt, immediate ++ 0#16)
  | .slti => some (rt, if a.toInt < (immediate.signExtend 32).toInt then 1 else 0)
  | .sltiu => some (rt, if a.toNat < (immediate.signExtend 32).toNat then 1 else 0)
  | _ => none

/-- The operands on which the result of the simulator is the one of MIPS. -/
def ComputesMips (opCode : OpCode) (raw : Word) (gpr : Fin 32 → Word) : Prop :=
  let a := gpr (raw.extractLsb' 21 5).toFin
  let b := gpr (raw.extractLsb' 16 5).toFin
  match opCode with
  | .or => a ||| b = a
  | .srl => b.msb = false ∨ (raw.extractLsb' 6 5).toNat = 0
  | .srlv => b.msb = false ∨ a.toNat % 32 = 0
  | _ => True

/-! ### Operands -/

section Decode

variable {raw : Word}

/-- The entries of `opTable` for instructions with an immediate operand. -/
theorem format_of_immediate {opCode : OpCode} (h : opCode ∈ immediateOpCodes) {format : Format}
    (hinfo : OpInfo.op opCode format ∈ opTable) : format = .i := by
  simp only [immediateOpCodes, List.mem_cons, List.not_mem_nil, or_false] at h
  rcases h with rfl | rfl | rfl | rfl | rfl | rfl | rfl <;> simpa [opTable] using hinfo

/-- The bit that tells the sign of an immediate operand. -/
theorem signBit_iff (raw : Word) : raw &&& 0xffff &&& 0x8000 ≠ 0 ↔ raw[15] = true := by
  refine ⟨fun h => ?_, fun h h₀ => ?_⟩
  · by_contra hb
    refine h (BitVec.eq_of_getElem_eq fun i hi => ?_)
    interval_cases i <;> simp_all
  · have hbit := congrArg (·[15]) h₀
    simp [h] at hbit

/-- What `Decode` does with an immediate operand. -/
theorem signExtend_immediate (raw : Word) :
    (if raw &&& 0xffff &&& 0x8000 ≠ 0 then raw &&& 0xffff ||| 0xffff0000 else raw &&& 0xffff) =
      (raw.extractLsb' 0 16).signExtend 32 := by
  have hmsb : (raw.extractLsb' 0 16).msb = raw[15] := by simp [BitVec.msb_eq_getLsbD_last]
  simp only [signBit_iff]
  ext i hi
  rw [BitVec.getElem_signExtend, hmsb]
  cases h : raw[15] with
  | false => interval_cases i <;> simp [h]
  | true => interval_cases i <;> simp [h]

theorem zeroExtend_immediate (raw : Word) :
    (raw.extractLsb' 0 16).signExtend 32 &&& 0xffff = (raw.extractLsb' 0 16).zeroExtend 32 := by
  ext i hi
  interval_cases i <;> simp [BitVec.getElem_signExtend]

theorem shiftLeft_immediate (raw : Word) :
    (raw.extractLsb' 0 16).signExtend 32 <<< 16 = raw.extractLsb' 0 16 ++ 0#16 := by
  refine BitVec.eq_of_getLsbD_eq fun i hi => ?_
  rw [BitVec.getLsbD_append]
  interval_cases i <;> simp [BitVec.getElem_signExtend]

/-- An immediate operand is extended with its sign. -/
theorem extra_of_immediate (h : (decode raw).opCode ∈ immediateOpCodes) :
    (decode raw).extra = (raw.extractLsb' 0 16).signExtend 32 := by
  have hspecial : ∀ opCode ∈ specialTable, opCode ∉ immediateOpCodes := by decide
  have hinfo := List.get_mem opTable ((raw.extractLsb' 26 6).toFin.cast rfl)
  rw [← signExtend_immediate]
  simp only [decode] at h ⊢
  generalize opTable.get _ = info at h hinfo ⊢
  cases info with
  | special => exact absurd h (hspecial _ (List.get_mem specialTable _))
  | bcond => rfl
  | op opCode format =>
    obtain rfl := format_of_immediate h hinfo
    rfl

/-- The number of places by which a word is shifted. -/
theorem extra_of_shift (h : (decode raw).opCode ∈ shiftOpCodes) :
    (decode raw).extra.toNat = (raw.extractLsb' 6 5).toNat := by
  have hop : ∀ opCode ∈ shiftOpCodes, ∀ format, OpInfo.op opCode format ∉ opTable := by
    simp [shiftOpCodes, opTable]
  have hinfo := List.get_mem opTable ((raw.extractLsb' 26 6).toFin.cast rfl)
  simp only [decode] at h ⊢
  generalize opTable.get _ = info at h hinfo ⊢
  cases info with
  | special => exact Nat.and_two_pow_sub_one_eq_mod _ 5
  | bcond =>
    dsimp only at h
    split_ifs at h <;> simp [shiftOpCodes] at h
  | op opCode format => exact absurd hinfo (hop opCode h format)

end Decode

/-- A word whose shifts to the right agree is not negative or not shifted. -/
theorem sshiftRight_eq_iff (b : Word) {n : ℕ} (hn : n < 32) :
    b.sshiftRight n = b >>> n ↔ b.msb = false ∨ n = 0 := by
  constructor
  · intro h
    by_contra hc
    simp only [not_or, Bool.not_eq_false] at hc
    have hbit := congrArg BitVec.msb h
    rw [BitVec.msb_sshiftRight, hc.1, BitVec.msb_ushiftRight] at hbit
    simp [Nat.pos_of_ne_zero hc.2] at hbit
  · rintro (h | rfl)
    · exact BitVec.sshiftRight_eq_of_msb_false h
    · simp

namespace Machine

/-! ### The instructions -/

/-- An instruction has written `value` to the register `dest` and changed nothing else but the
program counters. Register 0 cannot be written. -/
structure FollowsMips (r : Registers) (dest : Fin 32) (value : Word) (r' : Registers) : Prop where
  result : dest ≠ 0 → r'.gpr dest = value
  others : ∀ i ≠ dest, i ≠ 0 → r'.gpr i = r.gpr i
  zero : r'.gpr 0 = 0
  hi : r'.hi = r.hi
  lo : r'.lo = r.lo
  pc : r'.pc = r.nextPC
  nextPC : r'.nextPC = r.nextPC + 4

variable {m m₁ : Machine} {raw value v : Word} {dest : Fin 32} {instr : Instruction}

theorem outcome_assign {x : Cpu Word} (pcAfter : Word) (h : x.outcome m = (.ok v, m)) :
    (assign pcAfter dest x).outcome m = (.ok (.proceed pcAfter), m.setGpr dest v) := by
  rw [assign, Computation.outcome_bind_of_ok _ h]
  rfl

theorem outcome_operands (f : Word → Word → Word) : (operands instr f).outcome m =
    (.ok (f (m.registers.gpr instr.rs) (m.registers.gpr instr.rt)), m) := rfl

theorem outcome_immediate (f : Word → Word → Word) : (immediate instr f).outcome m =
    (.ok (f (m.registers.gpr instr.rs) instr.extra), m) := rfl

/-- The `switch` of `OneInstruction` writes a register, and the result is the one of MIPS if and
only if the operands are as `ComputesMips` says. -/
def PerformsMips (raw : Word) (m : Machine) (nextPC : Word) (dest : Fin 32) (value : Word) : Prop :=
  ∃ v, (perform (decode raw) nextPC).outcome m =
      (.ok (.proceed (nextPC + 4)), m.setGpr dest v) ∧
    (v = value ↔ ComputesMips (decode raw).opCode raw m.registers.gpr)

theorem performsMips_of_immediate (nextPC : Word) (hi : (decode raw).opCode ∈ immediateOpCodes)
    (h : mipsResult (decode raw).opCode raw m.registers.gpr = some (dest, value)) :
    PerformsMips raw m nextPC dest value := by
  have himm := extra_of_immediate hi
  unfold PerformsMips perform
  cases ho : (decode raw).opCode with
  | addiu =>
    rw [ho] at h
    cases h
    refine ⟨_, outcome_assign _ (outcome_immediate _), iff_of_true ?_ trivial⟩
    rw [himm]
    rfl
  | andi | ori | xori =>
    rw [ho] at h
    cases h
    refine ⟨_, outcome_assign _ (outcome_immediate _), iff_of_true ?_ trivial⟩
    rw [himm, zeroExtend_immediate]
    rfl
  | lui =>
    rw [ho] at h
    cases h
    refine ⟨_, outcome_assign _ (Computation.outcome_pure _ _), iff_of_true ?_ trivial⟩
    rw [himm]
    exact shiftLeft_immediate raw
  | slti =>
    rw [ho] at h
    cases h
    refine ⟨_, outcome_assign _ (outcome_immediate _), iff_of_true ?_ trivial⟩
    simp only [himm, BitVec.slt_iff_toInt_lt]
    rfl
  | sltiu =>
    rw [ho] at h
    cases h
    refine ⟨_, outcome_assign _ (outcome_immediate _), iff_of_true ?_ trivial⟩
    rw [himm]
    rfl
  | _ =>
    rw [ho] at hi
    exact absurd hi (by decide)

theorem performsMips_of_shift (nextPC : Word) (hs : (decode raw).opCode ∈ shiftOpCodes)
    (h : mipsResult (decode raw).opCode raw m.registers.gpr = some (dest, value)) :
    PerformsMips raw m nextPC dest value := by
  have hshift := extra_of_shift hs
  unfold PerformsMips perform
  cases ho : (decode raw).opCode with
  | sll | sra =>
    rw [ho] at h
    cases h
    refine ⟨_, outcome_assign _ (outcome_operands _), iff_of_true ?_ trivial⟩
    rw [← hshift]
    rfl
  | srl =>
    rw [ho] at h
    cases h
    refine ⟨_, outcome_assign _ (outcome_operands _), ?_⟩
    rw [BitVec.sshiftRight_eq', hshift]
    exact sshiftRight_eq_iff _ (raw.extractLsb' 6 5).isLt
  | _ =>
    rw [ho] at hs
    exact absurd hs (by decide)

theorem performsMips_of_registers (nextPC : Word) (hi : (decode raw).opCode ∉ immediateOpCodes)
    (hs : (decode raw).opCode ∉ shiftOpCodes)
    (h : mipsResult (decode raw).opCode raw m.registers.gpr = some (dest, value)) :
    PerformsMips raw m nextPC dest value := by
  have hmod (a : Word) : (a &&& 0x1f).toNat = a.toNat % 32 := Nat.and_two_pow_sub_one_eq_mod _ 5
  unfold PerformsMips perform
  cases ho : (decode raw).opCode with
  | addu | subu | and | xor | nor | sltu =>
    rw [ho] at h
    cases h
    exact ⟨_, outcome_assign _ (outcome_operands _), iff_of_true rfl trivial⟩
  | or =>
    rw [ho] at h
    cases h
    refine ⟨_, outcome_assign _ (outcome_operands _), ?_⟩
    rw [BitVec.or_self]
    exact eq_comm
  | slt =>
    rw [ho] at h
    cases h
    refine ⟨_, outcome_assign _ (outcome_operands _), iff_of_true ?_ trivial⟩
    simp only [BitVec.slt_iff_toInt_lt]
    rfl
  | sllv | srav =>
    rw [ho] at h
    cases h
    refine ⟨_, outcome_assign _ (outcome_operands _), iff_of_true ?_ trivial⟩
    rw [← hmod]
    rfl
  | srlv =>
    rw [ho] at h
    cases h
    refine ⟨_, outcome_assign _ (outcome_operands _), ?_⟩
    rw [BitVec.sshiftRight_eq', hmod]
    exact sshiftRight_eq_iff _ (Nat.mod_lt _ (by decide))
  | sll | sra | srl =>
    rw [ho] at hs
    exact absurd (by decide) hs
  | addiu | andi | ori | xori | lui | slti | sltiu =>
    rw [ho] at hi
    exact absurd (by decide) hi
  | _ =>
    rw [ho] at h
    cases h

theorem performsMips (nextPC : Word)
    (h : mipsResult (decode raw).opCode raw m.registers.gpr = some (dest, value)) :
    PerformsMips raw m nextPC dest value := by
  by_cases hi : (decode raw).opCode ∈ immediateOpCodes
  · exact performsMips_of_immediate nextPC hi h
  · by_cases hs : (decode raw).opCode ∈ shiftOpCodes
    · exact performsMips_of_shift nextPC hs h
    · exact performsMips_of_registers nextPC hi hs h

/-- What is left to do after the `switch` when no load is delayed. -/
theorem followsMips_finish_iff (hload : m.registers.loadReg = 0) :
    FollowsMips m.registers dest value
      ((m.setGpr dest v).finish (.proceed (m.registers.nextPC + 4))).registers ↔
      dest = 0 ∨ v = value := by
  have hgpr (r : Fin 32) :
      ((m.setGpr dest v).finish (.proceed (m.registers.nextPC + 4))).registers.gpr r =
        if r = 0 then 0 else if r = dest then v else m.registers.gpr r := by
    simp only [finish, delayedLoad, setGpr, hload, Function.update_apply]
    split_ifs <;> rfl
  constructor
  · intro h
    by_cases hd : dest = 0
    · exact .inl hd
    · have hresult := h.result hd
      rw [hgpr, if_neg hd, if_pos rfl] at hresult
      exact .inr hresult
  · intro h
    refine ⟨fun hd => ?_, fun r hr h₀ => ?_, by rw [hgpr, if_pos rfl], rfl, rfl, rfl, rfl⟩
    · rw [hgpr, if_neg hd, if_pos rfl]
      exact h.resolve_left hd
    · rw [hgpr, if_neg h₀, if_neg hr]

/-- An instruction on registers is executed as in MIPS if and only if it writes register 0 or its
operands are as `ComputesMips` says. -/
theorem oneInstruction_followsMips_iff (handler : ExceptionType → Machine → Except Fault Machine)
    (m m₁ : Machine) (raw : Word) (dest : Fin 32) (value : Word)
    (hfetch : (readMem m.registers.pc .four).outcome m = (.ok raw, m₁))
    (hload : m.registers.loadReg = 0)
    (h : mipsResult (decode raw).opCode raw m.registers.gpr = some (dest, value)) :
    (∃ m', oneInstruction handler m = .ok m' ∧
      FollowsMips m.registers dest value m'.registers) ↔
      dest = 0 ∨ ComputesMips (decode raw).opCode raw m.registers.gpr := by
  -- reading the instruction changes at most `BadVAddrReg`
  have hbelow : Below m m₁ := Observes.above hfetch
  have hregs := hbelow.registers
  have hsame (r' : Registers) :
      FollowsMips m.registers dest value r' ↔ FollowsMips m₁.registers dest value r' := by
    rw [hregs]
    exact ⟨fun hf => ⟨hf.result, hf.others, hf.zero, hf.hi, hf.lo, hf.pc, hf.nextPC⟩,
      fun hf => ⟨hf.result, hf.others, hf.zero, hf.hi, hf.lo, hf.pc, hf.nextPC⟩⟩
  have hgpr : m₁.registers.gpr = m.registers.gpr := gpr_of_readMem hfetch
  rw [← hgpr] at h ⊢
  obtain ⟨v, hperform, hv⟩ := performsMips m₁.registers.nextPC h
  have hexecute : execute.outcome m =
      (.ok (), (m₁.setGpr dest v).finish (.proceed (m₁.registers.nextPC + 4))) := by
    rw [outcome_execute_of_ok hfetch, Computation.outcome_bind_of_ok _ hperform]
    rfl
  have hone : oneInstruction handler m =
      .ok ((m₁.setGpr dest v).finish (.proceed (m₁.registers.nextPC + 4))) := by
    rw [oneInstruction, hexecute]
  rw [hone, ← hv, ← followsMips_finish_iff (by rw [hregs]; exact hload)]
  constructor
  · rintro ⟨m', hm', hf⟩
    cases hm'
    exact (hsame _).1 hf
  · exact fun hf => ⟨_, rfl, (hsame _).2 hf⟩

/-- `ADDU r3, r1, r2` when the registers 1 and 2 contain 40 and -2. -/
theorem oneInstruction_followsMips_of_addu :
    let m := ((ofWord 0x00221821).setGpr 1 40).setGpr 2 (-2)
    ∃ m', oneInstruction (fun _ => .ok) m = .ok m' ∧
      FollowsMips m.registers 3 38 m'.registers :=
  (oneInstruction_followsMips_iff (fun _ => .ok) (((ofWord 0x00221821).setGpr 1 40).setGpr 2 (-2))
    _ 0x00221821 3 38 rfl rfl (by decide)).2 (.inr trivial)

/-- `OR r3, r1, r2` when the registers 1 and 2 contain 0 and 1. -/
theorem oneInstruction_or_loses_operand :
    ((ofWord 0x00221825).setGpr 2 1).fetched = some (decode 0x00221825) ∧
    mipsResult (decode 0x00221825).opCode 0x00221825
      ((ofWord 0x00221825).setGpr 2 1).registers.gpr = some (3, 1) ∧
    ∃ m', oneInstruction (fun _ => .ok) ((ofWord 0x00221825).setGpr 2 1) = .ok m' ∧
      ¬FollowsMips ((ofWord 0x00221825).setGpr 2 1).registers 3 1 m'.registers := by
  refine ⟨rfl, by decide, _, rfl, fun h => ?_⟩
  exact absurd (h.result (by decide)) (by decide)

end Machine

end Nachos
