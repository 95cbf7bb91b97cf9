import Nachos.Machine.MipsSim

/-!
# Instructions that end the simulation

A user program can contain any words as instructions, and any values can be in the registers.
Whatever `OneInstruction` cannot carry out it is to report by `RaiseException`. There are two
exceptions. `LWL`, `LWR`, `SWL` and `SWR` have an `ASSERT` that the address is that of a word;
and `DIV` divides on the host, where the quotient of the least `int` by -1 does not exist. Neither
`DIV` nor `DIVU` divides by zero.

## Main definitions

* `Machine.fetched`: the instruction that is executed next.
* `Instruction.IsUnaligned`, `Instruction.DividesLeast`: the instructions above.

## Main results

* `Machine.perform_not_fault`: every other instruction is completed or raises an exception.
* `Machine.execute_fault_iff`: the instructions at which an `ASSERT` fails.
-/

namespace Nachos

open Foundations

/-- The simulation ends. -/
def Trap.IsFault : Trap → Prop
  | .exception _ _ => False
  | .fault _ => True

namespace Instruction

/-- `LWL`, `LWR`, `SWL` or `SWR` at an address that is not the address of a word. -/
def IsUnaligned (instr : Instruction) (registers : Registers) : Prop :=
  instr.opCode ∈ [OpCode.lwl, .lwr, .swl, .swr] ∧
    (registers.gpr instr.rs + instr.extra) &&& 0x3 ≠ 0

/-- `DIV` of the least `int` by -1. -/
def DividesLeast (instr : Instruction) (registers : Registers) : Prop :=
  instr.opCode = .div ∧ registers.gpr instr.rs = 0x80000000 ∧ registers.gpr instr.rt = -1

end Instruction

namespace Machine

/-- The instruction that `OneInstruction` executes, if its word can be read. -/
def fetched (m : Machine) : Option Instruction :=
  match ((readMem m.registers.pc .four).outcome m).1 with
  | .error _ => none
  | .ok raw => some (decode raw)

/-! ### Instructions without an assertion -/

section Avoids

variable {instr : Instruction} {pcAfter nextPC : Word} {r : Fin 32}

instance {α : Type} (which : ExceptionType) (badVAddr : Word) :
    Avoids Trap.IsFault (throw (.exception which badVAddr) : Cpu α) :=
  .throw id

instance {c : Prop} [Decidable c] (which : ExceptionType) (badVAddr : Word) :
    Avoids Trap.IsFault (raiseIf c which badVAddr) := by
  unfold raiseIf
  infer_instance

instance {virtAddr : Word} {size : AccessSize} {writing : Bool} :
    Avoids Trap.IsFault (access virtAddr size writing) where
  not_bad {m m' e} h := by
    rcases ht : translate m.pageTable virtAddr size writing with which | ⟨physAddr, pt⟩
    · cases (outcome_access_of_error ht).symm.trans h
      exact id
    · cases (outcome_access_of_ok ht).symm.trans h

instance (addr : Word) (size : AccessSize) : Avoids Trap.IsFault (readMem addr size) := by
  unfold readMem
  infer_instance

instance (addr value : Word) (size : AccessSize) :
    Avoids Trap.IsFault (writeMem addr size value) := by
  unfold writeMem
  infer_instance

instance (value : Word) {c : Prop} [Decidable c] :
    Avoids Trap.IsFault (checked r value c pcAfter) := by
  unfold checked
  infer_instance

instance (check : Word → Cpu Unit) [∀ tmp, Avoids Trap.IsFault (check tmp)] (size : AccessSize)
    (convert : Word → Word) : Avoids Trap.IsFault (load instr pcAfter check size convert) := by
  unfold load
  infer_instance

instance (size : AccessSize) : Avoids Trap.IsFault (store instr pcAfter size) := by
  unfold store
  infer_instance

theorem avoids_divide {a b : Word} (hb : b ≠ 0) (h : ¬(a = 0x80000000 ∧ b = -1)) :
    Avoids Trap.IsFault (divide a b) := by
  rw [divide, require, if_pos ⟨hb, h⟩]
  infer_instance

theorem avoids_divideUnsigned {a b : Word} (hb : b ≠ 0) :
    Avoids Trap.IsFault (divideUnsigned a b) := by
  rw [divideUnsigned, require, if_pos hb]
  infer_instance

/-- `DIVU` does not divide by zero. -/
instance {α : Type} (a b : Word) (x : Cpu α) (y : Unit → Cpu α) [Avoids Trap.IsFault x]
    [∀ u, Avoids Trap.IsFault (y u)] :
    Avoids Trap.IsFault (if b = 0 then x else divideUnsigned a b >>= y) := by
  split_ifs with hb
  · infer_instance
  · have := avoids_divideUnsigned (a := a) hb
    infer_instance

/-- The instructions that neither contain an `ASSERT` nor divide `int`s. -/
theorem avoids_perform (h : instr.opCode ∉ [OpCode.lwl, .lwr, .swl, .swr, .div, .rfe]) :
    Avoids Trap.IsFault (perform instr nextPC) := by
  unfold perform
  cases ho : instr.opCode with
  | lwl | lwr | swl | swr | div | rfe => simp [ho] at h
  | _ =>
    dsimp only
    infer_instance

end Avoids

/-! ### Instructions with an assertion -/

section Require

variable {α : Type} {c : Prop} [Decidable c] {f : Fault} {x : Unit → Cpu α} {m m' : Machine}
  {e : Trap}

theorem outcome_require_of_not (h : ¬c) :
    (require c f >>= x).outcome m = (.error (.fault f), m) := by
  rw [require, if_neg h, Computation.outcome_bind_of_error _ (Computation.outcome_throw _ _)]

theorem outcome_require (h : c) : (require c f >>= x).outcome m = (x ()).outcome m := by
  rw [require, if_pos h, Computation.outcome_bind_of_ok _ (Computation.outcome_pure _ _)]

theorem outcome_reg {r : Fin 32} {x : Word → Cpu α} :
    (reg r >>= x).outcome m = (x (m.registers.gpr r)).outcome m :=
  Computation.outcome_bind_of_ok _ (Computation.outcome_read _ _)

end Require

variable {instr : Instruction} {m m' : Machine} {pcAfter nextPC : Word} {e : Trap}

theorem outcome_loadUnaligned (join : Word → Word → Word → Word)
    (h : (m.registers.gpr instr.rs + instr.extra) &&& 0x3 ≠ 0) :
    (loadUnaligned instr pcAfter join).outcome m = (.error (.fault .assertion), m) := by
  rw [loadUnaligned, outcome_reg, outcome_require_of_not h]

theorem outcome_storeUnaligned (join : Word → Word → Word → Word)
    (h : (m.registers.gpr instr.rs + instr.extra) &&& 0x3 ≠ 0) :
    (storeUnaligned instr pcAfter join).outcome m = (.error (.fault .assertion), m) := by
  rw [storeUnaligned, outcome_reg, outcome_require_of_not h]

theorem loadUnaligned_not_fault (join : Word → Word → Word → Word)
    (h : (m.registers.gpr instr.rs + instr.extra) &&& 0x3 = 0)
    (he : (loadUnaligned instr pcAfter join).outcome m = (.error e, m')) : ¬e.IsFault := by
  rw [loadUnaligned, outcome_reg, outcome_require h] at he
  exact Avoids.not_bad he

theorem storeUnaligned_not_fault (join : Word → Word → Word → Word)
    (h : (m.registers.gpr instr.rs + instr.extra) &&& 0x3 = 0)
    (he : (storeUnaligned instr pcAfter join).outcome m = (.error e, m')) : ¬e.IsFault := by
  rw [storeUnaligned, outcome_reg, outcome_require h] at he
  exact Avoids.not_bad he

/-- The `ASSERT` of the instructions that transfer a part of a word. -/
theorem outcome_perform_of_isUnaligned (h : instr.IsUnaligned m.registers) :
    (perform instr nextPC).outcome m = (.error (.fault .assertion), m) := by
  obtain ⟨ho, ha⟩ := h
  unfold perform
  simp only [List.mem_cons, List.not_mem_nil, or_false] at ho
  rcases ho with ho | ho | ho | ho
  all_goals rw [ho]
  · exact outcome_loadUnaligned _ ha
  · exact outcome_loadUnaligned _ ha
  · exact outcome_storeUnaligned _ ha
  · exact outcome_storeUnaligned _ ha

/-- Every other instruction is completed or raises an exception, except `DIV` of the least `int`
by -1. -/
theorem perform_not_fault (hrfe : instr.opCode ≠ .rfe) (hu : ¬instr.IsUnaligned m.registers)
    (hd : ¬instr.DividesLeast m.registers)
    (h : (perform instr nextPC).outcome m = (.error e, m')) : ¬e.IsFault := by
  by_cases ho : instr.opCode ∈ [OpCode.lwl, .lwr, .swl, .swr]
  · have ha : (m.registers.gpr instr.rs + instr.extra) &&& 0x3 = 0 := by
      by_contra ha
      exact hu ⟨ho, ha⟩
    unfold perform at h
    simp only [List.mem_cons, List.not_mem_nil, or_false] at ho
    rcases ho with ho | ho | ho | ho
    all_goals rw [ho] at h
    · exact loadUnaligned_not_fault _ ha h
    · exact loadUnaligned_not_fault _ ha h
    · exact storeUnaligned_not_fault _ ha h
    · exact storeUnaligned_not_fault _ ha h
  by_cases hdiv : instr.opCode = .div
  · have hab : ¬(m.registers.gpr instr.rs = 0x80000000 ∧ m.registers.gpr instr.rt = -1) :=
      fun hab => hd ⟨hdiv, hab⟩
    unfold perform at h
    rw [hdiv] at h
    dsimp only at h
    rw [outcome_reg, outcome_reg] at h
    split_ifs at h with hb
    · exact Avoids.not_bad h
    · have := avoids_divide hb hab
      exact Avoids.not_bad h
  · have havoids : Avoids Trap.IsFault (perform instr nextPC) := by
      refine avoids_perform ?_
      simp only [List.mem_cons, List.not_mem_nil, or_false, not_or] at ho ⊢
      exact ⟨ho.1, ho.2.1, ho.2.2.1, ho.2.2.2, hdiv, hrfe⟩
    exact havoids.not_bad h

/-! ### `OneInstruction` -/

/-- No word is decoded as `RFE`, for which `OneInstruction` has no case. -/
theorem decode_ne_rfe (value : Word) : (decode value).opCode ≠ .rfe := by
  have hspecial : OpCode.rfe ∉ specialTable := by decide
  have hop : ∀ format, OpInfo.op .rfe format ∉ opTable := by simp [opTable]
  have hinfo := List.get_mem opTable ((value.extractLsb' 26 6).toFin.cast rfl)
  simp only [decode]
  generalize opTable.get _ = info at hinfo
  cases info with
  | special => exact fun he => hspecial (he ▸ List.get_mem specialTable _)
  | bcond =>
    dsimp only
    split_ifs <;> exact fun he => OpCode.noConfusion he
  | op opCode format => exact fun he => hop format (he ▸ hinfo)

section Fetch

variable {raw : Word} {m₁ : Machine}

/-- Reading an instruction changes no general purpose register. -/
theorem gpr_of_readMem {addr : Word} {size : AccessSize} {a : Except Trap Word}
    (h : (readMem addr size).outcome m = (a, m₁)) : m₁.registers.gpr = m.registers.gpr := by
  have hbelow : Below m m₁ := Observes.above h
  rw [hbelow.registers]

theorem fetched_of_ok (h : (readMem m.registers.pc .four).outcome m = (.ok raw, m₁)) :
    m.fetched = some (decode raw) := by
  simp only [fetched, h]

theorem fetched_of_error (h : (readMem m.registers.pc .four).outcome m = (.error e, m₁)) :
    m.fetched = none := by
  simp only [fetched, h]

theorem outcome_execute_of_error
    (h : (readMem m.registers.pc .four).outcome m = (.error e, m₁)) :
    execute.outcome m = (.error e, m₁) := by
  rw [execute, Computation.outcome_bind_of_ok _ (Computation.outcome_read _ _),
    Computation.outcome_bind_of_error _ h]

theorem outcome_execute_of_ok (h : (readMem m.registers.pc .four).outcome m = (.ok raw, m₁)) :
    execute.outcome m = (do
      let effect ← perform (decode raw) m₁.registers.nextPC
      Computation.write fun m => m.finish effect : Cpu Unit).outcome m₁ := by
  rw [execute, Computation.outcome_bind_of_ok _ (Computation.outcome_read _ _),
    Computation.outcome_bind_of_ok _ h,
    Computation.outcome_bind_of_ok _ (Computation.outcome_read _ _)]

/-- An error of `OneInstruction` after the fetch is one of its `switch`. -/
theorem perform_of_execute (h : (readMem m.registers.pc .four).outcome m = (.ok raw, m₁))
    (he : execute.outcome m = (.error e, m')) :
    (perform (decode raw) m₁.registers.nextPC).outcome m₁ = (.error e, m') := by
  rw [outcome_execute_of_ok h] at he
  rcases hs : (perform (decode raw) m₁.registers.nextPC).outcome m₁ with ⟨e' | effect, m₂⟩
  · rw [Computation.outcome_bind_of_error _ hs] at he
    cases he
    rfl
  · rw [Computation.outcome_bind_of_ok _ hs] at he
    cases he

/-- Where the simulation ends. -/
theorem isUnaligned_of_fault (h : (readMem m.registers.pc .four).outcome m = (.ok raw, m₁))
    (hdiv : ¬(decode raw).DividesLeast m.registers) {f : Fault}
    (he : execute.outcome m = (.error (.fault f), m')) :
    (decode raw).IsUnaligned m.registers ∧ f = .assertion := by
  have hperform := perform_of_execute h he
  have hgpr := gpr_of_readMem h
  have hu : (decode raw).IsUnaligned m₁.registers := by
    by_contra hu
    refine perform_not_fault (decode_ne_rfe raw) hu (fun hd => hdiv ?_) hperform trivial
    simpa only [Instruction.DividesLeast, hgpr] using hd
  rw [outcome_perform_of_isUnaligned hu] at hperform
  cases hperform
  exact ⟨by simpa only [Instruction.IsUnaligned, hgpr] using hu, rfl⟩

theorem fault_of_isUnaligned (h : (readMem m.registers.pc .four).outcome m = (.ok raw, m₁))
    (hu : (decode raw).IsUnaligned m.registers) :
    execute.outcome m = (.error (.fault .assertion), m₁) := by
  have hu' : (decode raw).IsUnaligned m₁.registers := by
    simpa only [Instruction.IsUnaligned, gpr_of_readMem h] using hu
  rw [outcome_execute_of_ok h,
    Computation.outcome_bind_of_error _ (outcome_perform_of_isUnaligned hu')]

end Fetch

/-- `OneInstruction` completes every instruction or raises an exception, unless an instruction
that transfers a part of a word has the address of no word: then its `ASSERT` fails. No other
`ASSERT` does, also not the one in `Translate`, and nothing is divided by zero. Nothing is said of
`DIV` of the least `int` by -1. -/
theorem execute_fault_iff (m : Machine)
    (hdiv : ∀ instr, m.fetched = some instr → ¬instr.DividesLeast m.registers) :
    ((∃ f m', execute.outcome m = (.error (.fault f), m')) ↔
      ∃ instr, m.fetched = some instr ∧ instr.IsUnaligned m.registers) ∧
    (∀ f m', execute.outcome m = (.error (.fault f), m') → f = .assertion) ∧
    ∀ virtAddr size writing physAddr pageTable,
      translate m.pageTable virtAddr size writing = .ok (physAddr, pageTable) →
      physAddr + (bytes 0 size).length ≤ memorySize := by
  refine ⟨?_, ?_, fun _ _ _ _ _ h => translate_le_memorySize h⟩
  all_goals
    rcases h : (readMem m.registers.pc .four).outcome m with ⟨e | raw, m₁⟩
  · -- the instruction cannot be read
    rw [outcome_execute_of_error h, fetched_of_error h]
    constructor
    · rintro ⟨f, m', he⟩
      cases he
      have hf : ¬(Trap.fault f).IsFault := Avoids.not_bad h
      exact absurd trivial hf
    · rintro ⟨instr, hi, -⟩
      cases hi
  · rw [fetched_of_ok h] at hdiv ⊢
    constructor
    · rintro ⟨f, m', he⟩
      exact ⟨_, rfl, (isUnaligned_of_fault h (hdiv _ rfl) he).1⟩
    · rintro ⟨instr, hi, hu⟩
      cases hi
      exact ⟨_, _, fault_of_isUnaligned h hu⟩
  · rw [outcome_execute_of_error h]
    intro f m' he
    cases he
    have hf : ¬(Trap.fault f).IsFault := Avoids.not_bad h
    exact absurd trivial hf
  · rw [fetched_of_ok h] at hdiv
    exact fun f m' he => (isUnaligned_of_fault h (hdiv _ rfl) he).2

/-- A machine whose memory begins with a word and whose other bytes, and all registers, are 0. -/
def ofWord (word : Word) : Machine where
  registers := ⟨fun _ => 0, 0, 0, 0, 4, 0, 0, 0, 0⟩
  pageTable := [⟨0, 0, true, false, false, false⟩]
  mainMemory := MainMemory.store (fun _ => 0) 0 (bytes word .four)

/-- `LWL r1, 1(r0)`. -/
theorem execute_fault_of_lwl :
    ∃ f m', execute.outcome (ofWord 0x88010001) = (.error (.fault f), m') := by
  refine (execute_fault_iff (ofWord 0x88010001) fun instr hi hd => ?_).1.2 ⟨_, rfl, ?_⟩
  · cases hi
    exact OpCode.noConfusion hd.1
  · exact ⟨by decide, by decide⟩

/-- The user program `LWL r1, 1(r0)` fails an `ASSERT`. -/
theorem execute_lwl_fails_assertion :
    (execute.outcome (ofWord 0x88010001)).1 = .error (.fault .assertion) := by
  rfl

end Machine

end Nachos
