import Nachos.Foundations.Except
import Nachos.Machine.MipsSim
import Mathlib.Data.Fintype.Basic
import Mathlib.Tactic.FinCases

/-!
# The registers as an array

`Machine` keeps its registers in the array `registers[NumTotalRegs]`, general purpose registers
and those with a name alike. `DelayedLoad` stores through this array: the element that it writes is
the one whose number `LoadReg` contains, which is an `int` like any other register. This file has
`OneInstruction`, `DelayedLoad` and `RaiseException` on the array. It relates them to `Registers`,
which can only be built if the number in `LoadReg` is that of a general purpose register.

## Main definitions

* `RegisterArray`, `ArrayMachine`.
* `RegisterArray.delayedLoad`: `DelayedLoad`, with the store through `registers[LoadReg]`.
* `ArrayMachine.perform`: the `switch` of `OneInstruction`.
* `ArrayMachine.oneInstruction`: `OneInstruction`, up to the call of `ExceptionHandler`.
* `Registers.toArray`, `Machine.toArray`: the array that a machine with `Registers` stands for.
* `RegisterArray.WellFormed`: register 0 contains 0, and `LoadReg` a valid number.
* `RegisterArray.StoresGeneral`: `DelayedLoad` writes a general purpose register.

## Main results

* `RegisterArray.exists_toArray_iff`: the arrays with a valid `LoadReg` are those of `Registers`.
* `ArrayMachine.oneInstruction_toArray`: on them, `OneInstruction` is that of `Machine`.
-/

namespace Nachos

open Foundations

/-- `NumTotalRegs`: the general purpose registers and the ones with a name. -/
abbrev numTotalRegs : ℕ := 32 + 8

/-- `registers`. -/
abbrev RegisterArray : Type := Fin numTotalRegs → Word

namespace RegisterArray

/-- The index of a general purpose register. -/
def gpr (r : Fin 32) : Fin numTotalRegs := Fin.castAdd 8 r

/-- `HiReg`. -/
def hiReg : Fin numTotalRegs := 32

/-- `LoReg`. -/
def loReg : Fin numTotalRegs := 33

/-- `PCReg`. -/
def pcReg : Fin numTotalRegs := 34

/-- `NextPCReg`. -/
def nextPCReg : Fin numTotalRegs := 35

/-- `PrevPCReg`. -/
def prevPCReg : Fin numTotalRegs := 36

/-- `LoadReg`. -/
def loadReg : Fin numTotalRegs := 37

/-- `LoadValueReg`. -/
def loadValueReg : Fin numTotalRegs := 38

/-- `BadVAddrReg`. -/
def badVAddrReg : Fin numTotalRegs := 39

/-- `registers[i] = value` for a variable `i`. There is no test that `i` is an index. -/
def store (r : RegisterArray) (i value : Word) : Except Fault RegisterArray :=
  if h : i.toNat < numTotalRegs then .ok (Function.update r ⟨i.toNat, h⟩ value)
  else .error .undefined

/-- `Machine::DelayedLoad`. -/
def delayedLoad (r : RegisterArray) (nextReg nextValue : Word) : Except Fault RegisterArray := do
  let r ← r.store (r loadReg) (r loadValueReg)
  let r := Function.update r loadReg nextReg
  let r := Function.update r loadValueReg nextValue
  return Function.update r (gpr 0) 0

/-- `Machine::WriteRegister`. -/
def writeRegister (r : RegisterArray) (num : ℤ) (value : Word) : Except Fault RegisterArray :=
  if h : 0 ≤ num ∧ num < numTotalRegs then
    .ok (Function.update r ⟨num.toNat, by omega⟩ value)
  else .error .assertion

/-- `AddrSpace::InitRegisters` for an address space with `numPages` pages. -/
def initRegisters (numPages : ℕ) : RegisterArray :=
  let r : RegisterArray := fun _ => 0
  let r := Function.update r pcReg 0
  let r := Function.update r nextPCReg 4
  Function.update r (gpr 29) (BitVec.ofNat 32 (numPages * pageSize) - 16)

/-- `AdvancePC`. -/
def advancePC (r : RegisterArray) : RegisterArray :=
  let r := Function.update r prevPCReg (r pcReg)
  let r := Function.update r pcReg (r nextPCReg)
  Function.update r nextPCReg (r nextPCReg + 4)

end RegisterArray

/-- `Machine`, with the registers as they are declared. -/
structure ArrayMachine where
  registers : RegisterArray
  pageTable : List TranslationEntry
  mainMemory : MainMemory

/-- Computations of the machine on behalf of a user program. -/
abbrev ArrayCpu : Type → Type := Computation Trap ArrayMachine

namespace ArrayMachine

open RegisterArray

/-- A call of `Translate` by `ReadMem` or `WriteMem`. -/
def access (virtAddr : Word) (size : AccessSize) (writing : Bool) : ArrayCpu ℕ := do
  match Machine.translate (← Computation.read pageTable) virtAddr size writing with
  | .error which => throw (.exception which virtAddr)
  | .ok (physAddr, pageTable) =>
    Computation.write fun m => { m with pageTable }
    return physAddr

/-- `Machine::ReadMem`. -/
def readMem (addr : Word) (size : AccessSize) : ArrayCpu Word := do
  let physicalAddress ← access addr size false
  Computation.read fun m => Machine.loadBytes m.mainMemory physicalAddress size

/-- `Machine::WriteMem`. -/
def writeMem (addr : Word) (size : AccessSize) (value : Word) : ArrayCpu Unit := do
  let physicalAddress ← access addr size true
  Computation.write fun m =>
    { m with mainMemory := m.mainMemory.store physicalAddress (Machine.bytes value size) }

/-- `registers[i]`. -/
def reg (i : Fin numTotalRegs) : ArrayCpu Word := Computation.read fun m => m.registers i

/-- `registers[i] = value`. -/
def setReg (i : Fin numTotalRegs) (value : Word) : ArrayCpu Unit :=
  Computation.write fun m => { m with registers := Function.update m.registers i value }

/-- `RaiseException(which, badVAddr)` under a condition, and `return`. -/
def raiseIf (c : Prop) [Decidable c] (which : ExceptionType) (badVAddr : Word) : ArrayCpu Unit :=
  if c then throw (.exception which badVAddr) else pure ()

/-- End the simulation unless a condition holds. -/
def require (c : Prop) [Decidable c] (f : Fault) : ArrayCpu Unit :=
  if c then pure () else throw (.fault f)

/-! ### `OneInstruction` -/

/-- What the `switch` leaves to do: `pcAfter`, `nextLoadReg` and `nextLoadValue`. -/
structure Effect where
  pcAfter : Word
  nextLoadReg : Word
  nextLoadValue : Word

/-- No load. -/
def Effect.proceed (pcAfter : Word) : Effect := ⟨pcAfter, 0, 0⟩

/-- The instructions that write a register and go on. -/
def assign (pcAfter : Word) (rd : Fin 32) (value : ArrayCpu Word) : ArrayCpu Effect := do
  setReg (gpr rd) (← value)
  return .proceed pcAfter

/-- `rs` and `rt` as operands. -/
def operands (instr : Instruction) (f : Word → Word → Word) : ArrayCpu Word := do
  return f (← reg (gpr instr.rs)) (← reg (gpr instr.rt))

/-- `rs` and the immediate operand. -/
def immediate (instr : Instruction) (f : Word → Word → Word) : ArrayCpu Word := do
  return f (← reg (gpr instr.rs)) instr.extra

/-- Addition and subtraction that check for an overflow. -/
def checked (rd : Fin 32) (value : Word) (overflow : Prop) [Decidable overflow] (pcAfter : Word) :
    ArrayCpu Effect := do
  raiseIf overflow .overflowException 0
  setReg (gpr rd) value
  return .proceed pcAfter

/-- A branch to `extra` relative to `nextPC`, if the operands satisfy `taken`. -/
def branch (instr : Instruction) (nextPC : Word) (taken : Word → Word → Bool) :
    ArrayCpu Effect := do
  let a ← reg (gpr instr.rs)
  let b ← reg (gpr instr.rt)
  return .proceed (if taken a b then nextPC + Machine.indexToAddr instr.extra else nextPC + 4)

/-- `nextLoadReg = instr->rt`. -/
def loadInto (rt : Fin 32) (pcAfter value : Word) : Effect := ⟨pcAfter, BitVec.ofNat 32 rt, value⟩

/-- Loads into `rt`, after a check of the address. -/
def load (instr : Instruction) (pcAfter : Word) (check : Word → ArrayCpu Unit) (size : AccessSize)
    (convert : Word → Word) : ArrayCpu Effect := do
  let base ← reg (gpr instr.rs)
  let tmp := base + instr.extra
  check tmp
  let value ← readMem tmp size
  return loadInto instr.rt pcAfter (convert value)

/-- `LWL` and `LWR`, which join the word with what `rt` will contain. -/
def loadUnaligned (instr : Instruction) (pcAfter : Word) (join : Word → Word → Word → Word) :
    ArrayCpu Effect := do
  let base ← reg (gpr instr.rs)
  let tmp := base + instr.extra
  require (tmp &&& 0x3 = 0) .assertion
  let value ← readMem tmp .four
  let old ← Computation.read fun m =>
    if m.registers loadReg = BitVec.ofNat 32 instr.rt then m.registers loadValueReg
    else m.registers (gpr instr.rt)
  return loadInto instr.rt pcAfter (join (tmp &&& 0x3) old value)

/-- Stores of `rt`. -/
def store (instr : Instruction) (pcAfter : Word) (size : AccessSize) : ArrayCpu Effect := do
  let base ← reg (gpr instr.rs)
  let value ← reg (gpr instr.rt)
  writeMem (base + instr.extra) size value
  return .proceed pcAfter

/-- `SWL` and `SWR`, which join `rt` with the word in memory. -/
def storeUnaligned (instr : Instruction) (pcAfter : Word) (join : Word → Word → Word → Word) :
    ArrayCpu Effect := do
  let base ← reg (gpr instr.rs)
  let tmp := base + instr.extra
  require (tmp &&& 0x3 = 0) .assertion
  let value ← readMem (tmp &&& ~~~0x3) .four
  let new ← reg (gpr instr.rt)
  writeMem (tmp &&& ~~~0x3) .four (join (tmp &&& 0x3) value new)
  return .proceed pcAfter

/-- `registers[LoReg] = lo` and `registers[HiReg] = hi`. -/
def setHiLo (hi lo : Word) : ArrayCpu Unit := do
  setReg loReg lo
  setReg hiReg hi

/-- The quotient and the remainder of `int`s, where they are defined. -/
def divide (a b : Word) : ArrayCpu Unit := do
  require (b ≠ 0 ∧ ¬(a = 0x80000000 ∧ b = -1)) .undefined
  setHiLo (a.srem b) (a.sdiv b)

/-- The quotient and the remainder of `unsigned int`s. -/
def divideUnsigned (a b : Word) : ArrayCpu Unit := do
  require (b ≠ 0) .undefined
  setHiLo (a % b) (a / b)

/-- The `switch` of `OneInstruction`. -/
def perform (instr : Instruction) (nextPC : Word) : ArrayCpu Effect :=
  let pcAfter := nextPC + 4
  match instr.opCode with
  | .add => do
    let a ← reg (gpr instr.rs)
    let b ← reg (gpr instr.rt)
    checked instr.rd (a + b)
      (¬Machine.IsNegative (a ^^^ b) ∧ Machine.IsNegative (a ^^^ (a + b))) pcAfter
  | .addi => do
    let a ← reg (gpr instr.rs)
    let b := instr.extra
    checked instr.rt (a + b)
      (¬Machine.IsNegative (a ^^^ b) ∧ Machine.IsNegative (b ^^^ (a + b))) pcAfter
  | .addiu => assign pcAfter instr.rt (immediate instr (· + ·))
  | .addu => assign pcAfter instr.rd (operands instr (· + ·))
  | .and => assign pcAfter instr.rd (operands instr (· &&& ·))
  | .andi => assign pcAfter instr.rt (immediate instr fun a extra => a &&& (extra &&& 0xffff))
  | .beq => branch instr nextPC fun a b => a == b
  | .bgezal => do
    setReg (gpr 31) (nextPC + 4)
    branch instr nextPC fun a _ => !decide (Machine.IsNegative a)
  | .bgez => branch instr nextPC fun a _ => !decide (Machine.IsNegative a)
  | .bgtz => branch instr nextPC fun a _ => (0 : Word).slt a
  | .blez => branch instr nextPC fun a _ => a.sle 0
  | .bltzal => do
    setReg (gpr 31) (nextPC + 4)
    branch instr nextPC fun a _ => decide (Machine.IsNegative a)
  | .bltz => branch instr nextPC fun a _ => decide (Machine.IsNegative a)
  | .bne => branch instr nextPC fun a b => a != b
  | .div => do
    let a ← reg (gpr instr.rs)
    let b ← reg (gpr instr.rt)
    if b = 0 then setHiLo 0 0 else divide a b
    return .proceed pcAfter
  | .divu => do
    let a ← reg (gpr instr.rs)
    let b ← reg (gpr instr.rt)
    if b = 0 then setHiLo 0 0 else divideUnsigned a b
    return .proceed pcAfter
  | .jal => do
    setReg (gpr 31) (nextPC + 4)
    return .proceed ((pcAfter &&& 0xf0000000) ||| Machine.indexToAddr instr.extra)
  | .j => return .proceed ((pcAfter &&& 0xf0000000) ||| Machine.indexToAddr instr.extra)
  | .jalr => do
    setReg (gpr instr.rd) (nextPC + 4)
    return .proceed (← reg (gpr instr.rs))
  | .jr => return .proceed (← reg (gpr instr.rs))
  | .lb => load instr pcAfter (fun _ => pure ()) .one fun value =>
    if value &&& 0x80 ≠ 0 then value ||| 0xffffff00 else value &&& 0xff
  | .lbu => load instr pcAfter (fun _ => pure ()) .one fun value => value &&& 0xff
  | .lh =>
    load instr pcAfter (fun tmp => raiseIf (tmp &&& 0x1 ≠ 0) .addressErrorException tmp) .two
      fun value => if value &&& 0x8000 ≠ 0 then value ||| 0xffff0000 else value &&& 0xffff
  | .lhu =>
    load instr pcAfter (fun tmp => raiseIf (tmp &&& 0x1 ≠ 0) .addressErrorException tmp) .two
      fun value => value &&& 0xffff
  | .lui => assign pcAfter instr.rt (return instr.extra <<< 16)
  | .lw =>
    load instr pcAfter (fun tmp => raiseIf (tmp &&& 0x3 ≠ 0) .addressErrorException tmp) .four id
  | .lwl => loadUnaligned instr pcAfter fun offset old value =>
    if offset = 0 then value
    else if offset = 1 then (old &&& 0xff) ||| (value <<< 8)
    else if offset = 2 then (old &&& 0xffff) ||| (value <<< 16)
    else (old &&& 0xffffff) ||| (value <<< 24)
  | .lwr => loadUnaligned instr pcAfter fun offset old value =>
    if offset = 0 then (old &&& 0xffffff00) ||| ((value.sshiftRight 24) &&& 0xff)
    else if offset = 1 then (old &&& 0xffff0000) ||| ((value.sshiftRight 16) &&& 0xffff)
    else if offset = 2 then (old &&& 0xff000000) ||| ((value.sshiftRight 8) &&& 0xffffff)
    else value
  | .mfhi => assign pcAfter instr.rd (reg hiReg)
  | .mflo => assign pcAfter instr.rd (reg loReg)
  | .mthi => do
    setReg hiReg (← reg (gpr instr.rs))
    return .proceed pcAfter
  | .mtlo => do
    setReg loReg (← reg (gpr instr.rs))
    return .proceed pcAfter
  | .mult => do
    let product := mult (← reg (gpr instr.rs)) (← reg (gpr instr.rt)) true
    setHiLo product.1 product.2
    return .proceed pcAfter
  | .multu => do
    let product := mult (← reg (gpr instr.rs)) (← reg (gpr instr.rt)) false
    setHiLo product.1 product.2
    return .proceed pcAfter
  | .nor => assign pcAfter instr.rd (operands instr fun a b => ~~~(a ||| b))
  -- both operands are `rs`
  | .or => assign pcAfter instr.rd (operands instr fun a _ => a ||| a)
  | .ori => assign pcAfter instr.rt (immediate instr fun a extra => a ||| (extra &&& 0xffff))
  | .sb => store instr pcAfter .one
  | .sh => store instr pcAfter .two
  | .sll => assign pcAfter instr.rd (operands instr fun _ b => b <<< instr.extra)
  | .sllv => assign pcAfter instr.rd (operands instr fun a b => b <<< (a &&& 0x1f))
  | .slt => assign pcAfter instr.rd (operands instr fun a b => if a.slt b then 1 else 0)
  | .slti => assign pcAfter instr.rt (immediate instr fun a extra => if a.slt extra then 1 else 0)
  | .sltiu => assign pcAfter instr.rt (immediate instr fun a extra => if a < extra then 1 else 0)
  | .sltu => assign pcAfter instr.rd (operands instr fun a b => if a < b then 1 else 0)
  | .sra => assign pcAfter instr.rd (operands instr fun _ b => b.sshiftRight' instr.extra)
  | .srav => assign pcAfter instr.rd (operands instr fun a b => b.sshiftRight' (a &&& 0x1f))
  -- the variable that is shifted is an `int`
  | .srl => assign pcAfter instr.rd (operands instr fun _ b => b.sshiftRight' instr.extra)
  | .srlv => assign pcAfter instr.rd (operands instr fun a b => b.sshiftRight' (a &&& 0x1f))
  | .sub => do
    let a ← reg (gpr instr.rs)
    let b ← reg (gpr instr.rt)
    checked instr.rd (a - b)
      (Machine.IsNegative (a ^^^ b) ∧ Machine.IsNegative (a ^^^ (a - b))) pcAfter
  | .subu => assign pcAfter instr.rd (operands instr (· - ·))
  | .sw => store instr pcAfter .four
  | .swl => storeUnaligned instr pcAfter fun offset value new =>
    if offset = 0 then new
    else if offset = 1 then (value &&& 0xff000000) ||| ((new.sshiftRight 8) &&& 0xffffff)
    else if offset = 2 then (value &&& 0xffff0000) ||| ((new.sshiftRight 16) &&& 0xffff)
    else (value &&& 0xffffff00) ||| ((new.sshiftRight 24) &&& 0xff)
  | .swr => storeUnaligned instr pcAfter fun offset value new =>
    if offset = 0 then (value &&& 0xffffff) ||| (new <<< 24)
    else if offset = 1 then (value &&& 0xffff) ||| (new <<< 16)
    else if offset = 2 then (value &&& 0xff) ||| (new <<< 8)
    else new
  | .syscall => throw (.exception .syscallException 0)
  | .xor => assign pcAfter instr.rd (operands instr (· ^^^ ·))
  | .xori => assign pcAfter instr.rt (immediate instr fun a extra => a ^^^ (extra &&& 0xffff))
  | .res | .unimp => throw (.exception .illegalInstrException 0)
  | .rfe => throw (.fault .assertion)

/-- `OneInstruction` up to the end of the `switch`. -/
def fetchAndPerform : ArrayCpu Effect := do
  let pc ← reg pcReg
  let raw ← readMem pc .four
  let nextPC ← reg nextPCReg
  perform (decode raw) nextPC

/-- What `OneInstruction` does after the `switch`: the delayed load, and the program counters. -/
def finish (m : ArrayMachine) (effect : Effect) : Except Fault ArrayMachine := do
  let r ← m.registers.delayedLoad effect.nextLoadReg effect.nextLoadValue
  let r := Function.update r prevPCReg (r pcReg)
  let r := Function.update r pcReg (r nextPCReg)
  return { m with registers := Function.update r nextPCReg effect.pcAfter }

/-- What `RaiseException` does before it calls `ExceptionHandler`. -/
def trap (m : ArrayMachine) (badVAddr : Word) : Except Fault ArrayMachine := do
  let r : RegisterArray := Function.update m.registers badVAddrReg badVAddr
  return { m with registers := ← r.delayedLoad 0 0 }

/-- `Machine::OneInstruction`, up to the call of `ExceptionHandler`. -/
def oneInstruction (m : ArrayMachine) : Except Fault ArrayMachine :=
  match fetchAndPerform.outcome m with
  | (.ok effect, m') => m'.finish effect
  | (.error (.exception _ badVAddr), m') => m'.trap badVAddr
  | (.error (.fault f), _) => .error f

end ArrayMachine

/-! ### The arrays of `Registers` -/

/-- The registers with a name, from `HiReg` on. -/
def Registers.named (r : Registers) : Fin 8 → Word :=
  ![r.hi, r.lo, r.pc, r.nextPC, r.prevPC, BitVec.ofNat 32 r.loadReg, r.loadValue, r.badVAddr]

/-- The array that contains the registers. -/
def Registers.toArray (r : Registers) : RegisterArray := Fin.append r.gpr r.named

/-- The machine with the array. -/
def Machine.toArray (m : Machine) : ArrayMachine :=
  ⟨m.registers.toArray, m.pageTable, m.mainMemory⟩

/-- The effect with the number of the register as an `int`. -/
def Machine.Effect.toArray (e : Machine.Effect) : ArrayMachine.Effect :=
  ⟨e.pcAfter, BitVec.ofNat 32 e.nextLoadReg, e.nextLoadValue⟩

/-- `OneInstruction` up to the end of the `switch`, with `Registers`. -/
def Machine.fetchAndPerform : Cpu Machine.Effect := do
  let pc ← Computation.read fun m => m.registers.pc
  let raw ← readMem pc .four
  let nextPC ← Computation.read fun m => m.registers.nextPC
  perform (decode raw) nextPC

theorem Machine.execute_eq : execute = (do
    let effect ← fetchAndPerform
    Computation.write fun m => m.finish effect) := by
  simp only [execute, fetchAndPerform, bind_assoc]

namespace RegisterArray

open Function

theorem toNat_ofNat (i : Fin 32) : (BitVec.ofNat 32 i).toNat = i := by
  rw [BitVec.toNat_ofNat, Nat.mod_eq_of_lt (by omega)]

theorem ofNat_inj {i j : Fin 32} : BitVec.ofNat 32 i = BitVec.ofNat 32 j ↔ i = j := by
  rw [← BitVec.toNat_inj, toNat_ofNat, toNat_ofNat, Fin.ext_iff]

theorem ext {a b : RegisterArray} (hgpr : ∀ i, a (gpr i) = b (gpr i))
    (hnamed : ∀ k : Fin 8, a (Fin.natAdd 32 k) = b (Fin.natAdd 32 k)) : a = b :=
  funext fun j => Fin.addCases hgpr hnamed j

variable (r : Registers) (i : Fin 32) (value : Word)

@[simp]
theorem toArray_gpr : r.toArray (gpr i) = r.gpr i := Fin.append_left _ _ i

@[simp]
theorem toArray_named (k : Fin 8) : r.toArray (Fin.natAdd 32 k) = r.named k :=
  Fin.append_right _ _ k

/-- The arrays whose `LoadReg` contains the number of a general purpose register. -/
theorem exists_toArray_iff {a : RegisterArray} :
    (∃ r : Registers, r.toArray = a) ↔ (a loadReg).toNat < 32 := by
  constructor
  · rintro ⟨r, rfl⟩
    change (BitVec.ofNat 32 r.loadReg).toNat < 32
    rw [toNat_ofNat]
    exact r.loadReg.isLt
  · intro h
    refine ⟨⟨fun i => a (gpr i), a hiReg, a loReg, a pcReg, a nextPCReg, a prevPCReg,
      ⟨(a loadReg).toNat, h⟩, a loadValueReg, a badVAddrReg⟩, ext (fun i => toArray_gpr _ i) ?_⟩
    intro k
    have hload : BitVec.ofNat 32 (a loadReg).toNat = a loadReg := by simp
    fin_cases k
    case «5» => exact hload
    all_goals rfl

/-! ### Stores -/

theorem update_gpr :
    update r.toArray (gpr i) value = { r with gpr := update r.gpr i value }.toArray := by
  refine ext (fun j => ?_) fun k => ?_
  · simp only [toArray_gpr, update_apply]
    simp [gpr]
  · rw [update_of_ne, toArray_named, toArray_named]
    · rfl
    · simp [gpr, Fin.ext_iff]
      omega

/-- A store into a register with a name. -/
theorem update_named {r r' : Registers} {k : Fin 8} {value : Word} (hgpr : r'.gpr = r.gpr)
    (hnamed : ∀ j, update r.named k value j = r'.named j) :
    update r.toArray (Fin.natAdd 32 k) value = r'.toArray := by
  refine ext (fun j => ?_) fun j => ?_
  · rw [update_of_ne, toArray_gpr, toArray_gpr, hgpr]
    simp [gpr, Fin.ext_iff]
    omega
  · rw [toArray_named, ← hnamed]
    simp only [update_apply, toArray_named, Fin.natAdd_inj]

theorem update_hiReg : update r.toArray hiReg value = { r with hi := value }.toArray :=
  update_named (k := 0) rfl fun j => by fin_cases j <;> rfl

theorem update_loReg : update r.toArray loReg value = { r with lo := value }.toArray :=
  update_named (k := 1) rfl fun j => by fin_cases j <;> rfl

theorem update_pcReg : update r.toArray pcReg value = { r with pc := value }.toArray :=
  update_named (k := 2) rfl fun j => by fin_cases j <;> rfl

theorem update_nextPCReg :
    update r.toArray nextPCReg value = { r with nextPC := value }.toArray :=
  update_named (k := 3) rfl fun j => by fin_cases j <;> rfl

theorem update_prevPCReg :
    update r.toArray prevPCReg value = { r with prevPC := value }.toArray :=
  update_named (k := 4) rfl fun j => by fin_cases j <;> rfl

theorem update_loadReg :
    update r.toArray loadReg (BitVec.ofNat 32 i) = { r with loadReg := i }.toArray :=
  update_named (k := 5) rfl fun j => by fin_cases j <;> rfl

theorem update_loadValueReg :
    update r.toArray loadValueReg value = { r with loadValue := value }.toArray :=
  update_named (k := 6) rfl fun j => by fin_cases j <;> rfl

theorem update_badVAddrReg :
    update r.toArray badVAddrReg value = { r with badVAddr := value }.toArray :=
  update_named (k := 7) rfl fun j => by fin_cases j <;> rfl

/-- A store through a number of a general purpose register. -/
theorem store_ofNat (a : RegisterArray) :
    a.store (BitVec.ofNat 32 i) value = .ok (update a (gpr i) value) := by
  have hlt : (BitVec.ofNat 32 i).toNat < numTotalRegs := by
    rw [toNat_ofNat]
    exact i.isLt.trans (by decide)
  unfold store
  rw [dif_pos hlt]
  congr 2
  exact Fin.ext (toNat_ofNat i)

/-- `DelayedLoad` writes a general purpose register. -/
theorem delayedLoad_toArray (m : Machine) (nextReg : Fin 32) (nextValue : Word) :
    m.registers.toArray.delayedLoad (BitVec.ofNat 32 nextReg) nextValue =
      .ok (m.delayedLoad nextReg nextValue).registers.toArray := by
  have hstore : m.registers.toArray.store (m.registers.toArray loadReg)
      (m.registers.toArray loadValueReg) =
      .ok (m.setGpr m.registers.loadReg m.registers.loadValue).registers.toArray := by
    change m.registers.toArray.store (BitVec.ofNat 32 m.registers.loadReg) m.registers.loadValue = _
    rw [store_ofNat, update_gpr]
    rfl
  rw [delayedLoad, hstore, ok_bind]
  dsimp only
  rw [update_loadReg, update_loadValueReg, update_gpr]
  rfl

end RegisterArray

namespace ArrayMachine

open RegisterArray Function

variable {α : Type} {instr : Instruction} {nextPC pcAfter value : Word} {r : Fin 32}
  {size : AccessSize} {writing : Bool}

/-! ### The `switch` -/

/-- The computations have the same result. -/
abbrev Agrees (x : ArrayCpu α) (y : Cpu α) : Prop := Simulates Machine.toArray id x y

/-- The computations leave the same to do. -/
abbrev Follows (x : ArrayCpu Effect) (y : Cpu Machine.Effect) : Prop :=
  Simulates Machine.toArray Machine.Effect.toArray x y

instance (virtAddr : Word) :
    Agrees (access virtAddr size writing) (Machine.access virtAddr size writing) where
  outcome_eq m := by
    rw [access, Computation.outcome_bind_of_ok _ (Computation.outcome_read ..)]
    rcases h : Machine.translate m.pageTable virtAddr size writing with which | ⟨physAddr, pt⟩
    · rw [Machine.outcome_access_of_error h, show m.toArray.pageTable = m.pageTable from rfl, h]
      rfl
    · rw [Machine.outcome_access_of_ok h, show m.toArray.pageTable = m.pageTable from rfl, h]
      rfl

instance (addr : Word) : Agrees (readMem addr size) (Machine.readMem addr size) := by
  have (physAddr : ℕ) : Agrees
      (Computation.read fun m => Machine.loadBytes m.mainMemory physAddr size)
      (Computation.read fun m => Machine.loadBytes m.mainMemory physAddr size) :=
    .read fun _ => rfl
  unfold readMem Machine.readMem
  infer_instance

instance (addr value : Word) :
    Agrees (writeMem addr size value) (Machine.writeMem addr size value) := by
  have (physAddr : ℕ) : Agrees
      (Computation.write fun m => { m with
        mainMemory := m.mainMemory.store physAddr (Machine.bytes value size) })
      (Computation.write fun m => { m with
        mainMemory := m.mainMemory.store physAddr (Machine.bytes value size) }) :=
    .write fun _ => rfl
  unfold writeMem Machine.writeMem
  infer_instance

instance : Agrees (reg (gpr r)) (Machine.reg r) := .read fun m => toArray_gpr m.registers r

instance : Agrees (reg hiReg) (Computation.read fun m => m.registers.hi) := .read fun _ => rfl

instance : Agrees (reg loReg) (Computation.read fun m => m.registers.lo) := .read fun _ => rfl

instance : Agrees (reg pcReg) (Computation.read fun m => m.registers.pc) := .read fun _ => rfl

instance : Agrees (reg nextPCReg) (Computation.read fun m => m.registers.nextPC) :=
  .read fun _ => rfl

instance : Agrees (setReg (gpr r) value) (Machine.setReg r value) :=
  .write fun m => congrArg (ArrayMachine.mk · _ _) (update_gpr m.registers r value)

instance : Agrees (setReg hiReg value)
    (Computation.write fun m => { m with registers := { m.registers with hi := value } }) :=
  .write fun m => congrArg (ArrayMachine.mk · _ _) (update_hiReg m.registers value)

instance : Agrees (setReg loReg value)
    (Computation.write fun m => { m with registers := { m.registers with lo := value } }) :=
  .write fun m => congrArg (ArrayMachine.mk · _ _) (update_loReg m.registers value)

instance (hi lo : Word) : Agrees (setHiLo hi lo) (Machine.setHiLo hi lo) where
  outcome_eq m := by
    have h : update (update m.registers.toArray loReg lo) hiReg hi =
        { m.registers with hi, lo }.toArray := by rw [update_loReg, update_hiReg]
    exact congrArg (fun r => (Except.ok (), ArrayMachine.mk r _ _)) h

instance {c : Prop} [Decidable c] (which : ExceptionType) (badVAddr : Word) :
    Agrees (raiseIf c which badVAddr) (Machine.raiseIf c which badVAddr) := by
  unfold raiseIf Machine.raiseIf
  infer_instance

instance {c : Prop} [Decidable c] (f : Fault) :
    Agrees (require c f) (Machine.require c f) := by
  unfold require Machine.require
  infer_instance

instance : Follows (pure (.proceed pcAfter)) (pure (.proceed pcAfter)) := .pure rfl

instance : Follows (pure (loadInto r pcAfter value)) (pure ⟨pcAfter, r, value⟩) := .pure rfl

instance (x : ArrayCpu Word) (y : Cpu Word) [Agrees x y] :
    Follows (assign pcAfter r x) (Machine.assign pcAfter r y) := by
  unfold assign Machine.assign
  infer_instance

instance (f : Word → Word → Word) : Agrees (operands instr f) (Machine.operands instr f) := by
  unfold operands Machine.operands
  infer_instance

instance (f : Word → Word → Word) : Agrees (immediate instr f) (Machine.immediate instr f) := by
  unfold immediate Machine.immediate
  infer_instance

instance (value : Word) {c : Prop} [Decidable c] :
    Follows (checked r value c pcAfter) (Machine.checked r value c pcAfter) := by
  unfold checked Machine.checked
  infer_instance

instance (taken : Word → Word → Bool) :
    Follows (branch instr nextPC taken) (Machine.branch instr nextPC taken) := by
  unfold branch Machine.branch
  infer_instance

instance (check : Word → ArrayCpu Unit) (check' : Word → Cpu Unit)
    [∀ tmp, Agrees (check tmp) (check' tmp)] (convert : Word → Word) :
    Follows (load instr pcAfter check size convert)
      (Machine.load instr pcAfter check' size convert) := by
  unfold load Machine.load
  infer_instance

/-- The comparison of `LoadReg` with `rt`. -/
theorem agrees_pending : Agrees
    (Computation.read fun m => if m.registers loadReg = BitVec.ofNat 32 r then
      m.registers loadValueReg else m.registers (gpr r))
    (Computation.read fun m => if m.registers.loadReg = r then m.registers.loadValue
      else m.registers.gpr r) := by
  refine .read fun m => ?_
  have hpending : m.toArray.registers loadReg = BitVec.ofNat 32 r ↔ m.registers.loadReg = r :=
    ofNat_inj
  simp only [hpending]
  exact if_congr Iff.rfl rfl (toArray_gpr m.registers r)

instance (join : Word → Word → Word → Word) :
    Follows (loadUnaligned instr pcAfter join) (Machine.loadUnaligned instr pcAfter join) := by
  have := agrees_pending (r := instr.rt)
  unfold loadUnaligned Machine.loadUnaligned
  infer_instance

instance : Follows (store instr pcAfter size) (Machine.store instr pcAfter size) := by
  unfold store Machine.store
  infer_instance

instance (join : Word → Word → Word → Word) :
    Follows (storeUnaligned instr pcAfter join) (Machine.storeUnaligned instr pcAfter join) := by
  unfold storeUnaligned Machine.storeUnaligned
  infer_instance

instance (a b : Word) : Agrees (divide a b) (Machine.divide a b) := by
  unfold divide Machine.divide
  infer_instance

instance (a b : Word) : Agrees (divideUnsigned a b) (Machine.divideUnsigned a b) := by
  unfold divideUnsigned Machine.divideUnsigned
  infer_instance

instance follows_perform : Follows (perform instr nextPC) (Machine.perform instr nextPC) := by
  unfold perform Machine.perform
  cases instr.opCode <;> dsimp only <;> infer_instance

/-! ### `OneInstruction` -/

instance follows_fetchAndPerform : Follows fetchAndPerform Machine.fetchAndPerform := by
  unfold fetchAndPerform Machine.fetchAndPerform
  infer_instance

theorem finish_toArray (m : Machine) (effect : Machine.Effect) :
    m.toArray.finish effect.toArray = .ok (m.finish effect).toArray := by
  have hload : m.toArray.registers.delayedLoad effect.toArray.nextLoadReg
      effect.toArray.nextLoadValue =
      .ok (m.delayedLoad effect.nextLoadReg effect.nextLoadValue).registers.toArray :=
    delayedLoad_toArray m effect.nextLoadReg effect.nextLoadValue
  rw [finish, hload, ok_bind]
  dsimp only
  rw [update_prevPCReg, update_pcReg, update_nextPCReg]
  rfl

theorem trap_toArray (m : Machine) (badVAddr : Word) :
    m.toArray.trap badVAddr = .ok (m.trap badVAddr).toArray := by
  let m' : Machine := { m with registers := { m.registers with badVAddr } }
  have hload : RegisterArray.delayedLoad (update m.toArray.registers badVAddrReg badVAddr) 0 0 =
      .ok (m.trap badVAddr).registers.toArray :=
    (congrArg (RegisterArray.delayedLoad · 0 0) (update_badVAddrReg _ _)).trans
      (delayedLoad_toArray m' 0 0)
  rw [trap, hload, ok_bind]
  rfl

/-- `OneInstruction` on the array. -/
theorem oneInstruction_toArray (m : Machine) :
    m.toArray.oneInstruction = (m.oneInstruction fun _ m => .ok m).map Machine.toArray := by
  have hswitch := follows_fetchAndPerform.outcome_eq m
  rw [oneInstruction, Machine.oneInstruction, Machine.execute_eq, hswitch]
  rcases h : Machine.fetchAndPerform.outcome m with ⟨(⟨which, badVAddr⟩ | f) | effect, m'⟩
  · rw [Computation.outcome_bind_of_error _ h]
    exact trap_toArray m' badVAddr
  · rw [Computation.outcome_bind_of_error _ h]
    rfl
  · rw [Computation.outcome_bind_of_ok _ h]
    exact finish_toArray m' effect

end ArrayMachine

/-! ### Well-formed registers -/

namespace RegisterArray

open Function ArrayMachine

/-- Register 0 contains 0, and `LoadReg` the number of a general purpose register. -/
structure WellFormed (r : RegisterArray) : Prop where
  zero : r (gpr 0) = 0
  loadReg_nonneg : 0 ≤ (r loadReg).toInt
  loadReg_le : (r loadReg).toInt ≤ 31

/-- The element that `DelayedLoad` writes is a general purpose register, and apart from that it
sets `LoadReg`, `LoadValueReg` and register 0. -/
def StoresGeneral (r : RegisterArray) : Prop :=
  ∃ g : Fin 32, (r loadReg).toInt = g ∧ ∀ nextReg nextValue, r.delayedLoad nextReg nextValue =
    .ok (update (update (update (update r (gpr g) (r loadValueReg)) loadReg nextReg)
      loadValueReg nextValue) (gpr 0) 0)

variable {a b : RegisterArray} {m m' : ArrayMachine} {i : Fin numTotalRegs} {value : Word}

/-- The arrays are those of `Registers` with 0 in register 0. -/
theorem wellFormed_iff : a.WellFormed ↔ ∃ r : Registers, r.toArray = a ∧ r.gpr 0 = 0 := by
  have hlt : (a loadReg).toNat < 32 ↔ 0 ≤ (a loadReg).toInt ∧ (a loadReg).toInt ≤ 31 := by
    rw [BitVec.toInt_eq_toNat_cond]
    split_ifs <;> omega
  constructor
  · rintro ⟨hzero, hnonneg, hle⟩
    obtain ⟨r, rfl⟩ := exists_toArray_iff.2 (hlt.2 ⟨hnonneg, hle⟩)
    exact ⟨r, rfl, by rwa [toArray_gpr] at hzero⟩
  · rintro ⟨r, rfl, hzero⟩
    obtain ⟨hnonneg, hle⟩ := hlt.1 (exists_toArray_iff.1 ⟨r, rfl⟩)
    exact ⟨by rwa [toArray_gpr], hnonneg, hle⟩

theorem WellFormed.of_toArray {r : Registers} (h : r.gpr 0 = 0) : r.toArray.WellFormed :=
  wellFormed_iff.2 ⟨r, rfl, h⟩

theorem storesGeneral_toArray (r : Registers) : r.toArray.StoresGeneral := by
  refine ⟨r.loadReg, ?_, fun nextReg nextValue => ?_⟩
  · change (BitVec.ofNat 32 r.loadReg).toInt = _
    rw [BitVec.toInt_eq_toNat_of_lt (by rw [toNat_ofNat]; omega), toNat_ofNat]
  · change ((Registers.toArray r).store (BitVec.ofNat 32 r.loadReg) r.loadValue >>= _) = _
    rw [store_ofNat]
    rfl

theorem WellFormed.storesGeneral (h : a.WellFormed) : a.StoresGeneral := by
  obtain ⟨r, rfl, -⟩ := wellFormed_iff.1 h
  exact storesGeneral_toArray r

/-- The other registers are of no concern. -/
theorem WellFormed.update (h : a.WellFormed) (hzero : i ≠ gpr 0) (hload : i ≠ loadReg) :
    WellFormed (update a i value) where
  zero := by rw [update_of_ne hzero.symm, h.zero]
  loadReg_nonneg := by
    rw [update_of_ne hload.symm]
    exact h.loadReg_nonneg
  loadReg_le := by
    rw [update_of_ne hload.symm]
    exact h.loadReg_le

/-! ### What leaves the registers well-formed -/

theorem WellFormed.exists_toArray (h : m.registers.WellFormed) : ∃ n : Machine, n.toArray = m := by
  obtain ⟨r, hr, -⟩ := wellFormed_iff.1 h
  exact ⟨⟨r, m.pageTable, m.mainMemory⟩, by rw [Machine.toArray, hr]⟩

theorem gpr_zero_of_delayedLoad (n : Machine) (nextReg : Fin 32) (nextValue : Word) :
    (n.delayedLoad nextReg nextValue).registers.gpr 0 = 0 := by
  simp only [Machine.delayedLoad, Machine.setGpr, update_self]

theorem WellFormed.delayedLoad (h : a.WellFormed) (hb : a.delayedLoad 0 0 = .ok b) :
    b.WellFormed := by
  obtain ⟨r, rfl, -⟩ := wellFormed_iff.1 h
  obtain rfl := Except.ok.inj ((delayedLoad_toArray ⟨r, [], fun _ => 0⟩ 0 0).symm.trans hb)
  exact .of_toArray (gpr_zero_of_delayedLoad _ 0 0)

/-- `RaiseException` completes the delayed load, whatever register 0 contains. -/
theorem wellFormed_of_trap {n : Machine} {badVAddr : Word} (h : n.toArray.trap badVAddr = .ok m') :
    m'.registers.WellFormed := by
  obtain rfl := Except.ok.inj ((trap_toArray n badVAddr).symm.trans h)
  exact .of_toArray (gpr_zero_of_delayedLoad _ 0 0)

theorem wellFormed_of_finish {n : Machine} {effect : Machine.Effect}
    (h : n.toArray.finish effect.toArray = .ok m') : m'.registers.WellFormed := by
  obtain rfl := Except.ok.inj ((finish_toArray n effect).symm.trans h)
  exact .of_toArray (gpr_zero_of_delayedLoad n effect.nextLoadReg effect.nextLoadValue)

/-- The `switch` may write register 0, but it does not touch `LoadReg`. -/
theorem WellFormed.fetchAndPerform (h : m.registers.WellFormed) {x : Except Trap Effect}
    (hx : ArrayMachine.fetchAndPerform.outcome m = (x, m')) :
    ∃ (n : Machine) (y : Except Trap Machine.Effect),
      n.toArray = m' ∧ y.map Machine.Effect.toArray = x := by
  obtain ⟨n, rfl⟩ := h.exists_toArray
  have hswitch := (follows_fetchAndPerform.outcome_eq n).symm.trans hx
  obtain ⟨hvalue, hstate⟩ := Prod.mk.inj hswitch
  exact ⟨_, _, hstate, hvalue⟩

theorem WellFormed.oneInstruction (h : m.registers.WellFormed)
    (hm : m.oneInstruction = .ok m') : m'.registers.WellFormed := by
  unfold ArrayMachine.oneInstruction at hm
  rcases hx : ArrayMachine.fetchAndPerform.outcome m with ⟨(⟨which, badVAddr⟩ | f) | effect, m₁⟩
  · obtain ⟨n, y, rfl, -⟩ := h.fetchAndPerform hx
    rw [hx] at hm
    exact wellFormed_of_trap hm
  · rw [hx] at hm
    cases hm
  · obtain ⟨n, y, rfl, hy⟩ := h.fetchAndPerform hx
    rw [hx] at hm
    obtain ⟨effect, -, rfl⟩ := map_eq_ok.1 hy
    exact wellFormed_of_finish hm

end RegisterArray

end Nachos
