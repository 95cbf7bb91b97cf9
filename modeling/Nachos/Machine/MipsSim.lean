import Nachos.Machine.Translate
import Mathlib.Logic.Function.Basic
import Mathlib.Data.Fin.VecNotation

/-!
# The MIPS simulator

`machine/mipssim.cc`: `Instruction::Decode` with the tables of `mipssim.h`, `OneInstruction` and
`DelayedLoad`, and `Machine::RaiseException` of `machine/machine.cc`. `int` arithmetic wraps around.

## Main definitions

* `OpCode`, `Instruction`, `decode`.
* `Machine.perform`: the `switch` of `OneInstruction`.
* `Machine.execute`: `OneInstruction` up to an exception.
* `Machine.oneInstruction`: `OneInstruction`, where `handler` is `ExceptionHandler`.

## Main results

* `Machine.restartable_execute`: an instruction that raises an exception has only set bits of the
  page table, and if it is executed again before something else is changed, then it raises the
  same exception and changes nothing.
-/

namespace Nachos

open Foundations

/-! ### Instructions -/

/-- The `OP_` constants of `mipssim.h`. -/
inductive OpCode
  | add | addi | addiu | addu | and | andi | beq | bgez | bgezal | bgtz | blez | bltz | bltzal | bne
  | div | divu | j | jal | jalr | jr | lb | lbu | lh | lhu | lui | lw | lwl | lwr
  | mfhi | mflo | mthi | mtlo | mult | multu | nor | or | ori | rfe | sb | sh | sll | sllv
  | slt | slti | sltiu | sltu | sra | srav | srl | srlv | sub | subu | sw | swl | swr | xor | xori
  | syscall | unimp | res
  deriving DecidableEq, Repr

/-- The formats `IFMT`, `JFMT` and `RFMT`. -/
inductive Format
  | i | j | r
  deriving DecidableEq

/-- The entries of `opTable`: an `OP_` constant, `SPECIAL` or `BCOND`. -/
inductive OpInfo
  | special
  | bcond
  | op (opCode : OpCode) (format : Format)

/-- The format of an entry. -/
def OpInfo.format : OpInfo → Format
  | special => .r
  | bcond => .i
  | op _ format => format

/-- `opTable`, by bits 31 to 26. -/
def opTable : List OpInfo :=
  [.special, .bcond, .op .j .j, .op .jal .j,
    .op .beq .i, .op .bne .i, .op .blez .i, .op .bgtz .i,
    .op .addi .i, .op .addiu .i, .op .slti .i, .op .sltiu .i,
    .op .andi .i, .op .ori .i, .op .xori .i, .op .lui .i,
    .op .unimp .i, .op .unimp .i, .op .unimp .i, .op .unimp .i,
    .op .res .i, .op .res .i, .op .res .i, .op .res .i,
    .op .res .i, .op .res .i, .op .res .i, .op .res .i,
    .op .res .i, .op .res .i, .op .res .i, .op .res .i,
    .op .lb .i, .op .lh .i, .op .lwl .i, .op .lw .i,
    .op .lbu .i, .op .lhu .i, .op .lwr .i, .op .res .i,
    .op .sb .i, .op .sh .i, .op .swl .i, .op .sw .i,
    .op .res .i, .op .res .i, .op .swr .i, .op .res .i,
    .op .unimp .i, .op .unimp .i, .op .unimp .i, .op .unimp .i,
    .op .res .i, .op .res .i, .op .res .i, .op .res .i,
    .op .unimp .i, .op .unimp .i, .op .unimp .i, .op .unimp .i,
    .op .res .i, .op .res .i, .op .res .i, .op .res .i]

/-- `specialTable`, by the `funct` field. -/
def specialTable : List OpCode :=
  [.sll, .res, .srl, .sra, .sllv, .res, .srlv, .srav,
    .jr, .jalr, .res, .res, .syscall, .unimp, .res, .res,
    .mfhi, .mthi, .mflo, .mtlo, .res, .res, .res, .res,
    .mult, .multu, .div, .divu, .res, .res, .res, .res,
    .add, .addu, .sub, .subu, .and, .or, .xor, .nor,
    .res, .res, .slt, .sltu, .res, .res, .res, .res,
    .res, .res, .res, .res, .res, .res, .res, .res,
    .res, .res, .res, .res, .res, .res, .res, .res]

/-- `Instruction`. -/
structure Instruction where
  opCode : OpCode
  rs : Fin 32
  rt : Fin 32
  rd : Fin 32
  extra : Word

/-- `Instruction::Decode`. -/
def decode (value : Word) : Instruction :=
  let info := opTable.get ((value.extractLsb' 26 6).toFin.cast rfl)
  { rs := (value.extractLsb' 21 5).toFin
    rt := (value.extractLsb' 16 5).toFin
    rd := (value.extractLsb' 11 5).toFin
    extra :=
      match info.format with
      | .i =>
        let extra := value &&& 0xffff
        if extra &&& 0x8000 ≠ 0 then extra ||| 0xffff0000 else extra
      | .r => (value >>> 6) &&& 0x1f
      | .j => value &&& 0x3ffffff
    opCode :=
      match info with
      | .special => specialTable.get ((value.extractLsb' 0 6).toFin.cast rfl)
      | .bcond =>
        let i := value &&& 0x1f0000
        if i = 0 then .bltz
        else if i = 0x10000 then .bgez
        else if i = 0x100000 then .bltzal
        else if i = 0x110000 then .bgezal
        else .unimp
      | .op opCode _ => opCode }

/-! ### Multiplication -/

/-- The loop of `Mult` with at most `n` iterations. It returns `hi` and `lo`. -/
def multLoop : ℕ → Word → Word → Word → Word → Word → Word × Word
  | 0, _, _, _, lo, hi => (hi, lo)
  | n + 1, a, bLo, bHi, lo, hi =>
    let odd := a &&& 1 ≠ 0
    let sum := lo + bLo
    let hi' := if odd then (if sum < bLo then hi + 1 else hi) + bHi else hi
    let lo' := if odd then sum else lo
    if odd ∧ a &&& 0xfffffffe = 0 then (hi', lo')
    else
      let bHi' := bHi <<< 1
      multLoop n (a.sshiftRight 1) (bLo <<< 1)
        (if bLo &&& 0x80000000 ≠ 0 then bHi' ||| 1 else bHi') lo' hi'

/-- `Mult`: the contents of `hi` and `lo`. -/
def mult (a b : Word) (signedArith : Bool) : Word × Word :=
  if a = 0 ∨ b = 0 then (0, 0)
  else
    let negA := signedArith && a.slt 0
    let negB := signedArith && b.slt 0
    let (hi, lo) := multLoop 32 (if negA then -a else a) (if negB then -b else b) 0 0 0
    if negA ≠ negB then
      let lo' := ~~~lo + 1
      (if lo' = 0 then ~~~hi + 1 else ~~~hi, lo')
    else (hi, lo)

namespace Machine

/-! ### Registers -/

/-- Write a general purpose register. -/
def setGpr (m : Machine) (r : Fin 32) (value : Word) : Machine :=
  { m with registers := { m.registers with gpr := Function.update m.registers.gpr r value } }

/-- `Machine::DelayedLoad`. -/
def delayedLoad (m : Machine) (nextReg : Fin 32) (nextValue : Word) : Machine :=
  let m := m.setGpr m.registers.loadReg m.registers.loadValue
  let m := { m with registers := { m.registers with loadReg := nextReg, loadValue := nextValue } }
  m.setGpr 0 0

/-- `registers[r]`. -/
def reg (r : Fin 32) : Cpu Word := Computation.read fun m => m.registers.gpr r

/-- `registers[r] = value`. -/
def setReg (r : Fin 32) (value : Word) : Cpu Unit := Computation.write fun m => m.setGpr r value

/-- `registers[LoReg] = lo` and `registers[HiReg] = hi`. -/
def setHiLo (hi lo : Word) : Cpu Unit :=
  Computation.write fun m => { m with registers := { m.registers with hi, lo } }

/-- `RaiseException(which, badVAddr)` under a condition, and `return`. -/
def raiseIf (c : Prop) [Decidable c] (which : ExceptionType) (badVAddr : Word) : Cpu Unit :=
  if c then throw (.exception which badVAddr) else pure ()

/-- End the simulation unless a condition holds. -/
def require (c : Prop) [Decidable c] (f : Fault) : Cpu Unit :=
  if c then pure () else throw (.fault f)

/-- Whether `SIGN_BIT` is set. -/
def IsNegative (w : Word) : Prop := w &&& 0x80000000 ≠ 0

instance : DecidablePred IsNegative := fun w => inferInstanceAs (Decidable (w &&& 0x80000000 ≠ 0))

/-- `IndexToAddr`. -/
def indexToAddr (w : Word) : Word := w <<< 2

/-! ### `OneInstruction` -/

/-- What the `switch` of `OneInstruction` leaves to do: the next value of `NextPCReg` and the load
that is delayed. -/
structure Effect where
  pcAfter : Word
  nextLoadReg : Fin 32
  nextLoadValue : Word

/-- No load. -/
def Effect.proceed (pcAfter : Word) : Effect := ⟨pcAfter, 0, 0⟩

/-- The instructions that write a register and go on. -/
def assign (pcAfter : Word) (rd : Fin 32) (value : Cpu Word) : Cpu Effect := do
  setReg rd (← value)
  return .proceed pcAfter

/-- `rs` and `rt` as operands. -/
def operands (instr : Instruction) (f : Word → Word → Word) : Cpu Word := do
  return f (← reg instr.rs) (← reg instr.rt)

/-- `rs` and the immediate operand. -/
def immediate (instr : Instruction) (f : Word → Word → Word) : Cpu Word := do
  return f (← reg instr.rs) instr.extra

/-- Addition and subtraction that check for an overflow. -/
def checked (rd : Fin 32) (value : Word) (overflow : Prop) [Decidable overflow] (pcAfter : Word) :
    Cpu Effect := do
  raiseIf overflow .overflowException 0
  setReg rd value
  return .proceed pcAfter

/-- A branch to `extra` relative to `nextPC`, if the operands satisfy `taken`. -/
def branch (instr : Instruction) (nextPC : Word) (taken : Word → Word → Bool) : Cpu Effect := do
  let a ← reg instr.rs
  let b ← reg instr.rt
  return .proceed (if taken a b then nextPC + indexToAddr instr.extra else nextPC + 4)

/-- Loads into `rt`, after a check of the address. -/
def load (instr : Instruction) (pcAfter : Word) (check : Word → Cpu Unit) (size : AccessSize)
    (convert : Word → Word) : Cpu Effect := do
  let base ← reg instr.rs
  let tmp := base + instr.extra
  check tmp
  let value ← readMem tmp size
  return ⟨pcAfter, instr.rt, convert value⟩

/-- `LWL` and `LWR`, which join the word with what `rt` will contain. -/
def loadUnaligned (instr : Instruction) (pcAfter : Word) (join : Word → Word → Word → Word) :
    Cpu Effect := do
  let base ← reg instr.rs
  let tmp := base + instr.extra
  require (tmp &&& 0x3 = 0) .assertion
  let value ← readMem tmp .four
  let old ← Computation.read fun m =>
    if m.registers.loadReg = instr.rt then m.registers.loadValue else m.registers.gpr instr.rt
  return ⟨pcAfter, instr.rt, join (tmp &&& 0x3) old value⟩

/-- Stores of `rt`. -/
def store (instr : Instruction) (pcAfter : Word) (size : AccessSize) : Cpu Effect := do
  let base ← reg instr.rs
  let value ← reg instr.rt
  writeMem (base + instr.extra) size value
  return .proceed pcAfter

/-- `SWL` and `SWR`, which join `rt` with the word in memory. -/
def storeUnaligned (instr : Instruction) (pcAfter : Word) (join : Word → Word → Word → Word) :
    Cpu Effect := do
  let base ← reg instr.rs
  let tmp := base + instr.extra
  require (tmp &&& 0x3 = 0) .assertion
  let value ← readMem (tmp &&& ~~~0x3) .four
  let new ← reg instr.rt
  writeMem (tmp &&& ~~~0x3) .four (join (tmp &&& 0x3) value new)
  return .proceed pcAfter

/-- The quotient and the remainder of `int`s, as the host computes them. Those of a division by zero
are not defined, nor is the quotient of the least `int` by -1, which is no `int`. -/
def divide (a b : Word) : Cpu Unit := do
  require (b ≠ 0 ∧ ¬(a = 0x80000000 ∧ b = -1)) .undefined
  setHiLo (a.srem b) (a.sdiv b)

/-- The quotient and the remainder of `unsigned int`s. -/
def divideUnsigned (a b : Word) : Cpu Unit := do
  require (b ≠ 0) .undefined
  setHiLo (a % b) (a / b)

/-- The `switch` of `OneInstruction`. -/
def perform (instr : Instruction) (nextPC : Word) : Cpu Effect :=
  let pcAfter := nextPC + 4
  match instr.opCode with
  | .add => do
    let a ← reg instr.rs
    let b ← reg instr.rt
    checked instr.rd (a + b) (¬IsNegative (a ^^^ b) ∧ IsNegative (a ^^^ (a + b))) pcAfter
  | .addi => do
    let a ← reg instr.rs
    let b := instr.extra
    checked instr.rt (a + b) (¬IsNegative (a ^^^ b) ∧ IsNegative (b ^^^ (a + b))) pcAfter
  | .addiu => assign pcAfter instr.rt (immediate instr (· + ·))
  | .addu => assign pcAfter instr.rd (operands instr (· + ·))
  | .and => assign pcAfter instr.rd (operands instr (· &&& ·))
  | .andi => assign pcAfter instr.rt (immediate instr fun a extra => a &&& (extra &&& 0xffff))
  | .beq => branch instr nextPC fun a b => a == b
  | .bgezal => do
    setReg 31 (nextPC + 4)
    branch instr nextPC fun a _ => !decide (IsNegative a)
  | .bgez => branch instr nextPC fun a _ => !decide (IsNegative a)
  | .bgtz => branch instr nextPC fun a _ => (0 : Word).slt a
  | .blez => branch instr nextPC fun a _ => a.sle 0
  | .bltzal => do
    setReg 31 (nextPC + 4)
    branch instr nextPC fun a _ => decide (IsNegative a)
  | .bltz => branch instr nextPC fun a _ => decide (IsNegative a)
  | .bne => branch instr nextPC fun a b => a != b
  | .div => do
    let a ← reg instr.rs
    let b ← reg instr.rt
    if b = 0 then setHiLo 0 0 else divide a b
    return .proceed pcAfter
  | .divu => do
    let a ← reg instr.rs
    let b ← reg instr.rt
    if b = 0 then setHiLo 0 0 else divideUnsigned a b
    return .proceed pcAfter
  | .jal => do
    setReg 31 (nextPC + 4)
    return .proceed ((pcAfter &&& 0xf0000000) ||| indexToAddr instr.extra)
  | .j => return .proceed ((pcAfter &&& 0xf0000000) ||| indexToAddr instr.extra)
  | .jalr => do
    setReg instr.rd (nextPC + 4)
    return .proceed (← reg instr.rs)
  | .jr => return .proceed (← reg instr.rs)
  | .lb => load instr pcAfter (fun _ => pure ()) .one fun value =>
    if value &&& 0x80 ≠ 0 then value ||| 0xffffff00 else value &&& 0xff
  | .lbu => load instr pcAfter (fun _ => pure ()) .one fun value => value &&& 0xff
  | .lh =>
    load instr pcAfter (fun tmp => raiseIf (tmp &&& 0x1 ≠ 0) .addressErrorException tmp) .two
      fun value => if value &&& 0x8000 ≠ 0 then value ||| 0xffff0000 else value &&& 0xffff
  | .lhu =>
    load instr pcAfter (fun tmp => raiseIf (tmp &&& 0x1 ≠ 0) .addressErrorException tmp) .two
      fun value => value &&& 0xffff
  | .lui => assign pcAfter instr.rt (return instr.extra <<< 16)
  | .lw =>
    load instr pcAfter (fun tmp => raiseIf (tmp &&& 0x3 ≠ 0) .addressErrorException tmp) .four id
  | .lwl => loadUnaligned instr pcAfter fun offset old value =>
    if offset = 0 then value
    else if offset = 1 then (old &&& 0xff) ||| (value <<< 8)
    else if offset = 2 then (old &&& 0xffff) ||| (value <<< 16)
    else (old &&& 0xffffff) ||| (value <<< 24)
  | .lwr => loadUnaligned instr pcAfter fun offset old value =>
    if offset = 0 then (old &&& 0xffffff00) ||| ((value.sshiftRight 24) &&& 0xff)
    else if offset = 1 then (old &&& 0xffff0000) ||| ((value.sshiftRight 16) &&& 0xffff)
    else if offset = 2 then (old &&& 0xff000000) ||| ((value.sshiftRight 8) &&& 0xffffff)
    else value
  | .mfhi => assign pcAfter instr.rd (Computation.read fun m => m.registers.hi)
  | .mflo => assign pcAfter instr.rd (Computation.read fun m => m.registers.lo)
  | .mthi => do
    let a ← reg instr.rs
    Computation.write fun m => { m with registers := { m.registers with hi := a } }
    return .proceed pcAfter
  | .mtlo => do
    let a ← reg instr.rs
    Computation.write fun m => { m with registers := { m.registers with lo := a } }
    return .proceed pcAfter
  | .mult => do
    let product := mult (← reg instr.rs) (← reg instr.rt) true
    setHiLo product.1 product.2
    return .proceed pcAfter
  | .multu => do
    let product := mult (← reg instr.rs) (← reg instr.rt) false
    setHiLo product.1 product.2
    return .proceed pcAfter
  | .nor => assign pcAfter instr.rd (operands instr fun a b => ~~~(a ||| b))
  -- both operands are `rs`
  | .or => assign pcAfter instr.rd (operands instr fun a _ => a ||| a)
  | .ori => assign pcAfter instr.rt (immediate instr fun a extra => a ||| (extra &&& 0xffff))
  | .sb => store instr pcAfter .one
  | .sh => store instr pcAfter .two
  | .sll => assign pcAfter instr.rd (operands instr fun _ b => b <<< instr.extra)
  | .sllv => assign pcAfter instr.rd (operands instr fun a b => b <<< (a &&& 0x1f))
  | .slt => assign pcAfter instr.rd (operands instr fun a b => if a.slt b then 1 else 0)
  | .slti => assign pcAfter instr.rt (immediate instr fun a extra => if a.slt extra then 1 else 0)
  | .sltiu => assign pcAfter instr.rt (immediate instr fun a extra => if a < extra then 1 else 0)
  | .sltu => assign pcAfter instr.rd (operands instr fun a b => if a < b then 1 else 0)
  | .sra => assign pcAfter instr.rd (operands instr fun _ b => b.sshiftRight' instr.extra)
  | .srav => assign pcAfter instr.rd (operands instr fun a b => b.sshiftRight' (a &&& 0x1f))
  -- the variable that is shifted is an `int`
  | .srl => assign pcAfter instr.rd (operands instr fun _ b => b.sshiftRight' instr.extra)
  | .srlv => assign pcAfter instr.rd (operands instr fun a b => b.sshiftRight' (a &&& 0x1f))
  | .sub => do
    let a ← reg instr.rs
    let b ← reg instr.rt
    checked instr.rd (a - b) (IsNegative (a ^^^ b) ∧ IsNegative (a ^^^ (a - b))) pcAfter
  | .subu => assign pcAfter instr.rd (operands instr (· - ·))
  | .sw => store instr pcAfter .four
  | .swl => storeUnaligned instr pcAfter fun offset value new =>
    if offset = 0 then new
    else if offset = 1 then (value &&& 0xff000000) ||| ((new.sshiftRight 8) &&& 0xffffff)
    else if offset = 2 then (value &&& 0xffff0000) ||| ((new.sshiftRight 16) &&& 0xffff)
    else (value &&& 0xffffff00) ||| ((new.sshiftRight 24) &&& 0xff)
  | .swr => storeUnaligned instr pcAfter fun offset value new =>
    if offset = 0 then (value &&& 0xffffff) ||| (new <<< 24)
    else if offset = 1 then (value &&& 0xffff) ||| (new <<< 16)
    else if offset = 2 then (value &&& 0xff) ||| (new <<< 8)
    else new
  | .syscall => throw (.exception .syscallException 0)
  | .xor => assign pcAfter instr.rd (operands instr (· ^^^ ·))
  | .xori => assign pcAfter instr.rt (immediate instr fun a extra => a ^^^ (extra &&& 0xffff))
  | .res | .unimp => throw (.exception .illegalInstrException 0)
  | .rfe => throw (.fault .assertion)

/-- What `OneInstruction` does after the `switch`: the delayed load, and the program counters. -/
def finish (m : Machine) (effect : Effect) : Machine :=
  let m := m.delayedLoad effect.nextLoadReg effect.nextLoadValue
  { m with
    registers :=
      { m.registers with
        prevPC := m.registers.pc
        pc := m.registers.nextPC
        nextPC := effect.pcAfter } }

/-- `OneInstruction` up to an exception. -/
def execute : Cpu Unit := do
  let pc ← Computation.read fun m => m.registers.pc
  let raw ← readMem pc .four
  let nextPC ← Computation.read fun m => m.registers.nextPC
  let effect ← perform (decode raw) nextPC
  Computation.write fun m => m.finish effect

/-- What `RaiseException` does before it calls `ExceptionHandler`. -/
def trap (m : Machine) (badVAddr : Word) : Machine :=
  { m with registers := { m.registers with badVAddr } }.delayedLoad 0 0

/-- `Machine::RaiseException`. -/
def raiseException (handler : ExceptionType → Machine → Except Fault Machine)
    (which : ExceptionType) (badVAddr : Word) (m : Machine) : Except Fault Machine :=
  handler which (m.trap badVAddr)

/-- `Machine::OneInstruction`. -/
def oneInstruction (handler : ExceptionType → Machine → Except Fault Machine) (m : Machine) :
    Except Fault Machine :=
  match execute.outcome m with
  | (.ok _, m') => .ok m'
  | (.error (.exception which badVAddr), m') => raiseException handler which badVAddr m'
  | (.error (.fault f), _) => .error f

/-! ### Exceptions leave the instruction as it was -/

section Restartable

variable {instr : Instruction} {pcAfter nextPC : Word} {r : Fin 32}

instance : Observes Below (reg r) :=
  .read fun m m' h => by rw [h.registers]

instance : Total (reg r) := inferInstanceAs (Total (Computation.read _))

instance (value : Word) : Total (setReg r value) := inferInstanceAs (Total (Computation.write _))

instance (hi lo : Word) : Total (setHiLo hi lo) := inferInstanceAs (Total (Computation.write _))

instance {c : Prop} [Decidable c] (which : ExceptionType) (badVAddr : Word) :
    Observes Below (raiseIf c which badVAddr) := by
  unfold raiseIf
  infer_instance

instance {c : Prop} [Decidable c] (f : Fault) : Observes Below (require c f) := by
  unfold require
  infer_instance

instance (value : Cpu Word) [Total value] : Total (assign pcAfter r value) := by
  unfold assign
  infer_instance

instance (f : Word → Word → Word) : Total (operands instr f) := by
  unfold operands
  infer_instance

instance (f : Word → Word → Word) : Total (immediate instr f) := by
  unfold immediate
  infer_instance

instance (value : Word) {c : Prop} [Decidable c] :
    Restartable Below (checked r value c pcAfter) := by
  unfold checked
  infer_instance

instance (taken : Word → Word → Bool) : Total (branch instr nextPC taken) := by
  unfold branch
  infer_instance

instance (check : Word → Cpu Unit) [∀ tmp, Observes Below (check tmp)] (size : AccessSize)
    (convert : Word → Word) : Restartable Below (load instr pcAfter check size convert) := by
  unfold load
  infer_instance

instance (join : Word → Word → Word → Word) :
    Restartable Below (loadUnaligned instr pcAfter join) := by
  unfold loadUnaligned
  infer_instance

instance (size : AccessSize) : Restartable Below (store instr pcAfter size) := by
  unfold store
  infer_instance

instance (join : Word → Word → Word → Word) :
    Restartable Below (storeUnaligned instr pcAfter join) := by
  unfold storeUnaligned
  infer_instance

instance (a b : Word) : Restartable Below (divide a b) := by
  unfold divide
  infer_instance

instance (a b : Word) : Restartable Below (divideUnsigned a b) := by
  unfold divideUnsigned
  infer_instance

instance restartable_perform : Restartable Below (perform instr nextPC) := by
  unfold perform
  cases instr.opCode <;> dsimp only <;> infer_instance

instance restartable_execute : Restartable Below execute := by
  have hpc : Observes Below (Computation.read fun m => m.registers.pc : Cpu Word) :=
    .read fun m m' h => by rw [h.registers]
  have hnext : Observes Below (Computation.read fun m => m.registers.nextPC : Cpu Word) :=
    .read fun m m' h => by rw [h.registers]
  unfold execute
  infer_instance

end Restartable

end Machine

end Nachos
