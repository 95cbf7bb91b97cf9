import Nachos.Foundations.Relational
import Nachos.Machine.MipsSim

/-!
# What instructions can do

The simulator accesses the machine on behalf of a user program only through the registers,
`ReadMem` and `WriteMem`, so that a relation between machines that these three keep is kept by every
instruction.

## Main definitions

* `UserLevel`: the computations that are made of accesses to the registers, `ReadMem` and
  `WriteMem`.

## Main results

* `Machine.userLevel_execute`: the instructions are such computations.
* `UserLevel.agrees`: they do not distinguish machines that registers, `ReadMem` and `WriteMem` do
  not distinguish.
-/

namespace Nachos

open Foundations

/-- A computation that accesses the machine through its registers, `ReadMem` and `WriteMem` only. -/
class inductive UserLevel : {α : Type} → Cpu α → Prop
  | pure {α : Type} (a : α) : UserLevel (Pure.pure a : Cpu α)
  | throw {α : Type} (trap : Trap) : UserLevel (MonadExcept.throw trap : Cpu α)
  | read {α : Type} (g : Registers → α) : UserLevel (Computation.read fun m => g m.registers)
  | write (g : Registers → Registers) :
    UserLevel (Computation.write fun m => { m with registers := g m.registers })
  | readMem (addr : Word) (size : AccessSize) : UserLevel (Machine.readMem addr size)
  | writeMem (addr : Word) (size : AccessSize) (value : Word) :
    UserLevel (Machine.writeMem addr size value)
  | bind {α β : Type} {x : Cpu α} {f : α → Cpu β} :
    UserLevel x → (∀ a, UserLevel (f a)) → UserLevel (x >>= f)

attribute [instance] UserLevel.pure UserLevel.throw UserLevel.readMem UserLevel.writeMem

instance {α β : Type} {x : Cpu α} {f : α → Cpu β} [hx : UserLevel x] [hf : ∀ a, UserLevel (f a)] :
    UserLevel (x >>= f) := .bind hx hf

instance {α : Type} {c : Prop} [Decidable c] {x y : Cpu α} [UserLevel x] [UserLevel y] :
    UserLevel (if c then x else y) := by
  split_ifs <;> infer_instance

namespace Machine

variable {instr : Instruction} {pcAfter nextPC : Word} {size : AccessSize}

instance (r : Fin 32) : UserLevel (reg r) := .read fun registers => registers.gpr r

instance (r : Fin 32) (value : Word) : UserLevel (setReg r value) :=
  .write fun registers => { registers with gpr := Function.update registers.gpr r value }

instance (hi lo : Word) : UserLevel (setHiLo hi lo) :=
  .write fun registers => { registers with hi, lo }

instance {c : Prop} [Decidable c] (which : ExceptionType) (badVAddr : Word) :
    UserLevel (raiseIf c which badVAddr) := by
  unfold raiseIf
  infer_instance

instance {c : Prop} [Decidable c] (f : Fault) : UserLevel (require c f) := by
  unfold require
  infer_instance

instance (r : Fin 32) (value : Cpu Word) [UserLevel value] :
    UserLevel (assign pcAfter r value) := by
  unfold assign
  infer_instance

instance (f : Word → Word → Word) : UserLevel (operands instr f) := by
  unfold operands
  infer_instance

instance (f : Word → Word → Word) : UserLevel (immediate instr f) := by
  unfold immediate
  infer_instance

instance (r : Fin 32) (value : Word) {c : Prop} [Decidable c] :
    UserLevel (checked r value c pcAfter) := by
  unfold checked
  infer_instance

instance (taken : Word → Word → Bool) : UserLevel (branch instr nextPC taken) := by
  unfold branch
  infer_instance

instance (check : Word → Cpu Unit) [∀ tmp, UserLevel (check tmp)] (convert : Word → Word) :
    UserLevel (load instr pcAfter check size convert) := by
  unfold load
  infer_instance

instance (join : Word → Word → Word → Word) : UserLevel (loadUnaligned instr pcAfter join) := by
  have hold : UserLevel (Computation.read fun m : Machine =>
      if m.registers.loadReg = instr.rt then m.registers.loadValue
      else m.registers.gpr instr.rt : Cpu Word) :=
    .read fun registers =>
      if registers.loadReg = instr.rt then registers.loadValue else registers.gpr instr.rt
  unfold loadUnaligned
  infer_instance

instance : UserLevel (store instr pcAfter size) := by
  unfold store
  infer_instance

instance (join : Word → Word → Word → Word) : UserLevel (storeUnaligned instr pcAfter join) := by
  unfold storeUnaligned
  infer_instance

instance (a b : Word) : UserLevel (divide a b) := by
  unfold divide
  infer_instance

instance (a b : Word) : UserLevel (divideUnsigned a b) := by
  unfold divideUnsigned
  infer_instance

instance userLevel_perform : UserLevel (perform instr nextPC) := by
  have hhi : UserLevel (Computation.read fun m : Machine => m.registers.hi : Cpu Word) :=
    .read Registers.hi
  have hlo : UserLevel (Computation.read fun m : Machine => m.registers.lo : Cpu Word) :=
    .read Registers.lo
  have hsetHi (a : Word) : UserLevel (Computation.write fun m : Machine =>
      { m with registers := { m.registers with hi := a } } : Cpu Unit) :=
    .write fun registers => { registers with hi := a }
  have hsetLo (a : Word) : UserLevel (Computation.write fun m : Machine =>
      { m with registers := { m.registers with lo := a } } : Cpu Unit) :=
    .write fun registers => { registers with lo := a }
  unfold perform
  cases instr.opCode <;> dsimp only <;> infer_instance

instance userLevel_execute : UserLevel execute := by
  have hpc : UserLevel (Computation.read fun m : Machine => m.registers.pc : Cpu Word) :=
    .read Registers.pc
  have hnextPC : UserLevel (Computation.read fun m : Machine => m.registers.nextPC : Cpu Word) :=
    .read Registers.nextPC
  have hfinish (effect : Effect) : UserLevel (Computation.write fun m => m.finish effect) :=
    .write fun registers => (Machine.finish ⟨registers, [], fun _ => 0⟩ effect).registers
  unfold execute
  infer_instance

end Machine

/-- If related machines have the same registers, and `ReadMem` and `WriteMem` do not distinguish
them, then no such computation does. -/
theorem UserLevel.agrees {α : Type} {r : Machine → Machine → Prop} {x : Cpu α} (h : UserLevel x)
    (hregisters : ∀ m n, r m n → n.registers = m.registers)
    (hwrite : ∀ m n (g : Registers → Registers), r m n →
      r { m with registers := g m.registers } { n with registers := g n.registers })
    [∀ addr size, Agrees r (Machine.readMem addr size)]
    [∀ addr size value, Agrees r (Machine.writeMem addr size value)] : Agrees r x := by
  induction h with
  | pure a => infer_instance
  | throw trap => infer_instance
  | read g => exact .read fun m n hr => congrArg g (hregisters m n hr).symm
  | write g => exact .write fun m n => hwrite m n g
  | readMem addr size => infer_instance
  | writeMem addr size value => infer_instance
  | bind _ _ ihx ihf => exact .bind

end Nachos
