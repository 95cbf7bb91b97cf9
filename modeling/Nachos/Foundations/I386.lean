import Mathlib.Data.BitVec
import Mathlib.Logic.Function.Basic
import Nachos.Foundations.ByteMemory

/-!
# A part of the i386 instruction set

The instructions that move words between the registers and the memory, the stack, and the
transfers of control that go with it. The lengths of the encoded instructions, which determine
the return addresses that a call pushes, are a parameter.

## Main definitions

* `I386.Machine`: the registers, the instruction pointer and the memory.
* `I386.Instr`, `I386.Instr.exec`: the instructions and what they do.
* `I386.execute`: code without jumps.
* `I386.run`: fetching and executing instructions from a text.
* `I386.Returns`: what the C calling convention promises of a function that returns.

## Main results

* `I386.run_placed`: running a piece of the text without jumps is executing its instructions.
-/

namespace Foundations.I386

open Function

abbrev Word : Type := BitVec 32

/-- The general registers. -/
inductive Register
  | eax
  | ebx
  | ecx
  | edx
  | esi
  | edi
  | ebp
  | esp
  deriving DecidableEq, Repr

/-- The operands: a register, `disp(%base)`, and a symbol. -/
inductive Operand
  | reg (r : Register)
  | indirect (disp : Word) (base : Register)
  | symbol (a : Word)
  deriving DecidableEq, Repr

/-- The instructions, their operands in the order of the assembler: the source first. A call goes
to the address in a register. -/
inductive Instr
  | movl (src dst : Operand)
  | pushl (src : Operand)
  | popl (dst : Register)
  | call (target : Register)
  | ret
  deriving DecidableEq, Repr

/-- The processor and the memory. -/
structure Machine where
  reg : Register → Word
  eip : Word
  memory : Memory

namespace Machine

/-- The value of an operand. -/
def read (m : Machine) : Operand → Word
  | .reg r => m.reg r
  | .indirect disp base => m.memory.load (m.reg base + disp)
  | .symbol a => m.memory.load a

/-- An operand is assigned a value. -/
def write (m : Machine) (v : Word) : Operand → Machine
  | .reg r => { m with reg := update m.reg r v }
  | .indirect disp base => { m with memory := m.memory.store (m.reg base + disp) v }
  | .symbol a => { m with memory := m.memory.store a v }

/-- A word is pushed on the stack. -/
def push (m : Machine) (v : Word) : Machine :=
  { m with
    reg := update m.reg .esp (m.reg .esp - 4)
    memory := m.memory.store (m.reg .esp - 4) v }

/-- The word on top of the stack. -/
def top (m : Machine) : Word := m.memory.load (m.reg .esp)

/-- The word on top of the stack is taken off. -/
def pop (m : Machine) : Machine := { m with reg := update m.reg .esp (m.reg .esp + 4) }

end Machine

/-- Execute an instruction whose encoding has the given length. -/
def Instr.exec (length : Word) (m : Machine) : Instr → Machine
  | .movl src dst => { m.write (m.read src) dst with eip := m.eip + length }
  | .pushl src => { m.push (m.read src) with eip := m.eip + length }
  | .popl dst => { m.pop.write m.top (.reg dst) with eip := m.eip + length }
  | .call target => { m.push (m.eip + length) with eip := m.reg target }
  | .ret => { m.pop with eip := m.top }

/-- Execute instructions that follow each other. -/
def execute (length : Instr → Word) : List Instr → Machine → Machine
  | [], m => m
  | i :: is, m => execute length is (i.exec (length i) m)

theorem execute_append (length : Instr → Word) (is js : List Instr) (m : Machine) :
    execute length (is ++ js) m = execute length js (execute length is m) := by
  induction is generalizing m with
  | nil => rfl
  | cons i is ih => exact ih _

/-! ### Programs in memory -/

/-- The instructions at their addresses. -/
abbrev Text : Type := Word → Option Instr

/-- Fetch and execute `n` instructions. -/
def run (text : Text) (length : Instr → Word) : ℕ → Machine → Option Machine
  | 0, m => some m
  | n + 1, m => (text m.eip).bind fun i => run text length n (i.exec (length i) m)

theorem run_one {text : Text} {length : Instr → Word} {m : Machine} {i : Instr}
    (h : text m.eip = some i) : run text length 1 m = some (i.exec (length i) m) := by
  rw [run, h, Option.bind_some, run]

/-- The instructions are in the text, one after the other from the address `a` on. -/
def Placed (text : Text) (length : Instr → Word) : Word → List Instr → Prop
  | _, [] => True
  | a, i :: is => text a = some i ∧ Placed text length (a + length i) is

namespace Instr

/-- The instruction is followed by the next one. -/
def IsSequential : Instr → Prop
  | movl _ _ | pushl _ | popl _ => True
  | call _ | ret => False

theorem IsSequential.eip {i : Instr} (h : i.IsSequential) (length : Word) (m : Machine) :
    (i.exec length m).eip = m.eip + length := by
  cases i with
  | movl src dst => rfl
  | pushl src => rfl
  | popl dst => rfl
  | call target => exact h.elim
  | ret => exact h.elim

end Instr

variable {text : Text} {length : Instr → Word}

theorem Placed.append {a : Word} (is : List Instr) {js : List Instr}
    (h : Placed text length a (is ++ js)) :
    Placed text length a is ∧ Placed text length (a + (is.map length).sum) js := by
  induction is generalizing a with
  | nil => exact ⟨trivial, by simpa using h⟩
  | cons i is ih =>
    obtain ⟨hi, h⟩ := h
    obtain ⟨his, hjs⟩ := ih h
    exact ⟨⟨hi, his⟩, by rwa [List.map_cons, List.sum_cons, ← BitVec.add_assoc]⟩

/-- Running a piece of the text is executing its instructions, if only the last one transfers
control. -/
theorem run_placed {is : List Instr} {m : Machine} (h : Placed text length m.eip is)
    (hs : ∀ i ∈ is.dropLast, i.IsSequential) :
    run text length is.length m = some (execute length is m) := by
  induction is generalizing m with
  | nil => rfl
  | cons i is ih =>
    obtain ⟨hi, h⟩ := h
    rw [List.length_cons, run, hi, Option.bind_some]
    cases is with
    | nil => rfl
    | cons j js =>
      have hi : i.IsSequential := hs i (by simp)
      exact ih (by rwa [hi.eip]) fun k hk => hs k (by
        rw [List.dropLast_cons_cons]
        exact List.mem_cons_of_mem i hk)

/-! ### The calling convention -/

/-- A function with `args` words of arguments was entered in the first state and has returned in
the second one: it went to its return address, which it took off the stack, kept the registers
that belong to its caller, and kept the stack of its caller above the arguments, up to the
address `base`. -/
structure Returns (base : Word) (args : ℕ) (m m' : Machine) : Prop where
  eip : m'.eip = m.top
  esp : m'.reg .esp = m.reg .esp + 4
  reg : ∀ r ∈ [Register.ebx, .esi, .edi, .ebp], m'.reg r = m.reg r
  memory : Set.EqOn m'.memory m.memory
    (Memory.between (m.reg .esp + 4 + 4 * BitVec.ofNat 32 args) base)

end Foundations.I386
