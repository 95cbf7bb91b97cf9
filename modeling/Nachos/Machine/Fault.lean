import Mathlib.Tactic.TypeStar

/-!
# Ways in which a run of Nachos stops

Nachos is a C++ program that simulates a machine. Besides `Halt`, a run of it stops at a failed
`ASSERT`, which aborts the simulator, or at an operation for which C++ defines no behaviour.
-/

namespace Nachos

/-- Why a run has no further state. -/
inductive Fault
  /-- An `ASSERT` failed and the simulator aborted. -/
  | assertion
  /-- A null pointer was dereferenced. -/
  | nullPointer
  /-- An operation without a defined behaviour: an access outside an object or to a deleted
  one, or a signed overflow. -/
  | undefined
  /-- A loop used up its fuel. -/
  | outOfFuel
  /-- `Interrupt::Halt` was called. -/
  | halt
  /-- The environment's input does not fit the code that is executing. -/
  | disabled
  deriving DecidableEq, Repr

end Nachos
