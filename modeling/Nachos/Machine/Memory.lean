import Mathlib.Algebra.Group.Int.Defs
import Mathlib.Algebra.Group.Nat.Defs
import Mathlib.Data.Nat.Notation
import Mathlib.Data.Int.Notation
import Mathlib.Tactic.Common

/-!
# Main memory and page tables

The constants of `machine.h`, main memory as bytes by their addresses, and the entries of page
tables.

## Main definitions

* `ExceptionType`, `TranslationEntry`.
* `MainMemory.store`, `MainMemory.bzero`: bytes written at consecutive addresses.
-/

namespace Nachos

/-- `PageSize`, which is the `SectorSize` of the disk. -/
abbrev pageSize : ℕ := 256

/-- `NumPhysPages`. -/
abbrev numPhysPages : ℕ := 32

/-- `MemorySize`. -/
abbrev memorySize : ℕ := numPhysPages * pageSize

/-- `ExceptionType`. -/
inductive ExceptionType
  | noException
  | syscallException
  | pageFaultException
  | readOnlyException
  | busErrorException
  | addressErrorException
  | overflowException
  | illegalInstrException
  deriving DecidableEq, Repr

/-- `TranslationEntry`: an entry of a page table. -/
structure TranslationEntry where
  virtualPage : ℕ
  physicalPage : ℕ
  valid : Bool
  readOnly : Bool
  use : Bool
  dirty : Bool
  deriving DecidableEq, Repr

/-- `machine->mainMemory`. Only addresses below `memorySize` belong to it; that no other address
is accessed is for the accesses to check. -/
abbrev MainMemory : Type := ℕ → BitVec 8

/-- The wrap-around of a C `int`. -/
def int32 (x : ℤ) : ℤ := x.bmod (2 ^ 32)

namespace MainMemory

/-- Store bytes at consecutive addresses. -/
def store (mem : MainMemory) (start : ℕ) (bytes : List (BitVec 8)) : MainMemory := fun a =>
  if start ≤ a ∧ a < start + bytes.length then bytes.getD (a - start) 0 else mem a

/-- `bzero`. -/
def bzero (mem : MainMemory) (start len : ℕ) : MainMemory := fun a =>
  if start ≤ a ∧ a < start + len then 0 else mem a

theorem store_of_lt (mem : MainMemory) {start a : ℕ} (bytes : List (BitVec 8)) (h : a < start) :
    mem.store start bytes a = mem a :=
  if_neg (by omega)

theorem store_of_le (mem : MainMemory) {start a : ℕ} (bytes : List (BitVec 8))
    (h : start + bytes.length ≤ a) : mem.store start bytes a = mem a :=
  if_neg (by omega)

theorem store_of_mem (mem : MainMemory) {start a : ℕ} (bytes : List (BitVec 8)) (h : start ≤ a)
    (h' : a < start + bytes.length) :
    mem.store start bytes a = bytes.getD (a - start) 0 :=
  if_pos ⟨h, h'⟩

theorem bzero_of_notMem (mem : MainMemory) {start len a : ℕ} (h : ¬(start ≤ a ∧ a < start + len)) :
    mem.bzero start len a = mem a :=
  if_neg h

end MainMemory

end Nachos
