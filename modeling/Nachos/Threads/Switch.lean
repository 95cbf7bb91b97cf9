import Nachos.Foundations.I386

/-!
# The context switch on the i386

`Scheduler::Run` calls `SWITCH`, which saves the registers in the object of the thread that is
switched out, loads those of the thread that is switched in, and returns. It returns to the
address on top of the stack it has loaded, so a thread that was switched out goes on after its
own call of `SWITCH`, and a thread that `StackAllocate` has prepared goes to `ThreadRoot`. The
stack pointer and the registers are the first members of a `Thread`, at the offsets of
`switch.h`.

## Main definitions

* `offset`, `offsetPC`: the offsets of `switch.h`.
* `SWITCH`, `threadRoot`: the text of `switch.s`.
* `stackAllocate`: what `Thread::StackAllocate` writes.

## Main results

* `execute_switchSave`, `saved_offset`, `saved_eqOn`: the first half saves every register and
  writes nothing else.
* `execute_switchRestore`: the second half loads every register.
* `execute_SWITCH`: both together.
* `stackAllocate_spec`, `stackAllocate_eqOn`: what is loaded at the first switch.
-/

namespace Nachos.Threads

open Foundations Foundations.I386 Foundations.Memory Function

/-- `_ESP`, `_EAX`, …, `_EDI`. -/
def offset : Register → I386.Word
  | .esp => 0
  | .eax => 4
  | .ebx => 8
  | .ecx => 12
  | .edx => 16
  | .ebp => 20
  | .esi => 24
  | .edi => 28

/-- `_PC`. -/
def offsetPC : I386.Word := 32

/-- The bytes of a `Thread` that `SWITCH` uses. -/
abbrev savedBytes : ℕ := 36

/-- The addresses that the linker chooses. -/
structure Symbols where
  SWITCH : I386.Word
  ThreadRoot : I386.Word
  InterruptEnable : I386.Word
  ThreadFinish : I386.Word
  eax_save : I386.Word

/-! ### The text -/

/-- `SWITCH`, as far as it saves the registers of the first argument. -/
def switchSave (eaxSave : I386.Word) : List Instr :=
  [.movl (.reg .eax) (.symbol eaxSave),
   .movl (.indirect 4 .esp) (.reg .eax),
   .movl (.reg .ebx) (.indirect (offset .ebx) .eax),
   .movl (.reg .ecx) (.indirect (offset .ecx) .eax),
   .movl (.reg .edx) (.indirect (offset .edx) .eax),
   .movl (.reg .esi) (.indirect (offset .esi) .eax),
   .movl (.reg .edi) (.indirect (offset .edi) .eax),
   .movl (.reg .ebp) (.indirect (offset .ebp) .eax),
   .movl (.reg .esp) (.indirect (offset .esp) .eax),
   .movl (.symbol eaxSave) (.reg .ebx),
   .movl (.reg .ebx) (.indirect (offset .eax) .eax),
   .movl (.indirect 0 .esp) (.reg .ebx),
   .movl (.reg .ebx) (.indirect offsetPC .eax)]

/-- The rest of `SWITCH`: it loads the registers of the second argument. The return address that
was saved is written over the first argument of the loaded stack; `ret` takes the one below. -/
def switchRestore (eaxSave : I386.Word) : List Instr :=
  [.movl (.indirect 8 .esp) (.reg .eax),
   .movl (.indirect (offset .eax) .eax) (.reg .ebx),
   .movl (.reg .ebx) (.symbol eaxSave),
   .movl (.indirect (offset .ebx) .eax) (.reg .ebx),
   .movl (.indirect (offset .ecx) .eax) (.reg .ecx),
   .movl (.indirect (offset .edx) .eax) (.reg .edx),
   .movl (.indirect (offset .esi) .eax) (.reg .esi),
   .movl (.indirect (offset .edi) .eax) (.reg .edi),
   .movl (.indirect (offset .ebp) .eax) (.reg .ebp),
   .movl (.indirect (offset .esp) .eax) (.reg .esp),
   .movl (.indirect offsetPC .eax) (.reg .eax),
   .movl (.reg .eax) (.indirect 4 .esp),
   .movl (.symbol eaxSave) (.reg .eax),
   .ret]

/-- `SWITCH`. -/
def SWITCH (eaxSave : I386.Word) : List Instr := switchSave eaxSave ++ switchRestore eaxSave

/-- `ThreadRoot`, with `StartupPC`, `InitialPC`, `InitialArg` and `WhenDonePC` in the registers
that `switch.h` names. -/
def threadRoot : List Instr :=
  [.pushl (.reg .ebp),
   .movl (.reg .esp) (.reg .ebp),
   .pushl (.reg .edx),
   .call .ecx,
   .call .esi,
   .call .edi,
   .movl (.reg .ebp) (.reg .esp),
   .popl .ebp,
   .ret]

variable (length : Instr → I386.Word) {eaxSave object : I386.Word} {m : I386.Machine}

/-! ### Saving -/

/-- The memory when the registers have been saved. -/
def saved (eaxSave object : I386.Word) (m : I386.Machine) : Memory :=
  store (object + offsetPC) m.top <|
  store (object + offset .eax) (m.reg .eax) <|
  store (object + offset .esp) (m.reg .esp) <|
  store (object + offset .ebp) (m.reg .ebp) <|
  store (object + offset .edi) (m.reg .edi) <|
  store (object + offset .esi) (m.reg .esi) <|
  store (object + offset .edx) (m.reg .edx) <|
  store (object + offset .ecx) (m.reg .ecx) <|
  store (object + offset .ebx) (m.reg .ebx) <|
  store eaxSave (m.reg .eax) m.memory

/-- What the first half of `SWITCH` does, called on a stack apart from `_eax_save` and the thread
object. -/
theorem execute_switchSave (ho : m.memory.load (m.reg .esp + 4) = object)
    (hse : Disjoint (bytes (m.reg .esp) 12) (bytes eaxSave 4))
    (hso : Disjoint (bytes (m.reg .esp) 12) (bytes object savedBytes))
    (hoe : Disjoint (bytes object savedBytes) (bytes eaxSave 4)) :
    (execute length (switchSave eaxSave) m).memory = saved eaxSave object m ∧
      (execute length (switchSave eaxSave) m).reg .esp = m.reg .esp := by
  have hoe' (i : I386.Word) (hi : i.toNat + 4 ≤ savedBytes) :
      Disjoint (bytes eaxSave 4) (bytes (object + i) 4) :=
    (hoe.mono_left (bytes_add_subset _ hi)).symm
  have hse' (i : I386.Word) (hi : i.toNat + 4 ≤ 12) :
      Disjoint (bytes (m.reg .esp + i) 4) (bytes eaxSave 4) :=
    hse.mono_left (bytes_add_subset _ hi)
  have hso' (i : I386.Word) (hi : i.toNat + 4 ≤ savedBytes) :
      Disjoint (bytes (m.reg .esp + 0) 4) (bytes (object + i) 4) :=
    hso.mono (bytes_add_subset _ (by decide)) (bytes_add_subset _ hi)
  have htop : m.top = m.memory.load (m.reg .esp + 0) := by simp [I386.Machine.top]
  simp (disch := first | decide | (apply hoe'; decide) | (apply hse'; decide) |
      (apply hso'; decide)) only [execute, switchSave, Instr.exec, I386.Machine.read,
      I386.Machine.write, update_self, update_of_ne, load_store_of_disjoint, load_store, ho, htop,
      saved, and_self]

/-- Every register has been saved. -/
theorem saved_offset (r : Register) :
    (saved eaxSave object m).load (object + offset r) = m.reg r := by
  cases r <;> simp (disch := (apply disjoint_words; decide)) only [saved, load_store_of_disjoint,
    load_store]

/-- Nothing else has been written. -/
theorem saved_eqOn :
    Set.EqOn (saved eaxSave object m) m.memory (bytes object savedBytes ∪ bytes eaxSave 4)ᶜ := by
  intro b hb
  rw [Set.mem_compl_iff, Set.mem_union, not_or] at hb
  have ho (i : I386.Word) (hi : i.toNat + 4 ≤ savedBytes) : b ∉ bytes (object + i) 4 :=
    fun h => hb.1 (bytes_add_subset _ hi h)
  simp (disch := first | exact hb.2 | (apply ho; decide)) only [saved, store_of_notMem]

/-! ### Restoring -/

/-- What the second half of `SWITCH` does, when it loads a stack apart from `_eax_save`. -/
theorem execute_switchRestore (s : I386.Word) (ho : m.memory.load (m.reg .esp + 8) = object)
    (hs : m.memory.load (object + offset .esp) = s)
    (hoe : Disjoint (bytes object savedBytes) (bytes eaxSave 4))
    (hse : Disjoint (bytes s 8) (bytes eaxSave 4)) :
    (∀ r ≠ Register.esp, (execute length (switchRestore eaxSave) m).reg r =
      m.memory.load (object + offset r)) ∧
    (execute length (switchRestore eaxSave) m).reg .esp = s + 4 ∧
    (execute length (switchRestore eaxSave) m).eip = m.memory.load s ∧
    (execute length (switchRestore eaxSave) m).memory =
      store (s + 4) (m.memory.load (object + offsetPC))
        (store eaxSave (m.memory.load (object + offset .eax)) m.memory) := by
  have hoe' (i : I386.Word) (hi : i.toNat + 4 ≤ savedBytes) :
      Disjoint (bytes (object + i) 4) (bytes eaxSave 4) :=
    hoe.mono_left (bytes_add_subset _ hi)
  have hse₀ : Disjoint (bytes s 4) (bytes eaxSave 4) := hse.mono_left (bytes_subset _ (by decide))
  have hse₁ : Disjoint (bytes eaxSave 4) (bytes (s + 4) 4) :=
    (hse.mono_left (bytes_add_subset _ (by decide))).symm
  have hs' : Disjoint (bytes s 4) (bytes (s + 4) 4) := by
    simpa using disjoint_words s (i := 0) (j := 4) (by decide)
  refine ⟨fun r hr => ?_, ?_⟩
  · cases r <;>
      simp (disch := first | decide | assumption | (apply hoe'; decide)) only [execute,
        switchRestore, Instr.exec, I386.Machine.read, I386.Machine.write, I386.Machine.pop,
        I386.Machine.top, update_self, update_of_ne, load_store_of_disjoint, load_store, ho, hs]
    contradiction
  · simp (disch := first | decide | assumption | (apply hoe'; decide)) only [execute,
      switchRestore, Instr.exec, I386.Machine.read, I386.Machine.write, I386.Machine.pop,
      I386.Machine.top, update_self, update_of_ne, load_store_of_disjoint, load_store, ho, hs,
      and_self]

/-! ### The whole of `SWITCH` -/

/-- What `SWITCH` does, called on a stack apart from `_eax_save` and the thread objects: with the
registers of the old thread saved, it loads those of the new one and returns on its stack. -/
theorem execute_SWITCH {new s : I386.Word} (ho : m.memory.load (m.reg .esp + 4) = object)
    (hn : m.memory.load (m.reg .esp + 8) = new)
    (hse : Disjoint (bytes (m.reg .esp) 12) (bytes eaxSave 4))
    (hso : Disjoint (bytes (m.reg .esp) 12) (bytes object savedBytes))
    (hoe : Disjoint (bytes object savedBytes) (bytes eaxSave 4))
    (hne : Disjoint (bytes new savedBytes) (bytes eaxSave 4))
    (hs : (saved eaxSave object m).load (new + offset .esp) = s)
    (hse' : Disjoint (bytes s 8) (bytes eaxSave 4)) :
    (∀ r ≠ Register.esp, (execute length (SWITCH eaxSave) m).reg r =
      (saved eaxSave object m).load (new + offset r)) ∧
    (execute length (SWITCH eaxSave) m).reg .esp = s + 4 ∧
    (execute length (SWITCH eaxSave) m).eip = (saved eaxSave object m).load s ∧
    Set.EqOn (execute length (SWITCH eaxSave) m).memory (saved eaxSave object m)
      (bytes (s + 4) 4 ∪ bytes eaxSave 4)ᶜ := by
  obtain ⟨hmem, hesp⟩ := execute_switchSave length ho hse hso hoe
  have hargs : bytes (m.reg .esp + 8) 4 ⊆ bytes (m.reg .esp) 12 := bytes_add_subset _ (by decide)
  have hn' : (saved eaxSave object m).load (m.reg .esp + 8) = new := by
    rw [← hn]
    exact load_congr (saved_eqOn.mono (Set.subset_compl_iff_disjoint_right.mpr
      (Set.disjoint_union_right.mpr ⟨hso.mono_left hargs, hse.mono_left hargs⟩)))
  rw [SWITCH, execute_append]
  obtain ⟨hreg, hesp', heip, hmem'⟩ := execute_switchRestore length s
    (show _ = new by rw [hmem, hesp, hn']) (by rw [hmem, hs]) hne hse'
  rw [hmem] at hreg heip hmem'
  refine ⟨hreg, hesp', heip, fun b hb => ?_⟩
  rw [Set.mem_compl_iff, Set.mem_union, not_or] at hb
  rw [hmem', store_of_notMem _ _ hb.1, store_of_notMem _ _ hb.2]

/-- From its address on, `SWITCH` runs as its instructions say. -/
theorem run_SWITCH {text : Text} (h : Placed text length m.eip (SWITCH eaxSave)) :
    run text length (SWITCH eaxSave).length m = some (execute length (SWITCH eaxSave) m) :=
  run_placed h (by simp [SWITCH, switchSave, switchRestore, Instr.IsSequential])

/-! ### The first frame of a thread -/

/-- `StackSize`, in words. -/
def stackSize : ℕ := 4 * 1024

/-- `STACK_FENCEPOST`. -/
def stackFencepost : I386.Word := 0xdeadbeef

/-- The address of `machineState[i]`, which follows `stackTop` in a `Thread`. -/
def machineState (object : I386.Word) (i : ℕ) : I386.Word := object + 4 + 4 * BitVec.ofNat 32 i

/-- `PCState`, `StartupPCState`, …: the index in `machineState` of what is at an offset. -/
def stateIndex (offset : I386.Word) : ℕ := offset.toNat / 4 - 1

/-- `Thread::StackAllocate`, for a stack that `AllocBoundedArray` has returned. -/
def stackAllocate (sym : Symbols) (object stack func arg : I386.Word) (mem : Memory) : Memory :=
  let stackTop := stack + 4 * BitVec.ofNat 32 (stackSize - 4)
  store (machineState object (stateIndex (offset .edi))) sym.ThreadFinish <|
  store (machineState object (stateIndex (offset .edx))) arg <|
  store (machineState object (stateIndex (offset .esi))) func <|
  store (machineState object (stateIndex (offset .ecx))) sym.InterruptEnable <|
  store (machineState object (stateIndex offsetPC)) sym.ThreadRoot <|
  store stack stackFencepost <|
  store (stackTop - 4) sym.ThreadRoot <|
  store object (stackTop - 4) <|
  store object stackTop mem

/-- The entries of `machineState` are at the offsets that `SWITCH` uses. -/
theorem machineState_stateIndex {i : I386.Word} (h : 4 * (i.toNat / 4) = i.toNat)
    (hi : 4 ≤ i.toNat) : machineState object (stateIndex i) = object + i := by
  rw [machineState, stateIndex]
  bv_omega

section StackAllocate

variable {sym : Symbols} {stack func arg : I386.Word} {mem : Memory}

/-- The stack pointer with which a new thread waits: on top of its stack is the address of
`ThreadRoot`. -/
def firstStackTop (stack : I386.Word) : I386.Word := stack + 16364

/-- The words that `StackAllocate` writes, by their offsets. -/
theorem stackAllocate_eq : stackAllocate sym object stack func arg mem =
    (store (object + offset .edi) sym.ThreadFinish <|
    store (object + offset .edx) arg <|
    store (object + offset .esi) func <|
    store (object + offset .ecx) sym.InterruptEnable <|
    store (object + offsetPC) sym.ThreadRoot <|
    store (stack + 0) stackFencepost <|
    store (firstStackTop stack) sym.ThreadRoot <|
    store (object + offset .esp) (firstStackTop stack) <|
    store (object + offset .esp) (stack + 16368) mem) := by
  have htop : stack + 4 * BitVec.ofNat 32 (stackSize - 4) = stack + 16368 := rfl
  have htop' : stack + 16368 - 4 = firstStackTop stack := by
    rw [firstStackTop]
    bv_omega
  have hzero (a : I386.Word) : a + 0 = a := BitVec.add_zero a
  simp (disch := decide) only [stackAllocate, machineState_stateIndex, htop, htop', offset, hzero]

variable (sym func arg mem) in
/-- What `SWITCH` loads when it switches to the new thread for the first time. -/
theorem stackAllocate_spec (h : Disjoint (bytes object savedBytes) (bytes stack (4 * stackSize))) :
    (stackAllocate sym object stack func arg mem).load (object + offset .esp) =
        firstStackTop stack ∧
      (stackAllocate sym object stack func arg mem).load (firstStackTop stack) = sym.ThreadRoot ∧
      (stackAllocate sym object stack func arg mem).load (object + offset .ecx) =
        sym.InterruptEnable ∧
      (stackAllocate sym object stack func arg mem).load (object + offset .esi) = func ∧
      (stackAllocate sym object stack func arg mem).load (object + offset .edx) = arg ∧
      (stackAllocate sym object stack func arg mem).load (object + offset .edi) =
        sym.ThreadFinish := by
  have hos (i j : I386.Word) (hi : i.toNat + 4 ≤ savedBytes) (hj : j.toNat + 4 ≤ 4 * stackSize) :
      Disjoint (bytes (object + i) 4) (bytes (stack + j) 4) :=
    h.mono (bytes_add_subset _ hi) (bytes_add_subset _ hj)
  have hso (i j : I386.Word) (hi : i.toNat + 4 ≤ savedBytes) (hj : j.toNat + 4 ≤ 4 * stackSize) :
      Disjoint (bytes (stack + j) 4) (bytes (object + i) 4) := (hos i j hi hj).symm
  rw [stackAllocate_eq]
  simp (disch := first | (apply disjoint_words; decide) | (apply hos <;> decide) |
    (apply hso <;> decide)) only [firstStackTop, load_store_of_disjoint, load_store, and_self]

/-- `StackAllocate` writes to the thread object and to the new stack only. -/
theorem stackAllocate_eqOn : Set.EqOn (stackAllocate sym object stack func arg mem) mem
    (bytes object savedBytes ∪ bytes stack (4 * stackSize))ᶜ := by
  intro b hb
  rw [Set.mem_compl_iff, Set.mem_union, not_or] at hb
  have ho (i : I386.Word) (hi : i.toNat + 4 ≤ savedBytes) : b ∉ bytes (object + i) 4 :=
    fun h => hb.1 (bytes_add_subset _ hi h)
  have hs (i : I386.Word) (hi : i.toNat + 4 ≤ 4 * stackSize) : b ∉ bytes (stack + i) 4 :=
    fun h => hb.2 (bytes_add_subset _ hi h)
  rw [stackAllocate_eq]
  simp (disch := first | (apply ho; decide) | (apply hs; decide)) only [firstStackTop,
    store_of_notMem]

end StackAllocate

/-! ### `ThreadRoot` -/

/-- `ThreadRoot` up to its first call. -/
def threadRootEnter : List Instr :=
  [.pushl (.reg .ebp), .movl (.reg .esp) (.reg .ebp), .pushl (.reg .edx), .call .ecx]

theorem execute_threadRootEnter :
    (execute length threadRootEnter m).eip = m.reg .ecx ∧
      (execute length threadRootEnter m).top = m.eip + (threadRootEnter.map length).sum ∧
      (execute length threadRootEnter m).reg .esp = m.reg .esp + (-12) ∧
      (execute length threadRootEnter m).reg .esi = m.reg .esi ∧
      (execute length threadRootEnter m).reg .edi = m.reg .edi ∧
      (execute length threadRootEnter m).memory.load (m.reg .esp + (-8)) = m.reg .edx := by
  have hsub (i : I386.Word) : m.reg .esp + i - 4 = m.reg .esp + (i - 4) := by bv_omega
  have hsub₀ : m.reg .esp - 4 = m.reg .esp + (-4) := by bv_omega
  have h₈ : (-4 - 4 : I386.Word) = -8 := rfl
  have h₁₂ : (-8 - 4 : I386.Word) = -12 := rfl
  have hsum : (threadRootEnter.map length).sum = length (.pushl (.reg .ebp)) +
      (length (.movl (.reg .esp) (.reg .ebp)) + (length (.pushl (.reg .edx)) +
        length (.call .ecx))) := by
    simp [threadRootEnter]
  rw [hsum]
  simp (disch := first | decide | (apply disjoint_words; decide)) only [execute, threadRootEnter,
    Instr.exec, I386.Machine.push, I386.Machine.read, I386.Machine.write, I386.Machine.top,
    update_self, update_of_ne, load_store, load_store_of_disjoint, hsub, hsub₀, h₈, h₁₂,
    BitVec.add_assoc, and_self]

/-- `ThreadRoot` calls what is in `ecx`, then what is in `esi`, with the word that is in `edx` as
the argument, and then what is in `edi`, if the first two return. -/
theorem threadRoot_calls {text : Text} {base : I386.Word}
    (hplaced : Placed text length m.eip threadRoot)
    (hbase : 4 ≤ (base - (m.reg .esp + (-8))).toNat) :
    ∃ m₁, run text length 4 m = some m₁ ∧ m₁.eip = m.reg .ecx ∧
    ∀ m₁', Returns base 0 m₁ m₁' → ∃ m₂, run text length 1 m₁' = some m₂ ∧
      m₂.eip = m.reg .esi ∧ m₂.memory.load (m₂.reg .esp + 4) = m.reg .edx ∧
    ∀ m₂', Returns base 1 m₂ m₂' → ∃ m₃, run text length 1 m₂' = some m₃ ∧
      m₃.eip = m.reg .edi := by
  obtain ⟨henter, hrest⟩ := Placed.append threadRootEnter hplaced
  obtain ⟨hesi, hedi, -⟩ := hrest
  obtain ⟨heip, htop, hesp, hesi', hedi', harg⟩ := execute_threadRootEnter length (m := m)
  refine ⟨_, run_placed henter (by simp [threadRootEnter, Instr.IsSequential]), heip, ?_⟩
  intro m₁' h₁
  rw [← htop, ← h₁.eip] at hesi
  have hesp₁ : m₁'.reg .esp = m.reg .esp + (-8) := by
    rw [h₁.esp, hesp]
    bv_omega
  have harg₁ : m₁'.memory.load (m.reg .esp + (-8)) = m.reg .edx := by
    rw [← harg]
    refine load_congr (h₁.memory.mono ?_)
    have hframe : m.reg .esp + (-12) + 4 + 4 * BitVec.ofNat 32 0 = m.reg .esp + (-8) := by bv_omega
    rw [hesp, hframe]
    exact bytes_subset_between hbase
  refine ⟨_, run_one hesi, ?_, ?_, fun m₂' h₂ => ⟨_, run_one (i := .call .edi) ?_, ?_⟩⟩
  · -- the instruction pointer after `call *%esi`
    exact (h₁.reg .esi (by decide)).trans hesi'
  · simp (disch := decide) only [Instr.exec, I386.Machine.push, update_self, hesp₁]
    have hargs : m.reg .esp + (-8) - 4 + 4 = m.reg .esp + (-8) := by bv_omega
    have hpush : m.reg .esp + (-8) - 4 = m.reg .esp + (-12) := by bv_omega
    rw [hargs, hpush, load_store_of_disjoint _ _ (disjoint_words _ (by decide)), harg₁]
  · rw [h₂.eip]
    simp only [Instr.exec, I386.Machine.push, I386.Machine.top, update_self, load_store]
    rwa [h₁.eip, htop]
  · exact (h₂.reg .edi (by decide)).trans ((h₁.reg .edi (by decide)).trans hedi')

end Nachos.Threads
