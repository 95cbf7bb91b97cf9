import Mathlib.Data.Finset.Insert
import Mathlib.Data.Finset.Erase
import Nachos.Foundations.Run
import Nachos.Machine.Fault
import Nachos.Threads.Switch

/-!
# Threads on one processor

All threads share the registers and the memory of one processor. Between the calls of `SWITCH`
compiled code runs; it is the environment of this model, and it is relied on to leave alone what
belongs to the threads that are not running: the saved registers in their objects and their
stacks, from the saved stack pointer on. What `new` allocates for a thread is relied on not to
overlap with what other threads have.

The kernel's model takes for granted what is proved here: a step of `Kernel.run` to a thread goes
on with the frames of that thread, and those that `Kernel.fork` gives a new one are the calls of
`ThreadRoot`.

## Main definitions

* `Layout`: where the threads have their objects and their stacks.
* `Processor`, `Processor.step`: the system, and `Allowed`, what its environment is relied on for.
* `SwitchReturns`: a call of `SWITCH` returns, after other threads have run.

## Main results

* `switch_returns`: from the point of view of its caller, `SWITCH` is a function that returns and
  changes no register, whatever the other threads do in between.
* `fork_starts`: a thread that is forked begins by calling `InterruptEnable`, then the function
  with its argument, and then `ThreadFinish`.
-/

namespace Nachos.Threads

open Foundations Foundations.I386 Foundations.Memory

/-- Where the threads have their objects and their stacks. -/
structure Layout (τ : Type) where
  object : τ → I386.Word
  /-- The lowest address of the stack. -/
  stack : τ → I386.Word
  /-- The address after the stack. -/
  stackEnd : τ → I386.Word

namespace Layout

variable {τ : Type} (l : Layout τ)

/-- The stack pointer that is saved in the object of a thread. -/
def stackTop (t : τ) (mem : Memory) : I386.Word := mem.load (l.object t + offset .esp)

/-- What a thread has in memory. -/
def region (t : τ) : Set I386.Word :=
  bytes (l.object t) savedBytes ∪ between (l.stack t) (l.stackEnd t)

/-- What a thread that is not running relies on: its saved registers and its stack, from the saved
stack pointer on. -/
def frame (t : τ) (mem : Memory) : Set I386.Word :=
  bytes (l.object t) savedBytes ∪ between (l.stackTop t mem) (l.stackEnd t)

/-- The stack of a thread is apart from its object, and both from `_eax_save`. -/
structure Own (sym : Symbols) (t : τ) : Prop where
  stack : Disjoint (bytes (l.object t) savedBytes) (between (l.stack t) (l.stackEnd t))
  eax_save : Disjoint (l.region t) (bytes sym.eax_save 4)

/-- There are `n` bytes from the address `s` to the end of the stack. -/
def Room (t : τ) (s : I386.Word) (n : ℕ) : Prop :=
  (s - l.stack t).toNat + n ≤ (l.stackEnd t - l.stack t).toNat

variable {l} {t : τ} {s : I386.Word} {n : ℕ}

theorem Room.between_subset (h : l.Room t s n) :
    between s (l.stackEnd t) ⊆ between (l.stack t) (l.stackEnd t) :=
  Memory.between_subset (le_trans (Nat.le_add_right _ n) h)

theorem Room.le (h : l.Room t s n) : n ≤ (l.stackEnd t - s).toNat := by
  rw [Room] at h
  bv_omega

theorem Room.bytes_subset (h : l.Room t s n) : bytes s n ⊆ l.region t :=
  (bytes_subset_between h.le).trans (h.between_subset.trans Set.subset_union_right)

theorem object_subset_region : bytes (l.object t) savedBytes ⊆ l.region t := Set.subset_union_left

theorem object_subset_frame (mem : Memory) : bytes (l.object t) savedBytes ⊆ l.frame t mem :=
  Set.subset_union_left

theorem frame_subset_region {mem : Memory} (h : l.Room t (l.stackTop t mem) n) :
    l.frame t mem ⊆ l.region t :=
  Set.union_subset_union_right _ h.between_subset

/-- A saved register is in the object. -/
theorem register_subset (r : Register) :
    bytes (l.object t + offset r) 4 ⊆ bytes (l.object t) savedBytes :=
  bytes_add_subset _ (by cases r <;> decide)

/-- A saved register is what it was, if the object is. -/
theorem load_register {mem mem' : Memory}
    (h : Set.EqOn mem' mem (bytes (l.object t) savedBytes)) (r : Register) :
    mem'.load (l.object t + offset r) = mem.load (l.object t + offset r) :=
  load_congr (h.mono (register_subset r))

theorem frame_congr {mem mem' : Memory} (h : Set.EqOn mem' mem (bytes (l.object t) savedBytes)) :
    l.frame t mem' = l.frame t mem := by
  rw [frame, frame, stackTop, stackTop, load_register h]

end Layout

/-! ### The system -/

/-- The processor, and the threads that have not been deleted. -/
structure Processor (τ : Type) where
  machine : I386.Machine
  currentThread : τ
  threads : Finset τ

/-- A step of the system. -/
inductive Action (τ : Type)
  /-- Compiled code runs until the machine is in the given state. -/
  | code (m : I386.Machine)
  /-- `StackAllocate` prepares a thread. -/
  | fork (t : τ) (func arg : I386.Word)
  /-- The call `SWITCH(oldThread, nextThread)` of `Scheduler::Run` is executed. -/
  | switch (next : τ)
  /-- A thread is deleted. -/
  | delete (t : τ)

variable {τ : Type} [DecidableEq τ]

section Step

variable (l : Layout τ) (sym : Symbols) (length : Instr → I386.Word)

namespace Processor

/-- One step. -/
def step (cpu : Processor τ) : Action τ → Except Fault (Processor τ)
  | .code m => .ok { cpu with machine := m }
  | .fork t func arg => .ok { cpu with
      machine := { cpu.machine with
        memory := stackAllocate sym (l.object t) (l.stack t) func arg cpu.machine.memory }
      threads := insert t cpu.threads }
  | .switch next => .ok { cpu with
      machine := execute length (SWITCH sym.eax_save) cpu.machine
      currentThread := next }
  | .delete t =>
    -- `Thread::~Thread` begins with `ASSERT(this != currentThread)`.
    if t = cpu.currentThread then .error .assertion
    else .ok { cpu with threads := cpu.threads.erase t }

end Processor

/-- What the compiled code and the allocator are relied on for. -/
def Allowed (cpu : Processor τ) : Action τ → Prop
  | .code m => ∀ t ∈ cpu.threads, t ≠ cpu.currentThread →
      Set.EqOn m.memory cpu.machine.memory (l.frame t cpu.machine.memory)
  | .fork t _ _ => t ∉ cpu.threads ∧ l.Own sym t ∧
      (l.stackEnd t - l.stack t).toNat = 4 * stackSize ∧
      ∀ u ∈ cpu.threads, Disjoint (l.region t) (l.region u)
  | .switch next => next ∈ cpu.threads ∧
      cpu.machine.memory.load (cpu.machine.reg .esp + 4) = l.object cpu.currentThread ∧
      cpu.machine.memory.load (cpu.machine.reg .esp + 8) = l.object next ∧
      l.Room cpu.currentThread (cpu.machine.reg .esp) 12
  | .delete _ => True

/-- The system starts with the main thread only. -/
def processorSystem : StepSystem (Processor τ) (Action τ) Fault where
  init cpu := cpu.threads = {cpu.currentThread} ∧ l.Own sym cpu.currentThread
  step := Processor.step l sym length

/-- The step neither switches to the thread nor deletes it. -/
def Action.Leaves (t : τ) : Action τ → Prop
  | .switch next => next ≠ t
  | .delete u => u ≠ t
  | _ => True

/-- Finitely many steps in which the thread `t` does not run. -/
def Suspends (t : τ) : Processor τ → Processor τ → Prop :=
  (processorSystem l sym length).Steps fun cpu a => Allowed l sym cpu a ∧ a.Leaves t

/-- A step that meets the conditions. -/
def Does (a : Action τ) (cpu cpu' : Processor τ) : Prop :=
  Allowed l sym cpu a ∧ cpu.step l sym length a = .ok cpu'

/-- The current thread of the first state calls `SWITCH`, and in the second state the call has
returned: at once, if it switched to itself, or else when it was switched to again. -/
def SwitchReturns (cpu cpu' : Processor τ) : Prop :=
  Does l sym length (.switch cpu.currentThread) cpu cpu' ∨
    ∃ next ≠ cpu.currentThread, ∃ cpu₁ cpu₂, Does l sym length (.switch next) cpu cpu₁ ∧
      Suspends l sym length cpu.currentThread cpu₁ cpu₂ ∧
      Does l sym length (.switch cpu.currentThread) cpu₂ cpu'

end Step

/-! ### The memory of the threads -/

section Separate

variable {l : Layout τ} {sym : Symbols} {length : Instr → I386.Word} {cpu cpu' : Processor τ}

variable (l sym) in
/-- The threads have their memory for themselves, and every thread that is not running has
room on its stack for what `SWITCH` reads and writes there. -/
structure Separate (cpu : Processor τ) : Prop where
  current : cpu.currentThread ∈ cpu.threads
  own : ∀ t ∈ cpu.threads, l.Own sym t
  disjoint : ∀ t ∈ cpu.threads, ∀ u ∈ cpu.threads, t ≠ u → Disjoint (l.region t) (l.region u)
  room : ∀ t ∈ cpu.threads, t ≠ cpu.currentThread →
    l.Room t (l.stackTop t cpu.machine.memory) 12

variable (l sym) in
/-- The memory when `SWITCH` has saved the registers of the current thread. -/
def Processor.saving (cpu : Processor τ) : Memory :=
  saved sym.eax_save (l.object cpu.currentThread) cpu.machine

omit [DecidableEq τ] in
/-- Saving the registers leaves alone what is apart from the object of the current thread and
from `_eax_save`. -/
theorem Separate.saving_eqOn (h : Separate l sym cpu) {t : τ} (ht : t ∈ cpu.threads)
    (htc : t ≠ cpu.currentThread) :
    Set.EqOn (cpu.saving l sym) cpu.machine.memory (l.region t) :=
  saved_eqOn.mono (Set.subset_compl_iff_disjoint_right.mpr (Set.disjoint_union_right.mpr
    ⟨(h.disjoint t ht _ h.current htc).mono_right Layout.object_subset_region,
      (h.own t ht).eax_save⟩))

/-- Every thread is given a stack pointer with room above it. -/
theorem Separate.room_saving (h : Separate l sym cpu) {next : τ}
    (ha : Allowed l sym cpu (.switch next)) :
    l.Room next (l.stackTop next (cpu.saving l sym)) 12 := by
  obtain ⟨hnext, -, -, hroom⟩ := ha
  by_cases hc : next = cpu.currentThread
  · subst hc
    rw [Layout.stackTop, Processor.saving, saved_offset]
    exact hroom
  · have heq := (h.saving_eqOn hnext hc).mono Layout.object_subset_region
    rw [Layout.stackTop, Layout.load_register heq]
    exact h.room next hnext hc

variable (length) in
/-- What a switch does. -/
theorem Separate.switch_spec (h : Separate l sym cpu) {next : τ}
    (ha : Allowed l sym cpu (.switch next)) :
    let mem := cpu.saving l sym
    let m' := execute length (SWITCH sym.eax_save) cpu.machine
    (∀ r ≠ Register.esp, m'.reg r = mem.load (l.object next + offset r)) ∧
      m'.reg .esp = l.stackTop next mem + 4 ∧ m'.eip = mem.load (l.stackTop next mem) ∧
      Set.EqOn m'.memory mem
        (bytes (l.stackTop next mem + 4) 4 ∪ bytes sym.eax_save 4)ᶜ := by
  have hroom := h.room_saving ha
  obtain ⟨hnext, hold, hnew, hroom'⟩ := ha
  have hown := h.own _ h.current
  have hown' := h.own _ hnext
  have hstack : bytes (cpu.machine.reg .esp) 12 ⊆ between (l.stack cpu.currentThread)
      (l.stackEnd cpu.currentThread) :=
    (bytes_subset_between hroom'.le).trans hroom'.between_subset
  exact execute_SWITCH length hold hnew
    (hown.eax_save.mono_left (hstack.trans Set.subset_union_right))
    (hown.stack.symm.mono_left hstack)
    (hown.eax_save.mono_left Layout.object_subset_region)
    (hown'.eax_save.mono_left Layout.object_subset_region) rfl
    (hown'.eax_save.mono_left ((bytes_subset _ (by decide)).trans hroom.bytes_subset))

variable (length) in
/-- A switch writes to the two threads only. -/
theorem Separate.switch_eqOn (h : Separate l sym cpu) {next : τ}
    (ha : Allowed l sym cpu (.switch next)) {t : τ} (ht : t ∈ cpu.threads) (hnext : t ≠ next) :
    Set.EqOn (execute length (SWITCH sym.eax_save) cpu.machine).memory (cpu.saving l sym)
      (l.region t) := by
  obtain ⟨-, -, -, hmem⟩ := h.switch_spec length ha
  have hroom := h.room_saving ha
  have hword : bytes (l.stackTop next (cpu.saving l sym) + 4) 4 ⊆ l.region next :=
    (bytes_add_subset _ (by decide)).trans hroom.bytes_subset
  exact hmem.mono (Set.subset_compl_iff_disjoint_right.mpr (Set.disjoint_union_right.mpr
    ⟨(h.disjoint t ht next ha.1 hnext).mono_right hword, (h.own t ht).eax_save⟩))

/-! ### One step -/

/-- A step leaves alone what a thread relies on that it does not concern. -/
theorem Separate.step_frame (h : Separate l sym cpu) {a : Action τ}
    (hs : Does l sym length a cpu cpu') {t : τ} (hl : a.Leaves t) (ht : t ∈ cpu.threads)
    (htc : t ≠ cpu.currentThread) :
    t ∈ cpu'.threads ∧ t ≠ cpu'.currentThread ∧
      Set.EqOn cpu'.machine.memory cpu.machine.memory (l.frame t cpu.machine.memory) := by
  obtain ⟨ha, hs⟩ := hs
  have hregion : l.frame t cpu.machine.memory ⊆ l.region t :=
    Layout.frame_subset_region (h.room t ht htc)
  cases a with
  | code m =>
    obtain rfl := Except.ok.inj hs
    exact ⟨ht, htc, ha t ht htc⟩
  | fork u func arg =>
    obtain rfl := Except.ok.inj hs
    obtain ⟨hu, hown, hsize, hdisjoint⟩ := ha
    refine ⟨Finset.mem_insert_of_mem ht, htc, (stackAllocate_eqOn.mono ?_).mono hregion⟩
    rw [Set.subset_compl_iff_disjoint_right, ← hsize]
    exact (hdisjoint t ht).symm
  | switch next =>
    obtain rfl := Except.ok.inj hs
    have hnext : t ≠ next := fun h => hl h.symm
    exact ⟨ht, hnext,
      ((h.switch_eqOn length ha ht hnext).trans (h.saving_eqOn ht htc)).mono hregion⟩
  | delete u =>
    simp only [Processor.step] at hs
    split_ifs at hs
    obtain rfl := Except.ok.inj hs
    exact ⟨Finset.mem_erase.mpr ⟨fun h => hl h.symm, ht⟩, htc, Set.eqOn_refl _ _⟩

omit [DecidableEq τ] in
/-- The stack pointer of a new thread has room above it. -/
theorem room_stackAllocate {t : τ} {func arg : I386.Word} {mem : Memory} (hown : l.Own sym t)
    (hsize : (l.stackEnd t - l.stack t).toNat = 4 * stackSize) :
    l.Room t (l.stackTop t (stackAllocate sym (l.object t) (l.stack t) func arg mem)) 12 := by
  have hstack := hown.stack
  rw [between, hsize] at hstack
  rw [Layout.stackTop, (stackAllocate_spec _ _ _ _ hstack).1, Layout.Room, hsize, firstStackTop,
    add_sub_self]
  decide

/-- Every step keeps the memory of the threads apart. -/
theorem Separate.step (h : Separate l sym cpu) {a : Action τ}
    (hs : Does l sym length a cpu cpu') : Separate l sym cpu' := by
  have hkept (t : τ) (hl : a.Leaves t) (ht : t ∈ cpu.threads) (htc : t ≠ cpu.currentThread) :
      l.Room t (l.stackTop t cpu'.machine.memory) 12 := by
    obtain ⟨-, -, heq⟩ := h.step_frame hs hl ht htc
    rw [Layout.stackTop, Layout.load_register (heq.mono (Layout.object_subset_frame _))]
    exact h.room t ht htc
  obtain ⟨ha, hs⟩ := hs
  cases a with
  | code m =>
    obtain rfl := Except.ok.inj hs
    exact ⟨h.current, h.own, h.disjoint, fun t ht htc => hkept t trivial ht htc⟩
  | fork u func arg =>
    obtain rfl := Except.ok.inj hs
    obtain ⟨hu, hown, hsize, hdisjoint⟩ := ha
    refine ⟨Finset.mem_insert_of_mem h.current, ?_, ?_, ?_⟩
    · rw [Finset.forall_mem_insert]
      exact ⟨hown, h.own⟩
    · intro t ht v hv htv
      rcases Finset.mem_insert.mp ht with rfl | ht' <;>
        rcases Finset.mem_insert.mp hv with rfl | hv'
      · exact absurd rfl htv
      · exact hdisjoint v hv'
      · exact (hdisjoint t ht').symm
      · exact h.disjoint t ht' v hv' htv
    · intro t ht htc
      rcases Finset.mem_insert.mp ht with rfl | ht'
      · exact room_stackAllocate hown hsize
      · exact hkept t trivial ht' htc
  | switch next =>
    obtain rfl := Except.ok.inj hs
    refine ⟨ha.1, h.own, h.disjoint, fun t ht hnext => ?_⟩
    by_cases htc : t = cpu.currentThread
    · -- the thread that is switched out has its stack pointer saved
      subst htc
      rw [Layout.stackTop, Layout.load_register
        ((h.switch_eqOn length ha ht hnext).mono Layout.object_subset_region), Processor.saving,
        saved_offset]
      exact ha.2.2.2
    · exact hkept t (fun h => hnext h.symm) ht htc
  | delete u =>
    simp only [Processor.step] at hs
    split_ifs at hs with hu
    obtain rfl := Except.ok.inj hs
    refine ⟨Finset.mem_erase.mpr ⟨fun h => hu h.symm, h.current⟩,
      fun t ht => h.own t (Finset.mem_of_mem_erase ht),
      fun t ht v hv => h.disjoint t (Finset.mem_of_mem_erase ht) v (Finset.mem_of_mem_erase hv),
      fun t ht htc => h.room t (Finset.mem_of_mem_erase ht) htc⟩

/-- The memory of the threads stays apart while a thread does not run, and what that thread
relies on is left alone. -/
theorem Separate.suspends (h : Separate l sym cpu) {t : τ}
    (hs : Suspends l sym length t cpu cpu') (ht : t ∈ cpu.threads) (htc : t ≠ cpu.currentThread) :
    Separate l sym cpu' ∧ t ∈ cpu'.threads ∧ t ≠ cpu'.currentThread ∧
      Set.EqOn cpu'.machine.memory cpu.machine.memory (l.frame t cpu.machine.memory) := by
  refine hs.invariant (fun c => Separate l sym c ∧ t ∈ c.threads ∧ t ≠ c.currentThread ∧
    Set.EqOn c.machine.memory cpu.machine.memory (l.frame t cpu.machine.memory))
    ⟨h, ht, htc, Set.eqOn_refl _ _⟩ ?_
  rintro c a c' ⟨h, ht, htc, heq⟩ ⟨ha, hl⟩ hs
  obtain ⟨ht', htc', heq'⟩ := h.step_frame ⟨ha, hs⟩ hl ht htc
  rw [Layout.frame_congr (heq.mono (Layout.object_subset_frame _))] at heq'
  exact ⟨h.step ⟨ha, hs⟩, ht', htc', heq'.trans heq⟩

theorem Separate.of_reachable
    (h : (processorSystem l sym length).Reachable (Allowed l sym) cpu) : Separate l sym cpu := by
  refine h.invariant (Separate l sym) ?_ fun c a c' h ha hs => h.step ⟨ha, hs⟩
  rintro c ⟨hthreads, hown⟩
  have hmem {t : τ} (ht : t ∈ c.threads) : t = c.currentThread := by
    rw [hthreads] at ht
    exact Finset.mem_singleton.mp ht
  refine ⟨hthreads ▸ Finset.mem_singleton_self _, fun t ht => hmem ht ▸ hown, ?_,
    fun t ht htc => absurd (hmem ht) htc⟩
  intro t ht u hu htu
  exact absurd ((hmem ht).trans (hmem hu).symm) htu

end Separate

/-! ### Contexts -/

section Context

variable {l : Layout τ} {sym : Symbols} {length : Instr → I386.Word} {cpu cpu' : Processor τ}

variable (l) in
/-- The memory holds what the thread needs to go on as if the call of `SWITCH` that it has made in
the state `m` had returned. -/
structure Holds (t : τ) (m : I386.Machine) (mem : Memory) : Prop where
  reg : ∀ r, mem.load (l.object t + offset r) = m.reg r
  stack : Set.EqOn mem m.memory (between (m.reg .esp) (l.stackEnd t))

omit [DecidableEq τ] in
theorem Holds.frame {t : τ} {m : I386.Machine} {mem : Memory} (h : Holds l t m mem) :
    l.frame t mem = bytes (l.object t) savedBytes ∪ between (m.reg .esp) (l.stackEnd t) := by
  rw [Layout.frame, Layout.stackTop, h.reg]

omit [DecidableEq τ] in
/-- A thread goes on relying on what is left alone. -/
theorem Holds.congr {t : τ} {m : I386.Machine} {mem mem' : Memory} (h : Holds l t m mem)
    (heq : Set.EqOn mem' mem (l.frame t mem)) : Holds l t m mem' := by
  refine ⟨fun r => ?_, (heq.mono ?_).trans h.stack⟩
  · rw [Layout.load_register (heq.mono (Layout.object_subset_frame _)), h.reg]
  · rw [h.frame]
    exact Set.subset_union_right

omit [DecidableEq τ] in
/-- When `SWITCH` has saved the registers, the memory holds the context of the current thread. -/
theorem Separate.holds_saving (h : Separate l sym cpu)
    (hroom : l.Room cpu.currentThread (cpu.machine.reg .esp) 12) :
    Holds l cpu.currentThread cpu.machine (cpu.saving l sym) := by
  refine ⟨fun r => saved_offset r, saved_eqOn.mono ?_⟩
  have hown := h.own _ h.current
  exact Set.subset_compl_iff_disjoint_right.mpr (Set.disjoint_union_right.mpr
    ⟨hown.stack.symm.mono_left hroom.between_subset,
      hown.eax_save.mono_left (hroom.between_subset.trans Set.subset_union_right)⟩)

/-- A switch to a thread whose context the memory holds returns from the call of `SWITCH` that the
thread has made, with all registers as they were. -/
theorem Separate.switch_of_holds (h : Separate l sym cpu) {t : τ} {m : I386.Machine}
    (hs : Does l sym length (.switch t) cpu cpu') (hm : Holds l t m (cpu.saving l sym)) :
    Returns (l.stackEnd t) 2 m cpu'.machine ∧
      ∀ r ≠ Register.esp, cpu'.machine.reg r = m.reg r := by
  obtain ⟨ha, hs⟩ := hs
  obtain rfl := Except.ok.inj hs
  obtain ⟨hreg, hesp, heip, hmem⟩ := h.switch_spec length ha
  have hroom := h.room_saving ha
  rw [Layout.stackTop, hm.reg] at hesp heip hmem hroom
  have hreg' (r : Register) (hr : r ≠ .esp) :
      (execute length (SWITCH sym.eax_save) cpu.machine).reg r = m.reg r := by
    rw [hreg r hr, hm.reg]
  refine ⟨⟨?_, hesp, ?_, ?_⟩, hreg'⟩
  · rw [heip]
    exact load_congr (hm.stack.mono (bytes_subset_between (le_trans (by decide) hroom.le)))
  · intro r hr
    refine hreg' r ?_
    rintro rfl
    exact absurd hr (by decide)
  · have hargs : m.reg .esp + 4 + 4 * BitVec.ofNat 32 2 = m.reg .esp + 12 := by bv_omega
    have hrest : between (m.reg .esp + 12) (l.stackEnd t) ⊆ between (m.reg .esp) (l.stackEnd t) :=
      bytes_add_subset _ (by have := hroom.le; bv_omega)
    have hword : Disjoint (between (m.reg .esp + 12) (l.stackEnd t)) (bytes (m.reg .esp + 4) 4) :=
      (disjoint_bytes_add _ (by decide) (by have := hroom.le; bv_omega)).symm
    rw [hargs]
    refine (hmem.mono (Set.subset_compl_iff_disjoint_right.mpr (Set.disjoint_union_right.mpr
      ⟨hword, ?_⟩))).trans (hm.stack.mono hrest)
    exact (h.own t ha.1).eax_save.mono_left
      (hrest.trans (hroom.between_subset.trans Set.subset_union_right))

omit [DecidableEq τ] in
/-- If the memory holds a context, it still does when the registers of another thread have been
saved. -/
theorem Separate.holds_saving_of_ne (h : Separate l sym cpu) {t : τ} {m : I386.Machine}
    (ht : t ∈ cpu.threads) (htc : t ≠ cpu.currentThread) (hm : Holds l t m cpu.machine.memory) :
    Holds l t m (cpu.saving l sym) :=
  hm.congr ((h.saving_eqOn ht htc).mono (Layout.frame_subset_region (h.room t ht htc)))

/-- A thread that has not been running goes on with the context that the memory held when it
stopped running. -/
theorem Separate.resume (h : Separate l sym cpu) {t : τ} {m : I386.Machine}
    {cpu₁ : Processor τ} (ht : t ∈ cpu.threads) (htc : t ≠ cpu.currentThread)
    (hm : Holds l t m cpu.machine.memory) (hrun : Suspends l sym length t cpu cpu₁)
    (hs : Does l sym length (.switch t) cpu₁ cpu') :
    Returns (l.stackEnd t) 2 m cpu'.machine ∧
      ∀ r ≠ Register.esp, cpu'.machine.reg r = m.reg r := by
  obtain ⟨h₁, ht₁, htc₁, heq⟩ := h.suspends hrun ht htc
  exact h₁.switch_of_holds hs (h₁.holds_saving_of_ne ht₁ htc₁ (hm.congr heq))

/-! ### New threads -/

variable (l) in
/-- The context in memory of a thread that is not running. -/
def contextIn (t : τ) (mem : Memory) : I386.Machine where
  reg r := mem.load (l.object t + offset r)
  eip := 0
  memory := mem

omit [DecidableEq τ] in
theorem holds_contextIn (t : τ) (mem : Memory) : Holds l t (contextIn l t mem) mem :=
  ⟨fun _ => rfl, Set.eqOn_refl _ _⟩

variable (l sym length) in
/-- The thread `t` is forked in the first state, and in the second one it has been switched to for
the first time. -/
def ForkStarts (t : τ) (func arg : I386.Word) (cpu cpu' : Processor τ) : Prop :=
  ∃ cpu₁ cpu₂, Does l sym length (.fork t func arg) cpu cpu₁ ∧
    Suspends l sym length t cpu₁ cpu₂ ∧ Does l sym length (.switch t) cpu₂ cpu'

/-- The registers and the stack with which a new thread starts. -/
theorem Separate.forkStarts (h : Separate l sym cpu) {t : τ} {func arg : I386.Word}
    (hs : ForkStarts l sym length t func arg cpu cpu') :
    let m := cpu'.machine
    m.eip = sym.ThreadRoot ∧ m.reg .ecx = sym.InterruptEnable ∧ m.reg .esi = func ∧
      m.reg .edx = arg ∧ m.reg .edi = sym.ThreadFinish ∧
      m.reg .esp = firstStackTop (l.stack t) + 4 ∧
      (l.stackEnd t - l.stack t).toNat = 4 * stackSize := by
  obtain ⟨cpu₁, cpu₂, hfork, hrun, hswitch⟩ := hs
  have h₁ := h.step hfork
  obtain ⟨⟨ht, hown, hsize, -⟩, hfork⟩ := hfork
  obtain rfl := Except.ok.inj hfork
  have hstack := hown.stack
  rw [between, hsize] at hstack
  have htc : t ≠ cpu.currentThread := fun h' => ht (h' ▸ h.current)
  obtain ⟨hret, hreg⟩ := h₁.resume (Finset.mem_insert_self _ _) htc (holds_contextIn t _) hrun
    hswitch
  obtain ⟨hesp, htop, hecx, hesi, hedx, hedi⟩ := stackAllocate_spec sym func
    arg cpu.machine.memory hstack
  refine ⟨?_, (hreg _ (by decide)).trans hecx, (hreg _ (by decide)).trans hesi,
    (hreg _ (by decide)).trans hedx, (hreg _ (by decide)).trans hedi, ?_, hsize⟩
  · rw [hret.eip, I386.Machine.top, contextIn]
    simpa only [hesp] using htop
  · rw [hret.esp, contextIn]
    simp only [hesp]

end Context

/-! ### Two threads -/

section TwoThreads

variable {l : Layout τ} {sym : Symbols} {cpu : Processor τ}

omit [DecidableEq τ] in
/-- Code that writes to the memory of the current thread only is allowed. -/
theorem Separate.allowed_code (h : Separate l sym cpu) {m : I386.Machine}
    (hm : Set.EqOn m.memory cpu.machine.memory (l.region cpu.currentThread)ᶜ) :
    Allowed l sym cpu (.code m) := fun t ht htc =>
  hm.mono ((Layout.frame_subset_region (h.room t ht htc)).trans
    (Set.subset_compl_iff_disjoint_right.mpr (h.disjoint t ht _ h.current htc)))

/-- A stack with a call `SWITCH(t, u)` on top. -/
def callSWITCH (l : Layout τ) (t u : τ) (esp : I386.Word) (m : I386.Machine) : I386.Machine :=
  { m with
    reg := Function.update m.reg .esp esp
    memory := store (esp + 4) (l.object t) (store (esp + 8) (l.object u) m.memory) }

omit [DecidableEq τ] in
theorem callSWITCH_eqOn {t u : τ} {esp : I386.Word} (h : l.Room t esp 12) (m : I386.Machine) :
    Set.EqOn (callSWITCH l t u esp m).memory m.memory (l.region t)ᶜ := by
  intro b hb
  have h₄ : b ∉ bytes (esp + 4) 4 := fun hb' =>
    hb (h.bytes_subset (bytes_add_subset _ (by decide) hb'))
  have h₈ : b ∉ bytes (esp + 8) 4 := fun hb' =>
    hb (h.bytes_subset (bytes_add_subset _ (by decide) hb'))
  exact (store_of_notMem _ _ h₄).trans (store_of_notMem _ _ h₈)

omit [DecidableEq τ] in
/-- The call may be executed. -/
theorem allowed_switch {t u : τ} {esp : I386.Word} (hcur : cpu.currentThread = t)
    (hu : u ∈ cpu.threads) (h : l.Room t esp 12) :
    Allowed l sym { cpu with machine := callSWITCH l t u esp cpu.machine } (.switch u) := by
  subst hcur
  refine ⟨hu, ?_, ?_, ?_⟩
  · simp only [callSWITCH, Function.update_self, load_store]
  · simp only [callSWITCH, Function.update_self,
      load_store_of_disjoint _ _ (disjoint_words esp (i := 8) (j := 4) (by decide)), load_store]
  · simpa only [callSWITCH, Function.update_self] using h

/-- A main thread (`false`) and another one. -/
def twoThreads : Layout Bool where
  object t := if t then 0x2000 else 0x1000
  stack t := if t then 0x30000 else 0x10000
  stackEnd t := if t then 0x34000 else 0x20000

def someSymbols : Symbols where
  SWITCH := 0x400
  ThreadRoot := 0x500
  InterruptEnable := 0x600
  ThreadFinish := 0x700
  eax_save := 0x800

theorem own_twoThreads (t : Bool) : twoThreads.Own someSymbols t where
  stack := by cases t <;> exact disjoint_bytes (by decide) (by decide)
  eax_save := by
    rw [Layout.region, Set.disjoint_union_left]
    cases t <;>
      exact ⟨disjoint_bytes (by decide) (by decide), disjoint_bytes (by decide) (by decide)⟩

theorem disjoint_twoThreads : Disjoint (twoThreads.region true) (twoThreads.region false) := by
  rw [Layout.region, Layout.region, Set.disjoint_union_left, Set.disjoint_union_right,
    Set.disjoint_union_right]
  exact ⟨⟨disjoint_bytes (by decide) (by decide), disjoint_bytes (by decide) (by decide)⟩,
    disjoint_bytes (by decide) (by decide), disjoint_bytes (by decide) (by decide)⟩

/-- The main thread alone. -/
def mainThread : Processor Bool where
  machine := ⟨fun _ => 0, 0, fun _ => 0⟩
  currentThread := false
  threads := {false}

/-- The other thread is forked with the function at `0x900` and the argument 7 and is switched to
for the first time; then it switches back. -/
theorem mainThread_run (length : Instr → I386.Word) :
    ∃ cpu cpu₁ cpu₂ : Processor Bool,
      ForkStarts twoThreads someSymbols length true 0x900 7 mainThread cpu₁ ∧
      (processorSystem twoThreads someSymbols length).Reachable
        (Allowed twoThreads someSymbols) cpu ∧
      cpu.currentThread = false ∧ SwitchReturns twoThreads someSymbols length cpu cpu₂ := by
  let next (t u : Bool) (esp : I386.Word) (cpu : Processor Bool) : Processor Bool :=
    { cpu with machine := callSWITCH twoThreads t u esp cpu.machine }
  let fork : Processor Bool := { mainThread with
    machine := { mainThread.machine with
      memory := stackAllocate someSymbols 0x2000 0x30000 0x900 7 mainThread.machine.memory }
    threads := {true, false} }
  have hroom₀ : twoThreads.Room false 0x18000 12 := by unfold Layout.Room; decide
  have hroom₁ : twoThreads.Room true 0x33000 12 := by unfold Layout.Room; decide
  have hmem : false ∈ ({true, false} : Finset Bool) := by decide
  have h₀ : (processorSystem twoThreads someSymbols length).Reachable
      (Allowed twoThreads someSymbols) mainThread := .init ⟨rfl, own_twoThreads false⟩
  have hfork : Does twoThreads someSymbols length (.fork true 0x900 7) mainThread fork := by
    refine ⟨⟨by decide, own_twoThreads true, by decide, fun u hu => ?_⟩, rfl⟩
    rw [Finset.mem_singleton.mp hu]
    exact disjoint_twoThreads
  have h₁ := h₀.step hfork.1 hfork.2
  have hcode := (Separate.of_reachable h₁).allowed_code (callSWITCH_eqOn (u := true) hroom₀ _)
  have h₂ : (processorSystem twoThreads someSymbols length).Reachable
      (Allowed twoThreads someSymbols) (next false true 0x18000 fork) := h₁.step hcode rfl
  have hout : Allowed twoThreads someSymbols (next false true 0x18000 fork) (.switch true) :=
    allowed_switch rfl (by decide) hroom₀
  obtain ⟨back, hback⟩ : ∃ back, (next false true 0x18000 fork).step twoThreads someSymbols length
    (.switch true) = .ok back := ⟨_, rfl⟩
  have h₃ := h₂.step hout hback
  obtain rfl := Except.ok.inj hback
  have hcode' := (Separate.of_reachable h₃).allowed_code (callSWITCH_eqOn (u := false) hroom₁ _)
  refine ⟨_, _, _, ⟨fork, _, hfork, .tail (.refl _) ⟨hcode, trivial⟩ rfl, hout, hback⟩, h₂, rfl,
    .inr ⟨true, by decide, _, _, ⟨hout, hback⟩,
      .tail (.refl _) ⟨hcode', trivial⟩ rfl, allowed_switch rfl hmem hroom₁, rfl⟩⟩

end TwoThreads

/-! ### What a thread sees -/

section Main

variable {l : Layout τ} {sym : Symbols} {length : Instr → I386.Word} {cpu cpu' : Processor τ}

/-- From the point of view of the thread that calls it, `SWITCH` is a function of two arguments
that returns as the calling convention says, and changes no other register either. -/
theorem switch_returns (h : (processorSystem l sym length).Reachable (Allowed l sym) cpu)
    (hs : SwitchReturns l sym length cpu cpu') :
    Returns (l.stackEnd cpu.currentThread) 2 cpu.machine cpu'.machine ∧
      ∀ r ≠ Register.esp, cpu'.machine.reg r = cpu.machine.reg r := by
  have hsep := Separate.of_reachable h
  rcases hs with hself | ⟨next, hnext, cpu₁, cpu₂, hout, hrun, hin⟩
  · exact hsep.switch_of_holds hself (hsep.holds_saving hself.1.2.2.2)
  · have h₁ := hsep.step hout
    obtain ⟨ha, hout⟩ := hout
    obtain rfl := Except.ok.inj hout
    have hm := (hsep.holds_saving ha.2.2.2).congr ((hsep.switch_eqOn length ha
      hsep.current hnext.symm).mono (Layout.frame_subset_region (n := 12) ?_))
    · exact h₁.resume hsep.current hnext.symm hm hrun hin
    · rw [Layout.stackTop, Processor.saving, saved_offset]
      exact ha.2.2.2

/-- Two switches, there and back. -/
theorem switch_returns_of_mainThread :
    ∃ cpu cpu' : Processor Bool,
      SwitchReturns twoThreads someSymbols (fun _ => 2) cpu cpu' ∧
      Returns 0x20000 2 cpu.machine cpu'.machine ∧
      ∀ r ≠ Register.esp, cpu'.machine.reg r = cpu.machine.reg r := by
  obtain ⟨cpu, _, cpu', -, hreach, hcur, hs⟩ := mainThread_run fun _ => 2
  have h := switch_returns hreach hs
  rw [hcur] at h
  exact ⟨cpu, cpu', hs, h⟩

/-- A thread that is forked begins in `ThreadRoot`: it calls `InterruptEnable`, then its function
with its argument, and then `ThreadFinish`, if the first two return. -/
theorem fork_starts {text : Text} (htext : Placed text length sym.ThreadRoot threadRoot)
    (h : (processorSystem l sym length).Reachable (Allowed l sym) cpu) {t : τ}
    {func arg : I386.Word} (hs : ForkStarts l sym length t func arg cpu cpu') :
    ∃ m₁, run text length 4 cpu'.machine = some m₁ ∧ m₁.eip = sym.InterruptEnable ∧
    ∀ m₁', Returns (l.stackEnd t) 0 m₁ m₁' → ∃ m₂, run text length 1 m₁' = some m₂ ∧
      m₂.eip = func ∧ m₂.memory.load (m₂.reg .esp + 4) = arg ∧
    ∀ m₂', Returns (l.stackEnd t) 1 m₂ m₂' → ∃ m₃, run text length 1 m₂' = some m₃ ∧
      m₃.eip = sym.ThreadFinish := by
  obtain ⟨heip, hecx, hesi, hedx, hedi, hesp, hsize⟩ :=
    (Separate.of_reachable h).forkStarts hs
  rw [← heip] at htext
  rw [← hecx, ← hesi, ← hedx, ← hedi]
  refine threadRoot_calls length htext ?_
  rw [hesp, firstStackTop]
  rw [stackSize] at hsize
  bv_omega

/-- The other thread calls `InterruptEnable` first. -/
theorem fork_starts_of_mainThread :
    ∃ cpu' : Processor Bool,
      ForkStarts twoThreads someSymbols (fun _ => 2) true 0x900 7 mainThread cpu' ∧
      ∃ m₁, run (fun a => threadRoot[(a - 0x500).toNat / 2]?) (fun _ => 2) 4 cpu'.machine =
        some m₁ ∧ m₁.eip = 0x600 := by
  obtain ⟨_, cpu', _, hs, -, -, -⟩ := mainThread_run fun _ => 2
  have htext : Placed (fun a => threadRoot[(a - 0x500).toNat / 2]?) (fun _ => 2)
      someSymbols.ThreadRoot threadRoot :=
    ⟨rfl, rfl, rfl, rfl, rfl, rfl, rfl, rfl, rfl, trivial⟩
  obtain ⟨m₁, hrun, heip, -⟩ := fork_starts htext
    (.init ⟨rfl, own_twoThreads false⟩) hs
  exact ⟨cpu', hs, m₁, hrun, heip⟩

end Main

end Nachos.Threads
