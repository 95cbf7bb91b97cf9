import Nachos.Threads.Switches
import Nachos.UserProg.MemoryIsolation
import Nachos.UserProg.ProcessTable

/-!
# The kernel keeps processes apart

A process executes its program only while its own page table is installed: `RestoreState` installs
it whenever the thread is switched in, and `InitRegisters` before the program begins. Hence an
instruction changes the memory of its own process only, and what it loads or gives back does not
concern the frames of others.

## Main definitions

* `UserInput.TransfersWithin`, `UserInput.LoadsInside`: what is asked of the environment.
* `MemoryEffect`: what an instruction does to the memory.
* `UserKernel.Isolated`: the invariant.

## Main results

* `memoryEffect_of_instruction`: an instruction has one of these effects.
* `UserKernel.Isolated.step`: a step keeps the invariant.
-/

namespace Nachos.UserProg

open Foundations Threads Machine Function

/-! ### Instructions and the memory -/

/-- `Read` and `Write` change main memory in the pages of the page table only. They access it with
`ReadMem` and `WriteMem`. -/
def UserInput.TransfersWithin (input : UserInput) : Prop :=
  ∀ m m', input.transfer m = .ok m' → m.Within m'

/-- The segments of the executable lie inside the address space that it requests. -/
def UserInput.LoadsInside (input : UserInput) : Prop :=
  ∀ file ∈ input.executable, ∀ noffH, readHeader file input.junk.stack = .ok noffH →
    ∀ seg ∈ noffH.loaded, seg.Inside noffH.numPages

/-- The next instruction is this system call. -/
def UserState.Calls (s : UserState) (type : Word) : Prop :=
  ∃ s₁, s.trapped = some s₁ ∧ s₁.registers.gpr 2 = type

/-- What an instruction of the process `t` does to the memory. -/
inductive MemoryEffect (memAll : MemAll) (t : ℕ) (input : UserInput) (s s' : UserState) : Prop
  /-- It changes the memory of the process itself. -/
  | confined (h : MemoryState.Confined t s.memory s'.memory)
  /-- It loads a new process. -/
  | load (m : MemoryState) (h : MemoryState.Confined t s.memory m) (hcalls : s.Calls 2)
    (file : OpenFile) (hfile : file ∈ input.executable) (space : AddrSpace)
    (map : BitMap numPhysPages) (mainMemory : MainMemory)
    (hnew : AddrSpace.new memAll file input.junk m.map m.mainMemory = .ok (space, map, mainMemory))
    (hid : s'.processId = s.processId + 1)
    (hmemory : s'.memory = ⟨map, mainMemory, update m.space (s.processId + 1) (some space)⟩)
  /-- It gives the memory of the process back. -/
  | exit (m : MemoryState) (h : MemoryState.Confined t s.memory m) (space space' : AddrSpace)
    (map : BitMap numPhysPages) (mainMemory : MainMemory) (hspace : m.space t = some space)
    (hdelete : space.delete m.map m.mainMemory = .ok (space', map, mainMemory))
    (hmemory : s'.memory = ⟨map, mainMemory, update m.space t none⟩)

section Instruction

variable {s s' : UserState} {m m' : Machine} {t : ℕ} {memAll : MemAll} {isMain : Bool}
  {input : UserInput} {calls : List UserCall}

theorem Reads.within {α : Type} {o : Option α} (h : Reads m o m') : m.Within m' := by
  obtain h | ⟨-, m₁, badVAddr, h, rfl⟩ := h
  · exact h.within
  · exact IsTrans.trans _ _ _ h.within (within_trap m₁ badVAddr)

/-- The machine has changed main memory in the pages of the page table that is installed. -/
theorem confined_setMachine (h : s.memory.Mapped) (ht : s.installed = some t)
    (hm : s.machine = .ok m) (hw : m.Within m') :
    MemoryState.Confined t s.memory (s.setMachine m').memory := by
  obtain ⟨u, space, pageTable, hi, hs, hp, rfl⟩ := UserState.machine_eq_ok.1 hm
  obtain rfl : t = u := Option.some.inj (ht.symm.trans hi)
  refine ⟨rfl, fun u hu => ?_, ?_, fun a ha => hw.outside a fun hmem => ha ?_⟩
  · simp [UserState.setMachine, hi, hu]
  · simp [UserState.setMachine, hi, hs, AddrSpace.footprint, hp, hw.pages]
  · rw [MemoryState.frames_of_eq_some hs]
    exact h.pages t space hs pageTable hp _ hmem

theorem memoryEffect_of_exec (h : s.memory.Mapped) (ht : s.installed = some t)
    (hcalls : s.Calls 2) {s₁ : UserState} (hs₁ : MemoryState.Confined t s.memory s₁.memory)
    (hi : s₁.installed = s.installed) (hid : s₁.processId = s.processId)
    (hexec : exec memAll isMain t input s₁ = .ok (s', calls)) :
    MemoryEffect memAll t input s s' := by
  obtain ⟨-, m, filename, m', hm, hname, hcases⟩ := exec_eq_ok hexec
  have hc := hs₁.trans (confined_setMachine (h.confined hs₁) (hi.trans ht) hm
    (reads_of_fileName hname).within)
  obtain ⟨-, rfl, -⟩ | ⟨name, -, ⟨-, rfl, -⟩ | ⟨file, hfile, hload⟩⟩ := hcases
  · exact .confined hc
  · exact .confined hc
  · obtain ⟨space, map, mainMemory, hnew, rfl, -⟩ := load_eq_ok hload
    refine .load _ hc hcalls file hfile space map mainMemory hnew ?_ ?_ <;> rw [← hid] <;> rfl

/-- A system call. -/
theorem memoryEffect_of_syscall (h : s.memory.Mapped) (ht : s.installed = some t) {s₁ : UserState}
    (htrapped : s.trapped = some s₁) (hs₁ : MemoryState.Confined t s.memory s₁.memory)
    (hi : s₁.installed = s.installed) (hid : s₁.processId = s.processId)
    (htransfer : s.Calls 6 ∨ s.Calls 7 → input.TransfersWithin)
    (hsyscall : syscall memAll isMain t input s₁ = .ok (s', calls)) :
    MemoryEffect memAll t input s s' := by
  dsimp only [syscall] at hsyscall
  split_ifs at hsyscall with h0 h1 h2 h3 h6
  · obtain ⟨space, space', map, mainMemory, _, _, _, hspace, hdelete, -, -, rfl, -⟩ :=
      exit_eq_ok hsyscall
    exact .exit _ hs₁ space space' map mainMemory hspace hdelete rfl
  · exact memoryEffect_of_exec h ht ⟨s₁, htrapped, h2⟩ hs₁ hi hid hsyscall
  · obtain ⟨registers, rfl⟩ := registers_of_join hsyscall
    exact .confined hs₁
  · obtain ⟨m, hm, hsyscall⟩ := bind_eq_ok.1 hsyscall
    obtain ⟨m', hm', hsyscall⟩ := bind_eq_ok.1 hsyscall
    cases hsyscall
    have hwithin := htransfer (h6.imp (fun h6 => ⟨s₁, htrapped, h6⟩) fun h7 => ⟨s₁, htrapped, h7⟩)
    exact .confined (hs₁.trans (confined_setMachine (h.confined hs₁) (hi.trans ht) hm
      (hwithin m m' hm')))
  · cases hsyscall
    exact .confined hs₁
  · cases hsyscall
    exact .confined hs₁

/-- While its page table is installed, an instruction of a process has one of these effects. -/
theorem memoryEffect_of_instruction (h : s.memory.Mapped) (ht : s.installed = some t)
    (htransfer : s.Calls 6 ∨ s.Calls 7 → input.TransfersWithin)
    (hinstr : instruction memAll isMain t input s = .ok (s', calls)) :
    MemoryEffect memAll t input s s' := by
  obtain ⟨m, hm, hinstr⟩ := bind_eq_ok.1 hinstr
  have hw := respects_execute.related m
  rcases hx : execute.outcome m with ⟨(⟨which, badVAddr⟩ | f) | _, m'⟩
  · rw [hx] at hw
    have hw' : m.Within (m'.trap badVAddr) := IsTrans.trans _ _ _ hw (within_trap m' badVAddr)
    have hc := confined_setMachine h ht hm hw'
    simp only [hx] at hinstr
    split_ifs at hinstr with hs
    · have htrapped : s.trapped = some (s.setMachine (m'.trap badVAddr)) := by
        simp only [UserState.trapped, hm, hx, if_pos hs]
      exact memoryEffect_of_syscall h ht htrapped hc rfl rfl htransfer hinstr
    · obtain ⟨m₁, hm₁, hinstr⟩ := bind_eq_ok.1 hinstr
      cases hinstr
      obtain rfl := eq_of_exceptionHandler hm₁
      exact .confined hc
  · simp only [hx] at hinstr
    cases hinstr
  · rw [hx] at hw
    simp only [hx] at hinstr
    cases hinstr
    exact .confined (confined_setMachine h ht hm hw)

/-! ### What the effects preserve -/

theorem MemoryState.Confined.isSome {m m' : MemoryState} (h : MemoryState.Confined t m m') (u : ℕ) :
    (m'.space u).isSome = (m.space u).isSome := by
  have hu := congrArg Option.isSome (h.footprint u)
  rwa [Option.isSome_map, Option.isSome_map] at hu

/-- The address spaces belong to PIDs that have been issued. -/
def UserState.Issued (s : UserState) : Prop :=
  ∀ u, (s.memory.space u).isSome → 1 ≤ u ∧ u ≤ s.processId

theorem UserState.Issued.space_eq_none (h : s.Issued) {u : ℕ} (hu : s.processId < u) :
    s.memory.space u = none := by
  by_contra hne
  have := (h u (Option.isSome_iff_ne_none.2 hne)).2
  omega

namespace MemoryEffect

variable {p : ℕ}

theorem mapped (he : MemoryEffect memAll t input s s') (h : s.memory.Mapped) (hs : s.Issued)
    (ht : s.Loaded t) : s'.memory.Mapped := by
  obtain ⟨space₀, hspace₀, hfound⟩ := ht
  cases he with
  | confined hc => exact h.confined hc
  | load m hc hcalls file hfile space map mainMemory hnew hid hmemory =>
    rw [hmemory]
    refine (h.confined hc).construct ?_ hnew
    have hu := hc.isSome (s.processId + 1)
    rw [hs.space_eq_none (Nat.lt_succ_self _)] at hu
    exact Option.isNone_iff_eq_none.1 (by simpa using hu)
  | exit m hc space space' map mainMemory hspace hdelete hmemory =>
    rw [hmemory]
    refine (h.confined hc).destroy hspace ?_ hdelete
    have hself := hc.self
    rw [hspace, Option.mem_def.1 hspace₀, Option.map_some, Option.map_some,
      Option.some_inj] at hself
    exact (congrArg (·.2.2.2) hself).trans hfound

theorem issued (he : MemoryEffect memAll t input s s') (hs : s.Issued)
    (hle : s.processId ≤ s'.processId) : s'.Issued := by
  intro u hu
  have hof (hu : (s.memory.space u).isSome) : 1 ≤ u ∧ u ≤ s'.processId :=
    ⟨(hs u hu).1, (hs u hu).2.trans hle⟩
  cases he with
  | confined hc => exact hof (hc.isSome u ▸ hu)
  | load m hc hcalls file hfile space map mainMemory hnew hid hmemory =>
    by_cases hpid : u = s.processId + 1
    · omega
    · rw [hmemory] at hu
      exact hof (hc.isSome u ▸ by simpa [hpid] using hu)
  | exit m hc space space' map mainMemory hspace hdelete hmemory =>
    by_cases hut : u = t
    · simp [hmemory, hut] at hu
    · rw [hmemory] at hu
      exact hof (hc.isSome u ▸ by simpa [hut] using hu)

/-- The memory of another process stays as it is. -/
theorem spares (he : MemoryEffect memAll t input s s') (h : s.memory.Mapped)
    (hload : s.Calls 2 → input.LoadsInside) (hp : p ≠ t) (hpid : p ≤ s.processId) :
    MemoryState.Spares p s.memory s'.memory := by
  cases he with
  | confined hc => exact h.spares_confined hc hp
  | load m hc hcalls file hfile space map mainMemory hnew hid hmemory =>
    rw [hmemory]
    exact (h.spares_confined hc hp).trans
      ((h.confined hc).spares_construct (hload hcalls file hfile) hnew (by omega))
  | exit m hc space space' map mainMemory hspace hdelete hmemory =>
    rw [hmemory]
    exact (h.spares_confined hc hp).trans ((h.confined hc).spares_destroy hspace hdelete hp)

end MemoryEffect

/-! ### Code -/

/-- What a piece of code does to the memory. -/
theorem memory_of_code {merged : Bool} {code : UserCode}
    (hexec : (userClient memAll merged).exec t code input s = .ok (s', calls)) :
    code = .startProcess ∨ code = .run ∨ s'.memory = s.memory ∧ s'.processId = s.processId := by
  cases code with
  | startProcess => exact .inl rfl
  | run => exact .inr (.inl rfl)
  | processCreator | countProcess | uncountProcess | joined | yielded =>
    obtain ⟨rfl, -⟩ := Prod.mk.inj (Except.ok.inj hexec)
    exact .inr (.inr ⟨rfl, rfl⟩)
  | initRegisters =>
    simp only [userClient] at hexec
    split at hexec
    · cases hexec
    · obtain ⟨rfl, -⟩ := Prod.mk.inj (Except.ok.inj hexec)
      exact .inr (.inr ⟨rfl, rfl⟩)
  | append a pid =>
    obtain ⟨list, -, heq⟩ := map_eq_ok.1 hexec
    obtain ⟨rfl, -⟩ := Prod.mk.inj heq
    exact .inr (.inr ⟨rfl, rfl⟩)

theorem installed_of_effect (h : Effect memAll t input s s' calls) :
    s'.installed = s.installed ∧ s'.userRegisters = s.userRegisters := by
  cases h with
  | machine h | yield h | join h | execFailed _ h => exact ⟨h.installed, h.userRegisters⟩
  | load file hlt h hload =>
    obtain ⟨space, map, mainMemory, -, rfl, -⟩ := load_eq_ok hload
    exact ⟨h.installed, h.userRegisters⟩
  | exit h hexit =>
    obtain ⟨_, _, _, _, _, _, _, -, -, -, -, rfl, -⟩ := exit_eq_ok hexit
    exact ⟨h.installed, h.userRegisters⟩

/-- No code changes what is saved of a thread, and only `InitRegisters` installs a page table. -/
theorem installed_of_code {merged : Bool} {code : UserCode}
    (hexec : (userClient memAll merged).exec t code input s = .ok (s', calls)) :
    (code = .initRegisters ∧ s'.installed = some t ∨
      code ≠ .initRegisters ∧ s'.installed = s.installed) ∧
      s'.userRegisters = s.userRegisters := by
  cases code with
  | startProcess =>
    obtain ⟨rfl, -⟩ | ⟨-, file, map₀, space, map, mainMemory, -, -, h⟩ := startProcess_eq_ok hexec
    · exact ⟨.inr ⟨by simp, rfl⟩, rfl⟩
    · obtain ⟨-, list, -, rfl, -⟩ | ⟨-, rfl, -⟩ := h <;> exact ⟨.inr ⟨by simp, rfl⟩, rfl⟩
  | run =>
    obtain ⟨⟨s₁, cs⟩, hrun, heq⟩ := map_eq_ok.1 hexec
    obtain ⟨rfl, -⟩ := Prod.mk.inj heq
    obtain ⟨hi, hu⟩ := installed_of_effect (effect_of_instruction hrun)
    exact ⟨.inr ⟨by simp, hi⟩, hu⟩
  | processCreator | countProcess | uncountProcess | joined | yielded =>
    obtain ⟨rfl, -⟩ := Prod.mk.inj (Except.ok.inj hexec)
    exact ⟨.inr ⟨by simp, rfl⟩, rfl⟩
  | initRegisters =>
    simp only [userClient] at hexec
    split at hexec
    · cases hexec
    · obtain ⟨rfl, -⟩ := Prod.mk.inj (Except.ok.inj hexec)
      exact ⟨.inl ⟨rfl, rfl⟩, rfl⟩
  | append a pid =>
    obtain ⟨list, -, heq⟩ := map_eq_ok.1 hexec
    obtain ⟨rfl, -⟩ := Prod.mk.inj heq
    exact ⟨.inr ⟨by simp, rfl⟩, rfl⟩

/-- Code that goes on with the execution of a program. -/
theorem run_mem_calls {merged : Bool} {code : UserCode}
    (hexec : (userClient memAll merged).exec t code input s = .ok (s', calls))
    (hmem : .code .run ∈ calls) : code = .initRegisters ∨ code = .run := by
  cases code with
  | startProcess =>
    obtain ⟨-, rfl⟩ | ⟨-, file, map₀, space, map, mainMemory, -, -, h⟩ := startProcess_eq_ok hexec
    · cases hmem
    · obtain ⟨-, list, -, -, rfl⟩ | ⟨-, -, rfl⟩ := h
      · simp [startCalls] at hmem
      · simp at hmem
  | run => exact .inr rfl
  | initRegisters => exact .inl rfl
  | processCreator | countProcess | uncountProcess | joined | yielded =>
    obtain ⟨-, rfl⟩ := Prod.mk.inj (Except.ok.inj hexec)
    simp at hmem
  | append a pid =>
    obtain ⟨list, -, heq⟩ := map_eq_ok.1 hexec
    obtain ⟨-, rfl⟩ := Prod.mk.inj heq
    cases hmem

end Instruction

/-! ### The invariant -/

namespace UserKernel

variable {k k' : UserKernel} {memAll : MemAll} {merged : Bool} {i : Input Empty UserInput} {t p : ℕ}

/-- The thread is in `Machine::Run`: it has begun to execute its program. -/
def Runs (k : UserKernel) (t : ℕ) : Prop := .call (.code .run) ∈ k.stack t

/-- The next step is this system call. -/
def Calls (k : UserKernel) (type : Word) : Prop :=
  (∃ fs, k.stack k.currentThread = .call (.code .run) :: fs) ∧ k.env.Calls type

/-- `Read` and `Write` stay within the pages of the page table. -/
def TransfersWithin (k : UserKernel) (i : Input Empty UserInput) : Prop :=
  k.Calls 6 ∨ k.Calls 7 → i.code.TransfersWithin

/-- `Exec` loads an executable whose segments lie inside the address space that it requests. -/
def LoadsInside (k : UserKernel) (i : Input Empty UserInput) : Prop :=
  k.Calls 2 → i.code.LoadsInside

/-- The processes have their memory for themselves, and those that execute their programs find their
page tables installed. -/
structure Isolated (k : UserKernel) : Prop where
  mapped : k.env.memory.Mapped
  issued : k.env.Issued
  /-- A thread that is not running has been switched out. -/
  waits : ∀ t ≠ k.currentThread, k.Runs t → ∃ fs, k.stack t = .afterSwitch :: fs
  installed : k.Runs k.currentThread → (∀ fs, k.stack k.currentThread ≠ .afterSwitch :: fs) →
    k.env.installed = some k.currentThread

/-- A thread that executes its program belongs to a process that has been loaded. -/
theorem Sane.started_of_runs (h : k.Sane) (ht : k.Runs t) : k.ledger.Started t := by
  have hmem : .code .run ∈ k.tasks t := List.mem_filterMap.2 ⟨_, ht, rfl⟩
  have hplain {cs : List UserCall} (hcs : Plain cs) : .code .run ∉ cs := fun hrun =>
    absurd (hcs _ hrun) (by simp [isPlain])
  have hcourse := h.course t
  generalize hl : k.tasks t = l at hcourse hmem
  cases hcourse with
  | boot | create => simp at hmem
  | none n => simp [List.mem_replicate] at hmem
  | begin cs ht hcs => simp [hplain hcs] at hmem
  | user cs ht => exact .inl ht
  | exiting cs ht => exact .inr ht
  | gone ht => exact .inr ht

theorem Sane.hasSpace (h : k.Sane) (ht : k.Runs t) : k.env.hasSpace t = true := by
  obtain ⟨space, hspace, -⟩ | hexited := h.started_of_runs ht
  · simp [UserState.hasSpace, Option.mem_def.1 hspace]
  · simp [UserState.hasSpace, show t ∈ k.env.exited from hexited]

/-- A thread that has been forked is not forked again. -/
theorem Sane.stack_of_ne (h : k.Sane) (hw : k.step (userClient memAll merged) i = .ok k')
    (ht : k.Runs t) (hne : t ≠ k.currentThread) : k'.stack t = k.stack t := by
  obtain ⟨f, fs, hadv⟩ := h.sound.advances_of_step hw
  obtain hst | ⟨func, rfl, -⟩ := hadv.other t hne
  · exact hst
  obtain ⟨rest, hst, -⟩ := hadv.current
  have hset := h.sound.settled_of_calling hst (.inl ⟨_, rfl⟩)
  have hmem : .code .run ∈ k.tasks t := List.mem_filterMap.2 ⟨_, ht, rfl⟩
  have hnew : k.status t = .justCreated := Kernel.justCreated_of_fork hst hw
  have hnot : ¬(t = 1 ∨ t ∈ k.history.forked) := fun hf => (hset.forked_iff t).1 hf hnew
  rw [h.waiting.fresh t (not_or.1 hnot).1 (not_or.1 hnot).2] at hmem
  cases hmem

/-- What an instruction of the current thread does to the memory. -/
theorem Isolated.memoryEffect (h : k.Isolated) (htransfer : k.TransfersWithin i)
    {fs : List (Frame ℕ UserSemaphore UserCode)} {s' : UserState} {calls : List UserCall}
    (hstack : k.stack k.currentThread = .call (.code .run) :: fs)
    (hexec : (userClient memAll merged).exec k.currentThread .run i.code k.env =
      .ok (s', calls)) : MemoryEffect memAll k.currentThread i.code k.env s' := by
  have hruns : k.Runs k.currentThread := by
    unfold Runs
    rw [hstack]
    exact List.mem_cons_self
  obtain ⟨⟨s₁, cs⟩, hrun, heq⟩ := map_eq_ok.1 hexec
  obtain ⟨rfl, -⟩ := Prod.mk.inj heq
  exact memoryEffect_of_instruction h.mapped (h.installed hruns (by simp [hstack]))
    (fun hcalls => htransfer (hcalls.imp (.intro ⟨fs, hstack⟩) (.intro ⟨fs, hstack⟩))) hrun

/-- What the kernel itself does to the environment does not concern the memory. -/
theorem memory_of_turn {f : Frame ℕ UserSemaphore UserCode}
    {fs : List (Frame ℕ UserSemaphore UserCode)}
    (hturn : k.Turn (userClient memAll merged) i k' f fs) : (∃ code calls, f = .call (.code code) ∧
      (userClient memAll merged).exec k.currentThread code i.code k.env = .ok (k'.env, calls)) ∨
    k'.env.memory = k.env.memory ∧ k'.env.processId = k.env.processId := by
  cases hturn with
  | exec code calls hf hfs hexec hcur => exact .inl ⟨code, calls, hf, hexec⟩
  | out next hf hfs henv hcur =>
    rw [henv]
    simp only [userClient]
    split_ifs <;> exact .inr ⟨rfl, rfl⟩
  | back hf hfs henv hcur =>
    rw [henv]
    simp only [userClient]
    split_ifs <;> exact .inr ⟨rfl, rfl⟩
  | stays hf hcode henv hcur =>
    have heq : (k'.env.memory, k'.env.processId) = (k.env.memory, k.env.processId) :=
      henv.apply_eq (f := fun s => (s.memory, s.processId)) fun _ => rfl
    exact .inr (Prod.mk.inj heq)

/-- `StartProcess` is executed once, when no PID has been issued. -/
theorem Sane.of_startProcess (h : k.Sane) {fs : List (Frame ℕ UserSemaphore UserCode)}
    (hstack : k.stack k.currentThread = .call (.code .startProcess) :: fs) :
    k.currentThread = 1 ∧ k.env.processId = 0 := by
  have hset := h.sound.settled_of_calling hstack (.inl ⟨_, rfl⟩)
  have hcourse := h.course k.currentThread
  rw [Kernel.tasks_of_cons hstack] at hcourse
  obtain hplain | ⟨-, ⟨-, hcur, hz⟩ | ⟨-, hcode⟩⟩ := hcourse.of_code hset.current_notMem_finished
  · cases hplain
  · exact ⟨hcur, hz⟩
  · simp at hcode

/-- The first address space. -/
theorem Isolated.startProcess (h : k.Isolated) {input : UserInput} {s' : UserState}
    {calls : List UserCall} (hz : k.env.processId = 0)
    (hstart : startProcess memAll 1 input k.env = .ok (s', calls)) :
    s'.memory.Mapped ∧ s'.Issued := by
  have hnone (u : ℕ) : k.env.memory.space u = none := by
    by_contra hne
    have := h.issued u (Option.isSome_iff_ne_none.2 hne)
    omega
  obtain ⟨rfl, -⟩ | ⟨-, file, map₀, space, map, mainMemory, hmap₀, hnew, h'⟩ :=
    startProcess_eq_ok hstart
  · exact ⟨h.mapped, h.issued⟩
  have hempty : (⟨map₀, k.env.memory.mainMemory, k.env.memory.space⟩ : MemoryState).Mapped := by
    obtain ⟨map₁, hmap₁, hclear⟩ := BitMap.new_spec input.words
    obtain rfl : map₁ = map₀ := Except.ok.inj (hmap₁.symm.trans hmap₀)
    exact MemoryState.mapped_of_empty hclear hnone
  have hmapped := hempty.construct (t := 1) (hnone 1) hnew
  have hissued (u : ℕ) (hu : (update k.env.memory.space 1 (some space) u).isSome) :
      1 ≤ u ∧ u ≤ k.env.processId + 1 := by
    by_cases hu1 : u = 1
    · omega
    · simp [hu1, hnone] at hu
  obtain ⟨-, list, -, rfl, -⟩ | ⟨-, rfl, -⟩ := h'
  · exact ⟨hmapped, hissued⟩
  · exact ⟨hmapped, hissued⟩

/-- A step keeps the memories apart. -/
theorem Isolated.memory_step (h : k.Isolated) (hs : k.Sane) (htransfer : k.TransfersWithin i)
    (hw : k.step (userClient memAll merged) i = .ok k') :
    k'.env.memory.Mapped ∧ k'.env.Issued := by
  obtain ⟨f, fs, hadv⟩ := hs.sound.advances_of_step hw
  obtain ⟨rest, hst, -⟩ := hadv.current
  obtain ⟨-, o, hmove, -⟩ := hs.step hw
  have hle : k.env.processId ≤ k'.env.processId := hmove.processId_le
  have hsame (hmemory : k'.env.memory = k.env.memory) : k'.env.memory.Mapped ∧ k'.env.Issued := by
    refine ⟨hmemory ▸ h.mapped, fun u hu => ?_⟩
    rw [hmemory] at hu
    exact ⟨(h.issued u hu).1, (h.issued u hu).2.trans hle⟩
  obtain ⟨code, calls, rfl, hexec⟩ | ⟨hmemory, -⟩ := memory_of_turn (Kernel.turn_of_step hadv hw)
  · obtain rfl | rfl | ⟨hmemory, -⟩ := memory_of_code hexec
    · obtain ⟨hcur, hz⟩ := hs.of_startProcess hst
      exact h.startProcess hz (hcur ▸ hexec)
    · have heffect := h.memoryEffect htransfer hst hexec
      exact ⟨heffect.mapped h.mapped h.issued (hs.loaded_of_run hst),
        heffect.issued h.issued hle⟩
    · exact hsame hmemory
  · exact hsame hmemory

/-- A thread that has been switched out stays so until it is switched in. -/
theorem Isolated.waits_step (h : k.Isolated) (hs : k.Sane)
    (hw : k.step (userClient memAll merged) i = .ok k') (ht : t ≠ k'.currentThread)
    (hruns : k'.Runs t) : ∃ fs, k'.stack t = .afterSwitch :: fs := by
  obtain ⟨f, fs, hadv⟩ := hs.sound.advances_of_step hw
  obtain ⟨rest, hst, hst'⟩ := hadv.current
  by_cases hcur : t = k.currentThread
  · subst hcur
    cases Kernel.turn_of_step hadv hw with
    | out next hf hfs henv hnext => exact ⟨rest, by rw [hst', hfs]; rfl⟩
    | exec _ _ _ _ _ hcur' | back _ _ _ hcur' | stays _ _ _ hcur' => exact absurd hcur'.symm ht
  · obtain hsame | ⟨func, rfl, hforked⟩ := hadv.other t hcur
    · unfold Runs at hruns
      rw [hsame] at hruns ⊢
      exact h.waits t hcur hruns
    · have hmem : .fork t func ∈ k.tasks k.currentThread := by
        rw [Kernel.tasks_of_cons hst]
        exact List.mem_cons_self
      obtain ⟨rfl, -⟩ := hs.fork _ t func hmem
      simp [Runs, hforked] at hruns

/-- The current thread finds its page table installed, unless it has still to return from `Run`. -/
theorem Isolated.installed_step (h : k.Isolated) (hs : k.Sane)
    (hw : k.step (userClient memAll merged) i = .ok k') (hruns : k'.Runs k'.currentThread)
    (hswitch : ∀ fs, k'.stack k'.currentThread ≠ .afterSwitch :: fs) :
    k'.env.installed = some k'.currentThread := by
  obtain ⟨f, fs, hadv⟩ := hs.sound.advances_of_step hw
  obtain ⟨rest, hst, hst'⟩ := hadv.current
  cases Kernel.turn_of_step hadv hw with
  | exec code calls hf hfs hexec hcur =>
    subst hf
    rw [hcur]
    obtain ⟨⟨-, hi⟩ | ⟨hne, hi⟩, -⟩ := installed_of_code hexec
    · exact hi
    · rw [hi]
      refine h.installed ?_ (by simp [hst])
      unfold Runs at hruns ⊢
      rw [hcur, hst', hfs] at hruns
      rw [hst]
      obtain hmem | hmem := List.mem_append.1 hruns
      · obtain ⟨call, hcall, he⟩ := List.mem_map.1 hmem
        cases he
        rw [(run_mem_calls hexec hcall).resolve_left hne]
        exact List.mem_cons_self
      · exact List.mem_cons_of_mem _ hmem
  | out next hf hfs henv hcur =>
    -- the next thread has still to return from `Run`
    subst hf
    rw [hcur] at hruns hswitch
    by_cases hnext : next = k.currentThread
    · simp [hnext, hst', hfs] at hswitch
    · obtain hsame | ⟨func, hf, -⟩ := hadv.other next hnext
      · unfold Runs at hruns
        rw [hsame] at hruns hswitch
        obtain ⟨fs', hst''⟩ := h.waits next hnext hruns
        exact absurd hst'' (hswitch fs')
      · cases hf
  | back hf hfs henv hcur =>
    have hruns' : k.Runs k.currentThread := by
      unfold Runs at hruns ⊢
      rw [hcur, hst', hfs] at hruns
      rw [hst]
      exact List.mem_cons_of_mem _ hruns
    rw [hcur, henv]
    simp only [userClient, hs.hasSpace hruns', if_true]
  | stays hf hcode henv hcur =>
    have hi : k'.env.installed = k.env.installed :=
      henv.apply_eq (f := UserState.installed) fun _ => rfl
    rw [hcur] at hruns
    rw [hcur, hi]
    refine h.installed ?_ (by simp [hst, hf])
    unfold Runs at hruns ⊢
    rw [hst'] at hruns
    rw [hst]
    exact List.mem_cons_of_mem _ ((List.mem_append.1 hruns).resolve_left (hcode .run))

/-- A step keeps the invariant. -/
theorem Isolated.step (h : k.Isolated) (hs : k.Sane) (htransfer : k.TransfersWithin i)
    (hw : k.step (userClient memAll merged) i = .ok k') : k'.Isolated :=
  ⟨(h.memory_step hs htransfer hw).1, (h.memory_step hs htransfer hw).2,
    fun _ ht hruns => h.waits_step hs hw ht hruns, h.installed_step hs hw⟩

theorem isolated_boot : UserKernel.boot.Isolated := by
  refine ⟨MemoryState.mapped_of_empty (fun f => ?_) fun _ => rfl, fun u hu => ?_,
    fun t ht hruns => ?_, fun hruns => ?_⟩
  · change (⟨Vector.replicate _ 0⟩ : BitMap numPhysPages).isSet f = false
    simp [BitMap.isSet, BitMap.word]
  · cases hu
  · change t ≠ 1 at ht
    simp [Runs, Threads.boot, ht] at hruns
  · simp [Runs, Threads.boot] at hruns

/-- The invariant holds in every state that is reached. -/
theorem isolated_of_reachable (h : (userSystem memAll merged).Reachable TransfersWithin k) :
    k.Isolated := by
  have hinv : k.Sane ∧ k.Isolated := by
    refine h.invariant (fun k => k.Sane ∧ k.Isolated) ?_ fun k i k' hk htransfer hw =>
      ⟨(hk.1.step hw).1, hk.2.step hk.1 htransfer hw⟩
    rintro k rfl
    exact ⟨sane_boot, isolated_boot⟩
  exact hinv.2

end UserKernel

end Nachos.UserProg
