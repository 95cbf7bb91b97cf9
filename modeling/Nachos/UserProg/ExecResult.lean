import Nachos.UserProg.Bookkeeping

/-!
# What `Exec` returns

`SC_Exec` returns in four places. Where the name cannot be read and where the entry is appended, it
writes the new PID to register 2. Where the file cannot be opened it writes nothing, so that
register 2 still contains 2, the number of the system call, and this may be the PID of another
process.

## Main definitions

* `UserKernel.ReturnsFromExec`: the next step returns from `Exec`.
* `UserKernel.ExecResult`: the result is the PID of the new process, or that of none.
* `UserState.NoFile`, `UserKernel.MissesFile`: the file cannot be opened, and there is an entry
  with the PID 2.

## Main results

* `execResult_iff`: the result is the PID of another process exactly in that case.
-/

namespace Nachos.UserProg

open Foundations StepSystem Threads Machine Function

namespace UserKernel

variable {k k' : UserKernel} {memAll : MemAll} {merged : Bool} {i : Input Empty UserInput} {pid : ℕ}

/-- The step from `k` to `k'` returns from `Exec`, which has created the PID `pid`: either the
instruction has nothing more to do, or the entry has been appended. -/
inductive ReturnsFromExec (k k' : UserKernel) (pid : ℕ) : Prop
  | atOnce (s : UserState) (fs : List (Frame ℕ UserSemaphore UserCode))
    (hstack : k.stack k.currentThread = .call (.code .run) :: fs) (htrap : k.env.trapped = some s)
    (hexec : s.registers.gpr 2 = 2)
    (hreturn : k'.stack k.currentThread = .call .oneTick :: .call (.code .run) :: fs)
    (hpid : pid = k.env.processId + 1)
  | append (a : ℕ) (fs : List (Frame ℕ UserSemaphore UserCode))
    (hstack : k.stack k.currentThread = .call (.code (.append a pid)) :: fs)

/-- Register 2 contains the PID that was created, which has an entry, or the PID of no entry. -/
def ExecResult (k : UserKernel) (pid : ℕ) : Prop :=
  k.env.registers.gpr 2 = BitVec.ofNat 32 pid ∧
      (∃ a ∈ k.env.pcb.entries, k.env.pcb.list.pid a = pid) ∨
    ∀ a ∈ k.env.pcb.entries, k.env.pcb.list.pid a ≠ (k.env.registers.gpr 2).toInt

/-- No entry has a PID that is still to be created. -/
theorem Sane.pid_lt (h : k.Sane) {a : ℕ} (ha : a ∈ k.env.pcb.entries) :
    k.env.pcb.list.pid a < (k.env.processId + 1 : ℕ) := by
  obtain ⟨t, hpid, -, hle⟩ := h.valid.elements.pid_eq a (h.lt_created ha)
  have hpid' : k.env.pcb.list.pid a = t := hpid
  have hle' : t ≤ k.env.processId := hle
  omega

/-- A PID is represented in a register. -/
theorem toInt_ofNat {n : ℕ} (hn : n < 2 ^ 31) : (BitVec.ofNat 32 n).toInt = n := by
  have hmod : n % 2 ^ 32 = n := Nat.mod_eq_of_lt (by omega)
  rw [BitVec.toInt_eq_toNat_of_lt] <;> rw [BitVec.toNat_ofNat, hmod]
  omega

end UserKernel

/-- `Exec` is given a name that can be read, of a file that cannot be opened. -/
def UserState.NoFile (isMain : Bool) (input : UserInput) (s : UserState) : Prop :=
  (∃ m name m', s.machine = .ok m ∧
    fileName isMain (m.registers.gpr 4) m = .ok (some name, m')) ∧ input.executable = none

/-- What an `Exec` that returns at once leaves in register 2. -/
theorem result_of_exec {memAll : MemAll} {isMain : Bool} {t : ℕ} {input : UserInput}
    {s s' : UserState} (h : exec memAll isMain t input s = .ok (s', [])) :
    s.processId + 1 < 2 ^ 31 ∧ s'.pcb = s.pcb ∧
      (¬s.NoFile isMain input ∧ s'.registers.gpr 2 = BitVec.ofNat 32 (s.processId + 1) ∨
        s.NoFile isMain input ∧ s'.registers.gpr 2 = s.registers.gpr 2) := by
  obtain ⟨hlt, m, filename, m', hm, hname, h⟩ := exec_eq_ok h
  have hm' : s.machine = .ok m := hm
  refine ⟨hlt, ?_⟩
  obtain ⟨rfl, rfl, -⟩ | ⟨name, rfl, ⟨hfile, rfl, -⟩ | ⟨file, -, hload⟩⟩ := h
  · refine ⟨rfl, .inl ⟨?_, by simp [UserState.result, UserState.mapRegisters, advancePC, setGpr]⟩⟩
    rintro ⟨⟨m₁, name, m₁', hm₁, hname₁⟩, -⟩
    cases hm'.symm.trans hm₁
    cases hname.symm.trans hname₁
  · refine ⟨rfl, .inr ⟨⟨⟨m, name, m', hm', hname⟩, hfile⟩, ?_⟩⟩
    have hbelow := (reads_of_fileName hname).below
    obtain ⟨u, space, pageTable, -, -, -, rfl⟩ := UserState.machine_eq_ok.1 hm'
    change m'.registers.gpr 2 = _
    rw [hbelow.registers]
  · -- a file that can be opened is not loaded at once
    obtain ⟨space, map, mainMemory, -, -, hcalls⟩ := load_eq_ok hload
    split_ifs at hcalls
    cases hcalls

namespace UserKernel

variable {k k' : UserKernel} {memAll : MemAll} {merged : Bool} {i : Input Empty UserInput} {pid : ℕ}

/-- The next step is an `Exec` whose argument is the name of a file that cannot be opened, and there
is an entry with the PID 2. -/
def MissesFile (merged : Bool) (k : UserKernel) (i : Input Empty UserInput) : Prop :=
  (∃ fs, k.stack k.currentThread = .call (.code .run) :: fs) ∧
    (∃ s, k.env.trapped = some s ∧ s.registers.gpr 2 = 2 ∧
      s.NoFile (merged && k.currentThread == 1) i.code) ∧
    ∃ a ∈ k.env.pcb.entries, k.env.pcb.list.pid a = 2

/-- The next step is the instruction of a system call. -/
theorem syscall_of_trapped {s : UserState} {fs : List (Frame ℕ UserSemaphore UserCode)}
    (hw : k.step (userClient memAll merged) i = .ok k')
    (hstack : k.stack k.currentThread = .call (.code .run) :: fs)
    (htrap : k.env.trapped = some s) : SameProcesses k.env s ∧ ∃ calls,
      k'.stack k.currentThread = (calls ++ [.oneTick, .code .run]).map .call ++ fs ∧
      syscall memAll (merged && k.currentThread == 1) k.currentThread i.code s =
        .ok (k'.env, calls) := by
  obtain ⟨calls, hcode, hk'⟩ := Kernel.exec_of_step hstack hw
  obtain ⟨⟨s', calls'⟩, hrun, heq⟩ := map_eq_ok.1 hcode
  obtain ⟨rfl, rfl⟩ := Prod.mk.inj heq
  obtain ⟨s₁, htrap₁, hsame, -, hsys⟩ | ⟨hnone, -, -⟩ := instruction_eq_ok hrun
  · cases htrap.symm.trans htrap₁
    refine ⟨hsame, calls', ?_, hsys⟩
    rw [← hk']
    exact update_self ..
  · cases htrap.symm.trans hnone

/-- A system call that returns at once. -/
theorem syscall_of_return {s : UserState} {fs : List (Frame ℕ UserSemaphore UserCode)}
    (hw : k.step (userClient memAll merged) i = .ok k')
    (hstack : k.stack k.currentThread = .call (.code .run) :: fs)
    (htrap : k.env.trapped = some s)
    (hreturn : k'.stack k.currentThread = .call .oneTick :: .call (.code .run) :: fs) :
    SameProcesses k.env s ∧
      syscall memAll (merged && k.currentThread == 1) k.currentThread i.code s =
        .ok (k'.env, []) := by
  obtain ⟨hsame, calls, hstack', hsys⟩ := syscall_of_trapped hw hstack htrap
  have hlen := congrArg List.length (hreturn.symm.trans hstack')
  simp only [List.length_cons, List.length_append, List.length_map, List.length_nil] at hlen
  obtain rfl : calls = [] := List.length_eq_zero_iff.1 (by omega)
  exact ⟨hsame, hsys⟩

/-- What an `Exec` that appends an entry leaves in register 2. -/
theorem Sane.execResult_of_append (h : k.Sane) {a : ℕ} {fs : List (Frame ℕ UserSemaphore UserCode)}
    (hw : k.step (userClient memAll merged) i = .ok k')
    (hstack : k.stack k.currentThread = .call (.code (.append a pid)) :: fs) :
    k'.ExecResult pid := by
  obtain ⟨calls, hcode, -⟩ := Kernel.exec_of_step hstack hw
  obtain ⟨list, hlist, heq⟩ := map_eq_ok.1 hcode
  obtain ⟨henv, -⟩ := Prod.mk.inj heq
  have htask : .code (.append a pid) ∈ k.tasks k.currentThread := by
    rw [Kernel.tasks_of_cons hstack]
    exact List.mem_cons_self
  have hpid : k.env.pcb.list.pid a = pid :=
    (h.valid.pending_append _ a pid (mem_pending.2 ⟨htask, rfl⟩)).2.2.1
  rw [ExecResult, ← henv]
  refine .inl ⟨by simp [UserState.result, UserState.mapRegisters, advancePC, setGpr], a, ?_, ?_⟩
  · exact List.mem_append_right _ (List.mem_singleton_self a)
  · change list.pid a = pid
    rw [(ProcessList.sameElements_of_append hlist).pid, hpid]

/-- `Exec` returns the PID of another process exactly when it cannot open the file and there is a
process with the PID 2. -/
theorem execResult_iff (memAll : MemAll) (merged : Bool) (k k' : UserKernel)
    (i : Input Empty UserInput) (pid : ℕ) (h : (userSystem memAll merged).Reachable Always k)
    (hw : k.step (userClient memAll merged) i = .ok k') (hret : k.ReturnsFromExec k' pid) :
    k'.ExecResult pid ↔ ¬k.MissesFile merged i := by
  have hsane := sane_of_reachable h
  cases hret with
  | append a fs hstack =>
    refine iff_of_true (hsane.execResult_of_append hw hstack) ?_
    rintro ⟨⟨fs', hstack'⟩, -⟩
    cases hstack.symm.trans hstack'
  | atOnce s fs hstack htrap hexec hreturn hpid =>
    obtain ⟨hsame, hsys⟩ := syscall_of_return hw hstack htrap hreturn
    have hex : exec memAll (merged && k.currentThread == 1) k.currentThread i.code s =
        .ok (k'.env, []) := by
      simpa [syscall, hexec] using hsys
    obtain ⟨hlt, hpcb, hres⟩ := result_of_exec hex
    rw [hsame.processId] at hlt hres
    rw [hsame.pcb] at hpcb
    rw [ExecResult, hpcb, hpid]
    obtain ⟨hopen, hr⟩ | ⟨hopen, hr⟩ := hres
    · -- the new PID is the PID of no entry
      refine iff_of_true (.inr fun a ha => ?_) ?_
      · rw [hr, toInt_ofNat hlt]
        exact (hsane.pid_lt ha).ne
      · rintro ⟨-, ⟨s₁, htrap₁, -, hopen₁⟩, -⟩
        cases htrap.symm.trans htrap₁
        exact hopen hopen₁
    · have htwo : k'.env.registers.gpr 2 = BitVec.ofNat 32 2 := hr.trans hexec
      rw [htwo, toInt_ofNat (by omega)]
      constructor
      · rintro hresult ⟨-, -, a, ha, hpid₂⟩
        obtain ⟨hnew, -⟩ | hno := hresult
        · have hid := congrArg BitVec.toInt hnew
          rw [toInt_ofNat (by omega), toInt_ofNat hlt] at hid
          have := hsane.pid_lt ha
          omega
        · exact hno a ha hpid₂
      · exact fun hnot => .inr fun a ha hpid₂ =>
          hnot ⟨⟨fs, hstack⟩, ⟨s, htrap, hexec, hopen⟩, a, ha, hpid₂⟩

/-- The first process has created another one and appends its entry. -/
theorem execResult_of_exec : ∃ (k k' : UserKernel) (i : Input Empty UserInput),
    (userSystem .firstFit false).Reachable Always k ∧
    k.step (userClient .firstFit false) i = .ok k' ∧ k.ReturnsFromExec k' 2 ∧ k'.ExecResult 2 := by
  obtain ⟨k, hk, ht⟩ := exists_reachable_of_runInputs (S := userSystem .firstFit false)
    (show (userSystem .firstFit false).init boot from rfl)
    (userInputs execProgram (fun _ => some exitProgram) [] 23)
    (fun k : UserKernel => (k.stack k.currentThread).head? = some (.call (.code (.append 1 2))) ∧
      (k.step (userClient .firstFit false) (userInput false none)).toOption.isSome)
    (by decide +kernel)
  simp only [decide_eq_true_eq, Option.isSome_iff_exists, List.head?_eq_some_iff] at ht
  obtain ⟨⟨fs, hstack⟩, k', hw⟩ := ht
  have hret : k.ReturnsFromExec k' 2 := .append 1 fs hstack
  refine ⟨k, k', _, hk, toOption_eq_some.1 hw, hret,
    (execResult_iff .firstFit false k k' _ 2 hk (toOption_eq_some.1 hw) hret).2 ?_⟩
  rintro ⟨⟨fs', hstack'⟩, -⟩
  cases hstack.symm.trans hstack'

/-- A program that calls `Exec` twice for the file `a`. -/
def execTwice : OpenFile := program [0x24040014, 0x24020002, 0xc, 0x24020002, 0xc, 0x61]

/-- The file cannot be opened a second time: the result is the PID of the first new process. -/
theorem not_execResult_of_missing : ∃ (k k' : UserKernel) (i : Input Empty UserInput),
    (userSystem .firstFit false).Reachable Always k ∧
    k.step (userClient .firstFit false) i = .ok k' ∧ k.ReturnsFromExec k' 3 ∧
    ¬k'.ExecResult 3 := by
  obtain ⟨k, hk, ht⟩ := exists_reachable_of_runInputs (S := userSystem .firstFit false)
    (show (userSystem .firstFit false).init boot from rfl)
    (userInputs execTwice (fun _ => some exitProgram) [] 27)
    (fun k : UserKernel => (k.stack k.currentThread).head? = some (.call (.code .run)) ∧
      (k.env.trapped.any fun s => decide (s.registers.gpr 2 = 2)) ∧ k.env.processId = 2 ∧
      (k.step (userClient .firstFit false) (userInput false none)).toOption.any fun k' =>
        decide (k'.stack k.currentThread = .call .oneTick :: k.stack k.currentThread ∧
          k'.env.registers.gpr 2 = 2 ∧ 1 ∈ k'.env.pcb.entries ∧ k'.env.pcb.list.pid 1 = 2))
    (by decide +kernel)
  simp only [decide_eq_true_eq, Option.any_eq_true, List.head?_eq_some_iff] at ht
  obtain ⟨⟨fs, hstack⟩, ⟨s, htrap, hexec⟩, hid, k', hw, hreturn, hr, hmem, hpid⟩ := ht
  refine ⟨k, k', _, hk, toOption_eq_some.1 hw,
    .atOnce s fs hstack htrap hexec (hstack ▸ hreturn) (by rw [hid]), ?_⟩
  rw [ExecResult, hr]
  rintro (⟨hnew, -⟩ | hno)
  · exact absurd hnew (by decide)
  · exact hno 1 hmem hpid

end UserKernel

end Nachos.UserProg
