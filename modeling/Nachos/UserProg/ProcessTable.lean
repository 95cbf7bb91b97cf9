import Nachos.Threads.Waiting
import Nachos.UserProg.Ledger

/-!
# The kernel keeps the books of processes

Every step of the kernel with user processes is a move of the ledger of its processes: the changes
that a thread has still to make are among the calls that it has still to complete. For this, what a
thread has still to complete must have one of a few shapes, which say how far its process has come.

## Main definitions

* `UserKernel.ledger`: the data about processes in a state of the kernel.
* `Course`: what a thread has still to complete.
* `UserKernel.Sane`: the invariant.
* `UserKernel.Exits`: the next step is the system call `Exit`.

## Main results

* `UserKernel.Sane.step`: a step keeps the invariant and is a move of the ledger, in which a process
  exits only if the step is `Exit`.
* `UserKernel.sane_of_reachable`: the invariant holds in every state of every run.
-/

namespace Nachos.UserProg

open Foundations Threads Function

/-! ### The ledger of a state -/

/-- The change that a call makes, if it makes one. -/
def changeOf : UserCall → Option UserCode
  | .code c => if c.isEntry then some c else none
  | _ => none

/-- The changes among calls. -/
def changesOf (cs : List UserCall) : List UserCode := cs.filterMap changeOf

/-- What the kernel has recorded about processes. -/
def UserKernel.ledger (k : UserKernel) : Ledger where
  processId := k.env.processId
  numProcess := k.env.numProcess
  pcb := k.env.pcb
  loaded := {t | k.env.Loaded t}
  exited := k.env.exited
  pending t := changesOf (k.tasks t)

theorem changesOf_append (cs cs' : List UserCall) :
    changesOf (cs ++ cs') = changesOf cs ++ changesOf cs' :=
  List.filterMap_append ..

theorem mem_changesOf {c : UserCode} {cs : List UserCall} :
    c ∈ changesOf cs ↔ .code c ∈ cs ∧ c.isEntry = true := by
  simp only [changesOf, List.mem_filterMap]
  constructor
  · rintro ⟨call, hmem, hc⟩
    cases call with
    | code c' =>
      simp only [changeOf] at hc
      split_ifs at hc with he
      cases hc
      exact ⟨hmem, he⟩
    | _ => cases hc
  · rintro ⟨hmem, he⟩
    exact ⟨_, hmem, by simp [changeOf, he]⟩

theorem changesOf_update (tasks : ℕ → List UserCall) (t : ℕ) (cs : List UserCall) :
    (fun u => changesOf (update tasks t cs u)) =
      update (fun u => changesOf (tasks u)) t (changesOf cs) := by
  funext u
  exact apply_update (fun _ => changesOf) tasks t cs u

/-! ### What threads have still to complete -/

/-- The call neither begins nor ends the execution of a program. -/
def isPlain : UserCall → Bool
  | .finish => false
  | .sleep => false
  | .code .startProcess => false
  | .code .processCreator => false
  | .code .initRegisters => false
  | .code .run => false
  | _ => true

/-- Calls that neither begin nor end the execution of a program. -/
def Plain (cs : List UserCall) : Prop := ∀ c ∈ cs, isPlain c = true

/-- What the thread `t` has still to complete; `finished` says whether it has called `Finish`. -/
inductive Course (s : UserState) (finished : Prop) (t : ℕ) : List UserCall → Prop
  | boot (ht : t = 1) (hid : s.processId = 0) : Course s finished t [.code .startProcess, .finish]
  /-- Before a thread is forked, and when `StartProcess` has loaded nothing. -/
  | none (n : ℕ) (ht : t ∉ s.exited) : Course s finished t (List.replicate n .finish)
  | create (ht : s.Loaded t) : Course s finished t [.code .processCreator, .finish]
  | begin (cs : List UserCall) (ht : s.Loaded t) (hcs : Plain cs) :
    Course s finished t (cs ++ [.code .initRegisters, .finish])
  | user (cs : List UserCall) (ht : s.Loaded t) (hcs : Plain cs) :
    Course s finished t (cs ++ [.code .run, .finish])
  /-- The process has exited. `Run` is not left, so its loop remains. -/
  | exiting (cs : List UserCall) (ht : t ∈ s.exited) (hcs : Plain cs) :
    Course s finished t (cs ++ [.finish, .code .run, .finish])
  | gone (ht : t ∈ s.exited) (hf : finished) : Course s finished t [.code .run, .finish]

namespace Course

variable {s s' : UserState} {finished finished' : Prop} {t : ℕ} {c : UserCall} {code : UserCode}
  {cs rest : List UserCall}

theorem mono (h : Course s finished t cs)
    (hid : t = 1 → s.processId = 0 → s'.processId = 0)
    (hloaded : s.Loaded t → s'.Loaded t) (hexited : t ∈ s'.exited ↔ t ∈ s.exited)
    (hfinished : finished → finished') : Course s' finished' t cs := by
  cases h with
  | boot ht hz => exact .boot ht (hid ht hz)
  | none n ht => exact .none n (hexited.not.2 ht)
  | create ht => exact .create (hloaded ht)
  | begin cs ht hcs => exact .begin cs (hloaded ht) hcs
  | user cs ht hcs => exact .user cs (hloaded ht) hcs
  | exiting cs ht hcs => exact .exiting cs (hexited.2 ht) hcs
  | gone ht hf => exact .gone (hexited.2 ht) (hfinished hf)

/-- The first call is one that neither begins nor ends the execution of a program. -/
theorem eq_cons_of_plain {d : UserCall} {l : List UserCall} (hc : isPlain c = true)
    (hd : isPlain d = false) (hcs : Plain cs) (he : c :: rest = cs ++ d :: l) :
    ∃ cs', Plain cs' ∧ cs = c :: cs' ∧ rest = cs' ++ d :: l := by
  cases cs with
  | nil =>
    obtain ⟨rfl, -⟩ := List.cons.inj he
    simp [hc] at hd
  | cons e cs' =>
    obtain ⟨rfl, rfl⟩ := List.cons.inj he
    exact ⟨cs', fun e' he' => hcs e' (List.mem_cons_of_mem _ he'), rfl, rfl⟩

/-- The first call is another one. -/
theorem eq_nil_of_not_plain {d : UserCall} {l : List UserCall} (hc : isPlain c = false)
    (hcs : Plain cs) (he : c :: rest = cs ++ d :: l) : cs = [] ∧ c = d ∧ rest = l := by
  cases cs with
  | nil => exact ⟨rfl, List.cons.inj he⟩
  | cons e cs' =>
    obtain ⟨rfl, -⟩ := List.cons.inj he
    simp [hcs c List.mem_cons_self] at hc

/-- A call is completed that neither begins nor ends the execution of a program. -/
theorem tail (h : Course s finished t (c :: rest)) (hc : isPlain c = true) :
    Course s finished t rest := by
  generalize hl : c :: rest = l at h
  cases h with
  | boot | create | gone =>
    obtain ⟨rfl, -⟩ := List.cons.inj hl
    cases hc
  | none n ht =>
    have hmem : c ∈ List.replicate n (.finish : UserCall) := hl ▸ List.mem_cons_self
    rw [List.eq_of_mem_replicate hmem] at hc
    cases hc
  | begin cs ht hcs =>
    obtain ⟨cs', hcs', -, rfl⟩ := eq_cons_of_plain hc rfl hcs hl
    exact .begin cs' ht hcs'
  | user cs ht hcs =>
    obtain ⟨cs', hcs', -, rfl⟩ := eq_cons_of_plain hc rfl hcs hl
    exact .user cs' ht hcs'
  | exiting cs ht hcs =>
    obtain ⟨cs', hcs', -, rfl⟩ := eq_cons_of_plain hc rfl hcs hl
    exact .exiting cs' ht hcs'

/-- A thread calls `Finish`. -/
theorem finish (h : Course s finished t (.finish :: rest)) (hf : finished') :
    Course s finished' t rest := by
  generalize hl : (.finish : UserCall) :: rest = l at h
  cases h with
  | boot | create | gone => cases hl
  | none n ht =>
    cases n with
    | zero => cases hl
    | succ n =>
      obtain ⟨-, rfl⟩ := List.cons.inj hl
      exact .none n ht
  | begin cs ht hcs | user cs ht hcs =>
    obtain ⟨-, hd, -⟩ := eq_nil_of_not_plain rfl hcs hl
    cases hd
  | exiting cs ht hcs =>
    obtain ⟨-, -, rfl⟩ := eq_nil_of_not_plain rfl hcs hl
    exact .gone ht hf

/-- No thread calls `Sleep` itself. -/
theorem ne_sleep (h : Course s finished t (c :: rest)) : c ≠ .sleep := by
  rintro rfl
  generalize hl : (.sleep : UserCall) :: rest = l at h
  cases h with
  | boot | create | gone => cases hl
  | none n ht =>
    have hmem : .sleep ∈ List.replicate n (.finish : UserCall) := hl ▸ List.mem_cons_self
    cases List.eq_of_mem_replicate hmem
  | begin cs ht hcs | user cs ht hcs | exiting cs ht hcs =>
    obtain ⟨-, hd, -⟩ := eq_nil_of_not_plain rfl hcs hl
    cases hd

/-- Where a thread begins or goes on with the execution of its program. -/
theorem of_code (h : Course s finished t (.code code :: rest)) (hf : ¬finished) :
    isPlain (.code code) = true ∨ rest = [.finish] ∧
      (code = .startProcess ∧ t = 1 ∧ s.processId = 0 ∨ s.Loaded t ∧
        (code = .processCreator ∨ code = .initRegisters ∨ code = .run)) := by
  by_cases hc : isPlain (.code code) = true
  · exact .inl hc
  rw [Bool.not_eq_true] at hc
  refine .inr ?_
  generalize hl : (.code code : UserCall) :: rest = l at h
  cases h with
  | boot ht hid =>
    cases hl
    exact ⟨rfl, .inl ⟨rfl, ht, hid⟩⟩
  | create ht =>
    cases hl
    exact ⟨rfl, .inr ⟨ht, .inl rfl⟩⟩
  | gone ht hf' => exact absurd hf' hf
  | none n ht =>
    have hmem : .code code ∈ List.replicate n (.finish : UserCall) := hl ▸ List.mem_cons_self
    cases List.eq_of_mem_replicate hmem
  | begin cs ht hcs =>
    obtain ⟨-, hd, rfl⟩ := eq_nil_of_not_plain hc hcs hl
    cases hd
    exact ⟨rfl, .inr ⟨ht, .inr (.inl rfl)⟩⟩
  | user cs ht hcs =>
    obtain ⟨-, hd, rfl⟩ := eq_nil_of_not_plain hc hcs hl
    cases hd
    exact ⟨rfl, .inr ⟨ht, .inr (.inr rfl)⟩⟩
  | exiting cs ht hcs =>
    obtain ⟨-, hd, -⟩ := eq_nil_of_not_plain hc hcs hl
    cases hd

end Course

/-! ### The invariant -/

namespace UserKernel

/-- The next step is the system call `Exit`. -/
def Exits (k : UserKernel) : Prop :=
  (∃ fs, k.stack k.currentThread = .call (.code .run) :: fs) ∧
    ∃ s, k.env.trapped = some s ∧ s.registers.gpr 2 = 1

/-- What is true in every state. -/
structure Sane (k : UserKernel) : Prop where
  sound : k.Sound 1
  waiting : k.Waiting 1
  course : ∀ t, Course k.env (t ∈ k.history.finished) t (k.tasks t)
  fork : ∀ t pid func, .fork pid func ∈ k.tasks t →
    func = .processCreator ∧ k.ledger.Started pid
  valid : k.ledger.Valid
  lt : k.env.processId < 2 ^ 31

/-- What a step does to the ledger, with what is true afterwards. -/
structure Booked (k k' : UserKernel) (o : Option ℕ) : Prop where
  move : Ledger.Move k.ledger o k'.ledger
  exits : ∀ t, o = some t → t = k.currentThread ∧ k.Exits
  course : ∀ t, Course k'.env (t ∈ k'.history.finished) t (k'.tasks t)
  fork : ∀ t pid func, .fork pid func ∈ k'.tasks t →
    func = .processCreator ∧ k'.ledger.Started pid
  lt : k'.env.processId < 2 ^ 31

variable {k k' : UserKernel}

theorem ledger_eq {l : Ledger} (hid : k.env.processId = l.processId)
    (hnum : k.env.numProcess = l.numProcess) (hpcb : k.env.pcb = l.pcb)
    (hloaded : ∀ t, k.env.Loaded t ↔ t ∈ l.loaded) (hexited : k.env.exited = l.exited)
    (hpending : ∀ t, changesOf (k.tasks t) = l.pending t) : k.ledger = l := by
  cases l
  simp only [ledger, Ledger.mk.injEq]
  exact ⟨hid, hnum, hpcb, Set.ext hloaded, hexited, funext hpending⟩

end UserKernel

/-- The two states have the same data about processes. -/
structure SameBooks (s s' : UserState) : Prop where
  processId : s'.processId = s.processId
  numProcess : s'.numProcess = s.numProcess
  pcb : s'.pcb = s.pcb
  exited : s'.exited = s.exited
  loaded : ∀ t, s'.Loaded t ↔ s.Loaded t

theorem SameProcesses.books {s s' : UserState} (h : SameProcesses s s') : SameBooks s s' :=
  ⟨h.processId, h.numProcess, h.pcb, h.exited, h.loaded_iff⟩

/-- What the kernel does to the environment itself. -/
theorem books_of_adjusts {memAll : MemAll} {merged : Bool} {s s' : UserState}
    (h : (userClient memAll merged).Adjusts s s') : SameBooks s s' := by
  have hall : (s'.processId, s'.numProcess, s'.pcb, s'.exited, s'.memory) =
      (s.processId, s.numProcess, s.pcb, s.exited, s.memory) := by
    refine h.apply_eq (f := fun s => (s.processId, s.numProcess, s.pcb, s.exited, s.memory))
      (fun _ => rfl) (fun t s => ?_) fun t s => ?_
    · simp only [userClient]
      split_ifs <;> rfl
    · simp only [userClient]
      split_ifs <;> rfl
  simp only [Prod.mk.injEq] at hall
  obtain ⟨hid, hnum, hpcb, hexited, hmemory⟩ := hall
  exact ⟨hid, hnum, hpcb, hexited, fun t => by rw [UserState.Loaded, hmemory]; rfl⟩

namespace UserKernel

variable {k k' : UserKernel} {t : ℕ}

/-- The data about processes stay as they are. -/
theorem ledger_congr (hbooks : SameBooks k.env k'.env)
    (hpending : ∀ t, changesOf (k'.tasks t) = changesOf (k.tasks t)) : k'.ledger = k.ledger :=
  ledger_eq hbooks.processId hbooks.numProcess hbooks.pcb hbooks.loaded hbooks.exited hpending

theorem Sane.course_congr (h : k.Sane) (hbooks : SameBooks k.env k'.env)
    (hfinished : t ∈ k.history.finished → t ∈ k'.history.finished) :
    Course k'.env (t ∈ k'.history.finished) t (k.tasks t) :=
  (h.course t).mono (fun _ hid => hbooks.processId.trans hid) (hbooks.loaded t).2
    (by rw [hbooks.exited]) hfinished

/-- Only a call is completed, if any. -/
theorem Sane.booked_of_congr (h : k.Sane) (hbooks : SameBooks k.env k'.env)
    (htasks : ∀ t, k'.tasks t = k.tasks t ∨ (∃ c, changeOf c = none ∧ k.tasks t = c :: k'.tasks t) ∧
      Course k'.env (t ∈ k'.history.finished) t (k'.tasks t))
    (hfinished : k.history.finished ⊆ k'.history.finished) : Booked k k' none := by
  have hledger : k'.ledger = k.ledger := by
    refine ledger_congr hbooks fun t => ?_
    obtain ht | ⟨⟨c, hc, ht⟩, -⟩ := htasks t
    · rw [ht]
    · rw [ht, changesOf, changesOf, List.filterMap_cons, hc]
  refine ⟨hledger ▸ .stay _, nofun, fun t => ?_, fun t pid func hmem => ?_, hbooks.processId ▸ h.lt⟩
  · obtain ht | ⟨-, ht⟩ := htasks t
    · exact ht ▸ h.course_congr hbooks fun hf => hfinished hf
    · exact ht
  · rw [hledger]
    obtain ht | ⟨⟨c, -, ht⟩, -⟩ := htasks t
    · exact h.fork t pid func (ht ▸ hmem)
    · exact h.fork t pid func (ht ▸ List.mem_cons_of_mem c hmem)

/-- A call is completed that is no piece of code. -/
theorem Sane.booked_of_pop (h : k.Sane) {c : UserCall} {rest : List UserCall}
    (henv : k'.env = k.env) (hc : changeOf c = none)
    (htask : k.tasks k.currentThread = c :: rest)
    (htasks : k'.tasks = update k.tasks k.currentThread rest)
    (hcourse : Course k.env (k.currentThread ∈ k'.history.finished) k.currentThread rest)
    (hfinished : k.history.finished ⊆ k'.history.finished) : Booked k k' none := by
  have hbooks : SameBooks k.env k'.env := by
    rw [henv]
    exact ⟨rfl, rfl, rfl, rfl, fun _ => .rfl⟩
  refine h.booked_of_congr hbooks (fun t => ?_) hfinished
  by_cases ht : t = k.currentThread
  · subst ht
    rw [htasks, update_self, henv]
    exact .inr ⟨⟨c, hc, htask⟩, hcourse⟩
  · rw [htasks, update_of_ne ht]
    exact .inl rfl

/-- A process that has not been forked has not exited. -/
theorem Sane.notMem_exited (h : k.Sane) (ht : k.tasks t = []) : t ∉ k.env.exited := by
  have hcourse := h.course t
  generalize hl : k.tasks t = l at hcourse ht
  cases hcourse with
  | none n ht' => exact ht'
  | boot | create | gone => cases ht
  | begin cs | user cs | exiting cs => simp at ht

/-- The thread of a new process begins to run. -/
theorem Sane.booked_of_fork (h : k.Sane) {pid : ℕ} {func : UserCode} {rest : List UserCall}
    {fs : List (Frame ℕ UserSemaphore UserCode)}
    (hstack : k.stack k.currentThread = .call (.fork pid func) :: fs)
    (htask : k.tasks k.currentThread = .fork pid func :: rest) (hnew : k.status pid = .justCreated)
    (htasks : k'.tasks = update (update k.tasks k.currentThread rest) pid [.code func, .finish])
    (henv : k'.env = k.env) (hfinished : k'.history.finished = k.history.finished) :
    Booked k k' none := by
  obtain ⟨rfl, hstarted⟩ := h.fork _ pid func (htask ▸ List.mem_cons_self)
  have hset := h.sound.settled_of_calling hstack (.inl ⟨_, rfl⟩)
  have hfresh : k.tasks pid = [] := by
    have hnot : ¬(pid = 1 ∨ pid ∈ k.history.forked) := fun hf => (hset.forked_iff pid).1 hf hnew
    exact h.waiting.fresh pid (not_or.1 hnot).1 (not_or.1 hnot).2
  have hloaded : k.env.Loaded pid := hstarted.resolve_right (h.notMem_exited hfresh)
  have hne : pid ≠ k.currentThread := by
    rintro rfl
    simp [hfresh] at htask
  have hbooks : SameBooks k.env k'.env := by
    rw [henv]
    exact ⟨rfl, rfl, rfl, rfl, fun _ => .rfl⟩
  have hself : k'.tasks pid = [.code .processCreator, .finish] := by rw [htasks, update_self]
  have hcur : k'.tasks k.currentThread = rest := by
    rw [htasks, update_of_ne hne.symm, update_self]
  have hother : ∀ u, u ≠ pid → u ≠ k.currentThread → k'.tasks u = k.tasks u := fun u hu hu' => by
    rw [htasks, update_of_ne hu, update_of_ne hu']
  have hledger : k'.ledger = k.ledger := by
    refine ledger_congr hbooks fun u => ?_
    by_cases hu : u = pid
    · rw [hu, hself, hfresh]
      rfl
    · by_cases hu' : u = k.currentThread
      · rw [hu', hcur, htask]
        rfl
      · rw [hother u hu hu']
  refine ⟨hledger ▸ .stay _, nofun, fun u => ?_, fun u pid' func hmem => ?_, henv ▸ h.lt⟩
  · rw [henv, hfinished]
    by_cases hu : u = pid
    · rw [hu, hself]
      exact .create hloaded
    · by_cases hu' : u = k.currentThread
      · rw [hu', hcur]
        exact (htask ▸ h.course k.currentThread).tail rfl
      · rw [hother u hu hu']
        exact h.course u
  · rw [hledger]
    by_cases hu : u = pid
    · rw [hu, hself] at hmem
      simp at hmem
    · by_cases hu' : u = k.currentThread
      · rw [hu', hcur] at hmem
        exact h.fork _ _ _ (htask ▸ List.mem_cons_of_mem _ hmem)
      · exact h.fork u _ _ (hother u hu hu' ▸ hmem)

/-! ### Code -/

/-- What is known when the current thread executes a piece of code. -/
structure Executes (k : UserKernel) (k' : UserKernel) (code : UserCode) (calls : List UserCall)
    (rest : List UserCall) : Prop where
  task : k.tasks k.currentThread = .code code :: rest
  tasks : k'.tasks = update k.tasks k.currentThread (calls.filterMap Call.task ++ rest)
  finished : k'.history.finished = k.history.finished

/-- The tasks of the current thread, and those of other threads. -/
theorem Executes.booked {code : UserCode} {calls rest : List UserCall} {o : Option ℕ}
    (he : Executes k k' code calls rest) (h : k.Sane)
    (hmove : Ledger.Move k.ledger o k'.ledger)
    (hexits : ∀ t, o = some t → t = k.currentThread ∧ k.Exits)
    (hid : k.env.processId = 0 → k.currentThread = 1 ∨ k'.env.processId = 0)
    (hloaded : ∀ t ≠ k.currentThread, k.env.Loaded t → k'.env.Loaded t)
    (hexited : ∀ t ≠ k.currentThread, t ∈ k'.env.exited ↔ t ∈ k.env.exited)
    (hcourse : Course k'.env (k.currentThread ∈ k.history.finished) k.currentThread
      (calls.filterMap Call.task ++ rest))
    (hfork : ∀ pid func, .fork pid func ∈ calls.filterMap Call.task →
      func = .processCreator ∧ k'.ledger.Started pid)
    (hstarted : ∀ pid, k.ledger.Started pid → k'.ledger.Started pid)
    (hlt : k'.env.processId < 2 ^ 31) : Booked k k' o := by
  refine ⟨hmove, hexits, fun t => ?_, fun t pid func hmem => ?_, hlt⟩
  · rw [he.tasks, he.finished]
    by_cases ht : t = k.currentThread
    · subst ht
      rw [update_self]
      exact hcourse
    · rw [update_of_ne ht]
      refine (h.course t).mono (fun h1 hz => ?_) (hloaded t ht) (hexited t ht) id
      exact (hid hz).resolve_left fun hcur => ht (h1.trans hcur.symm)
  · rw [he.tasks] at hmem
    by_cases ht : t = k.currentThread
    · subst ht
      rw [update_self] at hmem
      obtain hmem | hmem := List.mem_append.1 hmem
      · exact hfork pid func hmem
      · refine (h.fork k.currentThread pid func ?_).imp_right (hstarted pid)
        rw [he.task]
        exact List.mem_cons_of_mem _ hmem
    · rw [update_of_ne ht] at hmem
      exact (h.fork t pid func hmem).imp_right (hstarted pid)

namespace Executes

variable {code : UserCode} {calls rest : List UserCall} {memAll : MemAll}

theorem pending (he : Executes k k' code calls rest) (t : ℕ) : changesOf (k'.tasks t) =
    update k.ledger.pending k.currentThread (changesOf (calls.filterMap Call.task ++ rest)) t := by
  rw [he.tasks]
  exact congrFun (changesOf_update k.tasks _ _) t

theorem ledger_pending (he : Executes k k' code calls rest) :
    k.ledger.pending k.currentThread = changesOf (.code code :: rest) :=
  congrArg changesOf he.task

/-- The code changes no data about processes. -/
theorem booked_same (he : Executes k k' code calls rest) (h : k.Sane)
    (hbooks : SameBooks k.env k'.env) (hcode : code.isEntry = false)
    (hcalls : changesOf (calls.filterMap Call.task) = [])
    (hfork : ∀ pid func, .fork pid func ∉ calls.filterMap Call.task)
    (hcourse : Course k.env (k.currentThread ∈ k.history.finished) k.currentThread
      (calls.filterMap Call.task ++ rest)) : Booked k k' none := by
  have hledger : k'.ledger = k.ledger := by
    refine ledger_congr hbooks fun t => ?_
    rw [he.pending]
    by_cases ht : t = k.currentThread
    · rw [ht, update_self, changesOf_append, hcalls, he.task]
      simp [changesOf, changeOf, hcode]
    · rw [update_of_ne ht]
      rfl
  refine he.booked h (hledger ▸ .stay _) nofun (fun hz => .inr (hbooks.processId.trans hz))
    (fun t _ => (hbooks.loaded t).2) (fun t _ => by rw [hbooks.exited]) ?_
    (fun pid func hmem => absurd hmem (hfork pid func)) (fun pid => hledger ▸ id)
    (hbooks.processId ▸ h.lt)
  exact hcourse.mono (fun _ hz => hbooks.processId.trans hz) (hbooks.loaded _).2
    (by rw [hbooks.exited]) id

/-- The code makes one change, and the thread goes on. -/
theorem booked_change (he : Executes k k' code [] rest) (h : k.Sane)
    (hmove : Ledger.Move k.ledger none k'.ledger) (hid : k'.env.processId = k.env.processId)
    (hloaded : ∀ t, k'.env.Loaded t ↔ k.env.Loaded t) (hexited : k'.env.exited = k.env.exited)
    (hcode : isPlain (.code code) = true) : Booked k k' none := by
  have hcourse := (he.task ▸ h.course k.currentThread).tail hcode
  refine he.booked h hmove nofun (fun hz => .inr (hid.trans hz)) (fun t _ => (hloaded t).2)
    (fun t _ => by rw [hexited]) ?_ nofun (fun pid => ?_) (hid ▸ h.lt)
  · exact hcourse.mono (fun _ hz => hid.trans hz) (hloaded _).2 (by rw [hexited]) id
  · exact Or.imp (hloaded pid).2 fun hp => (hexited ▸ hp : pid ∈ k'.env.exited)

/-- `++NumProcess` and `NumProcess--`. -/
theorem booked_counter (he : Executes k k' code [] rest) (h : k.Sane) {n : ℤ}
    (henv : k'.env = { k.env with numProcess := n }) (hcode : isPlain (.code code) = true)
    (hmove : Ledger.Move k.ledger none
      { k.ledger with
        numProcess := n
        pending := update k.ledger.pending k.currentThread (changesOf rest) }) :
    Booked k k' none := by
  have hledger : k'.ledger = { k.ledger with
      numProcess := n
      pending := update k.ledger.pending k.currentThread (changesOf rest) } := by
    refine ledger_eq ?_ (by rw [henv]) ?_ (fun t => ?_) ?_ he.pending
    all_goals rw [henv]; rfl
  refine he.booked_change h (hledger ▸ hmove) ?_ (fun t => ?_) ?_ hcode
  all_goals rw [henv]
  exact .rfl

/-- The call of `Append` in `SC_Exec`. -/
theorem booked_append {a pid : ℕ} {list : ProcessList}
    (he : Executes k k' (.append a pid) [] rest) (h : k.Sane)
    (hlist : k.env.pcb.list.append a = .ok list)
    (henv : k'.env = ({ k.env with
      pcb := ⟨list, k.env.pcb.appended ++ [a], k.env.pcb.entries ++ [a]⟩ } : UserState).result
        (BitVec.ofNat 32 pid)) : Booked k k' none := by
  have hledger : k'.ledger = { k.ledger with
      pcb := ⟨list, k.ledger.pcb.appended ++ [a], k.ledger.pcb.entries ++ [a]⟩
      pending := update k.ledger.pending k.currentThread (changesOf rest) } := by
    refine ledger_eq ?_ ?_ ?_ (fun t => ?_) ?_ he.pending
    all_goals rw [henv]; rfl
  have hmove := Ledger.Move.append k.ledger k.currentThread a pid (changesOf rest) list
    he.ledger_pending hlist
  refine he.booked_change h (hledger ▸ hmove) ?_ (fun t => ?_) ?_ rfl
  all_goals rw [henv]
  · rfl
  · exact .rfl
  · rfl

/-- A PID is issued. -/
theorem booked_issue (he : Executes k k' code calls rest) (h : k.Sane)
    (hbooks : SameBooks { k.env with processId := k.env.processId + 1 } k'.env)
    (hlt : k.env.processId + 1 < 2 ^ 31) (hcode : code.isEntry = false)
    (hcalls : changesOf (calls.filterMap Call.task) = [])
    (hfork : ∀ pid func, .fork pid func ∉ calls.filterMap Call.task)
    (hcur : k.env.processId = 0 → k.currentThread = 1)
    (hcourse : Course k'.env (k.currentThread ∈ k.history.finished) k.currentThread
      (calls.filterMap Call.task ++ rest)) : Booked k k' none := by
  have hledger : k'.ledger = { k.ledger with processId := k.ledger.processId + 1 } := by
    refine ledger_eq hbooks.processId hbooks.numProcess hbooks.pcb hbooks.loaded hbooks.exited
      fun t => ?_
    rw [he.pending]
    by_cases ht : t = k.currentThread
    · rw [ht, update_self, changesOf_append, hcalls]
      change _ = k.ledger.pending k.currentThread
      rw [he.ledger_pending]
      simp [changesOf, changeOf, hcode]
    · rw [update_of_ne ht]
  have hmove := Ledger.Move.issue k.ledger
  refine he.booked h (hledger ▸ hmove) nofun (fun hz => .inl (hcur hz))
    (fun t _ ht => (hbooks.loaded t).2 ht) (fun t _ => by rw [hbooks.exited]) hcourse
    (fun pid func hmem => absurd hmem (hfork pid func)) (fun pid => hledger ▸ id) ?_
  rw [hbooks.processId]
  exact hlt

/-- `StartProcess` loads the first process. -/
theorem booked_start (he : Executes k k' .startProcess startCalls [.finish]) (h : k.Sane)
    (hcur : k.currentThread = 1) (hz : k.env.processId = 0) {space : AddrSpace}
    {map : BitMap numPhysPages} {mainMemory : MainMemory} {list : ProcessList}
    (hfound : space.spaceFound = true)
    (hlist : ((ProcessList.empty k.env.pcb.list.element).create (k.env.processId + 1 : ℕ) true
      0).append 0 = .ok list)
    (henv : k'.env = { k.env with
      processId := k.env.processId + 1
      memory := ⟨map, mainMemory, update k.env.memory.space k.currentThread (some space)⟩
      numProcess := 0
      pcb := ⟨list, [0], [0]⟩ }) : Booked k k' none := by
  have hloaded (t : ℕ) : k'.env.Loaded t ↔ t = 1 ∨ k.env.Loaded t := by
    rw [UserState.loaded_of_space_eq (s := k.env) (u := 1) (o := some space) (by rw [henv, hcur])]
    by_cases ht : t = 1 <;> simp [ht, hfound]
  have hledger : k'.ledger = { k.ledger with
      processId := 1
      numProcess := 0
      pcb := ⟨list, [0], [0]⟩
      loaded := insert 1 k.ledger.loaded
      pending := update k.ledger.pending 1 [.countProcess] } := by
    refine ledger_eq (by rw [henv, hz]) (by rw [henv]) (by rw [henv]) hloaded (by rw [henv]; rfl)
      fun t => ?_
    rw [he.pending, hcur]
    rfl
  rw [hz] at hlist
  have hmove := Ledger.Move.start k.ledger hz list hlist
  refine he.booked h (hledger ▸ hmove) nofun (fun _ => .inl hcur)
    (fun t _ ht => (hloaded t).2 (.inr ht)) (fun t _ => by rw [henv]) ?_ (fun pid func hmem => ?_)
    (fun pid hp => ?_) ?_
  · refine .begin [.p .mutexNumProc, .code .countProcess, .v .mutexNumProc]
      ((hloaded _).2 (.inl hcur)) ?_
    simp [Plain, isPlain]
  · simp [startCalls, Call.task] at hmem
  · rw [hledger]
    exact hp.imp_left (Set.mem_insert_of_mem 1)
  · rw [henv, hz]
    change 0 + 1 < 2 ^ 31
    decide

/-- What loading a process does to the books: the new PID is that of a process if space has been
found. -/
structure LoadsFor (s s' : UserState) (t : ℕ) (found : Bool) (cs : List UserCall) : Prop where
  processId : s'.processId = s.processId + 1
  numProcess : s'.numProcess = s.numProcess
  exited : s'.exited = s.exited
  pcb : s'.pcb = { s.pcb with list := s.pcb.list.create (s.processId + 1 : ℕ) found t }
  loaded : ∀ u, s'.Loaded u ↔ s.Loaded u ∨ found = true ∧ u = s.processId + 1
  calls : cs = if found then execCalls s.pcb.list.created (s.processId + 1)
    else [.code (.append s.pcb.list.created (s.processId + 1))]

theorem loadsFor_of_load {memAll : MemAll} {file : OpenFile} {input : UserInput}
    {s₀ s s' : UserState} {t : ℕ} {cs : List UserCall} (hnew : ¬s₀.Loaded (s₀.processId + 1))
    (hsame : SameProcesses { s₀ with processId := s₀.processId + 1 } s)
    (hload : load memAll t file input s = .ok (s', cs)) : ∃ found, LoadsFor s₀ s' t found cs := by
  obtain ⟨space, map, mainMemory, -, rfl, hcs⟩ := load_eq_ok hload
  have hbooks := hsame.books
  have hid : s.processId = s₀.processId + 1 := hbooks.processId
  have hpcb : s.pcb = s₀.pcb := hbooks.pcb
  rw [hid, hpcb] at hcs
  refine ⟨space.spaceFound, hid, hbooks.numProcess, hbooks.exited, by rw [hpcb, hid], fun u => ?_,
    hcs.symm⟩
  have hs : s.Loaded u ↔ s₀.Loaded u := hbooks.loaded u
  rw [UserState.loaded_of_space_eq (s := s) (u := s.processId) (o := some space) rfl, hid, hs]
  split_ifs with hu
  · simp [hu, hnew]
  · simp [hu]

/-- `SC_Exec` loads a process, or finds no space for it. -/
theorem booked_load {memAll : MemAll} {file : OpenFile} {input : UserInput} {s : UserState}
    {cs : List UserCall}
    (he : Executes k k' .run (cs ++ [.oneTick, .code .run]) [.finish]) (h : k.Sane)
    (hlt : k.env.processId + 1 < 2 ^ 31) (hloaded : k.env.Loaded k.currentThread)
    (hsame : SameProcesses { k.env with processId := k.env.processId + 1 } s)
    (hload : load memAll k.currentThread file input s = .ok (k'.env, cs)) : Booked k k' none := by
  have hcur : 1 ≤ k.currentThread ∧ k.currentThread ≤ k.env.processId :=
    h.valid.elements.started_le (.inl hloaded)
  -- nothing has been loaded under the new PID
  have hnew : ¬k.env.Loaded (k.env.processId + 1) := fun hl => by
    have : k.env.processId + 1 ≤ k.env.processId := (h.valid.elements.started_le (.inl hl)).2
    omega
  obtain ⟨found, hl⟩ := loadsFor_of_load hnew hsame hload
  have hcs := hl.calls
  have hpending : changesOf (cs.filterMap Call.task) = (if found then [.countProcess] else []) ++
      [.append k.env.pcb.list.created (k.env.processId + 1)] := by
    rw [hcs]
    split_ifs <;> rfl
  have hledger : k'.ledger = { k.ledger with
      processId := k.ledger.processId + 1
      pcb := { k.ledger.pcb with
        list := k.ledger.pcb.list.create (k.ledger.processId + 1 : ℕ) found k.currentThread }
      loaded := if found then insert (k.ledger.processId + 1) k.ledger.loaded else k.ledger.loaded
      pending := update k.ledger.pending k.currentThread
        ((if found then [.countProcess] else []) ++
          [.append k.ledger.pcb.list.created (k.ledger.processId + 1)]) } := by
    refine ledger_eq hl.processId hl.numProcess hl.pcb (fun t => ?_) hl.exited fun t => ?_
    · rw [hl.loaded]
      change _ ↔ t ∈ if found then insert (k.env.processId + 1) k.ledger.loaded
        else k.ledger.loaded
      split_ifs with hf
      · simp [hf, ledger, or_comm]
      · simp [hf, ledger]
    · rw [he.pending, List.filterMap_append, changesOf_append, changesOf_append, hpending]
      change update _ _ (_ ++ [] ++ []) t = _
      rw [List.append_nil, List.append_nil]
      rfl
  have hmove := Ledger.Move.load k.ledger k.currentThread found hloaded he.ledger_pending
  refine he.booked h (hledger ▸ hmove) nofun (fun hz => ?_)
    (fun t _ ht => (hl.loaded t).2 (.inl ht))
    (fun t _ => iff_of_eq (congrArg (t ∈ ·) hl.exited)) ?_ (fun pid func hmem => ?_)
    (fun pid hp => ?_) (hl.processId ▸ hlt)
  · omega
  · rw [List.filterMap_append, List.append_assoc]
    refine .user (cs.filterMap Call.task) ((hl.loaded _).2 (.inl hloaded)) ?_
    rw [hcs]
    split_ifs <;> simp [Plain, isPlain, execCalls, Call.task]
  · rw [hcs, List.filterMap_append] at hmem
    split_ifs at hmem with hf
    · simp only [execCalls, Call.task, List.filterMap_cons, List.filterMap_nil, List.cons_append,
        List.nil_append, List.mem_cons, reduceCtorEq, Call.fork.injEq, List.not_mem_nil, false_or,
        or_false] at hmem
      obtain ⟨rfl, rfl⟩ := hmem
      exact ⟨rfl, .inl ((hl.loaded _).2 (.inr ⟨hf, rfl⟩))⟩
    · simp [Call.task] at hmem
  · exact hp.imp (fun hp => (hl.loaded pid).2 (.inl hp)) fun hp => by
      rw [hledger]
      exact hp

/-- `SC_Exit`. -/
theorem booked_exit {input : UserInput} {s : UserState} {cs : List UserCall}
    (he : Executes k k' .run (cs ++ [.oneTick, .code .run]) [.finish]) (h : k.Sane)
    (hexits : k.Exits) (hloaded : k.env.Loaded k.currentThread) (hsame : SameProcesses k.env s)
    (hexit : exit k.currentThread input s = .ok (k'.env, cs)) :
    Booked k k' (some k.currentThread) := by
  obtain ⟨-, -, map, mainMemory, pcb, parentPID, parent, -, -, hremove, -, henv, hcs⟩ :=
    exit_eq_ok hexit
  have hbooks := hsame.books
  rw [hbooks.pcb] at hremove
  have hloaded' (t : ℕ) : k'.env.Loaded t ↔ k.env.Loaded t ∧ t ≠ k.currentThread := by
    have hs : s.Loaded t ↔ k.env.Loaded t := hbooks.loaded t
    rw [UserState.loaded_of_space_eq (s := s) (u := k.currentThread) (o := none) (by rw [← henv]),
      hs]
    by_cases ht : t = k.currentThread <;> simp [ht]
  have hexited : k'.env.exited = k.env.exited ++ [k.currentThread] := by
    rw [← henv, ← hbooks.exited]
  have hpending : changesOf (cs.filterMap Call.task) = [.uncountProcess] := by
    rw [← hcs]
    cases parent <;> rfl
  have hledger : k'.ledger = { k.ledger with
      pcb := pcb
      loaded := k.ledger.loaded \ {k.currentThread}
      exited := k.ledger.exited ++ [k.currentThread]
      pending := update k.ledger.pending k.currentThread [.uncountProcess] } := by
    refine ledger_eq (by rw [← henv]; exact hbooks.processId)
      (by rw [← henv]; exact hbooks.numProcess) (by rw [← henv]) hloaded' hexited fun t => ?_
    rw [he.pending, List.filterMap_append, changesOf_append, changesOf_append, hpending]
    rfl
  have hmove := Ledger.Move.exit k.ledger k.currentThread input.parentPID parentPID pcb hloaded
    he.ledger_pending hremove
  have hpid : k'.env.processId = k.env.processId := congrArg Ledger.processId hledger
  refine he.booked h (hledger ▸ hmove) (fun t ht => ?_) (fun hz => .inr (hpid.trans hz))
    (fun t ht hl => (hloaded' t).2 ⟨hl, ht⟩) (fun t ht => ?_) ?_ (fun pid func hmem => ?_)
    (fun pid hp => ?_) (hpid ▸ h.lt)
  · cases ht
    exact ⟨rfl, hexits⟩
  · simp [hexited, ht]
  · have hmem : k.currentThread ∈ k'.env.exited := by simp [hexited]
    rw [← hcs]
    cases parent with
    | none =>
      refine .exiting [.p .mutexNumProc, .code .uncountProcess, .v .mutexNumProc] hmem ?_
      simp [Plain, isPlain]
    | some a =>
      refine .exiting [.v (.process a), .p .mutexNumProc, .code .uncountProcess,
        .v .mutexNumProc] hmem ?_
      simp [Plain, isPlain]
  · rw [← hcs] at hmem
    cases parent <;> simp [exitCalls, Call.task] at hmem
  · by_cases ht : pid = k.currentThread
    · exact .inr (ht ▸ by simp [ledger, hexited])
    · refine hp.imp (fun hp => (hloaded' pid).2 ⟨hp, ht⟩) fun hp => ?_
      rw [hledger]
      exact List.mem_append_left _ hp

/-- An instruction of a user program. -/
theorem booked_run {memAll : MemAll} {isMain : Bool} {input : UserInput} {cs : List UserCall}
    {fs : List (Frame ℕ UserSemaphore UserCode)}
    (he : Executes k k' .run (cs ++ [.oneTick, .code .run]) [.finish]) (h : k.Sane)
    (hstack : k.stack k.currentThread = .call (.code .run) :: fs)
    (hloaded : k.env.Loaded k.currentThread)
    (hrun : instruction memAll isMain k.currentThread input k.env = .ok (k'.env, cs)) :
    ∃ o, Booked k k' o := by
  have hle := h.valid.elements.started_le (.inl hloaded)
  -- a thread that goes on with its program
  have hcourse {s : UserState} {cs' : List UserCall} (hs : s.Loaded k.currentThread)
      (hcs : Plain (cs'.filterMap Call.task)) :
      Course s (k.currentThread ∈ k.history.finished) k.currentThread
        ((cs' ++ ([.oneTick, .code .run] : List UserCall)).filterMap Call.task ++ [.finish]) := by
    rw [List.filterMap_append, List.append_assoc]
    exact .user _ hs hcs
  obtain ⟨s₁, htrap, hsame, ⟨m, hm⟩, hsys⟩ | ⟨-, hsame, rfl⟩ := instruction_eq_ok hrun
  swap
  · exact ⟨none, he.booked_same h hsame.books rfl rfl (by simp [Call.task])
      (hcourse hloaded (by simp [Plain]))⟩
  by_cases hr : s₁.registers.gpr 2 = 1
  · have hexit : exit k.currentThread input s₁ = .ok (k'.env, cs) := by
      simpa [syscall, hr] using hsys
    exact ⟨_, he.booked_exit h ⟨⟨fs, hstack⟩, s₁, htrap, hr⟩ hloaded hsame hexit⟩
  have hexited := exited_of_syscall hr hsys
  cases Effect.of_same hsame (effect_of_syscall hm hsys) with
  | machine hs =>
    exact ⟨none, he.booked_same h hs.books rfl rfl (by simp [Call.task])
      (hcourse hloaded (by simp [Plain]))⟩
  | yield hs =>
    exact ⟨none, he.booked_same h hs.books rfl rfl (by simp [Call.task])
      (hcourse hloaded (by simp [Plain, isPlain, Call.task]))⟩
  | join hs =>
    exact ⟨none, he.booked_same h hs.books rfl rfl (by simp [Call.task])
      (hcourse hloaded (by simp [Plain, isPlain, Call.task]))⟩
  | execFailed hlt hs =>
    refine ⟨none, he.booked_issue h hs.books hlt rfl rfl (by simp [Call.task]) (fun hz => ?_)
      (hcourse ((hs.books.loaded _).2 hloaded) (by simp [Plain]))⟩
    have : k.currentThread ≤ k.env.processId := hle.2
    omega
  | load file hlt hs hload => exact ⟨none, he.booked_load h hlt hloaded hs hload⟩
  | exit hs hexit =>
    obtain ⟨_, _, _, _, _, _, _, -, -, -, -, henv, -⟩ := exit_eq_ok hexit
    have hne : k'.env.exited = s₁.exited ++ [k.currentThread] := by
      rw [← henv, hs.exited, hsame.exited]
    simp [hexited] at hne

/-- `StartProcess`. -/
theorem booked_startProcess {memAll : MemAll} {input : UserInput} {calls : List UserCall}
    (he : Executes k k' .startProcess calls [.finish]) (h : k.Sane) (hcur : k.currentThread = 1)
    (hz : k.env.processId = 0)
    (hstart : startProcess memAll k.currentThread input k.env = .ok (k'.env, calls)) :
    Booked k k' none := by
  have hnot := h.valid.elements.not_started_of_zero hz
  have hexited : k.currentThread ∉ k.env.exited := fun hmem => hnot _ (.inr hmem)
  obtain ⟨henv, rfl⟩ | ⟨hlt, file, map₀, space, map, mainMemory, -, -, h'⟩ :=
    startProcess_eq_ok hstart
  · refine he.booked_same h ?_ rfl rfl (by simp) (.none 1 hexited)
    rw [henv]
    exact (SameProcesses.refl _).books
  obtain ⟨hfound, list, hlist, henv, rfl⟩ | ⟨hfound, henv, rfl⟩ := h'
  · exact he.booked_start h hcur hz hfound hlist henv
  · refine he.booked_issue h ?_ hlt rfl rfl (by simp [Call.task]) (fun _ => hcur) ?_
    · rw [henv]
      refine ⟨rfl, rfl, rfl, rfl, fun t => ?_⟩
      have hspace : ({ k.env with
          processId := k.env.processId + 1
          memory := ⟨map, mainMemory,
            update k.env.memory.space k.currentThread (some space)⟩ } : UserState).memory.space =
          update k.env.memory.space k.currentThread (some space) := rfl
      rw [UserState.loaded_of_space_eq (s := k.env) hspace]
      have ht : ¬k.env.Loaded t := fun hl => hnot t (.inl hl)
      change _ ↔ k.env.Loaded t
      simp [hfound, ht]
    · rw [henv]
      exact .none 2 hexited

/-- A piece of code. -/
theorem booked_code {memAll : MemAll} {merged : Bool} {input : UserInput} {calls : List UserCall}
    {fs : List (Frame ℕ UserSemaphore UserCode)}
    (he : Executes k k' code calls rest) (h : k.Sane)
    (hstack : k.stack k.currentThread = .call (.code code) :: fs)
    (hexec : (userClient memAll merged).exec k.currentThread code input k.env =
      .ok (k'.env, calls)) : ∃ o, Booked k k' o := by
  have hset := h.sound.settled_of_calling hstack (.inl ⟨_, rfl⟩)
  have hcourse := he.task ▸ h.course k.currentThread
  obtain hplain | ⟨rfl, ⟨rfl, hcur, hz⟩ | ⟨hloaded, hcode⟩⟩ :=
    hcourse.of_code hset.current_notMem_finished
  · cases code with
    | startProcess | processCreator | initRegisters | run => cases hplain
    | countProcess =>
      obtain ⟨henv, rfl⟩ := Prod.mk.inj (Except.ok.inj hexec)
      exact ⟨none, he.booked_counter h henv.symm rfl (.count _ _ _ he.ledger_pending)⟩
    | uncountProcess =>
      obtain ⟨henv, rfl⟩ := Prod.mk.inj (Except.ok.inj hexec)
      exact ⟨none, he.booked_counter h henv.symm rfl (.uncount _ _ _ he.ledger_pending)⟩
    | append a pid =>
      obtain ⟨list, hlist, heq⟩ := map_eq_ok.1 hexec
      obtain ⟨henv, rfl⟩ := Prod.mk.inj heq
      exact ⟨none, he.booked_append h hlist henv.symm⟩
    | joined childPID =>
      obtain ⟨henv, rfl⟩ := Prod.mk.inj (Except.ok.inj hexec)
      exact ⟨none, he.booked_same h (henv ▸ (SameProcesses.result 0 k.env).books) rfl rfl
        (by simp) (hcourse.tail hplain)⟩
    | yielded =>
      obtain ⟨henv, rfl⟩ := Prod.mk.inj (Except.ok.inj hexec)
      exact ⟨none, he.booked_same h (henv ▸ (SameProcesses.mapRegisters _ k.env).books) rfl rfl
        (by simp) (hcourse.tail hplain)⟩
  · exact ⟨none, he.booked_startProcess h hcur hz hexec⟩
  obtain rfl | rfl | rfl := hcode
  · obtain ⟨henv, rfl⟩ := Prod.mk.inj (Except.ok.inj hexec)
    exact ⟨none, he.booked_same h (henv ▸ (SameProcesses.refl k.env).books) rfl rfl
      (by simp [Call.task]) (.begin [] hloaded nofun)⟩
  · obtain ⟨space, hspace, -⟩ := id hloaded
    have hspace' : k.env.memory.space k.currentThread = some space := hspace
    simp only [userClient, hspace'] at hexec
    obtain ⟨henv, rfl⟩ := Prod.mk.inj (Except.ok.inj hexec)
    refine ⟨none, he.booked_same h ?_ rfl rfl (by simp [Call.task]) (.user [] hloaded nofun)⟩
    rw [← henv]
    exact ⟨rfl, rfl, rfl, rfl, fun _ => .rfl⟩
  · obtain ⟨⟨s, cs⟩, hrun, heq⟩ := map_eq_ok.1 hexec
    obtain ⟨rfl, rfl⟩ := Prod.mk.inj heq
    exact he.booked_run h hstack hloaded hrun

end Executes

/-! ### Steps -/

/-- Every step is a move of the ledger. -/
theorem Sane.booked_of_step {memAll : MemAll} {merged : Bool} {i : Input Empty UserInput}
    (h : k.Sane) (hw : k.step (userClient memAll merged) i = .ok k') : ∃ o, Booked k k' o := by
  have hfin := Kernel.finished_of_step hw
  -- a thread that executes another call does not finish
  have hsame {f : Frame ℕ UserSemaphore UserCode} {fs : List (Frame ℕ UserSemaphore UserCode)}
      (hstack : k.stack k.currentThread = f :: fs) (hf : f ≠ .call .finish) :
      k'.history.finished = k.history.finished := by
    obtain ⟨⟨fs', hstack'⟩, -⟩ | ⟨-, heq⟩ := hfin
    · rw [hstack] at hstack'
      injection hstack' with he
      exact absurd he hf
    · exact heq
  have hsub : k.history.finished ⊆ k'.history.finished := by
    obtain ⟨-, heq⟩ | ⟨-, heq⟩ := hfin
    · rw [heq]
      exact List.subset_append_left ..
    · rw [heq]
      exact List.Subset.refl _
  cases Kernel.progress_of_step hw with
  | exec code rest fs calls hstack hstack' hexec htask htasks hsem hforked hcur =>
    exact Executes.booked_code ⟨htask, htasks, hsame hstack (by simp)⟩ h hstack hexec
  | fork t func rest fs hstack htask hnew htasks hsem henv hforked hcur =>
    exact ⟨none, h.booked_of_fork hstack htask hnew htasks henv (hsame hstack (by simp))⟩
  | wait s rest fs hstack htask hvalue htasks hsem henv hforked hcur =>
    have hbooks : SameBooks k.env k'.env := henv ▸ (SameProcesses.refl k.env).books
    exact ⟨none, h.booked_of_congr hbooks (fun t => .inl (congrFun htasks t)) hsub⟩
  | take s rest fs hstack htask hvalue htasks hsem henv hforked hcur =>
    have hfin' : k'.history.finished = k.history.finished := by
      obtain hst | hst := hstack
      · exact hsame hst (by simp)
      · exact hsame hst (by simp)
    have hcourse := (htask ▸ h.course k.currentThread).tail rfl
    exact ⟨none, h.booked_of_pop henv rfl htask htasks (hfin' ▸ hcourse) hsub⟩
  | wake s rest fs hstack htask htasks hsem henv hforked hcur =>
    have hcourse := (htask ▸ h.course k.currentThread).tail rfl
    exact ⟨none, h.booked_of_pop henv rfl htask htasks (hsame hstack (by simp) ▸ hcourse) hsub⟩
  | retire call rest fs hcall hstack htask htasks hsem henv hforked hcur =>
    have hcourse := htask ▸ h.course k.currentThread
    obtain rfl | rfl := hcall
    · have hmem : k.currentThread ∈ k'.history.finished := by
        obtain ⟨-, heq⟩ | ⟨hno, -⟩ := hfin
        · simp [heq]
        · exact absurd hstack (hno fs)
      exact ⟨none, h.booked_of_pop henv rfl htask htasks (hcourse.finish hmem) hsub⟩
    · exact absurd rfl hcourse.ne_sleep
  | internal htasks hsem henv hforked =>
    exact ⟨none, h.booked_of_congr (books_of_adjusts henv) (fun t => .inl (congrFun htasks t)) hsub⟩

/-- Every step keeps the invariant. It is a move of the ledger, in which a process exits only if the
step is `Exit`. -/
theorem Sane.step {memAll : MemAll} {merged : Bool} {i : Input Empty UserInput}
    (h : k.Sane) (hw : k.step (userClient memAll merged) i = .ok k') :
    k'.Sane ∧ ∃ o, Ledger.Move k.ledger o k'.ledger ∧
      ∀ t, o = some t → t = k.currentThread ∧ k.Exits := by
  obtain ⟨o, hbooked⟩ := h.booked_of_step hw
  exact ⟨⟨h.sound.step hw, h.waiting.step h.sound hw, hbooked.course, hbooked.fork,
    h.valid.move hbooked.move, hbooked.lt⟩, o, hbooked.move, hbooked.exits⟩

/-- A process that executes an instruction is loaded. -/
theorem Sane.loaded_of_run (h : k.Sane) {fs : List (Frame ℕ UserSemaphore UserCode)}
    (hstack : k.stack k.currentThread = .call (.code .run) :: fs) :
    k.env.Loaded k.currentThread := by
  have hset := h.sound.settled_of_calling hstack (.inl ⟨_, rfl⟩)
  have hcourse := h.course k.currentThread
  rw [Kernel.tasks_of_cons hstack] at hcourse
  obtain hplain | ⟨-, ⟨hcode, -⟩ | ⟨hloaded, -⟩⟩ := hcourse.of_code hset.current_notMem_finished
  · cases hplain
  · cases hcode
  · exact hloaded

theorem sane_boot : UserKernel.boot.Sane := by
  have htasks (t : ℕ) : t = 1 ∧ UserKernel.boot.tasks t = [.code .startProcess, .finish] ∨
      t ≠ 1 ∧ UserKernel.boot.tasks t = [] := by
    by_cases ht : t = 1
    · subst ht
      exact .inl ⟨rfl, rfl⟩
    · refine .inr ⟨ht, ?_⟩
      simp [Kernel.tasks, Threads.boot, ht]
  have hnil (t : ℕ) : UserKernel.boot.ledger.pending t = [] := by
    change changesOf (UserKernel.boot.tasks t) = []
    obtain ⟨-, ht⟩ | ⟨-, ht⟩ := htasks t
    all_goals rw [ht]; rfl
  have hnot (t : ℕ) : ¬UserKernel.boot.ledger.Started t := by
    simp [Ledger.Started, ledger, UserState.Loaded, Threads.boot, UserState.initial]
  have hzero (a : ℕ) : ¬a < UserKernel.boot.ledger.pcb.list.created := Nat.not_lt_zero a
  refine ⟨Kernel.sound_boot _ _ _ _, .boot _ _ _ _, fun t => ?_, fun t pid func hmem => ?_, ?_, ?_⟩
  · obtain ⟨ht, ht'⟩ | ⟨-, ht'⟩ := htasks t
    · exact ht' ▸ .boot ht rfl
    · exact ht' ▸ .none 0 List.not_mem_nil
  · obtain ⟨-, ht⟩ | ⟨-, ht⟩ := htasks t
    all_goals simp [ht] at hmem
  · refine ⟨?_, ⟨fun a ha => absurd ha (hzero a), fun a ha => absurd ha (hzero a),
      fun a ha => absurd ha (hzero a), fun t ht => absurd ht (hnot t),
      fun a ha => absurd ha (hzero a)⟩, fun t ht => absurd (.inr ht) (hnot t), fun t => ?_,
      fun t ht => absurd (hnil t) ht, fun t a pid hmem => ?_, fun a ha => absurd ha (hzero a)⟩
    · exact valid_of_reachable (C := StepSystem.Always) (.init ⟨_, rfl⟩)
    · rw [hnil]
      exact .nil
    · simp [hnil] at hmem
  · decide

/-- The invariant holds in every state that is reached. -/
theorem sane_of_reachable {memAll : MemAll} {merged : Bool}
    {C : UserKernel → Input Empty UserInput → Prop}
    (h : (userSystem memAll merged).Reachable C k) : k.Sane := by
  refine h.invariant Sane ?_ fun _ _ _ hs _ hstep => (hs.step hstep).1
  rintro k rfl
  exact sane_boot

end UserKernel

end Nachos.UserProg
