import Nachos.UserProg.ContextSwitch
import Nachos.UserProg.ReadCall
import Nachos.UserProg.WriteCall

/-!
# The return from a system call

Every case of `ExceptionHandler` for a system call calls `AdvancePC` itself. `Exec`, `Join` and
`Yield` do so after they have called the kernel, where other processes run and use the registers of
the machine.

## Main definitions

* `Traps`: exceptions that are raised in between.
* `Kept`, `Advanced`: what changes in the registers before `AdvancePC` and with it.
* `UserInput.Performs`: `Read` and `Write` do what `ExceptionHandler` does for them.
* `Remaining`: the code that is left of a system call, with the registers that it finds.
* `UserKernel.Held`: the registers of a process, in the machine or as `Run` has saved them.

## Main results

* `UserKernel.Performs.transfersWithin`: `Read` and `Write` stay within the pages of the caller.
* `remaining_of_syscall`: where `ExceptionHandler` has got when it calls the kernel.
* `UserKernel.syscall_advances`: a process that returns from a system call finds its program counter
  advanced once.
-/

namespace Nachos.UserProg

open Foundations StepSystem Threads Machine Function

/-! ### Registers -/

/-- Before `AdvancePC`: register 2 and the address of an exception may have changed. -/
structure Kept (r r' : Registers) : Prop where
  gpr : ∀ x ≠ 2, r'.gpr x = r.gpr x
  pc : r'.pc = r.pc
  nextPC : r'.nextPC = r.nextPC
  loadReg : r'.loadReg = r.loadReg
  loadValue : r'.loadValue = r.loadValue

/-- The program counter has been advanced once. -/
structure Advanced (r r' : Registers) : Prop where
  prevPC : r'.prevPC = r.pc
  pc : r'.pc = r.nextPC
  nextPC : r'.nextPC = r.nextPC + 4
  gpr : ∀ x ≠ 2, r'.gpr x = r.gpr x

/-- Exceptions that the kernel raises when it accesses the memory of a user program. -/
def Traps : Registers → Registers → Prop :=
  Relation.ReflTransGen fun r r' => ∃ (m : Machine) (badVAddr : Word),
    m.registers = r ∧ (m.trap badVAddr).registers = r'

variable {m m' : Machine} {r r' r'' : Registers} {isMain : Bool} {addr : Word}

/-! ### The loops of `SRead` and `SC_Write` -/

section Loops

variable {R : Machine → Machine → Prop}

/-- Every store leads to a related machine, hence so does the loop of `SRead`. -/
theorem related_of_copyOut (hrefl : ∀ m, R m m) (htrans : ∀ m₁ m₂ m₃, R m₁ m₂ → R m₂ m₃ → R m₁ m₃)
    (hwrite : ∀ addr b m written m', writeByte isMain addr b m = .ok (written, m') → R m m')
    {next : ℕ → Except Fault (BitVec 8)} {k num : ℕ}
    {result : ℕ × List (Word × BitVec 8) × Machine}
    (h : copyOut isMain addr next k num m = .ok result) : R m result.2.2 := by
  induction k generalizing num m result with
  | zero =>
    cases h
    exact hrefl m
  | succ k ih =>
    obtain ⟨b, -, h⟩ := bind_eq_ok.1 h
    obtain ⟨⟨written, m₁⟩, hw, h⟩ := bind_eq_ok.1 h
    have hfirst : R m m₁ := hwrite _ _ _ _ _ hw
    by_cases hb : b = 0
    · simp only [if_pos hb] at h
      cases h
      exact hfirst
    · simp only [if_neg hb] at h
      obtain ⟨result', hrest, h⟩ := bind_eq_ok.1 h
      cases h
      exact htrans m m₁ result'.2.2 hfirst (ih hrest)

/-- Every read leads to a related machine, hence so does the loop of `SC_Write`. -/
theorem related_of_copyLoop (htrans : ∀ m₁ m₂ m₃, R m₁ m₂ → R m₂ m₃ → R m₁ m₃)
    (hread : ∀ addr m o m', readByte isMain addr m = .ok (o, m') → R m m')
    {fuel : ℕ} {ch ch' : List (BitVec 8)} (h : copyLoop isMain addr fuel ch m = .ok (ch', m')) :
    R m m' := by
  induction fuel generalizing ch m with
  | zero => cases h
  | succ fuel ih =>
    obtain ⟨⟨i, m₁⟩, hbyte, h⟩ := bind_eq_ok.1 h
    have hfirst : R m m₁ := hread _ _ _ _ hbyte
    cases i with
    | none => exact htrans m m₁ m' hfirst (ih h)
    | some i =>
      dsimp only at h
      split_ifs at h
      · cases h
        exact hfirst
      · exact htrans m m₁ m' hfirst (ih h)

end Loops

/-! ### Exceptions within the kernel -/

namespace Traps

theorem refl (r : Registers) : Traps r r := Relation.ReflTransGen.refl

theorem trans (h : Traps r r') (h' : Traps r' r'') : Traps r r'' := Relation.ReflTransGen.trans h h'

theorem single (m : Machine) (badVAddr : Word) :
    Traps m.registers (m.trap badVAddr).registers :=
  Relation.ReflTransGen.single ⟨m, badVAddr, rfl, rfl⟩

/-- Reading a byte. -/
theorem of_readByte {o : Option Word} (h : readByte isMain addr m = .ok (o, m')) :
    Traps m.registers m'.registers := by
  cases hb : m.userByte addr with
  | ok b =>
    obtain ⟨pt, hread⟩ := outcome_readMem_of_ok hb
    rw [readByte, hread] at h
    cases h
    exact refl _
  | error which =>
    rw [readByte, outcome_readMem_of_error hb] at h
    obtain ⟨m₁, hraise, heq⟩ := map_eq_ok.1 h
    cases heq
    exact eq_of_exceptionHandler hraise ▸ single m addr

theorem of_readName {room : ℕ} {value : Word} {filename : List (BitVec 8)}
    {o : Option (List (BitVec 8))} (h : readName isMain room addr value filename m = .ok (o, m')) :
    Traps m.registers m'.registers := by
  induction room generalizing addr value filename m with
  | zero =>
    unfold readName at h
    split_ifs at h <;> cases h <;> exact refl _
  | succ room ih =>
    unfold readName at h
    split_ifs at h
    · cases h
      exact refl _
    · obtain ⟨⟨next, m₁⟩, hbyte, h⟩ := bind_eq_ok.1 h
      cases next with
      | none =>
        cases h
        exact of_readByte hbyte
      | some next => exact (of_readByte hbyte).trans (ih h)

/-- Reading the name of a file. -/
theorem of_fileName {o : Option (List (BitVec 8))} (h : fileName isMain addr m = .ok (o, m')) :
    Traps m.registers m'.registers := by
  obtain ⟨⟨value, m₁⟩, hbyte, h⟩ := bind_eq_ok.1 h
  cases value with
  | none =>
    cases h
    exact of_readByte hbyte
  | some value => exact (of_readByte hbyte).trans (of_readName h)

/-- Writing a byte. -/
theorem of_writeByte {b : BitVec 8} {written : Bool}
    (h : writeByte isMain addr b m = .ok (written, m')) : Traps m.registers m'.registers := by
  cases hf : m.writeFault addr with
  | none =>
    obtain ⟨m₁, hw, -, hr⟩ := writeByte_of_none isMain hf b
    cases hw.symm.trans h
    exact hr ▸ refl _
  | some which =>
    obtain ⟨-, hw⟩ | ⟨-, hw⟩ := writeByte_of_some isMain hf b
    · cases hw.symm.trans h
    · cases hw.symm.trans h
      exact .single m addr

theorem of_copyOut {next : ℕ → Except Fault (BitVec 8)} {k num : ℕ}
    {result : ℕ × List (Word × BitVec 8) × Machine}
    (h : copyOut isMain addr next k num m = .ok result) :
    Traps m.registers result.2.2.registers :=
  related_of_copyOut (R := fun m m' => Traps m.registers m'.registers) (fun m => refl m.registers)
    (fun _ _ _ => trans) (fun _ _ _ _ _ => of_writeByte) h

theorem of_copyLoop {fuel : ℕ} {ch ch' : List (BitVec 8)}
    (h : copyLoop isMain addr fuel ch m = .ok (ch', m')) : Traps m.registers m'.registers :=
  related_of_copyLoop (R := fun m m' => Traps m.registers m'.registers) (fun _ _ _ => trans)
    (fun _ _ _ _ => of_readByte) h

end Traps

namespace Kept

theorem refl (r : Registers) : Kept r r := ⟨fun _ _ => rfl, rfl, rfl, rfl, rfl⟩

theorem trans (h : Kept r r') (h' : Kept r' r'') : Kept r r'' :=
  ⟨fun x hx => (h'.gpr x hx).trans (h.gpr x hx), h'.pc.trans h.pc, h'.nextPC.trans h.nextPC,
    h'.loadReg.trans h.loadReg, h'.loadValue.trans h.loadValue⟩

/-- Nothing is loaded afterwards either. -/
theorem settled (h : Kept m.registers m'.registers) (hs : Settled m) : Settled m' :=
  ⟨h.loadReg.trans hs.loadReg, h.loadValue.trans hs.loadValue,
    (h.gpr 0 (by decide)).trans hs.zero⟩

theorem trap (hs : Settled m) (badVAddr : Word) : Kept m.registers (m.trap badVAddr).registers := by
  rw [hs.trap]
  exact ⟨fun _ _ => rfl, rfl, rfl, rfl, rfl⟩

/-- Exceptions do not change the registers if no load is delayed. -/
theorem of_traps (h : Traps m.registers r) (hs : Settled m) : Kept m.registers r := by
  induction h with
  | refl => exact .refl _
  | tail _ htrap ih =>
    obtain ⟨m₁, badVAddr, rfl, rfl⟩ := htrap
    exact ih.trans (.trap (ih.settled hs) badVAddr)

/-- The result of a system call. -/
theorem setGpr (m : Machine) (value : Word) : Kept m.registers (m.setGpr 2 value).registers :=
  ⟨fun _ hx => update_of_ne hx _ _, rfl, rfl, rfl, rfl⟩

theorem advancePC (h : Kept r m.registers) : Advanced r (advancePC m).registers :=
  ⟨h.pc, h.nextPC, congrArg (· + 4) h.nextPC, h.gpr⟩

end Kept

/-! ### Read and Write -/

/-- `Read` and `Write` do to the machine what `ExceptionHandler` does for them. -/
def UserInput.Performs (input : UserInput) (isMain : Bool) (type : Word) : Prop :=
  (type = 6 → ∃ word contents junk, input.transfer = read isMain word contents junk) ∧
    (type = 7 → ∃ fuel, input.transfer = fun m => (write isMain fuel m).map Prod.snd)

/-- The program counter has been advanced, and no load is delayed. -/
structure Done (r r' : Registers) : Prop where
  advanced : Advanced r r'
  loadReg : r'.loadReg = 0
  loadValue : r'.loadValue = 0
  zero : r'.gpr 0 = 0

theorem Kept.done {m₁ : Machine} (h : Kept m.registers m₁.registers) (hs : Settled m) :
    Done m.registers (UserProg.advancePC m₁).registers :=
  ⟨h.advancePC, (h.settled hs).loadReg, (h.settled hs).loadValue, (h.settled hs).zero⟩

theorem done_of_read {word : FileSys.CString} {contents : Word → List (BitVec 8)} {junk : Bytes}
    (hs : Settled m) (h : read isMain word contents junk m = .ok m') :
    Done m.registers m'.registers := by
  obtain ⟨⟨result, log, m₁⟩, hread, h⟩ := bind_eq_ok.1 h
  cases h
  obtain ⟨next, k, hcopy⟩ := exists_copyOut_of_sread hread
  have hkept : Kept m.registers m₁.registers := .of_traps (.of_copyOut hcopy) hs
  exact (hkept.trans (.setGpr m₁ _)).done hs

theorem done_of_write {fuel : ℕ} {outputs : List Output} (hs : Settled m)
    (h : write isMain fuel m = .ok (outputs, m')) : Done m.registers m'.registers := by
  obtain ⟨⟨ch, m₁⟩, hloop, h⟩ := bind_eq_ok.1 h
  cases h
  exact (Kept.of_traps (.of_copyLoop hloop) hs).done hs

/-- Storing a byte changes main memory in the pages of the page table only. -/
theorem within_of_writeByte {b : BitVec 8} {written : Bool}
    (h : writeByte isMain addr b m = .ok (written, m')) : m.Within m' := by
  have hrespects : Respects Within (writeMem addr .one (b.signExtend 32)) := inferInstance
  have hrelated := hrespects.related m
  unfold writeByte at h
  split at h
  · rename_i hw
    cases h
    rwa [hw] at hrelated
  · rename_i which badVAddr m₁ hw
    obtain ⟨m₂, hraise, heq⟩ := map_eq_ok.1 h
    cases heq
    rw [hw] at hrelated
    rw [eq_of_exceptionHandler hraise]
    exact IsTrans.trans _ _ _ hrelated (within_trap m₁ badVAddr)
  · cases h

theorem within_of_read {word : FileSys.CString} {contents : Word → List (BitVec 8)} {junk : Bytes}
    (h : read isMain word contents junk m = .ok m') : m.Within m' := by
  obtain ⟨⟨result, log, m₁⟩, hread, h⟩ := bind_eq_ok.1 h
  cases h
  obtain ⟨next, k, hcopy⟩ := exists_copyOut_of_sread hread
  have hwithin : m.Within m₁ := related_of_copyOut (refl_of _) (IsTrans.trans (r := Within))
    (fun _ _ _ _ _ => within_of_writeByte) hcopy
  exact IsTrans.trans _ _ _ hwithin (within_of_registers m₁ _)

theorem within_of_write {fuel : ℕ} {outputs : List Output}
    (h : write isMain fuel m = .ok (outputs, m')) : m.Within m' := by
  obtain ⟨⟨ch, m₁⟩, hloop, h⟩ := bind_eq_ok.1 h
  cases h
  have hwithin : m.Within m₁ := related_of_copyLoop (IsTrans.trans (r := Within))
    (fun _ _ _ _ hread => (reads_of_readByte hread).within) hloop
  exact IsTrans.trans _ _ _ hwithin (within_of_registers m₁ _)

/-- `Read` and `Write` stay within the pages of the page table. -/
theorem UserInput.Performs.transfersWithin {input : UserInput} {type : Word}
    (h : input.Performs isMain type) (htype : type = 6 ∨ type = 7) : input.TransfersWithin := by
  intro m m' htransfer
  rcases htype with htype | htype
  · obtain ⟨word, contents, junk, heq⟩ := h.1 htype
    exact within_of_read (heq ▸ htransfer)
  · obtain ⟨fuel, heq⟩ := h.2 htype
    rw [heq] at htransfer
    obtain ⟨result, hwrite, rfl⟩ := map_eq_ok.1 htransfer
    exact within_of_write hwrite

/-- If the next step is `Read` or `Write`, it does to the machine what `ExceptionHandler` does. -/
def UserKernel.Performs (merged : Bool) (k : UserKernel) (i : Input Empty UserInput) : Prop :=
  ∀ fs s, k.stack k.currentThread = .call (.code .run) :: fs → k.env.trapped = some s →
    i.code.Performs (merged && k.currentThread == 1) (s.registers.gpr 2)

theorem UserKernel.Performs.transfersWithin {merged : Bool} {k : UserKernel}
    {i : Input Empty UserInput} (h : k.Performs merged i) : k.TransfersWithin i := by
  rintro (⟨⟨fs, hst⟩, s, htrapped, htype⟩ | ⟨⟨fs, hst⟩, s, htrapped, htype⟩)
  · exact (h fs s hst htrapped).transfersWithin (.inl htype)
  · exact (h fs s hst htrapped).transfersWithin (.inr htype)

/-- A step that calls neither `Read` nor `Write`. -/
theorem UserKernel.performs_of_nothing {merged : Bool} {k : UserKernel} {i : Input Empty UserInput}
    (h : k.transfersNothing = true) : k.Performs merged i := by
  simp only [transfersNothing, Bool.and_eq_true, Bool.not_eq_true'] at h
  intro fs s hst htrapped
  exact ⟨fun htype => (not_calls_of_test h.1 ⟨⟨fs, hst⟩, s, htrapped, htype⟩).elim,
    fun htype => (not_calls_of_test h.2 ⟨⟨fs, hst⟩, s, htrapped, htype⟩).elim⟩

/-! ### The code of a system call -/

/-- The code calls `AdvancePC`. -/
def UserCode.completes : UserCode → Bool
  | append _ _ | joined _ | yielded => true
  | _ => false

/-- The code changes `NumProcess` only. -/
def UserCode.counts : UserCode → Bool
  | countProcess | uncountProcess => true
  | _ => false

/-- The code among the calls that are left. -/
def codesOf (fs : List (Frame ℕ UserSemaphore UserCode)) : List UserCode :=
  fs.filterMap fun
    | .call (.code code) => some code
    | _ => none

theorem codesOf_append (fs fs' : List (Frame ℕ UserSemaphore UserCode)) :
    codesOf (fs ++ fs') = codesOf fs ++ codesOf fs' := List.filterMap_append

theorem codesOf_eq_nil {fs : List (Frame ℕ UserSemaphore UserCode)}
    (h : ∀ code, .call (.code code) ∉ fs) : codesOf fs = [] := by
  refine List.filterMap_eq_nil_iff.2 fun f hf => ?_
  split
  · exact absurd hf (h _)
  · rfl

/-- The code that is left of a system call, which was called with the registers `r`, when it goes on
with other registers. -/
inductive Remaining (r : Registers) : Registers → List UserCode → Prop
  /-- The last piece of code calls `AdvancePC`. -/
  | pending {r' : Registers} (cs : List UserCode) (code : UserCode)
    (hcs : ∀ c ∈ cs, c.counts = true) (hcode : code.completes = true) (h : Kept r r') :
    Remaining r r' (cs ++ [code])
  /-- `AdvancePC` has been called. -/
  | done {r' : Registers} (cs : List UserCode) (hcs : ∀ c ∈ cs, c.counts = true)
    (h : Done r r') : Remaining r r' cs

variable {s s' : UserState} {t : ℕ} {memAll : MemAll} {merged : Bool} {input : UserInput}
  {calls : List UserCall} {code : UserCode} {cs : List UserCode}

/-- No load is delayed until the system call returns. -/
theorem Remaining.settled (h : Remaining m.registers m'.registers cs) (hs : Settled m) :
    Settled m' := by
  cases h with
  | pending _ _ _ _ h => exact h.settled hs
  | done _ _ h => exact ⟨h.loadReg, h.loadValue, h.zero⟩

/-- Nothing is left. -/
theorem Remaining.of_nil (h : Remaining r r' []) : Done r r' := by
  generalize hl : [] = l at h
  cases h with
  | pending cs code => exact absurd hl (List.append_ne_nil_of_right_ne_nil cs (by simp)).symm
  | done _ _ h => exact h

/-- The first piece of code. -/
theorem Remaining.of_cons (h : Remaining r r' (code :: cs)) :
    code.counts = true ∧ Remaining r r' cs ∨ code.completes = true ∧ Kept r r' ∧ cs = [] := by
  generalize hl : code :: cs = l at h
  cases h with
  | pending cs' code' hcs hcode hkept =>
    cases cs' with
    | nil =>
      cases hl
      exact .inr ⟨hcode, hkept, rfl⟩
    | cons c cs' =>
      cases hl
      exact .inl ⟨hcs code List.mem_cons_self,
        .pending cs' code' (fun d hd => hcs d (List.mem_cons_of_mem code hd)) hcode hkept⟩
  | done _ hcs h =>
    subst hl
    exact .inl ⟨hcs code List.mem_cons_self,
      .done cs (fun d hd => hcs d (List.mem_cons_of_mem code hd)) h⟩

theorem Kept.mapRegisters (h : Kept m.registers s.registers) (hs : Settled m) :
    Done m.registers (s.mapRegisters UserProg.advancePC).registers :=
  @Kept.done m ⟨s.registers, [], s.memory.mainMemory⟩ h hs

theorem Kept.result (h : Kept m.registers s.registers) (hs : Settled m) (value : Word) :
    Done m.registers (s.result value).registers :=
  (h.trans (.setGpr ⟨s.registers, [], s.memory.mainMemory⟩ value)).done hs

theorem Remaining.of_done (h : Done r r') : Remaining r r' [] := .done [] nofun h

theorem UserState.registers_of_machine (h : s.machine = .ok m) : m.registers = s.registers := by
  obtain ⟨_, _, _, -, -, -, rfl⟩ := UserState.machine_eq_ok.1 h
  rfl

theorem remaining_of_exec (hm : s.machine = .ok m) (hs : Settled m)
    (h : exec memAll isMain t input s = .ok (s', calls)) :
    Remaining m.registers s'.registers (codesOf (calls.map .call)) := by
  obtain ⟨-, m₁, filename, m₂, hm₁, hname, h⟩ := exec_eq_ok h
  have hr₁ : m₁.registers = m.registers :=
    (UserState.registers_of_machine hm₁).trans (UserState.registers_of_machine hm).symm
  have hs₁ : Settled m₁ := (hr₁ ▸ Kept.refl _ : Kept m.registers m₁.registers).settled hs
  have hkept : Kept m.registers m₂.registers := hr₁ ▸ Kept.of_traps (.of_fileName hname) hs₁
  obtain ⟨-, rfl, rfl⟩ | ⟨name, rfl, ⟨-, rfl, rfl⟩ | ⟨file, -, hload⟩⟩ := h
  · exact .of_done (Kept.result hkept hs _)
  · exact .of_done (Kept.mapRegisters hkept hs)
  · obtain ⟨space, map, mainMemory, -, rfl, rfl⟩ := load_eq_ok hload
    split_ifs
    · exact .pending [.countProcess] _ (by simp [UserCode.counts]) rfl hkept
    · exact .pending [] _ nofun rfl hkept

theorem remaining_of_join (hm : s.machine = .ok m) (hs : Settled m)
    (h : join s = .ok (s', calls)) :
    Remaining m.registers s'.registers (codesOf (calls.map .call)) := by
  have hkept : Kept m.registers s.registers := UserState.registers_of_machine hm ▸ .refl _
  obtain ⟨rfl, rfl⟩ | ⟨rfl, rfl⟩ | ⟨rfl, parent, rfl⟩ := join_eq_ok h
  · exact .of_done (hkept.result hs _)
  · exact .of_done (hkept.mapRegisters hs)
  · exact .pending [] _ nofun rfl hkept

theorem codesOf_exitCalls (parent : Option ℕ) :
    codesOf ((exitCalls parent).map .call) = [.uncountProcess] := by
  cases parent <;> rfl

/-- Where `ExceptionHandler` has got when it calls the kernel or returns. -/
theorem remaining_of_syscall (hm : s.machine = .ok m) (hs : Settled m)
    (hperforms : input.Performs isMain (s.registers.gpr 2))
    (h : syscall memAll isMain t input s = .ok (s', calls)) :
    Remaining m.registers s'.registers (codesOf (calls.map .call)) := by
  have hkept : Kept m.registers s.registers := UserState.registers_of_machine hm ▸ .refl _
  dsimp only [syscall] at h
  split_ifs at h with h₀ h₁ h₂ h₃ h₆ h₁₀
  · obtain ⟨_, _, _, _, _, _, parent, -, -, -, -, rfl, rfl⟩ := exit_eq_ok h
    rw [codesOf_exitCalls]
    exact .done _ (by simp [UserCode.counts]) (hkept.mapRegisters hs)
  · exact remaining_of_exec hm hs h
  · exact remaining_of_join hm hs h
  · rw [hm, ok_bind] at h
    obtain ⟨m', htransfer, h⟩ := bind_eq_ok.1 h
    cases h
    refine .of_done ?_
    rcases h₆ with h₆ | h₇
    · obtain ⟨word, contents, junk, heq⟩ := hperforms.1 h₆
      rw [heq] at htransfer
      exact done_of_read hs htransfer
    · obtain ⟨fuel, heq⟩ := hperforms.2 h₇
      rw [heq] at htransfer
      obtain ⟨⟨outputs, m₁⟩, hwrite, rfl⟩ := map_eq_ok.1 htransfer
      exact done_of_write hs hwrite
  · cases h
    exact .pending [] _ nofun rfl hkept
  · cases h
    exact .of_done (hkept.mapRegisters hs)

/-- The code that counts processes. -/
theorem exec_of_counts (hcode : code.counts = true)
    (h : (userClient memAll merged).exec t code input s = .ok (s', calls)) :
    s'.registers = s.registers ∧ calls = [] := by
  cases code <;> first | contradiction | (cases h; exact ⟨rfl, rfl⟩)

/-- The code that calls `AdvancePC`. -/
theorem exec_of_completes (hcode : code.completes = true) (hs : Settled m)
    (hkept : Kept m.registers s.registers)
    (h : (userClient memAll merged).exec t code input s = .ok (s', calls)) :
    Done m.registers s'.registers ∧ calls = [] := by
  cases code with
  | append a pid =>
    obtain ⟨list, -, heq⟩ := map_eq_ok.1 h
    cases heq
    exact ⟨Kept.result hkept hs _, rfl⟩
  | joined =>
    cases h
    exact ⟨hkept.result hs _, rfl⟩
  | yielded =>
    cases h
    exact ⟨hkept.mapRegisters hs, rfl⟩
  | _ => contradiction

/-! ### The registers of a process -/

theorem Settled.delayedLoad (h : Settled m) : (m.delayedLoad 0 0).registers = m.registers :=
  congrArg Machine.registers (h.trap m.registers.badVAddr)

/-- Interrupts do not change the registers if no load is delayed. -/
theorem registers_of_loads (h : (userClient memAll merged).Loads s s')
    (hs : ∀ m : Machine, m.registers = s.registers → Settled m) : s'.registers = s.registers := by
  induction h with
  | refl => rfl
  | tail _ hload ih =>
    rw [hload]
    exact (Settled.delayedLoad (hs _ ih)).trans ih

namespace UserKernel

variable {k k' k₁ k₂ : UserKernel} {i : Input Empty UserInput} {p : ℕ}
  {f : Frame ℕ UserSemaphore UserCode} {fs : List (Frame ℕ UserSemaphore UserCode)}

/-- The registers of a process, in the machine or as `Run` has saved them. -/
inductive Held (k : UserKernel) (p : ℕ) (r : Registers) : Prop
  | running (hcur : k.currentThread = p) (hmem : .afterSwitch ∉ k.stack p)
    (hr : k.env.registers = r)
  | switched (fs : List (Frame ℕ UserSemaphore UserCode)) (hst : k.stack p = .afterSwitch :: fs)
    (hmem : .afterSwitch ∉ fs) (hr : k.env.userRegisters p = r)

/-- Other processes do not change the registers of a process. -/
theorem Held.step_of_ne (h : k.Held p r) (hs : k.Sane) (hruns : k.Runs p)
    (hne : p ≠ k.currentThread) (hw : k.step (userClient memAll merged) i = .ok k') :
    k'.Held p r := by
  cases h with
  | running hcur _ _ => exact absurd hcur.symm hne
  | switched fs hst hmem hr =>
    exact .switched fs ((hs.stack_of_ne hw hruns hne).trans hst) hmem
      ((hs.userRegisters_step hw hne).trans hr)

/-- The kernel does not change the registers of the process that calls it. -/
theorem Held.step (h : k.Held k.currentThread r) (hs : k.Sane) (hruns : k.Runs k.currentThread)
    (hset : ∀ m : Machine, m.registers = r → Settled m) (hadv : k.Advances k' f fs)
    (hcode : ∀ code, f ≠ .call (.code code))
    (hw : k.step (userClient memAll merged) i = .ok k') : k'.Held k.currentThread r := by
  obtain ⟨rest, hst, hst'⟩ := hadv.current
  cases h with
  | running _ hmem hr =>
    rw [hst] at hmem
    obtain ⟨hf, hrest⟩ := not_or.1 (List.mem_cons.not.1 hmem)
    by_cases hrun : ∃ next, f = .run next
    · obtain ⟨next, rfl⟩ := hrun
      obtain ⟨hst₁, henv, -⟩ := Kernel.out_of_step hst hw
      refine .switched rest hst₁ hrest ?_
      rw [henv]
      simp only [userClient, hs.hasSpace hruns, if_true, update_self]
      exact hr
    · cases Kernel.turn_of_step hadv hw with
      | exec code _ hf' => exact absurd hf' (hcode code)
      | out next hf' => exact absurd ⟨next, hf'⟩ hrun
      | back hf' => exact absurd hf'.symm hf
      | stays _ _ henv hcur =>
        exact .running hcur
          (Kernel.afterSwitch_notMem_of_step hst (fun next hf' => hrun ⟨next, hf'⟩) hrest hw)
          ((registers_of_loads henv (hr ▸ hset)).trans hr)
  | switched fs' hst₀ hmem hr =>
    cases hst.symm.trans hst₀
    cases Kernel.turn_of_step hadv hw with
    | exec code _ hf' => cases hf'
    | out next hf' => cases hf'
    | back hf' hfs henv hcur =>
      subst hfs
      refine .running hcur (hst' ▸ hmem) ?_
      rw [henv]
      simp only [userClient, hs.hasSpace hruns, if_true]
      exact hr
    | stays hf' => exact absurd rfl hf'

/-! ### Until the system call returns -/

/-- The process `p` has returned from a system call. -/
def Returned (k : UserKernel) (p : ℕ) (fs : List (Frame ℕ UserSemaphore UserCode)) : Prop :=
  k.stack p = .call .oneTick :: .call (.code .run) :: fs

/-- The process `p` is in a system call, which found the machine `m`, or returns from it. -/
structure InSyscall (m : Machine) (p : ℕ) (fs : List (Frame ℕ UserSemaphore UserCode))
    (k : UserKernel) : Prop where
  sane : k.Sane
  rest : ∃ above r, k.stack p = above ++ .call .oneTick :: .call (.code .run) :: fs ∧ k.Held p r ∧
    Remaining m.registers r (codesOf above)

/-- The process executes code of its system call. -/
theorem InSyscall.exec {above : List (Frame ℕ UserSemaphore UserCode)} (hm : Settled m)
    (hst : k.stack k.currentThread =
      .call (.code code) :: above ++ .call .oneTick :: .call (.code .run) :: fs)
    (hheld : k.Held k.currentThread r)
    (hrem : Remaining m.registers r (codesOf (.call (.code code) :: above))) (hs' : k'.Sane)
    (hw : k.step (userClient memAll merged) i = .ok k') : k'.InSyscall m k.currentThread fs := by
  cases hheld with
  | switched fs' hst' => cases hst.symm.trans hst'
  | running _ hmem hr =>
    subst hr
    rw [hst, List.cons_append] at hmem
    obtain ⟨calls, hexec, hk'⟩ := Kernel.exec_of_step hst hw
    have hst' : k'.stack k.currentThread = calls.map .call ++
        (above ++ .call .oneTick :: .call (.code .run) :: fs) := by
      rw [← hk']
      exact update_self ..
    have hcur : k'.currentThread = k.currentThread := by rw [← hk']
    have hmem' := (not_or.1 (List.mem_cons.not.1 hmem)).2
    rcases hrem.of_cons with ⟨hcounts, hrem'⟩ | ⟨hcompletes, hkept, hnil⟩
    · obtain ⟨hr', rfl⟩ := exec_of_counts hcounts hexec
      exact ⟨hs', above, _, hst', .running hcur (hst' ▸ hmem') hr', hrem'⟩
    · obtain ⟨hdone, rfl⟩ := exec_of_completes hcompletes hm hkept hexec
      refine ⟨hs', above, _, hst', .running hcur (hst' ▸ hmem') rfl, ?_⟩
      have habove : codesOf above = [] := hnil
      rw [habove]
      exact .of_done hdone

/-- A step does not change the registers, unless it calls `AdvancePC`. -/
theorem InSyscall.step (h : k.InSyscall m p fs) (hm : Settled m) (hret : ¬k.Returned p fs)
    (hw : k.step (userClient memAll merged) i = .ok k') : k'.InSyscall m p fs := by
  obtain ⟨hs, above, r, hst, hheld, hrem⟩ := h
  have hs' := (hs.step hw).1
  have hruns : k.Runs p := by
    unfold Runs
    rw [hst]
    simp
  by_cases hp : p = k.currentThread
  · subst hp
    cases above with
    | nil => exact absurd hst hret
    | cons f above =>
      by_cases hcode : ∃ code, f = .call (.code code)
      · obtain ⟨code, rfl⟩ := hcode
        exact .exec hm hst hheld hrem hs' hw
      · obtain ⟨f', fs', hadv⟩ := hs.sound.advances_of_step hw
        obtain ⟨rest, hst₁, hst'⟩ := hadv.current
        obtain ⟨rfl, rfl⟩ := List.cons.inj (hst.symm.trans hst₁)
        have hset (n : Machine) (hn : n.registers = r) : Settled n := by
          subst hn
          exact hrem.settled hm
        refine ⟨hs', fs' ++ above, r, hst'.trans (List.append_assoc ..).symm,
          hheld.step hs hruns hset hadv (fun code hf => hcode ⟨code, hf⟩) hw, ?_⟩
        rw [codesOf_append, codesOf_eq_nil fun code hmem => ?_, List.nil_append]
        · rwa [← List.singleton_append, codesOf_append, codesOf_eq_nil fun code hmem => ?_,
            List.nil_append] at hrem
          exact hcode ⟨code, (List.mem_singleton.1 hmem).symm⟩
        · obtain ⟨code', hf⟩ := hadv.code code hmem
          exact hcode ⟨code', hf⟩
  · exact ⟨hs', above, r, (hs.stack_of_ne hw hruns hp).trans hst,
      hheld.step_of_ne hs hruns hp hw, hrem⟩

/-- `RaiseException` has performed a delayed load. -/
theorem settled_of_trapped (htrap : s.trapped = some s') (hm : s'.machine = .ok m) :
    Settled m := by
  unfold UserState.trapped at htrap
  split at htrap
  · cases htrap
  · split at htrap
    · rename_i which badVAddr m₁ _
      split_ifs at htrap
      cases htrap
      have hr := UserState.registers_of_machine hm
      rw [UserState.setMachine_registers] at hr
      exact (hr ▸ Kept.refl _ : Kept (m₁.trap badVAddr).registers m.registers).settled
        (settled_trap m₁ badVAddr)
    · cases htrap

/-- The process enters a system call. -/
theorem InSyscall.of_trapped (hs : k.Sane)
    (hst : k.stack k.currentThread = .call (.code .run) :: fs) (htrap : k.env.trapped = some s)
    (hperforms : i.code.Performs (merged && k.currentThread == 1) (s.registers.gpr 2))
    (hw : k.step (userClient memAll merged) i = .ok k') :
    ∃ m, s.machine = .ok m ∧ Settled m ∧ k'.InSyscall m k.currentThread fs := by
  obtain ⟨calls, hexec, hk'⟩ := Kernel.exec_of_step hst hw
  have hst' : k'.stack k.currentThread = calls.map .call ++ fs := by
    rw [← hk']
    exact update_self ..
  have hcur : k'.currentThread = k.currentThread := by rw [← hk']
  have hclient : IsClientCode (k'.stack k.currentThread) := by
    rw [hst']
    refine isClientCode_map_append calls fun f hf => ?_
    exact hs.sound.isClientCode hst f (List.mem_cons_of_mem _ hf)
  obtain ⟨⟨s', cs⟩, hrun, heq⟩ := map_eq_ok.1 hexec
  obtain ⟨henv, rfl⟩ := Prod.mk.inj heq
  obtain ⟨s₁, htrap₁, -, ⟨m, hm⟩, hcall⟩ | ⟨hnone, -⟩ := instruction_eq_ok hrun
  · cases htrap.symm.trans htrap₁
    have hset := settled_of_trapped htrap hm
    refine ⟨m, hm, hset, (hs.step hw).1, cs.map .call, _, ?_,
      .running hcur (fun hmem => ?_) rfl, ?_⟩
    · rw [hst', List.map_append, List.append_assoc]
      rfl
    · obtain ⟨call, hcall⟩ := hclient _ hmem
      cases hcall
    · rw [← henv]
      exact remaining_of_syscall hm hset hperforms hcall
  · cases htrap.symm.trans hnone

/-- A process that returns from a system call finds that the program counter has been advanced once,
and that no general register other than 2 has changed since `ExceptionHandler` was called. The
invariant of the processes, which holds in every state that is reached (`sane_of_reachable`), says
nothing about the registers and the memory of the machine. -/
theorem syscall_advances (memAll : MemAll) (merged : Bool) (k k₁ k₂ : UserKernel)
    (i : Input Empty UserInput) (s : UserState) (fs : List (Frame ℕ UserSemaphore UserCode))
    (h : k.Sane) (hst : k.stack k.currentThread = .call (.code .run) :: fs)
    (htrap : k.env.trapped = some s)
    (hperforms : i.code.Performs (merged && k.currentThread == 1) (s.registers.gpr 2))
    (hw : k.step (userClient memAll merged) i = .ok k₁)
    (hsteps : (userSystem memAll merged).Steps (fun k' _ => ¬k'.Returned k.currentThread fs) k₁ k₂)
    (hret : k₂.Returned k.currentThread fs) :
    k₂.currentThread = k.currentThread ∧ Advanced s.registers k₂.env.registers := by
  obtain ⟨m, hm, hset, hin⟩ := InSyscall.of_trapped h hst htrap hperforms hw
  obtain ⟨-, above, r, hst₂, hheld, hrem⟩ :=
    hsteps.invariant (InSyscall m k.currentThread fs) hin fun _ _ _ hk hC hw => hk.step hset hC hw
  have habove : above = [] := List.append_left_eq_self.1 (hst₂.symm.trans hret)
  subst habove
  cases hheld with
  | switched fs' hst' => cases hret.symm.trans hst'
  | running hcur _ hr =>
    subst hr
    rw [← UserState.registers_of_machine hm]
    exact ⟨hcur, hrem.of_nil.advanced⟩

instance (k : UserKernel) (p : ℕ) (fs : List (Frame ℕ UserSemaphore UserCode)) :
    Decidable (k.Returned p fs) := inferInstanceAs (Decidable (_ = _))

/-- The first process calls `Join`, and returns when the process that it has created has exited. -/
theorem syscall_advances_of_join : ∃ (k k₁ k₂ : UserKernel) (i : Input Empty UserInput)
    (s : UserState), k.Sane ∧ k.env.trapped = some s ∧ s.registers.gpr 2 = 3 ∧
    k.step (userClient .firstFit false) i = .ok k₁ ∧
    (userSystem .firstFit false).Steps (fun k' _ => ¬k'.Returned 1 [.call .finish]) k₁ k₂ ∧
    k₂.Returned 1 [.call .finish] ∧ k₂.env.exited = [2] ∧
    Advanced s.registers k₂.env.registers := by
  let i := userInput false none
  obtain ⟨k, hk, ht⟩ := exists_reachable_of_runInputsIf (S := userSystem .firstFit false)
    (C := TransfersWithin) (show (userSystem .firstFit false).init boot from rfl)
    (c := fun k _ => k.transfersNothing) (fun _ _ => transfersWithin_of_nothing)
    (userInputs joinProgram (fun _ => some exitProgram) [] 29)
    (fun k : UserKernel => k.currentThread = 1 ∧
      k.stack 1 = [.call (.code .run), .call .finish] ∧
      (k.env.trapped.any fun s => s.registers.gpr 2 == 3) ∧
      (k.step (userClient .firstFit false) i).toOption.any fun k₁ =>
        ((userSystem .firstFit false).runInputsIf
          (fun k _ => !decide (k.Returned 1 [.call .finish])) k₁ (.replicate 31 i)).any fun k₂ =>
            decide (k₂.Returned 1 [.call .finish] ∧ k₂.env.exited = [2]))
    (by decide +kernel)
  simp only [decide_eq_true_eq, Option.any_eq_true, beq_iff_eq] at ht
  obtain ⟨hcur, hst, ⟨s, htrap, htype⟩, k₁, hw, k₂, hrun, hret, hexited⟩ := ht
  have hw' := toOption_eq_some.1 hw
  have hsteps : (userSystem .firstFit false).Steps (fun k' _ => ¬k'.Returned 1 [.call .finish])
      k₁ k₂ := steps_of_runInputsIf (fun _ _ hc => by simpa using hc) hrun
  have hsane : k.Sane := sane_of_reachable hk
  have hperforms : i.code.Performs (false && k.currentThread == 1) (s.registers.gpr 2) := by
    rw [htype]
    exact ⟨fun h => absurd h (by decide), fun h => absurd h (by decide)⟩
  refine ⟨k, k₁, k₂, i, s, hsane, htrap, htype, hw', hsteps, hret, hexited, ?_⟩
  rw [← hcur] at hst hsteps hret
  exact (syscall_advances .firstFit false k k₁ k₂ i s [.call .finish] hsane hst htrap hperforms hw'
    hsteps hret).2

end UserKernel

end Nachos.UserProg
