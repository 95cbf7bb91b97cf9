import Nachos.FileSys.Directory
import Nachos.UserProg.UserMemory

/-!
# Read

`SRead` copies a word from the keyboard or bytes of a file to user memory. It stops behind the first
zero byte that it has copied, and does not count that byte. For a word it copies the zero at the end
as well, and up to `size + 1` characters of a longer word. The results of `WriteMem` are not used: a
byte that cannot be written is counted like the others.

## Main definitions

* `writeByte`, `copyOut`, `sread`: `SRead`.
* `read`: `SC_Read`.
* `copies`: what the loop returns and stores, as a function of the addresses that can be written.
* `ReadsInside`, `ReadsExactly`: two readings of what `Read` promises.

## Main results

* `copyOut_eq`: the loop and `copies` agree.
* `sread_inside_and_exact_iff`: the inputs on which `Read` keeps its promise.
-/

namespace Nachos

open Foundations UserProg

/-- The exception that `WriteMem` of one byte raises. -/
def Machine.writeFault (m : Machine) (addr : Word) : Option ExceptionType :=
  match Machine.translate m.pageTable addr .one true with
  | .error which => some which
  | .ok _ => none

theorem Machine.writeFault_congr {m m' : Machine} (h : TableBelow m.pageTable m'.pageTable) :
    m'.writeFault = m.writeFault := by
  funext addr
  rw [writeFault, writeFault]
  rcases translate_congr h addr .one true with ⟨which, h₁, h₂⟩ | ⟨a, _, _, h₁, h₂, -⟩ <;>
    rw [h₁, h₂]

namespace UserProg

open Machine

/-! ### The code -/

/-- `machine->WriteMem(addr, 1, value)` within the kernel, for a `char`. -/
def writeByte (isMain : Bool) (addr : Word) (value : BitVec 8) (m : Machine) :
    Except Fault (Bool × Machine) :=
  match (writeMem addr .one (value.signExtend 32)).outcome m with
  | (.ok (), m) => .ok (true, m)
  | (.error (.exception which badVAddr), m) =>
    (raiseException (exceptionHandler isMain fun _ => .error .disabled) which badVAddr m).map
      fun m => (false, m)
  | (.error (.fault f), _) => .error f

/-- The loops of `SRead` from `num` on, with `k` iterations left. `next num` is `buffer[num]`. The
result contains the bytes that have been stored with their addresses. -/
def copyOut (isMain : Bool) (addr : Word) (next : ℕ → Except Fault (BitVec 8)) :
    ℕ → ℕ → Machine → Except Fault (ℕ × List (Word × BitVec 8) × Machine)
  | 0, num, m => .ok (num, [], m)
  | k + 1, num, m => do
    let b ← next num
    let (written, m) ← writeByte isMain (addr + BitVec.ofNat 32 num) b m
    let here := if written then [(addr + BitVec.ofNat 32 num, b)] else []
    if b = 0 then return (num, here, m)
    else
      let (result, log, m) ← copyOut isMain addr next k (num + 1) m
      return (result, here ++ log, m)

/-- What `SRead` reads: the word that `scanf` returns, or the bytes of an open file from its
position on. -/
inductive ReadSource
  | keyboard (word : FileSys.CString)
  | file (contents : List (BitVec 8))

/-- `Read` of one byte of a file, which asserts that there is a byte. -/
def nextByte (contents : List (BitVec 8)) (num : ℕ) : Except Fault (BitVec 8) :=
  match contents[num]? with
  | some b => .ok b
  | none => .error .assertion

/-- `SRead`. The array `buffer` contains `junk` when it is allocated. -/
def sread (isMain : Bool) (addr : Word) (size : ℤ) (source : ReadSource) (junk : Bytes)
    (m : Machine) : Except Fault (ℕ × List (Word × BitVec 8) × Machine) :=
  -- the length of the array
  if size + 10 ≤ 0 ∨ 2 ^ 31 ≤ size + 10 then .error .undefined
  else
    match source with
    | .keyboard word =>
      let num : ℕ := word.chars.length
      -- `scanf` stores the word and its end
      if size + 10 ≤ num then .error .undefined
      else
        let buffer : Bytes := fun i => if i ≤ num then word.charAt i else junk i
        let result : ℤ := if size + 1 < num then size + 1 else num + 1
        if result < 0 then .error .undefined
        else
          let buffer := Function.update buffer result.toNat 0
          copyOut isMain addr (fun num => .ok (buffer num)) result.toNat 0 m
    | .file contents =>
      copyOut isMain addr (nextByte contents) size.toNat 0 m

/-- `SC_Read`, when the keyboard and the files contain `word` and `contents`. -/
def read (isMain : Bool) (word : FileSys.CString) (contents : Word → List (BitVec 8)) (junk : Bytes)
    (m : Machine) : Except Fault Machine := do
  let arg1 := m.registers.gpr 4
  let arg2 := m.registers.gpr 5
  let arg3 := m.registers.gpr 6
  let source : ReadSource := if arg3 = 0 then .keyboard word else .file (contents arg3)
  let (result, _, m) ← sread isMain arg1 arg2.toInt source junk m
  return advancePC (m.setGpr 2 (BitVec.ofNat 32 result))

/-! ### The loop without the machine -/

/-- What `WriteMem` of one byte stores. -/
def storedAt (isMain : Bool) (fault : Word → Option ExceptionType) (addr : Word) (b : BitVec 8) :
    Except Fault (List (Word × BitVec 8)) :=
  match fault addr with
  | none => .ok [(addr, b)]
  | some which => if Aborts isMain which then .error .assertion else .ok []

/-- What `copyOut` returns and stores. -/
def copies (isMain : Bool) (fault : Word → Option ExceptionType) (addr : Word)
    (next : ℕ → Except Fault (BitVec 8)) : ℕ → ℕ → Except Fault (ℕ × List (Word × BitVec 8))
  | 0, num => .ok (num, [])
  | k + 1, num => do
    let b ← next num
    let here ← storedAt isMain fault (addr + BitVec.ofNat 32 num) b
    if b = 0 then return (num, here)
    else
      let (result, log) ← copies isMain fault addr next k (num + 1)
      return (result, here ++ log)

variable {isMain : Bool} {m m' : Machine} {addr : Word} {b : BitVec 8} {which : ExceptionType}

theorem writeByte_of_none (isMain : Bool) (h : m.writeFault addr = none) (b : BitVec 8) :
    ∃ m', writeByte isMain addr b m = .ok (true, m') ∧ m'.writeFault = m.writeFault ∧
      m'.registers = m.registers := by
  cases ht : Machine.translate m.pageTable addr .one true with
  | error which => simp [writeFault, ht] at h
  | ok v =>
    obtain ⟨a, pt⟩ := v
    have hwrite := Computation.outcome_bind_of_ok
      (fun physicalAddress => Computation.write fun m : Machine =>
        { m with mainMemory :=
            m.mainMemory.store physicalAddress (bytes (b.signExtend 32) .one) })
      (outcome_access_of_ok ht)
    refine ⟨_, by rw [writeByte, writeMem, hwrite]; rfl, ?_⟩
    exact ⟨writeFault_congr (translate_below ht), rfl⟩

theorem writeByte_of_some (isMain : Bool) (h : m.writeFault addr = some which) (b : BitVec 8) :
    Aborts isMain which ∧ writeByte isMain addr b m = .error .assertion ∨
      ¬Aborts isMain which ∧ writeByte isMain addr b m = .ok (false, m.trap addr) := by
  cases ht : Machine.translate m.pageTable addr .one true with
  | ok v => simp [writeFault, ht] at h
  | error which' =>
    obtain rfl : which' = which := by simpa [writeFault, ht] using h
    have hwrite := Computation.outcome_bind_of_error
      (fun physicalAddress => Computation.write fun m : Machine =>
        { m with mainMemory :=
            m.mainMemory.store physicalAddress (bytes (b.signExtend 32) .one) })
      (outcome_access_of_error ht)
    have hw := ne_syscallException_of_translate ht
    rw [writeByte, writeMem, hwrite]
    refine (raiseException_cases isMain m addr hw).imp (fun ⟨ha, hr⟩ => ⟨ha, ?_⟩)
      fun ⟨ha, hr⟩ => ⟨ha, ?_⟩
    · simp only [hr, map_error]
    · simp only [hr, map_ok]

/-- `SRead` returns what one of the loops returns. -/
theorem exists_copyOut_of_sread {size : ℤ} {source : ReadSource} {junk : Bytes}
    {result : ℕ × List (Word × BitVec 8) × Machine}
    (h : sread isMain addr size source junk m = .ok result) :
    ∃ next k, copyOut isMain addr next k 0 m = .ok result := by
  cases source with
  | keyboard word =>
    simp only [sread] at h
    split_ifs at h <;> exact ⟨_, _, h⟩
  | file contents =>
    simp only [sread] at h
    split_ifs at h
    exact ⟨_, _, h⟩

/-- The loop does what `copies` says. -/
theorem copyOut_eq (next : ℕ → Except Fault (BitVec 8)) (k num : ℕ) (m : Machine) :
    (copyOut isMain addr next k num m).map (fun r => (r.1, r.2.1)) =
      copies isMain m.writeFault addr next k num := by
  induction k generalizing num m with
  | zero => rfl
  | succ k ih =>
    rw [copyOut, copies]
    cases next num with
    | error e => rfl
    | ok b =>
      simp only [ok_bind]
      -- the iterations that follow
      have hrest {m₁ : Machine} (here : List (Word × BitVec 8))
          (hm₁ : m₁.writeFault = m.writeFault) :
          (copyOut isMain addr next k (num + 1) m₁ >>= fun r =>
            .ok (r.1, here ++ r.2.1, r.2.2)).map (fun r => (r.1, r.2.1)) =
          copies isMain m.writeFault addr next k (num + 1) >>= fun r => .ok (r.1, here ++ r.2) := by
        rw [← hm₁, ← ih]
        cases copyOut isMain addr next k (num + 1) m₁ <;> rfl
      rw [storedAt]
      cases hf : m.writeFault (addr + BitVec.ofNat 32 num) with
      | none =>
        obtain ⟨m₁, hw, hm₁, -⟩ := writeByte_of_none isMain hf b
        simp only [hw, ok_bind, if_true]
        split_ifs
        · rfl
        · exact hrest _ hm₁
      | some which =>
        rcases writeByte_of_some isMain hf b with ⟨ha, hw⟩ | ⟨ha, hw⟩
        · simp only [hw, if_pos ha]
          rfl
        · simp only [hw, if_neg ha, ok_bind, Bool.false_eq_true, if_false]
          split_ifs
          · rfl
          · exact hrest _ (writeFault_congr (.refl _))

/-! ### What the loop returns -/

section Copied

variable {fault : Word → Option ExceptionType} {next : ℕ → Except Fault (BitVec 8)} {k num : ℕ}
  {cs : List (BitVec 8)}

/-- Bytes with their addresses. -/
def place (addr : Word) : ℕ → List (BitVec 8) → List (Word × BitVec 8)
  | _, [] => []
  | num, b :: cs => (addr + BitVec.ofNat 32 num, b) :: place addr (num + 1) cs

/-- The bytes that `WriteMem` stores. -/
def stored (fault : Word → Option ExceptionType) (addr : Word) (num : ℕ) (cs : List (BitVec 8)) :
    List (Word × BitVec 8) :=
  (place addr num cs).filter fun e => (fault e.1).isNone

/-- An access at an address does not end the simulation. -/
def Passes (isMain : Bool) (fault : Word → Option ExceptionType) (addr : Word) : Prop :=
  ∀ which, fault addr = some which → ¬Aborts isMain which

/-- An access at an address raises an exception that does not end the simulation. -/
def Skipped (isMain : Bool) (fault : Word → Option ExceptionType) (addr : Word) : Prop :=
  ∃ which, fault addr = some which ∧ ¬Aborts isMain which

theorem Passes.of_none (h : fault addr = none) : Passes isMain fault addr := by
  intro which hw
  rw [h] at hw
  cases hw

theorem skipped_iff : Skipped isMain fault addr ↔
    Passes isMain fault addr ∧ fault addr ≠ none := by
  rw [← Option.isSome_iff_ne_none, Option.isSome_iff_exists]
  constructor
  · rintro ⟨which, hf, ha⟩
    refine ⟨fun which' hf' => ?_, which, hf⟩
    cases hf.symm.trans hf'
    exact ha
  · rintro ⟨hpass, which, hf⟩
    exact ⟨which, hf, hpass which hf⟩

theorem storedAt_eq_ok {here : List (Word × BitVec 8)} : storedAt isMain fault addr b = .ok here ↔
    Passes isMain fault addr ∧ here = [(addr, b)].filter fun e => (fault e.1).isNone := by
  rw [storedAt]
  cases hf : fault addr with
  | none => simp [Passes, hf, eq_comm]
  | some which =>
    by_cases ha : Aborts isMain which
    · simp [Passes, hf, ha]
    · simp [Passes, hf, ha, eq_comm]

theorem stored_cons (b : BitVec 8) (cs : List (BitVec 8)) : stored fault addr num (b :: cs) =
    [(addr + BitVec.ofNat 32 num, b)].filter (fun e => (fault e.1).isNone) ++
      stored fault addr (num + 1) cs := by
  rw [stored, place, ← List.singleton_append, List.filter_append, stored]

/-- The loop passes the bytes `cs`, none of which is zero, and goes on behind them. -/
theorem copies_eq_ok {count : ℕ} {log : List (Word × BitVec 8)} (h₀ : 0 ∉ cs)
    (hnext : ∀ i (h : i < cs.length), next (num + i) = .ok (cs.get ⟨i, h⟩)) :
    copies isMain fault addr next (cs.length + k) num = .ok (count, log) ↔
      (∀ i < cs.length, Passes isMain fault (addr + BitVec.ofNat 32 (num + i))) ∧
        ∃ log', copies isMain fault addr next k (num + cs.length) = .ok (count, log') ∧
          log = stored fault addr num cs ++ log' := by
  induction cs generalizing num count log with
  | nil => simp [stored, place]
  | cons b cs ih =>
    obtain ⟨hb, h₀⟩ := not_or.1 (List.mem_cons.not.1 h₀)
    have hnum (i : ℕ) : num + (i + 1) = num + 1 + i := by omega
    have hnext' (i : ℕ) (h : i < cs.length) : next (num + 1 + i) = .ok (cs.get ⟨i, h⟩) := by
      rw [← hnum]
      exact hnext (i + 1) (Nat.succ_lt_succ h)
    have hpass : (∀ i < (b :: cs).length, Passes isMain fault (addr + BitVec.ofNat 32 (num + i))) ↔
        Passes isMain fault (addr + BitVec.ofNat 32 num) ∧
          ∀ i < cs.length, Passes isMain fault (addr + BitVec.ofNat 32 (num + 1 + i)) := by
      simp only [List.length_cons, Nat.forall_lt_succ_left, Nat.add_zero, Nat.add_assoc,
        Nat.add_comm 1]
    have hfirst : next num = .ok b := hnext 0 (Nat.succ_pos _)
    rw [hpass, List.length_cons, Nat.add_right_comm cs.length 1 k, hnum cs.length, copies,
      hfirst, ok_bind, bind_eq_ok]
    simp only [storedAt_eq_ok, if_neg (Ne.symm hb), bind_eq_ok, Prod.exists, ih h₀ hnext',
      stored_cons, List.append_assoc]
    constructor
    · rintro ⟨here, ⟨hp, rfl⟩, count', log', ⟨hps, log'', hlog'', rfl⟩, h⟩
      cases h
      exact ⟨⟨hp, hps⟩, log'', hlog'', rfl⟩
    · rintro ⟨⟨hp, hps⟩, log'', hlog'', rfl⟩
      exact ⟨_, ⟨hp, rfl⟩, count, _, ⟨hps, log'', hlog'', rfl⟩, rfl⟩

/-- The same from the first byte on. -/
theorem copies_zero_eq_ok {count : ℕ} {log : List (Word × BitVec 8)} (h₀ : 0 ∉ cs)
    (hnext : ∀ i (h : i < cs.length), next i = .ok (cs.get ⟨i, h⟩)) :
    copies isMain fault addr next (cs.length + k) 0 = .ok (count, log) ↔
      (∀ i < cs.length, Passes isMain fault (addr + BitVec.ofNat 32 i)) ∧
        ∃ log', copies isMain fault addr next k cs.length = .ok (count, log') ∧
          log = stored fault addr 0 cs ++ log' := by
  have hnext' (i : ℕ) (h : i < cs.length) : next (0 + i) = .ok (cs.get ⟨i, h⟩) := by
    rw [Nat.zero_add]
    exact hnext i h
  simpa only [Nat.zero_add] using
    @copies_eq_ok isMain addr fault next k 0 cs count log h₀ hnext'

theorem length_place (addr : Word) (num : ℕ) (cs : List (BitVec 8)) :
    (place addr num cs).length = cs.length := by
  induction cs generalizing num with
  | nil => rfl
  | cons b cs ih => rw [place, List.length_cons, List.length_cons, ih]

theorem place_append (addr : Word) (num : ℕ) (cs ds : List (BitVec 8)) :
    place addr num (cs ++ ds) = place addr num cs ++ place addr (num + cs.length) ds := by
  induction cs generalizing num with
  | nil => rfl
  | cons b cs ih =>
    rw [List.cons_append, place, place, ih, List.cons_append, List.length_cons, Nat.add_assoc,
      Nat.add_comm 1]

theorem exists_mem_place {i : ℕ} (h : i < cs.length) :
    ∃ b, (addr + BitVec.ofNat 32 (num + i), b) ∈ place addr num cs := by
  induction cs generalizing num i with
  | nil => exact absurd h (Nat.not_lt_zero i)
  | cons b cs ih =>
    cases i with
    | zero => exact ⟨b, List.mem_cons_self⟩
    | succ i =>
      have hnum : num + (i + 1) = num + 1 + i := by omega
      rw [hnum]
      exact (ih (Nat.lt_of_succ_lt_succ h)).imp fun _ hb => List.mem_cons_of_mem _ hb

theorem exists_of_mem_place {e : Word × BitVec 8} (h : e ∈ place addr num cs) :
    ∃ i < cs.length, e.1 = addr + BitVec.ofNat 32 (num + i) := by
  induction cs generalizing num with
  | nil => cases h
  | cons b cs ih =>
    rcases List.mem_cons.1 h with rfl | h
    · exact ⟨0, Nat.succ_pos _, rfl⟩
    · obtain ⟨i, hi, he⟩ := ih h
      refine ⟨i + 1, Nat.succ_lt_succ hi, he.trans ?_⟩
      congr 2
      omega

/-- All bytes are stored if and only if all addresses can be written. -/
theorem stored_eq_place_iff : stored fault addr num cs = place addr num cs ↔
    ∀ i < cs.length, fault (addr + BitVec.ofNat 32 (num + i)) = none := by
  rw [stored, List.filter_eq_self]
  constructor
  · intro h i hi
    obtain ⟨b, hb⟩ := @exists_mem_place addr num cs i hi
    exact Option.isNone_iff_eq_none.1 (h _ hb)
  · intro h e he
    obtain ⟨i, hi, he⟩ := exists_of_mem_place he
    rw [he, h i hi, Option.isNone_none]

theorem stored_append (cs ds : List (BitVec 8)) : stored fault addr num (cs ++ ds) =
    stored fault addr num cs ++ stored fault addr (num + cs.length) ds := by
  rw [stored, place_append, List.filter_append, stored, stored]

theorem stored_singleton_of_none (h : fault (addr + BitVec.ofNat 32 num) = none) (b : BitVec 8) :
    stored fault addr num [b] = [(addr + BitVec.ofNat 32 num, b)] := by simp [stored, place, h]

theorem stored_singleton_of_ne_none (h : fault (addr + BitVec.ofNat 32 num) ≠ none)
    (b : BitVec 8) : stored fault addr num [b] = [] := by
  simp [stored, place, h]

theorem exists_of_mem_stored {e : Word × BitVec 8} (h : e ∈ stored fault addr num cs) :
    ∃ i < cs.length, e.1 = addr + BitVec.ofNat 32 (num + i) :=
  exists_of_mem_place (List.mem_of_mem_filter h)

/-! ### The ways in which the loop ends -/

variable {P : ℕ → List (Word × BitVec 8) → Prop}

/-- The loop ends at a zero byte. -/
theorem copies_of_zero (h₀ : 0 ∉ cs)
    (hnext : ∀ i (h : i < cs.length), next i = .ok (cs.get ⟨i, h⟩))
    (hzero : next cs.length = .ok 0) :
    (∃ count log, copies isMain fault addr next (cs.length + (k + 1)) 0 = .ok (count, log) ∧
      P count log) ↔ (∀ i ≤ cs.length, Passes isMain fault (addr + BitVec.ofNat 32 i)) ∧
        P cs.length (stored fault addr 0 (cs ++ [0])) := by
  have hlast (count : ℕ) (log : List (Word × BitVec 8)) :
      copies isMain fault addr next (k + 1) cs.length = .ok (count, log) ↔
        Passes isMain fault (addr + BitVec.ofNat 32 cs.length) ∧ count = cs.length ∧
          log = stored fault addr cs.length [0] := by
    rw [copies, hzero, ok_bind, bind_eq_ok]
    simp only [storedAt_eq_ok, if_pos]
    constructor
    · rintro ⟨here, ⟨hp, rfl⟩, h⟩
      cases h
      exact ⟨hp, rfl, rfl⟩
    · rintro ⟨hp, rfl, rfl⟩
      exact ⟨_, ⟨hp, rfl⟩, rfl⟩
  simp only [copies_zero_eq_ok h₀ hnext, Nat.zero_add, hlast, stored_append, Nat.le_iff_lt_or_eq,
    or_imp, forall_and, forall_eq]
  constructor
  · rintro ⟨count, log, ⟨hps, log', ⟨hp, rfl, rfl⟩, rfl⟩, h⟩
    exact ⟨⟨hps, hp⟩, h⟩
  · rintro ⟨⟨hps, hp⟩, h⟩
    exact ⟨_, _, ⟨hps, _, ⟨hp, rfl, rfl⟩, rfl⟩, h⟩

/-- The loop ends because there are no iterations left. -/
theorem copies_of_full (h₀ : 0 ∉ cs)
    (hnext : ∀ i (h : i < cs.length), next i = .ok (cs.get ⟨i, h⟩)) :
    (∃ count log, copies isMain fault addr next cs.length 0 = .ok (count, log) ∧ P count log) ↔
      (∀ i < cs.length, Passes isMain fault (addr + BitVec.ofNat 32 i)) ∧
        P cs.length (stored fault addr 0 cs) := by
  have heq := fun count log => @copies_zero_eq_ok isMain addr fault next 0 cs count log h₀ hnext
  simp only [Nat.add_zero] at heq
  simp only [heq, copies, Except.ok.injEq, Prod.mk.injEq]
  constructor
  · rintro ⟨count, log, ⟨hps, log', ⟨rfl, rfl⟩, rfl⟩, h⟩
    exact ⟨hps, List.append_nil (stored fault addr 0 cs) ▸ h⟩
  · rintro ⟨hps, h⟩
    exact ⟨_, _, ⟨hps, [], ⟨rfl, rfl⟩, (List.append_nil _).symm⟩, h⟩

/-- The loop does not return if the input ends. -/
theorem copies_ne_ok {e : Fault} {count : ℕ} {log : List (Word × BitVec 8)} (h₀ : 0 ∉ cs)
    (hnext : ∀ i (h : i < cs.length), next i = .ok (cs.get ⟨i, h⟩))
    (hend : next cs.length = .error e) :
    copies isMain fault addr next (cs.length + (k + 1)) 0 ≠ .ok (count, log) := by
  intro h
  obtain ⟨-, log', hlast, -⟩ := (copies_zero_eq_ok h₀ hnext).1 h
  rw [copies, hend] at hlast
  cases hlast

end Copied

/-! ### What `Read` promises -/

section Promise

/-- What `Read` reads from. -/
def ReadSource.input : ReadSource → List (BitVec 8)
  | .keyboard word => word.chars
  | .file contents => contents

variable {fault : Word → Option ExceptionType} {size : ℕ} {input cs : List (BitVec 8)}

/-- The first `count` bytes of the input have been stored in a buffer of `size` bytes, and perhaps
others behind them. -/
structure Inside (addr : Word) (size : ℕ) (input : List (BitVec 8)) (count : ℕ)
    (log : List (Word × BitVec 8)) : Prop where
  addresses : ∀ e ∈ log, ∃ i < size, e.1 = addr + BitVec.ofNat 32 i
  count_le : count ≤ size
  count_le_length : count ≤ input.length
  bytes : log.take count = place addr 0 (input.take count)

/-- The same, and nothing else has been stored. -/
def Exactly (addr : Word) (size : ℕ) (input : List (BitVec 8)) (count : ℕ)
    (log : List (Word × BitVec 8)) : Prop :=
  Inside addr size input count log ∧ log = place addr 0 (input.take count)

/-- The first bytes have been stored if and only if their addresses can be written. -/
theorem take_stored_iff (ds : List (BitVec 8)) :
    (stored fault addr 0 (cs ++ ds)).take cs.length = place addr 0 cs ↔
      ∀ i < cs.length, fault (addr + BitVec.ofNat 32 i) = none := by
  constructor
  · intro h i hi
    obtain ⟨b, hb⟩ := @exists_mem_place addr 0 cs i hi
    rw [Nat.zero_add, ← h] at hb
    exact Option.isNone_iff_eq_none.1 (List.mem_filter.1 (List.mem_of_mem_take hb)).2
  · intro h
    rw [stored_append, stored_eq_place_iff.2 (by simpa using h),
      List.take_left' (length_place addr 0 cs)]

/-- The promise, when the loop has found the bytes `cs` and stored `ds` behind them. -/
theorem inside_stored_iff (hinput : input.take cs.length = cs) (ds : List (BitVec 8)) :
    Inside addr size input cs.length (stored fault addr 0 (cs ++ ds)) ↔
      (∀ i < cs.length, fault (addr + BitVec.ofNat 32 i) = none) ∧ cs.length ≤ size ∧
        ∀ e ∈ stored fault addr cs.length ds, ∃ i < size, e.1 = addr + BitVec.ofNat 32 i := by
  have hlen : cs.length ≤ input.length := by
    rw [← hinput]
    exact List.length_take_le' _ _
  constructor
  · rintro ⟨haddresses, hsize, -, hbytes⟩
    rw [hinput] at hbytes
    refine ⟨(take_stored_iff ds).1 hbytes, hsize, fun e he => haddresses e ?_⟩
    rw [stored_append, Nat.zero_add]
    exact List.mem_append_right _ he
  · rintro ⟨hnone, hsize, hrest⟩
    refine ⟨fun e he => ?_, hsize, hlen, by rw [hinput, (take_stored_iff ds).2 hnone]⟩
    rw [stored_append, Nat.zero_add] at he
    rcases List.mem_append.1 he with he | he
    · obtain ⟨i, hi, he⟩ := exists_of_mem_stored he
      exact ⟨i, hi.trans_le hsize, by rw [he, Nat.zero_add]⟩
    · exact hrest e he

/-- The loop has ended because of the size. -/
theorem inside_of_full (hinput : input.take cs.length = cs) :
    Inside addr size input cs.length (stored fault addr 0 cs) ↔
      (∀ i < cs.length, fault (addr + BitVec.ofNat 32 i) = none) ∧ cs.length ≤ size := by
  simpa [stored, place] using @inside_stored_iff addr fault size input cs hinput []

theorem exactly_of_full (hinput : input.take cs.length = cs) :
    Exactly addr size input cs.length (stored fault addr 0 cs) ↔
      (∀ i < cs.length, fault (addr + BitVec.ofNat 32 i) = none) ∧ cs.length ≤ size := by
  rw [Exactly, inside_of_full hinput, hinput, and_iff_left_iff_imp]
  exact fun h => stored_eq_place_iff.2 (by simpa using h.1)

/-- The loop has ended at a zero byte. -/
theorem inside_of_zero (hinput : input.take cs.length = cs) (hsize : size < 2 ^ 32) :
    Inside addr size input cs.length (stored fault addr 0 (cs ++ [0])) ↔
      (∀ i < cs.length, fault (addr + BitVec.ofNat 32 i) = none) ∧
        (cs.length < size ∨
          cs.length = size ∧ fault (addr + BitVec.ofNat 32 cs.length) ≠ none) := by
  rw [inside_stored_iff hinput]
  refine and_congr_right fun _ => ?_
  by_cases hf : fault (addr + BitVec.ofNat 32 cs.length) = none
  · rw [stored_singleton_of_none hf]
    simp only [List.mem_singleton, forall_eq, hf, ne_eq, not_true_eq_false, and_false, or_false,
      BitVec.add_right_inj]
    constructor
    · rintro ⟨hle, i, hi, he⟩
      have hi' := congrArg BitVec.toNat he
      rw [BitVec.toNat_ofNat, BitVec.toNat_ofNat, Nat.mod_eq_of_lt (hle.trans_lt hsize),
        Nat.mod_eq_of_lt (hi.trans hsize)] at hi'
      exact hi' ▸ hi
    · exact fun hlt => ⟨hlt.le, cs.length, hlt, rfl⟩
  · simp [stored_singleton_of_ne_none hf, hf, Nat.le_iff_lt_or_eq]

theorem exactly_of_zero (hinput : input.take cs.length = cs) (hsize : size < 2 ^ 32) :
    Exactly addr size input cs.length (stored fault addr 0 (cs ++ [0])) ↔
      (∀ i < cs.length, fault (addr + BitVec.ofNat 32 i) = none) ∧ cs.length ≤ size ∧
        fault (addr + BitVec.ofNat 32 cs.length) ≠ none := by
  rw [Exactly, inside_of_zero hinput hsize, and_assoc, hinput]
  refine and_congr_right fun hnone => ?_
  rw [stored_append, Nat.zero_add, stored_eq_place_iff.2 (by simpa using hnone),
    List.append_right_eq_self]
  by_cases hf : fault (addr + BitVec.ofNat 32 cs.length) = none
  · simp [stored_singleton_of_none hf, hf]
  · simp [stored_singleton_of_ne_none hf, hf, Nat.le_iff_lt_or_eq]

/-! ### `SRead` -/

variable {word : FileSys.CString} {junk : Bytes} {contents : List (BitVec 8)}
  {P : ℕ → List (Word × BitVec 8) → Prop}

/-- `SRead` returns, and the property holds of its result and of what it has stored. -/
def SReads (isMain : Bool) (addr : Word) (size : ℤ) (source : ReadSource) (junk : Bytes)
    (m : Machine) (P : ℕ → List (Word × BitVec 8) → Prop) : Prop :=
  ∃ count log m', sread isMain addr size source junk m = .ok (count, log, m') ∧ P count log

/-- The machine that the loop leaves does not matter. -/
theorem exists_copyOut_iff (next : ℕ → Except Fault (BitVec 8)) (k : ℕ) :
    (∃ count log m', copyOut isMain addr next k 0 m = .ok (count, log, m') ∧ P count log) ↔
      ∃ count log, copies isMain m.writeFault addr next k 0 = .ok (count, log) ∧ P count log := by
  simp only [← copyOut_eq, map_eq_ok, Prod.exists, Prod.mk.injEq]
  constructor
  · rintro ⟨count, log, m', h, hP⟩
    exact ⟨count, log, ⟨count, log, m', h, rfl, rfl⟩, hP⟩
  · rintro ⟨_, _, ⟨count, log, m', h, rfl, rfl⟩, hP⟩
    exact ⟨count, log, m', h, hP⟩

theorem sread_keyboard_eq {result : ℕ} (hsize : size + 10 < 2 ^ 31)
    (hbuffer : word.chars.length < size + 10)
    (hresult : result = if size + 1 < word.chars.length then size + 1 else word.chars.length + 1) :
    ∃ buffer : Bytes, (∀ i < result, buffer i = word.charAt i) ∧
      sread isMain addr size (.keyboard word) junk m =
        copyOut isMain addr (fun num => .ok (buffer num)) result 0 m := by
  refine ⟨Function.update (fun i => if i ≤ word.chars.length then word.charAt i else junk i)
    result 0, fun i hi => ?_, ?_⟩
  · rw [Function.update_of_ne (Nat.ne_of_lt hi), if_pos]
    split_ifs at hresult <;> omega
  · have hcast : (if (size : ℤ) + 1 < word.chars.length then (size : ℤ) + 1
        else (word.chars.length : ℤ) + 1) = result := by
      rw [hresult]
      split_ifs <;> omega
    rw [sread, if_neg (by omega)]
    simp only [hcast, Int.toNat_natCast]
    rw [if_neg (by omega), if_neg (by omega)]

/-- A word that fits is stored with its end. -/
theorem sread_keyboard (hsize : size + 10 < 2 ^ 31) (hword : word.chars.length ≤ size + 1) :
    SReads isMain addr size (.keyboard word) junk m P ↔
      (∀ i ≤ word.chars.length, Passes isMain m.writeFault (addr + BitVec.ofNat 32 i)) ∧
        P word.chars.length (stored m.writeFault addr 0 (word.chars ++ [0])) := by
  obtain ⟨buffer, hbuffer, heq⟩ := @sread_keyboard_eq isMain m addr size word junk _ hsize
    (by omega) rfl
  rw [if_neg (by omega)] at hbuffer heq
  rw [SReads, heq, exists_copyOut_iff, copies_of_zero word.nonzero (fun i hi => ?_)]
  · rw [hbuffer _ (Nat.lt_succ_self _), FileSys.CString.charAt]
    simp
  · rw [hbuffer i (by omega), FileSys.CString.charAt]
    simp [hi]

/-- Of a longer word `size + 1` characters are stored. -/
theorem sread_keyboard_of_lt (hsize : size + 10 < 2 ^ 31) (hword : size + 1 < word.chars.length)
    (hlt : word.chars.length < size + 10) :
    SReads isMain addr size (.keyboard word) junk m P ↔
      (∀ i < size + 1, Passes isMain m.writeFault (addr + BitVec.ofNat 32 i)) ∧
        P (size + 1) (stored m.writeFault addr 0 (word.chars.take (size + 1))) := by
  obtain ⟨buffer, hbuffer, heq⟩ := @sread_keyboard_eq isMain m addr size word junk _ hsize hlt rfl
  rw [if_pos hword] at hbuffer heq
  have hlen : (word.chars.take (size + 1)).length = size + 1 := List.length_take_of_le hword.le
  have hfull := @copies_of_full isMain addr m.writeFault (fun num => .ok (buffer num))
    (word.chars.take (size + 1)) P (fun h => word.nonzero (List.mem_of_mem_take h))
    fun i hi => by
      rw [hbuffer i (hlen ▸ hi), FileSys.CString.charAt]
      simp [(hlen ▸ hi).trans hword]
  rw [hlen] at hfull
  rw [SReads, heq, exists_copyOut_iff, hfull]

/-- The bytes of a file before the first zero. -/
def text (contents : List (BitVec 8)) : List (BitVec 8) := contents.takeWhile (· != 0)

theorem not_mem_text (contents : List (BitVec 8)) : 0 ∉ text contents := fun h => by
  have := List.all_takeWhile (p := fun b : BitVec 8 => b != 0) (l := contents)
  simpa using List.all_eq_true.1 this 0 h

theorem take_text (contents : List (BitVec 8)) :
    contents.take (text contents).length = text contents :=
  (List.prefix_iff_eq_take.1 (List.takeWhile_prefix _)).symm

theorem length_take_of_le_text (h : size ≤ (text contents).length) :
    (contents.take size).length = size :=
  List.length_take_of_le (h.trans (List.takeWhile_prefix _).length_le)

/-- Behind the first bytes of a file there is a zero, if there is anything. -/
theorem nextByte_text (contents : List (BitVec 8)) : nextByte contents (text contents).length =
    if (text contents).length < contents.length then .ok 0 else .error .assertion := by
  induction contents with
  | nil => rfl
  | cons b contents ih =>
    by_cases hb : b = 0
    · subst hb
      rfl
    · have htext : text (b :: contents) = b :: text contents :=
        List.takeWhile_cons_of_pos (bne_iff_ne.2 hb)
      simp only [htext, List.length_cons, Nat.add_lt_add_iff_right, ← ih]
      rfl

theorem nextByte_of_take (h : contents.take cs.length = cs) (i : ℕ) (hi : i < cs.length) :
    nextByte contents i = .ok (cs.get ⟨i, hi⟩) := by
  have hget : contents[i]? = some (cs.get ⟨i, hi⟩) := by
    rw [← List.getElem?_take_of_lt hi, h, List.getElem?_eq_getElem hi, List.get_eq_getElem]
  rw [nextByte, hget]

theorem sread_file_eq (hsize : size + 10 < 2 ^ 31) :
    sread isMain addr size (.file contents) junk m =
      copyOut isMain addr (nextByte contents) size 0 m := by
  rw [sread, if_neg (by omega), Int.toNat_natCast]

theorem sread_file_of_le (hsize : size + 10 < 2 ^ 31) (htext : size ≤ (text contents).length) :
    SReads isMain addr size (.file contents) junk m P ↔
      (∀ i < size, Passes isMain m.writeFault (addr + BitVec.ofNat 32 i)) ∧
        P size (stored m.writeFault addr 0 (contents.take size)) := by
  have hlen := length_take_of_le_text htext
  have h₀ : 0 ∉ contents.take size := fun h => by
    have hmem := (List.take_prefix_take_left htext).subset h
    rw [take_text] at hmem
    exact not_mem_text contents hmem
  have hfull := @copies_of_full isMain addr m.writeFault _ _ P h₀
    (nextByte_of_take (by rw [hlen]))
  rw [hlen] at hfull
  rw [SReads, sread_file_eq hsize, exists_copyOut_iff, hfull]

theorem sread_file_of_lt (hsize : size + 10 < 2 ^ 31) (htext : (text contents).length < size) :
    SReads isMain addr size (.file contents) junk m P ↔
      (text contents).length < contents.length ∧
      (∀ i ≤ (text contents).length, Passes isMain m.writeFault (addr + BitVec.ofNat 32 i)) ∧
        P (text contents).length (stored m.writeFault addr 0 (text contents ++ [0])) := by
  obtain ⟨k, rfl⟩ := Nat.exists_eq_add_of_lt htext
  rw [SReads, sread_file_eq hsize, exists_copyOut_iff]
  have hnext := nextByte_of_take (take_text contents)
  have hend := nextByte_text contents
  split_ifs at hend with hlt
  · rw [and_iff_right hlt]
    exact copies_of_zero (not_mem_text contents) hnext hend
  · refine iff_of_false ?_ fun h => hlt h.1
    rintro ⟨count, log, h, -⟩
    exact copies_ne_ok (not_mem_text contents) hnext hend h

/-- `SRead` returns after it has stored as many bytes of the input as it says. -/
def ReadsInside (isMain : Bool) (addr : Word) (size : ℕ) (source : ReadSource) (junk : Bytes)
    (m : Machine) : Prop := SReads isMain addr size source junk m (Inside addr size source.input)

/-- `SRead` returns after it has stored as many bytes of the input as it says, and no others. -/
def ReadsExactly (isMain : Bool) (addr : Word) (size : ℕ) (source : ReadSource) (junk : Bytes)
    (m : Machine) : Prop := SReads isMain addr size source junk m (Exactly addr size source.input)

/-- The inputs with which the stored bytes stay inside the buffer. A word has fewer characters than
the buffer, or as many if the byte behind the buffer cannot be written. Of a file the buffer is
filled, or there is a zero byte before. -/
def FitsInside (isMain : Bool) (addr : Word) (size : ℕ) (m : Machine) : ReadSource → Prop
  | .keyboard word =>
    (∀ i < word.chars.length, m.writeFault (addr + BitVec.ofNat 32 i) = none) ∧
      (word.chars.length < size ∧
          Passes isMain m.writeFault (addr + BitVec.ofNat 32 word.chars.length) ∨
        word.chars.length = size ∧ Skipped isMain m.writeFault (addr + BitVec.ofNat 32 size))
  | .file contents =>
    (∀ i < min (text contents).length size, m.writeFault (addr + BitVec.ofNat 32 i) = none) ∧
      ((text contents).length < size → (text contents).length < contents.length ∧
        Passes isMain m.writeFault (addr + BitVec.ofNat 32 (text contents).length))

/-- The inputs with which nothing else is stored: the zero byte that ends them cannot be written. -/
def FitsExactly (isMain : Bool) (addr : Word) (size : ℕ) (m : Machine) : ReadSource → Prop
  | .keyboard word =>
    (∀ i < word.chars.length, m.writeFault (addr + BitVec.ofNat 32 i) = none) ∧
      word.chars.length ≤ size ∧
        Skipped isMain m.writeFault (addr + BitVec.ofNat 32 word.chars.length)
  | .file contents =>
    (∀ i < min (text contents).length size, m.writeFault (addr + BitVec.ofNat 32 i) = none) ∧
      ((text contents).length < size → (text contents).length < contents.length ∧
        Skipped isMain m.writeFault (addr + BitVec.ofNat 32 (text contents).length))

theorem sread_undefined {source : ReadSource} (hsize : 2 ^ 31 ≤ size + 10) :
    ¬SReads isMain addr size source junk m P := by
  rintro ⟨count, log, m', h, -⟩
  unfold sread at h
  rw [if_pos (by omega)] at h
  cases h

theorem passes_of_none {n : ℕ} (h : ∀ i < n, fault (addr + BitVec.ofNat 32 i) = none)
    (hlast : Passes isMain fault (addr + BitVec.ofNat 32 n)) (i : ℕ) (hi : i ≤ n) :
    Passes isMain fault (addr + BitVec.ofNat 32 i) := by
  rcases hi.lt_or_eq with hi | rfl
  · exact .of_none (h i hi)
  · exact hlast

theorem readsInside_keyboard_iff (hsize : size + 10 < 2 ^ 31)
    (hword : word.chars.length < size + 10) :
    ReadsInside isMain addr size (.keyboard word) junk m ↔
      FitsInside isMain addr size m (.keyboard word) := by
  rw [ReadsInside, FitsInside]
  rcases Nat.lt_or_ge (size + 1) word.chars.length with hlt | hle
  · rw [sread_keyboard_of_lt hsize hlt hword]
    exact iff_of_false (fun h => absurd h.2.count_le (by omega)) fun h => by omega
  · rw [sread_keyboard hsize hle]
    change _ ∧ Inside addr size word.chars _ _ ↔ _
    rw [inside_of_zero List.take_length (by omega)]
    constructor
    · rintro ⟨hps, hnone, hlt | ⟨heq, hf⟩⟩
      · exact ⟨hnone, .inl ⟨hlt, hps _ le_rfl⟩⟩
      · exact ⟨hnone, .inr ⟨heq, heq ▸ skipped_iff.2 ⟨hps _ le_rfl, hf⟩⟩⟩
    · rintro ⟨hnone, ⟨hlt, hpass⟩ | ⟨heq, hskip⟩⟩
      · exact ⟨passes_of_none hnone hpass, hnone, .inl hlt⟩
      · rw [← heq] at hskip
        exact ⟨passes_of_none hnone (skipped_iff.1 hskip).1, hnone,
          .inr ⟨heq, (skipped_iff.1 hskip).2⟩⟩

theorem readsExactly_keyboard_iff (hsize : size + 10 < 2 ^ 31)
    (hword : word.chars.length < size + 10) :
    ReadsExactly isMain addr size (.keyboard word) junk m ↔
      FitsExactly isMain addr size m (.keyboard word) := by
  rw [ReadsExactly, FitsExactly]
  rcases Nat.lt_or_ge (size + 1) word.chars.length with hlt | hle
  · rw [sread_keyboard_of_lt hsize hlt hword]
    exact iff_of_false (fun h => absurd h.2.1.count_le (by omega)) fun h => by omega
  · rw [sread_keyboard hsize hle]
    change _ ∧ Exactly addr size word.chars _ _ ↔ _
    rw [exactly_of_zero List.take_length (by omega)]
    constructor
    · rintro ⟨hps, hnone, hlen, hf⟩
      exact ⟨hnone, hlen, skipped_iff.2 ⟨hps _ le_rfl, hf⟩⟩
    · rintro ⟨hnone, hlen, hskip⟩
      obtain ⟨hpass, hf⟩ := skipped_iff.1 hskip
      exact ⟨passes_of_none hnone hpass, hnone, hlen, hf⟩

/-- The size is reached before the text of a file ends. -/
theorem sread_file_full_iff (hsize : size + 10 < 2 ^ 31) (hle : size ≤ (text contents).length)
    (hP : ∀ cs : List (BitVec 8), contents.take cs.length = cs →
      (P cs.length (stored m.writeFault addr 0 cs) ↔
        (∀ i < cs.length, m.writeFault (addr + BitVec.ofNat 32 i) = none) ∧ cs.length ≤ size)) :
    SReads isMain addr size (.file contents) junk m P ↔
      ∀ i < size, m.writeFault (addr + BitVec.ofNat 32 i) = none := by
  have hlen := length_take_of_le_text hle
  have hfull := hP (contents.take size) (by rw [hlen])
  rw [hlen] at hfull
  rw [sread_file_of_le hsize hle, hfull]
  constructor
  · rintro ⟨-, hnone, -⟩
    exact hnone
  · intro hnone
    exact ⟨fun i hi => .of_none (hnone i hi), hnone, le_rfl⟩

theorem readsInside_file_iff (hsize : size + 10 < 2 ^ 31) :
    ReadsInside isMain addr size (.file contents) junk m ↔
      FitsInside isMain addr size m (.file contents) := by
  rw [ReadsInside, FitsInside]
  rcases Nat.lt_or_ge (text contents).length size with hlt | hle
  · rw [sread_file_of_lt hsize hlt, min_eq_left hlt.le, forall_prop_of_true hlt]
    change _ ∧ _ ∧ Inside addr size contents _ _ ↔ _
    rw [inside_of_zero (take_text contents) (by omega)]
    constructor
    · rintro ⟨hlen, hps, hnone, -⟩
      exact ⟨hnone, hlen, hps _ le_rfl⟩
    · rintro ⟨hnone, hlen, hpass⟩
      exact ⟨hlen, passes_of_none hnone hpass, hnone, .inl hlt⟩
  · change SReads _ _ _ _ _ _ (Inside addr size contents) ↔ _
    rw [sread_file_full_iff hsize hle fun cs hcs => inside_of_full hcs, min_eq_right hle]
    exact (and_iff_left fun hlt => absurd hlt hle.not_gt).symm

theorem readsExactly_file_iff (hsize : size + 10 < 2 ^ 31) :
    ReadsExactly isMain addr size (.file contents) junk m ↔
      FitsExactly isMain addr size m (.file contents) := by
  rw [ReadsExactly, FitsExactly]
  rcases Nat.lt_or_ge (text contents).length size with hlt | hle
  · rw [sread_file_of_lt hsize hlt, min_eq_left hlt.le, forall_prop_of_true hlt]
    change _ ∧ _ ∧ Exactly addr size contents _ _ ↔ _
    rw [exactly_of_zero (take_text contents) (by omega)]
    constructor
    · rintro ⟨hlen, hps, hnone, -, hf⟩
      exact ⟨hnone, hlen, skipped_iff.2 ⟨hps _ le_rfl, hf⟩⟩
    · rintro ⟨hnone, hlen, hskip⟩
      obtain ⟨hpass, hf⟩ := skipped_iff.1 hskip
      exact ⟨hlen, passes_of_none hnone hpass, hnone, hlt.le, hf⟩
  · change SReads _ _ _ _ _ _ (Exactly addr size contents) ↔ _
    rw [sread_file_full_iff hsize hle fun cs hcs => exactly_of_full hcs, min_eq_right hle]
    exact (and_iff_left fun hlt => absurd hlt hle.not_gt).symm

/-- `Read` stores bytes of the input inside the buffer, as many as it says, if
and only if the input fits. It stores nothing else if and only if in addition no zero byte is stored
behind them. -/
theorem sread_inside_and_exact_iff (isMain : Bool) (addr : Word) (size : ℕ) (source : ReadSource)
    (junk : Bytes) (m : Machine)
    (hword : ∀ word, source = .keyboard word → word.chars.length < size + 10) :
    (ReadsInside isMain addr size source junk m ↔
        size + 10 < 2 ^ 31 ∧ FitsInside isMain addr size m source) ∧
      (ReadsExactly isMain addr size source junk m ↔
        size + 10 < 2 ^ 31 ∧ FitsExactly isMain addr size m source) := by
  by_cases hlt : size + 10 < 2 ^ 31
  · rw [and_iff_right hlt, and_iff_right hlt]
    cases source with
    | keyboard word =>
      exact ⟨readsInside_keyboard_iff hlt (hword word rfl),
        readsExactly_keyboard_iff hlt (hword word rfl)⟩
    | file contents => exact ⟨readsInside_file_iff hlt, readsExactly_file_iff hlt⟩
  · have hge : 2 ^ 31 ≤ size + 10 := by omega
    exact ⟨iff_of_false (sread_undefined hge) fun h => hlt h.1,
      iff_of_false (sread_undefined hge) fun h => hlt h.1⟩

/-- A process with one page. -/
def onePage : Machine where
  registers := ⟨fun _ => 0, 0, 0, 0, 4, 0, 0, 0, 0⟩
  pageTable := [⟨0, 0, true, false, false, false⟩]
  mainMemory _ := 0

/-- The word `a` fits into a buffer of two bytes, with the zero byte behind it. -/
theorem readsInside_one :
    ReadsInside false 0 2 (.keyboard ⟨[97], by decide⟩) (fun _ => 0) onePage := by
  refine (sread_inside_and_exact_iff false 0 2 _ _ onePage ?_).1.2
    ⟨by decide, by decide, .inl ⟨by decide, .of_none (by decide)⟩⟩
  rintro word ⟨⟩
  decide

/-- The word `ab` has as many characters as the buffer. The zero byte is stored behind it. -/
theorem not_readsInside_two :
    ¬ReadsInside false 0 2 (.keyboard ⟨[97, 98], by decide⟩) (fun _ => 0) onePage := by
  rw [readsInside_keyboard_iff (by decide) (by decide)]
  rintro ⟨-, ⟨hlt, -⟩ | ⟨-, which, hf, -⟩⟩
  · exact absurd hlt (by decide)
  · cases hf

end Promise

end UserProg

end Nachos
