import Mathlib.Algebra.GroupWithZero.Nat
import Nachos.Foundations.Computation
import Nachos.Machine.Fault
import Nachos.Machine.Memory

/-!
# The state of the simulated machine and its memory accesses

`machine/translate.cc`: `Machine::Translate` with a page table (`tlb == NULL`), and the accesses
`ReadMem` and `WriteMem` of user programs. An access that raises an exception stops the instruction
that performs it (`Trap`).

## Main definitions

* `Registers`, `Machine`.
* `Machine.translate`, `readMem`, `writeMem`.
* `Machine.Below`: the order in which repeated accesses move the machine upwards. They set the bits
  `use` and `dirty` of entries of the page table.

## Main results

* `Observes` instances of the accesses: an access that is repeated changes nothing.
-/

namespace Nachos

open Foundations

/-- A C `int` or `unsigned int` as bits. -/
abbrev Word : Type := BitVec 32

/-- The number of general purpose registers is not zero. -/
instance neZero_numGPRegs : NeZero 32 := ⟨by decide⟩

/-- The registers of `machine.h`: the `NumGPRegs` general purpose registers and those with a name.
`LoadReg` holds the number of a general purpose register. -/
structure Registers where
  gpr : Fin 32 → Word
  hi : Word
  lo : Word
  pc : Word
  nextPC : Word
  prevPC : Word
  loadReg : Fin 32
  loadValue : Word
  badVAddr : Word

/-- `Machine`, as far as user programs and the kernel see it. `pageTableSize` is the length of
`pageTable`. -/
structure Machine where
  registers : Registers
  pageTable : List TranslationEntry
  mainMemory : MainMemory

/-- What stops an instruction: an exception with the address for `BadVAddrReg`, or the end of the
simulation. -/
inductive Trap
  | exception (which : ExceptionType) (badVAddr : Word)
  | fault (f : Fault)
  deriving DecidableEq

/-- Computations of the machine on behalf of a user program. -/
abbrev Cpu : Type → Type := Computation Trap Machine

/-- The sizes of accesses, in bytes. -/
inductive AccessSize
  | one
  | two
  | four
  deriving DecidableEq

/-- The alignment that `Translate` checks. -/
def AccessSize.Aligned (size : AccessSize) (virtAddr : Word) : Prop :=
  match size with
  | .one => True
  | .two => virtAddr &&& 0x1 = 0
  | .four => virtAddr &&& 0x3 = 0

instance (size : AccessSize) (virtAddr : Word) : Decidable (size.Aligned virtAddr) := by
  unfold AccessSize.Aligned
  cases size <;> infer_instance

/-- What `Translate` checks of an entry, and the entry with its bits set. -/
def TranslationEntry.check (entry : TranslationEntry) (writing : Bool) :
    Except ExceptionType TranslationEntry :=
  if entry.valid = false then .error .pageFaultException
  else if entry.readOnly = true ∧ writing = true then .error .readOnlyException
  else if numPhysPages ≤ entry.physicalPage then .error .busErrorException
  else .ok { entry with use := true, dirty := entry.dirty || writing }

namespace Machine

/-- `Machine::Translate`: the physical address, and the page table with the bits of the entry
set. -/
def translate (pageTable : List TranslationEntry) (virtAddr : Word) (size : AccessSize)
    (writing : Bool) : Except ExceptionType (ℕ × List TranslationEntry) :=
  if size.Aligned virtAddr then
    let vpn := virtAddr.toNat / pageSize
    let offset := virtAddr.toNat % pageSize
    match pageTable[vpn]? with
    | none => .error .addressErrorException
    | some entry =>
      match entry.check writing with
      | .error which => .error which
      | .ok entry => .ok (entry.physicalPage * pageSize + offset, pageTable.set vpn entry)
  else .error .addressErrorException

/-- A call of `Translate` by `ReadMem` or `WriteMem`, which raise the exception that it returns. -/
def access (virtAddr : Word) (size : AccessSize) (writing : Bool) : Cpu ℕ := do
  match translate (← Computation.read pageTable) virtAddr size writing with
  | .error which => throw (.exception which virtAddr)
  | .ok (physAddr, pageTable) =>
    Computation.write fun m => { m with pageTable }
    return physAddr

/-- The bytes at a physical address, the lowest first, as `ReadMem` converts them to an `int`. A
single byte is a `char`, which has a sign. -/
def loadBytes (mem : MainMemory) (physAddr : ℕ) : AccessSize → Word
  | .one => (mem physAddr).signExtend 32
  | .two => (mem (physAddr + 1) ++ mem physAddr).zeroExtend 32
  | .four => mem (physAddr + 3) ++ mem (physAddr + 2) ++ mem (physAddr + 1) ++ mem physAddr

/-- The bytes that `WriteMem` stores, the lowest first. -/
def bytes (value : Word) : AccessSize → List (BitVec 8)
  | .one => [value.extractLsb' 0 8]
  | .two => [value.extractLsb' 0 8, value.extractLsb' 8 8]
  | .four =>
    [value.extractLsb' 0 8, value.extractLsb' 8 8, value.extractLsb' 16 8, value.extractLsb' 24 8]

/-- `Machine::ReadMem`. -/
def readMem (addr : Word) (size : AccessSize) : Cpu Word := do
  let physicalAddress ← access addr size false
  Computation.read fun m => loadBytes m.mainMemory physicalAddress size

/-- `Machine::WriteMem`. -/
def writeMem (addr : Word) (size : AccessSize) (value : Word) : Cpu Unit := do
  let physicalAddress ← access addr size true
  Computation.write fun m =>
    { m with mainMemory := m.mainMemory.store physicalAddress (bytes value size) }

end Machine

/-! ### Accesses that are repeated -/

/-- The bits `use` and `dirty` of an entry may be set in another one. -/
structure TranslationEntry.Below (e f : TranslationEntry) : Prop where
  virtualPage : f.virtualPage = e.virtualPage
  physicalPage : f.physicalPage = e.physicalPage
  valid : f.valid = e.valid
  readOnly : f.readOnly = e.readOnly
  use : e.use = true → f.use = true
  dirty : e.dirty = true → f.dirty = true

theorem TranslationEntry.Below.refl (e : TranslationEntry) : e.Below e :=
  ⟨rfl, rfl, rfl, rfl, id, id⟩

theorem TranslationEntry.Below.trans {e f g : TranslationEntry} (h : e.Below f) (h' : f.Below g) :
    e.Below g :=
  ⟨h'.virtualPage.trans h.virtualPage, h'.physicalPage.trans h.physicalPage,
    h'.valid.trans h.valid, h'.readOnly.trans h.readOnly, h'.use ∘ h.use, h'.dirty ∘ h.dirty⟩

theorem TranslationEntry.check_eq_ok {e e' : TranslationEntry} {writing : Bool} :
    e.check writing = .ok e' ↔ e.valid = true ∧ (e.readOnly = true → writing = false) ∧
      e.physicalPage < numPhysPages ∧
      { e with use := true, dirty := e.dirty || writing } = e' := by
  unfold check
  split_ifs with hv hr hp
  · simp [hv]
  · simp only [false_iff, not_and]
    exact fun _ h => absurd (h hr.1) (by simp [hr.2])
  · simp only [false_iff, not_and]
    exact fun _ _ h => absurd h (by omega)
  · simp only [Except.ok.injEq]
    refine ⟨fun h => ⟨by simpa using hv, fun h => ?_, by omega, h⟩, fun h => h.2.2.2⟩
    simpa [h] using hr

theorem TranslationEntry.Below.check {e e' : TranslationEntry} {writing : Bool}
    (h : e.check writing = .ok e') : e.Below e' := by
  obtain ⟨-, -, -, rfl⟩ := check_eq_ok.1 h
  exact ⟨rfl, rfl, rfl, rfl, fun _ => rfl, fun hd => by simp [hd]⟩

/-- The checks do not depend on the bits. -/
theorem TranslationEntry.Below.check_congr {e f : TranslationEntry} (h : e.Below f)
    (writing : Bool) :
    (∃ which, e.check writing = .error which ∧ f.check writing = .error which) ∨
    ∃ e' f', e.check writing = .ok e' ∧ f.check writing = .ok f' ∧ e'.Below f' := by
  unfold TranslationEntry.check
  rw [h.valid, h.readOnly, h.physicalPage]
  split_ifs
  · exact .inl ⟨_, rfl, rfl⟩
  · exact .inl ⟨_, rfl, rfl⟩
  · exact .inl ⟨_, rfl, rfl⟩
  · refine .inr ⟨_, _, rfl, rfl, h.virtualPage, rfl, rfl, rfl, fun _ => rfl,
      fun (hd : (e.dirty || writing) = true) => ?_⟩
    rcases Bool.or_eq_true_iff.1 hd with hd | hd
    · simp [h.dirty hd]
    · simp [hd]

/-- The checks of an entry whose bits are set already. -/
theorem TranslationEntry.Below.check_again {e e' f : TranslationEntry} {writing : Bool}
    (hf : e'.Below f) (h : e.check writing = .ok e') : f.check writing = .ok f := by
  obtain ⟨hv, hr, hp, rfl⟩ := check_eq_ok.1 h
  refine check_eq_ok.2 ⟨hf.valid.trans hv, fun h => hr (hf.readOnly.symm.trans h),
    hf.physicalPage ▸ hp, ?_⟩
  have hu : f.use = true := hf.use rfl
  have hd : (f.dirty || writing) = f.dirty := by
    cases hw : writing with
    | false => simp
    | true => simp [hf.dirty (by simp [hw])]
  rw [hd, ← hu]

/-- A page table in which at least the bits `use` and `dirty` of another one are set. -/
structure TableBelow (pt qt : List TranslationEntry) : Prop where
  length : qt.length = pt.length
  entry {i : ℕ} {e f : TranslationEntry} : pt[i]? = some e → qt[i]? = some f → e.Below f

namespace TableBelow

variable {pt qt rt : List TranslationEntry} {i : ℕ} {e : TranslationEntry}

theorem refl (pt : List TranslationEntry) : TableBelow pt pt where
  length := rfl
  entry h h' := by
    cases h.symm.trans h'
    exact .refl _

theorem exists_getElem? (h : TableBelow pt qt) (he : pt[i]? = some e) :
    ∃ f, qt[i]? = some f ∧ e.Below f := by
  have hi : i < qt.length := by
    have := (List.getElem?_eq_some_iff.1 he).1
    have := h.length
    omega
  have hf := List.getElem?_eq_getElem hi
  exact ⟨_, hf, h.entry he hf⟩

theorem getElem?_eq_none (h : TableBelow pt qt) (he : pt[i]? = none) : qt[i]? = none := by
  rw [List.getElem?_eq_none_iff] at he ⊢
  have := h.length
  omega

theorem trans (h : TableBelow pt qt) (h' : TableBelow qt rt) : TableBelow pt rt where
  length := h'.length.trans h.length
  entry he hg := by
    obtain ⟨f, hf, hef⟩ := h.exists_getElem? he
    exact hef.trans (h'.entry hf hg)

/-- The same bits are set in an entry of both tables. -/
theorem set_set (h : TableBelow pt qt) {f g : TranslationEntry} (hfg : f.Below g) :
    TableBelow (pt.set i f) (qt.set i g) where
  length := by simp [h.length]
  entry {j _ _} he hf := by
    rw [List.getElem?_set] at he hf
    split_ifs at he hf with hij
    · cases he
      cases hf
      exact hfg
    · exact h.entry he hf

theorem set (he : pt[i]? = some e) {f : TranslationEntry} (hef : e.Below f) :
    TableBelow pt (pt.set i f) := by
  obtain ⟨hi, rfl⟩ := List.getElem?_eq_some_iff.1 he
  simpa using (refl pt).set_set (i := i) hef

end TableBelow

/-- The states that differ in bits `use` and `dirty` that are set in the second one, and in
`BadVAddrReg`, which no instruction reads. -/
structure Machine.Below (m m' : Machine) : Prop where
  registers : m'.registers = { m.registers with badVAddr := m'.registers.badVAddr }
  mainMemory : m'.mainMemory = m.mainMemory
  pageTable : TableBelow m.pageTable m'.pageTable

namespace Machine

instance : Std.Refl Below where
  refl _ := ⟨rfl, rfl, .refl _⟩

instance : IsTrans Machine Below where
  trans _ _ _ h h' :=
    ⟨by rw [h'.registers, h.registers], h'.mainMemory.trans h.mainMemory,
      h.pageTable.trans h'.pageTable⟩

section Translate

variable {pt qt pt' : List TranslationEntry} {virtAddr : Word} {size : AccessSize}
  {writing : Bool} {physAddr : ℕ}

/-- What a successful translation found. -/
theorem translate_eq_ok : translate pt virtAddr size writing = .ok (physAddr, pt') ↔
    size.Aligned virtAddr ∧ ∃ e e', pt[virtAddr.toNat / pageSize]? = some e ∧
      e.check writing = .ok e' ∧
      e'.physicalPage * pageSize + virtAddr.toNat % pageSize = physAddr ∧
      pt.set (virtAddr.toNat / pageSize) e' = pt' := by
  unfold translate
  split_ifs with ha
  · rcases he : pt[virtAddr.toNat / pageSize]? with _ | e
    · simp [he]
    · cases hc : e.check writing <;> simp [ha, he, hc]
  · simp [ha]

theorem translate_below (h : translate pt virtAddr size writing = .ok (physAddr, pt')) :
    TableBelow pt pt' := by
  obtain ⟨-, e, e', he, hc, -, rfl⟩ := translate_eq_ok.1 h
  exact .set he (.check hc)

/-- The physical address and the exception do not depend on the bits. -/
theorem translate_congr (h : TableBelow pt qt) (virtAddr : Word) (size : AccessSize)
    (writing : Bool) :
    (∃ which, translate pt virtAddr size writing = .error which ∧
      translate qt virtAddr size writing = .error which) ∨
    ∃ physAddr pt' qt', translate pt virtAddr size writing = .ok (physAddr, pt') ∧
      translate qt virtAddr size writing = .ok (physAddr, qt') ∧ TableBelow pt' qt' := by
  unfold translate
  split_ifs with ha
  · rcases he : pt[virtAddr.toNat / pageSize]? with _ | e
    · simp [he, h.getElem?_eq_none he]
    · obtain ⟨f, hf, hef⟩ := h.exists_getElem? he
      rcases hef.check_congr writing with ⟨which, hc, hc'⟩ | ⟨e', f', hc, hc', hef'⟩
      · simp [he, hf, hc, hc']
      · refine .inr ⟨e'.physicalPage * pageSize + virtAddr.toNat % pageSize,
          pt.set (virtAddr.toNat / pageSize) e', qt.set (virtAddr.toNat / pageSize) f', ?_, ?_,
          h.set_set hef'⟩
        · simp [he, hc]
        · simp [hf, hc', hef'.physicalPage]
  · simp

theorem translate_again (h : translate pt virtAddr size writing = .ok (physAddr, pt'))
    (hq : TableBelow pt' qt) : translate qt virtAddr size writing = .ok (physAddr, qt) := by
  obtain ⟨ha, e, e', he, hc, rfl, rfl⟩ := translate_eq_ok.1 h
  have hi := (List.getElem?_eq_some_iff.1 he).1
  obtain ⟨f, hf, hef⟩ := hq.exists_getElem? (List.getElem?_set_self hi)
  refine translate_eq_ok.2 ⟨ha, f, f, hf, hef.check_again hc, by rw [hef.physicalPage], ?_⟩
  obtain ⟨hj, rfl⟩ := List.getElem?_eq_some_iff.1 hf
  exact List.set_getElem_self hj

/-- All bytes of an access are in one page of main memory. -/
theorem div_of_translate (h : translate pt virtAddr size writing = .ok (physAddr, pt')) :
    ∃ e ∈ pt, e.physicalPage < numPhysPages ∧
      ∀ a, physAddr ≤ a → a < physAddr + (bytes 0 size).length → a / pageSize = e.physicalPage := by
  obtain ⟨ha, e, e', he, hc, rfl, rfl⟩ := translate_eq_ok.1 h
  obtain ⟨-, -, hp, rfl⟩ := TranslationEntry.check_eq_ok.1 hc
  refine ⟨e, List.mem_of_getElem? he, hp, fun a hle hlt => ?_⟩
  simp only [pageSize] at hle hlt ⊢
  cases size with
  | one =>
    simp only [bytes, List.length_cons, List.length_nil] at hlt
    omega
  | two =>
    have : virtAddr.toNat % 2 = 0 := by
      simpa [Nat.and_one_is_mod] using congrArg BitVec.toNat ha
    simp only [bytes, List.length_cons, List.length_nil] at hlt
    omega
  | four =>
    have : virtAddr.toNat % 4 = 0 := by
      simpa [Nat.and_two_pow_sub_one_eq_mod _ 2] using congrArg BitVec.toNat ha
    simp only [bytes, List.length_cons, List.length_nil] at hlt
    omega

theorem length_bytes (value : Word) (size : AccessSize) :
    (bytes value size).length = (bytes 0 size).length := by
  cases size <;> rfl

/-- The `ASSERT` at the end of `Translate` holds. -/
theorem translate_le_memorySize (h : translate pt virtAddr size writing = .ok (physAddr, pt')) :
    physAddr + (bytes 0 size).length ≤ memorySize := by
  obtain ⟨e, -, hp, hpage⟩ := div_of_translate h
  have hpos : 0 < (bytes 0 size).length := by cases size <;> decide
  have hlast := hpage (physAddr + (bytes 0 size).length - 1) (by omega) (by omega)
  simp only [pageSize, numPhysPages, memorySize] at hp hlast ⊢
  omega

end Translate

/-! ### Accesses as computations -/

section Access

variable {m : Machine} {virtAddr : Word} {size : AccessSize} {writing : Bool}

theorem outcome_access_of_error {which : ExceptionType}
    (h : translate m.pageTable virtAddr size writing = .error which) :
    (access virtAddr size writing).outcome m = (.error (.exception which virtAddr), m) := by
  rw [access, Computation.outcome_bind_of_ok _ (Computation.outcome_read ..), h]
  rfl

theorem outcome_access_of_ok {physAddr : ℕ} {pt : List TranslationEntry}
    (h : translate m.pageTable virtAddr size writing = .ok (physAddr, pt)) :
    (access virtAddr size writing).outcome m = (.ok physAddr, { m with pageTable := pt }) := by
  rw [access, Computation.outcome_bind_of_ok _ (Computation.outcome_read ..), h]
  rfl

instance : Observes Below (access virtAddr size writing) where
  above {m m' a} h := by
    rcases ht : translate m.pageTable virtAddr size writing with which | ⟨physAddr, pt⟩
    · cases (outcome_access_of_error ht).symm.trans h
      exact refl m
    · cases (outcome_access_of_ok ht).symm.trans h
      exact ⟨rfl, rfl, translate_below ht⟩
  mono {m m' n a} h hr := by
    rcases translate_congr hr.pageTable virtAddr size writing with
      ⟨which, ht, ht'⟩ | ⟨physAddr, pt, qt, ht, ht', hpq⟩
    · cases (outcome_access_of_error ht).symm.trans h
      exact ⟨n, outcome_access_of_error ht', hr⟩
    · cases (outcome_access_of_ok ht).symm.trans h
      exact ⟨_, outcome_access_of_ok ht', hr.registers, hr.mainMemory, hpq⟩
  again {m m' n a} h hr := by
    rcases ht : translate m.pageTable virtAddr size writing with which | ⟨physAddr, pt⟩
    · cases (outcome_access_of_error ht).symm.trans h
      rcases translate_congr hr.pageTable virtAddr size writing with
        ⟨which', ht₁, ht₂⟩ | ⟨_, _, _, ht₁, -, -⟩
      · cases ht.symm.trans ht₁
        exact outcome_access_of_error ht₂
      · cases ht.symm.trans ht₁
    · cases (outcome_access_of_ok ht).symm.trans h
      exact outcome_access_of_ok (translate_again ht hr.pageTable)

instance (addr : Word) : Observes Below (readMem addr size) := by
  have (physAddr : ℕ) : Observes Below
      (Computation.read fun m => loadBytes m.mainMemory physAddr size : Cpu Word) :=
    .read fun m m' h => by rw [h.mainMemory]
  unfold readMem
  infer_instance

instance (addr value : Word) : Restartable Below (writeMem addr size value) := by
  unfold writeMem
  infer_instance

end Access

end Machine

end Nachos
