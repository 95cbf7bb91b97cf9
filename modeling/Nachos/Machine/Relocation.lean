import Nachos.Foundations.Relational
import Nachos.Machine.ByteOrder
import Nachos.Machine.Confinement
import Nachos.Machine.UserLevel

/-!
# Programs do not see where they are in main memory

Two machines look the same to a user program if the registers are the same and the entries of the
page tables with the same number agree in what `Translate` checks and lead to pages with the same
contents, wherever these pages are. As no two entries of a page table lead to the same page, a store
changes one page in each of the machines and they still look the same. What happens in other pages
does not matter.

## Main definitions

* `Machine.SameView`: the two machines look the same to a user program.
* `Machine.Spares`: others have changed the machine.
* `Machine.trace`: what the instructions of a program do, between which the kernel and other
  programs run.

## Main results

* `UserLevel.agrees_sameView`: instructions have the same results in machines that look the same.
* `Machine.SameView.trace_eq`: so do programs.
-/

namespace Nachos

open Foundations

theorem TableBelow.exists_of_getElem? {pt qt : List TranslationEntry} (h : TableBelow pt qt) {i : ℕ}
    {f : TranslationEntry} (hf : qt[i]? = some f) : ∃ e, pt[i]? = some e ∧ e.Below f := by
  obtain ⟨hi, -⟩ := List.getElem?_eq_some_iff.1 hf
  have he := List.getElem?_eq_getElem (h.length ▸ hi)
  exact ⟨_, he, h.entry he hf⟩

/-- The entries of a page table that lead to different pages have different numbers. -/
theorem eq_of_physicalPage {pt : List TranslationEntry} (h : (physicalPages pt).Nodup) {i j : ℕ}
    {e f : TranslationEntry} (he : pt[i]? = some e) (hf : pt[j]? = some f)
    (hpage : e.physicalPage = f.physicalPage) : i = j := by
  have hi : i < (physicalPages pt).length := by
    rw [physicalPages, List.length_map]
    exact (List.getElem?_eq_some_iff.1 he).1
  refine (List.getElem?_inj hi h).1 ?_
  rw [physicalPages, List.getElem?_map, List.getElem?_map, he, hf, Option.map_some,
    Option.map_some, hpage]

namespace MainMemory

variable {mem mem' : MainMemory} {page page' offset o : ℕ} {bytes : List (BitVec 8)}

/-- The byte at an offset of a page. -/
def pageByte (mem : MainMemory) (page offset : ℕ) : BitVec 8 := mem (page * pageSize + offset)

/-- A store in the page. -/
theorem pageByte_store : (mem.store (page * pageSize + offset) bytes).pageByte page o =
    if offset ≤ o ∧ o < offset + bytes.length then bytes.getD (o - offset) 0
    else mem.pageByte page o := by
  unfold pageByte store
  have hiff : page * pageSize + offset ≤ page * pageSize + o ∧
      page * pageSize + o < page * pageSize + offset + bytes.length ↔
        offset ≤ o ∧ o < offset + bytes.length := by omega
  by_cases h : offset ≤ o ∧ o < offset + bytes.length
  · rw [if_pos h, if_pos (hiff.2 h), Nat.add_sub_add_left]
  · rw [if_neg h, if_neg (mt hiff.1 h)]

/-- A store in another page. -/
theorem pageByte_store_of_ne (hne : page ≠ page') (hfit : offset + bytes.length ≤ pageSize)
    (ho : o < pageSize) : (mem.store (page * pageSize + offset) bytes).pageByte page' o =
      mem.pageByte page' o := by
  refine if_neg fun ⟨hle, hlt⟩ => hne ?_
  simp only [pageSize] at *
  omega

end MainMemory

/-- What `Translate` checks is the same for both entries. -/
structure TranslationEntry.Matches (e f : TranslationEntry) : Prop where
  valid : f.valid = e.valid
  readOnly : f.readOnly = e.readOnly
  inMemory : numPhysPages ≤ f.physicalPage ↔ numPhysPages ≤ e.physicalPage

theorem TranslationEntry.Matches.below {e e' f f' : TranslationEntry} (h : e.Matches f)
    (he : e.Below e') (hf : f.Below f') : e'.Matches f' where
  valid := hf.valid.trans (h.valid.trans he.valid.symm)
  readOnly := hf.readOnly.trans (h.readOnly.trans he.readOnly.symm)
  inMemory := by rw [he.physicalPage, hf.physicalPage, h.inMemory]

theorem TranslationEntry.Matches.check {e f : TranslationEntry} (h : e.Matches f) (writing : Bool) :
    (∃ which, e.check writing = .error which ∧ f.check writing = .error which) ∨
    ∃ e' f', e.check writing = .ok e' ∧ f.check writing = .ok f' ∧ e.Below e' ∧ f.Below f' := by
  rcases he : e.check writing with which | e'
  · refine .inl ⟨which, rfl, ?_⟩
    unfold TranslationEntry.check at he ⊢
    rw [h.valid, h.readOnly]
    simp only [h.inMemory]
    split_ifs at he ⊢ <;> exact he
  · obtain ⟨hv, hr, hp, -⟩ := TranslationEntry.check_eq_ok.1 he
    have hf := TranslationEntry.check_eq_ok.2 ⟨h.valid.trans hv, fun hro => hr (h.readOnly ▸ hro),
      not_le.1 (mt h.inMemory.1 (not_le.2 hp)), rfl⟩
    exact .inr ⟨e', _, rfl, hf, .check he, .check hf⟩

namespace Machine

/-- The two machines look the same to a user program. -/
structure SameView (m n : Machine) : Prop where
  registers : n.registers = m.registers
  length : n.pageTable.length = m.pageTable.length
  entry {i : ℕ} {e f : TranslationEntry} : m.pageTable[i]? = some e → n.pageTable[i]? = some f →
    e.Matches f
  bytes {i : ℕ} {e f : TranslationEntry} : m.pageTable[i]? = some e → n.pageTable[i]? = some f →
    ∀ o < pageSize,
      n.mainMemory.pageByte f.physicalPage o = m.mainMemory.pageByte e.physicalPage o
  nodup : (physicalPages m.pageTable).Nodup
  nodup' : (physicalPages n.pageTable).Nodup

namespace SameView

variable {m n : Machine} {pt qt : List TranslationEntry} {virtAddr : Word} {size : AccessSize}
  {writing : Bool}

theorem exists_getElem? (h : SameView m n) {i : ℕ} {e : TranslationEntry}
    (he : m.pageTable[i]? = some e) : ∃ f, n.pageTable[i]? = some f ∧ e.Matches f := by
  have hi := (List.getElem?_eq_some_iff.1 he).1
  have hf := List.getElem?_eq_getElem (h.length ▸ hi)
  exact ⟨_, hf, h.entry he hf⟩

theorem getElem?_eq_none (h : SameView m n) {i : ℕ} (he : m.pageTable[i]? = none) :
    n.pageTable[i]? = none := by
  rwa [List.getElem?_eq_none_iff, h.length, ← List.getElem?_eq_none_iff]

/-- The same change of the registers. -/
theorem withRegisters (h : SameView m n) (g : Registers → Registers) :
    SameView { m with registers := g m.registers } { n with registers := g n.registers } :=
  ⟨congrArg g h.registers, h.length, h.entry, h.bytes, h.nodup, h.nodup'⟩

/-- Bits of the page tables are set. -/
theorem withPageTable (h : SameView m n) (hm : TableBelow m.pageTable pt)
    (hn : TableBelow n.pageTable qt) :
    SameView { m with pageTable := pt } { n with pageTable := qt } where
  registers := h.registers
  length := hn.length.trans (h.length.trans hm.length.symm)
  entry he hf := by
    obtain ⟨e, he', hbelow⟩ := hm.exists_of_getElem? he
    obtain ⟨f, hf', hbelow'⟩ := hn.exists_of_getElem? hf
    exact (h.entry he' hf').below hbelow hbelow'
  bytes he hf o ho := by
    obtain ⟨e, he', hbelow⟩ := hm.exists_of_getElem? he
    obtain ⟨f, hf', hbelow'⟩ := hn.exists_of_getElem? hf
    rw [hbelow.physicalPage, hbelow'.physicalPage]
    exact h.bytes he' hf' o ho
  nodup := hm.physicalPages_eq ▸ h.nodup
  nodup' := hn.physicalPages_eq ▸ h.nodup'

/-- Bytes are stored at the same offset of pages with the same number. -/
theorem store (h : SameView m n) {i : ℕ} {e f : TranslationEntry} (he : m.pageTable[i]? = some e)
    (hf : n.pageTable[i]? = some f) {offset : ℕ} (bytes : List (BitVec 8))
    (hfit : offset + bytes.length ≤ pageSize) :
    SameView { m with mainMemory := m.mainMemory.store (e.physicalPage * pageSize + offset) bytes }
      { n with mainMemory := n.mainMemory.store (f.physicalPage * pageSize + offset) bytes } where
  registers := h.registers
  length := h.length
  entry := h.entry
  bytes {j e' f'} he' hf' o ho := by
    by_cases hij : i = j
    · subst hij
      cases he.symm.trans he'
      cases hf.symm.trans hf'
      rw [MainMemory.pageByte_store, MainMemory.pageByte_store, h.bytes he hf o ho]
    · -- the stores go to other pages
      rw [MainMemory.pageByte_store_of_ne (fun hp => hij (eq_of_physicalPage h.nodup he he' hp))
          hfit ho,
        MainMemory.pageByte_store_of_ne (fun hp => hij (eq_of_physicalPage h.nodup' hf hf' hp))
          hfit ho]
      exact h.bytes he' hf' o ho
  nodup := h.nodup
  nodup' := h.nodup'

end SameView

/-! ### Accesses -/

section Access

variable {m n : Machine} {virtAddr : Word} {size : AccessSize} {writing : Bool}

/-- The same accesses succeed, and they go to the same offset of pages with the same number. -/
theorem SameView.translate_cases (h : SameView m n) (virtAddr : Word) (size : AccessSize)
    (writing : Bool) :
    (∃ which, translate m.pageTable virtAddr size writing = .error which ∧
      translate n.pageTable virtAddr size writing = .error which) ∨
    ∃ (i : ℕ) (e f : TranslationEntry) (pt qt : List TranslationEntry) (offset : ℕ),
      m.pageTable[i]? = some e ∧ n.pageTable[i]? = some f ∧
      translate m.pageTable virtAddr size writing =
        .ok (e.physicalPage * pageSize + offset, pt) ∧
      translate n.pageTable virtAddr size writing =
        .ok (f.physicalPage * pageSize + offset, qt) ∧
      offset + size.width ≤ pageSize := by
  by_cases ha : size.Aligned virtAddr
  · rcases he : m.pageTable[virtAddr.toNat / pageSize]? with _ | e
    · simp [translate, ha, he, h.getElem?_eq_none he]
    · obtain ⟨f, hf, hef⟩ := h.exists_getElem? he
      rcases hef.check writing with ⟨which, hc, hc'⟩ | ⟨e', f', hc, hc', he', hf'⟩
      · simp [translate, ha, he, hf, hc, hc']
      · exact .inr ⟨_, e, f, _, _, virtAddr.toNat % pageSize, he, hf,
          translate_eq_ok.2 ⟨ha, e, e', he, hc, by rw [he'.physicalPage], rfl⟩,
          translate_eq_ok.2 ⟨ha, f, f', hf, hc', by rw [hf'.physicalPage], rfl⟩,
          ha.offset_le⟩
  · simp [translate, ha]

instance agrees_readMem (addr : Word) : Agrees SameView (readMem addr size) := by
  refine .of_outcome fun m n h => ?_
  rcases h.translate_cases addr size false with ⟨which, hm, hn⟩ |
    ⟨i, e, f, pt, qt, offset, he, hf, hm, hn, hfit⟩
  · exact ⟨_, m, n, Computation.outcome_bind_of_error _ (outcome_access_of_error hm),
      Computation.outcome_bind_of_error _ (outcome_access_of_error hn), h⟩
  · refine ⟨_, _, _, Computation.outcome_bind_of_ok _ (outcome_access_of_ok hm), ?_,
      h.withPageTable (translate_below hm) (translate_below hn)⟩
    rw [readMem, Computation.outcome_bind_of_ok _ (outcome_access_of_ok hn),
      Computation.outcome_read, Prod.mk.injEq]
    refine ⟨congrArg Except.ok (loadBytes_congr fun k hk => ?_), rfl⟩
    rw [Nat.add_assoc, Nat.add_assoc]
    exact h.bytes he hf (offset + k) (by omega)

instance agrees_writeMem (addr value : Word) : Agrees SameView (writeMem addr size value) := by
  refine .of_outcome fun m n h => ?_
  rcases h.translate_cases addr size true with ⟨which, hm, hn⟩ |
    ⟨i, e, f, pt, qt, offset, he, hf, hm, hn, hfit⟩
  · exact ⟨_, m, n, Computation.outcome_bind_of_error _ (outcome_access_of_error hm),
      Computation.outcome_bind_of_error _ (outcome_access_of_error hn), h⟩
  · refine ⟨_, _, _, Computation.outcome_bind_of_ok _ (outcome_access_of_ok hm),
      Computation.outcome_bind_of_ok _ (outcome_access_of_ok hn), ?_⟩
    rw [← length_bytes_eq value] at hfit
    exact (h.store he hf _ hfit).withPageTable (translate_below hm) (translate_below hn)

end Access

end Machine

/-- What accesses the machine through its registers, `ReadMem` and `WriteMem` only does not
distinguish machines that look the same. -/
theorem UserLevel.agrees_sameView {α : Type} {x : Cpu α} (h : UserLevel x) :
    Agrees Machine.SameView x :=
  h.agrees (fun _ _ hr => hr.registers) fun _ _ g hr => hr.withRegisters g

namespace Machine

/-! ### Others -/

/-- What others do in main memory outside the pages of a program: it finds its registers, its page
table and its pages as they were. -/
structure Spares (m m' : Machine) : Prop where
  registers : m'.registers = m.registers
  pageTable : m'.pageTable = m.pageTable
  bytes : ∀ a, a / pageSize ∈ physicalPages m.pageTable → m'.mainMemory a = m.mainMemory a

namespace Spares

variable {m m' n n' : Machine} {size : AccessSize}

theorem trans {m'' : Machine} (h : Spares m m') (h' : Spares m' m'') : Spares m m'' :=
  ⟨h'.registers.trans h.registers, h'.pageTable.trans h.pageTable,
    fun a ha => (h'.bytes a (h.pageTable ▸ ha)).trans (h.bytes a ha)⟩

theorem withRegisters (h : Spares m m') (g : Registers → Registers) :
    Spares { m with registers := g m.registers } { m' with registers := g m'.registers } :=
  ⟨congrArg g h.registers, h.pageTable, h.bytes⟩

instance agrees_readMem (addr : Word) : Agrees Spares (readMem addr size) := by
  refine .of_outcome fun m m' h => ?_
  rcases hm : translate m.pageTable addr size false with which | ⟨physAddr, pt⟩
  · have hm' := h.pageTable ▸ hm
    exact ⟨_, m, m', Computation.outcome_bind_of_error _ (outcome_access_of_error hm),
      Computation.outcome_bind_of_error _ (outcome_access_of_error hm'), h⟩
  · have hm' := h.pageTable ▸ hm
    refine ⟨_, _, { m' with pageTable := pt },
      Computation.outcome_bind_of_ok _ (outcome_access_of_ok hm), ?_,
      ⟨h.registers, rfl, fun a ha => h.bytes a ?_⟩⟩
    · rw [readMem, Computation.outcome_bind_of_ok _ (outcome_access_of_ok hm'),
        Computation.outcome_read, Prod.mk.injEq]
      refine ⟨congrArg Except.ok (loadBytes_congr fun k hk => ?_), rfl⟩
      obtain ⟨e, he, -, hpage⟩ := div_of_translate hm
      rw [length_bytes_eq] at hpage
      refine h.bytes _ ?_
      rw [hpage _ (Nat.le_add_right ..) (Nat.add_lt_add_left hk _)]
      exact List.mem_map_of_mem he
    · rwa [← (translate_below hm).physicalPages_eq]

instance agrees_writeMem (addr value : Word) : Agrees Spares (writeMem addr size value) := by
  refine .of_outcome fun m m' h => ?_
  rcases hm : translate m.pageTable addr size true with which | ⟨physAddr, pt⟩
  · have hm' := h.pageTable ▸ hm
    exact ⟨_, m, m', Computation.outcome_bind_of_error _ (outcome_access_of_error hm),
      Computation.outcome_bind_of_error _ (outcome_access_of_error hm'), h⟩
  · have hm' := h.pageTable ▸ hm
    refine ⟨_, _, _, Computation.outcome_bind_of_ok _ (outcome_access_of_ok hm),
      Computation.outcome_bind_of_ok _ (outcome_access_of_ok hm'),
      ⟨h.registers, rfl, fun a ha => ?_⟩⟩
    have hbyte := h.bytes a ((translate_below hm).physicalPages_eq ▸ ha)
    simp only [MainMemory.store, hbyte]

end Spares

/-- Others do not change what is seen of a machine. -/
theorem SameView.spares {m m' n n' : Machine} (h : SameView m n) (hm : Spares m m')
    (hn : Spares n n') : SameView m' n' where
  registers := hn.registers.trans (h.registers.trans hm.registers.symm)
  length := by rw [hm.pageTable, hn.pageTable, h.length]
  entry := by
    rw [hm.pageTable, hn.pageTable]
    exact h.entry
  bytes {i e f} he hf o ho := by
    rw [hm.pageTable] at he
    rw [hn.pageTable] at hf
    have hpage (p : ℕ) : (p * pageSize + o) / pageSize = p := by
      simp only [pageSize] at *
      omega
    rw [MainMemory.pageByte, MainMemory.pageByte,
      hm.bytes _ (hpage _ ▸ List.mem_map_of_mem (List.mem_of_getElem? he)),
      hn.bytes _ (hpage _ ▸ List.mem_map_of_mem (List.mem_of_getElem? hf))]
    exact h.bytes he hf o ho
  nodup := hm.pageTable ▸ h.nodup
  nodup' := hn.pageTable ▸ h.nodup'

/-! ### Programs -/

/-- The changes that others make between the instructions of a program. -/
structure Others where
  change : ℕ → Machine → Machine
  spares (i : ℕ) (m : Machine) : Spares m (change i m)

/-- What can be seen of an instruction: its exception, what the kernel returns when it handles the
exception or an interrupt, and the registers afterwards. -/
structure Seen where
  instruction : Except Trap Unit
  kernel : Except Trap Unit
  registers : Registers

/-- What is seen of `n` instructions, after each of which the kernel acts on behalf of the program,
as it depends on what the instruction has done, and then others run. -/
def trace (kernel : ℕ → Except Trap Unit → Cpu Unit) (others : Others) : ℕ → Machine → List Seen
  | 0, _ => []
  | n + 1, m =>
    let (instruction, m) := execute.outcome m
    let (kernelResult, m) := (kernel n instruction).outcome m
    ⟨instruction, kernelResult, m.registers⟩ :: trace kernel others n (others.change n m)

/-- The same is seen of a program in machines that look the same, whatever others do. -/
theorem SameView.trace_eq {kernel : ℕ → Except Trap Unit → Cpu Unit}
    (hkernel : ∀ i result, UserLevel (kernel i result)) (others others' : Others) (k : ℕ)
    {m n : Machine} (h : SameView m n) :
    trace kernel others k m = trace kernel others' k n := by
  induction k generalizing m n with
  | zero => rfl
  | succ k ih =>
    have hexecute := userLevel_execute.agrees_sameView
    have hresult := hexecute.result h
    have hact := (hkernel k (execute.outcome m).1).agrees_sameView
    have hkernelResult := hact.result (hexecute.related h)
    have hafter := hact.related (hexecute.related h)
    simp only [trace]
    rw [← hresult, ← hkernelResult, ← hafter.registers,
      ih (hafter.spares (others.spares k _) (others'.spares k _))]

end Machine

end Nachos
