import Nachos.Machine.MipsSim

/-!
# Programs stay within the pages of their page table

A user program changes main memory only through `WriteMem`, which stores within one page that
`Translate` has found in the page table, and `Translate` changes nothing of the page table but the
bits `use` and `dirty`. Hence an instruction changes main memory only in the pages to which the page
table leads, and the page table still leads to the same pages.

## Main definitions

* `physicalPages`: the pages to which a page table leads.
* `Machine.Within`: main memory may have changed in these pages only.

## Main results

* `Machine.respects_execute`: an instruction stays within the pages of its page table, also where it
  raises an exception.
-/

namespace Nachos

open Foundations

/-- The physical pages of the entries of a page table. -/
def physicalPages (pageTable : List TranslationEntry) : List ℕ :=
  pageTable.map TranslationEntry.physicalPage

theorem TableBelow.physicalPages_eq {pt qt : List TranslationEntry} (h : TableBelow pt qt) :
    physicalPages qt = physicalPages pt := by
  refine List.ext_getElem (by simp [physicalPages, h.length]) fun i hi hi' => ?_
  simp only [physicalPages, List.length_map] at hi hi'
  simp only [physicalPages, List.getElem_map]
  exact (h.entry (List.getElem?_eq_getElem hi') (List.getElem?_eq_getElem hi)).physicalPage

/-- From the first state to the second one, main memory has changed at most in the physical pages of
the page table, which have remained the same. -/
structure Machine.Within (m m' : Machine) : Prop where
  pages : physicalPages m'.pageTable = physicalPages m.pageTable
  outside : ∀ a, a / pageSize ∉ physicalPages m.pageTable → m'.mainMemory a = m.mainMemory a

namespace Machine

variable {m m' : Machine} {virtAddr : Word} {size : AccessSize} {writing : Bool}

instance : Std.Refl Within where
  refl _ := ⟨rfl, fun _ _ => rfl⟩

instance : IsTrans Machine Within where
  trans _ _ _ h h' :=
    ⟨h'.pages.trans h.pages, fun a ha => (h'.outside a (h.pages ▸ ha)).trans (h.outside a ha)⟩

theorem Below.within (h : m.Below m') : m.Within m' :=
  ⟨h.pageTable.physicalPages_eq, fun _ _ => congrFun h.mainMemory _⟩

/-- A change of the registers. -/
theorem within_of_registers (m : Machine) (registers : Registers) :
    m.Within { m with registers } := ⟨rfl, fun _ _ => rfl⟩

theorem within_trap (m : Machine) (badVAddr : Word) : m.Within (m.trap badVAddr) :=
  ⟨rfl, fun _ _ => rfl⟩

/-! ### Accesses -/

instance : Respects Within (access virtAddr size writing) where
  related m := by
    have hobs : Observes Below (access virtAddr size writing) := inferInstance
    exact (hobs.above (s := m) rfl).within

instance (addr : Word) : Respects Within (readMem addr size) := by
  unfold readMem
  infer_instance

instance (addr value : Word) : Respects Within (writeMem addr size value) where
  related m := by
    unfold writeMem
    rcases h : translate m.pageTable addr size true with which | ⟨physAddr, pt⟩
    · rw [Computation.outcome_bind_of_error _ (outcome_access_of_error h)]
      exact refl m
    · rw [Computation.outcome_bind_of_ok _ (outcome_access_of_ok h)]
      obtain ⟨e, he, -, hpage⟩ := div_of_translate h
      refine ⟨(translate_below h).physicalPages_eq, fun a ha => if_neg fun ⟨hle, hlt⟩ => ?_⟩
      rw [length_bytes] at hlt
      exact ha (hpage a hle hlt ▸ List.mem_map_of_mem he)

/-! ### Instructions -/

section Instructions

variable {instr : Instruction} {pcAfter nextPC : Word} {r : Fin 32}

instance : Respects Within (reg r) := inferInstanceAs (Respects _ (Computation.read _))

instance (value : Word) : Respects Within (setReg r value) :=
  .write fun m => within_of_registers m _

instance (hi lo : Word) : Respects Within (setHiLo hi lo) :=
  .write fun m => within_of_registers m _

instance {c : Prop} [Decidable c] (which : ExceptionType) (badVAddr : Word) :
    Respects Within (raiseIf c which badVAddr) := by
  unfold raiseIf
  infer_instance

instance {c : Prop} [Decidable c] (f : Fault) : Respects Within (require c f) := by
  unfold require
  infer_instance

instance (value : Cpu Word) [Respects Within value] :
    Respects Within (assign pcAfter r value) := by
  unfold assign
  infer_instance

instance (f : Word → Word → Word) : Respects Within (operands instr f) := by
  unfold operands
  infer_instance

instance (f : Word → Word → Word) : Respects Within (immediate instr f) := by
  unfold immediate
  infer_instance

instance (value : Word) {c : Prop} [Decidable c] : Respects Within (checked r value c pcAfter) := by
  unfold checked
  infer_instance

instance (taken : Word → Word → Bool) : Respects Within (branch instr nextPC taken) := by
  unfold branch
  infer_instance

instance (check : Word → Cpu Unit) [∀ tmp, Respects Within (check tmp)]
    (convert : Word → Word) : Respects Within (load instr pcAfter check size convert) := by
  unfold load
  infer_instance

instance (join : Word → Word → Word → Word) :
    Respects Within (loadUnaligned instr pcAfter join) := by
  unfold loadUnaligned
  infer_instance

instance : Respects Within (store instr pcAfter size) := by
  unfold store
  infer_instance

instance (join : Word → Word → Word → Word) :
    Respects Within (storeUnaligned instr pcAfter join) := by
  unfold storeUnaligned
  infer_instance

instance (a b : Word) : Respects Within (divide a b) := by
  unfold divide
  infer_instance

instance (a b : Word) : Respects Within (divideUnsigned a b) := by
  unfold divideUnsigned
  infer_instance

instance respects_perform : Respects Within (perform instr nextPC) := by
  have hwrite (a : Word) : Respects Within (Computation.write fun m =>
      { m with registers := { m.registers with hi := a } } : Cpu Unit) :=
    .write fun m => within_of_registers m _
  have hwrite' (a : Word) : Respects Within (Computation.write fun m =>
      { m with registers := { m.registers with lo := a } } : Cpu Unit) :=
    .write fun m => within_of_registers m _
  unfold perform
  cases instr.opCode <;> dsimp only <;> infer_instance

instance respects_execute : Respects Within execute := by
  have hfinish (effect : Effect) : Respects Within
      (Computation.write fun m => m.finish effect : Cpu Unit) :=
    .write fun m => ⟨rfl, fun _ _ => rfl⟩
  unfold execute
  infer_instance

end Instructions

end Machine

end Nachos
