import Mathlib.Algebra.BigOperators.Group.Finset.Piecewise
import Mathlib.Order.Interval.Finset.Nat
import Mathlib.Tactic.Ring
import Nachos.UserProg.LoadOverrun
import Nachos.UserProg.ProcessTable

/-!
# Live processes and their entries

`SC_Exec` counts a new process, forks its thread, and only then appends its entry to the list of
processes; `SC_Exit` removes the entry and counts the process off later. Between two system calls
the counter and the list agree with the processes that are alive, as long as no process exits
before its entry is appended: such an entry stays in the list for ever. An exit that finds the
entries of the process and of its parent is safe; a process whose parent has exited before it does
not find one.

## Main definitions

* `Ledger.balance`: the counter with the changes that are still to be made.
* `Ledger.Tidy`: no entry is that of a process that has exited.
* `UserKernel.Bookkeeping`, `UserKernel.ExitSafe`: the counter and the list agree with the
  processes that are alive; the next exit finds what it looks for.

## Main results

* `bookkeeping_of_reachable`: between system calls the bookkeeping is right, if every process that
  exits has its entry.
* `exitSafe_iff`: which exits are safe.
-/

namespace Nachos.UserProg

open Foundations StepSystem Threads Function Finset

namespace Ledger

variable {l l' : Ledger} {t a : ℕ} {o : Option ℕ}

/-! ### The counter -/

/-- By how much changes will change `NumProcess`. -/
def weight (cs : List UserCode) : ℤ := cs.count .countProcess - cs.count .uncountProcess

/-- `NumProcess` when all changes are made. -/
def balance (l : Ledger) : ℤ := l.numProcess + ∑ t ∈ range (l.processId + 1), weight (l.pending t)

theorem weight_count (rest : List UserCode) :
    weight (.countProcess :: rest) = weight rest + 1 := by
  simp only [weight, List.count_cons]
  simp
  ring

theorem weight_uncount (rest : List UserCode) :
    weight (.uncountProcess :: rest) = weight rest - 1 := by
  simp only [weight, List.count_cons]
  simp
  ring

theorem weight_append (pid : ℕ) (rest : List UserCode) :
    weight (.append a pid :: rest) = weight rest := by
  simp [weight]

/-- The changes of one thread are replaced. -/
theorem sum_weight_update (pending : ℕ → List UserCode) (cs : List UserCode) {n : ℕ} (ht : t < n) :
    ∑ u ∈ range n, weight (update pending t cs u) =
      ∑ u ∈ range n, weight (pending u) - weight (pending t) + weight cs := by
  have hmap : (fun u => weight (update pending t cs u)) =
      update (fun u => weight (pending u)) t (weight cs) := by
    funext u
    exact apply_update (fun _ => weight) pending t cs u
  rw [hmap, sum_update_of_mem (mem_range.2 ht), ← add_sum_erase _ _ (mem_range.2 ht),
    sdiff_singleton_eq_erase]
  ring

/-- No changes are to be made by threads that have not started. -/
theorem Valid.pending_eq_nil (h : l.Valid) (ht : l.processId < t) : l.pending t = [] := by
  by_contra hne
  have := (h.elements.started_le (h.pending_started t hne)).2
  omega

theorem Valid.lt_of_pending (h : l.Valid) {c : UserCode} {rest : List UserCode}
    (ht : l.pending t = c :: rest) : t < l.processId + 1 := by
  have := (h.elements.started_le (h.pending_started t (by simp [ht]))).2
  omega

/-- A PID is issued. -/
theorem Valid.sum_succ (h : l.Valid) :
    ∑ t ∈ range (l.processId + 1 + 1), weight (l.pending t) =
      ∑ t ∈ range (l.processId + 1), weight (l.pending t) := by
  rw [sum_range_succ, h.pending_eq_nil (Nat.lt_succ_self _)]
  simp [weight]

/-- There are finitely many loaded processes. -/
theorem Valid.finite_loaded (h : l.Valid) : l.loaded.Finite :=
  (Set.finite_Iic l.processId).subset fun _ ht => (h.elements.started_le (.inl ht)).2

/-- The counter and the changes that are still to be made give the number of processes. -/
theorem Valid.balance_move (h : l.Valid) (hb : l.balance = l.loaded.ncard) (hm : Move l o l') :
    l'.balance = l'.loaded.ncard := by
  unfold balance at hb ⊢
  cases hm with
  | stay => exact hb
  | issue =>
    rw [← hb]
    exact congrArg (l.numProcess + ·) h.sum_succ
  | start hz list hlist =>
    have hnot := h.elements.not_started_of_zero hz
    have hempty : l.loaded = ∅ := Set.eq_empty_of_forall_notMem fun t ht => hnot t (.inl ht)
    have hnil : ∀ t, l.pending t = [] := fun t =>
      not_not.1 fun ht => hnot t (h.pending_started t ht)
    have hsum := sum_weight_update l.pending [.countProcess] (t := 1) (n := 2) Nat.one_lt_two
    simp only [hempty, hnil, insert_empty_eq, Set.ncard_singleton] at hsum ⊢
    rw [hsum]
    simp [weight]
  | load t found ht hpending =>
    have htle : t < l.processId + 1 + 1 := by
      have := (h.elements.started_le (.inl ht)).2
      omega
    have hnew : l.processId + 1 ∉ l.loaded := fun hl => by
      have := (h.elements.started_le (.inl hl)).2
      omega
    simp only
    rw [sum_weight_update _ _ htle, h.sum_succ, hpending]
    cases found with
    | false =>
      simp only [Bool.false_eq_true, if_false, List.nil_append, weight_append, ← hb]
      ring
    | true =>
      simp only [if_true, List.cons_append, List.nil_append, weight_count, weight_append]
      rw [Set.ncard_insert_of_notMem hnew h.finite_loaded, Nat.cast_add, ← hb]
      simp [weight]
      ring
  | count t rest hpending =>
    simp only
    rw [sum_weight_update _ _ (h.lt_of_pending hpending), hpending, weight_count, ← hb]
    ring
  | uncount t rest hpending =>
    simp only
    rw [sum_weight_update _ _ (h.lt_of_pending hpending), hpending, weight_uncount, ← hb]
    ring
  | append t a pid rest list hpending hlist =>
    simp only
    rw [sum_weight_update _ _ (h.lt_of_pending hpending), hpending, weight_append, ← hb]
    ring
  | exit t junk parentPID pcb ht hpending hpcb =>
    have htle : t < l.processId + 1 := by
      have := (h.elements.started_le (.inl ht)).2
      omega
    have hcard := Set.ncard_sdiff_singleton_add_one ht h.finite_loaded
    simp only
    rw [sum_weight_update _ _ htle, hpending, weight_uncount]
    have hcard' : ((l.loaded \ {t}).ncard : ℤ) + 1 = l.loaded.ncard := by exact_mod_cast hcard
    rw [eq_sub_of_add_eq hcard', ← hb]
    ring

/-! ### The entries -/

/-- No entry, present or still to be appended, is that of a process that has exited. -/
structure Tidy (l : Ledger) : Prop where
  entries : ∀ a ∈ l.pcb.entries, ∀ t ∈ l.exited, l.pcb.list.pid a ≠ t
  pending : ∀ u a pid : ℕ, .append a pid ∈ l.pending u → pid ∉ l.exited

/-- Only exits remove entries. -/
def Kept (l : Ledger) : Prop :=
  ∀ a ∈ l.pcb.appended, a ∈ l.pcb.entries ∨ ∃ t ∈ l.exited, l.pcb.list.pid a = t

theorem Valid.kept_move (h : l.Valid) (hk : l.Kept) (hm : Move l o l') : l'.Kept := by
  cases hm with
  | stay | issue | count | uncount => exact hk
  | start hz list hlist => exact fun a ha => .inl ha
  | load t found ht hpending =>
    intro a ha
    have hpid : (l.pcb.list.create (l.processId + 1 : ℕ) found t).pid a = l.pcb.list.pid a :=
      congrArg ProcessElement.pid (ProcessList.element_create_of_lt _ _ _ (h.table.created a ha))
    exact (hk a ha).imp_right fun ⟨u, hu, hau⟩ => ⟨u, hu, hpid.trans hau⟩
  | append t b pid rest list hpending hlist =>
    have hsame := ProcessList.sameElements_of_append hlist
    intro a ha
    obtain ha | ha := List.mem_append.1 ha
    · exact (hk a ha).imp (List.mem_append_left _) fun ⟨u, hu, hau⟩ =>
        ⟨u, hu, (congrFun hsame.pid a).trans hau⟩
    · exact .inl (List.mem_append_right _ ha)
  | exit t junk parentPID pcb ht hpending hpcb =>
    obtain ⟨-, hsame, happended, hentries⟩ := removeEntry_spec h.table hpcb
    intro a ha
    have ha' : a ∈ l.pcb.appended := happended ▸ ha
    obtain hmem | ⟨u, hu, hau⟩ := hk a ha'
    · by_cases hat : l.pcb.list.pid a = t
      · exact .inr ⟨t, by simp, (congrFun hsame.pid a).trans hat⟩
      · obtain ⟨-, he⟩ | ⟨b, -, hbt, he, -⟩ := hentries
        · exact .inl (he ▸ hmem)
        · refine .inl ?_
          change a ∈ pcb.entries
          have hab : a ≠ b := fun hab => hat (by rw [hab, hbt])
          rw [he, List.mem_erase_of_ne hab]
          exact hmem
    · exact .inr ⟨u, List.mem_append_left _ hu, (congrFun hsame.pid a).trans hau⟩

/-- Changes that remain when the first one has been made were to be made before. -/
theorem mem_of_mem_update {c x : UserCode} {rest : List UserCode} {u : ℕ}
    (hpending : l.pending t = c :: rest) (hmem : x ∈ update l.pending t rest u) :
    x ∈ l.pending u := by
  by_cases hut : u = t
  · subst hut
    rw [hpending]
    exact List.mem_cons_of_mem _ (by simpa using hmem)
  · simpa [hut] using hmem

/-- The entries that remain are those of other processes. -/
theorem Valid.of_mem_removeEntry (h : l.Valid) {junk parentPID : ℤ} {pcb : ListState}
    (hpcb : removeEntry t junk l.pcb = .ok (pcb, parentPID)) (ha : a ∈ pcb.entries) :
    a ∈ l.pcb.entries ∧ l.pcb.list.pid a ≠ t := by
  obtain ⟨-, -, -, ⟨hno, he⟩ | ⟨b, hb, hbt, he, -⟩⟩ := removeEntry_spec h.table hpcb
  · rw [he] at ha
    exact ⟨ha, hno a ha⟩
  · rw [he] at ha
    have hnodup : l.pcb.entries.Nodup := h.table.nodup.sublist h.table.sublist
    obtain ⟨hab, ha⟩ := hnodup.mem_erase_iff.1 ha
    have hlt : ∀ c ∈ l.pcb.entries, c < l.pcb.list.created := fun c hc =>
      h.table.created c (h.table.sublist.subset hc)
    exact ⟨ha, fun hat => hab (h.elements.pid_inj a (hlt a ha) b (hlt b hb) (hat.trans hbt.symm))⟩

/-- A process may exit when its entry is not still to be appended. -/
theorem Valid.tidy_move (h : l.Valid) (ht : l.Tidy) (hm : Move l o l')
    (hexit : ∀ t, o = some t → ∀ u a, .append a t ∉ l.pending u) : l'.Tidy := by
  cases hm with
  | stay => exact ht
  | issue => exact ⟨ht.entries, ht.pending⟩
  | start hz list hlist =>
    have hnot := h.elements.not_started_of_zero hz
    have hnil : ∀ t, t ∉ l.exited := fun t hmem => hnot t (.inr hmem)
    exact ⟨fun a _ t hmem => absurd hmem (hnil t), fun u a pid _ => hnil pid⟩
  | load t found htl hpending =>
    refine ⟨fun a ha u hu => ?_, fun u a pid hmem => ?_⟩
    · have hpid : (l.pcb.list.create (l.processId + 1 : ℕ) found t).pid a = l.pcb.list.pid a :=
        congrArg ProcessElement.pid (ProcessList.element_create_of_lt _ _ _
          (h.table.created a (h.table.sublist.subset ha)))
      exact fun hau => ht.entries a ha u hu (hpid.symm.trans hau)
    · by_cases hut : u = t
      · have hpid : pid = l.processId + 1 := by
          cases found <;> simp_all
        exact fun hp => by
          have := (h.elements.started_le (.inr hp)).2
          omega
      · exact ht.pending u a pid (by simpa [hut] using hmem)
  | count t rest hpending | uncount t rest hpending =>
    exact ⟨ht.entries, fun u a pid hmem => ht.pending u a pid (mem_of_mem_update hpending hmem)⟩
  | append t b pid rest list hpending hlist =>
    have hsame := ProcessList.sameElements_of_append hlist
    have hb : .append b pid ∈ l.pending t := by simp [hpending]
    refine ⟨fun a ha u hu hau => ?_, fun u a pid' hmem =>
      ht.pending u a pid' (mem_of_mem_update hpending hmem)⟩
    rw [hsame.pid] at hau
    obtain ha | ha := List.mem_append.1 ha
    · exact ht.entries a ha u hu hau
    · obtain rfl := List.mem_singleton.1 ha
      have hpid := (h.pending_append t a pid hb).2.2.1
      have hup : u = pid := Int.natCast_inj.1 (hau.symm.trans hpid)
      exact ht.pending t a pid hb (hup ▸ hu)
  | exit t junk parentPID pcb htl hpending hpcb =>
    obtain ⟨-, hsame, -, -⟩ := removeEntry_spec h.table hpcb
    refine ⟨fun a ha u hu hau => ?_, fun u a pid hmem => ?_⟩
    · obtain ⟨ha, hat⟩ := h.of_mem_removeEntry hpcb ha
      rw [hsame.pid] at hau
      obtain hu | hu := List.mem_append.1 hu
      · exact ht.entries a ha u hu hau
      · exact hat (List.mem_singleton.1 hu ▸ hau)
    · have hmem' : .append a pid ∈ l.pending u := by
        by_cases hut : u = t
        · simp [hut] at hmem
        · simpa [hut] using hmem
      simp only [List.mem_append, List.mem_singleton, not_or]
      refine ⟨ht.pending u a pid hmem', ?_⟩
      rintro rfl
      exact hexit pid rfl u a hmem'

end Ledger

/-! ### The kernel -/

namespace UserKernel

variable {k k' : UserKernel} {memAll : MemAll} {merged : Bool} {t : ℕ}

/-- The entry of the process `t` is still to be appended. -/
def EntryPending (k : UserKernel) (t : ℕ) : Prop := ∃ u a, .code (.append a t) ∈ k.tasks u

theorem mem_pending {u : ℕ} {c : UserCode} :
    c ∈ k.ledger.pending u ↔ .code c ∈ k.tasks u ∧ c.isEntry = true :=
  mem_changesOf

/-- The process has been loaded and has not exited. -/
def Live (k : UserKernel) (t : ℕ) : Prop := k.env.Loaded t ∧ t ∉ k.env.exited

/-- What is true of the counter and the list in every state. -/
structure Accounted (k : UserKernel) : Prop where
  sane : k.Sane
  balance : k.ledger.balance = k.ledger.loaded.ncard
  kept : k.ledger.Kept

theorem accounted_of_reachable {C : UserKernel → Input Empty UserInput → Prop}
    (h : (userSystem memAll merged).Reachable C k) : k.Accounted := by
  refine h.invariant Accounted ?_ fun k i k' hk _ hstep => ?_
  · rintro k rfl
    refine ⟨sane_boot, ?_, fun a ha => nomatch ha⟩
    have hempty : UserKernel.boot.ledger.loaded = ∅ := Set.eq_empty_of_forall_notMem fun t ht =>
      sane_boot.valid.elements.not_started_of_zero rfl t (.inl ht)
    rw [hempty, Set.ncard_empty]
    decide
  · obtain ⟨hsane, o, hmove, -⟩ := hk.sane.step hstep
    have hvalid := hk.sane.valid
    exact ⟨hsane, hvalid.balance_move hk.balance hmove, hvalid.kept_move hk.kept hmove⟩

/-- The ledger stays tidy as long as every process that exits has its entry. -/
theorem tidy_of_reachable {C : UserKernel → Input Empty UserInput → Prop}
    (hC : ∀ k i, C k i → k.Exits → ¬k.EntryPending k.currentThread)
    (h : (userSystem memAll merged).Reachable C k) : k.ledger.Tidy := by
  have hinv : k.Sane ∧ k.ledger.Tidy := by
    refine h.invariant (fun k => k.Sane ∧ k.ledger.Tidy) ?_ fun k i k' hk hi hstep => ?_
    · rintro k rfl
      refine ⟨sane_boot, fun a ha => (nomatch ha), fun u a pid hmem => ?_⟩
      exact absurd (sane_boot.valid.pending_started u (List.ne_nil_of_mem hmem))
        (sane_boot.valid.elements.not_started_of_zero rfl u)
    · obtain ⟨hsane, o, hmove, hexits⟩ := hk.1.step hstep
      refine ⟨hsane, hk.1.valid.tidy_move hk.2 hmove fun t ht u a hmem => ?_⟩
      obtain ⟨rfl, hex⟩ := hexits t ht
      exact hC k i hi hex ⟨u, a, (mem_pending.1 hmem).1⟩
  exact hinv.2

/-! ### Between system calls -/

/-- No thread is within `SC_Exec`, the destructor of `AddrSpace` or `StartProcess` with a change of
the counter or of the list still to make. -/
def Quiescent (k : UserKernel) : Prop := ∀ t, changesOf (k.tasks t) = []

/-- The counter and the list agree with the processes that are alive. -/
structure Bookkeeping (k : UserKernel) : Prop where
  counter : k.env.numProcess =
    (k.env.pcb.entries.filter fun a => (k.env.pcb.list.element a).valid).length
  entry : ∀ a ∈ k.env.pcb.entries, (k.env.pcb.list.element a).valid = true →
    ∃! t : ℕ, k.Live t ∧ k.env.pcb.list.pid a = t
  process : ∀ t : ℕ, k.Live t →
    ∃ a, k.env.pcb.entries.filter (fun b => k.env.pcb.list.pid b = t) = [a] ∧
      (k.env.pcb.list.element a).valid = true

/-- The element of a live process is an entry, unless it is still to be appended. -/
theorem Accounted.exists_entry (h : k.Accounted) (ht : k.env.Loaded t) (hpend : ¬k.EntryPending t) :
    ∃ a ∈ k.env.pcb.entries, k.env.pcb.list.pid a = t := by
  have hvalid := h.sane.valid
  obtain ⟨a, ha, hpid⟩ := hvalid.elements.exists_element t (.inl ht)
  obtain happ | ⟨u, pid, hmem⟩ := hvalid.appended_or a ha
  · obtain hmem | ⟨u, hu, hau⟩ := h.kept a happ
    · exact ⟨a, hmem, hpid⟩
    · obtain rfl : t = u := Int.natCast_inj.1 (hpid.symm.trans hau)
      exact absurd ht (hvalid.disjoint t hu)
  · have hpt : pid = t := Int.natCast_inj.1
      ((hvalid.pending_append u a pid hmem).2.2.1.symm.trans hpid)
    exact absurd ⟨u, a, hpt ▸ (mem_pending.1 hmem).1⟩ hpend

theorem Sane.lt_created (h : k.Sane) {a : ℕ} (ha : a ∈ k.env.pcb.entries) :
    a < k.env.pcb.list.created :=
  h.valid.table.created a (h.valid.table.sublist.subset ha)

/-- A valid entry is that of a live process. -/
theorem Sane.live_of_entry (h : k.Sane) (ht : k.ledger.Tidy) {a : ℕ} (ha : a ∈ k.env.pcb.entries)
    (hvalid : (k.env.pcb.list.element a).valid = true) :
    ∃ t : ℕ, k.Live t ∧ k.env.pcb.list.pid a = t := by
  obtain ⟨t, hpid, -, -⟩ := h.valid.elements.pid_eq a (h.lt_created ha)
  have hstarted := (h.valid.elements.valid_iff a (h.lt_created ha) t hpid).1 hvalid
  have hnot : t ∉ k.env.exited := fun hmem => ht.entries a ha t hmem hpid
  exact ⟨t, ⟨hstarted.resolve_right hnot, hnot⟩, hpid⟩

theorem Accounted.bookkeeping (h : k.Accounted) (ht : k.ledger.Tidy) (hq : k.Quiescent) :
    k.Bookkeeping := by
  have hvalid := h.sane.valid
  have hnodup : k.env.pcb.entries.Nodup := hvalid.table.nodup.sublist hvalid.table.sublist
  have hinj : ∀ a ∈ k.env.pcb.entries, ∀ b ∈ k.env.pcb.entries,
      k.env.pcb.list.pid a = k.env.pcb.list.pid b → a = b := fun a ha b hb =>
    hvalid.elements.pid_inj a (h.sane.lt_created ha) b (h.sane.lt_created hb)
  have hpend (t : ℕ) : ¬k.EntryPending t := by
    rintro ⟨u, a, hmem⟩
    have hmem' : .append a t ∈ changesOf (k.tasks u) := mem_changesOf.2 ⟨hmem, rfl⟩
    simp [hq u] at hmem'
  have hprocess (t : ℕ) (hl : k.env.Loaded t) : ∃ a ∈ k.env.pcb.entries,
      k.env.pcb.list.pid a = t ∧ (k.env.pcb.list.element a).valid = true := by
    obtain ⟨a, ha, hpid⟩ := h.exists_entry hl (hpend t)
    exact ⟨a, ha, hpid, (hvalid.elements.valid_iff a (h.sane.lt_created ha) t hpid).2 (.inl hl)⟩
  refine ⟨?_, fun a ha hv => ?_, fun t hl => ?_⟩
  · -- the valid entries and the loaded processes correspond by their PIDs
    have hsum : ∑ t ∈ range (k.ledger.processId + 1), Ledger.weight (k.ledger.pending t) = 0 :=
      sum_eq_zero fun t _ => by
        change Ledger.weight (changesOf (k.tasks t)) = 0
        rw [hq t]
        rfl
    have hcount : k.env.numProcess = k.ledger.loaded.ncard := by
      have := h.balance
      rw [Ledger.balance, hsum, add_zero] at this
      exact this
    rw [hcount]
    have hbij : k.ledger.loaded = (fun a => (k.env.pcb.list.pid a).toNat) ''
        {a | a ∈ k.env.pcb.entries.filter fun a => (k.env.pcb.list.element a).valid} := by
      ext t
      simp only [List.mem_filter, Set.mem_image, Set.mem_ofPred_eq]
      constructor
      · intro hl
        obtain ⟨a, ha, hpid, hv⟩ := hprocess t hl
        exact ⟨a, ⟨ha, hv⟩, by simp [hpid]⟩
      · rintro ⟨a, ⟨ha, hv⟩, rfl⟩
        obtain ⟨t, hl, hpid⟩ := h.sane.live_of_entry ht ha hv
        rw [hpid, Int.toNat_natCast]
        exact hl.1
    have hinjOn : Set.InjOn (fun a => (k.env.pcb.list.pid a).toNat)
        {a | a ∈ k.env.pcb.entries.filter fun a => (k.env.pcb.list.element a).valid} := by
      intro a ha b hb hab
      simp only [List.mem_filter, Set.mem_ofPred_eq] at ha hb
      obtain ⟨t, -, hat⟩ := h.sane.live_of_entry ht ha.1 ha.2
      obtain ⟨u, -, hbu⟩ := h.sane.live_of_entry ht hb.1 hb.2
      simp only [hat, hbu, Int.toNat_natCast] at hab
      exact hinj a ha.1 b hb.1 (by rw [hat, hbu, hab])
    rw [hbij, Set.InjOn.ncard_image hinjOn, ← List.coe_toFinset, Set.ncard_coe_finset,
      List.toFinset_card_of_nodup (hnodup.filter _)]
  · obtain ⟨t, hl, hpid⟩ := h.sane.live_of_entry ht ha hv
    exact ⟨t, ⟨hl, hpid⟩, fun u hu => Int.natCast_inj.1 (hu.2.symm.trans hpid)⟩
  · obtain ⟨a, ha, hpid, hv⟩ := hprocess t hl.1
    refine ⟨a, ?_, hv⟩
    refine List.perm_singleton.1 ((List.perm_ext_iff_of_nodup (hnodup.filter _)
      (List.nodup_singleton a)).2 fun b => ?_)
    simp only [List.mem_filter, decide_eq_true_eq, List.mem_singleton]
    constructor
    · exact fun ⟨hb, hbt⟩ => hinj b hb a ha (hbt.trans hpid.symm)
    · rintro rfl
      exact ⟨ha, hpid⟩

/-- As long as every process that exits has its entry, the counter and the list agree with the
processes that are alive whenever no thread is changing them. -/
theorem bookkeeping_of_reachable (memAll : MemAll) (merged : Bool) (k : UserKernel)
    (h : (userSystem memAll merged).Reachable
      (fun k _ => k.Exits → ¬k.EntryPending k.currentThread) k)
    (hq : k.Quiescent) : k.Bookkeeping :=
  (accounted_of_reachable h).bookkeeping (tidy_of_reachable (fun _ _ hC => hC) h) hq

/-! ### Exits -/

/-- What the next exit looks for is in the list: the entry of the process, and after its removal
that of its parent, unless it has none. -/
def ExitSafe (k : UserKernel) : Prop :=
  ∃ a list, k.env.pcb.list.returnElement k.currentThread = .ok (some a) ∧
    k.env.pcb.list.remove a = .ok list ∧ ((k.env.pcb.list.element a).parentPID ≠ 0 →
      ∃ b, list.returnElement (k.env.pcb.list.element a).parentPID = .ok (some b))

/-- `Exec` has appended the entry of the current process, and its parent has not exited and has its
entry, too. -/
def ExitReady (k : UserKernel) : Prop :=
  ¬k.EntryPending k.currentThread ∧
    ∀ a < k.env.pcb.list.created, k.env.pcb.list.pid a = k.currentThread →
      (k.env.pcb.list.element a).parentPID = 0 ∨
        ∃ u : ℕ, (k.env.pcb.list.element a).parentPID = u ∧ u ∉ k.env.exited ∧ ¬k.EntryPending u

/-- A process that has an entry has no entry that is still to be appended. -/
theorem Sane.not_entryPending (h : k.Sane) {a : ℕ} (ha : a ∈ k.env.pcb.entries)
    (hpid : k.env.pcb.list.pid a = t) : ¬k.EntryPending t := by
  rintro ⟨u, b, hmem⟩
  obtain ⟨hb, hnew, hbt, -⟩ := h.valid.pending_append u b t (mem_pending.2 ⟨hmem, rfl⟩)
  have hab := h.valid.elements.pid_inj a (h.lt_created ha) b hb (hpid.trans hbt.symm)
  exact hnew (hab ▸ h.valid.table.sublist.subset ha)

theorem Accounted.exitSafe (h : k.Accounted) (hex : k.Exits) (hready : k.ExitReady) :
    k.ExitSafe := by
  have htable : k.env.pcb.Valid := h.sane.valid.table
  obtain ⟨⟨fs, hstack⟩, -⟩ := hex
  obtain ⟨a, ha, hpid⟩ := h.exists_entry (h.sane.loaded_of_run hstack) hready.1
  obtain ⟨list, hlist, hvalid⟩ := htable.remove ha
  refine ⟨a, list, hpid ▸ htable.returnElement_of_mem ha, hlist, fun hne => ?_⟩
  obtain ⟨u, hu, hnot, hpend⟩ := (hready.2 a (h.sane.lt_created ha) hpid).resolve_left hne
  obtain ⟨u', hu', hstarted, hlt⟩ :=
    (h.sane.valid.elements.parent a (h.sane.lt_created ha)).resolve_left hne
  obtain rfl : u' = u := Int.natCast_inj.1 (hu'.symm.trans hu)
  obtain ⟨b, hb, hbu⟩ := h.exists_entry (hstarted.resolve_right hnot) hpend
  -- the parent has another PID
  have hab : b ≠ a := by
    rintro rfl
    have hlt' : (u' : ℤ) < k.env.pcb.list.pid b := hlt
    exact absurd hbu hlt'.ne'
  have hmem : b ∈ k.env.pcb.entries.erase a := (List.mem_erase_of_ne hab).2 hb
  have hfound := hvalid.returnElement_of_mem hmem
  rw [(ProcessList.sameElements_of_remove hlist).pid, hbu, ← hu] at hfound
  exact ⟨b, hfound⟩

theorem Sane.exitReady (h : k.Sane) (ht : k.ledger.Tidy) (hsafe : k.ExitSafe) : k.ExitReady := by
  have htable : k.env.pcb.Valid := h.valid.table
  obtain ⟨a, list, hfound, hlist, hparent⟩ := hsafe
  obtain ⟨ha, hpid⟩ := htable.returnElement_eq_some hfound
  obtain ⟨list', hlist', hvalid⟩ := htable.remove ha
  cases hlist.symm.trans hlist'
  refine ⟨h.not_entryPending ha hpid, fun a' ha' hpid' => ?_⟩
  obtain rfl := h.valid.elements.pid_inj a' ha' a (h.lt_created ha) (hpid'.trans hpid.symm)
  refine or_iff_not_imp_left.2 fun hne => ?_
  obtain ⟨b, hb⟩ := hparent hne
  obtain ⟨hmem, hbpid⟩ := hvalid.returnElement_eq_some hb
  rw [(ProcessList.sameElements_of_remove hlist).pid] at hbpid
  obtain ⟨u, hu, -, -⟩ := (h.valid.elements.parent a' ha').resolve_left hne
  have hbmem : b ∈ k.env.pcb.entries := List.mem_of_mem_erase hmem
  have hbu : k.env.pcb.list.pid b = u := hbpid.trans hu
  exact ⟨u, hu, fun hex => ht.entries b hbmem u hex hbu, h.not_entryPending hbmem hbu⟩

/-- As long as all exits meet the condition, it says which exits are safe. -/
theorem exitSafe_iff (memAll : MemAll) (merged : Bool) (k : UserKernel)
    (h : (userSystem memAll merged).Reachable (fun k _ => k.Exits → k.ExitReady) k)
    (hex : k.Exits) : k.ExitSafe ↔ k.ExitReady :=
  ⟨(accounted_of_reachable h).sane.exitReady (tidy_of_reachable (fun _ _ hC he => (hC he).1) h),
    (accounted_of_reachable h).exitSafe hex⟩

/-! ### Runs -/

/-- Whether the next step is the system call `Exit`. -/
def exits (k : UserKernel) : Bool :=
  match k.stack k.currentThread, k.env.trapped with
  | .call (.code .run) :: _, some s => decide (s.registers.gpr 2 = 1)
  | _, _ => false

theorem exits_iff : k.exits = true ↔ k.Exits := by
  unfold exits Exits
  split
  · rename_i fs s hstack htrap
    simp [hstack, htrap]
  · rename_i hno
    simp only [Bool.false_eq_true, false_iff]
    rintro ⟨⟨fs, hstack⟩, s, htrap, -⟩
    exact hno fs s hstack htrap

instance : Decidable k.Exits := decidable_of_iff _ exits_iff

end UserKernel

/-- An executable that consists of code only. -/
def program (code : List Word) : OpenFile :=
  NoffHeader.bytes ⟨noffMagic, ⟨0, 40, BitVec.ofNat 32 (4 * code.length)⟩, ⟨0, 0, 0⟩, ⟨0, 0, 0⟩⟩ ++
    code.flatMap wordBytes

/-- A program that calls `Exit`. -/
def exitProgram : OpenFile := program [0x24020001, 0xc]

/-- A program that calls `Exec` for the file `a` and then `Exit`. -/
def execProgram : OpenFile := program [0x24040014, 0x24020002, 0xc, 0x24020001, 0xc, 0x61]

/-- A step in which the timer may interrupt and `Open` may return the given file. -/
def userInput (timer : Bool) (file : Option OpenFile) : Input Empty UserInput :=
  ⟨if timer then [.timer] else [], file, ⟨fun _ => 0, 0, 0⟩, .replicate _ 0, 0, .ok⟩

/-- The first process is `first`; what `Open` finds from then on, and whether the timer interrupts,
depends on the step. -/
def userInputs (first : OpenFile) (file : ℕ → Option OpenFile) (timers : List ℕ) (n : ℕ) :
    List (Input Empty UserInput) :=
  userInput false (some first) :: (List.range n).map fun j => userInput (j ∈ timers) (file j)

namespace UserKernel

/-- Only processes with PIDs that have been issued have something to change. -/
theorem Sane.quiescent {k : UserKernel} (h : k.Sane) {n : ℕ} (hn : k.env.processId < n)
    (hnil : ∀ t < n, changesOf (k.tasks t) = []) : k.Quiescent := by
  intro t
  by_cases ht : t < n
  · exact hnil t ht
  · have hlt : k.ledger.processId < t := by
      change k.env.processId < t
      omega
    exact h.valid.pending_eq_nil hlt

/-- The first process has created another one. -/
theorem bookkeeping_of_exec : ∃ k : UserKernel,
    (userSystem .firstFit false).Reachable
      (fun k _ => k.Exits → ¬k.EntryPending k.currentThread) k ∧
    k.env.pcb.entries = [0, 1] ∧ k.Quiescent ∧ k.Bookkeeping := by
  obtain ⟨k, hk, ht⟩ := exists_reachable_of_runInputsIf (S := userSystem .firstFit false)
    (C := fun k _ => k.Exits → ¬k.EntryPending k.currentThread)
    (show (userSystem .firstFit false).init boot from rfl) (c := fun k _ => !decide k.Exits)
    (fun k _ hc => by simp_all) (userInputs execProgram (fun _ => some exitProgram) [] 24)
    (fun k : UserKernel => k.env.pcb.entries = [0, 1] ∧ k.env.processId = 2 ∧
      ∀ t : ℕ, t < 3 → changesOf (k.tasks t) = []) (by decide +kernel)
  simp only [decide_eq_true_eq] at ht
  have hq := (accounted_of_reachable hk).sane.quiescent (n := 3) (by omega) ht.2.2
  exact ⟨k, hk, ht.1, hq, bookkeeping_of_reachable .firstFit false k hk hq⟩

/-- A process exits before its entry is appended: the entry remains, and is not counted. -/
theorem not_bookkeeping_of_early_exit : ∃ k : UserKernel,
    (userSystem .firstFit false).Reachable Always k ∧ k.Quiescent ∧
    k.tasks 1 = [.code .run, .finish] ∧ k.history.forked = k.history.finished ∧
    ¬k.Bookkeeping := by
  obtain ⟨k, hk, ht⟩ := exists_reachable_of_runInputs (S := userSystem .firstFit false)
    (show (userSystem .firstFit false).init boot from rfl)
    (userInputs execProgram (fun _ => some exitProgram) [22, 32] 56)
    (fun k : UserKernel => k.env.processId = 2 ∧
      (∀ t : ℕ, t < 3 → changesOf (k.tasks t) = []) ∧ k.tasks 1 = [.code .run, .finish] ∧
      k.history.forked = k.history.finished ∧ k.env.numProcess = 1 ∧
      (k.env.pcb.entries.filter fun a => (k.env.pcb.list.element a).valid).length = 2)
    (by decide +kernel)
  simp only [decide_eq_true_eq] at ht
  obtain ⟨hid, hnil, htask, hgone, hnum, hentries⟩ := ht
  refine ⟨k, hk, (accounted_of_reachable hk).sane.quiescent (n := 3) (by omega) hnil, htask, hgone,
    fun h => ?_⟩
  have := h.counter
  rw [hnum, hentries] at this
  exact absurd this (by decide)

/-- A process exits while its parent is alive. -/
theorem exitSafe_of_exec : ∃ k : UserKernel,
    (userSystem .firstFit false).Reachable (fun k _ => k.Exits → k.ExitReady) k ∧ k.Exits ∧
    k.currentThread = 2 ∧ k.ExitReady := by
  obtain ⟨k, hk, ht⟩ := exists_reachable_of_runInputsIf (S := userSystem .firstFit false)
    (C := fun k _ => k.Exits → k.ExitReady)
    (show (userSystem .firstFit false).init boot from rfl) (c := fun k _ => !decide k.Exits)
    (fun k _ hc => by simp_all) (userInputs execProgram (fun _ => some exitProgram) [24, 34] 43)
    (fun k : UserKernel => k.Exits ∧ k.currentThread = 2 ∧
      k.env.pcb.list.returnElement 2 = .ok (some 1) ∧
      (k.env.pcb.list.element 1).parentPID = 1 ∧
      (k.env.pcb.list.remove 1).toOption.any fun list =>
        decide (list.returnElement 1 = .ok (some 0))) (by decide +kernel)
  simp only [decide_eq_true_eq, Option.any_eq_true] at ht
  obtain ⟨hex, hcur, hfound, hparent, list, hlist, hfound'⟩ := ht
  have hsafe : k.ExitSafe := ⟨1, list, hcur ▸ hfound, toOption_eq_some.1 hlist, fun _ =>
    ⟨0, hparent ▸ hfound'⟩⟩
  exact ⟨k, hk, hex, hcur, (exitSafe_iff .firstFit false k hk hex).1 hsafe⟩

/-- A process exits after its parent. -/
theorem not_exitSafe_of_orphan : ∃ k : UserKernel,
    (userSystem .firstFit false).Reachable Always k ∧ k.Exits ∧ ¬k.ExitSafe := by
  obtain ⟨k, hk, ht⟩ := exists_reachable_of_runInputs (S := userSystem .firstFit false)
    (show (userSystem .firstFit false).init boot from rfl)
    (userInputs execProgram (fun _ => some exitProgram) [] 47)
    (fun k : UserKernel => k.Exits ∧ k.currentThread = 2 ∧
      k.env.pcb.list.returnElement 2 = .ok (some 1) ∧
      (k.env.pcb.list.element 1).parentPID = 1 ∧
      (k.env.pcb.list.remove 1).toOption.all fun list =>
        decide (list.returnElement 1 = .ok none)) (by decide +kernel)
  simp only [decide_eq_true_eq] at ht
  obtain ⟨hex, hcur, hfound, hparent, hall⟩ := ht
  refine ⟨k, hk, hex, ?_⟩
  rintro ⟨a, list, ha, hlist, hb⟩
  rw [hcur] at ha
  obtain rfl : 1 = a := Option.some.inj (Except.ok.inj (hfound.symm.trans ha))
  rw [hparent] at hb
  obtain ⟨b, hb⟩ := hb (by decide)
  simp [hlist, Except.toOption, hb] at hall

end UserKernel

end Nachos.UserProg
