import Mathlib.Algebra.BigOperators.Group.Finset.Basic
import Mathlib.Data.Set.Card
import Nachos.UserProg.Processes

/-!
# The bookkeeping of processes

What the kernel records about processes: the PIDs it has issued, the counter `NumProcess`, the
list of processes, and which processes have been loaded and have exited. `SC_Exec` and the
destructor of `AddrSpace` change these data one after the other, so that a thread in between has
changes still to make. A *ledger* contains the data with these changes, and its moves are what
system calls do to them, whatever the machine and the thread kernel do.

## Main definitions

* `Ledger`, `Ledger.Move`: the data and what can happen to them.
* `Ledger.Valid`: what is true after any moves.

## Main results

* `Ledger.Valid.move`: it is kept by every move.
-/

namespace Nachos.UserProg

open Foundations Function

/-- The pieces of code that change the bookkeeping, apart from instructions. -/
def UserCode.isEntry : UserCode → Bool
  | countProcess => true
  | uncountProcess => true
  | append _ _ => true
  | _ => false

/-- The data that the kernel has about processes. -/
structure Ledger where
  processId : ℕ
  numProcess : ℤ
  pcb : ListState
  loaded : Set ℕ
  exited : List ℕ
  /-- The changes that a thread has still to make. -/
  pending : ℕ → List UserCode

namespace Ledger

/-- The process has been loaded. -/
def Started (l : Ledger) (t : ℕ) : Prop := t ∈ l.loaded ∨ t ∈ l.exited

/-- What happens to the data, with the process that exits, if it is an exit. -/
inductive Move : Ledger → Option ℕ → Ledger → Prop
  | stay (l : Ledger) : Move l none l
  /-- A PID is issued, but no process is loaded. -/
  | issue (l : Ledger) : Move l none { l with processId := l.processId + 1 }
  /-- The first process is loaded. -/
  | start (l : Ledger) (h : l.processId = 0) (list : ProcessList)
    (hlist : ((ProcessList.empty l.pcb.list.element).create 1 true 0).append 0 = .ok list) :
    Move l none
      { l with
        processId := 1
        numProcess := 0
        pcb := ⟨list, [0], [0]⟩
        loaded := insert 1 l.loaded
        pending := update l.pending 1 [.countProcess] }
  /-- Another process is loaded by `t`, if it is found space. -/
  | load (l : Ledger) (t : ℕ) (found : Bool) (ht : t ∈ l.loaded) (hpending : l.pending t = []) :
    Move l none
      { l with
        processId := l.processId + 1
        pcb := { l.pcb with list := l.pcb.list.create (l.processId + 1 : ℕ) found t }
        loaded := if found then insert (l.processId + 1) l.loaded else l.loaded
        pending := update l.pending t
          ((if found then [.countProcess] else []) ++
            [.append l.pcb.list.created (l.processId + 1)]) }
  | count (l : Ledger) (t : ℕ) (rest : List UserCode)
    (hpending : l.pending t = .countProcess :: rest) :
    Move l none
      { l with numProcess := l.numProcess + 1, pending := update l.pending t rest }
  | uncount (l : Ledger) (t : ℕ) (rest : List UserCode)
    (hpending : l.pending t = .uncountProcess :: rest) :
    Move l none
      { l with numProcess := l.numProcess - 1, pending := update l.pending t rest }
  | append (l : Ledger) (t a pid : ℕ) (rest : List UserCode) (list : ProcessList)
    (hpending : l.pending t = .append a pid :: rest) (hlist : l.pcb.list.append a = .ok list) :
    Move l none
      { l with
        pcb := ⟨list, l.pcb.appended ++ [a], l.pcb.entries ++ [a]⟩
        pending := update l.pending t rest }
  /-- The process `t` exits. -/
  | exit (l : Ledger) (t : ℕ) (junk parentPID : ℤ) (pcb : ListState) (ht : t ∈ l.loaded)
    (hpending : l.pending t = []) (hpcb : removeEntry t junk l.pcb = .ok (pcb, parentPID)) :
    Move l (some t)
      { l with
        pcb := pcb
        loaded := l.loaded \ {t}
        exited := l.exited ++ [t]
        pending := update l.pending t [.uncountProcess] }

/-- The changes that a thread can have still to make. -/
inductive Changes : List UserCode → Prop
  | nil : Changes []
  | count : Changes [.countProcess]
  | uncount : Changes [.uncountProcess]
  | append (a pid : ℕ) : Changes [.append a pid]
  | countAppend (a pid : ℕ) : Changes [.countProcess, .append a pid]

/-- What is true of the elements of the list of processes: they have different PIDs that have been
issued, those of loaded processes and no others are valid, and every process has one. -/
structure Elements (l : Ledger) : Prop where
  pid_eq : ∀ a < l.pcb.list.created, ∃ t : ℕ, l.pcb.list.pid a = t ∧ 1 ≤ t ∧ t ≤ l.processId
  pid_inj : ∀ a < l.pcb.list.created, ∀ b < l.pcb.list.created,
    l.pcb.list.pid a = l.pcb.list.pid b → a = b
  valid_iff : ∀ a < l.pcb.list.created, ∀ t : ℕ, l.pcb.list.pid a = t →
    ((l.pcb.list.element a).valid = true ↔ l.Started t)
  exists_element : ∀ t, l.Started t → ∃ a < l.pcb.list.created, l.pcb.list.pid a = t
  parent : ∀ a < l.pcb.list.created, (l.pcb.list.element a).parentPID = 0 ∨
    ∃ t : ℕ, (l.pcb.list.element a).parentPID = t ∧ l.Started t ∧ t < l.pcb.list.pid a

/-- What is true of the data after any moves. -/
structure Valid (l : Ledger) : Prop where
  table : l.pcb.Valid
  elements : l.Elements
  disjoint : ∀ t ∈ l.exited, t ∉ l.loaded
  changes : ∀ t, Changes (l.pending t)
  pending_started : ∀ t, l.pending t ≠ [] → l.Started t
  pending_append : ∀ t a pid : ℕ, .append a pid ∈ l.pending t → a < l.pcb.list.created ∧
    a ∉ l.pcb.appended ∧ l.pcb.list.pid a = pid ∧ (l.pcb.list.element a).parentPID = t
  appended_or : ∀ a < l.pcb.list.created,
    a ∈ l.pcb.appended ∨ ∃ t pid : ℕ, .append a pid ∈ l.pending t

namespace Changes

variable {c : UserCode} {cs rest : List UserCode} {a pid : ℕ}

theorem tail (h : Changes (c :: rest)) : Changes rest := by
  cases h
  all_goals constructor

theorem rest_of_append (h : Changes (.append a pid :: rest)) : rest = [] := by
  cases h
  rfl

end Changes

variable {l l' : Ledger} {t a : ℕ} {o : Option ℕ}

namespace Elements

/-- The PIDs of loaded processes have been issued. -/
theorem started_le (h : l.Elements) (ht : l.Started t) : 1 ≤ t ∧ t ≤ l.processId := by
  obtain ⟨a, ha, hpid⟩ := h.exists_element t ht
  obtain ⟨u, hu, h₁, h₂⟩ := h.pid_eq a ha
  have htu : (t : ℤ) = u := hpid.symm.trans hu
  omega

/-- Before the first PID is issued, nothing has happened. -/
theorem not_started_of_zero (h : l.Elements) (hz : l.processId = 0) (t : ℕ) : ¬l.Started t := by
  intro ht
  have := h.started_le ht
  omega

/-- Links of the list do not matter. -/
theorem congr (h : l.Elements) (hsame : l.pcb.list.SameElements l'.pcb.list)
    (hid : l.processId ≤ l'.processId) (hstarted : ∀ t, l'.Started t ↔ l.Started t) :
    l'.Elements := by
  constructor
  · rw [hsame.created, hsame.pid]
    intro a ha
    obtain ⟨t, hpid, h₁, h₂⟩ := h.pid_eq a ha
    exact ⟨t, hpid, h₁, h₂.trans hid⟩
  · rw [hsame.created, hsame.pid]
    exact h.pid_inj
  · simp only [hsame.created, hsame.pid, hsame.valid, hstarted]
    exact h.valid_iff
  · simp only [hsame.created, hsame.pid, hstarted]
    exact h.exists_element
  · simp only [hsame.created, hsame.pid, hsame.parentPID, hstarted]
    exact h.parent

/-- An element with the next PID is created. -/
theorem create (h : l.Elements) (found : Bool) (parentPID : ℤ)
    (hlist : l'.pcb.list = l.pcb.list.create (l.processId + 1 : ℕ) found parentPID)
    (hid : l'.processId = l.processId + 1)
    (hstarted : ∀ t, l'.Started t ↔ l.Started t ∨ found = true ∧ t = l.processId + 1)
    (hparent : parentPID = 0 ∨ ∃ t : ℕ, parentPID = t ∧ l.Started t) : l'.Elements := by
  have hcreated : l'.pcb.list.created = l.pcb.list.created + 1 := by rw [hlist]; rfl
  have hold : ∀ a < l.pcb.list.created, l'.pcb.list.element a = l.pcb.list.element a :=
    fun a ha => by rw [hlist]; exact ProcessList.element_create_of_lt _ _ _ ha
  have hpid : ∀ a < l.pcb.list.created, l'.pcb.list.pid a = l.pcb.list.pid a := fun a ha =>
    congrArg ProcessElement.pid (hold a ha)
  have hnew : l'.pcb.list.element l.pcb.list.created =
      ⟨some l.pcb.list.created, some l.pcb.list.created, (l.processId + 1 : ℕ), found,
        parentPID⟩ := by
    rw [hlist]
    exact update_self ..
  have hpidNew : l'.pcb.list.pid l.pcb.list.created = (l.processId + 1 : ℕ) :=
    congrArg ProcessElement.pid hnew
  have cases_lt : ∀ a < l'.pcb.list.created, a < l.pcb.list.created ∨ a = l.pcb.list.created :=
    fun a ha => by omega
  -- the PIDs of the other elements are smaller
  have hlt : ∀ a < l.pcb.list.created, l'.pcb.list.pid a < (l.processId + 1 : ℕ) := fun a ha => by
    obtain ⟨t, hpid', -, hle⟩ := h.pid_eq a ha
    rw [hpid a ha, hpid']
    omega
  constructor
  · intro a ha
    obtain ha | rfl := cases_lt a ha
    · obtain ⟨t, hpid', h₁, h₂⟩ := h.pid_eq a ha
      exact ⟨t, (hpid a ha).trans hpid', h₁, by omega⟩
    · exact ⟨_, hpidNew, by omega, by omega⟩
  · intro a ha b hb hab
    obtain ha | rfl := cases_lt a ha <;> obtain hb | rfl := cases_lt b hb
    · rw [hpid a ha, hpid b hb] at hab
      exact h.pid_inj a ha b hb hab
    · exact absurd (hab.trans hpidNew) (hlt a ha).ne
    · exact absurd (hab.symm.trans hpidNew) (hlt b hb).ne
    · rfl
  · intro a ha t ht
    rw [hstarted]
    obtain ha | rfl := cases_lt a ha
    · have hne : t ≠ l.processId + 1 := fun he => (hlt a ha).ne (ht.trans (by rw [he]))
      rw [hold a ha, h.valid_iff a ha t ((hpid a ha).symm.trans ht)]
      simp [hne]
    · have he : t = l.processId + 1 := by
        have := ht.symm.trans hpidNew
        omega
      have hnot : ¬l.Started t := fun hs => by
        have := h.started_le hs
        omega
      rw [hnew]
      simp [he, he ▸ hnot]
  · intro t ht
    obtain ht | ⟨-, rfl⟩ := (hstarted t).1 ht
    · obtain ⟨a, ha, hpid'⟩ := h.exists_element t ht
      exact ⟨a, by omega, (hpid a ha).trans hpid'⟩
    · exact ⟨_, by omega, hpidNew⟩
  · intro a ha
    obtain ha | rfl := cases_lt a ha
    · rw [hold a ha, hpid a ha]
      exact (h.parent a ha).imp_right fun ⟨t, hp, ht, hlt⟩ =>
        ⟨t, hp, (hstarted t).2 (.inl ht), hlt⟩
    · rw [hnew, hpidNew]
      refine hparent.imp_right fun ⟨t, hp, ht⟩ => ⟨t, hp, (hstarted t).2 (.inl ht), ?_⟩
      have := h.started_le ht
      omega

end Elements

/-! ### The moves -/

/-- What has exited has exited for good. -/
theorem Move.exited_subset (hm : Move l o l') : l.exited ⊆ l'.exited := by
  cases hm with
  | exit => exact List.subset_append_left ..
  | _ => exact List.Subset.refl _

/-- PIDs are issued in order. -/
theorem Move.processId_le (hm : Move l o l') : l.processId ≤ l'.processId := by
  cases hm with
  | issue | load => exact Nat.le_succ _
  | start h => exact h ▸ Nat.zero_le 1
  | _ => exact le_rfl

/-- What the first part of `CleanupExit` does. -/
theorem removeEntry_spec {junk parentPID : ℤ} {pcb pcb' : ListState} (h : pcb.Valid)
    (hr : removeEntry t junk pcb = .ok (pcb', parentPID)) :
    pcb'.Valid ∧ pcb.list.SameElements pcb'.list ∧ pcb'.appended = pcb.appended ∧
      ((∀ a ∈ pcb.entries, pcb.list.pid a ≠ t) ∧ pcb'.entries = pcb.entries ∨
        ∃ a ∈ pcb.entries, pcb.list.pid a = t ∧ pcb'.entries = pcb.entries.erase a ∧
          parentPID = (pcb.list.element a).parentPID) := by
  obtain ⟨hnone, rfl, -⟩ | ⟨a, list, hsome, hlist, rfl, rfl⟩ := removeEntry_eq_ok.1 hr
  · exact ⟨h, .refl _, rfl, .inl ⟨h.returnElement_eq_none hnone, rfl⟩⟩
  · obtain ⟨ha, hpid⟩ := h.returnElement_eq_some hsome
    obtain ⟨list', hlist', hvalid⟩ := h.remove ha
    cases hlist.symm.trans hlist'
    exact ⟨hvalid, ProcessList.sameElements_of_remove hlist, rfl, .inr ⟨a, ha, hpid, rfl, rfl⟩⟩

namespace Valid

/-- A thread makes a change that is not the appending of an element. -/
private theorem mem_update_iff {c : UserCode} {rest : List UserCode} {u b pid : ℕ}
    (hpending : l.pending t = c :: rest) (hc : c ≠ .append b pid) :
    .append b pid ∈ update l.pending t rest u ↔ .append b pid ∈ l.pending u := by
  by_cases hu : u = t
  · subst hu
    simp [hpending, hc.symm]
  · simp [hu]

/-- The thread `t` has no element to append afterwards. -/
private theorem append_mem_update {pending : ℕ → List UserCode} {rest : List UserCode}
    {u b pid : ℕ} (hrest : ∀ b pid, .append b pid ∉ rest) :
    .append b pid ∈ update pending t rest u ↔ u ≠ t ∧ .append b pid ∈ pending u := by
  by_cases hu : u = t
  · subst hu
    simp [hrest]
  · simp [hu]

/-- The counter changes. -/
private theorem of_counter (h : l.Valid) {c : UserCode} {rest : List UserCode}
    (hpending : l.pending t = c :: rest) (hc : ∀ b pid, c ≠ .append b pid) (n : ℤ) :
    ({ l with numProcess := n, pending := update l.pending t rest } : Ledger).Valid := by
  refine ⟨h.table, h.elements.congr (.refl _) le_rfl fun _ => .rfl, h.disjoint, fun u => ?_,
    fun u hu => ?_, fun u b pid hb => ?_, fun b hb => ?_⟩
  · by_cases hu : u = t
    · subst hu
      simpa using (hpending ▸ h.changes u).tail
    · simpa [hu] using h.changes u
  · refine h.pending_started u fun hnil => hu ?_
    have hut : u ≠ t := fun hut => by simp [← hut, hnil] at hpending
    simpa [hut] using hnil
  · exact h.pending_append u b pid ((mem_update_iff hpending (hc b pid)).1 hb)
  · exact (h.appended_or b hb).imp_right fun ⟨u, pid, hu⟩ =>
      ⟨u, pid, (mem_update_iff hpending (hc b pid)).2 hu⟩

/-- The first process is loaded. -/
private theorem start (h : l.Valid) (hz : l.processId = 0) {list : ProcessList}
    (hlist : ((ProcessList.empty l.pcb.list.element).create 1 true 0).append 0 = .ok list) :
    ({ l with
      processId := 1
      numProcess := 0
      pcb := ⟨list, [0], [0]⟩
      loaded := insert 1 l.loaded
      pending := update l.pending 1 [.countProcess] } : Ledger).Valid := by
  have hnot := h.elements.not_started_of_zero hz
  have hnil : ∀ u, l.pending u = [] := fun u => not_not.1 fun hu => hnot u (h.pending_started u hu)
  let empty : ListState := ⟨.empty l.pcb.list.element, [], []⟩
  have hempty : empty.Valid := valid_of_reachable (C := StepSystem.Always) (.init ⟨_, rfl⟩)
  obtain ⟨list', hlist', hvalid⟩ := (hempty.create 1 true 0).append (a := 0)
    Nat.zero_lt_one List.not_mem_nil List.not_mem_nil
  cases hlist.symm.trans hlist'
  have hsame := ProcessList.sameElements_of_append hlist
  have hcreated : list.created = 1 := hsame.created
  have helements : ({ l with
      processId := 1
      pcb := ⟨(ProcessList.empty l.pcb.list.element).create 1 true 0, [], []⟩
      loaded := insert 1 l.loaded } : Ledger).Elements := by
    have hbefore : ({ l with pcb := empty } : Ledger).Elements :=
      ⟨fun a ha => absurd ha (Nat.not_lt_zero a), fun a ha => absurd ha (Nat.not_lt_zero a),
        fun a ha => absurd ha (Nat.not_lt_zero a), fun u hu => absurd hu (hnot u),
        fun a ha => absurd ha (Nat.not_lt_zero a)⟩
    refine hbefore.create true 0 ?_ ?_ (fun u => ?_) (.inl rfl)
    · simp [hz, empty]
    · simp [hz]
    · simp [Started, hz, or_comm, or_assoc]
  refine ⟨hvalid, helements.congr hsame le_rfl fun _ => .rfl, fun u hu => ?_, fun u => ?_,
    fun u hu => ?_, fun u b pid hb => ?_, fun b hb => ?_⟩
  · exact absurd (.inr hu) (hnot u)
  · by_cases hu : u = 1
    · simpa [hu] using Changes.count
    · simpa [hu, hnil] using Changes.nil
  · by_cases hu' : u = 1
    · exact .inl (by simp [hu'])
    · simp [hu', hnil] at hu
  · by_cases hu' : u = 1
    · simp [hu'] at hb
    · simp [hu', hnil] at hb
  · rw [hcreated] at hb
    exact .inl (by simpa using hb)

/-- Another process is loaded, or is not found space. -/
private theorem load (h : l.Valid) (found : Bool) (ht : t ∈ l.loaded)
    (hpending : l.pending t = []) :
    ({ l with
      processId := l.processId + 1
      pcb := { l.pcb with list := l.pcb.list.create (l.processId + 1 : ℕ) found t }
      loaded := if found then insert (l.processId + 1) l.loaded else l.loaded
      pending := update l.pending t
        ((if found then [.countProcess] else []) ++
          [.append l.pcb.list.created (l.processId + 1)]) } : Ledger).Valid := by
  have hloaded : ∀ u, u ∈ (if found then insert (l.processId + 1) l.loaded else l.loaded) ↔
      u ∈ l.loaded ∨ found = true ∧ u = l.processId + 1 := by
    intro u
    cases found <;> simp [or_comm]
  have hlt : ∀ u, l.Started u → u ≤ l.processId := fun u hu => (h.elements.started_le hu).2
  have hold : ∀ b < l.pcb.list.created,
      (l.pcb.list.create (l.processId + 1 : ℕ) found t).element b = l.pcb.list.element b :=
    fun b hb => ProcessList.element_create_of_lt _ _ _ hb
  refine ⟨h.table.create _ _ _, h.elements.create found t rfl rfl (fun u => ?_)
    (.inr ⟨t, rfl, .inl ht⟩), fun u hu => ?_, fun u => ?_, fun u hu => ?_, fun u b pid hb => ?_,
    fun b hb => ?_⟩
  · simp only [Started, hloaded]
    tauto
  · have hle := hlt u (.inr hu)
    rw [hloaded]
    rintro (hl | ⟨-, rfl⟩)
    · exact h.disjoint u hu hl
    · omega
  · by_cases hu : u = t
    · subst hu
      cases found
      · simpa using Changes.append _ _
      · simpa using Changes.countAppend _ _
    · simpa [hu] using h.changes u
  · have hstarted : l.Started u := by
      by_cases hu' : u = t
      · exact hu' ▸ .inl ht
      · exact h.pending_started u (by simpa [hu'] using hu)
    exact hstarted.imp_left fun hl => (hloaded u).2 (.inl hl)
  · by_cases hu : u = t
    · subst hu
      obtain ⟨rfl, rfl⟩ : b = l.pcb.list.created ∧ pid = l.processId + 1 := by
        cases found <;> simpa using hb
      refine ⟨Nat.lt_succ_self _, fun hmem => (h.table.created _ hmem).false, ?_, ?_⟩ <;>
        simp [ProcessList.create, ProcessList.pid]
    · obtain ⟨hb, hnew, hpid, hparent⟩ := h.pending_append u b pid (by simpa [hu] using hb)
      refine ⟨Nat.lt_succ_of_lt hb, hnew, ?_, ?_⟩
      · exact (congrArg ProcessElement.pid (hold b hb)).trans hpid
      · exact (congrArg ProcessElement.parentPID (hold b hb)).trans hparent
  · obtain hb | rfl : b < l.pcb.list.created ∨ b = l.pcb.list.created := by
      have hb' : b < l.pcb.list.created + 1 := hb
      omega
    · obtain happended | ⟨u, pid, hu⟩ := h.appended_or b hb
      · exact .inl happended
      · have hut : u ≠ t := by
          rintro rfl
          simp [hpending] at hu
        exact .inr ⟨u, pid, by simpa [hut] using hu⟩
    · exact .inr ⟨t, l.processId + 1, by simp⟩

/-- An element is appended. -/
private theorem append (h : l.Valid) {pid : ℕ} {rest : List UserCode} {list : ProcessList}
    (hpending : l.pending t = .append a pid :: rest) (hlist : l.pcb.list.append a = .ok list) :
    ({ l with
      pcb := ⟨list, l.pcb.appended ++ [a], l.pcb.entries ++ [a]⟩
      pending := update l.pending t rest } : Ledger).Valid := by
  obtain rfl : rest = [] := (hpending ▸ h.changes t).rest_of_append
  obtain ⟨ha, hnew, hpid, hparent⟩ := h.pending_append t a pid (by simp [hpending])
  have hentries : l.pcb.list.pid a ∉ l.pcb.entries.map l.pcb.list.pid := fun hmem => by
    obtain ⟨b, hb, hba⟩ := List.mem_map.1 hmem
    have hb' : b ∈ l.pcb.appended := h.table.sublist.subset hb
    exact hnew (h.elements.pid_inj b (h.table.created b hb') a ha hba ▸ hb')
  obtain ⟨list', hlist', hvalid⟩ := h.table.append ha hnew hentries
  cases hlist.symm.trans hlist'
  have hsame := ProcessList.sameElements_of_append hlist
  refine ⟨hvalid, h.elements.congr hsame le_rfl fun _ => .rfl, h.disjoint, fun u => ?_,
    fun u hu => ?_, fun u b pid' hb => ?_, fun b hb => ?_⟩
  · by_cases hu : u = t
    · simpa [hu] using Changes.nil
    · simpa [hu] using h.changes u
  · have hut : u ≠ t := fun hut => by simp [hut] at hu
    exact h.pending_started u (by simpa [hut] using hu)
  · obtain ⟨hut, hb⟩ := (append_mem_update (by simp)).1 hb
    obtain ⟨hb, hnew', hpid', hparent'⟩ := h.pending_append u b pid' hb
    -- another thread has another element to append
    have hba : b ≠ a := by
      rintro rfl
      exact hut (Int.natCast_inj.1 (hparent'.symm.trans hparent))
    refine ⟨hsame.created ▸ hb, by simp [hnew', hba], ?_, ?_⟩
    · exact (congrFun hsame.pid b).trans hpid'
    · exact (hsame.parentPID b).trans hparent'
  · rw [hsame.created] at hb
    obtain hb | ⟨u, pid', hu⟩ := h.appended_or b hb
    · exact .inl (by simp [hb])
    · by_cases hut : u = t
      · subst hut
        have hba : b = a := by
          rw [hpending] at hu
          simp_all
        exact .inl (by simp [hba])
      · exact .inr ⟨u, pid', by simpa [hut] using hu⟩

/-- A process exits. -/
private theorem exit (h : l.Valid) {junk parentPID : ℤ} {pcb : ListState} (ht : t ∈ l.loaded)
    (hpending : l.pending t = []) (hpcb : removeEntry t junk l.pcb = .ok (pcb, parentPID)) :
    ({ l with
      pcb := pcb
      loaded := l.loaded \ {t}
      exited := l.exited ++ [t]
      pending := update l.pending t [.uncountProcess] } : Ledger).Valid := by
  obtain ⟨hvalid, hsame, happended, -⟩ := removeEntry_spec h.table hpcb
  have hstarted : ∀ u, (u ∈ l.loaded \ {t} ∨ u ∈ l.exited ++ [t]) ↔ l.Started u := by
    intro u
    by_cases hu : u = t
    · simp [hu, Started, ht]
    · simp [hu, Started]
  refine ⟨hvalid, h.elements.congr hsame le_rfl hstarted, fun u hu => ?_, fun u => ?_,
    fun u hu => (hstarted u).2 ?_, fun u b pid hb => ?_, fun b hb => ?_⟩
  · rintro ⟨hl, hut⟩
    obtain hu | hu := List.mem_append.1 hu
    · exact h.disjoint u hu hl
    · exact hut (by simpa using hu)
  · by_cases hu : u = t
    · simpa [hu] using Changes.uncount
    · simpa [hu] using h.changes u
  · by_cases hut : u = t
    · exact hut ▸ .inl ht
    · exact h.pending_started u (by simpa [hut] using hu)
  · obtain ⟨-, hb⟩ := (append_mem_update (by simp)).1 hb
    obtain ⟨hb, hnew, hpid, hparent⟩ := h.pending_append u b pid hb
    refine ⟨hsame.created ▸ hb, happended ▸ hnew, ?_, ?_⟩
    · exact (congrFun hsame.pid b).trans hpid
    · exact (hsame.parentPID b).trans hparent
  · rw [hsame.created] at hb
    refine (h.appended_or b hb).imp (fun hb => happended ▸ hb) fun ⟨u, pid, hu⟩ => ⟨u, pid, ?_⟩
    have hut : u ≠ t := by
      rintro rfl
      simp [hpending] at hu
    simpa [hut] using hu

/-- Every move keeps the data valid. -/
theorem move (h : l.Valid) (hm : Move l o l') : l'.Valid := by
  cases hm with
  | stay => exact h
  | issue =>
    exact ⟨h.table, h.elements.congr (.refl _) (Nat.le_succ _) fun _ => .rfl, h.disjoint, h.changes,
      h.pending_started, h.pending_append, h.appended_or⟩
  | start hz list hlist => exact h.start hz hlist
  | load t found ht hpending => exact h.load found ht hpending
  | count t rest hpending => exact h.of_counter hpending (by simp) _
  | uncount t rest hpending => exact h.of_counter hpending (by simp) _
  | append t a pid rest list hpending hlist => exact h.append hpending hlist
  | exit t junk parentPID pcb ht hpending hpcb => exact h.exit ht hpending hpcb

end Valid

end Ledger

end Nachos.UserProg
