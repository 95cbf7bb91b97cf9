import Nachos.Foundations.Except
import Nachos.Foundations.Run
import Nachos.UserProg.ProcessList

/-!
# Histories of the list of processes

Elements are created, appended once, and removed, in any order. The links of the last element of
the list tell whether it was appended last, and with that the search is correct or dereferences a
null pointer.

## Main definitions

* `ListState`, `processListSystem`: the histories of a list.

## Main results

* `valid_of_reachable`: the links represent the elements that were not removed.
* `returnElement_correct_iff`: after which histories and for which PIDs the search is correct.
* `returnElement_dereferences_null`: a history after which it is not.
-/

namespace Nachos.UserProg

open Foundations StepSystem Function

/-- A list of processes, with what happened to it. -/
structure ListState where
  list : ProcessList
  /-- The elements that were appended, in order. -/
  appended : List ℕ
  /-- Those of them that were not removed. -/
  entries : List ℕ

/-- What happens to a list. -/
inductive ListInput
  | create (pid : ℤ) (valid : Bool) (parentPID : ℤ)
  | append (a : ℕ)
  | remove (a : ℕ)

namespace ListState

/-- An element is appended once, if its PID is not in the list; elements of the list are
removed. -/
def step (s : ListState) : ListInput → Except Fault ListState
  | .create pid valid parentPID => .ok { s with list := s.list.create pid valid parentPID }
  | .append a =>
    if a < s.list.created ∧ a ∉ s.appended ∧ s.list.pid a ∉ s.entries.map s.list.pid then
      (s.list.append a).map fun list => ⟨list, s.appended ++ [a], s.entries ++ [a]⟩
    else .error .disabled
  | .remove a =>
    if a ∈ s.entries then
      (s.list.remove a).map fun list => { s with list := list, entries := s.entries.erase a }
    else .error .disabled

/-- What is true of the list in every state. -/
structure Valid (s : ListState) : Prop where
  represents : s.list.Represents s.entries
  sublist : s.entries.Sublist s.appended
  nodup : s.appended.Nodup
  created : ∀ a ∈ s.appended, a < s.list.created
  next_new : ∀ a < s.list.created, a ∉ s.appended → s.list.next a = some a
  next_last : ∀ a ∈ s.entries.getLast?,
    s.list.next a = if s.appended.getLast? = some a then some a else none

variable {s s' : ListState} {a : ℕ}

private theorem getLast?_of_sublist {l l' : List ℕ} (h : l.Sublist l') (hl' : l'.Nodup)
    (hlast : l'.getLast? = some a) (ha : a ∈ l) : l.getLast? = some a := by
  obtain ⟨m, rfl⟩ := List.getLast?_eq_some_iff.1 hlast
  obtain ⟨l₁, l₂, rfl, h₁, h₂⟩ := List.sublist_append_iff.1 h
  rcases List.sublist_singleton.1 h₂ with rfl | rfl
  · have ham : a ∈ m := h₁.subset (by simpa using ha)
    exact absurd rfl ((List.nodup_append.1 hl').2.2 a ham a (by simp))
  · simp

theorem Valid.create (h : s.Valid) (pid : ℤ) (valid : Bool) (parentPID : ℤ) :
    ({ s with list := s.list.create pid valid parentPID } : ListState).Valid := by
  have hne : ∀ a ∈ s.appended, a ≠ s.list.created := fun a ha => (h.created a ha).ne
  refine ⟨h.represents.create pid valid parentPID, h.sublist, h.nodup,
    fun a ha => Nat.lt_succ_of_lt (h.created a ha), fun a ha hnew => ?_, fun a ha => ?_⟩
  · rw [ProcessList.next_create]
    by_cases hac : a = s.list.created
    · simp [hac]
    · rw [update_of_ne hac]
      have hlt : a < s.list.created + 1 := ha
      exact h.next_new a (by omega) hnew
  · rw [ProcessList.next_create,
      update_of_ne (hne a (h.sublist.subset (List.mem_of_getLast? ha)))]
    exact h.next_last a ha

theorem Valid.append (h : s.Valid) (ha : a < s.list.created) (hnew : a ∉ s.appended)
    (hpid : s.list.pid a ∉ s.entries.map s.list.pid) :
    ∃ list, s.list.append a = .ok list ∧
      (⟨list, s.appended ++ [a], s.entries ++ [a]⟩ : ListState).Valid := by
  have hself := h.next_new a ha hnew
  obtain ⟨list, hlist, hrep, hsame, hnext⟩ := h.represents.append ha hself hpid
  have hne : a ∉ s.entries := fun hmem => hnew (h.sublist.subset hmem)
  refine ⟨list, hlist, hrep, h.sublist.append (.refl _), ?_, ?_, ?_, ?_⟩
  · refine List.nodup_append.2 ⟨h.nodup, List.nodup_singleton a, fun b hb c hc hbc => ?_⟩
    obtain rfl := List.mem_singleton.1 hc
    exact hnew (hbc ▸ hb)
  · intro b hb
    rw [hsame.created]
    rcases List.mem_append.1 hb with hb | hb
    · exact h.created b hb
    · exact List.mem_singleton.1 hb ▸ ha
  · intro b hb hb'
    rw [hsame.created] at hb
    have hb'' : b ∉ s.appended := fun hmem => hb' (by simp [hmem])
    rw [hnext b fun hmem => hb'' (h.sublist.subset hmem)]
    exact h.next_new b hb hb''
  · intro b hb
    obtain rfl : a = b := by simpa using hb
    simp [hnext a hne, hself]

theorem Valid.remove (h : s.Valid) (ha : a ∈ s.entries) :
    ∃ list, s.list.remove a = .ok list ∧
      ({ s with list := list, entries := s.entries.erase a } : ListState).Valid := by
  obtain ⟨list, hlist, hrep, hsame, hother, hnext⟩ := h.represents.remove ha
  refine ⟨list, hlist, hrep, List.erase_sublist.trans h.sublist, h.nodup, ?_, ?_, ?_⟩
  · exact fun b hb => hsame.created ▸ h.created b hb
  · intro b hb hb'
    rw [hother b fun hmem => hb' (h.sublist.subset hmem)]
    exact h.next_new b (hsame.created ▸ hb) hb'
  · intro b hb
    rw [hnext b hb]
    by_cases ht : s.list.tail = some b
    · rw [if_pos ht]
      exact h.next_last b (h.represents.tail_eq ▸ ht)
    · -- `b` is not the last element, so another one was appended after it
      have hb' : b ∈ s.entries := List.mem_of_mem_erase (List.mem_of_getLast? hb)
      have hlast : s.appended.getLast? ≠ some b := fun hlast =>
        ht (h.represents.tail_eq.trans (getLast?_of_sublist h.sublist h.nodup hlast hb'))
      rw [if_neg ht, if_neg hlast]

/-- What the search returns is an entry. -/
theorem Valid.returnElement_eq_some {key : ℤ} (h : s.Valid)
    (hr : s.list.returnElement key = .ok (some a)) : a ∈ s.entries ∧ s.list.pid a = key :=
  h.represents.find?_eq_some_iff.1 (h.represents.eq_find_of_returnElement hr).symm

/-- A search that returns nothing has found no entry. -/
theorem Valid.returnElement_eq_none {key : ℤ} (h : s.Valid)
    (hr : s.list.returnElement key = .ok none) : ∀ a ∈ s.entries, s.list.pid a ≠ key := by
  have hnone := (h.represents.eq_find_of_returnElement hr).symm
  simpa using hnone

/-- The search finds an entry. -/
theorem Valid.returnElement_of_mem (h : s.Valid) (ha : a ∈ s.entries) :
    s.list.returnElement (s.list.pid a) = .ok (some a) := by
  rw [h.represents.returnElement]
  · exact congrArg Except.ok (h.represents.find?_eq_some_iff.2 ⟨ha, rfl⟩)
  · rintro b hb
    rw [hb, List.mem_singleton] at ha
    exact .inr (ha ▸ rfl)

/-- A step keeps the invariant. -/
theorem Valid.step {i : ListInput} (h : s.Valid) (hs : s.step i = .ok s') : s'.Valid := by
  cases i with
  | create pid valid parentPID =>
    obtain rfl := Except.ok.inj hs
    exact h.create pid valid parentPID
  | append a =>
    simp only [ListState.step] at hs
    split_ifs at hs with hguard
    obtain ⟨list, hlist, hvalid⟩ := h.append hguard.1 hguard.2.1 hguard.2.2
    rw [hlist] at hs
    exact Except.ok.inj hs ▸ hvalid
  | remove a =>
    simp only [ListState.step] at hs
    split_ifs at hs with hmem
    obtain ⟨list, hlist, hvalid⟩ := h.remove hmem
    rw [hlist] at hs
    exact Except.ok.inj hs ▸ hvalid

end ListState

/-- Histories that begin with an empty list. -/
def processListSystem : StepSystem ListState ListInput Fault where
  init s := ∃ element, s = ⟨.empty element, [], []⟩
  step := ListState.step

theorem valid_of_reachable {C : ListState → ListInput → Prop} {s : ListState}
    (h : processListSystem.Reachable C s) : s.Valid := by
  refine h.invariant ListState.Valid ?_ fun _ _ _ hs _ hstep => hs.step hstep
  rintro s ⟨element, rfl⟩
  exact ⟨.empty element, .slnil, List.nodup_nil, by simp, fun a ha => absurd ha (Nat.not_lt_zero a),
    by simp⟩

/-- After any history the search is correct for every PID, unless a single element is left, which
is not the one that was appended last, and which has another PID. -/
theorem returnElement_correct_iff (s : ListState) (h : processListSystem.Reachable Always s)
    (key : ℤ) :
    (∃ r, s.list.returnElement key = .ok r ∧
        ∀ a, r = some a ↔ a ∈ s.entries ∧ s.list.pid a = key) ↔
      ¬∃ a, s.entries = [a] ∧ s.appended.getLast? ≠ some a ∧ s.list.pid a ≠ key := by
  have hs := valid_of_reachable h
  constructor
  · rintro ⟨r, hr, -⟩ ⟨a, hone, hlast, hpid⟩
    have hnext : s.list.next a = none := by
      rw [hs.next_last a (by simp [hone]), if_neg hlast]
    have hrep : s.list.Represents [a] := hone ▸ hs.represents
    rw [hrep.returnElement_of_singleton hnext hpid] at hr
    cases hr
  · intro hnot
    refine ⟨_, hs.represents.returnElement key fun a hone => ?_,
      fun a => hs.represents.find?_eq_some_iff⟩
    by_cases hpid : s.list.pid a = key
    · exact .inr hpid
    · have hlast : s.appended.getLast? = some a :=
        not_not.1 fun hlast => hnot ⟨a, hone, hlast, hpid⟩
      rw [hs.next_last a (by simp [hone]), if_pos hlast]
      exact .inl rfl

/-- Two processes are appended and the second is removed: a search for a third PID. -/
def secondRemoved : List ListInput :=
  [.create 1 true 0, .append 0, .create 2 true 1, .append 1, .remove 1]

theorem returnElement_correct_of_secondRemoved : ∃ s : ListState,
    processListSystem.Reachable Always s ∧ ∃ r, s.list.returnElement 1 = .ok r ∧
      ∀ a, r = some a ↔ a ∈ s.entries ∧ s.list.pid a = 1 := by
  obtain ⟨s, hs, ht⟩ := exists_reachable_of_runInputs (S := processListSystem)
    (show processListSystem.init ⟨.empty fun _ => ⟨none, none, 0, false, 0⟩, [], []⟩ from ⟨_, rfl⟩)
    secondRemoved (fun s => s.entries = [0] ∧ s.list.pid 0 = 1) (by decide +kernel)
  simp only [decide_eq_true_eq] at ht
  refine ⟨s, hs, (returnElement_correct_iff s hs 1).2 ?_⟩
  rintro ⟨a, hone, -, hpid⟩
  obtain rfl : 0 = a := by simpa [ht.1] using hone
  exact hpid ht.2

/-- The search for a third PID dereferences a null pointer. -/
theorem returnElement_dereferences_null : ∃ s : ListState,
    processListSystem.Reachable Always s ∧ 3 ∉ s.entries.map s.list.pid ∧
      s.list.returnElement 3 = .error .nullPointer := by
  obtain ⟨s, hs, ht⟩ := exists_reachable_of_runInputs (S := processListSystem)
    (show processListSystem.init ⟨.empty fun _ => ⟨none, none, 0, false, 0⟩, [], []⟩ from ⟨_, rfl⟩)
    secondRemoved (fun s => 3 ∉ s.entries.map s.list.pid ∧
      s.list.returnElement 3 = .error .nullPointer) (by decide +kernel)
  exact ⟨s, hs, by simpa using ht⟩

end Nachos.UserProg
