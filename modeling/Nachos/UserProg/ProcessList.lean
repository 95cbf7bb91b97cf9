import Mathlib.Data.List.Nodup
import Mathlib.Data.List.Perm.Subperm
import Nachos.Foundations.Except
import Nachos.Foundations.LinkedList
import Nachos.Machine.Fault

/-!
# The list of processes

`ProcessList` of `userprog/exception.cc`: a doubly linked list of the processes. The search of
`Return` has no test for a null pointer: it goes on until it reaches the PID of the last element.
An element is created with links to itself, but the removal of the last element leaves the one
before it with a null pointer, and in a list of one such element the search dereferences it.

Elements are named by the order of their creation; the ones that `Append` and `Return` create and
leak are left out.

## Main definitions

* `ProcessList`, with `append`, `remove` and `returnElement`.
* `ProcessList.Represents`: the elements of a list, in order.

## Main results

* `ProcessList.Represents.append`, `ProcessList.Represents.remove`: what the operations do.
* `ProcessList.Represents.returnElement`: what the search returns.
-/

namespace Nachos.UserProg

open Foundations Function

/-- `ProcessElement`, but for the thread, which is only stored. The semaphore of an element is
named by the element. -/
structure ProcessElement where
  next : Option ℕ
  previous : Option ℕ
  pid : ℤ
  valid : Bool
  parentPID : ℤ

/-- `ProcessList`, with all elements that have been created. -/
structure ProcessList where
  element : ℕ → ProcessElement
  created : ℕ
  head : Option ℕ
  tail : Option ℕ

namespace ProcessList

variable {pcb pcb' : ProcessList} {l : List ℕ} {a b : ℕ} {key : ℤ}

def next (pcb : ProcessList) (a : ℕ) : Option ℕ := (pcb.element a).next

def previous (pcb : ProcessList) (a : ℕ) : Option ℕ := (pcb.element a).previous

def pid (pcb : ProcessList) (a : ℕ) : ℤ := (pcb.element a).pid

def setNext (pcb : ProcessList) (a : ℕ) (next : Option ℕ) : ProcessList :=
  { pcb with element := update pcb.element a { pcb.element a with next := next } }

def setPrevious (pcb : ProcessList) (a : ℕ) (previous : Option ℕ) : ProcessList :=
  { pcb with element := update pcb.element a { pcb.element a with previous := previous } }

def setHead (pcb : ProcessList) (head : Option ℕ) : ProcessList := { pcb with head := head }

def setTail (pcb : ProcessList) (tail : Option ℕ) : ProcessList := { pcb with tail := tail }

/-! ### The operations -/

/-- The list that `ProcessList` constructs. -/
def empty (element : ℕ → ProcessElement) : ProcessList := ⟨element, 0, none, none⟩

/-- Create an element, as `SC_Exec` and `StartProcess` do. -/
def create (pcb : ProcessList) (pid : ℤ) (valid : Bool) (parentPID : ℤ) : ProcessList :=
  { pcb with
    element := update pcb.element pcb.created
      ⟨some pcb.created, some pcb.created, pid, valid, parentPID⟩
    created := pcb.created + 1 }

/-- `ProcessList::Append`. -/
def append (pcb : ProcessList) (a : ℕ) : Except Fault ProcessList :=
  if pcb.head = none then .ok ((pcb.setHead (some a)).setTail (some a))
  else
    match pcb.tail with
    | none => .error .nullPointer
    | some old => .ok (((pcb.setNext old (some a)).setTail (some a)).setPrevious a (some old))

/-- `ProcessList::Remove`. -/
def remove (pcb : ProcessList) (a : ℕ) : Except Fault ProcessList :=
  if pcb.head = none then .ok pcb
  else if pcb.head = some a ∧ pcb.tail = some a then .ok ((pcb.setHead none).setTail none)
  else if pcb.head = some a then
    match pcb.next a with
    | none => .error .nullPointer
    | some n => .ok ((pcb.setHead (some n)).setPrevious n none)
  else if pcb.tail = some a then
    match pcb.previous a with
    | none => .error .nullPointer
    | some p => .ok ((pcb.setTail (some p)).setNext p none)
  else
    match pcb.previous a, pcb.next a with
    | some p, some n => .ok ((pcb.setNext p (some n)).setPrevious n (some p))
    | _, _ => .error .nullPointer

/-- The loop of `ProcessList::Return`, and what follows it. -/
def search (pcb : ProcessList) (key : ℤ) : ℕ → ℕ → Except Fault (Option ℕ)
  | 0, _ => .error .outOfFuel
  | fuel + 1, node =>
    if pcb.pid node = key then .ok (some node)
    else
      match pcb.next node, pcb.tail with
      | some node, some tail =>
        if pcb.pid node ≠ pcb.pid tail then pcb.search key fuel node
        else if pcb.pid node ≠ key then .ok none
        else .ok (some node)
      | _, _ => .error .nullPointer

/-- `ProcessList::Return`. -/
def returnElement (pcb : ProcessList) (key : ℤ) : Except Fault (Option ℕ) :=
  match pcb.head with
  | none => .ok none
  | some node => pcb.search key (pcb.created + 1) node

/-! ### Links -/

@[simp]
theorem next_setNext (v : Option ℕ) : (pcb.setNext a v).next = update pcb.next a v := by
  funext b
  by_cases hb : b = a
  · subst hb
    simp [setNext, next]
  · simp [setNext, next, hb]

@[simp]
theorem previous_setNext (v : Option ℕ) : (pcb.setNext a v).previous = pcb.previous := by
  funext b
  by_cases hb : b = a
  · subst hb
    simp [setNext, previous]
  · simp [setNext, previous, hb]

@[simp]
theorem next_setPrevious (v : Option ℕ) : (pcb.setPrevious a v).next = pcb.next := by
  funext b
  by_cases hb : b = a
  · subst hb
    simp [setPrevious, next]
  · simp [setPrevious, next, hb]

@[simp]
theorem previous_setPrevious (v : Option ℕ) :
    (pcb.setPrevious a v).previous = update pcb.previous a v := by
  funext b
  by_cases hb : b = a
  · subst hb
    simp [setPrevious, previous]
  · simp [setPrevious, previous, hb]

section Ends

variable (pcb) (a : ℕ) (v : Option ℕ)

@[simp] theorem next_setHead : (pcb.setHead v).next = pcb.next := rfl
@[simp] theorem next_setTail : (pcb.setTail v).next = pcb.next := rfl
@[simp] theorem previous_setHead : (pcb.setHead v).previous = pcb.previous := rfl
@[simp] theorem previous_setTail : (pcb.setTail v).previous = pcb.previous := rfl
@[simp] theorem head_setHead : (pcb.setHead v).head = v := rfl
@[simp] theorem head_setTail : (pcb.setTail v).head = pcb.head := rfl
@[simp] theorem head_setNext : (pcb.setNext a v).head = pcb.head := rfl
@[simp] theorem head_setPrevious : (pcb.setPrevious a v).head = pcb.head := rfl
@[simp] theorem tail_setHead : (pcb.setHead v).tail = pcb.tail := rfl
@[simp] theorem tail_setTail : (pcb.setTail v).tail = v := rfl
@[simp] theorem tail_setNext : (pcb.setNext a v).tail = pcb.tail := rfl
@[simp] theorem tail_setPrevious : (pcb.setPrevious a v).tail = pcb.tail := rfl

end Ends

theorem next_create (pcb : ProcessList) (pid : ℤ) (valid : Bool) (parentPID : ℤ) :
    (pcb.create pid valid parentPID).next =
      update pcb.next pcb.created (some pcb.created) := by
  funext b
  by_cases hb : b = pcb.created
  · subst hb
    simp [create, next]
  · simp [create, next, hb]

theorem previous_create (pcb : ProcessList) (pid : ℤ) (valid : Bool) (parentPID : ℤ) :
    (pcb.create pid valid parentPID).previous =
      update pcb.previous pcb.created (some pcb.created) := by
  funext b
  by_cases hb : b = pcb.created
  · subst hb
    simp [create, previous]
  · simp [create, previous, hb]

theorem element_create_of_lt (pid : ℤ) (valid : Bool) (parentPID : ℤ) (ha : a < pcb.created) :
    (pcb.create pid valid parentPID).element a = pcb.element a :=
  update_of_ne (Nat.ne_of_lt ha) _ _

/-- An operation on the list changes only links. -/
structure SameElements (pcb pcb' : ProcessList) : Prop where
  pid : pcb'.pid = pcb.pid
  valid : ∀ a, (pcb'.element a).valid = (pcb.element a).valid
  parentPID : ∀ a, (pcb'.element a).parentPID = (pcb.element a).parentPID
  created : pcb'.created = pcb.created

theorem SameElements.trans {pcb'' : ProcessList} (h : SameElements pcb pcb')
    (h' : SameElements pcb' pcb'') : SameElements pcb pcb'' :=
  ⟨h'.pid.trans h.pid, fun a => (h'.valid a).trans (h.valid a),
    fun a => (h'.parentPID a).trans (h.parentPID a), h'.created.trans h.created⟩

theorem SameElements.refl (pcb : ProcessList) : SameElements pcb pcb :=
  ⟨rfl, fun _ => rfl, fun _ => rfl, rfl⟩

theorem sameElements_setHead (pcb : ProcessList) (v : Option ℕ) :
    SameElements pcb (pcb.setHead v) :=
  ⟨rfl, fun _ => rfl, fun _ => rfl, rfl⟩

theorem sameElements_setTail (pcb : ProcessList) (v : Option ℕ) :
    SameElements pcb (pcb.setTail v) :=
  ⟨rfl, fun _ => rfl, fun _ => rfl, rfl⟩

theorem sameElements_setNext (pcb : ProcessList) (a : ℕ) (v : Option ℕ) :
    SameElements pcb (pcb.setNext a v) := by
  refine ⟨funext fun b => ?_, fun b => ?_, fun b => ?_, rfl⟩ <;>
    by_cases hb : b = a <;> simp [setNext, ProcessList.pid, hb]

theorem sameElements_setPrevious (pcb : ProcessList) (a : ℕ) (v : Option ℕ) :
    SameElements pcb (pcb.setPrevious a v) := by
  refine ⟨funext fun b => ?_, fun b => ?_, fun b => ?_, rfl⟩ <;>
    by_cases hb : b = a <;> simp [setPrevious, ProcessList.pid, hb]

theorem sameElements_of_append (h : pcb.append a = .ok pcb') : SameElements pcb pcb' := by
  unfold append at h
  split_ifs at h
  · obtain rfl := Except.ok.inj h
    exact (sameElements_setHead ..).trans (sameElements_setTail ..)
  · split at h
    · cases h
    · obtain rfl := Except.ok.inj h
      exact (sameElements_setNext ..).trans
        ((sameElements_setTail ..).trans (sameElements_setPrevious ..))

theorem sameElements_of_remove (h : pcb.remove a = .ok pcb') : SameElements pcb pcb' := by
  unfold remove at h
  split_ifs at h
  · exact Except.ok.inj h ▸ .refl pcb
  · exact Except.ok.inj h ▸ (sameElements_setHead ..).trans (sameElements_setTail ..)
  · split at h
    · cases h
    · exact Except.ok.inj h ▸ (sameElements_setHead ..).trans (sameElements_setPrevious ..)
  · split at h
    · cases h
    · exact Except.ok.inj h ▸ (sameElements_setTail ..).trans (sameElements_setNext ..)
  · split at h
    · exact Except.ok.inj h ▸ (sameElements_setNext ..).trans (sameElements_setPrevious ..)
    · cases h

/-! ### What the operations do -/

/-- The elements of the list are `l`, in this order. -/
structure Represents (pcb : ProcessList) (l : List ℕ) : Prop where
  linked : Linked pcb.next pcb.previous l
  head_eq : pcb.head = l.head?
  tail_eq : pcb.tail = l.getLast?
  nodup : (l.map pcb.pid).Nodup
  created : ∀ a ∈ l, a < pcb.created
  next_last : ∀ a ∈ l.getLast?, pcb.next a = some a ∨ pcb.next a = none

namespace Represents

theorem nodup_elements (h : pcb.Represents l) : l.Nodup := List.Nodup.of_map _ h.nodup

theorem eq_of_pid_eq (h : pcb.Represents l) (ha : a ∈ l) (hb : b ∈ l)
    (hab : pcb.pid a = pcb.pid b) : a = b :=
  List.inj_on_of_nodup_map h.nodup ha hb hab

theorem ne_nil_iff (h : pcb.Represents l) : pcb.head ≠ none ↔ l ≠ [] := by
  rw [h.head_eq]
  simp

protected theorem empty (element : ℕ → ProcessElement) : (empty element).Represents [] :=
  ⟨.nil, rfl, rfl, List.nodup_nil, by simp, by simp⟩

/-- The creation of an element does not change the list. -/
protected theorem create (h : pcb.Represents l) (pid : ℤ) (valid : Bool) (parentPID : ℤ) :
    (pcb.create pid valid parentPID).Represents l := by
  have hlt : ∀ a ∈ l, (pcb.create pid valid parentPID).element a = pcb.element a := fun a ha =>
    element_create_of_lt pid valid parentPID (h.created a ha)
  have hnew : pcb.created ∉ l := fun hmem => absurd (h.created _ hmem) (by omega)
  refine ⟨?_, h.head_eq, h.tail_eq, ?_, fun a ha => ?_, fun a ha => ?_⟩
  · rw [next_create, previous_create]
    refine (h.linked.update_next ?_ _).update_previous (fun hmem => ?_) _
    · exact fun hmem => hnew ((List.dropLast_sublist _).subset hmem)
    · exact hnew (List.mem_of_mem_tail hmem)
  · have hmap : l.map (pcb.create pid valid parentPID).pid = l.map pcb.pid :=
      List.map_congr_left fun a ha => by rw [ProcessList.pid, hlt a ha, ProcessList.pid]
    exact hmap ▸ h.nodup
  · exact Nat.lt_succ_of_lt (h.created a ha)
  · rw [next, hlt a (List.mem_of_getLast? ha)]
    exact h.next_last a ha

/-- The number of elements is at most the number of those created. -/
theorem length_le (h : pcb.Represents l) : l.length ≤ pcb.created := by
  have hsub := h.nodup_elements.subperm fun a ha => List.mem_range.2 (h.created a ha)
  simpa using hsub.length_le

/-- A list of at least two elements is searched up to the last one. -/
theorem search_eq (htail : pcb.tail = (a :: b :: l).getLast?)
    (hlinked : Linked pcb.next pcb.previous (a :: b :: l))
    (hnodup : ((a :: b :: l).map pcb.pid).Nodup) {fuel : ℕ} (hfuel : l.length < fuel) :
    pcb.search key fuel a = .ok ((a :: b :: l).find? fun x => pcb.pid x = key) := by
  induction l generalizing a b fuel with
  | nil =>
    obtain ⟨fuel, rfl⟩ : ∃ n, fuel = n + 1 := ⟨fuel - 1, by omega⟩
    obtain ⟨⟨hnext, -⟩, -⟩ := Linked.cons_cons.1 hlinked
    simp only [List.getLast?_cons_cons, List.getLast?_singleton] at htail
    by_cases ha : pcb.pid a = key
    · simp [search, ha]
    · by_cases hb : pcb.pid b = key <;> simp [search, ha, hb, hnext, htail]
  | cons c l ih =>
    obtain ⟨fuel, rfl⟩ : ∃ n, fuel = n + 1 := ⟨fuel - 1, by omega⟩
    obtain ⟨⟨hnext, -⟩, hlinked⟩ := Linked.cons_cons.1 hlinked
    rw [List.getLast?_cons_cons] at htail
    rw [List.map_cons, List.nodup_cons] at hnodup
    by_cases ha : pcb.pid a = key
    · simp [search, ha]
    · obtain ⟨t, ht⟩ : ∃ t, pcb.tail = some t := ⟨_, htail.trans (List.getLast?_cons ..)⟩
      -- the PID of `b` is not that of the last element
      have hb : pcb.pid b ≠ pcb.pid t := by
        have hmem : t ∈ c :: l := by
          have := htail.symm.trans ht
          rw [List.getLast?_cons_cons] at this
          exact List.mem_of_getLast? this
        intro hbt
        have hnotin := (List.nodup_cons.1 hnodup.2).1
        exact hnotin (hbt ▸ List.mem_map_of_mem hmem)
      have hrest := ih htail hlinked hnodup.2 (show l.length < fuel by simpa using hfuel)
      rw [List.find?_cons_of_neg (by simpa using ha), ← hrest]
      simp [search, ha, hnext, ht, hb]

/-- The search returns the element with the given PID, or a null pointer. Only with a single
element that points to nothing and has another PID it fails. -/
theorem returnElement (h : pcb.Represents l) (key : ℤ)
    (hone : ∀ a, l = [a] → pcb.next a = some a ∨ pcb.pid a = key) :
    pcb.returnElement key = .ok (l.find? fun a => pcb.pid a = key) := by
  unfold ProcessList.returnElement
  rw [h.head_eq]
  match l, h with
  | [], _ => rfl
  | [a], h =>
    have htail : pcb.tail = some a := h.tail_eq
    simp only [List.head?_cons]
    by_cases ha : pcb.pid a = key
    · simp [search, ha]
    · have hnext : pcb.next a = some a := (hone a rfl).resolve_right ha
      simp [search, ha, hnext, htail]
  | a :: b :: l, h =>
    have hle := h.length_le
    simp only [List.length_cons] at hle
    exact search_eq h.tail_eq h.linked h.nodup (by omega)

/-- The search in a list of one element that points to nothing and has another PID. -/
theorem returnElement_of_singleton (h : pcb.Represents [a]) (hnext : pcb.next a = none)
    (ha : pcb.pid a ≠ key) : pcb.returnElement key = .error .nullPointer := by
  unfold ProcessList.returnElement
  rw [h.head_eq]
  simp [search, ha, hnext]

/-- A search that returns has found the element with the given PID, if there is one. -/
theorem eq_find_of_returnElement (h : pcb.Represents l) {r : Option ℕ}
    (hr : pcb.returnElement key = .ok r) : r = l.find? fun a => pcb.pid a = key := by
  by_cases hone : ∀ a, l = [a] → pcb.next a = some a ∨ pcb.pid a = key
  · rw [h.returnElement key hone] at hr
    exact (Except.ok.inj hr).symm
  · push Not at hone
    obtain ⟨a, rfl, hnext, ha⟩ := hone
    have hnone := (h.next_last a rfl).resolve_left hnext
    simp [h.returnElement_of_singleton hnone ha] at hr

theorem find?_eq_some_iff (h : pcb.Represents l) :
    (l.find? fun a => pcb.pid a = key) = some a ↔ a ∈ l ∧ pcb.pid a = key := by
  constructor
  · intro hf
    exact ⟨List.mem_of_find?_eq_some hf, by simpa using List.find?_some hf⟩
  · rintro ⟨ha, hkey⟩
    obtain ⟨b, hb⟩ := Option.isSome_iff_exists.1
      (List.find?_isSome.2 ⟨a, ha, by simpa using hkey⟩ :
        (l.find? fun a => pcb.pid a = key).isSome)
    have hbkey : pcb.pid b = key := by simpa using List.find?_some hb
    rw [hb, h.eq_of_pid_eq (List.mem_of_find?_eq_some hb) ha (hbkey.trans hkey.symm)]

/-- `Append` puts an element that is not in the list behind the last one. -/
theorem append (h : pcb.Represents l) (ha : a < pcb.created) (hself : pcb.next a = some a)
    (hpid : pcb.pid a ∉ l.map pcb.pid) :
    ∃ pcb', pcb.append a = .ok pcb' ∧ pcb'.Represents (l ++ [a]) ∧ pcb.SameElements pcb' ∧
      ∀ b ∉ l, pcb'.next b = pcb.next b := by
  have hal : a ∉ l := fun hal => hpid (List.mem_map_of_mem hal)
  have hnodup : ((l ++ [a]).map pcb.pid).Nodup := by
    rw [List.map_append, List.map_singleton]
    exact List.nodup_append.2 ⟨h.nodup, List.nodup_singleton _, fun x hx y hy hxy =>
      hpid (List.mem_singleton.1 hy ▸ hxy ▸ hx)⟩
  have hcreated : ∀ b ∈ l ++ [a], b < pcb.created := fun b hb =>
    (List.mem_append.1 hb).elim (h.created b) fun hb => List.mem_singleton.1 hb ▸ ha
  unfold ProcessList.append
  rcases List.eq_nil_or_concat l with rfl | ⟨l, t, rfl⟩
  · rw [if_pos (by simp [h.head_eq])]
    refine ⟨_, rfl, ⟨.singleton a, rfl, rfl, hnodup, hcreated, ?_⟩,
      (sameElements_setHead ..).trans (sameElements_setTail ..), fun _ _ => rfl⟩
    rintro b hb
    obtain rfl : a = b := by simpa using hb
    exact .inl hself
  · rw [List.concat_eq_append] at *
    have hta : t ≠ a := fun hta => hal (by simp [hta])
    have htail : pcb.tail = some t := by simp [h.tail_eq]
    have hsame : pcb.SameElements
        (((pcb.setNext t (some a)).setTail (some a)).setPrevious a (some t)) :=
      (sameElements_setNext ..).trans ((sameElements_setTail ..).trans
        (sameElements_setPrevious ..))
    rw [if_neg (h.ne_nil_iff.2 (by simp)), htail]
    refine ⟨_, rfl, ⟨?_, ?_, by simp, hsame.pid ▸ hnodup, hsame.created ▸ hcreated, ?_⟩, hsame, ?_⟩
    · simpa using h.linked.concat h.nodup_elements hal
    · simp [h.head_eq]
    · intro b hb
      obtain rfl : a = b := by simpa using hb
      simp [update_of_ne (Ne.symm hta), hself]
    · intro b hb
      have hbt : b ≠ t := fun hbt => hb (by simp [hbt])
      simp [update_of_ne hbt]

/-- `Remove` unlinks an element of the list. An element that becomes the last one by that points
to nothing. -/
def Unlinks (pcb : ProcessList) (l : List ℕ) (a : ℕ) : Prop :=
  ∃ pcb', pcb.remove a = .ok pcb' ∧ pcb'.Represents (l.erase a) ∧ pcb.SameElements pcb' ∧
    (∀ b ∉ l, pcb'.next b = pcb.next b) ∧
    ∀ b ∈ (l.erase a).getLast?,
      pcb'.next b = if pcb.tail = some b then pcb.next b else none

/-- What an operation does that unlinks an element. -/
private theorem remove_of_unlinked (h : pcb.Represents l) (hop : pcb.remove a = .ok pcb')
    (hsame : pcb.SameElements pcb') (hlinked : Linked pcb'.next pcb'.previous (l.erase a))
    (hhead : pcb'.head = (l.erase a).head?) (htail : pcb'.tail = (l.erase a).getLast?)
    (hother : ∀ b ∉ l, pcb'.next b = pcb.next b)
    (hnext : ∀ b ∈ (l.erase a).getLast?,
      pcb'.next b = if pcb.tail = some b then pcb.next b else none) : Unlinks pcb l a := by
  refine ⟨pcb', hop, ⟨hlinked, hhead, htail, ?_, ?_, fun b hb => ?_⟩, hsame, hother, hnext⟩
  · rw [hsame.pid]
    exact h.nodup.sublist (List.erase_sublist.map _)
  · rw [hsame.created]
    exact fun b hb => h.created b (List.mem_of_mem_erase hb)
  · rw [hnext b hb]
    split_ifs with ht
    · exact h.next_last b (h.tail_eq ▸ ht)
    · exact .inr rfl

section Remove

variable {p n : ℕ} {before after : List ℕ}

private theorem erase_middle (h : pcb.Represents (before ++ a :: after)) :
    (before ++ a :: after).erase a = before ++ after := by
  have hbefore : a ∉ before := fun hmem =>
    (List.nodup_append.1 h.nodup_elements).2.2 a hmem a (by simp) rfl
  rw [List.erase_append_right _ hbefore, List.erase_cons_head]

/-- An element with another one behind it is not the last one. -/
private theorem tail_eq_of_next (h : pcb.Represents (before ++ a :: n :: after)) :
    pcb.tail = (n :: after).getLast? ∧ pcb.tail ≠ some a := by
  have htail : pcb.tail = (n :: after).getLast? := by
    rw [h.tail_eq, List.getLast?_append, List.getLast?_cons_cons]
    simp [List.getLast?_cons]
  have hafter : a ∉ n :: after :=
    (List.nodup_cons.1 (List.nodup_append.1 h.nodup_elements).2.1).1
  exact ⟨htail, fun heq => hafter (List.mem_of_getLast? (htail.symm.trans heq))⟩

/-- An element with another one before it is not the first one. -/
private theorem head_ne_of_previous (h : pcb.Represents (before ++ [p] ++ a :: after)) :
    pcb.head ≠ some a := fun heq => by
  have hmem : a ∈ (before ++ [p]).head? := by simpa [h.head_eq] using heq
  exact (List.nodup_append.1 h.nodup_elements).2.2 a (List.mem_of_mem_head? hmem) a (by simp) rfl

private theorem remove_only (h : pcb.Represents [a]) : Unlinks pcb [a] a := by
  have hhead : pcb.head = some a := h.head_eq
  have htail : pcb.tail = some a := h.tail_eq
  refine h.remove_of_unlinked ?_
    ((sameElements_setHead pcb none).trans (sameElements_setTail _ none)) ?_ ?_ ?_
    (fun _ _ => rfl) ?_
  · rw [ProcessList.remove, if_neg (by simp [hhead]), if_pos ⟨hhead, htail⟩]
  all_goals simp

private theorem remove_first (h : pcb.Represents (a :: n :: after)) :
    Unlinks pcb (a :: n :: after) a := by
  have hhead : pcb.head = some a := h.head_eq
  have h' : pcb.Represents ([] ++ a :: n :: after) := h
  obtain ⟨htail, hne⟩ := h'.tail_eq_of_next
  obtain ⟨⟨hnext, -⟩, hrest⟩ := Linked.cons_cons.1 h.linked
  have hn : n ∉ (n :: after).tail :=
    (List.nodup_cons.1 (List.nodup_cons.1 h.nodup_elements).2).1
  refine h.remove_of_unlinked ?_
    ((sameElements_setHead pcb (some n)).trans (sameElements_setPrevious _ n none)) ?_ ?_ ?_
    (fun b _ => by simp) fun b hb => ?_
  · rw [ProcessList.remove, if_neg (by simp [hhead]), if_neg fun hand => hne hand.2, if_pos hhead,
      hnext]
  · simpa using hrest.update_previous hn none
  · simp
  · simpa using htail
  · rw [List.erase_cons_head] at hb
    simp [htail.trans hb]

private theorem remove_last (h : pcb.Represents (before ++ [p] ++ [a])) :
    Unlinks pcb (before ++ [p] ++ [a]) a := by
  have hnodup := (List.nodup_append.1 h.nodup_elements)
  have hp : p ∉ before := fun hmem =>
    (List.nodup_append.1 hnodup.1).2.2 p hmem p (by simp) rfl
  have hpa : p ≠ a := hnodup.2.2 p (by simp) a (by simp)
  have hhead := h.head_ne_of_previous
  have htail : pcb.tail = some a := by simpa using h.tail_eq
  have hlinked := h.linked
  rw [List.append_assoc, List.singleton_append] at hlinked
  obtain ⟨hfirst, ⟨-, hprevious⟩, -⟩ := Linked.append_cons_cons.1 hlinked
  refine h.remove_of_unlinked ?_
    ((sameElements_setTail pcb (some p)).trans (sameElements_setNext _ p none)) ?_ ?_ ?_
    (fun b hb => ?_) fun b hb => ?_
  · rw [ProcessList.remove, if_neg (h.ne_nil_iff.2 (by simp)), if_neg fun hand => hhead hand.1,
      if_neg hhead, if_pos htail, hprevious]
  · rw [h.erase_middle, List.append_nil]
    simpa using hfirst.update_next (by simpa using hp) none
  · rw [h.erase_middle]
    simpa using h.head_eq
  · rw [h.erase_middle]
    simp
  · have hbp : b ≠ p := fun hbp => hb (by simp [hbp])
    simp [update_of_ne hbp]
  · rw [h.erase_middle] at hb
    obtain rfl : p = b := by simpa using hb
    simp [htail, Ne.symm hpa]

private theorem remove_between (h : pcb.Represents (before ++ [p] ++ a :: n :: after)) :
    Unlinks pcb (before ++ [p] ++ a :: n :: after) a := by
  have hnodup := h.nodup_elements
  have hdisjoint := (List.nodup_append.1 hnodup).2.2
  have hhead := h.head_ne_of_previous
  obtain ⟨htail, hne⟩ := h.tail_eq_of_next
  have hlinked := h.linked
  rw [List.append_assoc, List.singleton_append] at hlinked hnodup
  obtain ⟨-, ⟨-, hprevious⟩, hrest⟩ := Linked.append_cons_cons.1 hlinked
  obtain ⟨⟨hnext, -⟩, -⟩ := Linked.cons_cons.1 hrest
  refine h.remove_of_unlinked ?_
    ((sameElements_setNext pcb p (some n)).trans (sameElements_setPrevious _ n (some p)))
    ?_ ?_ ?_ (fun b hb => ?_) fun b hb => ?_
  · rw [ProcessList.remove, if_neg (h.ne_nil_iff.2 (by simp)), if_neg fun hand => hhead hand.1,
      if_neg hhead, if_neg hne, hprevious, hnext]
  · rw [h.erase_middle]
    simpa using hlinked.bypass hnodup
  · rw [h.erase_middle]
    simpa using h.head_eq
  · rw [h.erase_middle]
    simp [htail, List.getLast?_append, List.getLast?_cons]
  · have hbp : b ≠ p := fun hbp => hb (by simp [hbp])
    simp [update_of_ne hbp]
  · have hb' : b ∈ (n :: after).getLast? := by
      rw [h.erase_middle] at hb
      simpa [List.getLast?_append, List.getLast?_cons] using hb
    have hbp : b ≠ p :=
      Ne.symm (hdisjoint p (by simp) b (by simp [List.mem_of_getLast? hb']))
    simp [htail.trans hb', update_of_ne hbp]

end Remove

/-- `Remove` unlinks an element of the list, wherever it is. -/
theorem remove (h : pcb.Represents l) (ha : a ∈ l) : Unlinks pcb l a := by
  obtain ⟨before, after, rfl⟩ := List.append_of_mem ha
  rcases List.eq_nil_or_concat before with rfl | ⟨before, p, rfl⟩
  · cases after with
    | nil => exact h.remove_only
    | cons n after => exact h.remove_first
  · rw [List.concat_eq_append] at h ⊢
    cases after with
    | nil => exact h.remove_last
    | cons n after => exact h.remove_between

end Represents

end ProcessList

end Nachos.UserProg
