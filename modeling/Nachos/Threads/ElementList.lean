import Mathlib.Data.Int.Notation
import Nachos.Foundations.Except
import Nachos.Foundations.SinglyLinked
import Nachos.Foundations.SortedQueue
import Nachos.Machine.Fault

/-!
# The lists of the kernel

`threads/list.cc`: a singly linked list with pointers to its first and its last element, which is
used as a queue and, with keys, as a priority queue. Elements are objects in memory; `new` returns
any address that is not in use, and an element that has been deleted can no longer be accessed.

## Main definitions

* `ElementList`, with `append`, `prepend`, `remove`, `sortedInsert` and `sortedRemove`.
* `ElementList.Represents`: the items of a list, in order.
* `ListOp.apply`: the operations on sequences of items.

## Main results

* `ElementList.run_refines`: any operations on a list, one after the other.
* `ElementList.list_spec`: the list is a sequence and a stable priority queue.
-/

namespace Nachos.Threads

open Foundations Function

/-- `ListElement`. -/
structure ListElement (α : Type) where
  next : Option ℕ
  key : ℤ
  item : α

/-- An item with its key. -/
structure Entry (α : Type) where
  item : α
  key : ℤ
  deriving DecidableEq

/-- `List`, with its elements in memory. -/
structure ElementList (α : Type) where
  element : ℕ → Option (ListElement α)
  /-- The number of elements that have been created. -/
  created : ℕ
  first : Option ℕ
  last : Option ℕ

namespace ElementList

variable {α : Type}

/-- `List::List`. -/
def new : ElementList α := ⟨fun _ => none, 0, none, none⟩

/-- The element to which a pointer points. -/
def deref (l : ElementList α) : Option ℕ → Except Fault (ListElement α)
  | none => .error .nullPointer
  | some a => match l.element a with
    | none => .error .undefined
    | some e => .ok e

/-- The element at the address `a` gets the next element `next`. -/
def withNext (l : ElementList α) (a : ℕ) (next : Option ℕ) : ElementList α :=
  { l with element := update l.element a ((l.element a).map fun e => { e with next := next }) }

/-- `p->next = next`. -/
def setNext (l : ElementList α) (p next : Option ℕ) : Except Fault (ElementList α) :=
  match p with
  | none => .error .nullPointer
  | some a => match l.element a with
    | none => .error .undefined
    | some _ => .ok (l.withNext a next)

/-- The list with a new element at the address `a`. -/
def withElement (l : ElementList α) (a : ℕ) (item : α) (sortKey : ℤ) : ElementList α :=
  { l with
    element := update l.element a (some ⟨none, sortKey, item⟩)
    created := l.created + 1 }

/-- `new ListElement(item, sortKey)`, when `new` returns the address `a`. -/
def create (l : ElementList α) (a : ℕ) (item : α) (sortKey : ℤ) : Except Fault (ElementList α) :=
  match l.element a with
  | none => .ok (l.withElement a item sortKey)
  | some _ => .error .disabled

/-- `delete`. -/
def delete (l : ElementList α) (a : ℕ) : ElementList α :=
  { l with element := update l.element a none }

/-! ### The operations -/

/-- `List::Append`. -/
def append (l : ElementList α) (a : ℕ) (item : α) : Except Fault (ElementList α) := do
  let l ← l.create a item 0
  if l.first = none then return { l with first := some a, last := some a }
  else
    let l ← l.setNext l.last (some a)
    return { l with last := some a }

/-- `List::Prepend`. -/
def prepend (l : ElementList α) (a : ℕ) (item : α) : Except Fault (ElementList α) := do
  let l ← l.create a item 0
  if l.first = none then return { l with first := some a, last := some a }
  else
    let l ← l.setNext (some a) l.first
    return { l with first := some a }

/-- The loop of `List::SortedInsert`, and what follows it. -/
def insertBehind (l : ElementList α) (a : ℕ) (sortKey : ℤ) :
    ℕ → Option ℕ → Except Fault (ElementList α)
  | 0, _ => .error .outOfFuel
  | fuel + 1, ptr => do
    let e ← l.deref ptr
    if e.next = none then
      let l ← l.setNext l.last (some a)
      return { l with last := some a }
    else
      let n ← l.deref e.next
      if sortKey < n.key then
        let l ← l.setNext (some a) e.next
        l.setNext ptr (some a)
      else l.insertBehind a sortKey fuel e.next

/-- `List::SortedInsert`. -/
def sortedInsert (l : ElementList α) (a : ℕ) (item : α) (sortKey : ℤ) :
    Except Fault (ElementList α) := do
  let l ← l.create a item sortKey
  if l.first = none then return { l with first := some a, last := some a }
  else
    let head ← l.deref l.first
    if sortKey < head.key then
      let l ← l.setNext (some a) l.first
      return { l with first := some a }
    else l.insertBehind a sortKey l.created l.first

/-- `List::SortedRemove`: the item and `*keyPtr`. -/
def sortedRemove (l : ElementList α) : Except Fault (Option (α × ℤ) × ElementList α) :=
  match l.first with
  | none => .ok (none, l)
  | some a => do
    let element ← l.deref (some a)
    let l' := if l.first = l.last then { l with first := none, last := none }
      else { l with first := element.next }
    return (some (element.item, element.key), l'.delete a)

/-- `List::Remove`. -/
def remove (l : ElementList α) : Except Fault (Option α × ElementList α) :=
  l.sortedRemove.map fun r => (r.1.map Prod.fst, r.2)

/-! ### Links and items -/

/-- The next pointer of an element. -/
def next (l : ElementList α) (a : ℕ) : Option ℕ := (l.element a).bind ListElement.next

/-- The item of an element. -/
def entry (l : ElementList α) (a : ℕ) : Option (Entry α) :=
  (l.element a).map fun e => ⟨e.item, e.key⟩

section

variable {l : ElementList α} {a b : ℕ} {v : Option ℕ} {item : α} {sortKey : ℤ} {x : Entry α}

theorem exists_element (h : l.entry a = some x) :
    ∃ e, l.element a = some e ∧ e.item = x.item ∧ e.key = x.key ∧ e.next = l.next a := by
  obtain ⟨e, he, rfl⟩ := Option.map_eq_some_iff.1 h
  exact ⟨e, he, rfl, rfl, by simp [next, he]⟩

theorem next_withNext (h : l.entry a = some x) : (l.withNext a v).next = update l.next a v := by
  obtain ⟨e, he, -⟩ := exists_element h
  funext b
  by_cases hb : b = a
  · subst hb
    simp [withNext, next, he]
  · simp [withNext, next, hb]

@[simp]
theorem entry_withNext : (l.withNext a v).entry = l.entry := by
  funext b
  by_cases hb : b = a
  · subst hb
    cases he : l.element b <;> simp [withNext, entry, he]
  · simp [withNext, entry, hb]

theorem setNext_eq (h : l.entry a = some x) : l.setNext (some a) v = .ok (l.withNext a v) := by
  obtain ⟨e, he, -⟩ := exists_element h
  simp [setNext, he]

theorem deref_eq (h : l.entry a = some x) :
    ∃ e, l.deref (some a) = .ok e ∧ e.item = x.item ∧ e.key = x.key ∧ e.next = l.next a := by
  obtain ⟨e, he, hentry⟩ := exists_element h
  exact ⟨e, by simp [deref, he], hentry⟩

theorem next_delete : (l.delete a).next = update l.next a none := by
  funext b
  by_cases hb : b = a
  · subst hb
    simp [delete, next]
  · simp [delete, next, hb]

theorem entry_delete : (l.delete a).entry = update l.entry a none := by
  funext b
  by_cases hb : b = a
  · subst hb
    simp [delete, entry]
  · simp [delete, entry, hb]

theorem next_withElement : (l.withElement a item sortKey).next = update l.next a none := by
  funext b
  by_cases hb : b = a
  · subst hb
    simp [withElement, next]
  · simp [withElement, next, hb]

theorem entry_withElement :
    (l.withElement a item sortKey).entry = update l.entry a (some ⟨item, sortKey⟩) := by
  funext b
  by_cases hb : b = a
  · subst hb
    simp [withElement, entry]
  · simp [withElement, entry, hb]

end

/-- The list consists of the elements at the addresses `cells`, and has the items `contents`. -/
structure Represents (l : ElementList α) (cells : List ℕ) (contents : List (Entry α)) : Prop where
  chain : NullTerminated l.next l.first cells
  entries : cells.map l.entry = contents.map some
  nodup : cells.Nodup
  last : l.last = cells.getLast?
  created : cells.length ≤ l.created

namespace Represents

variable {l : ElementList α} {cells : List ℕ} {contents : List (Entry α)} {a : ℕ}

theorem new : (new : ElementList α).Represents [] [] :=
  ⟨rfl, rfl, List.nodup_nil, rfl, le_rfl⟩

theorem length_eq (h : l.Represents cells contents) : cells.length = contents.length := by
  simpa using congrArg List.length h.entries

theorem exists_entry (h : l.Represents cells contents) (ha : a ∈ cells) :
    ∃ x ∈ contents, l.entry a = some x := by
  have hmem := List.mem_map_of_mem (f := l.entry) ha
  rw [h.entries] at hmem
  obtain ⟨x, hx, he⟩ := List.mem_map.1 hmem
  exact ⟨x, hx, he.symm⟩

theorem entry_middle {cells' : List ℕ} {contents' : List (Entry α)} {b : ℕ} {y : Entry α}
    (h : l.Represents (cells ++ b :: cells') (contents ++ y :: contents'))
    (hlen : cells.length = contents.length) :
    l.entry b = some y ∧ NullTerminated l.next (l.next b) cells' := by
  have hentries := h.entries
  rw [List.map_append, List.map_append] at hentries
  obtain ⟨-, hr⟩ := List.append_inj hentries (by simp [hlen])
  exact ⟨(List.cons.inj hr).1, (NullTerminated.append_iff.1 h.chain).2⟩

/-- The address of a new element is not in the list. -/
theorem notMem (h : l.Represents cells contents) (ha : l.element a = none) : a ∉ cells := by
  intro hmem
  obtain ⟨x, -, hx⟩ := h.exists_entry hmem
  simp [entry, ha] at hx

end Represents

/-- The element at the address `a` has been created for the item `x`, and is not yet linked. -/
structure Unlinked (l : ElementList α) (cells : List ℕ) (contents : List (Entry α)) (a : ℕ)
    (x : Entry α) : Prop extends l.Represents cells contents where
  fresh : a ∉ cells
  entry : l.entry a = some x
  next : l.next a = none
  room : cells.length < l.created

theorem Represents.create {l : ElementList α} {cells : List ℕ} {contents : List (Entry α)}
    (h : l.Represents cells contents) {a : ℕ} (ha : l.element a = none) (item : α)
    (sortKey : ℤ) :
    ∃ l', l.create a item sortKey = .ok l' ∧ l'.Unlinked cells contents a ⟨item, sortKey⟩ := by
  have hfresh := h.notMem ha
  refine ⟨l.withElement a item sortKey, by simp [ElementList.create, ha],
    ⟨?_, ?_, h.nodup, h.last, Nat.le_succ_of_le h.created⟩, hfresh, ?_, ?_,
    Nat.lt_succ_of_le h.created⟩
  · rw [next_withElement]
    exact h.chain.update hfresh none
  · rw [entry_withElement, ← h.entries]
    exact List.map_congr_left fun b hb => update_of_ne (ne_of_mem_of_not_mem hb hfresh) _ _
  · rw [entry_withElement, update_self]
  · rw [next_withElement, update_self]

namespace Unlinked

variable {l : ElementList α} {cells cells' : List ℕ} {contents contents' : List (Entry α)}
  {a b : ℕ} {x y : Entry α}

/-- The element becomes the only one. -/
theorem single (h : l.Unlinked [] [] a x) :
    ({ l with first := some a, last := some a } : ElementList α).Represents [a] [x] := by
  refine ⟨NullTerminated.cons_iff.2 ⟨rfl, h.next⟩, ?_, List.nodup_singleton a, rfl, h.room⟩
  exact congrArg (fun y => [y]) h.entry

/-- The element becomes the first one. -/
theorem front (h : l.Unlinked cells contents a x) (hne : cells ≠ []) :
    ({ l.withNext a l.first with first := some a } : ElementList α).Represents (a :: cells)
      (x :: contents) := by
  refine ⟨?_, ?_, List.nodup_cons.2 ⟨h.fresh, h.nodup⟩, ?_, h.room⟩
  · change NullTerminated (l.withNext a l.first).next (some a) (a :: cells)
    rw [next_withNext h.entry]
    exact h.chain.cons h.fresh
  · change (a :: cells).map (l.withNext a l.first).entry = _
    rw [entry_withNext, List.map_cons, h.entries, h.entry, List.map_cons]
  · obtain ⟨b, rest, rfl⟩ := List.exists_cons_of_ne_nil hne
    rw [List.getLast?_cons_cons]
    exact h.last

/-- The element is linked behind another one. -/
theorem behind (h : l.Unlinked (cells ++ b :: cells') (contents ++ y :: contents') a x)
    (hlen : cells.length = contents.length) {l' : ElementList α} (hfirst : l'.first = l.first)
    (hcreated : l'.created = l.created) (hentry : l'.entry = l.entry)
    (hnext : l'.next = update (update l.next a (l.next b)) b (some a))
    (hlast : l'.last = (b :: a :: cells').getLast?) :
    l'.Represents (cells ++ b :: a :: cells') (contents ++ y :: x :: contents') := by
  have hentries := h.entries
  rw [List.map_append, List.map_append] at hentries
  obtain ⟨hl, hr⟩ := List.append_inj hentries (by simp [hlen])
  obtain ⟨hb, hr⟩ := List.cons.inj hr
  have hroom := h.room
  refine ⟨?_, ?_, ?_, ?_, ?_⟩
  · rw [hnext, hfirst]
    exact h.chain.insert h.nodup h.fresh
  · rw [hentry, List.map_append, hl]
    simp [hb, hr, h.entry]
  · have hnodup : (a :: (cells ++ b :: cells')).Nodup := List.nodup_cons.2 ⟨h.fresh, h.nodup⟩
    have hperm : (cells ++ b :: a :: cells').Perm (a :: (cells ++ b :: cells')) := by
      simpa using (List.perm_middle : ((cells ++ [b]) ++ a :: cells').Perm _)
    exact hperm.nodup_iff.2 hnodup
  · rw [hlast, List.getLast?_append_of_ne_nil _ (List.cons_ne_nil _ _)]
  · simp only [List.length_append, List.length_cons, hcreated] at hroom ⊢
    omega

/-- The element is linked behind the last one. -/
theorem concat (h : l.Unlinked (cells ++ [b]) (contents ++ [y]) a x)
    (hlen : cells.length = contents.length) :
    ∃ l', (do
        let l' ← l.setNext l.last (some a)
        return { l' with last := some a }) = Except.ok l' ∧
      l'.Represents (cells ++ [b, a]) (contents ++ [y, x]) := by
  have hz := (h.entry_middle hlen).1
  have hlast : l.last = some b := by simp [h.last]
  refine ⟨{ l.withNext b (some a) with last := some a }, by rw [hlast, setNext_eq hz]; rfl,
    h.behind hlen rfl rfl entry_withNext ?_ rfl⟩
  have hnext : l.next b = none := h.chain.next_getLast (by simp)
  have hsame : update l.next a (l.next b) = l.next := by
    rw [hnext, ← h.next, update_eq_self]
  rw [hsame]
  exact next_withNext hz

/-- The element is linked between two others. -/
theorem between {c : ℕ} {z : Entry α} (h : l.Unlinked (cells ++ b :: c :: cells')
      (contents ++ y :: z :: contents') a x)
    (hlen : cells.length = contents.length) (hle : ∀ w ∈ contents ++ [y], w.key ≤ x.key)
    (hlt : x.key < z.key) :
    ∃ l', (do
        let l' ← l.setNext (some a) (some c)
        l'.setNext (some b) (some a)) = Except.ok l' ∧
      l'.Represents (cells ++ b :: a :: c :: cells')
        (Foundations.sortedInsert Entry.key x (contents ++ y :: z :: contents')) := by
  obtain ⟨hb, hchain⟩ := h.entry_middle hlen
  have hsome : l.next b = some c := hchain.1
  have hhead : Foundations.sortedInsert Entry.key x (z :: contents') = x :: z :: contents' :=
    sortedInsert_of_lt (by simpa using hlt)
  have hinsert : Foundations.sortedInsert Entry.key x ((contents ++ [y]) ++ z :: contents') =
      (contents ++ [y]) ++ x :: z :: contents' := hhead ▸ sortedInsert_append hle
  have hb' : (l.withNext a (some c)).entry b = some y := by rw [entry_withNext, hb]
  refine ⟨(l.withNext a (some c)).withNext b (some a), ?_, ?_⟩
  · rw [setNext_eq h.entry, ok_bind, setNext_eq hb']
  · rw [List.append_assoc, List.singleton_append, List.append_assoc] at hinsert
    rw [hinsert]
    refine h.behind hlen rfl rfl ?_ ?_ (h.last.trans ?_)
    · rw [entry_withNext, entry_withNext]
    · rw [next_withNext hb', next_withNext h.entry, hsome]
    · rw [List.getLast?_append_of_ne_nil _ (List.cons_ne_nil _ _), List.getLast?_cons_cons,
        List.getLast?_cons_cons, List.getLast?_cons_cons]

/-- The loop of `SortedInsert` links the element where `sortedInsert` puts the item. -/
theorem insertBehind (h : l.Unlinked (cells ++ b :: cells') (contents ++ y :: contents') a x)
    (hlen : cells.length = contents.length) (hle : ∀ z ∈ contents ++ [y], z.key ≤ x.key)
    {fuel : ℕ} (hfuel : cells'.length < fuel) :
    ∃ l' cells'', l.insertBehind a x.key fuel (some b) = .ok l' ∧
      l'.Represents cells''
        (Foundations.sortedInsert Entry.key x (contents ++ y :: contents')) := by
  induction fuel generalizing cells b cells' contents y contents' with
  | zero => exact absurd hfuel (Nat.not_lt_zero _)
  | succ fuel ih =>
    obtain ⟨hb, hchain⟩ := h.entry_middle hlen
    obtain ⟨e, he, -, -, hnext⟩ := deref_eq hb
    have hcount := h.length_eq
    simp only [List.length_append, List.length_cons] at hcount
    simp only [ElementList.insertBehind, he, ok_bind, hnext]
    cases cells' with
    | nil =>
      obtain rfl := List.length_eq_zero_iff.1 (show contents'.length = 0 by simp at hcount; omega)
      have hnull : l.next b = none := hchain
      obtain ⟨l', hl', hrep⟩ := h.concat hlen
      have hinsert : Foundations.sortedInsert Entry.key x ((contents ++ [y]) ++ []) =
          (contents ++ [y]) ++ [x] := sortedInsert_append hle
      rw [List.append_nil] at hinsert
      refine ⟨l', cells ++ [b, a], by rw [if_pos hnull]; exact hl', ?_⟩
      rw [hinsert]
      simpa using hrep
    | cons c cells' =>
      obtain ⟨z, contents', rfl⟩ := List.exists_cons_of_length_pos
        (show 0 < contents'.length by simp at hcount; omega)
      have hsome : l.next b = some c := hchain.1
      have h' : l.Unlinked ((cells ++ [b]) ++ c :: cells') ((contents ++ [y]) ++ z :: contents')
          a x := by
        simpa using h
      have hlen' : (cells ++ [b]).length = (contents ++ [y]).length := by simp [hlen]
      obtain ⟨hc, -⟩ := h'.entry_middle hlen'
      obtain ⟨n, hn, -, hkey, -⟩ := deref_eq hc
      simp only [hsome, reduceCtorEq, if_false, hn, ok_bind, hkey]
      split_ifs with hlt
      · obtain ⟨l', hl', hrep⟩ := h.between hlen hle hlt
        exact ⟨l', _, hl', hrep⟩
      · have hle' : ∀ w ∈ (contents ++ [y]) ++ [z], w.key ≤ x.key := by
          intro w hw
          rcases List.mem_append.1 hw with hw | hw
          · exact hle w hw
          · obtain rfl := List.mem_singleton.1 hw
            exact not_lt.1 hlt
        obtain ⟨l', cells'', hl', hrep⟩ := ih h' hlen' hle' (by simpa using hfuel)
        exact ⟨l', cells'', hl', by simpa using hrep⟩

end Unlinked

namespace Represents

variable {l : ElementList α} {cells : List ℕ} {contents : List (Entry α)} {a : ℕ} {item : α}
  {sortKey : ℤ} {x : Entry α}

/-- A list that is not empty has a last element. -/
theorem exists_concat (h : l.Represents cells contents) (hne : cells ≠ []) :
    ∃ cells' b contents' y, cells = cells' ++ [b] ∧ contents = contents' ++ [y] ∧
      cells'.length = contents'.length := by
  have hlen := h.length_eq
  have hne' : contents ≠ [] := fun hnil => hne (List.length_eq_zero_iff.1 (by simp [hlen, hnil]))
  refine ⟨cells.dropLast, cells.getLast hne, contents.dropLast, contents.getLast hne',
    (List.dropLast_append_getLast hne).symm, (List.dropLast_append_getLast hne').symm, ?_⟩
  rw [List.length_dropLast, List.length_dropLast, hlen]

theorem append (h : l.Represents cells contents) (ha : l.element a = none) (item : α) :
    ∃ l' cells', l.append a item = .ok l' ∧ l'.Represents cells' (contents ++ [⟨item, 0⟩]) := by
  obtain ⟨l₁, hl₁, hunlinked⟩ := h.create ha item 0
  simp only [ElementList.append, hl₁, ok_bind, hunlinked.chain.eq_none_iff]
  split_ifs with hnil
  · obtain rfl := hnil
    obtain rfl := List.length_eq_zero_iff.1 h.length_eq.symm
    exact ⟨_, _, rfl, hunlinked.single⟩
  · obtain ⟨cells', b, contents', y, rfl, rfl, hlen⟩ := h.exists_concat hnil
    obtain ⟨l', hl', hrep⟩ := hunlinked.concat hlen
    exact ⟨l', _, hl', by simpa using hrep⟩

theorem prepend (h : l.Represents cells contents) (ha : l.element a = none) (item : α) :
    ∃ l' cells', l.prepend a item = .ok l' ∧ l'.Represents cells' (⟨item, 0⟩ :: contents) := by
  obtain ⟨l₁, hl₁, hunlinked⟩ := h.create ha item 0
  simp only [ElementList.prepend, hl₁, ok_bind, hunlinked.chain.eq_none_iff]
  split_ifs with hnil
  · obtain rfl := hnil
    obtain rfl := List.length_eq_zero_iff.1 h.length_eq.symm
    exact ⟨_, _, rfl, hunlinked.single⟩
  · rw [setNext_eq hunlinked.entry, ok_bind]
    exact ⟨_, _, rfl, hunlinked.front hnil⟩

theorem sortedInsert (h : l.Represents cells contents) (ha : l.element a = none) (item : α)
    (sortKey : ℤ) :
    ∃ l' cells', l.sortedInsert a item sortKey = .ok l' ∧
      l'.Represents cells' (Foundations.sortedInsert Entry.key ⟨item, sortKey⟩ contents) := by
  obtain ⟨l₁, hl₁, hunlinked⟩ := h.create ha item sortKey
  simp only [ElementList.sortedInsert, hl₁, ok_bind, hunlinked.chain.eq_none_iff]
  cases cells with
  | nil =>
    obtain rfl := List.length_eq_zero_iff.1 h.length_eq.symm
    exact ⟨_, _, rfl, hunlinked.single⟩
  | cons b cells =>
    obtain ⟨y, contents, rfl⟩ := List.exists_cons_of_length_pos
      (show 0 < contents.length by simp [← h.length_eq])
    have hfirst : l₁.first = some b := hunlinked.chain.1
    have hhead : l₁.Unlinked ([] ++ b :: cells) ([] ++ y :: contents) a ⟨item, sortKey⟩ := hunlinked
    obtain ⟨hb, -⟩ := hhead.entry_middle rfl
    obtain ⟨e, he, -, hkey, -⟩ := deref_eq hb
    simp only [reduceCtorEq, if_false, hfirst, he, ok_bind, hkey]
    split_ifs with hlt
    · rw [sortedInsert_of_lt (by simpa using hlt), setNext_eq hunlinked.entry, ok_bind, ← hfirst]
      exact ⟨_, _, rfl, hunlinked.front (List.cons_ne_nil _ _)⟩
    · exact hhead.insertBehind rfl (by simpa using hlt) (Nat.lt_of_succ_lt hunlinked.room)

/-- The first element is unlinked and deleted. -/
theorem sortedRemove (h : l.Represents cells contents) :
    ∃ l' cells', l.sortedRemove = .ok (contents.head?.map fun x => (x.item, x.key), l') ∧
      l'.Represents cells' contents.tail := by
  cases cells with
  | nil =>
    obtain rfl := List.length_eq_zero_iff.1 h.length_eq.symm
    have hfirst : l.first = none := h.chain
    exact ⟨l, [], by simp [ElementList.sortedRemove, hfirst], h⟩
  | cons a cells =>
    obtain ⟨x, contents, rfl⟩ := List.exists_cons_of_length_pos
      (show 0 < contents.length by simp [← h.length_eq])
    obtain ⟨hfirst, hchain⟩ := NullTerminated.cons_iff.1 h.chain
    obtain ⟨ha, hnodup⟩ := List.nodup_cons.1 h.nodup
    obtain ⟨hx, hentries⟩ := List.cons.inj h.entries
    obtain ⟨e, he, hitem, hkey, hnext⟩ := deref_eq hx
    have hcreated := h.created
    -- the links and the items of the other elements stay
    have hchain' : NullTerminated (l.delete a).next (l.next a) cells := by
      rw [next_delete]
      exact hchain.update ha none
    have hentries' : cells.map (l.delete a).entry = contents.map some := by
      rw [entry_delete, ← hentries]
      exact List.map_congr_left fun b hb => update_of_ne (ne_of_mem_of_not_mem hb ha) _ _
    have hlast : some a = l.last ↔ cells = [] := by
      rw [h.last]
      cases cells with
      | nil => simp
      | cons b cells =>
        rw [List.getLast?_cons_cons]
        refine iff_of_false (fun heq => ha (List.mem_of_getLast? heq.symm)) (List.cons_ne_nil _ _)
    simp only [ElementList.sortedRemove, hfirst, he, ok_bind, hitem, hkey, hnext, hlast]
    refine ⟨_, cells, rfl, ?_⟩
    split_ifs with hnil
    · obtain rfl := hnil
      exact ⟨rfl, hentries', hnodup, rfl, Nat.zero_le _⟩
    · obtain ⟨b, cells, rfl⟩ := List.exists_cons_of_ne_nil hnil
      exact ⟨hchain', hentries', hnodup, h.last.trans List.getLast?_cons_cons,
        Nat.le_of_succ_le hcreated⟩

theorem remove (h : l.Represents cells contents) :
    ∃ l' cells', l.remove = .ok (contents.head?.map Entry.item, l') ∧
      l'.Represents cells' contents.tail := by
  obtain ⟨l', cells', hl', hrep⟩ := h.sortedRemove
  refine ⟨l', cells', ?_, hrep⟩
  rw [ElementList.remove, hl', map_ok, Option.map_map]
  rfl

end Represents

/-! ### Sequences of operations -/

/-- A call of a function of `List`. -/
inductive ListOp (α : Type)
  | append (item : α)
  | prepend (item : α)
  | remove
  | sortedInsert (item : α) (sortKey : ℤ)
  | sortedRemove

/-- What a call returns. -/
inductive Reply (α : Type)
  | done
  | removed (item : Option α)
  | sortedRemoved (item : Option (α × ℤ))

/-- The call, when `new` returns the address `a`. -/
def perform (l : ElementList α) (a : ℕ) : ListOp α → Except Fault (ElementList α × Reply α)
  | .append item => (l.append a item).map (·, .done)
  | .prepend item => (l.prepend a item).map (·, .done)
  | .remove => l.remove.map fun r => (r.2, .removed r.1)
  | .sortedInsert item sortKey => (l.sortedInsert a item sortKey).map (·, .done)
  | .sortedRemove => l.sortedRemove.map fun r => (r.2, .sortedRemoved r.1)

/-- Calls one after the other, each with the address that `new` returns. -/
def run (l : ElementList α) : List (ListOp α × ℕ) → Except Fault (ElementList α × List (Reply α))
  | [] => .ok (l, [])
  | (op, a) :: ops => do
    let (l, reply) ← l.perform a op
    let (l, replies) ← l.run ops
    return (l, reply :: replies)

namespace ListOp

/-- What a call does to a sequence of items. -/
def apply (contents : List (Entry α)) : ListOp α → List (Entry α) × Reply α
  | append item => (contents ++ [⟨item, 0⟩], .done)
  | prepend item => (⟨item, 0⟩ :: contents, .done)
  | remove => (contents.tail, .removed (contents.head?.map Entry.item))
  | sortedInsert item sortKey =>
    (Foundations.sortedInsert Entry.key ⟨item, sortKey⟩ contents, .done)
  | sortedRemove =>
    (contents.tail, .sortedRemoved (contents.head?.map fun x => (x.item, x.key)))

/-- Calls one after the other. -/
def applyAll (contents : List (Entry α)) : List (ListOp α) → List (Entry α) × List (Reply α)
  | [] => (contents, [])
  | op :: ops =>
    let (contents, reply) := op.apply contents
    let (contents, replies) := applyAll contents ops
    (contents, reply :: replies)

end ListOp

/-- `new` has returned the address of an element that is in use. -/
theorem create_eq_error {l : ElementList α} {a : ℕ} (ha : l.element a ≠ none) (item : α)
    (sortKey : ℤ) : l.create a item sortKey = .error .disabled := by
  obtain ⟨e, he⟩ := Option.ne_none_iff_exists'.1 ha
  simp [create, he]

/-- A call does to the list what it does to the sequence of its items. -/
theorem Represents.perform {l : ElementList α} {cells : List ℕ} {contents : List (Entry α)}
    (h : l.Represents cells contents) (op : ListOp α) {a : ℕ}
    (ha : l.perform a op ≠ .error .disabled) :
    ∃ l' cells', l.perform a op = .ok (l', (op.apply contents).2) ∧
      l'.Represents cells' (op.apply contents).1 := by
  cases op with
  | append item =>
    have hfree : l.element a = none := by
      by_contra hused
      simp [ElementList.perform, ElementList.append, create_eq_error hused] at ha
    obtain ⟨l', cells', hl', hrep⟩ := h.append hfree item
    exact ⟨l', cells', by simp [ElementList.perform, hl', ListOp.apply], hrep⟩
  | prepend item =>
    have hfree : l.element a = none := by
      by_contra hused
      simp [ElementList.perform, ElementList.prepend, create_eq_error hused] at ha
    obtain ⟨l', cells', hl', hrep⟩ := h.prepend hfree item
    exact ⟨l', cells', by simp [ElementList.perform, hl', ListOp.apply], hrep⟩
  | sortedInsert item sortKey =>
    have hfree : l.element a = none := by
      by_contra hused
      simp [ElementList.perform, ElementList.sortedInsert, create_eq_error hused] at ha
    obtain ⟨l', cells', hl', hrep⟩ := h.sortedInsert hfree item sortKey
    exact ⟨l', cells', by simp [ElementList.perform, hl', ListOp.apply], hrep⟩
  | remove =>
    obtain ⟨l', cells', hl', hrep⟩ := h.remove
    exact ⟨l', cells', by simp [ElementList.perform, hl', ListOp.apply], hrep⟩
  | sortedRemove =>
    obtain ⟨l', cells', hl', hrep⟩ := h.sortedRemove
    exact ⟨l', cells', by simp [ElementList.perform, hl', ListOp.apply], hrep⟩

/-- **The list refines the sequence of its items**, whatever addresses `new` returns. -/
theorem run_refines {l : ElementList α} {cells : List ℕ} {contents : List (Entry α)}
    (h : l.Represents cells contents) {ops : List (ListOp α × ℕ)}
    (halloc : l.run ops ≠ .error .disabled) :
    ∃ l' cells',
      l.run ops = .ok (l', (ListOp.applyAll contents (ops.map Prod.fst)).2) ∧
        l'.Represents cells' (ListOp.applyAll contents (ops.map Prod.fst)).1 := by
  induction ops generalizing l cells contents with
  | nil => exact ⟨l, cells, rfl, h⟩
  | cons call ops ih =>
    obtain ⟨op, a⟩ := call
    have hop : l.perform a op ≠ .error .disabled := fun herr => by
      simp [run, herr] at halloc
    obtain ⟨l₁, cells₁, hl₁, h₁⟩ := h.perform op hop
    have hops : l₁.run ops ≠ .error .disabled := fun herr => by
      simp [run, hl₁, herr] at halloc
    obtain ⟨l', cells', hl', h'⟩ := ih h₁ hops
    exact ⟨l', cells', by simp [run, hl₁, hl', ListOp.applyAll, pure, Except.pure], h'⟩

/-! ### Priority queues -/

namespace ListOp

/-- The call is one of `SortedInsert` and `SortedRemove`. -/
def IsSorted : ListOp α → Prop
  | sortedInsert _ _ => True
  | sortedRemove => True
  | _ => False

/-- What `SortedInsert` puts into the list. -/
def inserted : ListOp α → List (Entry α)
  | sortedInsert item sortKey => [⟨item, sortKey⟩]
  | _ => []

end ListOp

/-- What `SortedRemove` takes from the list, with the key that it reports. -/
def Reply.taken : Reply α → List (Entry α)
  | .sortedRemoved (some r) => [⟨r.1, r.2⟩]
  | _ => []

/-- The items with one key, in order. -/
def withKey (k : ℤ) (l : List (Entry α)) : List (Entry α) := l.filter fun x => decide (x.key = k)

theorem withKey_append (k : ℤ) (l l' : List (Entry α)) :
    withKey k (l ++ l') = withKey k l ++ withKey k l' :=
  List.filter_append ..

namespace ListOp

variable {op : ListOp α} {ops : List (ListOp α)} {contents : List (Entry α)}

/-- The keys do not decrease. -/
def IsOrdered (contents : List (Entry α)) : Prop := contents.Pairwise fun x y => x.key ≤ y.key

theorem apply_isOrdered (hop : op.IsSorted) (h : IsOrdered contents) :
    IsOrdered (op.apply contents).1 := by
  cases op with
  | append | prepend | remove => exact hop.elim
  | sortedInsert item sortKey => exact pairwise_sortedInsert h ⟨item, sortKey⟩
  | sortedRemove => exact List.Pairwise.tail h

/-- A call takes the first of the items with some key, or adds a last one. -/
theorem apply_withKey (hop : op.IsSorted) (h : IsOrdered contents) (k : ℤ) :
    withKey k (op.apply contents).2.taken ++ withKey k (op.apply contents).1 =
      withKey k contents ++ withKey k op.inserted := by
  cases op with
  | append | prepend | remove => exact hop.elim
  | sortedInsert item sortKey => exact filter_sortedInsert h ⟨item, sortKey⟩ k
  | sortedRemove =>
    cases contents with
    | nil => rfl
    | cons x contents =>
      show withKey k [x] ++ withKey k contents = withKey k (x :: contents) ++ []
      rw [List.append_nil]
      exact (withKey_append k [x] contents).symm

theorem applyAll_isOrdered (hops : ∀ op ∈ ops, op.IsSorted) (h : IsOrdered contents) :
    IsOrdered (applyAll contents ops).1 := by
  induction ops generalizing contents with
  | nil => exact h
  | cons op ops ih =>
    obtain ⟨hop, hops⟩ := List.forall_mem_cons.1 hops
    exact ih hops (apply_isOrdered hop h)

/-- Items with one key leave the queue in the order in which they came. -/
theorem applyAll_withKey (hops : ∀ op ∈ ops, op.IsSorted) (h : IsOrdered contents) (k : ℤ) :
    withKey k ((applyAll contents ops).2.flatMap Reply.taken) ++
        withKey k (applyAll contents ops).1 =
      withKey k contents ++ withKey k (ops.flatMap inserted) := by
  induction ops generalizing contents with
  | nil => simp [applyAll, withKey]
  | cons op ops ih =>
    obtain ⟨hop, hops⟩ := List.forall_mem_cons.1 hops
    have hfirst := apply_withKey hop h k
    have hrest := ih hops (apply_isOrdered hop h)
    calc withKey k ((applyAll contents (op :: ops)).2.flatMap Reply.taken) ++
          withKey k (applyAll contents (op :: ops)).1
        = withKey k (op.apply contents).2.taken ++
            (withKey k ((applyAll (op.apply contents).1 ops).2.flatMap Reply.taken) ++
              withKey k (applyAll (op.apply contents).1 ops).1) := by
          rw [applyAll, List.flatMap_cons, withKey_append, List.append_assoc]
      _ = withKey k contents ++ withKey k op.inserted ++ withKey k (ops.flatMap inserted) := by
          rw [hrest, ← List.append_assoc, hfirst]
      _ = withKey k contents ++ withKey k ((op :: ops).flatMap inserted) := by
          rw [List.flatMap_cons, withKey_append, List.append_assoc]

end ListOp

/-- **`List` is a sequence and a stable priority queue.** After any calls, `first` and `last`
delimit one chain that ends with a null pointer and has the items of the sequence, and the replies
are the ones of the sequence. If the calls are only `SortedInsert` and `SortedRemove`, the keys do
not decrease, and of the items with one key, those that were taken, with the key that was reported,
and those that are left are the ones that were inserted, in this order. -/
theorem list_spec (ops : List (ListOp α × ℕ))
    (halloc : (new : ElementList α).run ops ≠ .error .disabled) :
    ∃ (l : ElementList α) (replies : List (Reply α)) (cells : List ℕ),
      (new : ElementList α).run ops = .ok (l, replies) ∧
        replies = (ListOp.applyAll [] (ops.map Prod.fst)).2 ∧
        l.Represents cells (ListOp.applyAll [] (ops.map Prod.fst)).1 ∧
        (l.first = none ↔ cells = []) ∧ (l.last = none ↔ cells = []) ∧
        (∀ a, l.last = some a → l.next a = none) ∧
        ((∀ op ∈ ops.map Prod.fst, op.IsSorted) →
          ListOp.IsOrdered (ListOp.applyAll [] (ops.map Prod.fst)).1 ∧
            ∀ k, withKey k (replies.flatMap Reply.taken) ++
                withKey k (ListOp.applyAll [] (ops.map Prod.fst)).1 =
              withKey k ((ops.map Prod.fst).flatMap ListOp.inserted)) := by
  obtain ⟨l, cells, hl, hrep⟩ := run_refines Represents.new halloc
  refine ⟨l, _, cells, hl, rfl, hrep, hrep.chain.eq_none_iff, ?_, fun a ha => ?_, fun hops => ?_⟩
  · rw [hrep.last, List.getLast?_eq_none_iff]
  · exact hrep.chain.next_getLast (hrep.last ▸ ha)
  · exact ⟨ListOp.applyAll_isOrdered hops List.Pairwise.nil, fun k =>
      ListOp.applyAll_withKey hops List.Pairwise.nil k⟩

/-- Of two items with the same key, the one that came first is taken first. An address is used again
after its element has been deleted. -/
theorem list_spec_example :
    let ops : List (ListOp Bool × ℕ) := [(.sortedInsert true 7, 4), (.sortedInsert false 7, 2),
      (.sortedInsert true 3, 5), (.sortedRemove, 0), (.sortedRemove, 0), (.sortedInsert true 9, 4)]
    (∃ l replies, (new : ElementList Bool).run ops = .ok (l, replies) ∧
      ListOp.IsOrdered (ListOp.applyAll [] (ops.map Prod.fst)).1 ∧
      replies.flatMap Reply.taken = [⟨true, 3⟩, ⟨true, 7⟩]) ∧
      (ListOp.applyAll [] (ops.map Prod.fst)).1 = [⟨false, 7⟩, ⟨true, 9⟩] := by
  intro ops
  have hreplies : (ListOp.applyAll [] (ops.map Prod.fst)).2.flatMap Reply.taken =
      [⟨true, 3⟩, ⟨true, 7⟩] := by decide
  obtain ⟨l, replies, cells, hl, rfl, -, -, -, -, hsorted⟩ := list_spec ops nofun
  refine ⟨⟨l, _, hl, (hsorted ?_).1, hreplies⟩, by decide⟩
  simp [ops, ListOp.IsSorted]

end ElementList

end Nachos.Threads
