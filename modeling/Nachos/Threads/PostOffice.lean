import Mathlib.Algebra.BigOperators.Group.Finset.Basic
import Mathlib.Data.Fintype.BigOperators
import Mathlib.Data.List.Perm.Basic
import Mathlib.Tactic.Positivity
import Mathlib.Tactic.SplitIfs
import Nachos.Foundations.Except
import Nachos.Machine.Fault

/-!
# The post office

The variables that the people of `PostOfficeLoop` and of `PostOfficeSemaphore` share, and the
pieces of code in which both functions read and write them. `MailBox` has fixed dimensions; an
access outside of them has no defined behaviour.

To say what becomes of a message, the office also keeps which messages have been sent and what
everybody has read. Every message has a number, which its slot holds too.

## Main definitions

* `MailSlot`, `Office`: the shared variables.
* `Message`: a message that has been sent.
* `Office.readMsg`, `Office.deposit`, `Office.checkDone`: the code that changes them.
* `Office.Kept`: no message is lost, duplicated or changed.
* `Office.Sound`: the invariant of the office.

## Main results

* `Office.Kept.nodup`, `Office.Kept.msgSentCnt_eq`: every message is read or kept once.
* `Office.Sound.change`: the code of the people keeps the invariant.
-/

namespace Nachos.Threads

open Function Foundations

variable {P : ℕ}

/-- `Random() % P` is the number of a person, if there is one. -/
theorem random_mod_lt (i : Fin P) (random : ℕ) : random % P < P := Nat.mod_lt random i.pos

/-- `MailSlot`, and the number of the message that it holds, which the source does not keep. -/
structure MailSlot where
  who : ℕ := 0
  msg : Option String := none
  number : ℕ := 0
  deriving DecidableEq

/-- `MsgList`. -/
def msgList : List String :=
  ["Pattern0", "Pattern1", "Pattern2", "Pattern3", "Pattern4", "Pattern5"]

/-- A message that has been sent. The source keeps none of this. -/
structure Message (P : ℕ) where
  sender : Fin P
  recipient : Fin P
  text : String
  number : ℕ

/-- The slot in which the recipient finds the message. -/
def Message.slot (m : Message P) : MailSlot := ⟨m.sender, some m.text, m.number⟩

/-- The shared variables. -/
structure Office (P : ℕ) where
  msgSentCnt : ℤ
  done : Fin P → Bool
  msgPtr : Fin P → ℤ
  mailBox : ℕ → ℕ → MailSlot
  /-- The messages that have been sent, in this order. -/
  sent : List (Message P)
  /-- What each person has read. -/
  read : Fin P → List MailSlot

/-- `MailBox[r][idx]` is in the array `MailSlot MailBox [128][64]`. -/
def InMailBox (r idx : ℤ) : Prop := (0 ≤ r ∧ r < 128) ∧ 0 ≤ idx ∧ idx < 64

instance (r idx : ℤ) : Decidable (InMailBox r idx) :=
  inferInstanceAs (Decidable ((_ ∧ _) ∧ _))

namespace Office

/-- The office as `ThreadTest` initialises it. -/
def init (P : ℕ) : Office P where
  msgSentCnt := 0
  done _ := false
  msgPtr _ := 0
  mailBox _ _ := {}
  sent := []
  read _ := []

/-- The person `i` reads the message `MailBox[i][MsgPtr[i]-1]`: `MsgPtr[i]--`. -/
def readMsg (i : Fin P) (o : Office P) : Except Fault (Office P) :=
  let idx := o.msgPtr i - 1
  if InMailBox i idx then
    .ok { o with
      read := update o.read i (o.read i ++ [o.mailBox i idx.toNat])
      msgPtr := update o.msgPtr i idx }
  else .error .undefined

/-- The person `i` sends a message to `r`: `MsgPtr[r]++`, then `MailBox[r][MsgPtr[r]-1]` is
written, and `MsgSentCnt++`. -/
def deposit (i r : Fin P) (msgSent : String) (o : Office P) : Except Fault (Office P) :=
  let idx := o.msgPtr r + 1 - 1
  if InMailBox r idx then
    .ok { o with
      msgPtr := update o.msgPtr r (o.msgPtr r + 1)
      mailBox := update o.mailBox r (update (o.mailBox r) idx.toNat
        { who := i, msg := msgSent, number := o.sent.length })
      msgSentCnt := o.msgSentCnt + 1
      sent := o.sent ++ [⟨i, r, msgSent, o.sent.length⟩] }
  else .error .undefined

/-- `done[i] = done_temp && (MsgSentCnt==M)`. -/
def checkDone (M : ℕ) (i : Fin P) (o : Office P) : Office P :=
  { o with done := update o.done i (decide ((∀ j, o.msgPtr j = 0) ∧ o.msgSentCnt = M)) }

/-! ### What becomes of the messages -/

/-- The messages in the mailbox of `j`. -/
def inBox (o : Office P) (j : Fin P) : List MailSlot :=
  (List.range (o.msgPtr j).toNat).map (o.mailBox j)

/-- The messages that have been sent to `j`. -/
def sentTo (o : Office P) (j : Fin P) : List MailSlot :=
  (o.sent.filter fun m => m.recipient = j).map Message.slot

/-- Every message that has been sent is in the mailbox of its recipient or has been read by it. -/
structure Kept (o : Office P) : Prop where
  msgPtr_nonneg : ∀ j, 0 ≤ o.msgPtr j
  msgSentCnt : o.msgSentCnt = o.sent.length
  numbers : o.sent.map Message.number = List.range o.sent.length
  delivered : ∀ j, (o.sentTo j).Perm (o.read j ++ o.inBox j)

/-- `M` messages have been sent, and all have been read. -/
def Finished (M : ℕ) (o : Office P) : Prop := o.msgSentCnt = M ∧ ∀ j, o.msgPtr j = 0

variable {o o' : Office P} {i r : Fin P} {msg : String}

theorem readMsg_eq_ok (h : o.readMsg i = .ok o') : InMailBox i (o.msgPtr i - 1) ∧ o' =
    { o with
      read := update o.read i (o.read i ++ [o.mailBox i (o.msgPtr i - 1).toNat])
      msgPtr := update o.msgPtr i (o.msgPtr i - 1) } := by
  simp only [readMsg] at h
  split_ifs at h with hb
  exact ⟨hb, (Except.ok.inj h).symm⟩

theorem deposit_eq_ok (h : o.deposit i r msg = .ok o') : InMailBox r (o.msgPtr r) ∧ o' =
    { o with
      msgPtr := update o.msgPtr r (o.msgPtr r + 1)
      mailBox := update o.mailBox r (update (o.mailBox r) (o.msgPtr r).toNat
        { who := i, msg := msg, number := o.sent.length })
      msgSentCnt := o.msgSentCnt + 1
      sent := o.sent ++ [⟨i, r, msg, o.sent.length⟩] } := by
  simp only [deposit, add_sub_cancel_right] at h
  split_ifs at h with hb
  exact ⟨hb, (Except.ok.inj h).symm⟩

namespace Kept

theorem init (P : ℕ) : (Office.init P).Kept where
  msgPtr_nonneg _ := le_rfl
  msgSentCnt := rfl
  numbers := rfl
  delivered _ := .refl _

/-- Reading moves a message from the mailbox to those that have been read. -/
theorem readMsg (h : o.Kept) (hx : o.readMsg i = .ok o') : o'.Kept := by
  obtain ⟨⟨-, hidx, -⟩, rfl⟩ := readMsg_eq_ok hx
  refine { h with msgPtr_nonneg := fun j => ?_, delivered := fun j => ?_ }
  · by_cases hj : j = i
    · subst hj
      simpa using hidx
    · simpa [hj] using h.msgPtr_nonneg j
  · by_cases hj : j = i
    · subst hj
      obtain ⟨n, hn⟩ := Int.eq_ofNat_of_zero_le hidx
      have hptr : (o.msgPtr j).toNat = n + 1 := by omega
      have hbox : o.inBox j = (List.range n).map (o.mailBox j) ++ [o.mailBox j n] := by
        simp [inBox, hptr, List.range_succ]
      have hperm := h.delivered j
      rw [hbox, ← List.append_assoc] at hperm
      refine hperm.trans (List.perm_append_comm.trans ?_)
      simp only [inBox, update_self, hn, Int.toNat_natCast, ← List.append_assoc]
      exact List.perm_append_comm.append_right _
    · simpa [sentTo, inBox, hj] using h.delivered j

/-- Sending adds a message to the mailbox. -/
theorem deposit (h : o.Kept) (hx : o.deposit i r msg = .ok o') : o'.Kept := by
  obtain ⟨-, rfl⟩ := deposit_eq_ok hx
  refine ⟨fun j => ?_, by simp [h.msgSentCnt], by simp [h.numbers, List.range_succ], fun j => ?_⟩
  · have hj := h.msgPtr_nonneg j
    by_cases hr : j = r
    · subst hr
      simpa using hj.trans (by simp)
    · simpa [hr] using hj
  · by_cases hj : j = r
    · subst hj
      have hbox : ∀ slot : MailSlot, (List.range (o.msgPtr j).toNat).map
          (update (o.mailBox j) (o.msgPtr j).toNat slot) = o.inBox j := by
        intro slot
        refine List.map_congr_left fun idx hidx => update_of_ne ?_ _ _
        exact (List.mem_range.1 hidx).ne
      have hptr : (o.msgPtr j + 1).toNat = (o.msgPtr j).toNat + 1 := by
        have := h.msgPtr_nonneg j
        omega
      have hperm := (h.delivered j).append_right
        [{ who := i, msg := msg, number := o.sent.length }]
      simpa [sentTo, inBox, hptr, List.range_succ, hbox, Message.slot] using hperm
    · have hval : (j : ℕ) ≠ r := Fin.val_ne_of_ne hj
      simpa [sentTo, inBox, hj, Ne.symm hj, hval] using h.delivered j

theorem checkDone (h : o.Kept) (M : ℕ) (i : Fin P) : (o.checkDone M i).Kept :=
  ⟨h.msgPtr_nonneg, h.msgSentCnt, h.numbers, h.delivered⟩

/-- No message is in a mailbox or read twice. -/
theorem nodup (h : o.Kept) (j : Fin P) : (o.read j ++ o.inBox j).Nodup := by
  have hnumbers : (o.sent.map Message.slot).map MailSlot.number = List.range o.sent.length := by
    rw [← h.numbers, List.map_map]
    rfl
  have hsent : (o.sent.map Message.slot).Nodup := .of_map _ (hnumbers ▸ List.nodup_range)
  exact (h.delivered j).nodup_iff.1 (hsent.sublist (List.filter_sublist.map Message.slot))

private theorem length_eq_sum (l : List (Message P)) :
    ∑ j, ((l.filter fun m => m.recipient = j).length : ℤ) = l.length := by
  induction l with
  | nil => simp
  | cons m l ih =>
    have hcons : ∀ j, (((m :: l).filter fun m => m.recipient = j).length : ℤ) =
        (l.filter fun m => m.recipient = j).length + if m.recipient = j then 1 else 0 := by
      intro j
      by_cases hj : m.recipient = j <;> simp [hj]
    simp only [hcons, Finset.sum_add_distrib, ih, Finset.sum_ite_eq, Finset.mem_univ, if_true]
    rfl

/-- Every message that has been sent has been read or is in a mailbox. -/
theorem msgSentCnt_eq (h : o.Kept) :
    o.msgSentCnt = ∑ j, ((o.read j).length : ℤ) + ∑ j, o.msgPtr j := by
  have hlen : ∀ j, ((o.sent.filter fun m => m.recipient = j).length : ℤ) =
      (o.read j).length + o.msgPtr j := by
    intro j
    have hperm := (h.delivered j).length_eq
    have := h.msgPtr_nonneg j
    simp only [sentTo, inBox, List.length_map, List.length_append, List.length_range] at hperm
    omega
  rw [h.msgSentCnt, ← length_eq_sum, ← Finset.sum_add_distrib]
  exact Finset.sum_congr rfl fun j _ => hlen j

/-- No mailbox holds more messages than have been sent. -/
theorem msgPtr_le (h : o.Kept) (j : Fin P) : o.msgPtr j ≤ o.msgSentCnt := by
  have hsum := Finset.single_le_sum (fun j _ => h.msgPtr_nonneg j) (Finset.mem_univ j)
  have hread : 0 ≤ ∑ j, ((o.read j).length : ℤ) := Finset.sum_nonneg fun j _ => by positivity
  rw [h.msgSentCnt_eq]
  omega

end Kept

/-- When everything is finished, everybody has read what has been sent to it. -/
theorem Finished.all_read {M : ℕ} (hf : o.Finished M) (h : o.Kept) :
    o.msgSentCnt = M ∧ ∀ j, (o.sentTo j).Perm (o.read j) := by
  refine ⟨hf.1, fun j => ?_⟩
  have hbox : o.inBox j = [] := by simp [inBox, hf.2 j]
  simpa [hbox] using h.delivered j

/-! ### Steps of the people -/

/-- What a piece of code of the person `i` does to the office. -/
inductive Change (M : ℕ) (i : Fin P) (o o' : Office P) : Prop
  | same (h : o' = o)
  | read (hmail : 0 < o.msgPtr i) (h : o.readMsg i = .ok o')
  | send (r : Fin P) (msgSent : String) (hleft : o.msgSentCnt < M)
    (h : o.deposit i r msgSent = .ok o')
  | check (h : o' = o.checkDone M i)

/-- What holds of the office in every state of every run. -/
structure Sound (M : ℕ) (o : Office P) : Prop extends o.Kept where
  msgSentCnt_le : o.msgSentCnt ≤ M
  finished : ∀ i, o.done i = true → o.Finished M

variable {M : ℕ}

theorem Sound.init (P M : ℕ) : (Office.init P).Sound M where
  toKept := .init P
  msgSentCnt_le := Int.natCast_nonneg M
  finished i := by simp [Office.init]

/-- A piece of code keeps the messages, and once everything is finished it changes nothing. -/
theorem Sound.change (h : o.Sound M) (hc : Change M i o o') : o'.Sound M := by
  cases hc with
  | same he => exact he ▸ h
  | read hmail hx =>
    obtain ⟨-, rfl⟩ := readMsg_eq_ok hx
    refine ⟨h.readMsg hx, h.msgSentCnt_le, fun j hj => ?_⟩
    have := (h.finished j hj).2 i
    omega
  | send r msgSent hleft hx =>
    obtain ⟨-, rfl⟩ := deposit_eq_ok hx
    refine ⟨h.deposit hx, hleft, fun j hj => ?_⟩
    have := (h.finished j hj).1
    omega
  | check he =>
    subst he
    refine ⟨h.checkDone M i, h.msgSentCnt_le, fun j hj => ?_⟩
    by_cases hji : j = i
    · subst hji
      have hj : (∀ j, o.msgPtr j = 0) ∧ o.msgSentCnt = M := by simpa [Office.checkDone] using hj
      exact ⟨hj.2, hj.1⟩
    · exact h.finished j (by simpa [Office.checkDone, hji] using hj)

/-- Another person changes neither the `done` of `j` nor takes anything out of its mailbox. -/
theorem Change.frame {j : Fin P} (hj : j ≠ i) (hc : Change M i o o') :
    o'.done j = o.done j ∧ o.msgPtr j ≤ o'.msgPtr j := by
  cases hc with
  | same he => exact he ▸ ⟨rfl, le_rfl⟩
  | read hmail hx =>
    obtain ⟨-, rfl⟩ := readMsg_eq_ok hx
    simp [hj]
  | send r msgSent hleft hx =>
    obtain ⟨-, rfl⟩ := deposit_eq_ok hx
    refine ⟨rfl, ?_⟩
    by_cases hr : j = r
    · subst hr
      simp
    · simp [hr]
  | check he => simp [he, Office.checkDone, hj]

end Office

end Nachos.Threads
