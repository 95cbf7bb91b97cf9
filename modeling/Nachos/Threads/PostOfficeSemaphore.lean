import Mathlib.Algebra.BigOperators.Ring.Finset
import Nachos.Threads.Balance
import Nachos.Threads.PostOffice

/-!
# The post office with semaphores

The function `PostOfficeSemaphore` as a program for the `P` people that `ThreadTest` forks in
task 6. A person reads its mail, then claims a unit of free space in the mailbox of a random
recipient, then the mailbox, then the message counter, and stores a message or gives the unit
back.

## Main definitions

* `execute`, `program`: the program.
* `Stage`: the points of the program.
* `holdsSpace`: a person has a unit of free space.
* `Safe`: the invariant.

## Main results

* `postOfficeSemaphore_conserves`: no message and no unit of free space is lost or duplicated.
-/

namespace Nachos.Threads.PostOfficeSemaphore

open Function Foundations StepSystem

variable {P : ℕ}

/-! ### The program -/

/-- The semaphores of the task. -/
inductive Sem (P : ℕ)
  | mailboxSemaphore (j : Fin P)
  | freeSpaceSemaphore (j : Fin P)
  | msgCntSemaphore
  deriving DecidableEq

/-- The pieces of code. The choices of `iSendTo` and `msgSent` are part of the code that uses
them. -/
inductive Code (P : ℕ)
  /-- `while (done[i] != true)`. -/
  | whileNotDone
  /-- `while (MsgPtr[i] != 0)`. -/
  | whileMail
  | readMsg
  /-- `do { iSendTo = Random() % P; } while (iSendTo == i)`. -/
  | chooseRecipient
  | chooseMsg (iSendTo : Fin P)
  /-- `if (MsgSentCnt < M)`. -/
  | sendMsg (iSendTo : Fin P) (msgSent : String)
  | stall
  | checkDone
  deriving DecidableEq

/-- What the person `i` does; `random` is the value of `Random()`. -/
def execute (M : ℕ) (i : Fin P) (code : Code P) (random : ℕ) (o : Office P) :
    Except Fault (Office P × List (Op (Sem P) (Code P))) :=
  match code with
  | .whileNotDone => .ok (o, if o.done i ≠ true then [.run .whileMail, .run .chooseRecipient,
      .run .stall, .run .checkDone, .run .whileNotDone] else [])
  | .whileMail => .ok (o, if o.msgPtr i ≠ 0 then [.p (.mailboxSemaphore i), .run .readMsg,
      .v (.freeSpaceSemaphore i), .v (.mailboxSemaphore i), .yield, .run .whileMail] else [])
  | .readMsg => (o.readMsg i).map fun o => (o, [])
  | .chooseRecipient =>
    let iSendTo : Fin P := ⟨random % P, random_mod_lt i random⟩
    .ok (o, if iSendTo = i then [.run .chooseRecipient] else [.run (.chooseMsg iSendTo)])
  | .chooseMsg iSendTo =>
    let msgSent := msgList.getD (random % 6) ""
    .ok (o, [.p (.freeSpaceSemaphore iSendTo), .p (.mailboxSemaphore iSendTo), .p .msgCntSemaphore,
      .run (.sendMsg iSendTo msgSent), .v (.mailboxSemaphore iSendTo), .v .msgCntSemaphore])
  | .sendMsg iSendTo msgSent =>
    if o.msgSentCnt < M then (o.deposit i iSendTo msgSent).map fun o => (o, [])
    else .ok (o, [.v (.freeSpaceSemaphore iSendTo)])
  | .stall => .ok (o, List.replicate (random % 4 + 2) .yield)
  | .checkDone => .ok (o.checkDone M i, [])

/-- The function `PostOfficeSemaphore`. -/
def program (P M : ℕ) : Program P (Sem P) (Code P) (Office P) ℕ where
  start := .whileNotDone
  exec := execute M

/-- The initial values of the semaphores. -/
def value (S : ℕ) : Sem P → ℕ
  | .mailboxSemaphore _ | .msgCntSemaphore => 1
  | .freeSpaceSemaphore _ => S

/-- The runs of the task for `P` people, mailboxes of capacity `S`, and `M` messages. -/
abbrev system (P S M : ℕ) := (program P M).system (value S) (.init P)

/-- The states of the task. -/
abbrev State (P : ℕ) := Kernel (Participant P) (Sem P) (TaskCode (Code P)) (Office P)

/-- What the person `i` has still to execute. -/
abbrev remaining (M : ℕ) (k : State P) (i : Fin P) : List (Op (Sem P) (Code P)) :=
  (program P M).remaining k i

/-! ### The points of the program -/

/-- What follows the attempt to send a message. -/
abbrev leave : List (Op (Sem P) (Code P)) := [.run .stall, .run .checkDone, .run .whileNotDone]

/-- What follows the reading of a message. -/
abbrev nextMail : List (Op (Sem P) (Code P)) := .run .whileMail :: .run .chooseRecipient :: leave

/-- What the person `i` can have still to execute, by its `done`. -/
inductive Stage (i : Fin P) : Bool → List (Op (Sem P) (Code P)) → Prop
  | whileNotDone (d : Bool) : Stage i d [.run .whileNotDone]
  | whileMail : Stage i false nextMail
  | lockBox : Stage i false (.p (.mailboxSemaphore i) :: .run .readMsg ::
      .v (.freeSpaceSemaphore i) :: .v (.mailboxSemaphore i) :: nextMail)
  | readMsg : Stage i false (.run .readMsg :: .v (.freeSpaceSemaphore i) ::
      .v (.mailboxSemaphore i) :: nextMail)
  | addSpace : Stage i false (.v (.freeSpaceSemaphore i) :: .v (.mailboxSemaphore i) :: nextMail)
  | unlockBox : Stage i false (.v (.mailboxSemaphore i) :: nextMail)
  | chooseRecipient : Stage i false (.run .chooseRecipient :: leave)
  | chooseMsg (r : Fin P) : Stage i false (.run (.chooseMsg r) :: leave)
  | claimSpace (r : Fin P) (msg : String) : Stage i false (.p (.freeSpaceSemaphore r) ::
      .p (.mailboxSemaphore r) :: .p .msgCntSemaphore :: .run (.sendMsg r msg) ::
      .v (.mailboxSemaphore r) :: .v .msgCntSemaphore :: leave)
  | claimBox (r : Fin P) (msg : String) : Stage i false (.p (.mailboxSemaphore r) ::
      .p .msgCntSemaphore :: .run (.sendMsg r msg) :: .v (.mailboxSemaphore r) ::
      .v .msgCntSemaphore :: leave)
  | claimCnt (r : Fin P) (msg : String) : Stage i false (.p .msgCntSemaphore ::
      .run (.sendMsg r msg) :: .v (.mailboxSemaphore r) :: .v .msgCntSemaphore :: leave)
  | sendMsg (r : Fin P) (msg : String) : Stage i false (.run (.sendMsg r msg) ::
      .v (.mailboxSemaphore r) :: .v .msgCntSemaphore :: leave)
  | returnSpace (r : Fin P) : Stage i false (.v (.freeSpaceSemaphore r) ::
      .v (.mailboxSemaphore r) :: .v .msgCntSemaphore :: leave)
  | releaseBox (r : Fin P) : Stage i false
      (.v (.mailboxSemaphore r) :: .v .msgCntSemaphore :: leave)
  | releaseCnt : Stage i false (.v .msgCntSemaphore :: leave)
  | stall : Stage i false leave
  | checkDone : Stage i false [.run .checkDone, .run .whileNotDone]
  | left : Stage i true []

namespace Stage

variable {i : Fin P} {d : Bool}

/-- Completing a call of the kernel leads to the next point. -/
theorem tail {o : Op (Sem P) (Code P)} {rest : List (Op (Sem P) (Code P))}
    (h : Stage i d (o :: rest)) (ho : ∀ code, o ≠ .run code) : Stage i d rest := by
  cases h with
  | lockBox => exact .readMsg
  | addSpace => exact .unlockBox
  | unlockBox => exact .whileMail
  | claimSpace r msg => exact .claimBox r msg
  | claimBox r msg => exact .claimCnt r msg
  | claimCnt r msg => exact .sendMsg r msg
  | returnSpace r => exact .releaseBox r
  | releaseBox => exact .releaseCnt
  | releaseCnt => exact .stall
  | _ => exact absurd rfl (ho _)

/-- Executing code leads to the next point. -/
theorem execute {M random : ℕ} {o o' : Office P} {code : Code P}
    {rest ops : List (Op (Sem P) (Code P))} (h : Stage i (o.done i) (.run code :: rest))
    (hx : execute M i code random o = .ok (o', ops)) :
    Stage i (o'.done i) (ops.filter Op.isWork ++ rest) := by
  generalize hd : o.done i = d at h
  cases h with
  | whileNotDone d =>
    obtain ⟨rfl, rfl⟩ := Prod.mk.inj (Except.ok.inj hx)
    cases d <;> simp only [hd]
    · exact .whileMail
    · exact .left
  | whileMail =>
    obtain ⟨rfl, rfl⟩ := Prod.mk.inj (Except.ok.inj hx)
    rw [hd]
    split_ifs
    · exact .lockBox
    · exact .chooseRecipient
  | readMsg =>
    simp only [PostOfficeSemaphore.execute] at hx
    obtain ⟨o₁, hread, he⟩ := map_eq_ok.1 hx
    obtain ⟨rfl, rfl⟩ := Prod.mk.inj he
    obtain ⟨-, rfl⟩ := Office.readMsg_eq_ok hread
    rw [hd]
    exact .addSpace
  | chooseRecipient =>
    obtain ⟨rfl, rfl⟩ := Prod.mk.inj (Except.ok.inj hx)
    rw [hd]
    split_ifs
    · exact .chooseRecipient
    · exact .chooseMsg _
  | chooseMsg r =>
    obtain ⟨rfl, rfl⟩ := Prod.mk.inj (Except.ok.inj hx)
    rw [hd]
    exact .claimSpace r _
  | sendMsg r msg =>
    simp only [PostOfficeSemaphore.execute] at hx
    split_ifs at hx
    · obtain ⟨o₁, hdep, he⟩ := map_eq_ok.1 hx
      obtain ⟨rfl, rfl⟩ := Prod.mk.inj he
      obtain ⟨-, rfl⟩ := Office.deposit_eq_ok hdep
      rw [hd]
      exact .releaseBox r
    · obtain ⟨rfl, rfl⟩ := Prod.mk.inj (Except.ok.inj hx)
      rw [hd]
      exact .returnSpace r
  | stall =>
    obtain ⟨rfl, rfl⟩ := Prod.mk.inj (Except.ok.inj hx)
    rw [hd, Op.filter_isWork_replicate_yield]
    exact .checkDone
  | checkDone =>
    obtain ⟨rfl, rfl⟩ := Prod.mk.inj (Except.ok.inj hx)
    exact .whileNotDone _

end Stage

/-! ### What one piece of code does -/

variable {M random : ℕ} {i : Fin P} {o o' : Office P} {code : Code P}
  {rest ops : List (Op (Sem P) (Code P))}

/-- What a piece of code does to the office. -/
theorem office_of_execute (hmail : code = .readMsg → 0 < o.msgPtr i)
    (hx : execute M i code random o = .ok (o', ops)) :
    Office.Change M i o o' := by
  cases code with
  | readMsg =>
    simp only [execute] at hx
    obtain ⟨o₁, hread, he⟩ := map_eq_ok.1 hx
    obtain ⟨rfl, -⟩ := Prod.mk.inj he
    exact .read (hmail rfl) hread
  | sendMsg r msg =>
    simp only [execute] at hx
    split_ifs at hx with hlt
    · obtain ⟨o₁, hdep, he⟩ := map_eq_ok.1 hx
      obtain ⟨rfl, -⟩ := Prod.mk.inj he
      exact .send r msg hlt hdep
    · exact .same (Prod.mk.inj (Except.ok.inj hx)).1.symm
  | checkDone => exact .check (Prod.mk.inj (Except.ok.inj hx)).1.symm
  | _ => exact .same (Prod.mk.inj (Except.ok.inj hx)).1.symm

/-- A person reads only if it has found that its mailbox is not empty. -/
theorem mail_of_execute {d : Bool} (hst : Stage i d (.run code :: rest)) (hnonneg : 0 ≤ o.msgPtr i)
    (hx : execute M i code random o = .ok (o', ops))
    (hmem : .run .readMsg ∈ ops.filter Op.isWork ++ rest) : 0 < o'.msgPtr i := by
  cases hst with
  | whileMail =>
    obtain ⟨rfl, rfl⟩ := Prod.mk.inj (Except.ok.inj hx)
    split_ifs at hmem with hm
    · omega
    · simp at hmem
  | whileNotDone =>
    obtain ⟨rfl, rfl⟩ := Prod.mk.inj (Except.ok.inj hx)
    split_ifs at hmem <;> simp at hmem
  | readMsg =>
    simp only [execute] at hx
    obtain ⟨o₁, -, he⟩ := map_eq_ok.1 hx
    obtain ⟨-, rfl⟩ := Prod.mk.inj he
    simp at hmem
  | sendMsg =>
    simp only [execute] at hx
    split_ifs at hx
    · obtain ⟨o₁, -, he⟩ := map_eq_ok.1 hx
      obtain ⟨-, rfl⟩ := Prod.mk.inj he
      simp at hmem
    · obtain ⟨-, rfl⟩ := Prod.mk.inj (Except.ok.inj hx)
      simp at hmem
  | chooseRecipient =>
    obtain ⟨-, rfl⟩ := Prod.mk.inj (Except.ok.inj hx)
    split_ifs at hmem <;> simp at hmem
  | chooseMsg | stall | checkDone =>
    obtain ⟨-, rfl⟩ := Prod.mk.inj (Except.ok.inj hx)
    simp at hmem

/-! ### Free space -/

/-- The units of free space in the mailbox of `j` that the person `i` gives back when it executes
a piece of code. -/
def spaceWeight (i j : Fin P) : Code P → ℤ
  | .readMsg => if i = j then -1 else 0
  | .sendMsg r _ => if r = j then 1 else 0
  | _ => 0

/-- A person that has to execute these operations has a unit of free space in the mailbox of `j`:
it will use or return one before it takes one. -/
def holdsSpace (j : Fin P) : List (Op (Sem P) (Code P)) → Bool
  | [] => false
  | .p (.freeSpaceSemaphore r) :: rest => r ≠ j && holdsSpace j rest
  | .v (.freeSpaceSemaphore r) :: rest => r = j || holdsSpace j rest
  | .run (.sendMsg r _) :: rest => r = j || holdsSpace j rest
  | .run .readMsg :: _ => false
  | _ :: rest => holdsSpace j rest

theorem Stage.space_load {d : Bool} (h : Stage i d ops) (j : Fin P) :
    load 1 (.freeSpaceSemaphore j) (spaceWeight i j) ops =
      if holdsSpace j ops = true then 1 else 0 := by
  cases h with
  | claimSpace r msg | claimBox r msg | claimCnt r msg | sendMsg r msg | returnSpace r =>
    by_cases hr : r = j <;> simp [Op.weight, spaceWeight, holdsSpace, hr]
  | lockBox | readMsg | addSpace =>
    by_cases hi : i = j <;> simp [Op.weight, spaceWeight, holdsSpace, hi]
  | _ => simp [Op.weight, spaceWeight, holdsSpace]

/-- The code moves units of free space, but neither creates nor destroys them. -/
theorem space_of_execute (hx : execute M i code random o = .ok (o', ops)) (j : Fin P) :
    load 1 (.freeSpaceSemaphore j) (spaceWeight i j) ops + o'.msgPtr j =
      spaceWeight i j code + o.msgPtr j := by
  cases code with
  | readMsg =>
    simp only [execute] at hx
    obtain ⟨o₁, hread, he⟩ := map_eq_ok.1 hx
    obtain ⟨rfl, rfl⟩ := Prod.mk.inj he
    obtain ⟨-, rfl⟩ := Office.readMsg_eq_ok hread
    by_cases hj : i = j
    · subst hj
      simp [spaceWeight]
      ring
    · simp [spaceWeight, hj, Ne.symm hj]
  | sendMsg r msg =>
    simp only [execute] at hx
    split_ifs at hx with hlt
    · obtain ⟨o₁, hdep, he⟩ := map_eq_ok.1 hx
      obtain ⟨rfl, rfl⟩ := Prod.mk.inj he
      obtain ⟨-, rfl⟩ := Office.deposit_eq_ok hdep
      by_cases hr : r = j
      · subst hr
        simp [spaceWeight]
        ring
      · simp [spaceWeight, hr, Ne.symm hr]
    · obtain ⟨rfl, rfl⟩ := Prod.mk.inj (Except.ok.inj hx)
      by_cases hr : r = j <;> simp [Op.weight, spaceWeight, hr]
  | whileNotDone | chooseRecipient =>
    obtain ⟨rfl, rfl⟩ := Prod.mk.inj (Except.ok.inj hx)
    split_ifs <;> simp [Op.weight, spaceWeight]
  | whileMail =>
    obtain ⟨rfl, rfl⟩ := Prod.mk.inj (Except.ok.inj hx)
    by_cases hj : i = j <;> split_ifs <;> simp [Op.weight, spaceWeight, hj]
  | chooseMsg r =>
    obtain ⟨rfl, rfl⟩ := Prod.mk.inj (Except.ok.inj hx)
    by_cases hr : r = j <;> simp [Op.weight, spaceWeight, hr]
  | stall | checkDone =>
    obtain ⟨rfl, rfl⟩ := Prod.mk.inj (Except.ok.inj hx)
    simp [spaceWeight, Office.checkDone]

/-! ### The invariant -/

/-- What holds in every state of every run. -/
structure Safe (S M : ℕ) (k : State P) : Prop where
  staged : ∀ i, Stage i (k.env.done i) (remaining M k i)
  mail : ∀ i, .run .readMsg ∈ remaining M k i → 0 < k.env.msgPtr i
  space : ∀ j, (program P M).balance 1 (.freeSpaceSemaphore j) (spaceWeight · j)
    (fun o => o.msgPtr j) k = S
  sound : k.env.Sound M

namespace Safe

variable {S : ℕ} {k k' : State P} {input : Input Empty ℕ}

theorem boot (S M : ℕ) : Safe S M (Program.boot (value S) (.init P) : State P) where
  staged i := by
    unfold remaining
    rw [Program.remaining_boot]
    exact .whileNotDone _
  mail i := by
    unfold remaining
    rw [Program.remaining_boot]
    simp [program]
  space j := by
    rw [Program.balance_boot]
    simp [value, program, spaceWeight, Office.init]
  sound := .init P M

/-- What a step does to the office. -/
theorem change (h : Safe S M k) (hx : (program P M).Executes k input k' i code rest ops) :
    Office.Change M i k.env k'.env := by
  refine office_of_execute (fun hc => h.mail i ?_) hx.exec
  simp [remaining, hx.remaining, hc]

theorem move (h : Safe S M k) (hm : (program P M).Move k input k') : Safe S M k' where
  staged := by
    refine hm.forall_remaining (Q := fun i o => Stage i (o.done i)) h.staged
      (fun i o rest hst ho => hst.tail ho) ?_ ?_
    · intro i code rest ops hx hst
      exact hst.execute hx.exec
    · intro i code rest ops hx j hj hst
      rwa [((h.change hx).frame hj).1]
  mail := by
    refine hm.forall_remaining (Q := fun i o ops => .run .readMsg ∈ ops → 0 < o.msgPtr i) h.mail
      (fun i o rest hi ho hmem => hi (.tail _ hmem)) ?_ ?_
    · intro i code rest ops hx _
      have hst : Stage i (k.env.done i) (.run code :: rest) := hx.remaining ▸ h.staged i
      exact mail_of_execute hst (h.sound.msgPtr_nonneg i) hx.exec
    · intro i code rest ops hx j hj hi hmem
      exact (hi hmem).trans_le ((h.change hx).frame hj).2
  space j := by
    refine Eq.trans (hm.balance_eq fun i code rest ops hx => ?_) (h.space j)
    exact space_of_execute hx.exec j
  sound := by
    obtain ⟨i, code, rest, ops, hx⟩ | hs := hm.executes_or_settles
    · exact h.sound.change (h.change hx)
    · exact hs.env ▸ h.sound

end Safe

/-- The invariant holds in every state of every run. -/
theorem safe_of_reachable {S : ℕ} {k : State P} {C : State P → Input Empty ℕ → Prop}
    (h : (system P S M).Reachable C k) : (program P M).Regular (value S) k ∧ Safe S M k :=
  Program.Reachable.invariant (Safe S M) h (.boot S M) fun _ _ _ _ hI _ hm => hI.move hm

/-! ### Conservation -/

/-- The person `i` has taken a unit of free space in the mailbox of `j`, or has made one by
reading, and has neither used nor returned it. -/
def HoldsSpace (M : ℕ) (k : State P) (i j : Fin P) : Prop := holdsSpace j (remaining M k i) = true

instance (M : ℕ) (k : State P) (i j : Fin P) : Decidable (HoldsSpace M k i j) :=
  inferInstanceAs (Decidable (_ = _))

/-- The person `i` has left. -/
def Returned (M : ℕ) (k : State P) (i : Fin P) : Prop := remaining M k i = []

instance (M : ℕ) (k : State P) (i : Fin P) : Decidable (Returned M k i) :=
  inferInstanceAs (Decidable (_ = _))

namespace Safe

variable {S : ℕ} {k : State P}

/-- A unit of free space is in the semaphore, used, or in the hands of a person. -/
theorem space_eq (h : Safe S M k) (j : Fin P) : (k.semaphore (.freeSpaceSemaphore j)).value +
    k.env.msgPtr j + (Finset.univ.filter fun i => HoldsSpace M k i j).card = S := by
  have hcard : ∑ i, load 1 (.freeSpaceSemaphore j) (spaceWeight i j) (remaining M k i) =
      (Finset.univ.filter fun i => HoldsSpace M k i j).card := by
    rw [Finset.natCast_card_filter]
    exact Finset.sum_congr rfl fun i _ => (h.staged i).space_load j
  have hspace := h.space j
  simp only [Program.balance] at hspace
  simp only [remaining] at hcard
  omega

theorem msgPtr_le (h : Safe S M k) (hreg : (program P M).Regular (value S) k) (j : Fin P) :
    k.env.msgPtr j ≤ S := by
  have hspace := h.space_eq j
  have hvalue := (hreg.counted (.freeSpaceSemaphore j)).nonneg
  omega

theorem finished_of_returned (h : Safe S M k) {i : Fin P} (hi : Returned M k i) :
    k.env.Finished M := by
  have hst := h.staged i
  rw [hi] at hst
  generalize hd : k.env.done i = d at hst
  cases hst
  exact h.sound.finished i hd

end Safe

/-- In every state that `P` people reach with mailboxes of capacity `S` and `M` messages, no
mailbox holds less than nothing or more than its capacity, the units of free space are conserved,
at most `M` messages have been sent, every message that has been sent is in the mailbox of its
recipient or has been read by it, once, and nobody has left unless `M` messages have been sent and
all mailboxes are empty. -/
theorem postOfficeSemaphore_conserves {S : ℕ} (k : State P)
    (h : (system P S M).Reachable Always k) :
    (∀ j, 0 ≤ k.env.msgPtr j ∧ k.env.msgPtr j ≤ S) ∧
      (∀ j, (k.semaphore (.freeSpaceSemaphore j)).value + k.env.msgPtr j +
        (Finset.univ.filter fun i => HoldsSpace M k i j).card = S) ∧
      k.env.msgSentCnt ≤ M ∧
      (∀ j, (k.env.sentTo j).Perm (k.env.read j ++ k.env.inBox j) ∧
        (k.env.read j ++ k.env.inBox j).Nodup) ∧
      ∀ i, Returned M k i → k.env.msgSentCnt = M ∧ ∀ j, (k.env.sentTo j).Perm (k.env.read j) := by
  obtain ⟨hreg, hsafe⟩ := safe_of_reachable h
  refine ⟨fun j => ⟨hsafe.sound.msgPtr_nonneg j, hsafe.msgPtr_le hreg j⟩, hsafe.space_eq,
    hsafe.sound.msgSentCnt_le, fun j => ⟨hsafe.sound.delivered j, hsafe.sound.nodup j⟩,
    fun i hi => ?_⟩
  exact (hsafe.finished_of_returned hi).all_read hsafe.sound.toKept

theorem postOfficeSemaphore_conserves_of_two :
    ∃ k, (system 2 1 1).Reachable Always k ∧ Returned 1 k 0 ∧
      k.env.msgSentCnt = 1 ∧ ∀ j, (k.env.sentTo j).Perm (k.env.read j) := by
  obtain ⟨k, hk, ht⟩ := exists_reachable_of_runInputs (S := system 2 1 1) rfl
    ((List.range 127).map fun n => ⟨[], n⟩) (fun k => decide (Returned 1 k 0)) (by decide +kernel)
  have hleft : Returned 1 k 0 := of_decide_eq_true ht
  obtain ⟨-, -, -, -, hend⟩ := postOfficeSemaphore_conserves k hk
  exact ⟨k, hk, hleft, hend 0 hleft⟩

end Nachos.Threads.PostOfficeSemaphore
