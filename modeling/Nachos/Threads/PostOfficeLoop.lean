import Nachos.Threads.Balance
import Nachos.Threads.PostOffice

/-!
# The post office with busy waiting

The function `PostOfficeLoop` as a program for the `P` people that `ThreadTest` forks in task 5.
A person that wants to send a message holds `MsgCntSemaphore` while it waits for free space, and
gives up after three attempts. Since only the holder of `MsgCntSemaphore` sends, the space that it
has found stays free until it has stored its message.

## Main definitions

* `Globals`: the office and the local variables.
* `execute`, `program`: the program.
* `At`: the points of the program.
* `Safe`: the invariant.

## Main results

* `postOfficeLoop_safe`: no message is lost or duplicated, and nobody is stuck.
-/

namespace Nachos.Threads.PostOfficeLoop

open Function Foundations StepSystem

variable {P : ℕ}

/-! ### The program -/

/-- The semaphores of the task. -/
inductive Sem (P : ℕ)
  | mailboxSemaphore (j : Fin P)
  | msgCntSemaphore
  deriving DecidableEq

/-- The pieces of code. The choices of `iSendTo` and `msgSent` are part of the code that uses
them. -/
inductive Code (P : ℕ)
  /-- `while (done[i] != true)`. -/
  | whileNotDone
  /-- `while (MsgPtr[i] != 0)`. -/
  | whileMail
  | readMsg
  /-- `if (MsgSentCnt < M)`. -/
  | ifMsgLeft
  /-- `do { iSendTo = Random() % P; } while (iSendTo == i)`. -/
  | chooseRecipient
  | chooseMsg (iSendTo : Fin P)
  /-- `while (MsgPtr[iSendTo] == S && deadlock == false)`. -/
  | whileFull (iSendTo : Fin P)
  /-- `if (deadlock == false)`. -/
  | ifNotDeadlock (iSendTo : Fin P) (msgSent : String)
  | sendMsg (iSendTo : Fin P) (msgSent : String)
  | stall
  | checkDone
  deriving DecidableEq

/-- The shared variables, and the local variables of the people. -/
structure Globals (P : ℕ) extends Office P where
  sentCount : Fin P → ℤ
  deadlock : Fin P → Bool

/-- What the person `i` does; `random` is the value of `Random()`. -/
def execute (S M : ℕ) (i : Fin P) (code : Code P) (random : ℕ) (g : Globals P) :
    Except Fault (Globals P × List (Op (Sem P) (Code P))) :=
  match code with
  | .whileNotDone => .ok (g, if g.done i ≠ true then [.run .whileMail, .p .msgCntSemaphore,
      .run .ifMsgLeft, .v .msgCntSemaphore, .run .stall, .run .checkDone, .run .whileNotDone]
      else [])
  | .whileMail => .ok (g, if g.msgPtr i ≠ 0 then [.p (.mailboxSemaphore i), .run .readMsg,
      .v (.mailboxSemaphore i), .yield, .run .whileMail] else [])
  | .readMsg => (g.toOffice.readMsg i).map fun o => ({ g with toOffice := o }, [])
  | .ifMsgLeft => .ok (g, if g.msgSentCnt < M then [.run .chooseRecipient] else [])
  | .chooseRecipient =>
    let iSendTo : Fin P := ⟨random % P, random_mod_lt i random⟩
    .ok (g, if iSendTo = i then [.run .chooseRecipient] else [.run (.chooseMsg iSendTo)])
  | .chooseMsg iSendTo =>
    let msgSent := msgList.getD (random % 6) ""
    .ok (g, [.run (.whileFull iSendTo), .run (.ifNotDeadlock iSendTo msgSent)])
  | .whileFull iSendTo =>
    if g.msgPtr iSendTo = S ∧ g.deadlock i = false then
      let sentCount := g.sentCount i + 1
      .ok ({ g with
          sentCount := update g.sentCount i sentCount
          deadlock := update g.deadlock i (g.deadlock i || sentCount = 3) },
        [.yield, .run (.whileFull iSendTo)])
    else .ok (g, [])
  | .ifNotDeadlock iSendTo msgSent =>
    if g.deadlock i = false then
      .ok (g, [.p (.mailboxSemaphore iSendTo), .run (.sendMsg iSendTo msgSent),
        .v (.mailboxSemaphore iSendTo)])
    else
      .ok ({ g with
          deadlock := update g.deadlock i false
          sentCount := update g.sentCount i 0 }, [])
  | .sendMsg iSendTo msgSent =>
    (g.toOffice.deposit i iSendTo msgSent).map fun o => ({ g with toOffice := o }, [])
  | .stall => .ok (g, List.replicate (random % 4 + 2) .yield)
  | .checkDone => .ok ({ g with toOffice := g.toOffice.checkDone M i }, [])

/-- The function `PostOfficeLoop`. -/
def program (P S M : ℕ) : Program P (Sem P) (Code P) (Globals P) ℕ where
  start := .whileNotDone
  exec := execute S M

/-- The initial values of the semaphores. -/
def value : Sem P → ℕ
  | .mailboxSemaphore _ | .msgCntSemaphore => 1

/-- The variables as `ThreadTest` and the declarations in `PostOfficeLoop` initialise them. -/
def globals (P : ℕ) : Globals P where
  toOffice := .init P
  sentCount _ := 0
  deadlock _ := false

/-- The runs of the task for `P` people, mailboxes of capacity `S`, and `M` messages. -/
abbrev system (P S M : ℕ) := (program P S M).system value (globals P)

/-- The states of the task. -/
abbrev State (P : ℕ) := Kernel (Participant P) (Sem P) (TaskCode (Code P)) (Globals P)

/-- What the person `i` has still to execute. -/
abbrev remaining (S M : ℕ) (k : State P) (i : Fin P) : List (Op (Sem P) (Code P)) :=
  (program P S M).remaining k i

/-! ### The points of the program -/

/-- What follows the attempt to send a message. -/
abbrev leave : List (Op (Sem P) (Code P)) :=
  [.v .msgCntSemaphore, .run .stall, .run .checkDone, .run .whileNotDone]

/-- What follows the reading of a message. -/
abbrev nextMail : List (Op (Sem P) (Code P)) :=
  .run .whileMail :: .p .msgCntSemaphore :: .run .ifMsgLeft :: leave

/-- What the person `i` can have still to execute, and what it knows at that point: its mailbox is
not empty when it reads, and while it holds `MsgCntSemaphore`, there is a message left to send and
then space for it. -/
inductive At (S M : ℕ) (i : Fin P) (g : Globals P) : List (Op (Sem P) (Code P)) → Prop
  | whileNotDone : At S M i g [.run .whileNotDone]
  | whileMail (hd : g.done i = false) : At S M i g nextMail
  | lockBox (hd : g.done i = false) (hmail : 0 < g.msgPtr i) : At S M i g
      (.p (.mailboxSemaphore i) :: .run .readMsg :: .v (.mailboxSemaphore i) :: nextMail)
  | readMsg (hd : g.done i = false) (hmail : 0 < g.msgPtr i) : At S M i g
      (.run .readMsg :: .v (.mailboxSemaphore i) :: nextMail)
  | unlockBox (hd : g.done i = false) : At S M i g (.v (.mailboxSemaphore i) :: nextMail)
  | claimCnt (hd : g.done i = false) : At S M i g
      (.p .msgCntSemaphore :: .run .ifMsgLeft :: leave)
  | ifMsgLeft (hd : g.done i = false) : At S M i g (.run .ifMsgLeft :: leave)
  | chooseRecipient (hd : g.done i = false) (hleft : g.msgSentCnt < M) : At S M i g
      (.run .chooseRecipient :: leave)
  | chooseMsg (r : Fin P) (hd : g.done i = false) (hleft : g.msgSentCnt < M) : At S M i g
      (.run (.chooseMsg r) :: leave)
  | whileFull (r : Fin P) (msg : String) (hd : g.done i = false) (hleft : g.msgSentCnt < M) :
    At S M i g (.run (.whileFull r) :: .run (.ifNotDeadlock r msg) :: leave)
  | ifNotDeadlock (r : Fin P) (msg : String) (hd : g.done i = false) (hleft : g.msgSentCnt < M)
    (hspace : g.deadlock i = false → g.msgPtr r < S) : At S M i g
      (.run (.ifNotDeadlock r msg) :: leave)
  | claimBox (r : Fin P) (msg : String) (hd : g.done i = false) (hleft : g.msgSentCnt < M)
    (hspace : g.msgPtr r < S) : At S M i g (.p (.mailboxSemaphore r) ::
      .run (.sendMsg r msg) :: .v (.mailboxSemaphore r) :: leave)
  | sendMsg (r : Fin P) (msg : String) (hd : g.done i = false) (hleft : g.msgSentCnt < M)
    (hspace : g.msgPtr r < S) : At S M i g
      (.run (.sendMsg r msg) :: .v (.mailboxSemaphore r) :: leave)
  | releaseBox (r : Fin P) (hd : g.done i = false) : At S M i g
      (.v (.mailboxSemaphore r) :: leave)
  | releaseCnt (hd : g.done i = false) : At S M i g leave
  | stall (hd : g.done i = false) : At S M i g
      [.run .stall, .run .checkDone, .run .whileNotDone]
  | checkDone (hd : g.done i = false) : At S M i g [.run .checkDone, .run .whileNotDone]
  | left (hd : g.done i = true) : At S M i g []

variable {S M random : ℕ} {i : Fin P} {g g' : Globals P} {code : Code P}
  {rest ops : List (Op (Sem P) (Code P))}

namespace At

/-- Completing a call of the kernel leads to the next point. -/
theorem tail {o : Op (Sem P) (Code P)} (h : At S M i g (o :: rest)) (ho : ∀ code, o ≠ .run code) :
    At S M i g rest := by
  cases h with
  | lockBox hd hmail => exact .readMsg hd hmail
  | unlockBox hd => exact .whileMail hd
  | claimCnt hd => exact .ifMsgLeft hd
  | claimBox r msg hd hleft hspace => exact .sendMsg r msg hd hleft hspace
  | releaseBox r hd => exact .releaseCnt hd
  | releaseCnt hd => exact .stall hd
  | _ => exact absurd rfl (ho _)

/-- Executing code leads to the next point. -/
theorem execute (h : At S M i g (.run code :: rest)) (hnonneg : 0 ≤ g.msgPtr i)
    (hle : ∀ j, g.msgPtr j ≤ S) (hx : execute S M i code random g = .ok (g', ops)) :
    At S M i g' (ops.filter Op.isWork ++ rest) := by
  cases h with
  | whileNotDone =>
    obtain ⟨rfl, rfl⟩ := Prod.mk.inj (Except.ok.inj hx)
    split_ifs with hd
    · exact .whileMail (by simpa using hd)
    · exact .left (by simpa using hd)
  | whileMail hd =>
    obtain ⟨rfl, rfl⟩ := Prod.mk.inj (Except.ok.inj hx)
    split_ifs with hm
    · exact .lockBox hd (by omega)
    · exact .claimCnt hd
  | readMsg hd hmail =>
    simp only [PostOfficeLoop.execute] at hx
    obtain ⟨o, hread, he⟩ := map_eq_ok.1 hx
    obtain ⟨rfl, rfl⟩ := Prod.mk.inj he
    obtain ⟨-, rfl⟩ := Office.readMsg_eq_ok hread
    exact .unlockBox hd
  | ifMsgLeft hd =>
    obtain ⟨rfl, rfl⟩ := Prod.mk.inj (Except.ok.inj hx)
    split_ifs with hleft
    · exact .chooseRecipient hd hleft
    · exact .releaseCnt hd
  | chooseRecipient hd hleft =>
    obtain ⟨rfl, rfl⟩ := Prod.mk.inj (Except.ok.inj hx)
    split_ifs
    · exact .chooseRecipient hd hleft
    · exact .chooseMsg _ hd hleft
  | chooseMsg r hd hleft =>
    obtain ⟨rfl, rfl⟩ := Prod.mk.inj (Except.ok.inj hx)
    exact .whileFull r _ hd hleft
  | whileFull r msg hd hleft =>
    simp only [PostOfficeLoop.execute] at hx
    split_ifs at hx with hfull
    · obtain ⟨rfl, rfl⟩ := Prod.mk.inj (Except.ok.inj hx)
      exact .whileFull r msg hd hleft
    · obtain ⟨rfl, rfl⟩ := Prod.mk.inj (Except.ok.inj hx)
      refine .ifNotDeadlock r msg hd hleft fun hdead => ?_
      exact lt_of_le_of_ne (hle r) fun he => hfull ⟨he, hdead⟩
  | ifNotDeadlock r msg hd hleft hspace =>
    simp only [PostOfficeLoop.execute] at hx
    split_ifs at hx with hdead
    · obtain ⟨rfl, rfl⟩ := Prod.mk.inj (Except.ok.inj hx)
      exact .claimBox r msg hd hleft (hspace hdead)
    · obtain ⟨rfl, rfl⟩ := Prod.mk.inj (Except.ok.inj hx)
      exact .releaseCnt hd
  | sendMsg r msg hd hleft hspace =>
    simp only [PostOfficeLoop.execute] at hx
    obtain ⟨o, hdep, he⟩ := map_eq_ok.1 hx
    obtain ⟨rfl, rfl⟩ := Prod.mk.inj he
    obtain ⟨-, rfl⟩ := Office.deposit_eq_ok hdep
    exact .releaseBox r hd
  | stall hd =>
    obtain ⟨rfl, rfl⟩ := Prod.mk.inj (Except.ok.inj hx)
    rw [Op.filter_isWork_replicate_yield]
    exact .checkDone hd
  | checkDone hd =>
    obtain ⟨rfl, rfl⟩ := Prod.mk.inj (Except.ok.inj hx)
    exact .whileNotDone

/-- The units of `MsgCntSemaphore` that a person holds: at most one. -/
theorem cnt_load (h : At S M i g ops) :
    0 ≤ load 1 .msgCntSemaphore (fun _ => 0) ops := by
  cases h <;> simp [Op.weight]

/-- Another person acts. What this person knows about free space and messages left stays true
unless it does not hold `MsgCntSemaphore`. -/
theorem frame (h : At S M i g ops) (hdone : g'.done i = g.done i)
    (hdead : g'.deadlock i = g.deadlock i) (hmail : g.msgPtr i ≤ g'.msgPtr i)
    (hsend : load 1 .msgCntSemaphore (fun _ => 0) ops = 0 ∨
      g'.msgSentCnt = g.msgSentCnt ∧ ∀ j, g'.msgPtr j ≤ g.msgPtr j) : At S M i g' ops := by
  cases h with
  | whileNotDone => exact .whileNotDone
  | whileMail hd => exact .whileMail (hdone.trans hd)
  | lockBox hd hm => exact .lockBox (hdone.trans hd) (hm.trans_le hmail)
  | readMsg hd hm => exact .readMsg (hdone.trans hd) (hm.trans_le hmail)
  | unlockBox hd => exact .unlockBox (hdone.trans hd)
  | claimCnt hd => exact .claimCnt (hdone.trans hd)
  | ifMsgLeft hd => exact .ifMsgLeft (hdone.trans hd)
  | chooseRecipient hd hleft =>
    obtain ⟨hcnt, -⟩ := hsend.resolve_left (by simp [Op.weight])
    exact .chooseRecipient (hdone.trans hd) (hcnt ▸ hleft)
  | chooseMsg r hd hleft =>
    obtain ⟨hcnt, -⟩ := hsend.resolve_left (by simp [Op.weight])
    exact .chooseMsg r (hdone.trans hd) (hcnt ▸ hleft)
  | whileFull r msg hd hleft =>
    obtain ⟨hcnt, -⟩ := hsend.resolve_left (by simp [Op.weight])
    exact .whileFull r msg (hdone.trans hd) (hcnt ▸ hleft)
  | ifNotDeadlock r msg hd hleft hspace =>
    obtain ⟨hcnt, hptr⟩ := hsend.resolve_left (by simp [Op.weight])
    exact .ifNotDeadlock r msg (hdone.trans hd) (hcnt ▸ hleft)
      fun hdl => (hptr r).trans_lt (hspace (hdead ▸ hdl))
  | claimBox r msg hd hleft hspace =>
    obtain ⟨hcnt, hptr⟩ := hsend.resolve_left (by simp [Op.weight])
    exact .claimBox r msg (hdone.trans hd) (hcnt ▸ hleft) ((hptr r).trans_lt hspace)
  | sendMsg r msg hd hleft hspace =>
    obtain ⟨hcnt, hptr⟩ := hsend.resolve_left (by simp [Op.weight])
    exact .sendMsg r msg (hdone.trans hd) (hcnt ▸ hleft) ((hptr r).trans_lt hspace)
  | releaseBox r hd => exact .releaseBox r (hdone.trans hd)
  | releaseCnt hd => exact .releaseCnt (hdone.trans hd)
  | stall hd => exact .stall (hdone.trans hd)
  | checkDone hd => exact .checkDone (hdone.trans hd)
  | left hd => exact .left (hdone.trans hd)

end At

/-! ### What one piece of code does -/

/-- What a piece of code does to the office. -/
theorem change_of_execute (h : At S M i g (.run code :: rest))
    (hx : execute S M i code random g = .ok (g', ops)) :
    Office.Change M i g.toOffice g'.toOffice := by
  cases h with
  | readMsg hd hmail =>
    simp only [execute] at hx
    obtain ⟨o, hread, he⟩ := map_eq_ok.1 hx
    obtain ⟨rfl, -⟩ := Prod.mk.inj he
    exact .read hmail hread
  | sendMsg r msg hd hleft =>
    simp only [execute] at hx
    obtain ⟨o, hdep, he⟩ := map_eq_ok.1 hx
    obtain ⟨rfl, -⟩ := Prod.mk.inj he
    exact .send r msg hleft hdep
  | checkDone =>
    obtain ⟨rfl, -⟩ := Prod.mk.inj (Except.ok.inj hx)
    exact .check rfl
  | whileFull | ifNotDeadlock =>
    simp only [execute] at hx
    split_ifs at hx <;> obtain ⟨rfl, -⟩ := Prod.mk.inj (Except.ok.inj hx) <;> exact .same rfl
  | _ =>
    obtain ⟨rfl, -⟩ := Prod.mk.inj (Except.ok.inj hx)
    exact .same rfl

/-- A piece of code stores a message, or no message is sent and no mailbox gets fuller. -/
theorem sends_or_le_of_execute (hx : execute S M i code random g = .ok (g', ops)) :
    (∃ r msg, code = .sendMsg r msg) ∨
      g'.msgSentCnt = g.msgSentCnt ∧ ∀ j, g'.msgPtr j ≤ g.msgPtr j := by
  cases code with
  | readMsg =>
    simp only [execute] at hx
    obtain ⟨o, hread, he⟩ := map_eq_ok.1 hx
    obtain ⟨rfl, -⟩ := Prod.mk.inj he
    obtain ⟨-, rfl⟩ := Office.readMsg_eq_ok hread
    refine .inr ⟨rfl, fun j => ?_⟩
    by_cases hj : j = i
    · subst hj
      simp
    · simp [hj]
  | sendMsg r msg => exact .inl ⟨r, msg, rfl⟩
  | whileFull | ifNotDeadlock =>
    simp only [execute] at hx
    split_ifs at hx <;> obtain ⟨rfl, -⟩ := Prod.mk.inj (Except.ok.inj hx) <;>
      exact .inr ⟨rfl, fun j => le_rfl⟩
  | _ =>
    obtain ⟨rfl, -⟩ := Prod.mk.inj (Except.ok.inj hx)
    exact .inr ⟨rfl, fun j => le_rfl⟩

/-- A person does not change the local variables of another one. -/
theorem deadlock_of_execute {j : Fin P} (hj : j ≠ i)
    (hx : execute S M i code random g = .ok (g', ops)) : g'.deadlock j = g.deadlock j := by
  cases code with
  | readMsg | sendMsg =>
    simp only [execute] at hx
    obtain ⟨o, -, he⟩ := map_eq_ok.1 hx
    obtain ⟨rfl, -⟩ := Prod.mk.inj he
    rfl
  | whileFull | ifNotDeadlock =>
    simp only [execute] at hx
    split_ifs at hx <;> obtain ⟨rfl, -⟩ := Prod.mk.inj (Except.ok.inj hx) <;> simp [hj]
  | _ =>
    obtain ⟨rfl, -⟩ := Prod.mk.inj (Except.ok.inj hx)
    rfl

/-- The code returns every unit that it takes. -/
theorem lock_of_execute (hx : execute S M i code random g = .ok (g', ops)) (s : Sem P) :
    load 1 s (fun _ => 0) ops = 0 := by
  cases code with
  | readMsg | sendMsg =>
    simp only [execute] at hx
    obtain ⟨o, -, he⟩ := map_eq_ok.1 hx
    obtain ⟨-, rfl⟩ := Prod.mk.inj he
    rfl
  | whileFull =>
    simp only [execute] at hx
    split_ifs at hx <;> obtain ⟨-, rfl⟩ := Prod.mk.inj (Except.ok.inj hx) <;> simp [Op.weight]
  | ifNotDeadlock r msg =>
    simp only [execute] at hx
    split_ifs at hx <;> obtain ⟨-, rfl⟩ := Prod.mk.inj (Except.ok.inj hx)
    · by_cases hs : .mailboxSemaphore r = s <;> simp [Op.weight, hs]
    · rfl
  | whileNotDone =>
    obtain ⟨-, rfl⟩ := Prod.mk.inj (Except.ok.inj hx)
    by_cases hs : .msgCntSemaphore = s <;> split_ifs <;> simp [Op.weight, hs]
  | whileMail =>
    obtain ⟨-, rfl⟩ := Prod.mk.inj (Except.ok.inj hx)
    by_cases hs : .mailboxSemaphore i = s <;> split_ifs <;> simp [Op.weight, hs]
  | ifMsgLeft | chooseRecipient =>
    obtain ⟨-, rfl⟩ := Prod.mk.inj (Except.ok.inj hx)
    split_ifs <;> simp [Op.weight]
  | chooseMsg | stall | checkDone =>
    obtain ⟨-, rfl⟩ := Prod.mk.inj (Except.ok.inj hx)
    simp [Op.weight]

/-! ### The invariant -/

/-- What holds in every state of every run. -/
structure Safe (S M : ℕ) (k : State P) : Prop where
  points : ∀ i, At S M i k.env (remaining S M k i)
  locks : ∀ s, (program P S M).balance 1 s (fun _ _ => 0) (fun _ => 0) k = 1
  sound : k.env.Sound M
  msgPtr_le : ∀ j, k.env.msgPtr j ≤ S

namespace Safe

variable {k k' : State P} {input : Input Empty ℕ}

theorem boot (S M : ℕ) : Safe S M (Program.boot value (globals P) : State P) where
  points i := by
    unfold remaining
    rw [Program.remaining_boot]
    exact .whileNotDone
  locks s := by
    rw [Program.balance_boot]
    cases s <;> simp [value]
  sound := .init P M
  msgPtr_le _ := Int.natCast_nonneg S

/-- Only one person holds `MsgCntSemaphore`. -/
theorem cnt_load_eq_zero (h : Safe S M k) (hreg : (program P S M).Regular value k) {i j : Fin P}
    (hij : i ≠ j) (hi : load 1 .msgCntSemaphore (fun _ => 0) (remaining S M k i) = 1) :
    load 1 .msgCntSemaphore (fun _ => 0) (remaining S M k j) = 0 := by
  have hlow : ∀ i, 0 ≤ load 1 .msgCntSemaphore (fun _ => 0) (remaining S M k i) :=
    fun i => (h.points i).cnt_load
  have hle := Program.load_add_load_le (w := fun _ _ => 0) hlow hij
  have hsum := h.locks .msgCntSemaphore
  have hvalue := (hreg.counted .msgCntSemaphore).nonneg
  have hj := hlow j
  simp only [Program.balance, remaining] at hsum hle hi hj ⊢
  omega

/-- Another person executes code. -/
private theorem frame (h : Safe S M k) (hreg : (program P S M).Regular value k)
    (hx : (program P S M).Executes k input k' i code rest ops) {j : Fin P} (hj : j ≠ i)
    (hat : At S M j k.env (remaining S M k j)) : At S M j k'.env (remaining S M k j) := by
  have hi : At S M i k.env (.run code :: rest) := hx.remaining ▸ h.points i
  obtain ⟨hdone, hmail⟩ := (change_of_execute hi hx.exec).frame hj
  refine hat.frame hdone (deadlock_of_execute hj hx.exec) hmail ?_
  refine (sends_or_le_of_execute hx.exec).imp_left ?_
  rintro ⟨r, msg, rfl⟩
  refine h.cnt_load_eq_zero hreg (Ne.symm hj) ?_
  rw [remaining, hx.remaining]
  cases hi
  simp [Op.weight]

/-- Whoever stores a message has found space for it. -/
private theorem msgPtr_le_of_execute (h : At S M i g (.run code :: rest))
    (hle : ∀ j, g.msgPtr j ≤ S) (hx : execute S M i code random g = .ok (g', ops)) (j : Fin P) :
    g'.msgPtr j ≤ S := by
  obtain ⟨r, msg, rfl⟩ | ⟨-, hptr⟩ := sends_or_le_of_execute hx
  · cases h with
    | sendMsg r msg hd hleft hspace =>
      simp only [execute] at hx
      obtain ⟨o, hdep, he⟩ := map_eq_ok.1 hx
      obtain ⟨rfl, -⟩ := Prod.mk.inj he
      obtain ⟨-, rfl⟩ := Office.deposit_eq_ok hdep
      by_cases hj : j = r
      · subst hj
        simp only [update_self]
        omega
      · simpa [hj] using hle j
  · exact (hptr j).trans (hle j)

theorem move (h : Safe S M k) (hreg : (program P S M).Regular value k)
    (hm : (program P S M).Move k input k') : Safe S M k' := by
  have hpoints : ∀ i, At S M i k'.env (remaining S M k' i) := by
    refine hm.forall_remaining (Q := At S M) h.points (fun i o rest hat ho => hat.tail ho) ?_ ?_
    · intro i code rest ops hx hat
      exact hat.execute (h.sound.msgPtr_nonneg i) h.msgPtr_le hx.exec
    · exact fun i code rest ops hx j hj hat => h.frame hreg hx hj hat
  have hlocks : ∀ s, (program P S M).balance 1 s (fun _ _ => 0) (fun _ => 0) k' = 1 := by
    intro s
    refine Eq.trans (hm.balance_eq fun i code rest ops hx => ?_) (h.locks s)
    rw [lock_of_execute hx.exec]
  obtain ⟨i, code, rest, ops, hx⟩ | hs := hm.executes_or_settles
  · have hat : At S M i k.env (.run code :: rest) := hx.remaining ▸ h.points i
    exact ⟨hpoints, hlocks, h.sound.change (change_of_execute hat hx.exec),
      msgPtr_le_of_execute hat h.msgPtr_le hx.exec⟩
  · exact ⟨hpoints, hlocks, hs.env ▸ h.sound, hs.env ▸ h.msgPtr_le⟩

end Safe

/-- The invariant holds in every state of every run. -/
theorem safe_of_reachable {k : State P} {C : State P → Input Empty ℕ → Prop}
    (h : (system P S M).Reachable C k) : (program P S M).Regular value k ∧ Safe S M k :=
  Program.Reachable.invariant (Safe S M) h (.boot S M) fun _ _ _ hreg hI _ hm => hI.move hreg hm

/-! ### Safety -/

/-- The person `i` has left. -/
def Returned (S M : ℕ) (k : State P) (i : Fin P) : Prop := remaining S M k i = []

instance (S M : ℕ) (k : State P) (i : Fin P) : Decidable (Returned S M k i) :=
  inferInstanceAs (Decidable (_ = _))

/-- The points of the program at which a person can sleep. -/
theorem At.eq_of_p {s : Sem P} (h : At S M i g (.p s :: rest)) :
    s = .mailboxSemaphore i ∧ rest = .run .readMsg :: .v (.mailboxSemaphore i) :: nextMail ∨
      s = .msgCntSemaphore ∧ rest = .run .ifMsgLeft :: leave ∨
      ∃ r msg, s = .mailboxSemaphore r ∧
        rest = .run (.sendMsg r msg) :: .v (.mailboxSemaphore r) :: leave := by
  cases h with
  | lockBox => exact .inl ⟨rfl, rfl⟩
  | claimCnt => exact .inr (.inl ⟨rfl, rfl⟩)
  | claimBox r msg => exact .inr (.inr ⟨r, msg, rfl, rfl⟩)

namespace Safe

variable {k : State P}

theorem finished_of_returned (h : Safe S M k) (hi : Returned S M k i) :
    k.env.Finished M := by
  have hat := h.points i
  rw [hi] at hat
  cases hat with
  | left hd => exact h.sound.finished i hd

/-- Somebody that has not left does not sleep: a mailbox is locked only by somebody that goes on,
and so is then `MsgCntSemaphore`. -/
theorem exists_not_asleep (h : Safe S M k) (hreg : (program P S M).Regular value k)
    (hi : ¬ Returned S M k i) : ∃ j, ¬ Returned S M k j ∧ ¬ Program.Asleep k j := by
  by_contra hall
  have hall : ∀ j, ¬ Returned S M k j → Program.Asleep k j := by
    intro j hj
    by_contra hasleep
    exact hall ⟨j, hj, hasleep⟩
  have hwaits : ∀ j, remaining S M k j = [] ∨ ∃ s rest, remaining S M k j = .p s :: rest ∧
      (k.semaphore s).value = 0 := by
    intro j
    by_cases hj : Returned S M k j
    · exact .inl hj
    · obtain ⟨s, hs⟩ := hall j hj
      obtain ⟨rest, hrest⟩ := hreg.remaining_of_mem_queue hs
      exact .inr ⟨s, rest, hrest, hreg.value_eq_zero hall hs⟩
  have hbox : ∀ b, (k.semaphore (.mailboxSemaphore b)).value = 1 := by
    intro b
    have hnone : ∀ j, load 1 (.mailboxSemaphore b) (fun _ => 0) (remaining S M k j) = 0 := by
      intro j
      obtain hj | ⟨s, rest, hj, -⟩ := hwaits j
      · rw [hj, load_nil]
      · have hat := h.points j
        rw [hj] at hat ⊢
        obtain ⟨rfl, rfl⟩ | ⟨rfl, rfl⟩ | ⟨r, msg, rfl, rfl⟩ := hat.eq_of_p
        · by_cases hb : j = b <;> simp [Op.weight, hb]
        · simp [Op.weight]
        · by_cases hb : r = b <;> simp [Op.weight, hb]
    have hsum := h.locks (.mailboxSemaphore b)
    simp only [Program.balance, remaining] at hsum hnone
    simpa [hnone] using hsum
  have hcnt : (k.semaphore .msgCntSemaphore).value = 1 := by
    have hnone : ∀ j, load 1 .msgCntSemaphore (fun _ => 0) (remaining S M k j) = 0 := by
      intro j
      obtain hj | ⟨s, rest, hj, hzero⟩ := hwaits j
      · rw [hj, load_nil]
      · have hat := h.points j
        rw [hj] at hat ⊢
        obtain ⟨rfl, rfl⟩ | ⟨rfl, rfl⟩ | ⟨r, msg, rfl, rfl⟩ := hat.eq_of_p
        · simp [hbox] at hzero
        · simp [Op.weight]
        · simp [hbox] at hzero
    have hsum := h.locks .msgCntSemaphore
    simp only [Program.balance, remaining] at hsum hnone
    simpa [hnone] using hsum
  obtain hnil | ⟨s, rest, -, hzero⟩ := hwaits i
  · exact hi hnil
  · cases s with
    | mailboxSemaphore b => simp [hbox] at hzero
    | msgCntSemaphore => simp [hcnt] at hzero

end Safe

/-- In every state that `P` people reach with mailboxes of capacity `S` and `M` messages, no
mailbox holds less than nothing or more than its capacity, at most `M` messages have been sent,
as many as have been read or are in a mailbox, every message that has been sent is in the mailbox
of its recipient or has been read by it, once, nobody has left unless `M` messages have been sent
and read, and unless everybody has left, somebody does not sleep in `P`. -/
theorem postOfficeLoop_safe (k : State P) (h : (system P S M).Reachable Always k) :
    (∀ j, 0 ≤ k.env.msgPtr j ∧ k.env.msgPtr j ≤ S) ∧
      k.env.msgSentCnt ≤ M ∧
      k.env.msgSentCnt = ∑ j, ((k.env.read j).length : ℤ) + ∑ j, k.env.msgPtr j ∧
      (∀ j, (k.env.sentTo j).Perm (k.env.read j ++ k.env.inBox j) ∧
        (k.env.read j ++ k.env.inBox j).Nodup) ∧
      (∀ i, Returned S M k i →
        k.env.msgSentCnt = M ∧ ∀ j, (k.env.sentTo j).Perm (k.env.read j)) ∧
      ∀ i, ¬ Returned S M k i → ∃ j, ¬ Returned S M k j ∧ ¬ Program.Asleep k j := by
  obtain ⟨hreg, hsafe⟩ := safe_of_reachable h
  refine ⟨fun j => ⟨hsafe.sound.msgPtr_nonneg j, hsafe.msgPtr_le j⟩, hsafe.sound.msgSentCnt_le,
    hsafe.sound.msgSentCnt_eq, fun j => ⟨hsafe.sound.delivered j, hsafe.sound.nodup j⟩,
    fun i hi => ?_, fun i hi => hsafe.exists_not_asleep hreg hi⟩
  exact (hsafe.finished_of_returned hi).all_read hsafe.sound.toKept

theorem postOfficeLoop_safe_of_two :
    ∃ k, (system 2 1 1).Reachable Always k ∧ Returned 1 1 k 0 ∧
      k.env.msgSentCnt = 1 ∧ ∀ j, (k.env.sentTo j).Perm (k.env.read j) := by
  obtain ⟨k, hk, ht⟩ := exists_reachable_of_runInputs (S := system 2 1 1) rfl
    ((List.range 112).map fun n => ⟨[], n⟩) (fun k => decide (Returned 1 1 k 0))
    (by decide +kernel)
  have hleft : Returned 1 1 k 0 := of_decide_eq_true ht
  obtain ⟨-, -, -, -, hend, -⟩ := postOfficeLoop_safe k hk
  exact ⟨k, hk, hleft, hend 0 hleft⟩

end Nachos.Threads.PostOfficeLoop
