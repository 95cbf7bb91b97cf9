import Nachos.Foundations.WaitGraph
import Nachos.Threads.PostOfficeSemaphore

/-!
# Circles of people that wait for free space

A person of `PostOfficeSemaphore` that has read its mail waits in `freeSpaceSemaphore[r]->P()` for
free space in the mailbox of its recipient, and reads no mail while it waits. If the mailboxes of
people that wait for each other in a circle are full, none of them gets on again, and sooner or
later everybody waits for one of them. `PostOfficeLoop` gives up after three attempts "due to
potential deadlock"; `PostOfficeSemaphore` does not.

A circle closes when somebody stores the message that fills the last mailbox, or when somebody
goes to sleep once more whose own mailbox has been filled in the meantime. As long as no step
closes a circle, there is no deadlock.

## Main definitions

* `WaitsForSpace`: a person waits for free space in a full mailbox.
* `ClosesCircle`: the step that goes wrong.

## Main results

* `not_deadlock_of_not_closesCircle`: no deadlock as long as no circle is closed.
* `postOfficeSemaphore_deadlock`: three people with two messages reach a deadlock.
-/

namespace Nachos.Threads.PostOfficeSemaphore

open Function Foundations StepSystem Relation

variable {P : ℕ}

/-- The person `i` waits for free space in the mailbox of `j`, which is full. -/
def WaitsForSpace (S : ℕ) (k : State P) (i j : Fin P) : Prop :=
  .forked i ∈ (k.semaphore (.freeSpaceSemaphore j)).queue ∧ k.env.msgPtr j = S

/-- The next step closes a circle of people that wait for free space in full mailboxes: either
`i` goes to sleep, and `j`, for whose mailbox it waits, waits for `i` already; or `i` fills the
mailbox of `r`, and `r` waits for somebody that waits for `r`. -/
def ClosesCircle (S M : ℕ) (k : State P) : Prop :=
  (∃ i j, Program.FallsAsleep k i (.freeSpaceSemaphore j) ∧ k.env.msgPtr j = S ∧
      ReflTransGen (WaitsForSpace S k) j i) ∨
    ∃ i r msg j, Program.IsNext k i (.sendMsg r msg) ∧ k.env.msgSentCnt < M ∧
      k.env.msgPtr r + 1 = S ∧ .forked j ∈ (k.semaphore (.freeSpaceSemaphore r)).queue ∧
      ReflTransGen (WaitsForSpace S k) r j

/-- A deadlock: some person has not left, and all that have not left sleep in `P`. -/
def Deadlock (M : ℕ) (k : State P) : Prop :=
  (∃ i, ¬ Returned M k i) ∧ ∀ i, ¬ Returned M k i → Program.Asleep k i

/-! ### No circle -/

/-- A piece of code stores a message, or no mailbox gets fuller. -/
theorem sends_or_le_of_execute {M random : ℕ} {i : Fin P} {o o' : Office P} {code : Code P}
    {ops : List (Op (Sem P) (Code P))} (hx : execute M i code random o = .ok (o', ops)) :
    (∃ r msg, code = .sendMsg r msg ∧ o.msgSentCnt < M ∧ o.deposit i r msg = .ok o') ∨
      ∀ j, o'.msgPtr j ≤ o.msgPtr j := by
  cases code with
  | readMsg =>
    simp only [execute] at hx
    obtain ⟨o₁, hread, he⟩ := map_eq_ok.1 hx
    obtain ⟨rfl, -⟩ := Prod.mk.inj he
    obtain ⟨-, rfl⟩ := Office.readMsg_eq_ok hread
    refine .inr fun j => ?_
    by_cases hj : j = i
    · subst hj
      simp
    · simp [hj]
  | sendMsg r msg =>
    simp only [execute] at hx
    split_ifs at hx with hleft
    · obtain ⟨o₁, hdep, he⟩ := map_eq_ok.1 hx
      obtain ⟨rfl, -⟩ := Prod.mk.inj he
      exact .inl ⟨r, msg, rfl, hleft, hdep⟩
    · obtain ⟨rfl, -⟩ := Prod.mk.inj (Except.ok.inj hx)
      exact .inr fun j => le_rfl
  | _ =>
    obtain ⟨rfl, -⟩ := Prod.mk.inj (Except.ok.inj hx)
    exact .inr fun j => le_rfl

/-- Nobody waits in a circle. -/
def NoCircle (S : ℕ) (k : State P) : Prop := ∀ i, ¬ TransGen (WaitsForSpace S k) i i

namespace NoCircle

variable {S M : ℕ} {k k' : State P} {input : Input Empty ℕ}

theorem boot : NoCircle S (Program.boot (value S) (.init P) : State P) := by
  intro i hi
  obtain ⟨j, ⟨hj, -⟩, -⟩ := TransGen.head'_iff.1 hi
  simp [Threads.boot] at hj

/-- Fewer people wait. -/
private theorem of_le (h : NoCircle S k)
    (hle : ∀ i j, WaitsForSpace S k' i j → WaitsForSpace S k i j) : NoCircle S k' :=
  fun i hi => h i (TransGen.mono hle i i hi)

/-- A person stores a message, and this does not close a circle. -/
private theorem deposit (h : NoCircle S k) {i r : Fin P} {msg : String}
    (hnot : ∀ j, k.env.msgPtr r + 1 = S →
      .forked j ∈ (k.semaphore (.freeSpaceSemaphore r)).queue →
      ¬ ReflTransGen (WaitsForSpace S k) r j)
    (hsem : k'.semaphore = k.semaphore) (hdep : k.env.deposit i r msg = .ok k'.env) :
    NoCircle S k' := by
  intro a ha
  obtain ⟨-, henv⟩ := Office.deposit_eq_ok hdep
  obtain ⟨b, ⟨hptr, hb⟩, hrb⟩ := exists_reflTransGen_of_transGen (R := WaitsForSpace S k)
    (N := fun a => k.env.msgPtr r + 1 = S ∧
      .forked a ∈ (k.semaphore (.freeSpaceSemaphore r)).queue) (r := r) (fun a b hab => by
      obtain ⟨hq, hfull⟩ := hab
      rw [hsem] at hq
      rw [henv] at hfull
      by_cases hb : b = r
      · subst hb
        exact .inr ⟨⟨by simpa using hfull, hq⟩, rfl⟩
      · exact .inl ⟨hq, by simpa [hb] using hfull⟩) h ha
  exact hnot b hptr hb hrb

/-- A person goes to sleep, and this does not close a circle. -/
private theorem wait (h : NoCircle S k) {i : Fin P} {s : Sem P}
    (hnot : ∀ j, s = .freeSpaceSemaphore j → k.env.msgPtr j = S →
      ¬ ReflTransGen (WaitsForSpace S k) j i)
    (hsem : k'.semaphore = update k.semaphore s
      { k.semaphore s with queue := (k.semaphore s).queue ++ [.forked i] })
    (henv : k'.env = k.env) : NoCircle S k' := by
  by_cases hs : ∃ j, s = .freeSpaceSemaphore j
  · obtain ⟨j, rfl⟩ := hs
    intro a ha
    obtain ⟨b, ⟨rfl, hptr⟩, hjb⟩ := exists_reflTransGen_of_transGen (R := WaitsForSpace S k)
      (N := fun a => a = i ∧ k.env.msgPtr j = S) (r := j) (fun a b hab => by
        obtain ⟨hq, hfull⟩ := hab
        rw [henv] at hfull
        by_cases hb : b = j
        · subst hb
          rw [hsem, update_self, List.mem_append] at hq
          rcases hq with hq | hq
          · exact .inl ⟨hq, hfull⟩
          · obtain rfl : a = i := by simpa using hq
            exact .inr ⟨⟨rfl, hfull⟩, rfl⟩
        · exact .inl ⟨by simpa [hsem, hb] using hq, hfull⟩) h ha
    exact hnot j rfl hptr hjb
  · refine h.of_le fun a b hab => ?_
    obtain ⟨hq, hfull⟩ := hab
    have hb : .freeSpaceSemaphore b ≠ s := fun he => hs ⟨b, he.symm⟩
    exact ⟨by simpa [hsem, hb] using hq, henv ▸ hfull⟩

/-- A move that does not close a circle. -/
theorem move (h : NoCircle S k) (hsafe : Safe S M k) (hreg : (program P M).Regular (value S) k)
    (hnot : ¬ ClosesCircle S M k) (hm : (program P M).Move k input k') : NoCircle S k' := by
  cases hm with
  | exec i code rest ops hx =>
    obtain ⟨r, msg, rfl, hleft, hdep⟩ | hle := sends_or_le_of_execute hx.exec
    · refine h.deposit (fun j hptr hj hrj => hnot ?_) hx.semaphore hdep
      exact .inr ⟨i, r, msg, j, hx.isNext, hleft, hptr, hj, hrj⟩
    · refine h.of_le fun a b hab => ⟨hx.semaphore ▸ hab.1, ?_⟩
      have hfull := hab.2
      have hb := hle b
      have := hsafe.msgPtr_le hreg b
      omega
  | wait i s rest hrem hvalue hrem' hsem henv hasleep =>
    refine h.wait (fun j hs hptr hji => hnot (.inl ⟨i, j, hs ▸ hasleep, hptr, hji⟩)) hsem henv
  | take i s rest hrem hvalue hrem' hsem henv =>
    refine h.of_le fun a b hab => ⟨?_, henv ▸ hab.2⟩
    have hq := hab.1
    by_cases hb : .freeSpaceSemaphore b = s
    · simpa [hsem, hb] using hq
    · simpa [hsem, hb] using hq
  | wake i s rest hrem hrem' hsem henv =>
    refine h.of_le fun a b hab => ⟨?_, henv ▸ hab.2⟩
    have hq := hab.1
    by_cases hb : .freeSpaceSemaphore b = s
    · subst hb
      rw [hsem, update_self] at hq
      exact List.mem_of_mem_tail hq
    · simpa [hsem, hb] using hq
  | silent hrem' hsem henv => exact h.of_le fun a b hab => ⟨hsem ▸ hab.1, henv ▸ hab.2⟩

end NoCircle

/-! ### Who sleeps where -/

/-- The mailboxes and the message counter are locked with one unit each. -/
structure Locks (M : ℕ) (k : State P) : Prop where
  box : ∀ j, (program P M).balance 1 (.mailboxSemaphore j) (fun _ _ => 0) (fun _ => 0) k = 1
  cnt : (program P M).balance 1 .msgCntSemaphore (fun _ _ => 0) (fun _ => 0) k = 1

/-- The code returns no unit of a lock that it has not taken, and keeps none. -/
theorem lock_of_execute {M random : ℕ} {i : Fin P} {o o' : Office P} {code : Code P}
    {ops : List (Op (Sem P) (Code P))} {s : Sem P} (hs : ∀ j, s ≠ .freeSpaceSemaphore j)
    (hx : execute M i code random o = .ok (o', ops)) : load 1 s (fun _ => 0) ops = 0 := by
  have hs' : ∀ j, Sem.freeSpaceSemaphore j ≠ s := fun j => (hs j).symm
  cases code with
  | readMsg =>
    simp only [execute] at hx
    obtain ⟨o₁, -, he⟩ := map_eq_ok.1 hx
    obtain ⟨-, rfl⟩ := Prod.mk.inj he
    rfl
  | sendMsg r msg =>
    simp only [execute] at hx
    split_ifs at hx
    · obtain ⟨o₁, -, he⟩ := map_eq_ok.1 hx
      obtain ⟨-, rfl⟩ := Prod.mk.inj he
      rfl
    · obtain ⟨-, rfl⟩ := Prod.mk.inj (Except.ok.inj hx)
      simp [Op.weight, hs']
  | whileNotDone | chooseRecipient =>
    obtain ⟨-, rfl⟩ := Prod.mk.inj (Except.ok.inj hx)
    split_ifs <;> simp [Op.weight]
  | whileMail =>
    obtain ⟨-, rfl⟩ := Prod.mk.inj (Except.ok.inj hx)
    by_cases hb : .mailboxSemaphore i = s <;> split_ifs <;> simp [Op.weight, hs', hb]
  | chooseMsg r =>
    obtain ⟨-, rfl⟩ := Prod.mk.inj (Except.ok.inj hx)
    by_cases hb : .mailboxSemaphore r = s <;> by_cases hc : .msgCntSemaphore = s <;>
      simp [Op.weight, hs', hb, hc]
  | stall | checkDone =>
    obtain ⟨-, rfl⟩ := Prod.mk.inj (Except.ok.inj hx)
    simp

namespace Locks

variable {S M : ℕ} {k k' : State P} {input : Input Empty ℕ}

theorem boot : Locks M (Program.boot (value S) (.init P) : State P) := by
  constructor <;> intros <;> rw [Program.balance_boot] <;> simp [value]

theorem move (h : Locks M k) (hm : (program P M).Move k input k') : Locks M k' := by
  constructor
  · intro j
    refine Eq.trans (hm.balance_eq fun i code rest ops hx => ?_) (h.box j)
    rw [lock_of_execute (by simp) hx.exec]
  · refine Eq.trans (hm.balance_eq fun i code rest ops hx => ?_) h.cnt
    rw [lock_of_execute (by simp) hx.exec]

end Locks

/-- The points of the program at which a person can sleep. -/
theorem Stage.eq_of_p {i : Fin P} {d : Bool} {s : Sem P} {rest : List (Op (Sem P) (Code P))}
    (h : Stage i d (.p s :: rest)) :
    s = .mailboxSemaphore i ∧ rest = .run .readMsg :: .v (.freeSpaceSemaphore i) ::
        .v (.mailboxSemaphore i) :: nextMail ∨
      ∃ r msg, s = .freeSpaceSemaphore r ∧ rest = .p (.mailboxSemaphore r) :: .p .msgCntSemaphore ::
          .run (.sendMsg r msg) :: .v (.mailboxSemaphore r) :: .v .msgCntSemaphore :: leave ∨
        s = .mailboxSemaphore r ∧ rest = .p .msgCntSemaphore :: .run (.sendMsg r msg) ::
          .v (.mailboxSemaphore r) :: .v .msgCntSemaphore :: leave ∨
        s = .msgCntSemaphore ∧ rest = .run (.sendMsg r msg) :: .v (.mailboxSemaphore r) ::
          .v .msgCntSemaphore :: leave := by
  cases h with
  | lockBox => exact .inl ⟨rfl, rfl⟩
  | claimSpace r msg => exact .inr ⟨r, msg, .inl ⟨rfl, rfl⟩⟩
  | claimBox r msg => exact .inr ⟨r, msg, .inr (.inl ⟨rfl, rfl⟩)⟩
  | claimCnt r msg => exact .inr ⟨r, msg, .inr (.inr ⟨rfl, rfl⟩)⟩

/-! ### A state in which everybody sleeps -/

section Stuck

variable {S M : ℕ} {k : State P}

/-- All that have not left sleep. -/
structure Stuck (S M : ℕ) (k : State P) : Prop where
  regular : (program P M).Regular (value S) k
  safe : Safe S M k
  locks : Locks M k
  asleep : ∀ i, ¬ Returned M k i → Program.Asleep k i

namespace Stuck

/-- Everybody has left or waits in `P`. -/
theorem returned_or_waits (h : Stuck S M k) (i : Fin P) : remaining M k i = [] ∨
    ∃ s rest, remaining M k i = .p s :: rest ∧ (k.semaphore s).value = 0 := by
  by_cases hi : Returned M k i
  · exact .inl hi
  · obtain ⟨s, hs⟩ := h.asleep i hi
    obtain ⟨rest, hrest⟩ := h.regular.remaining_of_mem_queue hs
    exact .inr ⟨s, rest, hrest, h.regular.value_eq_zero h.asleep hs⟩

/-- If everybody sleeps, nobody has the message counter, so nobody waits for it. -/
theorem value_msgCntSemaphore (h : Stuck S M k) : (k.semaphore .msgCntSemaphore).value = 1 := by
  have hnone : ∀ i, load 1 .msgCntSemaphore (fun _ => 0) (remaining M k i) = 0 := by
    intro i
    obtain hi | ⟨s, rest, hi, -⟩ := h.returned_or_waits i
    · rw [hi, load_nil]
    · have hst := h.safe.staged i
      rw [hi] at hst ⊢
      obtain ⟨rfl, rfl⟩ | ⟨r, msg, ⟨rfl, rfl⟩ | ⟨rfl, rfl⟩ | ⟨rfl, rfl⟩⟩ := hst.eq_of_p <;>
        simp [Op.weight]
  have hcnt := h.locks.cnt
  simp only [Program.balance, remaining] at hcnt hnone
  simpa [hnone] using hcnt

/-- Then nobody has a mailbox either. -/
theorem value_mailboxSemaphore (h : Stuck S M k) (j : Fin P) :
    (k.semaphore (.mailboxSemaphore j)).value = 1 := by
  have hnone : ∀ i, load 1 (.mailboxSemaphore j) (fun _ => 0) (remaining M k i) = 0 := by
    intro i
    obtain hi | ⟨s, rest, hi, hzero⟩ := h.returned_or_waits i
    · rw [hi, load_nil]
    · have hst := h.safe.staged i
      rw [hi] at hst ⊢
      obtain ⟨rfl, rfl⟩ | ⟨r, msg, ⟨rfl, rfl⟩ | ⟨rfl, rfl⟩ | ⟨rfl, rfl⟩⟩ := hst.eq_of_p
      · by_cases hj : i = j <;> simp [Op.weight, hj]
      · by_cases hj : r = j <;> simp [Op.weight, hj]
      · by_cases hj : r = j <;> simp [Op.weight, hj]
      · simp [h.value_msgCntSemaphore] at hzero
  have hbox := h.locks.box j
  simp only [Program.balance, remaining] at hbox hnone
  simpa [hnone] using hbox

/-- Everybody that has not left waits for free space. -/
theorem returned_or_waitsForSpace (h : Stuck S M k) (i : Fin P) : remaining M k i = [] ∨
    ∃ r msg, remaining M k i = .p (.freeSpaceSemaphore r) :: .p (.mailboxSemaphore r) ::
      .p .msgCntSemaphore :: .run (.sendMsg r msg) :: .v (.mailboxSemaphore r) ::
      .v .msgCntSemaphore :: leave ∧ (k.semaphore (.freeSpaceSemaphore r)).value = 0 := by
  refine (h.returned_or_waits i).imp_right ?_
  rintro ⟨s, rest, hi, hzero⟩
  have hst := h.safe.staged i
  rw [hi] at hst
  obtain ⟨rfl, rfl⟩ | ⟨r, msg, ⟨rfl, rfl⟩ | ⟨rfl, rfl⟩ | ⟨rfl, rfl⟩⟩ := hst.eq_of_p
  · simp [h.value_mailboxSemaphore] at hzero
  · exact ⟨r, msg, hi, hzero⟩
  · simp [h.value_mailboxSemaphore] at hzero
  · simp [h.value_msgCntSemaphore] at hzero

/-- The mailbox for which somebody waits is full. -/
theorem msgPtr_eq (h : Stuck S M k) {j : Fin P}
    (hzero : (k.semaphore (.freeSpaceSemaphore j)).value = 0) : k.env.msgPtr j = S := by
  have hnone : ∀ i, ¬ HoldsSpace M k i j := by
    intro i
    unfold HoldsSpace
    obtain hi | ⟨r, msg, hi, -⟩ := h.returned_or_waitsForSpace i
    · simp [hi, holdsSpace]
    · by_cases hr : r = j <;> simp [hi, holdsSpace, hr]
  have hspace := h.safe.space_eq j
  simpa [hnone, hzero] using hspace

/-- Everybody that has not left waits for somebody that has not left either. -/
theorem exists_waitsForSpace (hS : 1 ≤ S) (h : Stuck S M k) {i : Fin P} (hi : ¬ Returned M k i) :
    ∃ j, ¬ Returned M k j ∧ WaitsForSpace S k i j := by
  obtain ⟨s, hs⟩ := h.asleep i hi
  obtain ⟨rest, hrest⟩ := h.regular.remaining_of_mem_queue hs
  obtain hnil | ⟨j, msg, hj, hzero⟩ := h.returned_or_waitsForSpace i
  · exact absurd hnil hi
  obtain rfl : s = .freeSpaceSemaphore j := by
    have he := hrest.symm.trans hj
    simpa using (List.cons.inj he).1
  have hfull := h.msgPtr_eq hzero
  refine ⟨j, fun hret => ?_, hs, hfull⟩
  have := (h.safe.finished_of_returned hret).2 j
  omega

end Stuck

end Stuck

/-- In every run in which no step closes a circle of people that wait for free space in full
mailboxes, no deadlock is reached. -/
theorem not_deadlock_of_not_closesCircle {S M : ℕ} (hS : 1 ≤ S) (k : State P)
    (h : (system P S M).Reachable (fun k _ => ¬ ClosesCircle S M k) k) : ¬ Deadlock M k := by
  obtain ⟨hreg, hsafe, hlocks, hno⟩ := Program.Reachable.invariant
    (fun k => Safe S M k ∧ Locks M k ∧ NoCircle S k) h ⟨.boot S M, .boot, .boot⟩
    fun _ _ _ hreg hI hC hm => ⟨hI.1.move hm, hI.2.1.move hm, hI.2.2.move hI.1 hreg hC hm⟩
  rintro ⟨⟨i, hi⟩, hall⟩
  have hstuck : Stuck S M k := ⟨hreg, hsafe, hlocks, hall⟩
  obtain ⟨j, hj⟩ := exists_transGen_of_forall_exists (R := WaitsForSpace S k) hi
    fun i hi => hstuck.exists_waitsForSpace hS hi
  exact hno j hj

/-- The choices that lead three people with two messages and mailboxes for one message to a
deadlock: the first one is preempted while it has a unit of free space in the mailbox of the
third, for which the second waits; the third sends a message to the second and wants to send
another one, and then the first one fills the mailbox of the third. -/
def deadlockInputs : List (Input Empty ℕ) :=
  (List.range 122).map fun n =>
    ⟨if n ∈ [24, 63, 73] then [.timer] else [], if 36 ≤ n ∧ n < 87 then 4 else 2⟩

theorem postOfficeSemaphore_deadlock :
    ∃ k, (system 3 1 2).Reachable Always k ∧ Deadlock 2 k := by
  obtain ⟨k, hk, ht⟩ := exists_reachable_of_runInputs (S := system 3 1 2) rfl
    deadlockInputs (fun k => decide ((∀ i, ¬ Returned 2 k i) ∧ ∀ i : Fin 3, Participant.forked i ∈
      (k.semaphore (.freeSpaceSemaphore (if i = 2 then 1 else 2))).queue))
    (by decide +kernel)
  obtain ⟨hnot, hasleep⟩ := of_decide_eq_true ht
  exact ⟨k, hk, ⟨0, hnot 0⟩, fun i _ => ⟨_, hasleep i⟩⟩

/-- A test that closes no circle: whoever has free space that others wait for does not wait. -/
def waitsInLine (k : State P) : Bool :=
  decide (∀ j, (k.semaphore (.freeSpaceSemaphore j)).queue ≠ [] ∨
      (∃ i, Program.FallsAsleep k i (.freeSpaceSemaphore j)) →
    ¬Program.FallsAsleep k j (.freeSpaceSemaphore j) ∧
      ∀ r, ∀ i ∈ (k.semaphore (.freeSpaceSemaphore r)).queue, i ≠ .forked j)

theorem not_closesCircle_of_waitsInLine {S M : ℕ} {k : State P} (h : waitsInLine k = true) :
    ¬ClosesCircle S M k := by
  have hline := of_decide_eq_true h
  have hself {j i : Fin P}
      (hj : ∀ r, ∀ i ∈ (k.semaphore (.freeSpaceSemaphore r)).queue, i ≠ .forked j)
      (hpath : ReflTransGen (WaitsForSpace S k) j i) : i = j := by
    obtain rfl | ⟨r, hr, -⟩ := ReflTransGen.cases_head hpath
    · rfl
    · exact absurd rfl (hj r _ hr.1)
  rintro (⟨i, j, hasleep, -, hpath⟩ | ⟨i, r, msg, j, -, -, -, hj, hpath⟩)
  · obtain ⟨hno, hwaits⟩ := hline j (.inr ⟨i, hasleep⟩)
    exact hno (hself hwaits hpath ▸ hasleep)
  · obtain ⟨-, hwaits⟩ := hline r (.inl (List.ne_nil_of_mem hj))
    obtain rfl := hself hwaits hpath
    exact hwaits j _ hj rfl

/-- Two people with three messages and mailboxes for one message: the second one waits for free
space in the mailbox of the first. -/
theorem not_deadlock_of_waiting :
    ∃ k, (system 2 1 3).Reachable (fun k _ => ¬ClosesCircle 1 3 k) k ∧ k.env.msgSentCnt = 2 ∧
      .forked 1 ∈ (k.semaphore (.freeSpaceSemaphore 0)).queue ∧ ¬Deadlock 3 k := by
  obtain ⟨k, hk, ht⟩ := exists_reachable_of_runInputsIf (S := system 2 1 3)
    (C := fun k _ => ¬ClosesCircle 1 3 k) rfl (c := fun k _ => waitsInLine k)
    (fun k _ => not_closesCircle_of_waitsInLine)
    ((List.range 119).map fun n => ⟨if n = 39 then [.timer] else [], n⟩)
    (fun k => decide (k.env.msgSentCnt = 2 ∧
      .forked 1 ∈ (k.semaphore (.freeSpaceSemaphore 0)).queue))
    (by decide +kernel)
  obtain ⟨hsent, hwaits⟩ := of_decide_eq_true ht
  exact ⟨k, hk, hsent, hwaits, not_deadlock_of_not_closesCircle le_rfl k hk⟩

end Nachos.Threads.PostOfficeSemaphore
