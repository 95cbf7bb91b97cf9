import Nachos.Threads.PostOfficeLoop

/-!
# The attempts of busy waiting senders

A person of `PostOfficeLoop` that finds the mailbox of its recipient full yields and tries again,
counts its tries in `sentCount`, and gives up "due to potential deadlock" at the third one. It sets
`sentCount` to 0 when it gives up, but not when it finds space and sends its message. So the tries
of an attempt that succeeds are counted for a later attempt as well, which gives up earlier.

A history variable counts the tries of the current attempt of each person.

## Main definitions

* `record`, `attempts`: the runs with the numbers of tries.
* `CountsEarlierTries`: the step that goes wrong.

## Main results

* `three_tries_of_not_countsEarlierTries`: who gives up has tried three times, as long as nobody
  counts tries of an earlier attempt.
* `aborts_after_two_tries`: one of two people gives up after two tries.
-/

namespace Nachos.Threads.PostOfficeLoop

open Function Foundations StepSystem

variable {P : ℕ}

/-- In the next step the person `i` finds the mailbox of its recipient full, and is going to try
again. -/
def Tries (S : ℕ) (k : State P) (i : Fin P) : Prop :=
  ∃ r, Program.IsNext k i (.whileFull r) ∧ k.env.msgPtr r = S ∧ k.env.deadlock i = false

instance (S : ℕ) (k : State P) (i : Fin P) : Decidable (Tries S k i) :=
  inferInstanceAs (Decidable (∃ _, _ ∧ _ ∧ _))

/-- The numbers of tries after a step. The choice of a message begins an attempt. -/
def record (S : ℕ) (k : State P) (_ : Input Empty ℕ) (tries : Fin P → ℕ) : Fin P → ℕ := fun i =>
  if ∃ r, Program.IsNext k i (.chooseMsg r) then 0
  else if Tries S k i then tries i + 1
  else tries i

/-- The runs of the task with the tries of the current attempts. -/
abbrev attempts (P S M : ℕ) := (system P S M).withHistory (record S) fun _ => 0

theorem init_attempts (P S M : ℕ) :
    (attempts P S M).init (Program.boot value (globals P), fun _ => 0) := ⟨rfl, rfl⟩

/-- In the next step a person tries for the first time in its attempt, but has counted tries
before. -/
def CountsEarlierTries (S : ℕ) (s : State P × (Fin P → ℕ)) : Prop :=
  ∃ i, Tries S s.1 i ∧ s.2 i = 0 ∧ s.1.env.sentCount i ≠ 0

instance (S : ℕ) (s : State P × (Fin P → ℕ)) : Decidable (CountsEarlierTries S s) :=
  inferInstanceAs (Decidable (∃ _, _ ∧ _ ∧ _))

/-- In the next step the person `i` gives up its attempt. -/
def Aborts (k : State P) (i : Fin P) : Prop :=
  k.env.deadlock i = true ∧ ∃ r msg, Program.IsNext k i (.ifNotDeadlock r msg)

/-! ### The history variable -/

section

variable {S M random : ℕ} {k : State P} {i j : Fin P} {g g' : Globals P} {code : Code P}
  {rest ops ops' : List (Op (Sem P) (Code P))} {tries : Fin P → ℕ} {t : ℕ}

/-- The number of tries after a piece of code. -/
def nextTries (S : ℕ) (i : Fin P) (g : Globals P) (code : Code P) (t : ℕ) : ℕ :=
  match code with
  | .chooseMsg _ => 0
  | .whileFull r => if g.msgPtr r = S ∧ g.deadlock i = false then t + 1 else t
  | _ => t

theorem isNext_unique {code' : Code P} (h : Program.IsNext k i code)
    (h' : Program.IsNext k j code') : i = j ∧ code = code' := by
  obtain rfl : i = j := Participant.forked.inj (h.1.symm.trans h'.1)
  have heq := h.2.symm.trans h'.2
  simp only [Option.some.injEq, Frame.call.injEq, Call.code.injEq, TaskCode.body.injEq] at heq
  exact ⟨rfl, heq⟩

theorem record_of_isNext (h : Program.IsNext k i code) (input : Input Empty ℕ) :
    record S k input tries = update tries i (nextTries S i k.env code (tries i)) := by
  funext j
  by_cases hj : j = i
  · subst hj
    rw [update_self, record]
    have hchoose : (∃ r, Program.IsNext k j (.chooseMsg r)) ↔ ∃ r, code = .chooseMsg r :=
      exists_congr fun r => ⟨fun h' => (isNext_unique h h').2, fun h' => h' ▸ h⟩
    have htries : Tries S k j ↔
        ∃ r, code = .whileFull r ∧ k.env.msgPtr r = S ∧ k.env.deadlock j = false :=
      exists_congr fun r =>
        and_congr_left' ⟨fun h' => (isNext_unique h h').2, fun h' => h' ▸ h⟩
    simp only [hchoose, htries]
    cases code <;> simp [nextTries]
  · rw [update_of_ne hj, record, if_neg fun ⟨r, hr⟩ => hj (isNext_unique hr h).1,
      if_neg fun ⟨r, hr, _⟩ => hj (isNext_unique hr h).1]

theorem record_of_not_isNext (h : ∀ i code, ¬Program.IsNext k i code) (input : Input Empty ℕ) :
    record S k input tries = tries := by
  funext i
  rw [record, if_neg fun ⟨r, hr⟩ => h i _ hr, if_neg fun ⟨r, hr, _⟩ => h i _ hr]

/-! ### The invariant -/

/-- A person is in the loop in which it waits for free space, or behind it. -/
def Attempting : List (Op (Sem P) (Code P)) → Prop
  | .run (.whileFull _) :: _ => True
  | .run (.ifNotDeadlock _ _) :: _ => True
  | _ => False

/-- What the person `i` has counted: the tries of its attempt once it has tried, and three when it
gives up. -/
structure Counted (i : Fin P) (t : ℕ) (g : Globals P) (ops : List (Op (Sem P) (Code P))) :
    Prop where
  givesUp : g.deadlock i = true → g.sentCount i = 3 ∧ t = 3 ∧ Attempting ops
  range : g.deadlock i = false → 0 ≤ g.sentCount i ∧ g.sentCount i ≤ 2
  same : Attempting ops → t = 0 ∨ g.sentCount i = t

/-- Outside of an attempt nothing is counted. -/
theorem Counted.of_not_attempting (h : Counted i t g ops) (hn : ¬Attempting ops)
    (hn' : ¬Attempting ops') (hdead : g'.deadlock i = g.deadlock i)
    (hcount : g'.sentCount i = g.sentCount i) (t' : ℕ) : Counted i t' g' ops' := by
  have hfalse : g.deadlock i ≠ true := fun hd => hn (h.givesUp hd).2.2
  refine ⟨fun hd => absurd (hdead ▸ hd) hfalse, fun hd => ?_, fun hat => absurd hat hn'⟩
  rw [hcount]
  exact h.range (hdead ▸ hd)

theorem Counted.tail {o : Op (Sem P) (Code P)} (h : Counted i t g (o :: rest))
    (hat : At S M i g (o :: rest)) (ho : ∀ code, o ≠ .run code) : Counted i t g rest := by
  have hn : ¬Attempting (o :: rest) := by
    cases o with
    | run code => exact absurd rfl (ho code)
    | _ => exact id
  refine h.of_not_attempting hn ?_ rfl rfl t
  cases hat with
  | lockBox | unlockBox | claimCnt | claimBox | releaseBox | releaseCnt => exact id
  | _ => exact absurd rfl (ho _)

/-- A piece of code of the person `i`. -/
theorem Counted.execute (h : Counted i t g (.run code :: rest))
    (hat : At S M i g (.run code :: rest)) (hx : execute S M i code random g = .ok (g', ops))
    (hfirst : ∀ r, code = .whileFull r → g.msgPtr r = S → g.deadlock i = false → t = 0 →
      g.sentCount i = 0) :
    Counted i (nextTries S i g code t) g' (ops.filter Op.isWork ++ rest) := by
  cases hat with
  | whileFull r msg hd hleft =>
    simp only [PostOfficeLoop.execute] at hx
    split_ifs at hx with hfull
    · -- one more try
      obtain ⟨rfl, rfl⟩ := Prod.mk.inj (Except.ok.inj hx)
      have hcount : g.sentCount i = t :=
        (h.same trivial).elim (fun ht => by simp [hfirst r rfl hfull.1 hfull.2 ht, ht]) id
      obtain ⟨-, hle⟩ := h.range hfull.2
      simp only [nextTries, if_pos hfull]
      refine ⟨fun hd => ?_, fun hd => ?_, fun _ => .inr ?_⟩
      · have h3 : g.sentCount i + 1 = 3 := by simpa [hfull.2] using hd
        simp only [update_self]
        exact ⟨h3, by omega, trivial⟩
      · have h3 : g.sentCount i + 1 ≠ 3 := by simpa [hfull.2] using hd
        simp only [update_self]
        omega
      · simp [hcount]
    · obtain ⟨rfl, rfl⟩ := Prod.mk.inj (Except.ok.inj hx)
      simp only [nextTries, if_neg hfull]
      exact ⟨fun hd => (h.givesUp hd).imp_right (And.imp_right fun _ => trivial), h.range,
        fun _ => h.same trivial⟩
  | ifNotDeadlock r msg hd hleft hspace =>
    simp only [PostOfficeLoop.execute] at hx
    split_ifs at hx with hdead
    · obtain ⟨rfl, rfl⟩ := Prod.mk.inj (Except.ok.inj hx)
      exact ⟨fun hd => absurd (hdead.symm.trans hd) (by decide), h.range, fun hn => absurd hn id⟩
    · obtain ⟨rfl, rfl⟩ := Prod.mk.inj (Except.ok.inj hx)
      refine ⟨fun hd => ?_, fun _ => ?_, fun hn => absurd hn id⟩
      · simp at hd
      · simp
  | chooseMsg r hd hleft =>
    obtain ⟨rfl, rfl⟩ := Prod.mk.inj (Except.ok.inj hx)
    exact ⟨fun hd => absurd (h.givesUp hd).2.2 id, h.range, fun _ => .inl rfl⟩
  | readMsg hd hmail =>
    simp only [PostOfficeLoop.execute] at hx
    obtain ⟨o, -, he⟩ := map_eq_ok.1 hx
    obtain ⟨rfl, rfl⟩ := Prod.mk.inj he
    refine h.of_not_attempting id ?_ (by rfl) (by rfl) _
    exact id
  | sendMsg r msg hd hleft hspace =>
    simp only [PostOfficeLoop.execute] at hx
    obtain ⟨o, -, he⟩ := map_eq_ok.1 hx
    obtain ⟨rfl, rfl⟩ := Prod.mk.inj he
    refine h.of_not_attempting id ?_ (by rfl) (by rfl) _
    exact id
  | whileNotDone | whileMail | ifMsgLeft | chooseRecipient =>
    obtain ⟨rfl, rfl⟩ := Prod.mk.inj (Except.ok.inj hx)
    refine h.of_not_attempting id ?_ rfl rfl _
    split_ifs <;> exact id
  | stall =>
    obtain ⟨rfl, rfl⟩ := Prod.mk.inj (Except.ok.inj hx)
    rw [Op.filter_isWork_replicate_yield]
    refine h.of_not_attempting id ?_ (by rfl) (by rfl) _
    exact id
  | checkDone =>
    obtain ⟨rfl, rfl⟩ := Prod.mk.inj (Except.ok.inj hx)
    refine h.of_not_attempting id ?_ (by rfl) (by rfl) _
    exact id

theorem sentCount_of_execute (hj : j ≠ i) (hx : execute S M i code random g = .ok (g', ops)) :
    g'.sentCount j = g.sentCount j := by
  cases code with
  | readMsg | sendMsg =>
    simp only [PostOfficeLoop.execute] at hx
    obtain ⟨o, -, he⟩ := map_eq_ok.1 hx
    obtain ⟨rfl, -⟩ := Prod.mk.inj he
    rfl
  | whileFull | ifNotDeadlock =>
    simp only [PostOfficeLoop.execute] at hx
    split_ifs at hx <;> obtain ⟨rfl, -⟩ := Prod.mk.inj (Except.ok.inj hx) <;> simp [hj]
  | _ =>
    obtain ⟨rfl, -⟩ := Prod.mk.inj (Except.ok.inj hx)
    rfl

/-- Another person executes code. -/
theorem Counted.frame (h : Counted j t g ops') (hj : j ≠ i)
    (hx : PostOfficeLoop.execute S M i code random g = .ok (g', ops)) : Counted j t g' ops' := by
  have hdead := deadlock_of_execute hj hx
  have hcount := sentCount_of_execute hj hx
  refine ⟨fun hd => ?_, fun hd => ?_, ?_⟩
  · rw [hcount]
    exact h.givesUp (hdead ▸ hd)
  · rw [hcount]
    exact h.range (hdead ▸ hd)
  · rw [hcount]
    exact h.same

/-! ### Runs -/

/-- What everybody has counted, in a state that is safe. -/
structure AllCounted (S M : ℕ) (s : State P × (Fin P → ℕ)) : Prop where
  regular : (program P S M).Regular value s.1
  safe : Safe S M s.1
  counted : ∀ i, Counted i (s.2 i) s.1.env (remaining S M s.1 i)

variable {s s' : State P × (Fin P → ℕ)} {input : Input Empty ℕ}

theorem AllCounted.step (h : AllCounted S M s) (hC : ¬CountsEarlierTries S s)
    (hs : (attempts P S M).step s input = .ok s') : AllCounted S M s' := by
  obtain ⟨hw, hrecord⟩ := withHistory_step hs
  have hmove := Program.move_of_step h.regular hw
  refine ⟨h.regular.step hw, h.safe.move h.regular hmove, ?_⟩
  by_cases hnext : ∃ i code, Program.IsNext s.1 i code
  · obtain ⟨i, code, hnext⟩ := hnext
    obtain ⟨rest, ops, hx⟩ := Program.executes_of_isNext h.regular hw hnext
    have hrem : remaining S M s.1 i = .run code :: rest := hx.remaining
    intro j
    rw [hrecord, record_of_isNext hnext, remaining, hx.remaining']
    by_cases hj : j = i
    · subst hj
      rw [update_self, update_self]
      refine Counted.execute (hrem ▸ h.counted j) (hrem ▸ h.safe.points j) hx.exec ?_
      rintro r rfl hfull hdead hzero
      by_contra hne
      exact hC ⟨j, ⟨r, hnext, hfull, hdead⟩, hzero, hne⟩
    · rw [update_of_ne hj, update_of_ne hj]
      exact (h.counted j).frame hj hx.exec
  · have hnone : ∀ i code, ¬Program.IsNext s.1 i code := fun i code hi => hnext ⟨i, code, hi⟩
    rw [hrecord, record_of_not_isNext hnone]
    obtain ⟨i, code, rest, ops, hx⟩ | hsettles := hmove.executes_or_settles
    · exact absurd hx.isNext (hnone i code)
    · intro j
      rw [hsettles.env]
      obtain heq | ⟨o, ho, heq, -⟩ := hsettles.remaining j
      · rw [remaining, heq]
        exact h.counted j
      · have hcounted := h.counted j
        have hat := h.safe.points j
        rw [remaining, heq] at hcounted hat
        exact hcounted.tail hat ho

theorem allCounted_of_reachable
    (h : (attempts P S M).Reachable (fun s _ => ¬CountsEarlierTries S s) s) :
    AllCounted S M s := by
  refine h.invariant (AllCounted S M) ?_ fun s input s' hs hC hstep => hs.step hC hstep
  rintro ⟨_, _⟩ ⟨rfl, rfl⟩
  refine ⟨Program.regular_boot _ _ _, .boot S M, fun i => ?_⟩
  rw [remaining, Program.remaining_boot]
  exact ⟨fun hd => (by cases hd), fun _ => ⟨le_rfl, (by decide : (0 : ℤ) ≤ 2)⟩,
    fun hn => absurd hn id⟩

end

/-- As long as nobody counts tries of an earlier attempt for the one in which it is, everybody that
gives up an attempt has found the mailbox of its recipient full three times in this attempt, and
has yielded each time. -/
theorem three_tries_of_not_countsEarlierTries {S M : ℕ} (s : State P × (Fin P → ℕ))
    (h : (attempts P S M).Reachable (fun s _ => ¬CountsEarlierTries S s) s) (i : Fin P)
    (hi : Aborts s.1 i) : s.2 i = 3 := by
  exact (((allCounted_of_reachable h).counted i).givesUp hi.1).2.1

/-- Inputs with timer interrupts in some steps and the random number 1 in others. -/
def inputs (timers ones : List ℕ) (n : ℕ) : List (Input Empty ℕ) :=
  (List.range n).map fun j =>
    ⟨if j ∈ timers then [.timer] else [], if j ∈ ones then 1 else 0⟩

/-- A person finds the mailbox full three times and gives up. -/
theorem three_tries_of_two_people :
    ∃ s, (attempts 2 1 2).Reachable (fun s _ => ¬CountsEarlierTries 1 s) s ∧ Aborts s.1 0 ∧
      s.2 0 = 3 := by
  obtain ⟨s, hs, ht⟩ := exists_reachable_of_runInputsIf (S := attempts 2 1 2)
    (init_attempts 2 1 2) (c := fun s _ => decide (¬CountsEarlierTries 1 s))
    (fun s _ hC => of_decide_eq_true hC)
    (inputs [3, 33, 43, 63, 74, 85] [14, 56] 92)
    (fun s => decide (s.1.env.deadlock 0 = true ∧
      Program.IsNext s.1 0 (.ifNotDeadlock 1 "Pattern0")))
    (by decide +kernel)
  obtain ⟨hdead, hnext⟩ := of_decide_eq_true ht
  exact ⟨s, hs, ⟨hdead, 1, _, hnext⟩, three_tries_of_not_countsEarlierTries s hs 0
    ⟨hdead, 1, _, hnext⟩⟩

/-- A person that has found the mailbox full once before it sent its second message gives up its
third message after two tries. -/
theorem aborts_after_two_tries :
    ∃ s, (attempts 2 1 3).Reachable Always s ∧ Aborts s.1 0 ∧ s.2 0 = 2 := by
  obtain ⟨s, hs, ht⟩ := exists_reachable_of_runInputs (S := attempts 2 1 3)
    (init_attempts 2 1 3)
    (inputs [43, 53, 100, 110, 130, 141] [20, 66, 123] 148)
    (fun s => decide ((s.1.env.deadlock 0 = true ∧
      Program.IsNext s.1 0 (.ifNotDeadlock 1 "Pattern0")) ∧ s.2 0 = 2))
    (by decide +kernel)
  obtain ⟨⟨hdead, hnext⟩, htwo⟩ := of_decide_eq_true ht
  exact ⟨s, hs, ⟨hdead, 1, _, hnext⟩, htwo⟩

end Nachos.Threads.PostOfficeLoop
