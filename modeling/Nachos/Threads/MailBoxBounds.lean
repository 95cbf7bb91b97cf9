import Nachos.Threads.PostOfficeLoop
import Nachos.Threads.PostOfficeSemaphore

/-!
# The bounds of `MailBox`

All other arrays of the post office are allocated for `P` people, but `MailBox` has 128 rows of 64
slots, and nothing checks the numbers that `promptInput` returns against that. With at most 128
people, and mailboxes of at most 64 slots or at most 64 messages, all accesses are inside; 129
people are too many.

## Main definitions

* `PostOfficeSemaphore.Accesses`, `PostOfficeLoop.Accesses`: the next step accesses a slot.

## Main results

* `mailBox_in_bounds`: the inputs for which all accesses are inside.
* `mailBox_out_of_bounds`: an access outside.
-/

namespace Nachos.Threads

open Function Foundations StepSystem

variable {P S M : ℕ}

namespace PostOfficeSemaphore

/-- The next step accesses `MailBox[r][idx]`. -/
def Accesses (M : ℕ) (k : State P) (r : Fin P) (idx : ℤ) : Prop :=
  Program.IsNext k r .readMsg ∧ idx = k.env.msgPtr r - 1 ∨
    ∃ i msg, Program.IsNext k i (.sendMsg r msg) ∧ k.env.msgSentCnt < M ∧
      idx = k.env.msgPtr r + 1 - 1

/-- The slot that is accessed lies below the capacity and below the number of messages. -/
theorem Safe.bounds {k : State P} {r : Fin P} {idx : ℤ} (h : Safe S M k)
    (hreg : (program P M).Regular (value S) k) (ha : Accesses M k r idx) :
    0 ≤ idx ∧ idx < S ∧ idx < M := by
  have hsent := h.sound.msgPtr_le r
  have hle := h.sound.msgSentCnt_le
  have hspace := h.space_eq r
  have hvalue := (hreg.counted (.freeSpaceSemaphore r)).nonneg
  rcases ha with ⟨hnext, rfl⟩ | ⟨i, msg, hnext, hleft, rfl⟩
  · obtain ⟨rest, hrest⟩ := hreg.remaining_of_isNext hnext
    have hmail := h.mail r (by simp [remaining, hrest])
    exact ⟨by omega, by omega, by omega⟩
  · obtain ⟨rest, hrest⟩ := hreg.remaining_of_isNext hnext
    have hholds : HoldsSpace M k i r := by
      simp [HoldsSpace, remaining, hrest, holdsSpace]
    have hpos : 0 < (Finset.univ.filter fun i => HoldsSpace M k i r).card :=
      Finset.card_pos.2 ⟨i, Finset.mem_filter.2 ⟨Finset.mem_univ i, hholds⟩⟩
    have hnonneg := h.sound.msgPtr_nonneg r
    exact ⟨by omega, by omega, by omega⟩

end PostOfficeSemaphore

namespace PostOfficeLoop

/-- The next step accesses `MailBox[r][idx]`. -/
def Accesses (k : State P) (r : Fin P) (idx : ℤ) : Prop :=
  Program.IsNext k r .readMsg ∧ idx = k.env.msgPtr r - 1 ∨
    ∃ i msg, Program.IsNext k i (.sendMsg r msg) ∧ idx = k.env.msgPtr r + 1 - 1

/-- The slot that is accessed lies below the capacity and below the number of messages. -/
theorem Safe.bounds {k : State P} {r : Fin P} {idx : ℤ} (h : Safe S M k)
    (hreg : (program P S M).Regular value k) (ha : Accesses k r idx) :
    0 ≤ idx ∧ idx < S ∧ idx < M := by
  have hsent := h.sound.msgPtr_le r
  have hle := h.sound.msgSentCnt_le
  have hptr := h.msgPtr_le r
  rcases ha with ⟨hnext, rfl⟩ | ⟨i, msg, hnext, rfl⟩
  · obtain ⟨rest, hrest⟩ := hreg.remaining_of_isNext hnext
    have hat := h.points r
    rw [remaining, hrest] at hat
    cases hat with
    | readMsg hd hmail => exact ⟨by omega, by omega, by omega⟩
  · obtain ⟨rest, hrest⟩ := hreg.remaining_of_isNext hnext
    have hat := h.points i
    have hnonneg := h.sound.msgPtr_nonneg r
    rw [remaining, hrest] at hat
    cases hat with
    | sendMsg r msg hd hleft hspace => exact ⟨by omega, by omega, by omega⟩

end PostOfficeLoop

/-- With at most 128 people, and mailboxes for at most 64 messages or at most 64 messages in all,
both functions access `MailBox` only inside of its bounds. -/
theorem mailBox_in_bounds (hP : P ≤ 128) (hSM : S ≤ 64 ∨ M ≤ 64) :
    (∀ k : PostOfficeSemaphore.State P,
        (PostOfficeSemaphore.system P S M).Reachable Always k →
        ∀ r idx, PostOfficeSemaphore.Accesses M k r idx → InMailBox r idx) ∧
      ∀ k : PostOfficeLoop.State P, (PostOfficeLoop.system P S M).Reachable Always k →
        ∀ r idx, PostOfficeLoop.Accesses k r idx → InMailBox r idx := by
  have hin : ∀ (r : Fin P) (idx : ℤ), 0 ≤ idx ∧ idx < S ∧ idx < M → InMailBox r idx := by
    intro r idx hidx
    have := r.isLt
    exact ⟨⟨by omega, by omega⟩, by omega, by omega⟩
  constructor
  · intro k hk r idx ha
    obtain ⟨hreg, hsafe⟩ := PostOfficeSemaphore.safe_of_reachable hk
    exact hin r idx (hsafe.bounds hreg ha)
  · intro k hk r idx ha
    obtain ⟨hreg, hsafe⟩ := PostOfficeLoop.safe_of_reachable hk
    exact hin r idx (hsafe.bounds hreg ha)

theorem mailBox_in_bounds_of_two :
    ∃ k : PostOfficeLoop.State 2, (PostOfficeLoop.system 2 1 1).Reachable Always k ∧
      PostOfficeLoop.Accesses k 1 0 ∧ InMailBox (1 : Fin 2) 0 := by
  obtain ⟨k, hk, ht⟩ := exists_reachable_of_runInputs (S := PostOfficeLoop.system 2 1 1) rfl
    ((List.range 28).map fun n => ⟨[], n⟩)
    (fun k => decide (Program.IsNext k 0 (.sendMsg 1 "Pattern4") ∧ k.env.msgPtr 1 = 0))
    (by decide +kernel)
  obtain ⟨hnext, hptr⟩ := of_decide_eq_true ht
  have ha : PostOfficeLoop.Accesses k 1 0 := .inr ⟨0, _, hnext, by rw [hptr]; rfl⟩
  exact ⟨k, hk, ha, (mailBox_in_bounds (by decide) (.inl (by decide))).2 k hk 1 0 ha⟩

/-- With 129 people, somebody that is sent a message has no mailbox. -/
theorem mailBox_out_of_bounds :
    ∃ k : PostOfficeSemaphore.State 129,
      (PostOfficeSemaphore.system 129 1 1).Reachable Always k ∧
        PostOfficeSemaphore.Accesses 1 k 128 0 ∧ ¬ InMailBox (128 : Fin 129) 0 := by
  obtain ⟨k, hk, ht⟩ := exists_reachable_of_runInputs (S := PostOfficeSemaphore.system 129 1 1) rfl
    ((List.range 21).map fun n => ⟨if n = 3 then [.timer] else [], 128⟩)
    (fun k => decide (Program.IsNext k 0 (.sendMsg 128 "Pattern2") ∧ k.env.msgSentCnt < 1 ∧
      k.env.msgPtr 128 = 0)) (by decide +kernel)
  obtain ⟨hnext, hleft, hptr⟩ := of_decide_eq_true ht
  exact ⟨k, hk, .inr ⟨0, _, hnext, hleft, by rw [hptr]; rfl⟩, by decide⟩

end Nachos.Threads
