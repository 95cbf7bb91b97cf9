import Mathlib.Data.BitVec
import Mathlib.Data.List.Infix
import Nachos.Foundations.Except
import Nachos.Foundations.Run
import Nachos.Machine.Fault

/-!
# The console

The input of `machine/console.cc`. The device has room for one byte, `incoming`, and an empty
buffer contains `EOF`, which is the byte `0xff` as a `char`. `CheckCharAvail` polls the keyboard and
reads a byte only if the buffer is empty. A byte `0xff` in the buffer looks like an empty buffer,
so the next poll overwrites it.

## Main definitions

* `Console`, with `checkCharAvail`, `getChar`, `putChar` and `writeDone`.
* `consoleSystem`: polls in any order with calls of `GetChar`, one for each call of the handler.
* `ConsoleHistory`: the bytes that were read and returned.
* `testSystem`: `ConsoleTest` of `userprog/progtest.cc`.

## Main results

* `keepsKeystrokes_of_reachable`: if no poll overwrites a byte `0xff`, no keystroke is lost.
* `overwritten_of_overwrites`: otherwise one is lost.
* `TestState.reachable_client`: `ConsoleTest` is one of the clients.
-/

namespace Nachos

open Foundations

/-! ### The device -/

/-- What `PollFile` finds and `Read` then reads. -/
inductive Keyboard
  /-- No character is waiting. -/
  | nothing
  | byte (c : BitVec 8)
  /-- The end of the file, at which `Read` gets less than it asserts. -/
  | atEnd
  deriving DecidableEq

/-- `Console`. -/
structure Console where
  /-- A `char`. -/
  incoming : BitVec 8
  putBusy : Bool
  deriving DecidableEq

namespace Console

/-- `EOF`, as a `char`. -/
def eof : BitVec 8 := .ofInt 8 (-1)

/-- The constructor. -/
def new : Console := ⟨eof, false⟩

/-- `Console::CheckCharAvail`, and whether it calls `readHandler`. -/
def checkCharAvail (c : Console) (keyboard : Keyboard) : Except Fault (Console × Bool) :=
  if c.incoming.toInt ≠ -1 then .ok (c, false)
  else
    match keyboard with
    | .nothing => .ok (c, false)
    | .byte ch => .ok ({ c with incoming := ch }, true)
    | .atEnd => .error .assertion

/-- `Console::GetChar`. -/
def getChar (c : Console) : BitVec 8 × Console := (c.incoming, { c with incoming := eof })

/-- `Console::PutChar`. -/
def putChar (c : Console) : Except Fault Console :=
  if c.putBusy then .error .assertion else .ok { c with putBusy := true }

/-- `Console::WriteDone`, up to the call of `writeHandler`. -/
def writeDone (c : Console) : Console := { c with putBusy := false }

variable {c : Console} {keyboard : Keyboard} {called : Bool}

theorem toInt_eq_neg_one_iff (ch : BitVec 8) : ch.toInt = -1 ↔ ch = eof :=
  ⟨fun h => BitVec.eq_of_toInt_eq h, fun h => h ▸ rfl⟩

theorem checkCharAvail_byte (h : c.incoming = eof) (ch : BitVec 8) :
    c.checkCharAvail (.byte ch) = .ok ({ c with incoming := ch }, true) := by
  simp [checkCharAvail, toInt_eq_neg_one_iff, h]

/-- The output does not matter to the input. -/
theorem checkCharAvail_writeDone :
    c.writeDone.checkCharAvail keyboard =
      (c.checkCharAvail keyboard).map fun r => (r.1.writeDone, r.2) := by
  by_cases h : c.incoming.toInt = -1
  · cases keyboard <;> simp [checkCharAvail, writeDone, h]
  · simp [checkCharAvail, writeDone, h]

/-- A poll either does nothing, or finds `EOF` in the buffer and puts a byte into it. -/
theorem checkCharAvail_cases {c' : Console} (h : c.checkCharAvail keyboard = .ok (c', called)) :
    c' = c ∧ called = false ∧ (c.incoming = eof → ∀ ch, keyboard ≠ .byte ch) ∨
      ∃ ch, keyboard = .byte ch ∧ c.incoming = eof ∧ c' = { c with incoming := ch } ∧
        called = true := by
  simp only [checkCharAvail, ne_eq, toInt_eq_neg_one_iff] at h
  split_ifs at h with heof
  · cases keyboard with
    | nothing =>
      obtain ⟨rfl, rfl⟩ := Prod.mk.inj (Except.ok.inj h)
      exact .inl ⟨rfl, rfl, nofun⟩
    | byte ch =>
      obtain ⟨rfl, rfl⟩ := Prod.mk.inj (Except.ok.inj h)
      exact .inr ⟨ch, rfl, heof, rfl, rfl⟩
    | atEnd => cases h
  · obtain ⟨rfl, rfl⟩ := Prod.mk.inj (Except.ok.inj h)
    exact .inl ⟨rfl, rfl, fun h => absurd h heof⟩

end Console

/-! ### Clients -/

/-- The device, and the number of calls of `readHandler` that `GetChar` has not answered. -/
structure ConsoleClient where
  console : Console
  unanswered : ℕ
  deriving DecidableEq

/-- What happens to the input. -/
inductive ConsoleEvent
  | poll (keyboard : Keyboard)
  | getChar
  deriving DecidableEq

namespace ConsoleClient

/-- `GetChar` is called once for each call of `readHandler`. -/
def step (s : ConsoleClient) : ConsoleEvent → Except Fault ConsoleClient
  | .poll keyboard =>
    (s.console.checkCharAvail keyboard).map fun r =>
      ⟨r.1, if r.2 then s.unanswered + 1 else s.unanswered⟩
  | .getChar =>
    if s.unanswered = 0 then .error .disabled
    else .ok ⟨s.console.getChar.2, s.unanswered - 1⟩

/-- A poll finds a byte while the byte `0xff` waits to be fetched. -/
def Overwrites (s : ConsoleClient) (e : ConsoleEvent) : Prop :=
  0 < s.unanswered ∧ s.console.incoming = Console.eof ∧ ∃ ch, e = .poll (.byte ch)

instance (s : ConsoleClient) (e : ConsoleEvent) : Decidable (s.Overwrites e) :=
  match e with
  | .poll (.byte ch) =>
    decidable_of_iff (0 < s.unanswered ∧ s.console.incoming = Console.eof)
      (and_congr_right' (iff_self_and.2 fun _ => ⟨ch, rfl⟩))
  | .poll .nothing | .poll .atEnd | .getChar => isFalse fun h => by simpa using h.2.2

end ConsoleClient

/-- Any sequence of polls and calls of `GetChar`. -/
def consoleSystem : StepSystem ConsoleClient ConsoleEvent Fault where
  init s := s = ⟨.new, 0⟩
  step := ConsoleClient.step

/-! ### Keystrokes -/

/-- What happened so far. The source keeps none of this. -/
structure ConsoleHistory where
  /-- The bytes that were read from the keyboard. -/
  read : List (BitVec 8)
  /-- The bytes that `GetChar` returned. -/
  returned : List (BitVec 8)
  /-- The byte that waits to be fetched. -/
  buffered : Option (BitVec 8)
  /-- A byte that waited was overwritten. -/
  overwritten : Bool
  deriving DecidableEq

namespace ConsoleHistory

def start : ConsoleHistory := ⟨[], [], none, false⟩

/-- A byte is put into the buffer. -/
def put (ch : BitVec 8) (h : ConsoleHistory) : ConsoleHistory :=
  { h with
    read := h.read ++ [ch]
    buffered := some ch
    overwritten := h.overwritten || h.buffered.isSome }

/-- A byte is returned. -/
def fetch (ch : BitVec 8) (h : ConsoleHistory) : ConsoleHistory :=
  { h with
    returned := h.returned ++ [ch]
    buffered := none }

/-- What an event adds. -/
def record (s : ConsoleClient) (e : ConsoleEvent) (h : ConsoleHistory) : ConsoleHistory :=
  match e with
  | .poll (.byte ch) =>
    match s.console.checkCharAvail (.byte ch) with
    | .ok (_, true) => h.put ch
    | _ => h
  | .poll .nothing | .poll .atEnd => h
  | .getChar => h.fetch s.console.getChar.1

/-- A poll adds the byte of the keyboard, or nothing. -/
theorem record_poll (s : ConsoleClient) (keyboard : Keyboard) (h : ConsoleHistory) :
    record s (.poll keyboard) h = h ∨
      ∃ ch, keyboard = .byte ch ∧ record s (.poll keyboard) h = h.put ch := by
  cases keyboard with
  | byte ch =>
    simp only [record]
    split
    · exact .inr ⟨ch, rfl, rfl⟩
    · exact .inl rfl
  | nothing | atEnd => exact .inl rfl

/-- No keystroke was lost: what `GetChar` returned is what was read, up to some point, and no byte
was overwritten in the buffer. -/
def KeepsKeystrokes (h : ConsoleHistory) : Prop :=
  h.returned <+: h.read ∧ h.overwritten = false

instance (h : ConsoleHistory) : Decidable h.KeepsKeystrokes := inferInstanceAs (Decidable (_ ∧ _))

end ConsoleHistory

/-- The clients, with what happened. -/
abbrev keystrokes : StepSystem (ConsoleClient × ConsoleHistory) ConsoleEvent Fault :=
  consoleSystem.withHistory ConsoleHistory.record .start

theorem init_keystrokes : keystrokes.init (⟨.new, 0⟩, .start) := ⟨rfl, rfl⟩

/-- The buffer contains the byte that was read and not yet returned, or `EOF`. -/
structure ConsoleInvariant (s : ConsoleClient × ConsoleHistory) : Prop where
  unanswered : s.1.unanswered = s.2.buffered.toList.length
  incoming : s.1.console.incoming = s.2.buffered.getD Console.eof
  read : s.2.read = s.2.returned ++ s.2.buffered.toList
  kept : s.2.overwritten = false

namespace ConsoleInvariant

variable {s s' : ConsoleClient × ConsoleHistory}

theorem start : ConsoleInvariant (⟨.new, 0⟩, .start) := ⟨rfl, rfl, rfl, rfl⟩

theorem keepsKeystrokes (h : ConsoleInvariant s) : s.2.KeepsKeystrokes :=
  ⟨h.read ▸ List.prefix_append _ _, h.kept⟩

theorem poll (h : ConsoleInvariant s) {keyboard : Keyboard}
    (hs : keystrokes.step s (.poll keyboard) = .ok s')
    (hkept : ¬ s.1.Overwrites (.poll keyboard)) : ConsoleInvariant s' := by
  obtain ⟨client, history⟩ := s
  obtain ⟨client', history'⟩ := s'
  obtain ⟨hstep, hrecord⟩ := StepSystem.withHistory_step hs
  obtain ⟨⟨c', called⟩, hcheck, hclient⟩ := map_eq_ok.1 hstep
  rcases Console.checkCharAvail_cases hcheck with ⟨rfl, rfl, -⟩ | ⟨ch, rfl, heof, rfl, rfl⟩
  · obtain rfl : client = client' := hclient
    have hnothing : ConsoleHistory.record client (.poll keyboard) history = history := by
      cases keyboard <;> simp [ConsoleHistory.record, hcheck]
    obtain rfl : history' = history := hrecord.trans hnothing
    exact h
  · -- `EOF` means that the buffer is empty, since no byte `0xff` waits
    have hnone : client.unanswered = 0 := by
      by_contra hpos
      exact hkept ⟨Nat.pos_of_ne_zero hpos, heof, ch, rfl⟩
    have hbuffered : history.buffered = none := by
      have hlength := h.unanswered
      rw [hnone] at hlength
      simpa using hlength.symm
    obtain rfl : _ = client' := hclient
    simp only [ConsoleHistory.record, hcheck] at hrecord
    obtain rfl := hrecord
    refine ⟨?_, rfl, ?_, ?_⟩
    · simp [hnone, ConsoleHistory.put]
    · simpa [ConsoleHistory.put, hbuffered] using h.read
    · simpa [ConsoleHistory.put, hbuffered] using h.kept

theorem getChar (h : ConsoleInvariant s) (hs : keystrokes.step s .getChar = .ok s') :
    ConsoleInvariant s' := by
  obtain ⟨client, history⟩ := s
  obtain ⟨client', history'⟩ := s'
  obtain ⟨hstep, hrecord⟩ := StepSystem.withHistory_step hs
  simp only [consoleSystem, ConsoleClient.step] at hstep
  split_ifs at hstep with hpos
  obtain rfl := Except.ok.inj hstep
  obtain rfl : history' = history.fetch client.console.incoming := hrecord
  have hunanswered := h.unanswered
  have hincoming := h.incoming
  have hread := h.read
  dsimp only at hpos hunanswered hincoming hread
  cases hbuffered : history.buffered with
  | none => simp [hbuffered] at hunanswered; omega
  | some ch =>
    rw [hbuffered] at hunanswered hincoming hread
    refine ⟨?_, rfl, ?_, h.kept⟩
    · simp [hunanswered, ConsoleHistory.fetch]
    · simpa [ConsoleHistory.fetch, hincoming] using hread

end ConsoleInvariant

theorem consoleInvariant_of_reachable {s : ConsoleClient × ConsoleHistory}
    (h : keystrokes.Reachable (fun s e => ¬ s.1.Overwrites e) s) : ConsoleInvariant s := by
  refine h.invariant ConsoleInvariant (fun s hs => ?_) fun s e s' hs hkept hstep => ?_
  · obtain ⟨client, history⟩ := s
    obtain ⟨rfl, rfl⟩ : client = ⟨.new, 0⟩ ∧ history = .start := hs
    exact .start
  · cases e with
    | poll keyboard => exact hs.poll hstep hkept
    | getChar => exact hs.getChar hstep

/-- **The console loses no keystroke** as long as no poll finds a byte while a byte `0xff` waits to
be fetched. -/
theorem keepsKeystrokes_of_reachable {s : ConsoleClient × ConsoleHistory}
    (h : keystrokes.Reachable (fun s e => ¬ s.1.Overwrites e) s) : s.2.KeepsKeystrokes :=
  (consoleInvariant_of_reachable h).keepsKeystrokes

/-- The condition is necessary: the first step that does not meet it loses a keystroke. -/
theorem overwritten_of_overwrites {s s' : ConsoleClient × ConsoleHistory} {e : ConsoleEvent}
    (h : keystrokes.Reachable (fun s e => ¬ s.1.Overwrites e) s)
    (hover : s.1.Overwrites e) (hs : keystrokes.step s e = .ok s') : ¬ s'.2.KeepsKeystrokes := by
  obtain ⟨hpos, heof, ch, rfl⟩ := hover
  have hinv := consoleInvariant_of_reachable h
  obtain ⟨-, hrecord⟩ := StepSystem.withHistory_step hs
  rw [ConsoleHistory.record, Console.checkCharAvail_byte heof] at hrecord
  have hbuffered : s.2.buffered.isSome = true := by
    rw [hinv.unanswered] at hpos
    cases hb : s.2.buffered with
    | none => simp [hb] at hpos
    | some ch => rfl
  rintro ⟨-, hkept⟩
  simp [hrecord, ConsoleHistory.put, hbuffered] at hkept

/-- The byte `0xff` is read and fetched like any other. -/
theorem keepsKeystrokes_example : ∃ s : ConsoleClient × ConsoleHistory,
    s.2.returned = [0xff, 0x61] ∧ s.2.KeepsKeystrokes := by
  obtain ⟨s, hs, hreturned⟩ := StepSystem.exists_reachable_of_runInputsIf
    (C := fun s e => ¬ s.1.Overwrites e) init_keystrokes
    (c := fun s e => !decide (s.1.Overwrites e)) (fun s e h hover => by simp [hover] at h)
    [.poll (.byte 0xff), .getChar, .poll (.byte 0x61), .poll (.byte 0x62), .getChar]
    (fun s => decide (s.2.returned = [0xff, 0x61])) (by decide)
  exact ⟨s, of_decide_eq_true hreturned, keepsKeystrokes_of_reachable hs⟩

/-- A byte `0xff` that is not fetched before the next byte arrives is lost. -/
theorem not_keepsKeystrokes :
    ¬ ∀ s : ConsoleClient × ConsoleHistory, keystrokes.Reachable StepSystem.Always s →
      s.2.KeepsKeystrokes := fun h => by
  obtain ⟨s, hs, hlost⟩ := StepSystem.exists_reachable_of_runInputs init_keystrokes
    [.poll (.byte 0xff), .poll (.byte 0x61), .getChar] (fun s => !decide s.2.KeepsKeystrokes)
    (by decide)
  simp [h s hs] at hlost

/-! ### `ConsoleTest` -/

/-- What `ConsoleTest` does next. -/
inductive TestPoint
  /-- `readAvail->P()`. -/
  | awaitRead
  | getChar
  | putChar (ch : BitVec 8)
  /-- `writeDone->P()`. -/
  | awaitWrite (ch : BitVec 8)
  | returned
  deriving DecidableEq

/-- `ConsoleTest`, with the values of its semaphores. -/
structure TestState where
  console : Console
  readAvail : ℕ
  writeDone : ℕ
  point : TestPoint
  deriving DecidableEq

inductive TestInput
  | poll (keyboard : Keyboard)
  /-- The interrupt that `PutChar` has scheduled. -/
  | writeDone
  /-- The thread continues. -/
  | thread
  deriving DecidableEq

namespace TestState

/-- The next operation of `ConsoleTest`. At a semaphore whose value is zero, it waits. -/
def thread (s : TestState) : Except Fault TestState :=
  match s.point with
  | .awaitRead =>
    if s.readAvail = 0 then .error .disabled
    else .ok { s with readAvail := s.readAvail - 1, point := .getChar }
  | .getChar =>
    let (ch, console) := s.console.getChar
    .ok { s with console := console, point := .putChar ch }
  | .putChar ch => s.console.putChar.map fun console =>
    { s with console := console, point := .awaitWrite ch }
  | .awaitWrite ch =>
    if s.writeDone = 0 then .error .disabled
    else .ok { s with
      writeDone := s.writeDone - 1
      point := if ch = BitVec.ofNat 8 'q'.toNat then .returned else .awaitRead }
  | .returned => .error .disabled

def step (s : TestState) : TestInput → Except Fault TestState
  | .poll keyboard =>
    (s.console.checkCharAvail keyboard).map fun r =>
      { s with console := r.1, readAvail := if r.2 then s.readAvail + 1 else s.readAvail }
  | .writeDone =>
    if s.console.putBusy then
      .ok { s with console := s.console.writeDone, writeDone := s.writeDone + 1 }
    else .error .disabled
  | .thread => s.thread

/-- The input side of `ConsoleTest`. -/
def client (s : TestState) : ConsoleClient :=
  ⟨s.console.writeDone, s.readAvail + if s.point = .getChar then 1 else 0⟩

/-- What an input is to the input side. -/
def event (s : TestState) : TestInput → Option ConsoleEvent
  | .poll keyboard => some (.poll keyboard)
  | .writeDone => none
  | .thread => if s.point = .getChar then some .getChar else none

end TestState

/-- `ConsoleTest` with the interrupts of the console. -/
def testSystem : StepSystem TestState TestInput Fault where
  init s := s = ⟨.new, 0, 0, .awaitRead⟩
  step := TestState.step

namespace TestState

variable {s s' : TestState} {input : TestInput} {e : ConsoleEvent}

/-- A poll and a call of `GetChar` are the events of the client. -/
theorem client_of_event (he : s.event input = some e) (hs : s.step input = .ok s') :
    s.client.step e = .ok s'.client := by
  cases input with
  | poll keyboard =>
    obtain rfl := Option.some.inj he
    obtain ⟨⟨c', called⟩, hcheck, rfl⟩ := map_eq_ok.1 hs
    rw [ConsoleClient.step, client, Console.checkCharAvail_writeDone, hcheck]
    cases called with
    | false => rfl
    | true => simp [client, Nat.add_right_comm]
  | writeDone => cases he
  | thread =>
    simp only [event] at he
    split_ifs at he with hpoint
    obtain rfl := Option.some.inj he
    simp only [step, TestState.thread, hpoint] at hs
    obtain rfl := Except.ok.inj hs
    simp only [ConsoleClient.step, client, hpoint]
    rfl

/-- Everything else leaves the input alone. -/
theorem client_of_no_event (he : s.event input = none) (hs : s.step input = .ok s') :
    s'.client = s.client := by
  cases input with
  | poll keyboard => cases he
  | writeDone =>
    simp only [step] at hs
    split_ifs at hs
    obtain rfl := Except.ok.inj hs
    rfl
  | thread =>
    have hpoint : s.point ≠ .getChar := fun h => by simp [event, h] at he
    simp only [step, TestState.thread] at hs
    cases hp : s.point with
    | awaitRead =>
      simp only [hp] at hs
      split_ifs at hs with hpos
      obtain rfl := Except.ok.inj hs
      simp only [client, hp]
      simp
      omega
    | getChar => exact absurd hp hpoint
    | putChar ch =>
      simp only [hp] at hs
      obtain ⟨console, hput, rfl⟩ := map_eq_ok.1 hs
      simp only [Console.putChar] at hput
      split_ifs at hput
      obtain rfl := Except.ok.inj hput
      simp [client, hp, Console.writeDone]
    | awaitWrite ch =>
      simp only [hp] at hs
      split_ifs at hs <;> obtain rfl := Except.ok.inj hs <;> simp [client, hp]
    | returned =>
      simp only [hp] at hs
      cases hs

end TestState

/-- What an input of `ConsoleTest` adds. -/
def TestState.record (s : TestState) (input : TestInput) (h : ConsoleHistory) : ConsoleHistory :=
  match s.event input with
  | none => h
  | some e => ConsoleHistory.record s.client e h

/-- `ConsoleTest` is one of the clients. -/
theorem TestState.reachable_client {C : ConsoleClient → ConsoleEvent → Prop}
    {s : TestState × ConsoleHistory}
    (h : (testSystem.withHistory TestState.record .start).Reachable
      (fun s input => ∀ e, s.1.event input = some e → C s.1.client e) s) :
    keystrokes.Reachable (fun s e => C s.1 e) (s.1.client, s.2) := by
  refine h.map (fun s => (s.1.client, s.2)) (fun s hs => ?_) fun s input s' _ hC hstep => ?_
  · obtain ⟨test, history⟩ := s
    obtain ⟨rfl, rfl⟩ : test = ⟨.new, 0, 0, .awaitRead⟩ ∧ history = .start := hs
    exact init_keystrokes
  · obtain ⟨htest, hrecord⟩ := StepSystem.withHistory_step hstep
    cases he : s.1.event input with
    | none =>
      rw [TestState.record, he] at hrecord
      rw [TestState.client_of_no_event he htest, hrecord]
      exact .refl _
    | some e =>
      rw [TestState.record, he] at hrecord
      refine (StepSystem.Steps.refl (s.1.client, s.2)).tail (i := e) (hC e he) ?_
      have hclient : consoleSystem.step s.1.client e = _ := TestState.client_of_event he htest
      simp only [keystrokes, StepSystem.withHistory, hclient, map_ok, hrecord]

/-- So `ConsoleTest` loses no keystroke under the same condition. -/
theorem keepsKeystrokes_of_test {s : TestState × ConsoleHistory}
    (h : (testSystem.withHistory TestState.record .start).Reachable
      (fun s input => ∀ e, s.1.event input = some e → ¬ s.1.client.Overwrites e) s) :
    s.2.KeepsKeystrokes :=
  (consoleInvariant_of_reachable
    (TestState.reachable_client (C := fun s e => ¬ s.Overwrites e) h)).keepsKeystrokes

end Nachos
