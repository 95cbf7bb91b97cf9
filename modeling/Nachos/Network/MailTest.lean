import Nachos.FileSys.Directory
import Nachos.Network.Delivery

/-!
# The network test

`MailTest` of `network/nettest.cc`, which the main thread of every machine executes. It sends a
message to another machine, waits for the message of that machine, sends an acknowledgement to where
the message came from, waits for the acknowledgement of its own message, and halts.

The machines are in pairs, so that the machine to which a message is sent sends its own one back.
All of them have been started. A machine that has halted or aborted has closed its socket, and
`SendToSocket` asserts that the socket is there.

## Main definitions

* `MailTest`: the variables of `MailTest`, and what it does next.
* `MailWorld.step`, `mailSystem`: the machines, each of which executes `MailTest`.
* `Stage`: how far `MailTest` is, and what its machine has sent and received.
* `Plays`: a machine executes `MailTest`.

## Main results

* `Plays.perform`: the steps that `MailTest` does not make itself.
-/

namespace Nachos.Post

open Foundations Function
open FileSys (bcopy CString)

/-! ### The program -/

/-- What `MailTest` does next. -/
inductive MailPoint
  /-- It calls `Send` for `data`. -/
  | sendData
  /-- It calls `Receive` for the mailbox 0. -/
  | receiveData
  /-- It calls `Send` for `ack`, with the headers of the message that it has received. -/
  | sendAck (inPktHdr : PacketHeader) (inMailHdr : MailHeader)
  /-- It calls `Receive` for the mailbox 1. -/
  | receiveAck
  /-- It has called `Halt`. -/
  | halted
  deriving DecidableEq

/-- What is printed of a message that has been received: the text, `inPktHdr.from` and
`inMailHdr.from`. -/
structure MailLine where
  text : List (BitVec 8)
  source : Word
  box : Word
  deriving DecidableEq

/-- The variables of `MailTest`, and what it has printed. -/
structure MailTest where
  point : MailPoint
  buffer : Bytes
  printed : List MailLine

namespace MailTest

/-- The string `data`. -/
def data : CString := ⟨[72, 101, 108, 108, 111, 32, 116, 104, 101, 114, 101, 33], by decide⟩

/-- The string `ack`. -/
def ack : CString := ⟨[71, 111, 116, 32, 105, 116, 33], by decide⟩

/-- `outMailHdr` for a string, which is sent with its end to the mailbox `dest`. -/
def outMailHdr (dest : Word) (text : CString) : MailHeader :=
  ⟨dest, 1, BitVec.ofNat 32 (text.chars.length + 1)⟩

/-- The characters that `printf` prints of `buffer` for `%s`, which reads up to a zero byte. -/
def printString (buffer : Bytes) : Except Fault (List (BitVec 8)) :=
  let chars := (firstBytes maxMailSize buffer).takeWhile (· ≠ 0)
  if chars.length < maxMailSize then .ok chars else .error .undefined

/-- `Receive` has returned with these headers and the contents of `buffer`: print them, and go on
or halt. -/
def print (t : MailTest) (inPktHdr : PacketHeader) (inMailHdr : MailHeader) (buffer : Bytes) :
    Except Fault MailTest := do
  let text ← printString buffer
  return {
    point := if t.point = .receiveData then .sendAck inPktHdr inMailHdr else .halted
    buffer := buffer
    printed := t.printed ++ [⟨text, inPktHdr.source, inMailHdr.source⟩] }

end MailTest

/-- The machines, and what their main threads execute. -/
structure MailWorld where
  world : World Unit
  test : Word → MailTest

/-- What happens on a machine. -/
inductive MailInput
  /-- `MailTest` makes its next call. The fields of `outPktHdr` that it does not set contain `junk`,
  and the array that `Send` allocates contains `heap`. -/
  | main (junk : PacketHeader) (heap : Bytes)
  /-- Anything else: the rest of `Send`, the interrupts, and the worker thread. -/
  | office (a : Action Unit)

namespace MailWorld

variable (far : Word → Word) (s : MailWorld) (m : Word)

/-- The machine has no socket any more. -/
def Gone : Prop := (s.test m).point = .halted ∨ s.world.aborted m = true
  deriving Decidable

/-- `MailTest` calls `Send`, and goes on at the point `next`. -/
def send (next : MailPoint) (pktHdr : PacketHeader) (mailHdr : MailHeader) (text : CString)
    (heap : Bytes) : Except Fault MailWorld := do
  let world ← s.world.step (m, .call () pktHdr mailHdr text.charAt heap)
  return ⟨world, update s.test m { s.test m with point := next }⟩

/-- `MailTest` calls `Receive`. -/
def receive (box : Word) : Except Fault MailWorld := do
  let world ← s.world.step (m, .receive box (s.test m).buffer)
  match (s.world.machine m).office.receive box (s.test m).buffer with
  | .ok ((inPktHdr, inMailHdr, buffer), _) =>
    return ⟨world, update s.test m (← (s.test m).print inPktHdr inMailHdr buffer)⟩
  | .error _ => return { s with world := world }

/-- `MailTest(farAddr)` makes its next call, when the call before it has returned. -/
def main (junk : PacketHeader) (heap : Bytes) : Except Fault MailWorld :=
  match (s.world.machine m).senders () with
  | .outside =>
    match (s.test m).point with
    | .sendData =>
      s.send m .receiveData { junk with dest := far m } (MailTest.outMailHdr 0 MailTest.data)
        MailTest.data heap
    | .receiveData => s.receive m 0
    | .sendAck inPktHdr inMailHdr =>
      s.send m .receiveAck { junk with dest := inPktHdr.source }
        (MailTest.outMailHdr inMailHdr.source MailTest.ack) MailTest.ack heap
    | .receiveAck => s.receive m 1
    | .halted => .error .disabled
  | _ => .error .disabled

/-- An `ASSERT` of the machine fails. -/
def abort : MailWorld :=
  { s with world := { s.world with aborted := update s.world.aborted m true } }

/-- The action sends a datagram to a socket that does not exist. -/
def SendsNowhere (a : Action Unit) : Prop :=
  match a, (s.world.machine m).senders () with
  | .transmit () false _, .packed pktHdr _ _ _ => s.Gone pktHdr.dest
  | _, _ => False

instance (a : Action Unit) : Decidable (s.SendsNowhere m a) := by
  unfold SendsNowhere
  split <;> infer_instance

/-- A step that `MailTest` does not make itself. -/
def office (a : Action Unit) : Except Fault MailWorld :=
  match a with
  | .call .. | .receive .. => .error .disabled
  | a =>
    if s.world.aborted m then .error .disabled
    else if s.SendsNowhere m a then .ok (s.abort m)
    else (s.world.step (m, a)).map fun world => { s with world := world }

/-- A step of the machine `i.1`. -/
def step (i : Word × MailInput) : Except Fault MailWorld :=
  if (s.test i.1).point = .halted then .error .disabled
  else
    match i.2 with
    | .main junk heap => s.main far i.1 junk heap
    | .office a => s.office i.1 a

end MailWorld

/-- The machine `m` executes `MailTest(far m)`. A post office has 10 mailboxes. -/
def mailSystem (far : Word → Word) : StepSystem MailWorld (Word × MailInput) Fault where
  init s := ∃ (inHdr : Word → PacketHeader) (inbox buffer text : Word → Bytes),
    s = ⟨⟨fun m => .new m 10 (inHdr m) (inbox m) (buffer m), fun _ => [], fun _ => false,
      fun _ => [], fun _ _ => []⟩, fun m => ⟨.sendData, text m, []⟩⟩
  step := MailWorld.step far

/-! ### Letters -/

/-- The letters that an event adds to those that have been sent. -/
def Event.sentLetters : Event → List Letter
  | .sent letter _ => [letter]
  | _ => []

/-- The letters that an event adds to those that have been received from a mailbox. -/
def Event.receivedLetters (box : Word) : Event → List Letter
  | .received box' letter => if box = box' then [letter] else []
  | _ => []

namespace MailTest

variable {text : CString}

/-- The letter with which the machine `m` sends a string to a mailbox of its partner. -/
def letter (far : Word → Word) (m box : Word) (text : CString) : Letter :=
  ⟨m, far m, outMailHdr box text, text.chars ++ [0]⟩

theorem ack_ne_data {far : Word → Word} {m : Word} : letter far m 1 ack ≠ letter far m 0 data := by
  simp [letter, outMailHdr]

theorem firstBytes_charAt (text : CString) :
    firstBytes (text.chars.length + 1) text.charAt = text.chars ++ [0] := by
  rw [firstBytes, List.range_succ, List.map_append, List.map_singleton]
  refine congrArg₂ _ (List.ext_getElem (by simp) fun i hi hi' => ?_) ?_
  · simp [CString.charAt, List.getD_eq_getElem?_getD, hi']
  · simp [CString.charAt, List.getD_eq_getElem?_getD]

/-- The strings of `MailTest` are short. -/
def Short (text : CString) : Prop := text.chars.length < maxMailSize
  deriving Decidable

theorem Short.length (h : Short text) (dest : Word) :
    (outMailHdr dest text).length.toNat = text.chars.length + 1 := by
  have hlt : text.chars.length < 40 := h
  simp only [outMailHdr, BitVec.toNat_ofNat]
  omega

theorem Short.length_le (h : Short text) (dest : Word) :
    (outMailHdr dest text).length.toNat ≤ maxMailSize := by
  rw [h.length]
  exact h

theorem Short.letter_eq_new (h : Short text) {far : Word → Word} {m box : Word}
    {hdr : PacketHeader} (hsource : hdr.source = m) (hdest : hdr.dest = far m) :
    Letter.new hdr (outMailHdr box text) text.charAt = letter far m box text := by
  rw [Letter.new, h.length, firstBytes_charAt, hsource, hdest]
  rfl

/-- What `printf` prints of a buffer with a string. -/
theorem Short.printString (h : Short text) {buffer : Bytes}
    (hbuffer : firstBytes (text.chars.length + 1) buffer = text.chars ++ [0]) :
    printString buffer = .ok text.chars := by
  obtain ⟨k, hk⟩ := Nat.exists_eq_add_of_le (Nat.succ_le_of_lt h)
  have hsplit : firstBytes maxMailSize buffer =
      text.chars ++ 0 :: (List.range k).map (fun i => buffer (text.chars.length + 1 + i)) := by
    rw [hk, firstBytes, List.range_add, List.map_append, ← firstBytes, hbuffer, List.map_map]
    simp [Function.comp_def]
  have hchars : (firstBytes maxMailSize buffer).takeWhile (· ≠ 0) = text.chars := by
    rw [hsplit, List.takeWhile_append_of_pos fun c hc => ?_, List.takeWhile_cons_of_neg (by simp),
      List.append_nil]
    exact decide_eq_true fun h0 => text.nonzero (h0 ▸ hc)
  simp only [MailTest.printString, hchars]
  exact if_pos h

/-- The string that `MailTest` sends to each mailbox. -/
def textTo (box : Word) : CString := if box = 0 then data else ack

theorem short_textTo (box : Word) : Short (textTo box) := by
  unfold textTo
  split_ifs <;> decide

end MailTest

/-! ### How far a machine is -/

/-- A thread is in `Send` for a letter, or `Send` has returned: the thread, the units of
`messageSent` with those that are to come, and the letters that the machine has sent, which were
`before` at first. -/
inductive Sending (letter : Letter) (before : List Letter) : Sender → ℕ → List Letter → Prop
  | packed {pktHdr : PacketHeader} {mailHdr : MailHeader} {data buffer : Bytes}
      (hletter : Letter.new pktHdr mailHdr data = letter) :
      Sending letter before (.packed pktHdr mailHdr data buffer) 0 before
  | waiting : Sending letter before .waiting 1 (before ++ [letter])
  | returned : Sending letter before .outside 0 (before ++ [letter])

/-- At this point `MailTest` sends the string `text` to the mailbox `box`, and goes on at the point
`next`. -/
inductive MailPoint.Sends : MailPoint → Word → CString → MailPoint → Prop
  | data : Sends .sendData 0 MailTest.data .receiveData
  | ack {inPktHdr : PacketHeader} {inMailHdr : MailHeader} :
      Sends (.sendAck inPktHdr inMailHdr) 1 MailTest.ack .receiveAck

/-- At this point `MailTest` receives a letter from the mailbox `box`. -/
inductive MailPoint.Gets : MailPoint → Word → Prop
  | data : Gets .receiveData 0
  | ack : Gets .receiveAck 1

/-- How far `MailTest` is on the machine `m`: its point, the thread in `Send`, the units of
`messageSent`, the letters that have been sent, those that have been received from the mailboxes 0
and 1, and what has been printed. -/
inductive Stage (far : Word → Word) (m : Word) : MailPoint → Sender → ℕ → List Letter →
    List Letter → List Letter → List MailLine → Prop
  | sendData : Stage far m .sendData .outside 0 [] [] [] []
  | receiveData {sender : Sender} {units : ℕ} {sent : List Letter}
      (hsending : Sending (MailTest.letter far m 0 MailTest.data) [] sender units sent) :
      Stage far m .receiveData sender units sent [] [] []
  | sendAck {inPktHdr : PacketHeader} {inMailHdr : MailHeader}
      (hpktHdr : inPktHdr.source = far m) (hmailHdr : inMailHdr.source = 1) :
      Stage far m (.sendAck inPktHdr inMailHdr) .outside 0
        [MailTest.letter far m 0 MailTest.data] [MailTest.letter far (far m) 0 MailTest.data] []
        [⟨MailTest.data.chars, far m, 1⟩]
  | receiveAck {sender : Sender} {units : ℕ} {sent : List Letter}
      (hsending : Sending (MailTest.letter far m 1 MailTest.ack)
        [MailTest.letter far m 0 MailTest.data] sender units sent) :
      Stage far m .receiveAck sender units sent [MailTest.letter far (far m) 0 MailTest.data] []
        [⟨MailTest.data.chars, far m, 1⟩]
  | halted : Stage far m .halted .outside 0
      [MailTest.letter far m 0 MailTest.data, MailTest.letter far m 1 MailTest.ack]
      [MailTest.letter far (far m) 0 MailTest.data] [MailTest.letter far (far m) 1 MailTest.ack]
      [⟨MailTest.data.chars, far m, 1⟩, ⟨MailTest.ack.chars, far m, 1⟩]

namespace Stage

variable {far : Word → Word} {m : Word} {point : MailPoint} {sender : Sender} {units : ℕ}
  {sent got got' : List Letter} {printed : List MailLine}

theorem transmit {pktHdr : PacketHeader} {mailHdr : MailHeader} {data buffer : Bytes}
    (h : Stage far m point (.packed pktHdr mailHdr data buffer) units sent got got' printed) :
    Stage far m point .waiting (units + 1) (sent ++ [.new pktHdr mailHdr data]) got got'
      printed := by
  cases h with
  | receiveData hsending =>
    cases hsending with
    | packed hletter => exact .receiveData (hletter ▸ .waiting)
  | receiveAck hsending =>
    cases hsending with
    | packed hletter => exact .receiveAck (hletter ▸ .waiting)

theorem resume (h : Stage far m point .waiting (units + 1) sent got got' printed) :
    Stage far m point .outside units sent got got' printed := by
  cases h with
  | receiveData hsending =>
    cases hsending with
    | waiting => exact .receiveData .returned
  | receiveAck hsending =>
    cases hsending with
    | waiting => exact .receiveAck .returned

theorem send {b : Word} {text : CString} {next : MailPoint} {pktHdr : PacketHeader}
    {mailHdr : MailHeader} {data buffer : Bytes}
    (h : Stage far m point sender units sent got got' printed) (hsends : point.Sends b text next)
    (hletter : Letter.new pktHdr mailHdr data = MailTest.letter far m b text) :
    Stage far m next (.packed pktHdr mailHdr data buffer) units sent got got' printed := by
  cases hsends with
  | data =>
    cases h
    exact .receiveData (.packed hletter)
  | ack =>
    cases h
    exact .receiveAck (.packed hletter)

theorem receive {b : Word} {inPktHdr : PacketHeader} {inMailHdr : MailHeader}
    (h : Stage far m point .outside units sent got got' printed) (hgets : point.Gets b)
    (hpktHdr : inPktHdr.source = far m) (hmailHdr : inMailHdr.source = 1) :
    Stage far m (if point = .receiveData then .sendAck inPktHdr inMailHdr else .halted) .outside
      units sent
      (got ++ Event.receivedLetters 0
        (.received b (MailTest.letter far (far m) b (MailTest.textTo b))))
      (got' ++ Event.receivedLetters 1
        (.received b (MailTest.letter far (far m) b (MailTest.textTo b))))
      (printed ++ [⟨(MailTest.textTo b).chars, far m, 1⟩]) := by
  cases hgets with
  | data =>
    cases h with
    | receiveData hsending =>
      cases hsending
      exact .sendAck hpktHdr hmailHdr
  | ack =>
    cases h with
    | receiveAck hsending =>
      cases hsending
      exact .halted

/-- The headers that `MailTest` has got are those of the message of the partner. -/
theorem headers {inPktHdr : PacketHeader} {inMailHdr : MailHeader}
    (h : Stage far m (.sendAck inPktHdr inMailHdr) sender units sent got got' printed) :
    inPktHdr.source = far m ∧ inMailHdr.source = 1 := by
  cases h with
  | sendAck hpktHdr hmailHdr => exact ⟨hpktHdr, hmailHdr⟩

/-- The letters that `MailTest` sends. -/
theorem eq_of_mem (h : Stage far m point sender units sent got got' printed) {x : Letter}
    (hx : x ∈ sent) : (x.mailHdr.dest = 0 ∨ x.mailHdr.dest = 1) ∧
      x = MailTest.letter far m x.mailHdr.dest (MailTest.textTo x.mailHdr.dest) := by
  have hx' : x = MailTest.letter far m 0 MailTest.data ∨
      x = MailTest.letter far m 1 MailTest.ack := by
    cases h with
    | sendData => cases hx
    | receiveData hsending => cases hsending <;> simp_all
    | sendAck => exact .inl (List.mem_singleton.1 hx)
    | receiveAck hsending => cases hsending <;> simp_all
    | halted => simpa using hx
  rcases hx' with rfl | rfl
  · exact ⟨.inl rfl, rfl⟩
  · exact ⟨.inr rfl, rfl⟩

/-- The packet that is about to be sent goes to the partner. -/
theorem dest_packed {pktHdr : PacketHeader} {mailHdr : MailHeader} {data buffer : Bytes}
    (h : Stage far m point (.packed pktHdr mailHdr data buffer) units sent got got' printed) :
    pktHdr.dest = far m := by
  cases h with
  | receiveData hsending =>
    cases hsending with
    | packed hletter => exact congrArg Letter.dest hletter
  | receiveAck hsending =>
    cases hsending with
    | packed hletter => exact congrArg Letter.dest hletter

/-- A machine that is about to send a packet has not sent the acknowledgement. -/
theorem ack_notMem {pktHdr : PacketHeader} {mailHdr : MailHeader} {data buffer : Bytes}
    (h : Stage far m point (.packed pktHdr mailHdr data buffer) units sent got got' printed) :
    MailTest.letter far m 1 MailTest.ack ∉ sent := by
  cases h with
  | receiveData hsending =>
    cases hsending
    exact List.not_mem_nil
  | receiveAck hsending =>
    cases hsending
    simpa using MailTest.ack_ne_data

/-- A machine that has sent the acknowledgement has printed the message. -/
theorem printed_ne_nil (h : Stage far m point sender units sent got got' printed)
    (hsent : MailTest.letter far m 1 MailTest.ack ∈ sent) : printed ≠ [] := by
  cases h with
  | sendData => cases hsent
  | receiveData hsending =>
    cases hsending with
    | packed => cases hsent
    | waiting | returned => exact absurd (List.mem_singleton.1 hsent) MailTest.ack_ne_data
  | sendAck | receiveAck | halted => exact List.cons_ne_nil _ _

/-- What a machine prints. -/
theorem printed_isPrefix (h : Stage far m point sender units sent got got' printed) :
    printed <+: [⟨MailTest.data.chars, far m, 1⟩, ⟨MailTest.ack.chars, far m, 1⟩] := by
  cases h with
  | sendData | receiveData => exact ⟨_, rfl⟩
  | sendAck | receiveAck => exact ⟨_, rfl⟩
  | halted => exact List.prefix_rfl

/-- A machine halts when it has printed both messages. -/
theorem halted_iff (h : Stage far m point sender units sent got got' printed) :
    point = .halted ↔ printed.length = 2 := by
  cases h <;> simp

/-- A machine that has halted has received the acknowledgement. -/
theorem received_of_halted (h : Stage far m .halted sender units sent got got' printed) :
    got' = [MailTest.letter far (far m) 1 MailTest.ack] := by
  cases h
  rfl

end Stage

/-- The machine `m` executes `MailTest`. -/
structure Plays (far : Word → Word) (m : Word) (test : MailTest) (mach : Machine Unit)
    (sent : List Letter) (received : Word → List Letter) : Prop where
  numBoxes : mach.office.numBoxes = 10
  sendBusy : mach.office.network.sendBusy = false
  stage : Stage far m test.point (mach.senders ())
    (mach.office.messageSent + mach.pendingSendDone) sent (received 0) (received 1) test.printed

/-! ### Packets -/

section

variable {hdr : PacketHeader} {mailHdr : MailHeader} {data buffer heap : Bytes}

theorem Fits.length_pos (h : Fits hdr buffer) : 0 < hdr.length.toNat := by
  obtain ⟨mailHdr, data, h⟩ := h
  rw [h.length, MailHeader.size_layout]
  exact Nat.add_pos_left (by decide) _

theorem Fits.length_le (h : Fits hdr buffer) : hdr.length.toNat ≤ maxPacketSize := by
  obtain ⟨mailHdr, data, h⟩ := h
  rw [h.length]
  exact Nat.add_le_add_left h.le MailHeader.layout.size

theorem Network.exists_send {net : Network} (hbusy : net.sendBusy = false)
    (hsource : hdr.source = net.ident) (hpacked : Packed hdr buffer mailHdr data) (lost : Bool) :
    ∃ datagram, net.send hdr buffer heap lost = .ok datagram := by
  have hfits : Fits hdr buffer := ⟨mailHdr, data, hpacked⟩
  rw [send, if_pos ⟨hbusy, hfits.length_pos, hfits.length_le, hsource⟩]
  split_ifs
  · exact ⟨_, rfl⟩
  · exact ⟨_, rfl⟩

theorem Network.exists_checkPktAvail {net : Network} {m : Word} {socket : List Bytes}
    (hident : net.ident = m) (hsocket : ∀ wire ∈ socket, IsMailFor m wire) (ready : Bool) :
    ∃ result, net.checkPktAvail socket ready = .ok result := by
  by_cases hlen : net.inHdr.length ≠ 0
  · exact ⟨_, if_pos hlen⟩
  unfold checkPktAvail
  rw [if_neg hlen]
  split
  next buffer rest =>
    obtain ⟨hdest, hfits⟩ := hsocket buffer List.mem_cons_self
    exact ⟨_, if_pos ⟨hdest.trans hident.symm, hfits.length_le⟩⟩
  next => exact ⟨_, rfl⟩

theorem PostOffice.exists_deliver {office : PostOffice}
    (hbox : office.IsBox (Letter.ofPacket hdr buffer).mailHdr.dest)
    (hle : (Letter.ofPacket hdr buffer).mailHdr.length.toNat ≤ maxMailSize) :
    ∃ office', office.deliver hdr buffer heap = .ok office' := by
  have hput : ∃ box, (office.boxes (Letter.ofPacket hdr buffer).mailHdr.dest).put hdr
      (Letter.ofPacket hdr buffer).mailHdr (behind MailHeader.layout.size buffer) heap =
        .ok box := by
    rw [MailBox.put, Mail.new, if_pos hle]
    exact ⟨_, rfl⟩
  obtain ⟨box, hput⟩ := hput
  exact ⟨_, (if_pos ⟨hbox, hle⟩).trans (bind_eq_ok.2 ⟨box, hput, rfl⟩)⟩

end

/-! ### What `MailTest` does not do itself -/

/-- A call that `MailTest` makes. -/
def Action.isMain {τ : Type} : Action τ → Bool
  | .call .. | .receive .. => true
  | _ => false

section

variable {far : Word → Word} {m : Word} {test : MailTest} {mach mach' : Machine Unit}
  {sent : List Letter} {received : Word → List Letter} {socket socket' : List Bytes}
  {event : Event} {a : Action Unit}

theorem Network.sendBusy_of_checkPktAvail {net net' : Network} {ready arrived : Bool}
    (h : net.checkPktAvail socket ready = .ok (net', socket', arrived)) :
    net'.sendBusy = net.sendBusy := by
  simp only [checkPktAvail] at h
  split_ifs at h
  · cases h
    rfl
  · split at h
    · split_ifs at h
      cases h
      rfl
    · cases h
      rfl

theorem Plays.quiet (h : Plays far m test mach sent received) :
    Plays far m test mach (sent ++ Event.quiet.sentLetters)
      fun box => received box ++ Event.quiet.receivedLetters box := by
  simpa [Event.sentLetters, Event.receivedLetters] using h

/-- `Send` accepts short letters to mailboxes that exist. -/
theorem PostOffice.exists_pack {office : PostOffice} {pktHdr : PacketHeader}
    {mailHdr : MailHeader} {data heap : Bytes} (hlen : mailHdr.length.toNat ≤ maxMailSize)
    (hbox : office.IsBox mailHdr.dest) :
    ∃ hdr buffer, office.pack pktHdr mailHdr data heap = .ok (hdr, buffer) ∧
      hdr.dest = pktHdr.dest :=
  ⟨_, _, if_pos ⟨hlen, hbox⟩, rfl⟩

theorem Plays.isBox (h : Plays far m test mach sent received) {b : Word} (hb : b = 0 ∨ b = 1) :
    mach.office.IsBox b := by
  rw [PostOffice.IsBox, h.numBoxes]
  rcases hb with rfl | rfl <;> decide

/-- The steps that `MailTest` does not make itself. -/
theorem Plays.perform (h : Plays far m test mach sent received) (ha : a.isMain = false)
    (hp : mach.perform socket a = .ok (mach', socket', event)) :
    Plays far m test mach' (sent ++ event.sentLetters)
      fun box => received box ++ event.receivedLetters box := by
  obtain ⟨hboxes, hbusy, hstage⟩ := h
  cases a with
  | call | receive => cases ha
  | transmit t lost heap =>
    simp only [Machine.perform] at hp
    split at hp
    case h_2 => cases hp
    next hsender =>
      obtain ⟨datagram, -, hp⟩ := bind_eq_ok.1 hp
      cases hp
      rw [hsender] at hstage
      refine ⟨hboxes, hbusy, ?_⟩
      simp only [update_self, Event.sentLetters, Event.receivedLetters, List.append_nil]
      exact hstage.transmit
  | resume t =>
    simp only [Machine.perform] at hp
    split at hp
    case h_2 => cases hp
    next n hsender hunits =>
      cases hp
      rw [hsender, hunits, Nat.succ_add] at hstage
      refine Plays.quiet ⟨hboxes, hbusy, ?_⟩
      simp only [update_self]
      exact hstage.resume
  | sendDone =>
    simp only [Machine.perform] at hp
    split at hp
    case h_2 => cases hp
    next n hunits =>
      cases hp
      rw [hunits, ← Nat.succ_add_eq_add_succ] at hstage
      exact Plays.quiet ⟨hboxes, rfl, hstage⟩
  | poll ready =>
    obtain ⟨⟨net, rest, arrived⟩, hcheck, hp⟩ := bind_eq_ok.1 hp
    cases hp
    have hbusy' := (Network.sendBusy_of_checkPktAvail hcheck).trans hbusy
    refine Plays.quiet ?_
    cases arrived with
    | false => exact ⟨hboxes, hbusy', hstage⟩
    | true => exact ⟨hboxes, hbusy', hstage⟩
  | wake =>
    simp only [Machine.perform] at hp
    split at hp
    case h_2 => cases hp
    cases hp
    exact Plays.quiet ⟨hboxes, hbusy, hstage⟩
  | take =>
    simp only [Machine.perform] at hp
    split at hp
    case h_2 => cases hp
    cases hp
    exact Plays.quiet ⟨hboxes, hbusy, hstage⟩
  | deliver heap =>
    simp only [Machine.perform] at hp
    split at hp
    case h_2 => cases hp
    obtain ⟨office, hdeliver, hp⟩ := bind_eq_ok.1 hp
    cases hp
    obtain ⟨mail, -, rfl⟩ := PostOffice.deliver_spec hdeliver
    exact Plays.quiet ⟨hboxes, hbusy, hstage⟩

end

end Nachos.Post
