import Nachos.Network.MailTest

/-!
# What the machines of the network test agree on

The runs of all machines that execute `MailTest`, whatever packets are lost.

## Main definitions

* `MailWorld.Safe`: the invariant.
* `MailWorld.Moves`: what a step of a machine can be.

## Main results

* `MailWorld.Safe.moves`, `MailWorld.Safe.step`: the steps.
* `mailTest_agrees`.
-/

namespace Nachos.Post

open Foundations Function
open FileSys (bcopy CString)

/-! ### All machines -/

namespace World

variable {τ : Type} {w : World τ} {m : Word} {mach : Machine τ} {socket : List Bytes}
  {event : Event} {a : Action τ}

theorem machine_record : (w.record m event).machine = w.machine := by
  rcases event with _ | ⟨letter, _ | ⟨dest, wire⟩⟩ | ⟨box, letter⟩ <;> rfl

theorem aborted_record : (w.record m event).aborted = w.aborted := by
  rcases event with _ | ⟨letter, _ | ⟨dest, wire⟩⟩ | ⟨box, letter⟩ <;> rfl

theorem sent_record_eq :
    (w.record m event).sent = update w.sent m (w.sent m ++ event.sentLetters) := by
  rcases event with _ | ⟨letter, _ | ⟨dest, wire⟩⟩ | ⟨box, letter⟩ <;>
    simp [record, Event.sentLetters]

theorem received_record_eq : (w.record m event).received =
    update w.received m fun box => w.received m box ++ event.receivedLetters box := by
  rcases event with _ | ⟨letter, _ | ⟨dest, wire⟩⟩ | ⟨box, letter⟩
  · simp [record, Event.receivedLetters]
  · simp [record, Event.receivedLetters]
  · simp [record, Event.receivedLetters]
  · refine congrArg (update w.received m) (funext fun box' => ?_)
    by_cases hbox : box' = box
    · subst hbox
      simp [Event.receivedLetters]
    · simp [Event.receivedLetters, hbox]

variable [DecidableEq τ]

theorem step_of_ok (hm : w.aborted m = false)
    (hp : (w.machine m).perform (w.socket m) a = .ok (mach, socket, event)) :
    w.step (m, a) = .ok ((w.replace m mach socket).record m event) := by
  simp [step, hm, hp]

theorem step_of_assertion (hm : w.aborted m = false)
    (hp : (w.machine m).perform (w.socket m) a = .error .assertion) :
    w.step (m, a) = .ok { w with aborted := update w.aborted m true } := by
  simp [step, hm, hp]

end World

/-- What holds in every run. -/
structure MailWorld.Safe (far : Word → Word) (s : MailWorld) : Prop where
  sound : s.world.Sound
  inOrder : ∀ k m b, (s.world.channel k m b).InOrder
  plays : ∀ m, Plays far m (s.test m) (s.world.machine m) (s.world.sent m) (s.world.received m)

namespace MailWorld

variable {far : Word → Word} {s s' : MailWorld} {m b : Word} {text : CString}

/-! ### Calls of `MailTest` -/

section Calls

variable {pktHdr : PacketHeader}

/-- `Send` returns to the main thread when the network has the packet. Up to there it does not
fail. -/
theorem Safe.perform_call (h : s.Safe far)
    (hout : (s.world.machine m).senders () = .outside) (hb : b = 0 ∨ b = 1)
    (hshort : MailTest.Short text) (hdest : pktHdr.dest = far m) (heap : Bytes) :
    ∃ hdr buffer, Letter.new hdr (MailTest.outMailHdr b text) text.charAt =
        MailTest.letter far m b text ∧
      (s.world.machine m).perform (s.world.socket m)
          (.call () pktHdr (MailTest.outMailHdr b text) text.charAt heap) =
        .ok ({ s.world.machine m with
          senders := update (s.world.machine m).senders ()
            (.packed hdr (MailTest.outMailHdr b text) text.charAt buffer) },
          s.world.socket m, .quiet) := by
  obtain ⟨hdr, buffer, hpack, hhdr⟩ : ∃ hdr buffer, (s.world.machine m).office.pack pktHdr
      (MailTest.outMailHdr b text) text.charAt heap = .ok (hdr, buffer) ∧
      hdr.dest = pktHdr.dest :=
    PostOffice.exists_pack (hshort.length_le b) ((h.plays m).isBox hb)
  have hsource : hdr.source = m :=
    (PostOffice.pack_spec hpack).1.trans (h.sound.machine m).netAddr
  refine ⟨hdr, buffer, hshort.letter_eq_new hsource (hhdr.trans hdest), ?_⟩
  simp only [Machine.perform, hout, hpack]
  rfl

/-- `Receive` on an empty mailbox calls `Condition::Wait`. -/
theorem Safe.receive_eq_of_nil (h : s.Safe far) (haborted : s.world.aborted m = false)
    (hb : b = 0 ∨ b = 1) (hnil : (s.world.machine m).office.boxes b = []) :
    s.receive m b = .ok (s.abort m) := by
  have hreceive : (s.world.machine m).office.receive b (s.test m).buffer = .error .assertion := by
    rw [PostOffice.receive, if_pos ((h.plays m).isBox hb), hnil]
    rfl
  have hp : (s.world.machine m).perform (s.world.socket m) (.receive b (s.test m).buffer) =
      .error .assertion := by
    simp only [Machine.perform, hreceive]
    rfl
  simp only [receive, World.step_of_assertion haborted hp, hreceive]
  rfl

/-- `Receive` takes the first letter, and its text is printed. -/
theorem Safe.receive_eq_of_cons (h : s.Safe far) (hb : b = 0 ∨ b = 1) {mail : Mail}
    {messages : MailBox}
    (hcons : (s.world.machine m).office.boxes b = mail :: messages)
    (hletter : mail.letter = MailTest.letter far (far m) b text) (hshort : MailTest.Short text) :
    ∃ inPktHdr inMailHdr buffer, inPktHdr.source = far m ∧ inMailHdr.source = 1 ∧
      (s.world.machine m).perform (s.world.socket m) (.receive b (s.test m).buffer) =
        .ok ({ s.world.machine m with
          office := { (s.world.machine m).office with
            boxes := update (s.world.machine m).office.boxes b messages } },
          s.world.socket m, .received b mail.letter) ∧
      s.receive m b = (s.world.step (m, .receive b (s.test m).buffer)).map fun world =>
        ⟨world, update s.test m
          { point :=
              if (s.test m).point = .receiveData then .sendAck inPktHdr inMailHdr else .halted
            buffer := buffer
            printed := (s.test m).printed ++ [⟨text.chars, far m, 1⟩] }⟩ := by
  have hmailHdr : mail.mailHdr = MailTest.outMailHdr b text := congrArg Letter.mailHdr hletter
  have hsource : mail.pktHdr.source = far m := congrArg Letter.source hletter
  have hlen : mail.mailHdr.length.toNat = text.chars.length + 1 := by
    rw [hmailHdr, hshort.length]
  have hdata : firstBytes (text.chars.length + 1) mail.data = text.chars ++ [0] := by
    rw [← hlen]
    exact congrArg Letter.data hletter
  have hle : mail.mailHdr.length.toNat ≤ maxMailSize := hlen ▸ hshort
  let buffer := bcopy mail.data (s.test m).buffer 0 mail.mailHdr.length.toNat
  have hbuffer : firstBytes (text.chars.length + 1) buffer = text.chars ++ [0] := by
    rw [← hdata]
    exact firstBytes_congr fun i hi => bcopy_zero (hlen ▸ hi)
  have hreceive : (s.world.machine m).office.receive b (s.test m).buffer =
      .ok ((mail.pktHdr, mail.mailHdr, buffer), { (s.world.machine m).office with
        boxes := update (s.world.machine m).office.boxes b messages }) := by
    rw [PostOffice.receive, if_pos ((h.plays m).isBox hb), hcons]
    simp only [MailBox.get, ok_bind, if_pos hle]
    rfl
  refine ⟨mail.pktHdr, mail.mailHdr, buffer, hsource, by rw [hmailHdr]; rfl, ?_, ?_⟩
  · have hnew : Letter.new mail.pktHdr mail.mailHdr buffer = mail.letter :=
      congrArg (Letter.mk _ _ _) (firstBytes_congr fun i hi => bcopy_zero hi)
    simp only [Machine.perform, hreceive, ok_bind, hnew]
    rfl
  · cases hw : s.world.step (m, .receive b (s.test m).buffer) with
    | error e =>
      simp only [receive, hw]
      rfl
    | ok world =>
      simp only [receive, hw, hreceive, MailTest.print, hshort.printString hbuffer, hsource,
        ok_bind]
      rw [hmailHdr]
      rfl

end Calls

/-! ### Letters under way -/

/-- What is on the way to a mailbox, or has arrived there, has been sent by the partner. -/
theorem Safe.eq_of_channel (hfar : ∀ m, far (far m) = m) (h : s.Safe far) {k : Word}
    {x : Letter} (hx : x ∈ (s.world.channel k m b).arrived ++ (s.world.channel k m b).transit) :
    k = far m ∧ x ∈ s.world.sent (far m) ∧ (b = 0 ∨ b = 1) ∧
      x = MailTest.letter far (far m) b (MailTest.textTo b) := by
  obtain ⟨hsent, hdest⟩ := List.mem_filter.1 ((h.inOrder k m b).subset hx)
  obtain ⟨hdest, hbox⟩ := of_decide_eq_true hdest
  obtain ⟨hb, heq⟩ := (h.plays k).stage.eq_of_mem hsent
  rw [hbox] at hb heq
  have hk : far k = m := (congrArg Letter.dest heq).symm.trans hdest
  have hk' : k = far m := by rw [← hk, hfar]
  subst hk'
  exact ⟨rfl, hsent, hb, heq⟩

theorem Safe.eq_of_arrived (hfar : ∀ m, far (far m) = m) (h : s.Safe far) {x : Letter}
    (hx : x ∈ s.world.arrived m b) : x ∈ s.world.sent (far m) ∧ (b = 0 ∨ b = 1) ∧
      x = MailTest.letter far (far m) b (MailTest.textTo b) :=
  (h.eq_of_channel hfar (k := x.source)
    (List.mem_append_left _ (List.mem_filter.2 ⟨hx, by simp⟩))).2

theorem Safe.letter_eq_of_cons (hfar : ∀ m, far (far m) = m) (h : s.Safe far) {mail : Mail}
    {messages : MailBox} (hbox : (s.world.machine m).office.boxes b = mail :: messages) :
    mail.letter = MailTest.letter far (far m) b (MailTest.textTo b) :=
  (h.eq_of_arrived hfar (by simp [World.arrived, hbox])).2.2

theorem Safe.eq_of_flow (hfar : ∀ m, far (far m) = m) (h : s.Safe far) {x : Letter}
    (hx : x ∈ s.world.flow m) : x.source = far m ∧ x ∈ s.world.sent (far m) ∧
      (x.mailHdr.dest = 0 ∨ x.mailHdr.dest = 1) ∧
      x = MailTest.letter far (far m) x.mailHdr.dest (MailTest.textTo x.mailHdr.dest) :=
  h.eq_of_channel hfar (List.mem_append_right _ (List.mem_filter.2 ⟨hx, by simp⟩))

/-! ### Steps -/

/-- `MailTest` is about to call `Receive` for a mailbox that is empty. -/
def WaitsInVain (s : MailWorld) (m : Word) : Prop :=
  (s.test m).point = .receiveData ∧ (s.world.machine m).office.boxes 0 = [] ∨
    (s.test m).point = .receiveAck ∧ (s.world.machine m).office.boxes 1 = []
  deriving Decidable

theorem WaitsInVain.of_gets (hgets : (s.test m).point.Gets b)
    (hnil : (s.world.machine m).office.boxes b = []) : s.WaitsInVain m := by
  unfold WaitsInVain
  generalize (s.test m).point = point at hgets
  cases hgets with
  | data => exact .inl ⟨rfl, hnil⟩
  | ack => exact .inr ⟨rfl, hnil⟩

/-- What a step of the machine `m` can be. -/
inductive Moves (far : Word → Word) (s : MailWorld) (m : Word) :
    MailInput → Except Fault MailWorld → Prop
  | disabled {i : MailInput} : Moves far s m i (.error .disabled)
  | waitInVain {junk : PacketHeader} {heap : Bytes} (hvain : s.WaitsInVain m) :
      Moves far s m (.main junk heap) (.ok (s.abort m))
  | sendNowhere {a : Action Unit} (hgone : s.world.aborted (far m) = true) :
      Moves far s m (.office a) (.ok (s.abort m))
  | office {a : Action Unit} {mach : Machine Unit} {socket : List Bytes} {event : Event}
      (haborted : s.world.aborted m = false) (ha : a.isMain = false)
      (hp : (s.world.machine m).perform (s.world.socket m) a = .ok (mach, socket, event)) :
      Moves far s m (.office a) (.ok ⟨(s.world.replace m mach socket).record m event, s.test⟩)
  | send {junk : PacketHeader} {heap data buffer : Bytes} {a : Action Unit} {b : Word}
      {text : CString} {next : MailPoint} {hdr : PacketHeader} {mailHdr : MailHeader}
      {mach : Machine Unit} (haborted : s.world.aborted m = false)
      (hout : (s.world.machine m).senders () = .outside)
      (hsends : (s.test m).point.Sends b text next)
      (hletter : Letter.new hdr mailHdr data = MailTest.letter far m b text)
      (hmach : mach = { s.world.machine m with
        senders := update (s.world.machine m).senders () (.packed hdr mailHdr data buffer) })
      (hp : (s.world.machine m).perform (s.world.socket m) a =
        .ok (mach, s.world.socket m, .quiet)) :
      Moves far s m (.main junk heap) (.ok
        ⟨(s.world.replace m mach (s.world.socket m)).record m .quiet,
          update s.test m { s.test m with point := next }⟩)
  | receive {junk inPktHdr : PacketHeader} {heap buffer : Bytes} {a : Action Unit} {b : Word}
      {inMailHdr : MailHeader} {mail : Mail} {messages : MailBox} {mach : Machine Unit}
      (haborted : s.world.aborted m = false)
      (hout : (s.world.machine m).senders () = .outside) (hgets : (s.test m).point.Gets b)
      (hbox : (s.world.machine m).office.boxes b = mail :: messages)
      (hletter : mail.letter = MailTest.letter far (far m) b (MailTest.textTo b))
      (hpktHdr : inPktHdr.source = far m) (hmailHdr : inMailHdr.source = 1)
      (hmach : mach = { s.world.machine m with
        office := { (s.world.machine m).office with
          boxes := update (s.world.machine m).office.boxes b messages } })
      (hp : (s.world.machine m).perform (s.world.socket m) a =
        .ok (mach, s.world.socket m, .received b mail.letter)) :
      Moves far s m (.main junk heap) (.ok
        ⟨(s.world.replace m mach (s.world.socket m)).record m (.received b mail.letter),
          update s.test m
            { point :=
                if (s.test m).point = .receiveData then .sendAck inPktHdr inMailHdr else .halted
              buffer := buffer
              printed := (s.test m).printed ++ [⟨(MailTest.textTo b).chars, far m, 1⟩] }⟩)

theorem Moves.eq_disabled {i : MailInput} {e : Fault} (h : Moves far s m i (.error e)) :
    e = .disabled := by
  cases h
  rfl

/-- A machine that aborts has called `Receive` for an empty mailbox, or its partner has aborted. -/
theorem Moves.cause {i : MailInput} (h : Moves far s m i (.ok s'))
    (haborted : s'.world.aborted m = true) :
    s.WaitsInVain m ∨ s.world.aborted (far m) = true := by
  cases h with
  | waitInVain hvain => exact .inl hvain
  | sendNowhere hgone => exact .inr hgone
  | office hrun | send hrun | receive hrun =>
    rw [World.aborted_record] at haborted
    exact absurd (haborted.symm.trans hrun) (by decide)

/-- The network device accepts the packet of `Send`. -/
theorem Safe.exists_transmit (h : s.Safe far) {pktHdr : PacketHeader} {mailHdr : MailHeader}
    {data buffer : Bytes}
    (hsender : (s.world.machine m).senders () = .packed pktHdr mailHdr data buffer)
    (lost : Bool) (heap : Bytes) :
    ∃ datagram, (s.world.machine m).office.network.send pktHdr buffer heap lost = .ok datagram := by
  obtain ⟨hsource, hpacked⟩ := (h.sound.machine m).packed _ _ _ _ _ hsender
  exact Network.exists_send (h.plays m).sendBusy
    (hsource.trans (h.sound.machine m).ident.symm) hpacked lost

/-- There is a mailbox for the packet that the worker thread has taken. -/
theorem Safe.exists_deliver (hfar : ∀ m, far (far m) = m) (h : s.Safe far)
    {pktHdr : PacketHeader} (hworker : (s.world.machine m).worker = .holding pktHdr)
    (heap : Bytes) :
    ∃ office, (s.world.machine m).office.deliver pktHdr (s.world.machine m).buffer heap =
      .ok office := by
  have hmem : Letter.ofPacket pktHdr (s.world.machine m).buffer ∈ s.world.flow m := by
    simp [World.flow, Machine.flow, Machine.held, hworker]
  obtain ⟨-, -, hb, heq⟩ := h.eq_of_flow hfar hmem
  refine PostOffice.exists_deliver ((h.plays m).isBox hb) ?_
  rw [congrArg Letter.mailHdr heq]
  exact (MailTest.short_textTo _).length_le _

/-- The steps that `MailTest` does not make itself do not fail. -/
theorem Safe.perform_error (hfar : ∀ m, far (far m) = m) (h : s.Safe far) {a : Action Unit}
    (ha : a.isMain = false) {e : Fault}
    (hp : (s.world.machine m).perform (s.world.socket m) a = .error e) : e = .disabled := by
  cases a with
  | call | receive => cases ha
  | transmit t lost heap =>
    simp only [Machine.perform] at hp
    split at hp
    case h_2 => cases hp; rfl
    next hsender =>
      obtain ⟨datagram, hsend⟩ := h.exists_transmit hsender lost heap
      rw [hsend] at hp
      cases hp
  | resume t | sendDone | wake | take =>
    simp only [Machine.perform] at hp
    split at hp <;> cases hp
    rfl
  | poll ready =>
    obtain ⟨result, hcheck⟩ :=
      Network.exists_checkPktAvail (h.sound.machine m).ident (h.sound.socket m) ready
    simp only [Machine.perform, hcheck, ok_bind] at hp
    cases hp
  | deliver heap =>
    simp only [Machine.perform] at hp
    split at hp
    case h_2 => cases hp; rfl
    next hworker =>
      obtain ⟨office, hdeliver⟩ := h.exists_deliver hfar hworker heap
      rw [hdeliver] at hp
      cases hp

/-- The partner of a machine that has halted has sent the acknowledgement. -/
theorem Safe.ack_mem (hfar : ∀ m, far (far m) = m) (h : s.Safe far)
    (hhalted : (s.test m).point = .halted) :
    MailTest.letter far (far m) 1 MailTest.ack ∈ s.world.sent (far m) := by
  have hstage := (h.plays m).stage
  rw [hhalted] at hstage
  refine (h.eq_of_arrived hfar (b := 1) (List.mem_append_left _ ?_)).1
  rw [hstage.received_of_halted]
  exact List.mem_singleton_self _

/-- No packet is sent to a machine that has halted. -/
theorem Safe.aborted_of_sendsNowhere (hfar : ∀ m, far (far m) = m) (h : s.Safe far)
    {a : Action Unit} (ha : s.SendsNowhere m a) : s.world.aborted (far m) = true := by
  have hstage := (h.plays m).stage
  unfold SendsNowhere at ha
  split at ha
  case h_2 => exact ha.elim
  next hsender =>
    rw [hsender] at hstage
    rw [hstage.dest_packed] at ha
    refine ha.resolve_left fun hhalted => hstage.ack_notMem ?_
    have hmem := h.ack_mem hfar hhalted
    rwa [hfar] at hmem

section

variable {junk pktHdr : PacketHeader} {heap : Bytes} {next : MailPoint}

theorem Safe.moves_send (h : s.Safe far) (hout : (s.world.machine m).senders () = .outside)
    (hsends : (s.test m).point.Sends b text next) (hdest : pktHdr.dest = far m) :
    Moves far s m (.main junk heap)
      (s.send m next pktHdr (MailTest.outMailHdr b text) text heap) := by
  have hb : (b = 0 ∨ b = 1) ∧ MailTest.Short text := by
    generalize (s.test m).point = point at hsends
    cases hsends with
    | data => exact ⟨.inl rfl, by decide⟩
    | ack => exact ⟨.inr rfl, by decide⟩
  obtain ⟨hdr, buffer, hletter, hp⟩ := h.perform_call hout hb.1 hb.2 hdest heap
  cases haborted : s.world.aborted m with
  | true =>
    simp only [MailWorld.send, World.step, haborted]
    exact .disabled
  | false =>
    simp only [MailWorld.send, World.step_of_ok haborted hp]
    exact .send haborted hout hsends hletter rfl hp

theorem Safe.moves_receive (hfar : ∀ m, far (far m) = m) (h : s.Safe far)
    (hout : (s.world.machine m).senders () = .outside) (hgets : (s.test m).point.Gets b) :
    Moves far s m (.main junk heap) (s.receive m b) := by
  have hb : b = 0 ∨ b = 1 := by
    generalize (s.test m).point = point at hgets
    cases hgets with
    | data => exact .inl rfl
    | ack => exact .inr rfl
  cases haborted : s.world.aborted m with
  | true =>
    simp only [MailWorld.receive, World.step, haborted]
    exact .disabled
  | false =>
    cases hbox : (s.world.machine m).office.boxes b with
    | nil =>
      rw [h.receive_eq_of_nil haborted hb hbox]
      exact .waitInVain (.of_gets hgets hbox)
    | cons mail messages =>
      have hletter := h.letter_eq_of_cons hfar hbox
      obtain ⟨inPktHdr, inMailHdr, buffer, hpktHdr, hmailHdr, hp, hreceive⟩ :=
        h.receive_eq_of_cons hb hbox hletter (MailTest.short_textTo b)
      rw [hreceive, World.step_of_ok haborted hp]
      exact .receive haborted hout hgets hbox hletter hpktHdr hmailHdr rfl hp

theorem Safe.moves_main (hfar : ∀ m, far (far m) = m) (h : s.Safe far) :
    Moves far s m (.main junk heap) (s.main far m junk heap) := by
  have hstage := (h.plays m).stage
  unfold MailWorld.main
  split
  case h_2 => exact .disabled
  next hout =>
    split
    next hpoint => exact h.moves_send hout (hpoint ▸ .data) rfl
    next hpoint => exact h.moves_receive hfar hout (hpoint ▸ .data)
    next inPktHdr inMailHdr hpoint =>
      rw [hpoint] at hstage
      obtain ⟨hpktHdr, hmailHdr⟩ := hstage.headers
      rw [hmailHdr]
      exact h.moves_send hout (hpoint ▸ .ack) hpktHdr
    next hpoint => exact h.moves_receive hfar hout (hpoint ▸ .ack)
    next => exact .disabled

end

theorem Safe.moves_office (hfar : ∀ m, far (far m) = m) (h : s.Safe far) (a : Action Unit) :
    Moves far s m (.office a) (s.office m a) := by
  by_cases ha : a.isMain = true
  · cases a with
    | call | receive => exact .disabled
    | _ => cases ha
  have hoffice : s.office m a = if s.world.aborted m then .error .disabled
      else if s.SendsNowhere m a then .ok (s.abort m)
      else (s.world.step (m, a)).map fun world => { s with world := world } := by
    cases a with
    | call | receive => exact absurd rfl ha
    | _ => rfl
  rw [Bool.not_eq_true] at ha
  rw [hoffice]
  split_ifs with haborted hnowhere
  · exact .disabled
  · exact .sendNowhere (h.aborted_of_sendsNowhere hfar hnowhere)
  · rw [Bool.not_eq_true] at haborted
    cases hp : (s.world.machine m).perform (s.world.socket m) a with
    | error e =>
      cases h.perform_error hfar ha hp
      simp only [World.step, haborted, hp]
      exact .disabled
    | ok result =>
      rw [World.step_of_ok haborted hp]
      exact .office haborted ha hp

/-- The steps of a machine. -/
theorem Safe.moves (hfar : ∀ m, far (far m) = m) (h : s.Safe far) (i : Word × MailInput) :
    Moves far s i.1 i.2 (s.step far i) := by
  obtain ⟨m, i⟩ := i
  unfold MailWorld.step
  split_ifs
  · exact .disabled
  · cases i with
    | main junk heap => exact h.moves_main hfar
    | office a => exact h.moves_office hfar a

/-- A step of the machine `m`. -/
theorem Safe.of_perform (h : s.Safe far) {a : Action Unit} {mach : Machine Unit}
    {socket : List Bytes} {event : Event} (haborted : s.world.aborted m = false)
    (hp : (s.world.machine m).perform (s.world.socket m) a = .ok (mach, socket, event))
    {test : MailTest} (hplays : Plays far m test mach (s.world.sent m ++ event.sentLetters)
      fun box => s.world.received m box ++ event.receivedLetters box) :
    Safe far ⟨(s.world.replace m mach socket).record m event, update s.test m test⟩ := by
  obtain ⟨hsound, hchannel⟩ := h.sound.step (World.step_of_ok haborted hp)
  refine ⟨hsound, fun k n b => (h.inOrder k n b).reflGen (hchannel k n b), fun k => ?_⟩
  simp only [World.machine_record, World.sent_record_eq, World.received_record_eq, World.replace]
  by_cases hk : k = m
  · subst hk
    simpa using hplays
  · simpa [hk] using h.plays k

/-- Every step of every machine. -/
theorem Safe.step (hfar : ∀ m, far (far m) = m) (h : s.Safe far) {i : Word × MailInput}
    (hs : s.step far i = .ok s') : s'.Safe far := by
  obtain ⟨m, i⟩ := i
  have hplays := h.plays m
  have hstage := hplays.stage
  cases hs ▸ h.moves hfar (m, i) with
  | waitInVain | sendNowhere =>
    exact ⟨⟨h.sound.machine, h.sound.socket⟩, h.inOrder, h.plays⟩
  | office haborted ha hp =>
    have hsafe := h.of_perform haborted hp (hplays.perform ha hp)
    rwa [update_eq_self] at hsafe
  | send haborted hout hsends hletter hmach hp =>
    subst hmach
    refine h.of_perform haborted hp (Plays.quiet ⟨hplays.numBoxes, hplays.sendBusy, ?_⟩)
    simp only [update_self]
    exact hstage.send hsends hletter
  | receive haborted hout hgets hbox hletter hpktHdr hmailHdr hmach hp =>
    subst hmach
    rw [hout] at hstage
    refine h.of_perform haborted hp ⟨hplays.numBoxes, hplays.sendBusy, ?_⟩
    simpa [Event.sentLetters, hletter, hout] using hstage.receive hgets hpktHdr hmailHdr

theorem safe_of_init (h : (mailSystem far).init s) : s.Safe far := by
  obtain ⟨inHdr, inbox, buffer, text, rfl⟩ := h
  obtain ⟨hsound, horder⟩ := sound_of_init (τ := Unit) ⟨fun _ => 10, inHdr, inbox, buffer, rfl⟩
  exact ⟨hsound, horder, fun _ => ⟨rfl, rfl, .sendData⟩⟩

theorem safe_of_reachable (hfar : ∀ m, far (far m) = m)
    (h : (mailSystem far).Reachable StepSystem.Always s) : s.Safe far :=
  h.invariant (Safe far) (fun _ => safe_of_init) fun _ _ _ h _ => h.step hfar

end MailWorld

section

variable {far : Word → Word} {s : MailWorld}

/-- In every run, each machine prints the message of its partner and then the acknowledgement, as
far as it gets, and it halts when it has printed both. By then the partner has got the message. No
step is undefined, and a machine aborts only if it calls `Receive` for an empty mailbox or its
partner has aborted. -/
theorem mailTest_agrees (hfar : ∀ m, far (far m) = m)
    (h : (mailSystem far).Reachable StepSystem.Always s) :
    (∀ m, (s.test m).printed <+:
        [⟨MailTest.data.chars, far m, 1⟩, ⟨MailTest.ack.chars, far m, 1⟩] ∧
      ((s.test m).point = .halted ↔ (s.test m).printed.length = 2) ∧
      ((s.test m).point = .halted → (s.test (far m)).printed ≠ [])) ∧
    ∀ i, (∀ s', s.step far i = .ok s' → s'.world.aborted i.1 = true →
        s.WaitsInVain i.1 ∨ s.world.aborted (far i.1) = true) ∧
      ∀ e, s.step far i = .error e → e = .disabled := by
  have hsafe := MailWorld.safe_of_reachable hfar h
  refine ⟨fun m => ?_, fun i => ?_⟩
  · have hstage := (hsafe.plays m).stage
    exact ⟨hstage.printed_isPrefix, hstage.halted_iff, fun hhalted =>
      (hsafe.plays (far m)).stage.printed_ne_nil (hsafe.ack_mem hfar hhalted)⟩
  · refine ⟨fun s' hs haborted => ?_, fun e hs => ?_⟩
    · exact (hs ▸ hsafe.moves hfar i).cause haborted
    · exact (hs ▸ hsafe.moves hfar i).eq_disabled

end

/-- The machines 0 and 1, and the same with 2 and 3 and so on. -/
def pairs (m : Word) : Word := m ^^^ 1

theorem pairs_pairs (m : Word) : pairs (pairs m) = m := by
  rw [pairs, pairs, BitVec.xor_assoc, BitVec.xor_self, BitVec.xor_zero]

/-- The machines before they start. -/
def mailStart : MailWorld where
  world := ⟨fun m => .new m 10 ⟨0, 0, 0⟩ (fun _ => 0) fun _ => 0, fun _ => [], fun _ => false,
    fun _ => [], fun _ _ => []⟩
  test _ := ⟨.sendData, fun _ => 0, []⟩

/-- A run of the machines 0 and 1 in which both halt. Each packet is waited for. -/
def mailRun : List (Word × MailInput) :=
  let heap : Bytes := fun _ => 0
  let call (m : Word) : List (Word × MailInput) := [(m, .main ⟨0, 0, 0⟩ heap)]
  let post (m : Word) : List (Word × MailInput) :=
    call m ++ [(m, .office (.transmit () false heap)), (m, .office .sendDone),
      (m, .office (.resume ()))]
  let fetch (m : Word) : List (Word × MailInput) :=
    [(m, .office (.poll true)), (m, .office .wake), (m, .office .take),
      (m, .office (.deliver heap))] ++ call m
  post 0 ++ post 1 ++ fetch 0 ++ fetch 1 ++ post 0 ++ post 1 ++ fetch 0 ++ fetch 1

theorem mailTest_agrees_of_mailRun :
    ∃ s, (mailSystem pairs).Reachable StepSystem.Always s ∧ (s.test 0).point = .halted ∧
      (s.test 1).point = .halted ∧ (s.test 0).printed.length = 2 ∧ (s.test 1).printed ≠ [] := by
  have hinit : (mailSystem pairs).init mailStart :=
    ⟨fun _ => ⟨0, 0, 0⟩, fun _ _ => 0, fun _ _ => 0, fun _ _ => 0, rfl⟩
  obtain ⟨s, hs, htest⟩ := StepSystem.exists_reachable_of_runInputs hinit mailRun
    (fun s => decide ((s.test 0).point = .halted ∧ (s.test 1).point = .halted))
    (by decide +kernel)
  obtain ⟨h0, h1⟩ := of_decide_eq_true htest
  obtain ⟨-, hprinted, hpartner⟩ := (mailTest_agrees pairs_pairs hs).1 0
  exact ⟨s, hs, h0, h1, hprinted.1 h0, hpartner h0⟩

end Nachos.Post
