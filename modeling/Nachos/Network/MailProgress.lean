import Nachos.Network.MailAgreement

/-!
# Progress of the network test

`Condition::Wait` is not implemented, so a machine aborts if it calls `Receive` before there is a
message. Here are the runs in which no machine does and the network loses no packet.

## Main definitions

* `MailWorld.Patient`: the steps of these runs.
* `Action.counts`, `MailWorld.counts`: every step counts, unless it is a poll that finds no packet.
* `MailTest.credit`, `Machine.owed`: the steps that a machine has made, which its state tells.
* `MailWorld.CanStep`: a machine can make a step that counts.

## Main results

* `MailWorld.Intact.credit_step`: the credit of a machine and what it owes change with every step
  that counts.
* `MailWorld.Intact.halted_or_canStep`: two partners never wait for each other.
* `mailTest_completes`.
-/

namespace Nachos.Post

open Foundations Function
open FileSys (CString)

/-! ### How far a machine is -/

namespace Stage

variable {far : Word → Word} {m : Word} {point : MailPoint} {sender : Sender} {units : ℕ}
  {sent got got' : List Letter} {printed : List MailLine}

theorem sent_isPrefix (h : Stage far m point sender units sent got got' printed) :
    sent <+: [MailTest.letter far m 0 MailTest.data, MailTest.letter far m 1 MailTest.ack] := by
  cases h with
  | sendData => exact ⟨_, rfl⟩
  | receiveData hsending | receiveAck hsending => cases hsending <;> simp
  | sendAck => simp
  | halted => exact List.prefix_rfl

theorem units_of_waiting (h : Stage far m point .waiting units sent got got' printed) :
    units = 1 := by
  cases h with
  | receiveData hsending | receiveAck hsending =>
    cases hsending
    rfl

theorem of_receiveData (h : Stage far m .receiveData sender units sent got got' printed) :
    got = [] := by
  cases h
  rfl

theorem of_receiveAck (h : Stage far m .receiveAck sender units sent got got' printed) :
    got' = [] := by
  cases h
  rfl

/-- The message is sent before the acknowledgement. -/
theorem data_mem (h : Stage far m point sender units sent got got' printed)
    (hack : MailTest.letter far m 1 MailTest.ack ∈ sent) :
    MailTest.letter far m 0 MailTest.data ∈ sent := by
  cases sent with
  | nil => cases hack
  | cons x sent =>
    rw [(List.cons_prefix_cons.1 h.sent_isPrefix).1]
    exact List.mem_cons_self

theorem data_mem_of_receiveData
    (h : Stage far m .receiveData .outside units sent got got' printed) :
    MailTest.letter far m 0 MailTest.data ∈ sent := by
  cases h with
  | receiveData hsending =>
    cases hsending
    simp

theorem ack_mem_of_receiveAck
    (h : Stage far m .receiveAck .outside units sent got got' printed) :
    MailTest.letter far m 1 MailTest.ack ∈ sent := by
  cases h with
  | receiveAck hsending =>
    cases hsending
    simp

theorem ack_mem_of_halted (h : Stage far m .halted sender units sent got got' printed) :
    MailTest.letter far m 1 MailTest.ack ∈ sent := by
  cases h
  simp

/-- What a machine that has halted has sent and received. -/
theorem of_halted (h : Stage far m .halted sender units sent got got' printed) :
    sender = .outside ∧ units = 0 ∧ sent.length = 2 ∧ got.length = 1 ∧ got'.length = 1 := by
  cases h
  exact ⟨rfl, rfl, rfl, rfl, rfl⟩

/-- At most one letter goes to each mailbox. -/
theorem length_filter_le (h : Stage far m point sender units sent got got' printed) (k b : Word) :
    (sent.filter fun x => x.dest = k ∧ x.mailHdr.dest = b).length ≤ 1 := by
  refine (h.sent_isPrefix.sublist.filter _).length_le.trans ?_
  by_cases hb : b = 0
  · have hack : [MailTest.letter far m 1 MailTest.ack].filter
        (fun x => x.dest = k ∧ x.mailHdr.dest = b) = [] := by
      simp [MailTest.letter, MailTest.outMailHdr, hb]
    rw [← List.singleton_append, List.filter_append, hack, List.append_nil]
    exact List.length_filter_le _ _
  · rw [List.filter_cons_of_neg fun hx => hb (of_decide_eq_true hx).2.symm]
    exact List.length_filter_le _ _

end Stage

/-! ### Nothing is lost -/

/-- The step loses the packet that it sends. -/
def Action.loses {τ : Type} : Action τ → Bool
  | .transmit _ lost _ => lost
  | _ => false

namespace World

variable {τ : Type} {w : World τ} {k m n b : Word} {mach : Machine τ} {socket : List Bytes}

theorem whole_sent {letter : Letter} {dest : Word} {wire : Bytes} (hsource : letter.source = n)
    (hdest : dest = letter.dest) (hletter : Letter.ofWire wire = letter)
    (h : (w.channel k m b).Whole) :
    ((w.record n (.sent letter (some (dest, wire)))).channel k m b).Whole := by
  have hwire : ∀ dest' wire', some (dest, wire) = some (dest', wire') →
      dest' = letter.dest ∧ Letter.ofWire wire' = letter := by
    rintro _ _ ⟨⟩
    exact ⟨hdest, hletter⟩
  have hsame : (if (some (dest, wire)).isSome ∧ letter.dest = m then [letter] else []).filter
        (fun x => x.source = k ∧ x.mailHdr.dest = b) =
      (if k = n then [letter] else []).filter fun x => x.dest = m ∧ x.mailHdr.dest = b := by
    subst hsource
    by_cases hk : k = letter.source
    · subst hk
      by_cases hm : letter.dest = m <;> simp [hm, List.filter_cons]
    · by_cases hm : letter.dest = m <;> simp [hm, hk, Ne.symm hk]
  have harrived : (w.record n (.sent letter (some (dest, wire)))).arrived m b = w.arrived m b := rfl
  rw [channel, sent_record, flow_record hwire, harrived, List.filter_append, List.filter_append,
    hsame]
  exact h.append _

/-- In a step that loses no packet, the channels lose nothing. -/
theorem whole_change [DecidableEq τ] {event : Event}
    (hc : (w.machine n).Change n (w.socket n) mach socket event)
    (hlost : ∀ letter, event ≠ .sent letter none) (h : (w.channel k m b).Whole) :
    (((w.replace n mach socket).record n event).channel k m b).Whole := by
  have hstep : Relation.ReflGen LossyChannel.Step (w.channel k m b)
      (((w.replace n mach socket).record n event).channel k m b) := channel_change hc
  cases hc with
  | pass | put | received => exact h.reflGen hstep rfl
  | sent letter datagram hflow hboxes hsource hwire =>
    rcases datagram with _ | ⟨dest, wire⟩
    · exact absurd rfl (hlost letter)
    obtain ⟨hdest, hletter, -⟩ := hwire dest wire rfl
    refine whole_sent hsource hdest hletter ?_
    rwa [channel_replace hflow hboxes]

end World

section

variable {τ : Type} [DecidableEq τ] {mach mach' : Machine τ} {socket socket' : List Bytes}
  {a : Action τ} {event : Event}

/-- A packet that is not lost is sent as a datagram. -/
theorem Machine.perform_ne_lost (ha : a.loses = false)
    (hp : mach.perform socket a = .ok (mach', socket', event)) (letter : Letter) :
    event ≠ .sent letter none := by
  rintro rfl
  cases a with
  | transmit t lost heap =>
    obtain rfl : lost = false := ha
    simp only [perform] at hp
    split at hp
    case h_2 => cases hp
    obtain ⟨datagram, hsend, hp⟩ := bind_eq_ok.1 hp
    cases hp
    simp only [Network.send, Bool.false_eq_true, if_false] at hsend
    split_ifs at hsend
    cases hsend
  | call | deliver =>
    simp only [perform] at hp
    split at hp
    · obtain ⟨_, -, hp⟩ := bind_eq_ok.1 hp
      cases hp
    · cases hp
  | resume | sendDone | wake | take =>
    simp only [perform] at hp
    split at hp <;> cases hp
  | poll | receive =>
    obtain ⟨_, -, hp⟩ := bind_eq_ok.1 hp
    cases hp

end

namespace MailWorld

/-- A step that loses no packet, and does not call `Receive` for an empty mailbox. -/
def Patient (s : MailWorld) (i : Word × MailInput) : Prop :=
  match i.2 with
  | .main .. => ¬ s.WaitsInVain i.1
  | .office a => a.loses = false

instance (s : MailWorld) (i : Word × MailInput) : Decidable (s.Patient i) := by
  unfold Patient
  split <;> infer_instance

/-- What holds in the runs in which all steps are patient. -/
structure Intact (far : Word → Word) (s : MailWorld) : Prop extends Safe far s where
  running : ∀ m, s.world.aborted m = false
  whole : ∀ k m b, (s.world.channel k m b).Whole

variable {far : Word → Word} {s s' : MailWorld} {m b : Word}

theorem Intact.step (hfar : ∀ m, far (far m) = m) (h : s.Intact far) {i : Word × MailInput}
    (hi : s.Patient i) (hs : s.step far i = .ok s') : s'.Intact far := by
  have hsafe := h.toSafe.step hfar hs
  obtain ⟨m, i⟩ := i
  have hmove : ∀ {a : Action Unit} {mach : Machine Unit} {socket : List Bytes} {event : Event}
      {test : Word → MailTest},
      (s.world.machine m).perform (s.world.socket m) a = .ok (mach, socket, event) →
      (∀ letter, event ≠ .sent letter none) →
      s' = ⟨(s.world.replace m mach socket).record m event, test⟩ → s'.Intact far := by
    rintro a mach socket event test hp hlost rfl
    have hchange := ((h.sound.machine m).perform (h.sound.socket m) hp).change
    refine ⟨hsafe, fun k => ?_, fun k n b => World.whole_change hchange hlost (h.whole k n b)⟩
    rw [World.aborted_record]
    exact h.running k
  cases hs ▸ h.toSafe.moves hfar (m, i) with
  | waitInVain hvain => exact absurd hvain hi
  | sendNowhere hgone => exact absurd (hgone.symm.trans (h.running (far m))) (by decide)
  | office _ _ hp => exact hmove hp (Machine.perform_ne_lost hi hp) rfl
  | send _ _ _ _ _ hp => exact hmove hp nofun rfl
  | receive _ _ _ _ _ _ _ _ hp => exact hmove hp nofun rfl

/-! ### Counting the steps -/

end MailWorld

/-- The calls that `MailTest` has made up to this point. -/
def MailPoint.calls : MailPoint → ℕ
  | .sendData => 0
  | .receiveData => 1
  | .sendAck .. => 2
  | .receiveAck => 3
  | .halted => 4

theorem MailPoint.calls_le {point : MailPoint} (h : point ≠ .halted) : point.calls ≤ 3 := by
  cases point with
  | sendData | receiveData | sendAck | receiveAck => simp [calls]
  | halted => exact absurd rfl h

theorem MailPoint.Sends.calls {point next : MailPoint} {b : Word} {text : CString}
    (h : point.Sends b text next) : next.calls = point.calls + 1 := by
  cases h <;> rfl

theorem MailPoint.Gets.calls {point : MailPoint} {b : Word} (h : point.Gets b)
    (inPktHdr : PacketHeader) (inMailHdr : MailHeader) :
    (if point = .receiveData then .sendAck inPktHdr inMailHdr else .halted : MailPoint).calls =
      point.calls + 1 := by
  cases h <;> rfl

/-- The thread has still to be resumed. -/
def Sender.owed : Sender → ℕ
  | .waiting => 1
  | _ => 0

/-- The steps that the worker thread, and the poll before it, have made for the packet that it has
not put into a mailbox, besides the poll for the packet in the network device. -/
def Worker.handled : Worker → ℕ
  | .waiting => 0
  | .awake => 1
  | .holding _ => 3

/-- The steps that a machine has still to make for the packets that it has sent. -/
def Machine.owed (mach : Machine Unit) : ℕ := mach.pendingSendDone + (mach.senders ()).owed

/-- The steps that a machine has made, with those that it owes: its calls, three for each packet
that it has sent, four for each that has arrived in a mailbox, and those for the packet that has
arrived last. -/
def MailTest.credit (test : MailTest) (mach : Machine Unit) (sent : List Letter)
    (received : Word → List Letter) : ℕ :=
  test.point.calls + 3 * sent.length +
    4 * (((received 0).length + (mach.office.boxes 0).length) +
      ((received 1).length + (mach.office.boxes 1).length)) +
    mach.worker.handled + mach.office.network.buffered.length

/-- Every step counts, unless it is a poll that finds no packet. -/
def Action.counts (mach : Machine Unit) (socket : List Bytes) : Action Unit → ℕ
  | .poll ready =>
    if mach.office.network.inHdr.length = 0 ∧ ready = true ∧ socket ≠ [] then 1 else 0
  | _ => 1

section

variable {addr : Word} {test : MailTest} {mach mach' : Machine Unit} {socket socket' : List Bytes}
  {a : Action Unit} {event : Event} {sent : List Letter} {received : Word → List Letter}

theorem Network.length_buffered {net : Network} :
    net.buffered.length = if net.inHdr.length ≠ 0 then 1 else 0 := by
  rw [buffered]
  split_ifs <;> rfl

theorem Network.length_buffered_le (net : Network) : net.buffered.length ≤ 1 := by
  rw [length_buffered]
  split_ifs
  · exact le_rfl
  · exact Nat.zero_le _

/-- A poll that counts reads a packet. -/
theorem Network.buffered_of_checkPktAvail {net net' : Network} {ready arrived : Bool}
    (hsocket : ∀ wire ∈ socket, IsMailFor addr wire)
    (h : net.checkPktAvail socket ready = .ok (net', socket', arrived)) :
    net'.buffered.length = net.buffered.length +
      if net.inHdr.length = 0 ∧ ready = true ∧ socket ≠ [] then 1 else 0 := by
  by_cases hlen : net.inHdr.length ≠ 0
  · simp only [checkPktAvail, if_pos hlen] at h
    cases h
    rw [if_neg fun hc => hlen hc.1, Nat.add_zero]
  simp only [checkPktAvail, if_neg hlen] at h
  split at h
  next wire rest =>
    split_ifs at h
    cases h
    have hne : (PacketHeader.layout.fetch wire).length ≠ 0 :=
      (hsocket wire List.mem_cons_self).2.length_ne_zero
    rw [length_buffered, length_buffered, if_pos hne, if_neg hlen, Nat.zero_add,
      if_pos ⟨not_not.1 hlen, rfl, List.cons_ne_nil wire _⟩]
  next hidle =>
    cases h
    rw [if_neg fun hc => ?_, Nat.add_zero]
    obtain ⟨wire, rest, rfl⟩ := List.exists_cons_of_ne_nil hc.2.2
    exact hidle wire rest hc.2.1 rfl

theorem MailTest.credit_quiet : test.credit mach (sent ++ Event.quiet.sentLetters)
    (fun box => received box ++ Event.quiet.receivedLetters box) =
      test.credit mach sent received := by
  simp [Event.sentLetters, Event.receivedLetters]

/-- A letter that is received was in the mailbox. -/
theorem Event.length_receivedLetters {boxes : Word → MailBox} {b : Word} {mail : Mail}
    {messages : MailBox} {letter : Letter} (hbox : boxes b = mail :: messages) (b' : Word) :
    (received b' ++ Event.receivedLetters b' (.received b letter)).length +
        (update boxes b messages b').length = (received b').length + (boxes b').length := by
  by_cases hb : b' = b
  · subst hb
    simp only [receivedLetters, if_true, update_self, hbox, List.length_append, List.length_cons,
      List.length_nil]
    omega
  · simp only [receivedLetters, if_neg hb, update_of_ne hb, List.append_nil]

/-- A letter that is put into a mailbox. -/
theorem Mail.length_put {boxes : Word → MailBox} {mail : Mail} (b : Word) :
    (update boxes mail.mailHdr.dest (boxes mail.mailHdr.dest ++ [mail]) b).length =
      (boxes b).length + if mail.mailHdr.dest = b then 1 else 0 := by
  split_ifs with hb
  · subst hb
    rw [update_self, List.length_append, List.length_singleton]
  · rw [update_of_ne (Ne.symm hb), Nat.add_zero]

/-- What a step adds to the credit of a machine, and takes off what it owes, is what it counts. -/
def Action.Pays (a : Action Unit) (mach : Machine Unit) (socket : List Bytes)
    (mach' : Machine Unit) (event : Event) : Prop :=
  ∀ (test : MailTest) (sent : List Letter) (received : Word → List Letter),
    test.credit mach' (sent ++ event.sentLetters)
        (fun box => received box ++ event.receivedLetters box) + mach.owed =
      test.credit mach sent received + mach'.owed + a.counts mach socket

namespace Machine

theorem pays_transmit {t : Unit} {lost : Bool} {heap : Bytes}
    (hp : mach.perform socket (.transmit t lost heap) = .ok (mach', socket', event)) :
    Action.Pays (.transmit t lost heap) mach socket mach' event := by
  intro test sent received
  simp only [perform] at hp
  split at hp
  case h_2 => cases hp
  next hsender =>
    obtain ⟨datagram, -, hp⟩ := bind_eq_ok.1 hp
    cases hp
    simp only [MailTest.credit, owed, Sender.owed, Event.sentLetters, Event.receivedLetters,
      List.length_append, List.length_singleton, List.append_nil, update_self, hsender,
      Action.counts]
    omega

theorem pays_resume {t : Unit}
    (hp : mach.perform socket (.resume t) = .ok (mach', socket', event)) :
    Action.Pays (.resume t) mach socket mach' event := by
  intro test sent received
  simp only [perform] at hp
  split at hp
  case h_2 => cases hp
  next hsender _ =>
    cases hp
    rw [MailTest.credit_quiet]
    simp only [MailTest.credit, owed, Sender.owed, update_self, hsender, Action.counts]
    omega

theorem pays_sendDone (hp : mach.perform socket .sendDone = .ok (mach', socket', event)) :
    Action.Pays .sendDone mach socket mach' event := by
  intro test sent received
  simp only [perform] at hp
  split at hp
  case h_2 => cases hp
  next hpending =>
    cases hp
    rw [MailTest.credit_quiet]
    simp only [owed, hpending, Action.counts]
    change MailTest.credit test mach sent received + _ = _
    omega

theorem pays_poll {ready : Bool} (hsocket : ∀ wire ∈ socket, IsMailFor addr wire)
    (hp : mach.perform socket (.poll ready) = .ok (mach', socket', event)) :
    Action.Pays (.poll ready) mach socket mach' event := by
  intro test sent received
  obtain ⟨⟨net, rest, arrived⟩, hcheck, hp⟩ := bind_eq_ok.1 hp
  cases hp
  have hbuffered := Network.buffered_of_checkPktAvail hsocket hcheck
  have hoffice : ∀ office : PostOffice,
      (if arrived then office.incomingPacket else office).boxes = office.boxes ∧
      (if arrived then office.incomingPacket else office).network = office.network := by
    intro office
    cases arrived <;> exact ⟨rfl, rfl⟩
  rw [MailTest.credit_quiet]
  simp only [MailTest.credit, owed, hoffice, hbuffered, Action.counts]
  omega

theorem pays_wake (hp : mach.perform socket .wake = .ok (mach', socket', event)) :
    Action.Pays .wake mach socket mach' event := by
  intro test sent received
  simp only [perform] at hp
  split at hp
  case h_2 => cases hp
  next hworker _ =>
    cases hp
    rw [MailTest.credit_quiet]
    simp only [MailTest.credit, owed, hworker, Worker.handled, Action.counts]
    omega

/-- The packet moves from the network device to the worker thread. -/
theorem Sound.pays_take (h : mach.Sound addr)
    (hp : mach.perform socket .take = .ok (mach', socket', event)) :
    Action.Pays .take mach socket mach' event := by
  intro test sent received
  simp only [Machine.perform] at hp
  split at hp
  case h_2 => cases hp
  next hworker =>
    cases hp
    have htold := h.told
    rw [hworker, ← Network.length_buffered] at htold
    have hbuffered : (mach.office.network.receive mach.buffer).2.2.buffered.length = 0 := by
      rw [Network.length_buffered]
      exact if_neg (not_not.2 rfl)
    have hle := Network.length_buffered_le mach.office.network
    rw [MailTest.credit_quiet]
    simp only [MailTest.credit, owed, hworker, hbuffered, Worker.handled, Worker.told,
      Action.counts] at htold ⊢
    omega

/-- The letter moves from the worker thread to the mailbox. -/
theorem pays_deliver {heap : Bytes}
    (hheld : ∀ x ∈ mach.held, x.mailHdr.dest = 0 ∨ x.mailHdr.dest = 1)
    (hp : mach.perform socket (.deliver heap) = .ok (mach', socket', event)) :
    Action.Pays (.deliver heap) mach socket mach' event := by
  intro test sent received
  simp only [perform] at hp
  split at hp
  case h_2 => cases hp
  next pktHdr hworker =>
    obtain ⟨office, hdeliver, hp⟩ := bind_eq_ok.1 hp
    cases hp
    obtain ⟨mail, hmail, rfl⟩ := PostOffice.deliver_spec hdeliver
    have hone : (if mail.mailHdr.dest = 0 then 1 else 0) +
        (if mail.mailHdr.dest = 1 then 1 else 0) = 1 := by
      rcases hheld mail.letter (by simp [held, hworker, hmail]) with hbox | hbox
      · rw [show mail.mailHdr.dest = 0 from hbox]
        rfl
      · rw [show mail.mailHdr.dest = 1 from hbox]
        rfl
    rw [MailTest.credit_quiet]
    simp only [MailTest.credit, owed, hworker, Worker.handled, Mail.length_put, Action.counts]
    omega

/-- The steps of a machine that `MailTest` does not make itself. -/
theorem Sound.pays (h : mach.Sound addr) (hsocket : ∀ wire ∈ socket, IsMailFor addr wire)
    (ha : a.isMain = false) (hheld : ∀ x ∈ mach.held, x.mailHdr.dest = 0 ∨ x.mailHdr.dest = 1)
    (hp : mach.perform socket a = .ok (mach', socket', event)) :
    a.Pays mach socket mach' event := by
  cases a with
  | call | receive => cases ha
  | transmit => exact pays_transmit hp
  | resume => exact pays_resume hp
  | sendDone => exact pays_sendDone hp
  | poll => exact pays_poll hsocket hp
  | wake => exact pays_wake hp
  | take => exact h.pays_take hp
  | deliver => exact pays_deliver hheld hp

end Machine

/-- A packet on its way to a mailbox takes four steps. -/
theorem Machine.Sound.handled_le (h : mach.Sound addr) :
    mach.worker.handled + mach.office.network.buffered.length ≤
      4 * (mach.held.length + mach.office.network.buffered.length) := by
  have htold := h.told
  rw [← Network.length_buffered] at htold
  unfold Machine.held
  cases hworker : mach.worker with
  | waiting =>
    simp only [Worker.handled, List.length_nil]
    omega
  | awake =>
    simp only [hworker, Worker.told] at htold
    simp only [Worker.handled, List.length_nil]
    omega
  | holding pktHdr =>
    simp only [Worker.handled, List.length_singleton]
    omega

end

namespace MailWorld

variable {far : Word → Word} {s s' : MailWorld} {m b : Word}

theorem intact_of_init (h : (mailSystem far).init s) : s.Intact far := by
  have hsafe := safe_of_init h
  obtain ⟨inHdr, inbox, buffer, text, rfl⟩ := h
  exact ⟨hsafe, fun _ => rfl, fun _ _ _ => rfl⟩

/-- What a step adds to the number of steps that have been made. -/
def counts (s : MailWorld) (i : Word × MailInput) : ℕ :=
  match i.2 with
  | .main .. => 1
  | .office a => a.counts (s.world.machine i.1) (s.world.socket i.1)

/-- The steps that each machine has made are counted. -/
def countStep (s : MailWorld) (i : Word × MailInput) (count : Word → ℕ) : Word → ℕ :=
  update count i.1 (count i.1 + s.counts i)

/-- `MailTest.credit` of the machine `m`. -/
def credit (s : MailWorld) (m : Word) : ℕ :=
  (s.test m).credit (s.world.machine m) (s.world.sent m) (s.world.received m)

section

variable {k : Word} {mach : Machine Unit} {socket : List Bytes} {event : Event} {test : MailTest}

theorem credit_record_self :
    credit ⟨(s.world.replace m mach socket).record m event, update s.test m test⟩ m =
      test.credit mach (s.world.sent m ++ event.sentLetters)
        fun box => s.world.received m box ++ event.receivedLetters box := by
  simp only [credit, World.machine_record, World.sent_record_eq, World.received_record_eq,
    World.replace, update_self]

theorem credit_record_of_ne (hk : k ≠ m) :
    credit ⟨(s.world.replace m mach socket).record m event, update s.test m test⟩ k =
      s.credit k := by
  simp only [credit, World.machine_record, World.sent_record_eq, World.received_record_eq,
    World.replace, update_of_ne hk]

end

/-- Every step of a machine that counts raises the credit of this machine, or it pays what is
owed. -/
theorem Intact.credit_step (hfar : ∀ m, far (far m) = m) (h : s.Intact far) {i : Word × MailInput}
    (hi : s.Patient i) (hs : s.step far i = .ok s') (k : Word) :
    s'.credit k + (s.world.machine k).owed =
      s.credit k + (s'.world.machine k).owed + if k = i.1 then s.counts i else 0 := by
  obtain ⟨m, i⟩ := i
  have hmove : ∀ {mach : Machine Unit} {socket : List Bytes} {event : Event} (test : MailTest),
      test.credit mach (s.world.sent m ++ event.sentLetters)
          (fun box => s.world.received m box ++ event.receivedLetters box) +
          (s.world.machine m).owed =
        s.credit m + mach.owed + s.counts (m, i) →
      s' = ⟨(s.world.replace m mach socket).record m event, update s.test m test⟩ →
      s'.credit k + (s.world.machine k).owed =
        s.credit k + (s'.world.machine k).owed + if k = m then s.counts (m, i) else 0 := by
    rintro mach socket event test hcredit rfl
    have hmachine : ((s.world.replace m mach socket).record m event).machine =
        update s.world.machine m mach := World.machine_record
    rw [hmachine]
    by_cases hk : k = m
    · subst hk
      rw [credit_record_self, update_self, if_pos rfl]
      exact hcredit
    · rw [credit_record_of_ne hk, update_of_ne hk, if_neg hk]
      rfl
  cases hs ▸ h.toSafe.moves hfar (m, i) with
  | waitInVain hvain => exact absurd hvain hi
  | sendNowhere hgone => exact absurd (hgone.symm.trans (h.running (far m))) (by decide)
  | office haborted ha hp =>
    refine hmove (s.test m) ?_ (by rw [update_eq_self])
    refine (h.sound.machine m).pays (h.sound.socket m) ha (fun x hx => ?_) hp _ _ _
    have hflow : x ∈ s.world.flow m := by simp [World.flow, Machine.flow, hx]
    exact (h.toSafe.eq_of_flow hfar hflow).2.2.1
  | send haborted hout hsends hletter hmach hp =>
    refine hmove _ ?_ rfl
    subst hmach
    rw [MailTest.credit_quiet]
    simp only [credit, MailTest.credit, Machine.owed, update_self, hout, Sender.owed, hsends.calls,
      counts]
    omega
  | receive haborted hout hgets hbox hletter hpktHdr hmailHdr hmach hp =>
    refine hmove _ ?_ rfl
    subst hmach
    simp only [credit, MailTest.credit, Machine.owed, hgets.calls, Event.sentLetters,
      List.append_nil, Event.length_receivedLetters hbox, counts]
    omega

/-! ### How many steps there are -/

/-- All letters that have arrived in a mailbox are from the partner. -/
theorem Safe.channel_arrived (hfar : ∀ m, far (far m) = m) (h : s.Safe far) :
    (s.world.channel (far m) m b).arrived = s.world.arrived m b := by
  refine List.filter_eq_self.2 fun x hx => decide_eq_true ?_
  rw [(h.eq_of_arrived hfar hx).2.2]
  rfl

/-- All letters under way are from the partner. -/
theorem Safe.channel_transit (hfar : ∀ m, far (far m) = m) (h : s.Safe far) :
    (s.world.channel (far m) m b).transit =
      (s.world.flow m).filter fun x => x.mailHdr.dest = b := by
  refine List.filter_congr fun x hx => ?_
  simp [(h.eq_of_flow hfar hx).1]

/-- At most two letters are on the way to a machine or have arrived there. -/
theorem Safe.length_arrived_le (hfar : ∀ m, far (far m) = m) (h : s.Safe far) (m : Word) :
    (s.world.arrived m 0).length + (s.world.arrived m 1).length + (s.world.flow m).length ≤ 2 := by
  have hbox : ∀ b, (s.world.arrived m b).length +
      ((s.world.flow m).filter fun x => x.mailHdr.dest = b).length ≤ 1 := by
    intro b
    have hle := (h.inOrder (far m) m b).length_le.trans
      ((h.plays (far m)).stage.length_filter_le m b)
    rwa [List.length_append, h.channel_arrived hfar, h.channel_transit hfar] at hle
  have hflow : (s.world.flow m).length =
      ((s.world.flow m).filter fun x => x.mailHdr.dest = 0).length +
        ((s.world.flow m).filter fun x => x.mailHdr.dest = 1).length := by
    rw [List.length_eq_length_filter_add fun x : Letter => decide (x.mailHdr.dest = 0)]
    congr 2
    refine List.filter_congr fun x hx => ?_
    rcases (h.eq_of_flow hfar hx).2.2.1 with hx | hx <;> simp [hx]
  have h0 := hbox 0
  have h1 := hbox 1
  omega

/-- A machine makes 14 steps that are not calls of `MailTest`. -/
theorem Safe.credit_le (hfar : ∀ m, far (far m) = m) (h : s.Safe far) (m : Word) :
    s.credit m ≤ (s.test m).point.calls + 14 := by
  have hsent : (s.world.sent m).length ≤ 2 := (h.plays m).stage.sent_isPrefix.length_le
  have harrived := h.length_arrived_le hfar m
  have hhandled := (h.sound.machine m).handled_le
  simp only [World.arrived, World.flow, Machine.flow, List.length_append, List.length_map]
    at harrived
  rw [credit, MailTest.credit]
  omega

/-- A machine that has halted has made all its steps. -/
theorem Safe.le_credit_of_halted (h : s.Safe far) (hhalted : (s.test m).point = .halted) :
    18 ≤ s.credit m ∧ (s.world.machine m).owed = 0 := by
  have hstage := (h.plays m).stage
  rw [hhalted] at hstage
  obtain ⟨hsender, hunits, hsent, h0, h1⟩ := hstage.of_halted
  rw [credit, MailTest.credit, hhalted, hsent, h0, h1, Machine.owed, hsender]
  simp only [MailPoint.calls, Sender.owed]
  omega

/-! ### The next step -/

/-- The machine can make a step that counts. -/
def CanStep (far : Word → Word) (s : MailWorld) (m : Word) : Prop :=
  ∃ i s', s.Patient (m, i) ∧ s.counts (m, i) = 1 ∧ s.step far (m, i) = .ok s'

theorem Intact.canStep_office (h : s.Intact far) (hrun : (s.test m).point ≠ .halted)
    {a : Action Unit} {result : Machine Unit × List Bytes × Event} (ha : a.isMain = false)
    (hloses : a.loses = false)
    (hcounts : a.counts (s.world.machine m) (s.world.socket m) = 1)
    (hp : (s.world.machine m).perform (s.world.socket m) a = .ok result) : CanStep far s m := by
  have hstep : s.step far (m, .office a) = if s.SendsNowhere m a then .ok (s.abort m)
      else (s.world.step (m, a)).map fun world => { s with world := world } := by
    rw [MailWorld.step, if_neg hrun]
    cases a with
    | call | receive => cases ha
    | _ => exact if_neg (by simp [h.running m])
  rw [World.step_of_ok (h.running m) hp] at hstep
  by_cases hnowhere : s.SendsNowhere m a
  · exact ⟨.office a, _, hloses, hcounts, hstep.trans (if_pos hnowhere)⟩
  · exact ⟨.office a, _, hloses, hcounts, hstep.trans (if_neg hnowhere)⟩

theorem Intact.exists_send (h : s.Intact far) (hout : (s.world.machine m).senders () = .outside)
    (hb : b = 0 ∨ b = 1) {text : CString} (hshort : MailTest.Short text) {pktHdr : PacketHeader}
    (hdest : pktHdr.dest = far m) (heap : Bytes) (next : MailPoint) :
    ∃ s', s.send m next pktHdr (MailTest.outMailHdr b text) text heap = .ok s' := by
  obtain ⟨hdr, buffer, -, hp⟩ := h.toSafe.perform_call hout hb hshort hdest heap
  simp only [MailWorld.send, World.step_of_ok (h.running m) hp]
  exact ⟨_, rfl⟩

theorem Intact.exists_receive (hfar : ∀ m, far (far m) = m) (h : s.Intact far)
    (hb : b = 0 ∨ b = 1) (hne : (s.world.machine m).office.boxes b ≠ []) :
    ∃ s', s.receive m b = .ok s' := by
  obtain ⟨mail, messages, hbox⟩ := List.exists_cons_of_ne_nil hne
  obtain ⟨_, _, _, _, _, hp, hreceive⟩ := h.toSafe.receive_eq_of_cons hb hbox
    (h.toSafe.letter_eq_of_cons hfar hbox) (MailTest.short_textTo b)
  rw [hreceive, World.step_of_ok (h.running m) hp]
  exact ⟨_, rfl⟩

/-- `MailTest` makes its next call. -/
theorem Intact.canStep_main (hfar : ∀ m, far (far m) = m) (h : s.Intact far)
    (hout : (s.world.machine m).senders () = .outside) (hrun : (s.test m).point ≠ .halted)
    (hvain : ¬ s.WaitsInVain m) : CanStep far s m := by
  have hstage := (h.plays m).stage
  let junk : PacketHeader := ⟨0, 0, 0⟩
  let heap : Bytes := fun _ => 0
  have hmain : ∃ s', s.main far m junk heap = .ok s' := by
    simp only [MailWorld.main, hout]
    split
    next => exact h.exists_send hout (.inl rfl) (MailTest.short_textTo 0) rfl _ _
    next hpoint =>
      exact h.exists_receive hfar (.inl rfl) fun hnil => hvain (.inl ⟨hpoint, hnil⟩)
    next inPktHdr inMailHdr hpoint =>
      rw [hpoint] at hstage
      obtain ⟨hpktHdr, hmailHdr⟩ := hstage.headers
      rw [hmailHdr]
      exact h.exists_send hout (.inr rfl) (MailTest.short_textTo 1) hpktHdr _ _
    next hpoint =>
      exact h.exists_receive hfar (.inr rfl) fun hnil => hvain (.inr ⟨hpoint, hnil⟩)
    next hpoint => exact absurd hpoint hrun
  obtain ⟨s', hs⟩ := hmain
  exact ⟨.main junk heap, s', hvain, rfl, (if_neg hrun).trans hs⟩

/-- A letter that is neither on the way nor has arrived has not been sent. -/
theorem Intact.notMem_sent (hfar : ∀ m, far (far m) = m) (h : s.Intact far) {text : CString}
    (hflow : s.world.flow m = []) (harrived : s.world.arrived m b = []) :
    MailTest.letter far (far m) b text ∉ s.world.sent (far m) := by
  intro hsent
  have hwhole : _ ++ _ = _ := h.whole (far m) m b
  rw [h.toSafe.channel_arrived hfar, h.toSafe.channel_transit hfar, harrived, hflow] at hwhole
  have hmem : MailTest.letter far (far m) b text ∈ (s.world.channel (far m) m b).sent :=
    List.mem_filter.2 ⟨hsent, decide_eq_true ⟨hfar m, rfl⟩⟩
  rw [← hwhole] at hmem
  cases hmem

theorem Intact.not_perform (h : s.Intact far) (hrun : (s.test m).point ≠ .halted)
    (hno : ¬ CanStep far s m) (a : Action Unit) (ha : a.isMain = false)
    (hloses : a.loses = false) (hcounts : a.counts (s.world.machine m) (s.world.socket m) = 1) :
    ¬ ∃ result, (s.world.machine m).perform (s.world.socket m) a = .ok result :=
  fun ⟨_, hp⟩ => hno (h.canStep_office hrun ha hloses hcounts hp)

/-- `Send` has returned. -/
theorem Intact.outside_of_not_canStep (h : s.Intact far) (hrun : (s.test m).point ≠ .halted)
    (hno : ¬ CanStep far s m) :
    (s.world.machine m).senders () = .outside := by
  have hpending : (s.world.machine m).pendingSendDone = 0 := by
    cases hpending : (s.world.machine m).pendingSendDone with
    | zero => rfl
    | succ n =>
      refine absurd ?_ (h.not_perform hrun hno .sendDone rfl rfl rfl)
      simp only [Machine.perform, hpending]
      exact ⟨_, rfl⟩
  have hstage := (h.plays m).stage
  cases hsender : (s.world.machine m).senders () with
  | outside => rfl
  | packed pktHdr mailHdr data buffer =>
    refine absurd ?_ (h.not_perform hrun hno (.transmit () false fun _ => 0) rfl rfl rfl)
    obtain ⟨datagram, hsend⟩ := h.toSafe.exists_transmit hsender false fun _ => 0
    simp only [Machine.perform, hsender, hsend]
    exact ⟨_, rfl⟩
  | waiting =>
    rw [hsender] at hstage
    have hunits : (s.world.machine m).office.messageSent = 1 := by
      have hunits := hstage.units_of_waiting
      rwa [hpending] at hunits
    refine absurd ?_ (h.not_perform hrun hno (.resume ()) rfl rfl rfl)
    simp only [Machine.perform, hsender, hunits]
    exact ⟨_, rfl⟩

/-- All letters have arrived in the mailboxes. -/
theorem Intact.flow_of_not_canStep (hfar : ∀ m, far (far m) = m) (h : s.Intact far)
    (hrun : (s.test m).point ≠ .halted) (hno : ¬ CanStep far s m) :
    s.world.flow m = [] := by
  have htold := (h.sound.machine m).told
  cases hworker : (s.world.machine m).worker with
  | holding pktHdr =>
    refine absurd ?_ (h.not_perform hrun hno (.deliver fun _ => 0) rfl rfl rfl)
    obtain ⟨office, hdeliver⟩ := h.toSafe.exists_deliver hfar hworker fun _ => 0
    simp only [Machine.perform, hworker, hdeliver]
    exact ⟨_, rfl⟩
  | awake =>
    refine absurd ?_ (h.not_perform hrun hno .take rfl rfl rfl)
    simp only [Machine.perform, hworker]
    exact ⟨_, rfl⟩
  | waiting =>
    by_cases hlen : (s.world.machine m).office.network.inHdr.length ≠ 0
    · have havailable : (s.world.machine m).office.messageAvailable = 1 := by
        rwa [hworker, if_pos hlen] at htold
      refine absurd ?_ (h.not_perform hrun hno .wake rfl rfl rfl)
      simp only [Machine.perform, hworker, havailable]
      exact ⟨_, rfl⟩
    · cases hsocket : s.world.socket m with
      | nil => simp [World.flow, Machine.flow, Machine.held, Network.buffered, hworker, hsocket,
          not_not.1 hlen]
      | cons wire rest =>
        refine absurd ?_ (h.not_perform hrun hno (.poll true) rfl rfl
          (if_pos ⟨not_not.1 hlen, rfl, hsocket ▸ List.cons_ne_nil wire rest⟩))
        obtain ⟨result, hcheck⟩ :=
          Network.exists_checkPktAvail (h.sound.machine m).ident (h.sound.socket m) true
        simp only [Machine.perform, hcheck]
        exact ⟨_, rfl⟩

theorem Intact.waitsInVain_of_not_canStep (hfar : ∀ m, far (far m) = m) (h : s.Intact far)
    (hrun : (s.test m).point ≠ .halted) (hno : ¬ CanStep far s m) :
    s.WaitsInVain m := by
  by_contra hvain
  exact hno (h.canStep_main hfar (h.outside_of_not_canStep hrun hno) hrun hvain)

/-- The partner of a machine that cannot make a step has not sent the acknowledgement, and not the
message if the machine waits for it. -/
theorem Intact.notMem_of_not_canStep (hfar : ∀ m, far (far m) = m) (h : s.Intact far)
    (hrun : (s.test m).point ≠ .halted) (hno : ¬ CanStep far s m) :
    MailTest.letter far (far m) 1 MailTest.ack ∉ s.world.sent (far m) ∧
      ((s.test m).point = .receiveData →
        MailTest.letter far (far m) 0 MailTest.data ∉ s.world.sent (far m)) := by
  have hflow := h.flow_of_not_canStep hfar hrun hno
  have hstage := (h.plays m).stage
  rcases h.waitsInVain_of_not_canStep hfar hrun hno with ⟨hpoint, hbox⟩ | ⟨hpoint, hbox⟩
  · rw [hpoint] at hstage
    have hdata : MailTest.letter far (far m) 0 MailTest.data ∉ s.world.sent (far m) :=
      h.notMem_sent hfar hflow (by rw [World.arrived, hstage.of_receiveData, hbox]; rfl)
    exact ⟨fun hack => hdata ((h.plays (far m)).stage.data_mem hack), fun _ => hdata⟩
  · rw [hpoint] at hstage
    refine ⟨h.notMem_sent hfar hflow (by rw [World.arrived, hstage.of_receiveAck, hbox]; rfl),
      fun hdata => ?_⟩
    cases hpoint.symm.trans hdata

/-- As long as two partners have not both halted, one of them can make a step. -/
theorem Intact.halted_or_canStep (hfar : ∀ m, far (far m) = m) (h : s.Intact far) (m : Word) :
    ((s.test m).point = .halted ∧ (s.test (far m)).point = .halted) ∨
      CanStep far s m ∨ CanStep far s (far m) := by
  by_cases hm : CanStep far s m
  · exact .inr (.inl hm)
  by_cases hk : CanStep far s (far m)
  · exact .inr (.inr hk)
  refine .inl (Classical.byContradiction fun hnot => ?_)
  have hstage := (h.plays m).stage
  have hstage' := (h.plays (far m)).stage
  have hm' : (s.test m).point ≠ .halted →
      MailTest.letter far (far m) 1 MailTest.ack ∉ s.world.sent (far m) := fun hrun =>
    (h.notMem_of_not_canStep hfar hrun hm).1
  have hk' : (s.test (far m)).point ≠ .halted →
      MailTest.letter far m 1 MailTest.ack ∉ s.world.sent m := fun hrun => by
    simpa only [hfar] using (h.notMem_of_not_canStep hfar hrun hk).1
  by_cases hhalted : (s.test m).point = .halted
  · rw [hhalted] at hstage
    exact hk' (fun hk => hnot ⟨hhalted, hk⟩) hstage.ack_mem_of_halted
  by_cases hhalted' : (s.test (far m)).point = .halted
  · rw [hhalted'] at hstage'
    exact hm' hhalted hstage'.ack_mem_of_halted
  -- Both wait, so each has sent what the other one waits for.
  rw [h.outside_of_not_canStep hhalted hm] at hstage
  rw [h.outside_of_not_canStep hhalted' hk] at hstage'
  rcases h.waitsInVain_of_not_canStep hfar hhalted hm with ⟨hpoint, -⟩ | ⟨hpoint, -⟩
  · have hdata := (h.notMem_of_not_canStep hfar hhalted hm).2 hpoint
    rcases h.waitsInVain_of_not_canStep hfar hhalted' hk with ⟨hpoint', -⟩ | ⟨hpoint', -⟩
    · rw [hpoint'] at hstage'
      exact hdata hstage'.data_mem_of_receiveData
    · rw [hpoint'] at hstage'
      exact hm' hhalted hstage'.ack_mem_of_receiveAck
  · rw [hpoint] at hstage
    exact hk' hhalted' hstage.ack_mem_of_receiveAck

end MailWorld

section

variable {far : Word → Word} {s : MailWorld × (Word → ℕ)}

/-- The steps that each machine has made, with those that it owes, are its credit. -/
theorem counted_of_reachable (hfar : ∀ m, far (far m) = m)
    (h : ((mailSystem far).withHistory MailWorld.countStep fun _ => 0).Reachable
      (fun s => s.1.Patient) s) :
    s.1.Intact far ∧ ∀ m, s.2 m + (s.1.world.machine m).owed = s.1.credit m := by
  refine h.invariant (fun s => s.1.Intact far ∧
    ∀ m, s.2 m + (s.1.world.machine m).owed = s.1.credit m) (fun s hs => ?_)
    fun s i s' ⟨hintact, hcount⟩ hi hs => ?_
  · refine ⟨MailWorld.intact_of_init hs.1, fun m => ?_⟩
    obtain ⟨⟨inHdr, inbox, buffer, text, hinit⟩, hzero⟩ := hs
    rw [hzero, hinit]
    rfl
  · obtain ⟨hstep, hrecord⟩ := StepSystem.withHistory_step hs
    refine ⟨hintact.step hfar hi hstep, fun m => ?_⟩
    have hcredit := hintact.credit_step hfar hi hstep m
    have hm := hcount m
    rw [hrecord, MailWorld.countStep]
    by_cases hk : m = i.1
    · subst hk
      rw [if_pos rfl] at hcredit
      rw [update_self]
      omega
    · rw [if_neg hk] at hcredit
      rw [update_of_ne hk]
      omega

/-- If every machine calls `Receive` only when there is a message, and no packet is lost, no machine
aborts. Each machine makes at most 18 steps, polls that find no packet apart, and it has halted if
and only if it has made all of them. As long as a machine and its partner have not both halted, one
of them can make such a step. -/
theorem mailTest_completes (hfar : ∀ m, far (far m) = m)
    (h : ((mailSystem far).withHistory MailWorld.countStep fun _ => 0).Reachable
      (fun s => s.1.Patient) s) :
    (∀ m, s.1.world.aborted m = false ∧ s.2 m ≤ 18 ∧
      ((s.1.test m).point = .halted ↔ s.2 m = 18)) ∧
    ∀ m, ((s.1.test m).point = .halted ∧ (s.1.test (far m)).point = .halted) ∨
      MailWorld.CanStep far s.1 m ∨ MailWorld.CanStep far s.1 (far m) := by
  obtain ⟨hintact, hcount⟩ := counted_of_reachable hfar h
  refine ⟨fun m => ?_, hintact.halted_or_canStep hfar⟩
  have hm := hcount m
  have hle := hintact.toSafe.credit_le hfar m
  by_cases hhalted : (s.1.test m).point = .halted
  · obtain ⟨hge, howed⟩ := hintact.toSafe.le_credit_of_halted hhalted
    rw [hhalted] at hle
    simp only [MailPoint.calls] at hle
    exact ⟨hintact.running m, by omega, iff_of_true hhalted (by omega)⟩
  · have hcalls := MailPoint.calls_le hhalted
    exact ⟨hintact.running m, by omega, iff_of_false hhalted (by omega)⟩

end

/-- In `mailRun`, both machines make all their steps. -/
theorem mailTest_completes_of_mailRun :
    ∃ s, ((mailSystem pairs).withHistory MailWorld.countStep fun _ => 0).Reachable
        (fun s => s.1.Patient) s ∧ s.2 0 = 18 ∧ s.2 1 = 18 ∧
      (s.1.test 0).point = .halted ∧ (s.1.test 1).point = .halted := by
  have hinit : ((mailSystem pairs).withHistory MailWorld.countStep fun _ => 0).init
      (mailStart, fun _ => 0) :=
    ⟨⟨fun _ => ⟨0, 0, 0⟩, fun _ _ => 0, fun _ _ => 0, fun _ _ => 0, rfl⟩, rfl⟩
  obtain ⟨s, hs, htest⟩ := StepSystem.exists_reachable_of_runInputsIf hinit
    (c := fun s i => decide (s.1.Patient i)) (fun _ _ => of_decide_eq_true) mailRun
    (fun s => decide (s.2 0 = 18 ∧ s.2 1 = 18)) (by decide +kernel)
  obtain ⟨h0, h1⟩ := of_decide_eq_true htest
  have hall := (mailTest_completes pairs_pairs hs).1
  exact ⟨s, hs, h0, h1, (hall 0).2.2.2 h0, (hall 1).2.2.2 h1⟩

end Nachos.Post
