import Mathlib.Data.List.Infix
import Nachos.Foundations.LossyChannel
import Nachos.Network.Packets

/-!
# Delivery of mail

Between two machines, the letters to one mailbox go through a channel that loses some of them and
changes nothing else. What is under way from one machine to another is in the socket of the
receiver, in its network device, or in the hands of its worker thread.

## Main definitions

* `Machine.Sound`: the bytes of a machine that are in use are those of letters, and
  `messageAvailable` agrees with the length in the header of the network device.
* `World.channel`: the channel from one machine to a mailbox of another one.

## Main results

* `Machine.Sound.perform`: the steps of a machine.
* `mail_in_order`.
-/

namespace Nachos.Post

open Foundations Function

variable {τ : Type}

/-! ### Letters of a machine -/

/-- The letter that the worker thread has taken from the network device. -/
def Machine.held (mach : Machine τ) : List Letter :=
  match mach.worker with
  | .holding pktHdr => [.ofPacket pktHdr mach.buffer]
  | _ => []

/-- The letter in the network device. -/
def Network.buffered (net : Network) : List Letter :=
  if net.inHdr.length ≠ 0 then [.ofPacket net.inHdr net.inbox] else []

/-- The letters that have been sent to a machine and not put into a mailbox. -/
def Machine.flow (mach : Machine τ) (socket : List Bytes) : List Letter :=
  mach.held ++ mach.office.network.buffered ++ socket.map Letter.ofWire

/-- A datagram that `Network::Send` can have sent to the machine `addr`. -/
def IsMailFor (addr : Word) (wire : Bytes) : Prop :=
  (PacketHeader.layout.fetch wire).dest = addr ∧
    Fits (PacketHeader.layout.fetch wire) (behind PacketHeader.layout.size wire)

/-- The worker thread has been told of a packet and has not taken it. -/
def Worker.told : Worker → ℕ
  | .awake => 1
  | _ => 0

/-- The invariant of the machine `addr`. -/
structure Machine.Sound (addr : Word) (mach : Machine τ) : Prop where
  ident : mach.office.network.ident = addr
  netAddr : mach.office.netAddr = addr
  buffered : mach.office.network.inHdr.length ≠ 0 →
    Fits mach.office.network.inHdr mach.office.network.inbox
  holding : ∀ pktHdr, mach.worker = .holding pktHdr → Fits pktHdr mach.buffer
  packed : ∀ t pktHdr mailHdr data buffer, mach.senders t = .packed pktHdr mailHdr data buffer →
    pktHdr.source = addr ∧ Packed pktHdr buffer mailHdr data
  told : mach.office.messageAvailable + mach.worker.told =
    if mach.office.network.inHdr.length ≠ 0 then 1 else 0

/-- What a step of the machine `addr` does to the letters. -/
inductive Machine.Change (addr : Word) (mach : Machine τ) (socket : List Bytes)
    (mach' : Machine τ) (socket' : List Bytes) : Event → Prop
  | pass (hflow : mach'.flow socket' = mach.flow socket)
      (hboxes : mach'.office.boxes = mach.office.boxes) :
      Change addr mach socket mach' socket' .quiet
  | put (mail : Mail) (hflow : mach.flow socket = mail.letter :: mach'.flow socket')
      (hboxes : mach'.office.boxes = update mach.office.boxes mail.mailHdr.dest
        (mach.office.boxes mail.mailHdr.dest ++ [mail])) :
      Change addr mach socket mach' socket' .quiet
  | sent (letter : Letter) (datagram : Option (Word × Bytes))
      (hflow : mach'.flow socket' = mach.flow socket)
      (hboxes : mach'.office.boxes = mach.office.boxes) (hsource : letter.source = addr)
      (hwire : ∀ dest wire, datagram = some (dest, wire) →
        dest = letter.dest ∧ Letter.ofWire wire = letter ∧ IsMailFor dest wire) :
      Change addr mach socket mach' socket' (.sent letter datagram)
  | received (box : Word) (mail : Mail) (messages : MailBox)
      (hflow : mach'.flow socket' = mach.flow socket)
      (hbox : mach.office.boxes box = mail :: messages)
      (hboxes : mach'.office.boxes = update mach.office.boxes box messages) :
      Change addr mach socket mach' socket' (.received box mail.letter)

/-- A packet in the network device stays there until the worker thread takes it, and the worker
thread keeps it until it puts it into a mailbox. -/
structure Machine.Keeps (mach mach' : Machine τ) : Prop where
  buffered : mach.office.network.inHdr.length ≠ 0 →
    (mach'.office.network.inHdr = mach.office.network.inHdr ∧
      mach'.office.network.inbox = mach.office.network.inbox) ∨
    mach.worker = .awake ∧ mach'.held = mach.office.network.buffered
  holding : ∀ pktHdr, mach.worker = .holding pktHdr →
    (mach'.worker = .holding pktHdr ∧ mach'.buffer = mach.buffer) ∨
    ∃ mail : Mail, mach.held = [mail.letter] ∧
      mach'.office.boxes = update mach.office.boxes mail.mailHdr.dest
        (mach.office.boxes mail.mailHdr.dest ++ [mail])

theorem Machine.Keeps.same {mach mach' : Machine τ}
    (hinHdr : mach'.office.network.inHdr = mach.office.network.inHdr)
    (hinbox : mach'.office.network.inbox = mach.office.network.inbox)
    (hworker : mach'.worker = mach.worker) (hbuffer : mach'.buffer = mach.buffer) :
    mach.Keeps mach' :=
  ⟨fun _ => .inl ⟨hinHdr, hinbox⟩, fun _ hw => .inl ⟨hworker.trans hw, hbuffer⟩⟩

/-- What is known of a step of the machine `addr`. -/
structure Machine.Advances (addr : Word) (mach : Machine τ) (socket : List Bytes)
    (mach' : Machine τ) (socket' : List Bytes) (event : Event) : Prop where
  sound : mach'.Sound addr
  unread : socket' <:+ socket
  change : Change addr mach socket mach' socket' event
  keeps : Keeps mach mach'

namespace Machine

variable [DecidableEq τ] {addr : Word} {mach mach' : Machine τ} {socket socket' : List Bytes}
  {event : Event}

/-! ### The steps of a machine -/

namespace Sound

/-- Only the state of a thread that sends changes. -/
theorem setSender (h : mach.Sound addr) (t : τ) {s : Sender} {n k : ℕ}
    (hs : ∀ pktHdr mailHdr data buffer, s = .packed pktHdr mailHdr data buffer →
      pktHdr.source = addr ∧ Packed pktHdr buffer mailHdr data) :
    Machine.Sound addr { mach with
      office := { mach.office with messageSent := n }
      senders := update mach.senders t s
      pendingSendDone := k } where
  ident := h.ident
  netAddr := h.netAddr
  buffered := h.buffered
  holding := h.holding
  packed t' pktHdr mailHdr data buffer ht := by
    by_cases he : t' = t
    · subst he
      exact hs _ _ _ _ (update_self t' s mach.senders ▸ ht)
    · exact h.packed t' _ _ _ _ (update_of_ne he s mach.senders ▸ ht)
  told := h.told

theorem call {t : τ} {pktHdr : PacketHeader} {mailHdr : MailHeader} {data heap : Bytes}
    (h : mach.Sound addr)
    (hp : mach.perform socket (.call t pktHdr mailHdr data heap) = .ok (mach', socket', event)) :
    Advances addr mach socket mach' socket' event := by
  simp only [perform] at hp
  split at hp
  · obtain ⟨⟨hdr, buffer⟩, hpack, hp⟩ := bind_eq_ok.1 hp
    cases hp
    refine ⟨h.setSender t fun _ _ _ _ hs => ?_, List.suffix_rfl, .pass rfl rfl,
      .same rfl rfl rfl rfl⟩
    cases hs
    obtain ⟨hsource, hpacked⟩ := PostOffice.pack_spec hpack
    exact ⟨hsource.trans h.netAddr, hpacked⟩
  · cases hp

theorem transmit {t : τ} {lost : Bool} {heap : Bytes} (h : mach.Sound addr)
    (hp : mach.perform socket (.transmit t lost heap) = .ok (mach', socket', event)) :
    Advances addr mach socket mach' socket' event := by
  simp only [perform] at hp
  split at hp
  case h_2 => cases hp
  next pktHdr mailHdr data buffer ht =>
    obtain ⟨datagram, hsend, hp⟩ := bind_eq_ok.1 hp
    cases hp
    obtain ⟨hsource, hpacked⟩ := h.packed t _ _ _ _ ht
    refine ⟨h.setSender t nofun, List.suffix_rfl,
      .sent _ _ rfl rfl hsource fun dest wire hd => ?_, .same rfl rfl rfl rfl⟩
    subst hd
    obtain ⟨hdest, hfetch, hbytes⟩ := Network.send_spec hsend
    refine ⟨hdest, ?_, by rw [hfetch, hdest], ?_⟩
    · rw [Letter.ofWire, hfetch, (hpacked.congr hbytes).letter_eq]
    · rw [hfetch]
      exact ⟨_, _, hpacked.congr hbytes⟩

theorem resume {t : τ} (h : mach.Sound addr)
    (hp : mach.perform socket (.resume t) = .ok (mach', socket', event)) :
    Advances addr mach socket mach' socket' event := by
  simp only [perform] at hp
  split at hp
  · cases hp
    exact ⟨h.setSender t nofun, List.suffix_rfl, .pass rfl rfl, .same rfl rfl rfl rfl⟩
  · cases hp

theorem sendDone (h : mach.Sound addr)
    (hp : mach.perform socket .sendDone = .ok (mach', socket', event)) :
    Advances addr mach socket mach' socket' event := by
  simp only [perform] at hp
  split at hp
  · cases hp
    exact ⟨⟨h.ident, h.netAddr, h.buffered, h.holding, h.packed, h.told⟩, List.suffix_rfl,
      .pass rfl rfl, .same rfl rfl rfl rfl⟩
  · cases hp

/-- A packet is read into the network device only if there is none. -/
theorem poll {ready : Bool} (h : mach.Sound addr) (hsocket : ∀ wire ∈ socket, IsMailFor addr wire)
    (hp : mach.perform socket (.poll ready) = .ok (mach', socket', event)) :
    Advances addr mach socket mach' socket' event := by
  simp only [perform] at hp
  obtain ⟨⟨net, rest, arrived⟩, hcheck, hp⟩ := bind_eq_ok.1 hp
  cases hp
  rcases Network.checkPktAvail_cases hcheck with
    ⟨rfl, rfl, rfl⟩ | ⟨hlen, rfl, hident, wire, rfl, hhdr, hbytes⟩
  · exact ⟨h, List.suffix_rfl, .pass rfl rfl, .same rfl rfl rfl rfl⟩
  · obtain ⟨-, hfits⟩ := hsocket wire List.mem_cons_self
    rw [← hhdr] at hfits
    have hinbox : Fits net.inHdr net.inbox := hfits.congr hbytes
    have htold := h.told
    rw [if_neg (not_not.2 hlen)] at htold
    refine ⟨⟨hident.trans h.ident, h.netAddr, fun _ => hinbox, h.holding, h.packed, ?_⟩,
      List.suffix_cons wire rest, .pass ?_ rfl, fun hne => absurd hlen hne,
      fun _ hw => .inl ⟨hw, rfl⟩⟩
    · change mach.office.messageAvailable + 1 + mach.worker.told =
        if net.inHdr.length ≠ 0 then 1 else 0
      rw [if_pos hinbox.length_ne_zero]
      omega
    · change mach.held ++ net.buffered ++ rest.map Letter.ofWire = _
      rw [flow, Network.buffered, Network.buffered, if_pos hinbox.length_ne_zero,
        if_neg (not_not.2 hlen), hfits.ofPacket_congr hbytes, hhdr, List.map_cons, List.append_nil,
        List.append_assoc]
      rfl

theorem wake (h : mach.Sound addr)
    (hp : mach.perform socket .wake = .ok (mach', socket', event)) :
    Advances addr mach socket mach' socket' event := by
  simp only [perform] at hp
  split at hp
  case h_2 => cases hp
  next n hworker havail =>
    cases hp
    have htold := h.told
    rw [hworker, havail] at htold
    refine ⟨⟨h.ident, h.netAddr, h.buffered, nofun, h.packed, htold⟩, List.suffix_rfl,
      .pass ?_ rfl, fun _ => .inl ⟨rfl, rfl⟩, fun _ hw => nomatch hworker.symm.trans hw⟩
    rw [flow, flow, held, held, hworker]

/-- The worker takes a packet, and leaves none. -/
theorem take (h : mach.Sound addr)
    (hp : mach.perform socket .take = .ok (mach', socket', event)) :
    Advances addr mach socket mach' socket' event := by
  simp only [perform] at hp
  split at hp
  case h_2 => cases hp
  next hworker =>
    cases hp
    have htold := h.told
    rw [hworker] at htold
    have hlen : mach.office.network.inHdr.length ≠ 0 := by
      intro h0
      rw [if_neg (not_not.2 h0)] at htold
      exact absurd htold (Nat.succ_ne_zero _)
    rw [if_pos hlen] at htold
    have hbytes : ∀ i < mach.office.network.inHdr.length.toNat,
        (mach.office.network.receive mach.buffer).2.1 i = mach.office.network.inbox i :=
      Network.receive_inbox
    have hbuffered : mach.office.network.buffered = [Letter.ofPacket mach.office.network.inHdr
        (mach.office.network.receive mach.buffer).2.1] := by
      rw [Network.buffered, if_pos hlen, (h.buffered hlen).ofPacket_congr hbytes]
    refine ⟨⟨h.ident, h.netAddr, fun hne => absurd rfl hne, ?_, h.packed, Nat.succ.inj htold⟩,
      List.suffix_rfl, .pass ?_ rfl, fun _ => .inr ⟨hworker, hbuffered.symm⟩,
      fun _ hw => nomatch hworker.symm.trans hw⟩
    · rintro _ ⟨⟩
      exact (h.buffered hlen).congr hbytes
    · rw [flow, flow, hbuffered, held, held, hworker]
      rfl

theorem deliver {heap : Bytes} (h : mach.Sound addr)
    (hp : mach.perform socket (.deliver heap) = .ok (mach', socket', event)) :
    Advances addr mach socket mach' socket' event := by
  simp only [perform] at hp
  split at hp
  case h_2 => cases hp
  next pktHdr hworker =>
    obtain ⟨office, hdeliver, hp⟩ := bind_eq_ok.1 hp
    cases hp
    obtain ⟨mail, hmail, rfl⟩ := PostOffice.deliver_spec hdeliver
    have htold := h.told
    rw [hworker] at htold
    have hheld : mach.held = [mail.letter] := by rw [held, hworker, hmail]
    refine ⟨⟨h.ident, h.netAddr, h.buffered, nofun, h.packed, htold⟩, List.suffix_rfl,
      .put mail ?_ rfl, fun _ => .inl ⟨rfl, rfl⟩, fun _ _ => .inr ⟨mail, hheld, rfl⟩⟩
    rw [flow, hheld]
    rfl

theorem receive {box : Word} {data : Bytes} (h : mach.Sound addr)
    (hp : mach.perform socket (.receive box data) = .ok (mach', socket', event)) :
    Advances addr mach socket mach' socket' event := by
  simp only [perform] at hp
  obtain ⟨⟨⟨pktHdr, mailHdr, into⟩, office⟩, hreceive, hp⟩ := bind_eq_ok.1 hp
  cases hp
  obtain ⟨mail, messages, hbox, hletter, rfl⟩ := PostOffice.receive_spec hreceive
  refine ⟨⟨h.ident, h.netAddr, h.buffered, h.holding, h.packed, h.told⟩, List.suffix_rfl, ?_,
    .same rfl rfl rfl rfl⟩
  rw [hletter]
  exact .received box mail messages rfl hbox rfl

/-- Every step of a machine. -/
theorem perform {a : Action τ} (h : mach.Sound addr)
    (hsocket : ∀ wire ∈ socket, IsMailFor addr wire)
    (hp : mach.perform socket a = .ok (mach', socket', event)) :
    Advances addr mach socket mach' socket' event := by
  cases a with
  | call => exact h.call hp
  | transmit => exact h.transmit hp
  | resume => exact h.resume hp
  | sendDone => exact h.sendDone hp
  | poll => exact h.poll hsocket hp
  | wake => exact h.wake hp
  | take => exact h.take hp
  | deliver => exact h.deliver hp
  | receive => exact h.receive hp

end Sound

end Machine

/-! ### All machines -/

namespace World

variable {w w' : World τ} {k m n b : Word} {mach : Machine τ} {socket : List Bytes}

/-- The letters that have been sent to the machine `m` and not put into a mailbox. -/
def flow (w : World τ) (m : Word) : List Letter := (w.machine m).flow (w.socket m)

/-- The letters that were put into the box `b` of the machine `m`. -/
def arrived (w : World τ) (m b : Word) : List Letter :=
  w.received m b ++ ((w.machine m).office.boxes b).map Mail.letter

/-- The channel from the machine `k` to the box `b` of the machine `m`. -/
def channel (w : World τ) (k m b : Word) : LossyChannel Letter where
  sent := (w.sent k).filter fun x => x.dest = m ∧ x.mailHdr.dest = b
  transit := (w.flow m).filter fun x => x.source = k ∧ x.mailHdr.dest = b
  arrived := (w.arrived m b).filter fun x => x.source = k

/-- The invariant of all machines. -/
structure Sound (w : World τ) : Prop where
  machine : ∀ m, (w.machine m).Sound m
  socket : ∀ m, ∀ wire ∈ w.socket m, IsMailFor m wire

theorem channel_congr (hsent : w'.sent k = w.sent k) (hflow : w'.flow m = w.flow m)
    (harrived : w'.arrived m b = w.arrived m b) : w'.channel k m b = w.channel k m b := by
  rw [channel, channel, hsent, hflow, harrived]

section

variable (w n) (mach : Machine τ) (socket : List Bytes)

theorem flow_replace_self : (w.replace n mach socket).flow n = mach.flow socket := by
  simp [flow, replace]

theorem flow_replace_of_ne (h : m ≠ n) : (w.replace n mach socket).flow m = w.flow m := by
  simp [flow, replace, h]

theorem arrived_replace_self : (w.replace n mach socket).arrived n b =
    w.received n b ++ (mach.office.boxes b).map Mail.letter := by
  simp [arrived, replace]

theorem arrived_replace_of_ne (h : m ≠ n) :
    (w.replace n mach socket).arrived m b = w.arrived m b := by
  simp [arrived, replace, h]

end

/-- What a machine does inside it is not seen by the channels. -/
theorem channel_replace (hflow : mach.flow socket = w.flow n)
    (hboxes : mach.office.boxes = (w.machine n).office.boxes) :
    (w.replace n mach socket).channel k m b = w.channel k m b := by
  refine channel_congr rfl ?_ ?_
  · by_cases hm : m = n
    · rw [hm, flow_replace_self, hflow]
    · exact flow_replace_of_ne w n mach socket hm
  · by_cases hm : m = n
    · rw [hm, arrived_replace_self, hboxes, arrived]
    · exact arrived_replace_of_ne w n mach socket hm

/-- A letter that is put into a mailbox has arrived there. -/
theorem channel_put {mail : Mail} (hflow : w.flow n = mail.letter :: mach.flow socket)
    (hboxes : mach.office.boxes = update (w.machine n).office.boxes mail.mailHdr.dest
      ((w.machine n).office.boxes mail.mailHdr.dest ++ [mail])) :
    Relation.ReflGen LossyChannel.Step (w.channel k m b)
      ((w.replace n mach socket).channel k m b) := by
  by_cases hm : m = n
  swap
  · rw [show (w.replace n mach socket).channel k m b = w.channel k m b from channel_congr rfl
      (flow_replace_of_ne w n mach socket hm) (arrived_replace_of_ne w n mach socket hm)]
  subst hm
  have hdest : mail.letter.mailHdr = mail.mailHdr := rfl
  have harrived : (w.replace m mach socket).arrived m b =
      w.arrived m b ++ if mail.mailHdr.dest = b then [mail.letter] else [] := by
    rw [arrived_replace_self, hboxes, arrived]
    split_ifs with hb
    · rw [← hb, update_self, List.map_append, List.append_assoc]
      rfl
    · rw [update_of_ne (Ne.symm hb), List.append_nil]
  rw [channel, channel, hflow, flow_replace_self, harrived, List.filter_append]
  by_cases hx : mail.letter.source = k ∧ mail.mailHdr.dest = b
  · have hone : (if mail.mailHdr.dest = b then [mail.letter] else []).filter
        (fun x => x.source = k) = [mail.letter] := by simp [hx.1, hx.2]
    rw [List.filter_cons_of_pos (by simpa [hdest] using hx), hone]
    exact .single (.arrive _ _ _ _)
  · have hnil : (if mail.mailHdr.dest = b then [mail.letter] else []).filter
        (fun x => x.source = k) = [] := by
      split_ifs with hb
      · simpa using fun hk => hx ⟨hk, hb⟩
      · rfl
    rw [List.filter_cons_of_neg (by simpa [hdest] using hx), hnil, List.append_nil]
    exact .refl

theorem sent_record (w : World τ) (n k : Word) (letter : Letter)
    (datagram : Option (Word × Bytes)) :
    (w.record n (.sent letter datagram)).sent k =
      w.sent k ++ if k = n then [letter] else [] := by
  split_ifs with hk
  · subst hk
    rcases datagram with _ | ⟨dest, wire⟩ <;> exact update_self _ _ _
  · rw [List.append_nil]
    rcases datagram with _ | ⟨dest, wire⟩ <;> exact update_of_ne hk _ _

theorem flow_record {letter : Letter} {datagram : Option (Word × Bytes)}
    (hwire : ∀ dest wire, datagram = some (dest, wire) →
      dest = letter.dest ∧ Letter.ofWire wire = letter) :
    (w.record n (.sent letter datagram)).flow m =
      w.flow m ++ if datagram.isSome ∧ letter.dest = m then [letter] else [] := by
  rcases datagram with _ | ⟨dest, wire⟩
  · simp [flow, record]
  · obtain ⟨rfl, hletter⟩ := hwire dest wire rfl
    by_cases hm : letter.dest = m
    · subst hm
      simp [flow, record, Machine.flow, hletter]
    · simp [flow, record, hm, Ne.symm hm]

/-- A letter that is sent is under way, or lost. -/
theorem channel_sent {letter : Letter} {datagram : Option (Word × Bytes)}
    (hsource : letter.source = n) (hwire : ∀ dest wire, datagram = some (dest, wire) →
      dest = letter.dest ∧ Letter.ofWire wire = letter) :
    Relation.ReflGen LossyChannel.Step (w.channel k m b)
      ((w.record n (.sent letter datagram)).channel k m b) := by
  have harrived : (w.record n (.sent letter datagram)).arrived m b = w.arrived m b := by
    rcases datagram with _ | ⟨dest, wire⟩ <;> rfl
  rw [channel, channel, sent_record, flow_record hwire, harrived, List.filter_append,
    List.filter_append]
  by_cases hx : k = n ∧ letter.dest = m ∧ letter.mailHdr.dest = b
  · obtain ⟨rfl, rfl, rfl⟩ := hx
    rcases datagram with _ | ⟨dest, wire⟩
    · simpa using .single (.lose _ letter)
    · simpa [hsource] using .single (.send _ letter)
  · have hsent : (if k = n then [letter] else []).filter
        (fun x => x.dest = m ∧ x.mailHdr.dest = b) = [] := by
      split_ifs with hk
      · simpa using fun hd hb => hx ⟨hk, hd, hb⟩
      · rfl
    have hflow : (if datagram.isSome ∧ letter.dest = m then [letter] else []).filter
        (fun x => x.source = k ∧ x.mailHdr.dest = b) = [] := by
      split_ifs with hd
      · simpa using fun hk hb => hx ⟨hk.symm.trans hsource, hd.2, hb⟩
      · rfl
    rw [hsent, hflow, List.append_nil, List.append_nil]

/-- The letters that `Receive` returns were in the mailbox. -/
theorem channel_received {mail : Mail} {messages : MailBox} {box : Word}
    (hflow : mach.flow socket = w.flow n)
    (hbox : (w.machine n).office.boxes box = mail :: messages)
    (hboxes : mach.office.boxes = update (w.machine n).office.boxes box messages) :
    ((w.replace n mach socket).record n (.received box mail.letter)).channel k m b =
      w.channel k m b := by
  refine channel_congr rfl ?_ ?_
  · by_cases hm : m = n
    · rw [hm]
      exact (flow_replace_self w n mach socket).trans hflow
    · exact flow_replace_of_ne w n mach socket hm
  · by_cases hm : m = n
    · subst hm
      by_cases hb : b = box
      · subst hb
        simp [arrived, record, replace, hboxes, hbox]
      · simp [arrived, record, replace, hboxes, hb]
    · simp [arrived, record, replace, hm]

/-- In every step, each channel takes a step or none. -/
theorem channel_change [DecidableEq τ] {event : Event}
    (h : (w.machine n).Change n (w.socket n) mach socket event) :
    Relation.ReflGen LossyChannel.Step (w.channel k m b)
      (((w.replace n mach socket).record n event).channel k m b) := by
  cases h with
  | pass hflow hboxes =>
    rw [record, channel_replace hflow hboxes]
  | put mail hflow hboxes => exact channel_put hflow hboxes
  | sent letter datagram hflow hboxes hsource hwire =>
    rw [← channel_replace hflow hboxes]
    refine channel_sent hsource fun dest wire hd => ?_
    obtain ⟨hdest, hletter, -⟩ := hwire dest wire hd
    exact ⟨hdest, hletter⟩
  | received box mail messages hflow hbox hboxes =>
    rw [channel_received hflow hbox hboxes]

theorem step_cases [DecidableEq τ] {i : Word × Action τ} (h : w.step i = .ok w') :
    w' = { w with aborted := update w.aborted i.1 true } ∨
      ∃ mach socket event, (w.machine i.1).perform (w.socket i.1) i.2 = .ok (mach, socket, event) ∧
        w' = (w.replace i.1 mach socket).record i.1 event := by
  simp only [step] at h
  split_ifs at h
  split at h
  next mach socket event hp => exact .inr ⟨mach, socket, event, hp, (Except.ok.inj h).symm⟩
  · cases h
  · exact .inl (Except.ok.inj h).symm

namespace Sound

theorem replace (h : w.Sound) (hmach : mach.Sound n) (hsocket : socket <:+ w.socket n) :
    (w.replace n mach socket).Sound where
  machine m := by
    by_cases hm : m = n
    · subst hm
      simpa [World.replace] using hmach
    · simpa [World.replace, hm] using h.machine m
  socket m wire hw := by
    by_cases hm : m = n
    · subst hm
      exact h.socket m wire (hsocket.subset (by simpa [World.replace] using hw))
    · exact h.socket m wire (by simpa [World.replace, hm] using hw)

theorem record {mach₀ : Machine τ} {socket₀ : List Bytes} {event : Event} (h : w.Sound)
    (hc : Machine.Change n mach₀ socket₀ mach socket event) : (w.record n event).Sound := by
  cases hc with
  | pass | put | received => exact ⟨h.machine, h.socket⟩
  | sent letter datagram _ _ _ hwire =>
    rcases datagram with _ | ⟨dest, wire⟩
    · exact ⟨h.machine, h.socket⟩
    · refine ⟨h.machine, fun m wire' hw => ?_⟩
      by_cases hm : m = dest
      · subst hm
        have hw' : wire' ∈ w.socket m ∨ wire' = wire := by simpa [World.record] using hw
        rcases hw' with hw' | rfl
        · exact h.socket m wire' hw'
        · exact (hwire m _ rfl).2.2
      · exact h.socket m wire' (by simpa [World.record, hm] using hw)

/-- Every step of every machine. -/
theorem step [DecidableEq τ] {i : Word × Action τ} (h : w.Sound) (hs : w.step i = .ok w') :
    w'.Sound ∧
      ∀ k m b, Relation.ReflGen LossyChannel.Step (w.channel k m b) (w'.channel k m b) := by
  rcases step_cases hs with rfl | ⟨mach, socket, event, hp, rfl⟩
  · exact ⟨⟨h.machine, h.socket⟩, fun _ _ _ => .refl⟩
  · have ha := (h.machine i.1).perform (h.socket i.1) hp
    exact ⟨(h.replace ha.sound ha.unread).record ha.change, fun _ _ _ => channel_change ha.change⟩

/-- Every machine keeps its packets. -/
theorem keeps [DecidableEq τ] {i : Word × Action τ} (h : w.Sound) (hs : w.step i = .ok w')
    (m : Word) : (w.machine m).Keeps (w'.machine m) := by
  rcases step_cases hs with rfl | ⟨mach, socket, event, hp, rfl⟩
  · exact .same rfl rfl rfl rfl
  · have hrecord : ((w.replace i.1 mach socket).record i.1 event).machine =
        update w.machine i.1 mach := by
      cases event with
      | quiet | received => rfl
      | sent letter datagram => rcases datagram with _ | ⟨dest, wire⟩ <;> rfl
    rw [hrecord]
    by_cases hm : m = i.1
    · subst hm
      rw [update_self]
      exact ((h.machine i.1).perform (h.socket i.1) hp).keeps
    · rw [update_of_ne hm]
      exact .same rfl rfl rfl rfl

end Sound

end World

section

variable [DecidableEq τ] {w : World τ}

theorem sound_of_init (h : (postSystem τ).init w) :
    w.Sound ∧ ∀ k m b, (w.channel k m b).InOrder := by
  obtain ⟨numBoxes, inHdr, inbox, buffer, rfl⟩ := h
  refine ⟨⟨fun m => ⟨rfl, rfl, fun hne => absurd rfl hne, nofun, nofun, rfl⟩, fun _ => nofun⟩,
    fun k m b => ?_⟩
  exact List.nil_sublist _

/-- In every run, the channels keep the order of the letters. -/
theorem sound_of_reachable (h : (postSystem τ).Reachable StepSystem.Always w) :
    w.Sound ∧ ∀ k m b, (w.channel k m b).InOrder := by
  refine h.invariant (fun w => w.Sound ∧ ∀ k m b, (w.channel k m b).InOrder)
    (fun _ => sound_of_init) fun w i w' ⟨hw, hc⟩ _ hs => ?_
  obtain ⟨hw', hstep⟩ := hw.step hs
  exact ⟨hw', fun k m b => (hc k m b).reflGen (hstep k m b)⟩

/-- The letters from the machine `k` that have been received from, or are in, a mailbox are some
of the letters that `k` sent to it, in the order of its calls of `network->Send`, and each of them
at most once. The worker thread never takes an empty packet, and no packet is overwritten before it
is in a mailbox. -/
theorem mail_in_order (h : (postSystem τ).Reachable StepSystem.Always w) :
    (∀ k m b, ((w.received m b ++ ((w.machine m).office.boxes b).map Mail.letter).filter
        fun x => x.source = k).Sublist
      ((w.sent k).filter fun x => x.dest = m ∧ x.mailHdr.dest = b)) ∧
    (∀ m, (w.machine m).worker = .awake → (w.machine m).office.network.inHdr.length ≠ 0) ∧
    ∀ i w', w.step i = .ok w' → ∀ m, (w.machine m).Keeps (w'.machine m) := by
  obtain ⟨hw, hc⟩ := sound_of_reachable h
  refine ⟨fun k m b => (hc k m b).arrived, fun m ha h0 => ?_, fun i w' hs => hw.keeps hs⟩
  have htold := (hw.machine m).told
  rw [ha, if_neg (not_not.2 h0)] at htold
  exact Nat.succ_ne_zero _ htold

end

/-- Two threads of the machine 1 send one letter each to the box 1 of the machine 2. -/
def twoLetters : List (Word × Action Bool) :=
  let heap : Bytes := fun _ => 0
  [(1, .call false ⟨2, 0, 0⟩ ⟨1, 0, 3⟩ (BitVec.ofNat 8) heap),
    (1, .call true ⟨2, 0, 0⟩ ⟨1, 0, 2⟩ (fun _ => 7) heap),
    (1, .transmit true false heap), (1, .transmit false false heap), (1, .sendDone),
    (1, .resume true), (2, .poll true), (2, .poll true), (2, .wake), (2, .take), (2, .poll true),
    (2, .deliver heap), (2, .receive 1 heap), (2, .wake), (2, .take), (2, .deliver heap)]

/-- The machines of `twoLetters` before they start. -/
def twoBoxes : World Bool where
  machine m := .new m 2 ⟨0, 0, 0⟩ (fun _ => 0) fun _ => 0
  socket _ := []
  aborted _ := false
  sent _ := []
  received _ _ := []

/-- The letter that was sent first is received first. -/
theorem mail_in_order_of_twoLetters :
    ∃ w, (postSystem Bool).Reachable StepSystem.Always w ∧
      (w.received 2 1).map Letter.data = [[7, 7]] ∧
      ((w.machine 2).office.boxes 1).map (fun mail => mail.letter.data) = [[0, 1, 2]] ∧
      ((w.received 2 1 ++ ((w.machine 2).office.boxes 1).map Mail.letter).filter
        fun x => x.source = 1).Sublist
      ((w.sent 1).filter fun x => x.dest = 2 ∧ x.mailHdr.dest = 1) := by
  have hinit : (postSystem Bool).init twoBoxes :=
    ⟨fun _ => 2, fun _ => ⟨0, 0, 0⟩, fun _ _ => 0, fun _ _ => 0, rfl⟩
  obtain ⟨w, hw, htest⟩ := StepSystem.exists_reachable_of_runInputs hinit twoLetters
    (fun w => decide ((w.received 2 1).map Letter.data = [[7, 7]] ∧
      ((w.machine 2).office.boxes 1).map (fun mail => mail.letter.data) = [[0, 1, 2]]))
    (by decide +kernel)
  have hdata := of_decide_eq_true htest
  exact ⟨w, hw, hdata.1, hdata.2, (mail_in_order hw).1 1 2 1⟩

end Nachos.Post
