import Mathlib.Data.List.Range
import Mathlib.Logic.Function.Basic
import Nachos.FileSys.OpenFile
import Nachos.Foundations.Run
import Nachos.Machine.Translate

/-!
# Post offices on a network

`machine/network.cc` and `network/post.cc`: any number of machines, each with a network device and
a post office. A mail is packed with two headers into the bytes of one packet. The network device
of a machine has room for one packet that has arrived; a worker thread puts it into a mailbox.

Any number of threads of a machine call `PostOffice::Send`. Interrupts and thread switches occur
where the source calls a semaphore, and also between the stages of `Send` and of `PostalDelivery`
that are told apart here. `Lock::Acquire` and `Lock::Release` do nothing, so they are left out, and
`Condition::Wait` is `ASSERT(FALSE)`. A machine whose `ASSERT` fails takes no further steps.

The environment decides which packets are lost (`Random`), when a datagram can be read, and what
newly allocated memory contains. UNIX datagram sockets deliver in order and lose nothing.

## Main definitions

* `PacketHeader`, `MailHeader`, `Mail`.
* `Network.checkPktAvail`, `Network.send`, `Network.receive`.
* `PostOffice.pack`, `PostOffice.deliver`, `PostOffice.receive`.
* `Machine.perform`: the steps of one machine; `postSystem`: all machines.
-/

namespace Nachos.Post

open Foundations Function
open FileSys (bcopy)

/-! ### Headers -/

/-- `PacketHeader`. -/
structure PacketHeader where
  /-- `to`. -/
  dest : Word
  /-- `from`. -/
  source : Word
  length : Word
  deriving DecidableEq

/-- `MailHeader`. -/
structure MailHeader where
  /-- `to`. -/
  dest : Word
  /-- `from`. -/
  source : Word
  length : Word
  deriving DecidableEq

/-- A `PacketHeader` in memory. -/
def PacketHeader.layout : Layout PacketHeader :=
  (Layout.word.prod (Layout.word.prod Layout.word)).map
    (fun hdr => (hdr.dest, hdr.source, hdr.length))
    (fun words => ⟨words.1, words.2.1, words.2.2⟩) fun _ => rfl

/-- A `MailHeader` in memory. -/
def MailHeader.layout : Layout MailHeader :=
  (Layout.word.prod (Layout.word.prod Layout.word)).map
    (fun hdr => (hdr.dest, hdr.source, hdr.length))
    (fun words => ⟨words.1, words.2.1, words.2.2⟩) fun _ => rfl

/-- `MaxWireSize`. -/
abbrev maxWireSize : ℕ := 64

/-- `MaxPacketSize`. -/
abbrev maxPacketSize : ℕ := maxWireSize - PacketHeader.layout.size

/-- `MaxMailSize`. -/
abbrev maxMailSize : ℕ := maxPacketSize - MailHeader.layout.size

/-- The bytes behind the first `n`. -/
def behind (n : ℕ) (b : Bytes) : Bytes := fun i => b (n + i)

/-- The first `n` bytes. -/
def firstBytes (n : ℕ) (b : Bytes) : List (BitVec 8) := (List.range n).map b

/-- What a receiver of a mail can tell: the machines that it comes from and goes to, its header
and its data. -/
structure Letter where
  source : Word
  dest : Word
  mailHdr : MailHeader
  data : List (BitVec 8)
  deriving DecidableEq

/-- The letter with the given headers and data. -/
def Letter.new (pktHdr : PacketHeader) (mailHdr : MailHeader) (data : Bytes) : Letter :=
  ⟨pktHdr.source, pktHdr.dest, mailHdr, firstBytes mailHdr.length.toNat data⟩

/-- The letter in a packet, whose data begin with a `MailHeader`. -/
def Letter.ofPacket (hdr : PacketHeader) (data : Bytes) : Letter :=
  .new hdr (MailHeader.layout.fetch data) (behind MailHeader.layout.size data)

/-- The letter in a datagram. -/
def Letter.ofWire (wire : Bytes) : Letter :=
  .ofPacket (PacketHeader.layout.fetch wire) (behind PacketHeader.layout.size wire)

/-! ### The network device -/

/-- `Network`. -/
structure Network where
  ident : Word
  sendBusy : Bool
  inHdr : PacketHeader
  inbox : Bytes

namespace Network

variable (net : Network)

/-- `Network::CheckPktAvail`: the device, the datagrams that are left in the socket, and whether
`readHandler` is called. `ready` says whether `PollSocket` finds a datagram that is there. -/
def checkPktAvail (socket : List Bytes) (ready : Bool) :
    Except Fault (Network × List Bytes × Bool) :=
  if net.inHdr.length ≠ 0 then .ok (net, socket, false)
  else
    match ready, socket with
    | true, buffer :: socket =>
      let inHdr := PacketHeader.layout.fetch buffer
      if inHdr.dest = net.ident ∧ inHdr.length.toNat ≤ maxPacketSize then
        let inbox := bcopy (behind PacketHeader.layout.size buffer) net.inbox 0 inHdr.length.toNat
        .ok ({ net with inHdr := inHdr, inbox := inbox }, socket, true)
      else .error .assertion
    | _, _ => .ok (net, socket, false)

/-- `Network::SendDone`, without the call of `writeHandler`. -/
def sendDone : Network := { net with sendBusy := false }

/-- `Network::Send`: the socket to which a datagram is sent and its bytes, unless it is lost. The
array `buffer` contains `heap` when it is allocated. -/
def send (hdr : PacketHeader) (data heap : Bytes) (lost : Bool) :
    Except Fault (Option (Word × Bytes)) :=
  if net.sendBusy = false ∧ 0 < hdr.length.toNat ∧ hdr.length.toNat ≤ maxPacketSize ∧
      hdr.source = net.ident then
    if lost then .ok none
    else
      let buffer := bcopy (PacketHeader.layout.store hdr) heap 0 PacketHeader.layout.size
      .ok (some (hdr.dest, bcopy data buffer PacketHeader.layout.size hdr.length.toNat))
  else .error .assertion

/-- `Network::Receive`: the header, the contents of `data`, and the device. -/
def receive (data : Bytes) : PacketHeader × Bytes × Network :=
  (net.inHdr,
    if net.inHdr.length ≠ 0 then bcopy net.inbox data 0 net.inHdr.length.toNat else data,
    { net with inHdr := { net.inHdr with length := 0 } })

end Network

/-! ### The post office -/

/-- `Mail`. -/
structure Mail where
  pktHdr : PacketHeader
  mailHdr : MailHeader
  data : Bytes

/-- `Mail::Mail`. The array `data` contains `heap` when it is allocated. -/
def Mail.new (pktH : PacketHeader) (mailH : MailHeader) (msgData heap : Bytes) :
    Except Fault Mail :=
  if mailH.length.toNat ≤ maxMailSize then
    .ok ⟨pktH, mailH, bcopy msgData heap 0 mailH.length.toNat⟩
  else .error .assertion

/-- The letter of a mail. -/
def Mail.letter (mail : Mail) : Letter := .new mail.pktHdr mail.mailHdr mail.data

/-- `MailBox`: the list `messages`. -/
abbrev MailBox : Type := List Mail

/-- `MailBox::Put`. -/
def MailBox.put (box : MailBox) (pktHdr : PacketHeader) (mailHdr : MailHeader)
    (data heap : Bytes) : Except Fault MailBox := do
  return box ++ [← Mail.new pktHdr mailHdr data heap]

/-- `MailBox::Get`: the headers, the contents of `data`, and the box. A call on an empty box
reaches `Condition::Wait`. -/
def MailBox.get (box : MailBox) (data : Bytes) :
    Except Fault ((PacketHeader × MailHeader × Bytes) × MailBox) :=
  match box with
  | [] => .error .assertion
  | mail :: box =>
    .ok ((mail.pktHdr, mail.mailHdr, bcopy mail.data data 0 mail.mailHdr.length.toNat), box)

/-- `PostOffice`, with the values of its semaphores. -/
structure PostOffice where
  network : Network
  netAddr : Word
  boxes : Word → MailBox
  numBoxes : Word
  messageAvailable : ℕ
  messageSent : ℕ

namespace PostOffice

/-- The constructor. The header and the array of the network device are not initialized, except
for the length in the header. -/
def new (addr nBoxes : Word) (inHdr : PacketHeader) (inbox : Bytes) : PostOffice where
  network := ⟨addr, false, { inHdr with length := 0 }, inbox⟩
  netAddr := addr
  boxes _ := []
  numBoxes := nBoxes
  messageAvailable := 0
  messageSent := 0

variable (office : PostOffice)

/-- `box` is an index of `boxes`. -/
def IsBox (box : Word) : Prop := 0 ≤ box.toInt ∧ box.toInt < office.numBoxes.toInt
  deriving Decidable

/-- The beginning of `PostOffice::Send`, up to `sendLock->Acquire`: the packet header, filled in,
and `buffer`, which contains `heap` when it is allocated. -/
def pack (pktHdr : PacketHeader) (mailHdr : MailHeader) (data heap : Bytes) :
    Except Fault (PacketHeader × Bytes) :=
  if mailHdr.length.toNat ≤ maxMailSize ∧ office.IsBox mailHdr.dest then
    let length := mailHdr.length + BitVec.ofNat 32 MailHeader.layout.size
    let buffer := bcopy (MailHeader.layout.store mailHdr) heap 0 MailHeader.layout.size
    .ok ({ pktHdr with source := office.netAddr, length := length },
      bcopy data buffer MailHeader.layout.size mailHdr.length.toNat)
  else .error .assertion

/-- The end of the loop of `PostOffice::PostalDelivery`, after `network->Receive`. -/
def deliver (pktHdr : PacketHeader) (buffer heap : Bytes) : Except Fault PostOffice := do
  let mailHdr := MailHeader.layout.fetch buffer
  if office.IsBox mailHdr.dest ∧ mailHdr.length.toNat ≤ maxMailSize then
    let box ← (office.boxes mailHdr.dest).put pktHdr mailHdr
      (behind MailHeader.layout.size buffer) heap
    return { office with boxes := update office.boxes mailHdr.dest box }
  else .error .assertion

/-- `PostOffice::Receive`: the headers, the contents of `data`, and the post office. -/
def receive (box : Word) (data : Bytes) :
    Except Fault ((PacketHeader × MailHeader × Bytes) × PostOffice) := do
  if office.IsBox box then
    let (mail, messages) ← (office.boxes box).get data
    if mail.2.1.length.toNat ≤ maxMailSize then
      return (mail, { office with boxes := update office.boxes box messages })
    else .error .assertion
  else .error .assertion

/-- `PostOffice::IncomingPacket`. -/
def incomingPacket : PostOffice := { office with messageAvailable := office.messageAvailable + 1 }

/-- `PostOffice::PacketSent`. -/
def packetSent : PostOffice := { office with messageSent := office.messageSent + 1 }

end PostOffice

/-! ### The steps of a machine -/

/-- A thread that calls `PostOffice::Send`. -/
inductive Sender
  | outside
  /-- It is about to call `network->Send`. -/
  | packed (pktHdr : PacketHeader) (mailHdr : MailHeader) (data buffer : Bytes)
  /-- In `messageSent->P`. -/
  | waiting

/-- The worker thread, in `PostOffice::PostalDelivery`. -/
inductive Worker
  /-- In `messageAvailable->P`. -/
  | waiting
  /-- It is about to call `network->Receive`. -/
  | awake
  /-- `network->Receive` has returned. -/
  | holding (pktHdr : PacketHeader)

/-- A machine; `τ` are the threads that call `PostOffice::Send`. -/
structure Machine (τ : Type) where
  office : PostOffice
  worker : Worker
  /-- The array of the worker thread. -/
  buffer : Bytes
  senders : τ → Sender
  /-- How many calls of `NetworkSendDone` are scheduled. -/
  pendingSendDone : ℕ

/-- A step of a machine. -/
inductive Action (τ : Type)
  /-- The thread `t` calls `PostOffice::Send`. -/
  | call (t : τ) (pktHdr : PacketHeader) (mailHdr : MailHeader) (data heap : Bytes)
  /-- The thread `t` calls `network->Send`. -/
  | transmit (t : τ) (lost : Bool) (heap : Bytes)
  /-- `messageSent->P` returns to the thread `t`. -/
  | resume (t : τ)
  /-- The interrupt `NetworkSendDone`. -/
  | sendDone
  /-- The interrupt `NetworkReadPoll`. -/
  | poll (ready : Bool)
  /-- `messageAvailable->P` returns to the worker. -/
  | wake
  /-- The worker calls `network->Receive`. -/
  | take
  /-- The worker puts the packet into a mailbox. -/
  | deliver (heap : Bytes)
  /-- Some thread calls `PostOffice::Receive`. -/
  | receive (box : Word) (data : Bytes)

/-- What a step of a machine does outside it, or what is noted of it. -/
inductive Event
  | quiet
  /-- `network->Send` was called for a letter. -/
  | sent (letter : Letter) (datagram : Option (Word × Bytes))
  /-- `PostOffice::Receive` returned a letter. -/
  | received (box : Word) (letter : Letter)

namespace Machine

variable {τ : Type} [DecidableEq τ]

/-- A step of a machine: the machine, the datagrams that are left in its socket, and the event. -/
def perform (mach : Machine τ) (socket : List Bytes) :
    Action τ → Except Fault (Machine τ × List Bytes × Event)
  | .call t pktHdr mailHdr data heap =>
    match mach.senders t with
    | .outside => do
      let (pktHdr, buffer) ← mach.office.pack pktHdr mailHdr data heap
      let sender := Sender.packed pktHdr mailHdr data buffer
      return ({ mach with senders := update mach.senders t sender }, socket, .quiet)
    | _ => .error .disabled
  | .transmit t lost heap =>
    match mach.senders t with
    | .packed pktHdr mailHdr data buffer => do
      let datagram ← mach.office.network.send pktHdr buffer heap lost
      return ({ mach with
        senders := update mach.senders t .waiting
        pendingSendDone := mach.pendingSendDone + 1 }, socket,
        .sent (.new pktHdr mailHdr data) datagram)
    | _ => .error .disabled
  | .resume t =>
    match mach.senders t, mach.office.messageSent with
    | .waiting, n + 1 =>
      .ok ({ mach with
        office := { mach.office with messageSent := n }
        senders := update mach.senders t .outside }, socket, .quiet)
    | _, _ => .error .disabled
  | .sendDone =>
    match mach.pendingSendDone with
    | n + 1 =>
      let office := { mach.office with network := mach.office.network.sendDone }
      .ok ({ mach with office := office.packetSent, pendingSendDone := n }, socket, .quiet)
    | 0 => .error .disabled
  | .poll ready => do
    let (network, socket, arrived) ← mach.office.network.checkPktAvail socket ready
    let office := { mach.office with network := network }
    return ({ mach with office := if arrived then office.incomingPacket else office }, socket,
      .quiet)
  | .wake =>
    match mach.worker, mach.office.messageAvailable with
    | .waiting, n + 1 =>
      .ok ({ mach with
        office := { mach.office with messageAvailable := n }
        worker := .awake }, socket, .quiet)
    | _, _ => .error .disabled
  | .take =>
    match mach.worker with
    | .awake =>
      let (pktHdr, buffer, network) := mach.office.network.receive mach.buffer
      .ok ({ mach with
        office := { mach.office with network := network }
        worker := .holding pktHdr
        buffer := buffer }, socket, .quiet)
    | _ => .error .disabled
  | .deliver heap =>
    match mach.worker with
    | .holding pktHdr => do
      let office ← mach.office.deliver pktHdr mach.buffer heap
      return ({ mach with office := office, worker := .waiting }, socket, .quiet)
    | _ => .error .disabled
  | .receive box data => do
    let ((pktHdr, mailHdr, data), office) ← mach.office.receive box data
    return ({ mach with office := office }, socket, .received box (.new pktHdr mailHdr data))

/-- A machine that starts. -/
def new (addr nBoxes : Word) (inHdr : PacketHeader) (inbox buffer : Bytes) : Machine τ where
  office := .new addr nBoxes inHdr inbox
  worker := .waiting
  buffer := buffer
  senders _ := .outside
  pendingSendDone := 0

end Machine

/-! ### All machines -/

/-- The machines by their addresses, and the sockets. -/
structure World (τ : Type) where
  machine : Word → Machine τ
  /-- The datagrams that were sent to `SOCKET_m` and not read. -/
  socket : Word → List Bytes
  /-- An `ASSERT` of the machine has failed. -/
  aborted : Word → Bool
  /-- The letters for which each machine called `network->Send`. The source does not have this. -/
  sent : Word → List Letter
  /-- What `PostOffice::Receive` returned, for each machine and box. The source does not have
  this. -/
  received : Word → Word → List Letter

namespace World

variable {τ : Type}

/-- The machine `m` and its socket are replaced. -/
def replace (w : World τ) (m : Word) (mach : Machine τ) (socket : List Bytes) : World τ :=
  { w with machine := update w.machine m mach, socket := update w.socket m socket }

/-- The effect of an event of the machine `m`. -/
def record (w : World τ) (m : Word) : Event → World τ
  | .quiet => w
  | .sent letter none => { w with sent := update w.sent m (w.sent m ++ [letter]) }
  | .sent letter (some (dest, wire)) =>
    { w with
      sent := update w.sent m (w.sent m ++ [letter])
      socket := update w.socket dest (w.socket dest ++ [wire]) }
  | .received box letter =>
    { w with
      received := update w.received m
        (update (w.received m) box (w.received m box ++ [letter])) }

/-- A step of the machine `i.1`. -/
def step [DecidableEq τ] (w : World τ) (i : Word × Action τ) : Except Fault (World τ) :=
  if w.aborted i.1 then .error .disabled
  else
    match (w.machine i.1).perform (w.socket i.1) i.2 with
    | .ok (mach, socket, event) => .ok ((w.replace i.1 mach socket).record i.1 event)
    | .error .disabled => .error .disabled
    | .error _ => .ok { w with aborted := update w.aborted i.1 true }

end World

/-- Any machines, of which each has any number of mailboxes. -/
def postSystem (τ : Type) [DecidableEq τ] : StepSystem (World τ) (Word × Action τ) Fault where
  init w := ∃ (numBoxes : Word → Word) (inHdr : Word → PacketHeader) (inbox buffer : Word → Bytes),
    w = ⟨fun m => .new m (numBoxes m) (inHdr m) (inbox m) (buffer m), fun _ => [], fun _ => false,
      fun _ => [], fun _ _ => []⟩
  step := World.step

end Nachos.Post
