import Nachos.Foundations.Except
import Nachos.Network.Post

/-!
# Letters in packets

What the operations of the network device and of the post office do with the bytes of a letter:
one lemma for each of them.

## Main definitions

* `Packed`: the data of a packet are a `MailHeader` and the data of a letter.

## Main results

* `Packed.letter_eq`: unpacking gives the letter that was packed.
* `PostOffice.pack_spec`, `Network.send_spec`, `Network.checkPktAvail_cases`,
  `PostOffice.deliver_spec`, `PostOffice.receive_spec`.
-/

namespace Nachos.Post

open Foundations Function
open FileSys (bcopy)

/-! ### Bytes -/

@[simp]
theorem MailHeader.size_layout : MailHeader.layout.size = 12 := rfl

theorem firstBytes_congr {n : ℕ} {b c : Bytes} (h : ∀ i < n, b i = c i) :
    firstBytes n b = firstBytes n c :=
  List.map_congr_left fun i hi => h i (List.mem_range.1 hi)

theorem bcopy_of_mem {source dest : Bytes} {start len i : ℕ} (h : start ≤ i)
    (h' : i < start + len) : bcopy source dest start len i = source (i - start) :=
  if_pos ⟨h, h'⟩

theorem bcopy_of_lt {source dest : Bytes} {start len i : ℕ} (h : i < start) :
    bcopy source dest start len i = dest i :=
  if_neg fun h' => absurd h'.1 (Nat.not_le.2 h)

theorem bcopy_zero {source dest : Bytes} {len i : ℕ} (h : i < len) :
    bcopy source dest 0 len i = source i :=
  bcopy_of_mem (Nat.zero_le i) (by omega)

/-! ### Packets -/

variable {hdr pktHdr : PacketHeader} {mailHdr : MailHeader} {data heap p q : Bytes}

/-- The data `p` of a packet with the header `hdr` are `mailHdr` and the data of a letter. -/
structure Packed (hdr : PacketHeader) (p : Bytes) (mailHdr : MailHeader) (data : Bytes) : Prop where
  le : mailHdr.length.toNat ≤ maxMailSize
  length : hdr.length.toNat = MailHeader.layout.size + mailHdr.length.toNat
  head : ∀ i < MailHeader.layout.size, p i = MailHeader.layout.store mailHdr i
  body : ∀ i < mailHdr.length.toNat, p (MailHeader.layout.size + i) = data i

namespace Packed

theorem letter_eq (h : Packed hdr p mailHdr data) :
    Letter.ofPacket hdr p = .new hdr mailHdr data := by
  rw [Letter.ofPacket, MailHeader.layout.fetch_eq mailHdr p h.head]
  exact congrArg (Letter.mk _ _ _) (firstBytes_congr h.body)

/-- The bytes of the packet determine the letter. -/
theorem congr (h : Packed hdr p mailHdr data) (hq : ∀ i < hdr.length.toNat, q i = p i) :
    Packed hdr q mailHdr data where
  le := h.le
  length := h.length
  head i hi := by
    have := h.length
    rw [hq i (by omega), h.head i hi]
  body i hi := by
    have := h.length
    rw [hq _ (by omega), h.body i hi]

end Packed

/-- The packet is one of `PostOffice::Send`. -/
def Fits (hdr : PacketHeader) (p : Bytes) : Prop := ∃ mailHdr data, Packed hdr p mailHdr data

namespace Fits

theorem congr (h : Fits hdr p) (hq : ∀ i < hdr.length.toNat, q i = p i) : Fits hdr q :=
  let ⟨mailHdr, data, h⟩ := h
  ⟨mailHdr, data, h.congr hq⟩

theorem ofPacket_congr (h : Fits hdr p) (hq : ∀ i < hdr.length.toNat, q i = p i) :
    Letter.ofPacket hdr q = Letter.ofPacket hdr p := by
  obtain ⟨mailHdr, data, h⟩ := h
  rw [h.letter_eq, (h.congr hq).letter_eq]

theorem length_ne_zero (h : Fits hdr p) : hdr.length ≠ 0 := by
  obtain ⟨mailHdr, data, h⟩ := h
  intro h0
  have hlen := h.length
  rw [h0, MailHeader.size_layout] at hlen
  change 0 = 12 + _ at hlen
  omega

end Fits

/-! ### Operations -/

/-- What `PostOffice::Send` gives to the network device. -/
theorem PostOffice.pack_spec {office : PostOffice} {buffer : Bytes}
    (h : office.pack pktHdr mailHdr data heap = .ok (hdr, buffer)) :
    hdr.source = office.netAddr ∧ Packed hdr buffer mailHdr data := by
  simp only [pack] at h
  split_ifs at h with hc
  cases h
  refine ⟨rfl, hc.1, ?_, fun i hi => ?_, fun i hi => ?_⟩
  · have hle : mailHdr.length.toNat ≤ 40 := hc.1
    change (mailHdr.length + 12#32).toNat = 12 + _
    rw [BitVec.toNat_add, Nat.mod_eq_of_lt (by simp only [BitVec.toNat_ofNat]; omega)]
    simp only [BitVec.toNat_ofNat]
    omega
  · rw [bcopy_of_lt hi, bcopy_zero hi]
  · rw [bcopy_of_mem (Nat.le_add_right _ _) (by omega), Nat.add_sub_cancel_left]

/-- A datagram that is sent contains the packet. -/
theorem Network.send_spec {net : Network} {lost : Bool} {dest : Word} {wire : Bytes}
    (h : net.send hdr data heap lost = .ok (some (dest, wire))) :
    dest = hdr.dest ∧ PacketHeader.layout.fetch wire = hdr ∧
      ∀ i < hdr.length.toNat, behind PacketHeader.layout.size wire i = data i := by
  simp only [send] at h
  split_ifs at h with hc hlost
  · cases h
  cases h
  refine ⟨rfl, PacketHeader.layout.fetch_eq hdr _ fun i hi => ?_, fun i hi => ?_⟩
  · rw [bcopy_of_lt hi, bcopy_zero hi]
  · rw [behind, bcopy_of_mem (Nat.le_add_right _ _) (by omega), Nat.add_sub_cancel_left]

/-- A poll reads a datagram only if no packet is in the device. -/
theorem Network.checkPktAvail_cases {net net' : Network} {socket socket' : List Bytes}
    {ready arrived : Bool} (h : net.checkPktAvail socket ready = .ok (net', socket', arrived)) :
    (net' = net ∧ socket' = socket ∧ arrived = false) ∨
      net.inHdr.length = 0 ∧ arrived = true ∧ net'.ident = net.ident ∧
        ∃ wire, socket = wire :: socket' ∧ net'.inHdr = PacketHeader.layout.fetch wire ∧
          ∀ i < net'.inHdr.length.toNat,
            net'.inbox i = behind PacketHeader.layout.size wire i := by
  simp only [checkPktAvail] at h
  split_ifs at h with hlen
  · exact .inl (by cases h; exact ⟨rfl, rfl, rfl⟩)
  · split at h
    · split_ifs at h with hc
      cases h
      exact .inr ⟨not_not.1 hlen, rfl, rfl, _, rfl, rfl, fun i hi => bcopy_zero hi⟩
    · exact .inl (by cases h; exact ⟨rfl, rfl, rfl⟩)

/-- A packet is copied from the device. -/
theorem Network.receive_inbox {net : Network} :
    ∀ i < net.inHdr.length.toNat, (net.receive data).2.1 i = net.inbox i := by
  intro i hi
  have hne : net.inHdr.length ≠ 0 := fun h0 => by simp [h0] at hi
  have hcopy : (net.receive data).2.1 = bcopy net.inbox data 0 net.inHdr.length.toNat :=
    if_pos hne
  rw [hcopy, bcopy_zero hi]

/-- The worker puts the letter at the end of the mailbox. -/
theorem PostOffice.deliver_spec {office office' : PostOffice} {buffer : Bytes}
    (h : office.deliver pktHdr buffer heap = .ok office') :
    ∃ mail : Mail, mail.letter = .ofPacket pktHdr buffer ∧
      office' = { office with
        boxes := update office.boxes mail.mailHdr.dest
          (office.boxes mail.mailHdr.dest ++ [mail]) } := by
  simp only [deliver] at h
  split_ifs at h with hc
  simp only [MailBox.put, Mail.new, if_pos hc.2, ok_bind] at h
  cases h
  let mailHdr := MailHeader.layout.fetch buffer
  let data := bcopy (behind MailHeader.layout.size buffer) heap 0 mailHdr.length.toNat
  exact ⟨⟨pktHdr, mailHdr, data⟩,
    congrArg (Letter.mk _ _ _) (firstBytes_congr fun i hi => bcopy_zero hi), rfl⟩

/-- `Receive` takes the first letter of the mailbox. -/
theorem PostOffice.receive_spec {office office' : PostOffice} {box : Word}
    (h : office.receive box heap = .ok ((pktHdr, mailHdr, data), office')) :
    ∃ mail messages, office.boxes box = mail :: messages ∧ .new pktHdr mailHdr data = mail.letter ∧
      office' = { office with boxes := update office.boxes box messages } := by
  simp only [receive] at h
  split_ifs at h
  cases hbox : office.boxes box with
  | nil => simp [hbox, MailBox.get] at h
  | cons mail messages =>
    simp only [hbox, MailBox.get, ok_bind] at h
    split_ifs at h
    cases h
    exact ⟨mail, messages, rfl,
      congrArg (Letter.mk _ _ _) (firstBytes_congr fun i hi => bcopy_zero hi), rfl⟩

end Nachos.Post
