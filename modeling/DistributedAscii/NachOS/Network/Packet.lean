import DistributedAscii.Lib.Words
import DistributedAscii.NachOS.Driver

/-!
# NachOS — packets

The headers of `machine/network.h` and `network/post.h`, and the way of a
letter over the wire: `PostOffice::Send` puts the mail header in front of the
data, `Network::Send` the packet header in front of that, and the other side
takes them apart again (`ofDatagram_datagram`). The sending half is a device:
a request is over with the interrupt, be the packet lost or not.

A host's socket takes every datagram for a machine that is there.
-/

namespace DistributedAscii.NachOS.Network

open Lib Lib.Words

abbrev NetworkAddress := BitVec 32
abbrev MailBoxAddress := BitVec 32

/-- `PacketHeader` or `MailHeader`, which have the same fields. -/
structure Header where
  «to» : BitVec 32
  «from» : BitVec 32
  length : BitVec 32
deriving DecidableEq

/-- `sizeof` of each of them. -/
def headerSize : Nat := 12

def MaxWireSize : Nat := 64
def MaxPacketSize : Nat := MaxWireSize - headerSize
def MaxMailSize : Nat := MaxPacketSize - headerSize

namespace Header

variable (h : Header)

/-- `*(PacketHeader *)buffer = hdr`. -/
def bytes : List (BitVec 8) :=
  [h.to, h.from, h.length].flatMap bytesOf

/-- `*(PacketHeader *)buffer`. -/
def ofBytes (buffer : List (BitVec 8)) : Header where
  «to» := wordAt buffer 0
  «from» := wordAt buffer 1
  length := wordAt buffer 2

@[simp] theorem length_bytes : h.bytes.length = headerSize := rfl

/-- **Round trip** of a header, with anything behind it. -/
theorem ofBytes_bytes (rest : List (BitVec 8)) : ofBytes (h.bytes ++ rest) = h := by
  have hword : ∀ i (hi : i < 3),
      wordAt (h.bytes ++ rest) i = [h.to, h.from, h.length].get ⟨i, hi⟩ := by
    intro i hi
    rw [wordAt_append (by simp only [length_bytes, headerSize]; omega)]
    exact wordAt_flatMap [h.to, h.from, h.length] hi
  rw [ofBytes, hword 0 (by decide), hword 1 (by decide), hword 2 (by decide)]
  rfl

/-- A header is in the first bytes. -/
theorem ofBytes_congr {buffer buffer' : List (BitVec 8)} {n : Nat} (hn : headerSize ≤ n)
    (h : buffer.take n = buffer'.take n) : ofBytes buffer = ofBytes buffer' := by
  have hbyte : ∀ k < headerSize, buffer.getD k 0 = buffer'.getD k 0 := by
    intro k hk
    have htake := congrArg (fun bytes => bytes[k]?) h
    simp only [List.getElem?_take, if_pos (hk.trans_le hn)] at htake
    rw [List.getD_eq_getElem?_getD, List.getD_eq_getElem?_getD, htake]
  have hwords := words_congr (n := 3) hbyte
  simp only [words, List.range_succ, List.range_zero, List.nil_append,
    List.map_cons, List.map_nil, List.cons_append, List.cons.injEq, and_true] at hwords
  rw [ofBytes, ofBytes, hwords.1, hwords.2.1, hwords.2.2]

end Header

/-- `Mail`: a message with its headers. -/
structure Mail where
  pktHdr : Header
  mailHdr : Header
  data : List (BitVec 8)
deriving DecidableEq

namespace Mail

/-- The mail in a buffer behind a mail header. -/
def ofBytes (pktHdr : Header) (buffer : List (BitVec 8)) : Mail where
  pktHdr := pktHdr
  mailHdr := .ofBytes buffer
  data := (buffer.drop headerSize).take (Header.ofBytes buffer).length.toNat

/-- The mail in a datagram. -/
def ofDatagram (datagram : List (BitVec 8)) : Mail :=
  ofBytes (.ofBytes datagram) (datagram.drop headerSize)

/-- A mail is in the first bytes. -/
theorem ofBytes_congr {pktHdr : Header} {buffer buffer' : List (BitVec 8)} {n : Nat}
    (hn : headerSize + (Header.ofBytes buffer).length.toNat ≤ n)
    (h : buffer.take n = buffer'.take n) : ofBytes pktHdr buffer = ofBytes pktHdr buffer' := by
  have hheader := Header.ofBytes_congr (by omega) h
  have hdata := congrArg (fun bytes => (bytes.drop headerSize).take
    (Header.ofBytes buffer).length.toNat) h
  simp only [List.drop_take, List.take_take] at hdata
  rw [Nat.min_eq_left (by omega)] at hdata
  rw [ofBytes, ofBytes, hdata, hheader]

end Mail

/-- A call of `PostOffice::Send`; the caller's buffer is as long as the header
says. -/
structure Letter where
  pktHdr : Header
  mailHdr : Header
  data : List (BitVec 8)
  room : mailHdr.length.toNat ≤ data.length

/-- The rest of a buffer that nobody has written to. -/
def fill (junk : Nat → BitVec 8) (bytes : List (BitVec 8)) : List (BitVec 8) :=
  bytes ++ (List.range (MaxWireSize - bytes.length)).map junk

namespace Letter

variable (letter : Letter) (netAddr : NetworkAddress)

/-- `pktHdr` as `Send` fills it in. -/
def header : Header :=
  { letter.pktHdr with
    «from» := netAddr
    length := letter.mailHdr.length + BitVec.ofNat 32 headerSize }

/-- `buffer` as `Send` writes it. -/
def buffer : List (BitVec 8) :=
  letter.mailHdr.bytes ++ letter.data.take letter.mailHdr.length.toNat

/-- What the other side is to make of it. -/
def mail : Mail where
  pktHdr := letter.header netAddr
  mailHdr := letter.mailHdr
  data := letter.data.take letter.mailHdr.length.toNat

/-- The `ASSERT`s of `Send`. -/
def Fits (numBoxes : Int) : Prop :=
  letter.mailHdr.length.toNat ≤ MaxMailSize ∧
    0 ≤ letter.mailHdr.to.toInt ∧ letter.mailHdr.to.toInt < numBoxes

instance (numBoxes : Int) : Decidable (letter.Fits numBoxes) :=
  inferInstanceAs (Decidable (_ ∧ _ ∧ _))

end Letter

/-- What goes out on the wire. -/
def datagram (hdr : Header) (data : List (BitVec 8)) (junk : Nat → BitVec 8) : List (BitVec 8) :=
  fill junk (hdr.bytes ++ data.take hdr.length.toNat)

section Wire

variable {letter : Letter} {netAddr : NetworkAddress} {numBoxes : Int}

theorem length_buffer (letter : Letter) :
    letter.buffer.length = headerSize + letter.mailHdr.length.toNat := by
  rw [Letter.buffer, List.length_append, Header.length_bytes, List.length_take,
    Nat.min_eq_left letter.room]

/-- The packet is as long as the header and the data. -/
theorem length_header (h : letter.Fits numBoxes) (netAddr : NetworkAddress) :
    (letter.header netAddr).length.toNat = headerSize + letter.mailHdr.length.toNat := by
  have hsize : letter.mailHdr.length.toNat ≤ 40 := h.1
  simp only [Letter.header, headerSize, BitVec.toNat_add, BitVec.toNat_ofNat]
  omega

theorem datagram_eq (h : letter.Fits numBoxes) (netAddr : NetworkAddress)
    (junk : Nat → BitVec 8) :
    ∃ rest, datagram (letter.header netAddr) letter.buffer junk
      = (letter.header netAddr).bytes ++ (letter.buffer ++ rest) := by
  have htake : letter.buffer.take (letter.header netAddr).length.toNat = letter.buffer := by
    rw [length_header h, ← length_buffer, List.take_length]
  have hfill := List.append_assoc (letter.header netAddr).bytes letter.buffer
  exact ⟨_, by rw [datagram, fill, htake, hfill]⟩

theorem length_datagram (h : letter.Fits numBoxes) (netAddr : NetworkAddress)
    (junk : Nat → BitVec 8) :
    (datagram (letter.header netAddr) letter.buffer junk).length = MaxWireSize := by
  have hsize : letter.mailHdr.length.toNat ≤ 40 := h.1
  have htake : letter.buffer.take (letter.header netAddr).length.toNat = letter.buffer := by
    rw [length_header h, ← length_buffer, List.take_length]
  simp only [datagram, fill, htake, List.length_append, List.length_map, List.length_range,
    Header.length_bytes, length_buffer, headerSize, MaxWireSize]
  omega

/-- **Round trip**: what is put together here is taken apart there. -/
theorem ofDatagram_datagram (h : letter.Fits numBoxes) (netAddr : NetworkAddress)
    (junk : Nat → BitVec 8) :
    Mail.ofDatagram (datagram (letter.header netAddr) letter.buffer junk)
      = letter.mail netAddr := by
  obtain ⟨rest, hdatagram⟩ := datagram_eq h netAddr junk
  have hdrop : (datagram (letter.header netAddr) letter.buffer junk).drop headerSize
      = letter.buffer ++ rest := by
    rw [hdatagram, ← Header.length_bytes (letter.header netAddr), List.drop_left]
  have hheader : Header.ofBytes (letter.buffer ++ rest) = letter.mailHdr := by
    rw [Letter.buffer, List.append_assoc]
    exact Header.ofBytes_bytes ..
  have hlength : (letter.data.take letter.mailHdr.length.toNat).length
      = letter.mailHdr.length.toNat := by
    rw [List.length_take, Nat.min_eq_left letter.room]
  have hdata : ((letter.buffer ++ rest).drop headerSize).take letter.mailHdr.length.toNat
      = letter.data.take letter.mailHdr.length.toNat := by
    rw [Letter.buffer, List.append_assoc, ← Header.length_bytes letter.mailHdr, List.drop_left,
      List.take_append_of_le_length hlength.ge, List.take_take, Nat.min_self]
  rw [Mail.ofDatagram, hdrop, Mail.ofBytes, hheader, hdata, hdatagram, Header.ofBytes_bytes]
  rfl

end Wire

/-! ## The sending half of the network -/

/-- `Network`, as far as `Send` uses it. Nothing ever sets `sendBusy`; it is the
lock and the semaphore of the post office that keep the packets apart. Added to
the program: `sent`, what the sockets were given. -/
structure Sender where
  sendBusy : Bool
  sent : List (NetworkAddress × List (BitVec 8))

/-- Whether `Random` lets the packet get lost, and what lies in the memory of
the buffer. -/
structure Conditions where
  lost : Bool
  junk : Nat → BitVec 8

variable (ident : NetworkAddress) (present : NetworkAddress → Bool) (numBoxes : Int)

/-- `Network::Send`, with whether the packet went out; `SendToSocket` asserts
that there is a socket of that name. -/
def Sender.Send (network : Sender) (outer : Conditions) (hdr : Header) (data : List (BitVec 8)) :
    Option (Sender × Bool) :=
  if network.sendBusy = false ∧ 0 < hdr.length.toNat ∧ hdr.length.toNat ≤ MaxPacketSize ∧
      hdr.from = ident then
    if outer.lost then some (network, false)
    else if present hdr.to then
      some ({ network with sent := network.sent ++ [(hdr.to, datagram hdr data outer.junk)] }, true)
    else none
  else none

/-- `Network::SendDone`. -/
def Sender.SendDone (network : Sender) : Sender :=
  { network with sendBusy := false }

/-- `PostOffice::Send` at `network->Send`, with its own `ASSERT`s, which stand
in front of the lock. -/
def sendDevice : Device Conditions Sender Letter Bool where
  request outer network letter :=
    if letter.Fits numBoxes then
      network.Send ident present outer (letter.header ident) letter.buffer
    else none
  handleInterrupt := Sender.SendDone

section Device

variable {ident : NetworkAddress} {present : NetworkAddress → Bool} {numBoxes : Int}

/-- A letter that `Send` takes, for a machine that is there. -/
def Letter.Valid (present : NetworkAddress → Bool) (numBoxes : Int) (letter : Letter) : Prop :=
  letter.Fits numBoxes ∧ present letter.pktHdr.to = true

/-- What `Send` does, case by case. -/
theorem Send_cases {network network' : Sender} {outer : Conditions} {letter : Letter} {out : Bool}
    (h : (sendDevice ident present numBoxes).request outer network letter = some (network', out)) :
    letter.Fits numBoxes ∧ network'.sendBusy = network.sendBusy ∧
      network'.sent = network.sent ++ if out then
        [(letter.pktHdr.to, datagram (letter.header ident) letter.buffer outer.junk)] else [] := by
  obtain ⟨hfits, h⟩ := Option.ite_none_right_eq_some.mp h
  obtain ⟨-, h⟩ := Option.ite_none_right_eq_some.mp h
  refine ⟨hfits, ?_⟩
  split at h
  · cases h
    simp
  · obtain ⟨-, h⟩ := Option.ite_none_right_eq_some.mp h
    cases h
    simp [Letter.header]

theorem sendDevice_lawful :
    (sendDevice ident present numBoxes).Lawful (fun network => network.sendBusy = false)
      (Letter.Valid present numBoxes) where
  takes outer network letter hidle hvalid := by
    obtain ⟨hfits, hpresent⟩ := hvalid
    have hlength := length_header hfits ident
    have hsize : letter.mailHdr.length.toNat ≤ 40 := hfits.1
    have hto : (letter.header ident).to = letter.pktHdr.to := rfl
    have hchecks : network.sendBusy = false ∧ 0 < (letter.header ident).length.toNat ∧
        (letter.header ident).length.toNat ≤ MaxPacketSize ∧
        (letter.header ident).from = ident := by
      simp only [hlength, headerSize, MaxPacketSize, MaxWireSize]
      exact ⟨hidle, by omega, by omega, rfl⟩
    cases hlost : outer.lost with
    | true =>
        refine ⟨network, false, ?_, rfl⟩
        simp [sendDevice, hfits, Sender.Send, hchecks, hlost]
    | false =>
        refine ⟨{ network with sent := network.sent ++ [(letter.pktHdr.to,
          datagram (letter.header ident) letter.buffer outer.junk)] }, true, ?_, rfl⟩
        simp only [sendDevice, if_pos hfits, Sender.Send, if_pos hchecks, hlost, hto, hpresent,
          Bool.false_eq_true, if_false, if_true]

/-- A datagram that `Send` has put together for a machine. -/
def Genuine (ident : NetworkAddress) (numBoxes : Int) («to» : NetworkAddress)
    (d : List (BitVec 8)) : Prop :=
  ∃ letter : Letter, letter.Fits numBoxes ∧ letter.pktHdr.to = «to» ∧
    ∃ junk, d = datagram (letter.header ident) letter.buffer junk

/-- The mails of a log that went out, and where to. -/
def outgoing (ident : NetworkAddress) (log : List (Tid × Letter × Bool)) :
    List (NetworkAddress × Mail) :=
  log.filterMap fun entry =>
    if entry.2.2 then some (entry.2.1.pktHdr.to, entry.2.1.mail ident) else none

/-- **The wire has what the log tells**, in that order. -/
theorem sent_of_replay {first network : Sender} (hfirst : first.sent = [])
    {log : List (Tid × Letter × Bool)}
    (h : Linear.Replay (sendDevice ident present numBoxes).Serves first log network) :
    (∀ p ∈ network.sent, Genuine ident numBoxes p.1 p.2) ∧
      network.sent.map (fun p => (p.1, Mail.ofDatagram p.2)) = outgoing ident log := by
  induction h with
  | nil => simp [hfirst, outgoing]
  | @snoc log network network' t op hfront hlast ih =>
      obtain ⟨hgenuine, hmails⟩ := ih
      obtain ⟨outer, hserves⟩ := hlast
      obtain ⟨⟨network'', out⟩, hrequest, heq⟩ := Option.map_eq_some_iff.mp hserves
      obtain ⟨hfits, -, hsent⟩ := Send_cases hrequest
      obtain ⟨rfl, rfl⟩ : (sendDevice ident present numBoxes).handleInterrupt network'' = network' ∧
          out = op.2 := by simpa using heq
      have hsent' : ((sendDevice ident present numBoxes).handleInterrupt network'').sent
          = network''.sent := rfl
      rw [hsent', hsent]
      cases hout : op.2 with
      | false => simpa [outgoing, hout] using ⟨fun a d hp => hgenuine (a, d) hp, hmails⟩
      | true =>
          refine ⟨fun p hp => ?_, ?_⟩
          · rcases List.mem_append.mp hp with hp | hp
            · exact hgenuine p hp
            · obtain rfl := List.mem_singleton.mp hp
              exact ⟨op.1, hfits, rfl, outer.junk, rfl⟩
          · rw [if_pos rfl, List.map_append, hmails, List.map_singleton,
              ofDatagram_datagram hfits]
            simp [outgoing, hout]

end Device

end DistributedAscii.NachOS.Network
