import DistributedAscii.NachOS.Network.Packet

/-!
# NachOS — the post offices

Machines with a `PostOffice` each (`network/post.cc` over
`machine/network.cc`). A letter that `Send` has given to the wire comes to
the socket of the other machine; the poll of the network takes it into the one
place that there is for a packet, the postal worker puts it in the box it is
addressed to, and `Receive` takes it out. Senders, polls, workers and receivers
take their steps in any order (`Event`).

Each box gets what was sent to it, in the order of the `Send`s of each machine
and without a gap but for what the network lost (`in_order`); nothing gets
stuck on the way (`drained`).

The boxes are queues, which is what `SynchList` makes of them. Added to the
program: what has `arrived` at a socket, what the worker has `delivered`, and
what `Receive` has `received`.
-/

namespace DistributedAscii.NachOS.Network

open Lib Lib.Runs

/-- Where the postal worker is: in front of `P`, behind it, or with a packet. -/
inductive WorkerPoint where
  | waiting
  | through
  | delivering (pktHdr : Header)
deriving DecidableEq

structure Office where
  sender : Driver Sender Letter Bool
  socket : List (List (BitVec 8))
  inHdr : Header
  inbox : List (BitVec 8)
  messageAvailable : Int
  worker : WorkerPoint
  buffer : List (BitVec 8)
  boxes : MailBoxAddress → List Mail
  failed : Bool
  arrived : List (List (BitVec 8))
  delivered : List Mail
  received : MailBoxAddress → List Mail

namespace Office

/-- `PostOffice::PostOffice`. -/
def new : Office where
  sender := .start ⟨false, []⟩
  socket := []
  inHdr := ⟨0, 0, 0⟩
  inbox := []
  messageAvailable := 0
  worker := .waiting
  buffer := []
  boxes _ := []
  failed := false
  arrived := []
  delivered := []
  received _ := []

def abort (o : Office) : Office :=
  { o with failed := true }

/-- `bcopy` of so many bytes to the beginning of a buffer. -/
def bcopy («from» «to» : List (BitVec 8)) (length : Nat) : List (BitVec 8) :=
  «from».take length ++ «to».drop length

/-- `Network::CheckPktAvail`, with the `V` of `IncomingPacket`. -/
def CheckPktAvail (ident : NetworkAddress) (o : Office) : Office :=
  if o.inHdr.length ≠ 0 then o
  else
    match o.socket with
    | [] => o
    | d :: rest =>
        let inHdr := Header.ofBytes d
        if d.length = MaxWireSize ∧ inHdr.to = ident ∧ inHdr.length.toNat ≤ MaxPacketSize then
          { o with
            socket := rest
            inHdr := inHdr
            inbox := bcopy (d.drop headerSize) o.inbox inHdr.length.toNat
            messageAvailable := wrap32 (o.messageAvailable + 1) }
        else o.abort

/-- `messageAvailable->P()`, which is tested again until it gets through. -/
def P (o : Office) : Option Office :=
  match o.worker with
  | .waiting =>
      if o.messageAvailable = 0 then none
      else some { o with
        messageAvailable := wrap32 (o.messageAvailable - 1)
        worker := .through }
  | _ => none

/-- `network->Receive(buffer)`. -/
def take (o : Office) : Option Office :=
  match o.worker with
  | .through =>
      some { o with
        inHdr := { o.inHdr with length := 0 }
        buffer :=
          if o.inHdr.length ≠ 0 then bcopy o.inbox o.buffer o.inHdr.length.toNat else o.buffer
        worker := .delivering o.inHdr }
  | _ => none

/-- `boxes[mailHdr.to].Put`, behind the `ASSERT`s. -/
def Put (numBoxes : Int) (o : Office) : Option Office :=
  match o.worker with
  | .delivering pktHdr =>
      let mailHdr := Header.ofBytes o.buffer
      if 0 ≤ mailHdr.to.toInt ∧ mailHdr.to.toInt < numBoxes ∧
          mailHdr.length.toNat ≤ MaxMailSize then
        let mail := Mail.ofBytes pktHdr o.buffer
        some { o with
          worker := .waiting
          boxes := Function.update o.boxes mailHdr.to (o.boxes mailHdr.to ++ [mail])
          delivered := o.delivered ++ [mail] }
      else some o.abort
  | _ => none

/-- `PostOffice::Receive`, if there is a mail in the box. -/
def Receive (numBoxes : Int) (o : Office) (box : MailBoxAddress) : Option Office :=
  if 0 ≤ box.toInt ∧ box.toInt < numBoxes then
    match o.boxes box with
    | [] => none
    | mail :: rest =>
        if mail.mailHdr.length.toNat ≤ MaxMailSize then
          some { o with
            boxes := Function.update o.boxes box rest
            received := Function.update o.received box (o.received box ++ [mail]) }
        else some o.abort
  else some o.abort

/-- Datagrams come to the socket. -/
def arrive (o : Office) (ds : List (List (BitVec 8))) : Office :=
  { o with socket := o.socket ++ ds, arrived := o.arrived ++ ds }

end Office

/-- The machines, by their addresses. -/
abbrev Net := NetworkAddress → Office

/-- A step of a sender and its `Send`, the interrupt of the poll, a step of the
postal worker, or a `Receive`. -/
inductive Event where
  | send (m : NetworkAddress) (e : Driver.Event Conditions Letter)
  | poll (m : NetworkAddress)
  | P (m : NetworkAddress)
  | take (m : NetworkAddress)
  | put (m : NetworkAddress)
  | receive (m : NetworkAddress) (box : MailBoxAddress)

/-- The letters that are sent pass the checks of `Send`, and are for machines
that are there; and nobody asks for a box that there is not. -/
def Event.Valid (present : NetworkAddress → Bool) (numBoxes : Int) : Event → Prop
  | .send _ (.acquire _ letter) => letter.Valid present numBoxes
  | .receive _ box => 0 ≤ box.toInt ∧ box.toInt < numBoxes
  | _ => True

namespace Net

def start : Net := fun _ => .new

/-- What is new on a wire, for one machine. -/
def news (before after : Sender) (m : NetworkAddress) : List (List (BitVec 8)) :=
  ((after.sent.drop before.sent.length).filter fun p => p.1 = m).map Prod.snd

/-- The sending half of machine `m` has taken a step; what is new on its wire
comes to the sockets. -/
def post (net : Net) (m : NetworkAddress) (sender : Driver Sender Letter Bool) : Net := fun a =>
  (Function.update net m { net m with sender := sender } a).arrive
    (news (net m).sender.hardware sender.hardware a)

/-- A step of the receiving half of one machine. -/
def act (net : Net) (m : NetworkAddress) (o : Option Office) : Option Net :=
  if (net m).failed then none else o.map fun o => Function.update net m o

def step (present : NetworkAddress → Bool) (numBoxes : Int) (net : Net) : Event → Option Net
  | .send m e =>
      if (net m).failed then none else
      (Driver.step (sendDevice m present numBoxes) (net m).sender e).map (net.post m)
  | .poll m => net.act m (some ((net m).CheckPktAvail m))
  | .P m => net.act m (net m).P
  | .take m => net.act m (net m).take
  | .put m => net.act m ((net m).Put numBoxes)
  | .receive m box => net.act m ((net m).Receive numBoxes box)

end Net

/-! ## One machine -/

/-- A mail that the checks of machine `m` let through. -/
def Deliverable (m : NetworkAddress) (numBoxes : Int) (mail : Mail) : Prop :=
  mail.pktHdr.to = m ∧
    mail.pktHdr.length.toNat = headerSize + mail.mailHdr.length.toNat ∧
    mail.mailHdr.length.toNat ≤ MaxMailSize ∧
    0 ≤ mail.mailHdr.to.toInt ∧ mail.mailHdr.to.toInt < numBoxes

/-- A datagram of a mail that the checks let through. -/
def Arriving (m : NetworkAddress) (numBoxes : Int) (d : List (BitVec 8)) : Prop :=
  d.length = MaxWireSize ∧ Deliverable m numBoxes (.ofDatagram d)

theorem Genuine.arriving {ident m : NetworkAddress} {numBoxes : Int} {d : List (BitVec 8)}
    (h : Genuine ident numBoxes m d) : Arriving m numBoxes d := by
  obtain ⟨letter, hfits, rfl, junk, rfl⟩ := h
  refine ⟨length_datagram hfits ident junk, ?_⟩
  rw [ofDatagram_datagram hfits]
  exact ⟨rfl, length_header hfits ident, hfits.1, hfits.2⟩

theorem Genuine.from_eq {ident m : NetworkAddress} {numBoxes : Int} {d : List (BitVec 8)}
    (h : Genuine ident numBoxes m d) : (Header.ofBytes d).from = ident := by
  obtain ⟨letter, hfits, -, junk, rfl⟩ := h
  have hmail := ofDatagram_datagram hfits ident junk
  exact congrArg (fun mail => mail.pktHdr.from) hmail

namespace Office

/-- The mail that the worker has in its buffer. -/
def inHand (o : Office) : List Mail :=
  match o.worker with
  | .delivering pktHdr => [.ofBytes pktHdr o.buffer]
  | .waiting | .through => []

/-- The mail that the network has in its inbox. -/
def inInbox (o : Office) : List Mail :=
  if o.inHdr.length = 0 then [] else [.ofBytes o.inHdr o.inbox]

/-- Nothing is lost on the way through, and nothing comes twice. -/
structure Sound (m : NetworkAddress) (numBoxes : Int) (o : Office) : Prop where
  alive : o.failed = false
  arriving : ∀ d ∈ o.arrived, Arriving m numBoxes d
  flow : o.arrived.map .ofDatagram
    = o.delivered ++ (o.inHand ++ (o.inInbox ++ o.socket.map .ofDatagram))
  socket : ∀ d ∈ o.socket, d ∈ o.arrived
  stored : o.inHdr.length.toNat ≤ o.inbox.length
  through : o.worker = .through → o.inHdr.length ≠ 0
  available : o.messageAvailable = if o.inHdr.length = 0 ∨ o.worker = .through then 0 else 1
  boxes : ∀ box, o.received box ++ o.boxes box
    = o.delivered.filter fun mail => mail.mailHdr.to = box

/-- The sender and the socket are not touched. -/
def Inner (o o' : Office) : Prop :=
  o'.sender = o.sender ∧ o'.arrived = o.arrived

theorem take_bcopy {«from» : List (BitVec 8)} {length : Nat} (h : length ≤ «from».length)
    («to» : List (BitVec 8)) : (bcopy «from» «to» length).take length = «from».take length := by
  have htake : («from».take length).length = length := by
    rw [List.length_take, Nat.min_eq_left h]
  rw [bcopy, List.take_append_of_le_length htake.ge, List.take_take, Nat.min_self]

theorem le_length_bcopy {«from» : List (BitVec 8)} {length : Nat} (h : length ≤ «from».length)
    («to» : List (BitVec 8)) : length ≤ (bcopy «from» «to» length).length := by
  rw [bcopy, List.length_append, List.length_take, Nat.min_eq_left h]
  exact Nat.le_add_right ..

namespace Sound

variable {m : NetworkAddress} {numBoxes : Int} {o o' : Office}

theorem new : Sound m numBoxes .new where
  alive := rfl
  arriving := by simp [Office.new]
  flow := rfl
  socket := by simp [Office.new]
  stored := Nat.le_refl 0
  through h := by cases h
  available := rfl
  boxes _ := rfl

/-- Whatever is on the way has passed the checks of the sender. -/
theorem deliverable (h : o.Sound m numBoxes) {mail : Mail}
    (hmem : mail ∈ o.delivered ++ (o.inHand ++ (o.inInbox ++ o.socket.map .ofDatagram))) :
    Deliverable m numBoxes mail := by
  rw [← h.flow] at hmem
  obtain ⟨d, hd, rfl⟩ := List.mem_map.mp hmem
  exact (h.arriving d hd).2

theorem arrive (h : o.Sound m numBoxes) {ds : List (List (BitVec 8))}
    (hds : ∀ d ∈ ds, Arriving m numBoxes d) : (o.arrive ds).Sound m numBoxes where
  alive := h.alive
  arriving d hd := (List.mem_append.mp hd).elim (h.arriving d) (hds d)
  flow := by
    have hmap : (o.arrive ds).arrived.map Mail.ofDatagram
        = o.arrived.map .ofDatagram ++ ds.map .ofDatagram := List.map_append
    have hsocket : (o.arrive ds).socket.map Mail.ofDatagram
        = o.socket.map .ofDatagram ++ ds.map .ofDatagram := List.map_append
    rw [hmap, hsocket, h.flow]
    simp only [List.append_assoc]
    rfl
  socket d hd := List.mem_append.mpr ((List.mem_append.mp hd).imp_left (h.socket d))
  stored := h.stored
  through := h.through
  available := h.available
  boxes := h.boxes

theorem sender (h : o.Sound m numBoxes) (sender : Driver Sender Letter Bool) :
    Sound m numBoxes { o with sender := sender } :=
  ⟨h.alive, h.arriving, h.flow, h.socket, h.stored, h.through, h.available, h.boxes⟩

/-- **The poll** takes a packet only into an empty inbox. -/
theorem poll (h : o.Sound m numBoxes) :
    (o.CheckPktAvail m).Sound m numBoxes ∧ o.Inner (o.CheckPktAvail m) := by
  unfold CheckPktAvail
  split
  case isTrue => exact ⟨h, rfl, rfl⟩
  case isFalse hempty =>
    have hempty : o.inHdr.length = 0 := not_not.mp hempty
    have hthrough : o.worker ≠ .through := fun hworker => h.through hworker hempty
    split
    · exact ⟨h, rfl, rfl⟩
    · rename_i d rest hsocket
      obtain ⟨hlength, hto, hsize, hfits, -, -⟩ :=
        h.arriving d (h.socket d (hsocket ▸ List.mem_cons_self))
      have hto : (Header.ofBytes d).to = m := hto
      -- what the sender has made of the letter passes every check of the receiver
      have hsize : (Header.ofBytes d).length.toNat
          = headerSize + (Header.ofBytes (d.drop headerSize)).length.toNat := hsize
      have hfits : (Header.ofBytes (d.drop headerSize)).length.toNat ≤ MaxMailSize := hfits
      have hroom : (Header.ofBytes d).length.toNat ≤ (d.drop headerSize).length := by
        simp only [List.length_drop, hlength, hsize, headerSize, MaxWireSize, MaxMailSize,
          MaxPacketSize] at hfits ⊢
        omega
      have hchecks : d.length = MaxWireSize ∧ (Header.ofBytes d).to = m ∧
          (Header.ofBytes d).length.toNat ≤ MaxPacketSize := by
        refine ⟨hlength, hto, hroom.trans ?_⟩
        rw [List.length_drop, hlength]
        exact Nat.le_refl _
      have hfull : (Header.ofBytes d).length ≠ 0 := by
        intro hzero
        rw [hzero, headerSize, show (0 : BitVec 32).toNat = 0 from rfl] at hsize
        omega
      have hmail : Mail.ofBytes (.ofBytes d)
          (bcopy (d.drop headerSize) o.inbox (Header.ofBytes d).length.toNat) = .ofDatagram d :=
        (Mail.ofBytes_congr hsize.ge (take_bcopy hroom o.inbox).symm).symm
      rw [if_pos hchecks]
      refine ⟨⟨h.alive, h.arriving, ?_, ?_, le_length_bcopy hroom _, fun _ => hfull, ?_, h.boxes⟩,
        rfl, rfl⟩
      · have hflow := h.flow
        -- the packet moves from the front of the socket to the inbox
        rw [inInbox, if_pos hempty, hsocket] at hflow
        rw [inInbox, if_neg hfull, hmail]
        exact hflow
      · exact fun d' hd' => h.socket d' (hsocket ▸ List.mem_cons_of_mem d hd')
      · rw [h.available, if_pos (.inl hempty), if_neg (not_or.mpr ⟨hfull, hthrough⟩)]
        rfl

/-- The worker gets through `P` only for a packet in the inbox. -/
theorem P (h : o.Sound m numBoxes) (hstep : o.P = some o') :
    o'.Sound m numBoxes ∧ o.Inner o' := by
  unfold Office.P at hstep
  split at hstep
  · rename_i hworker
    obtain ⟨havailable, heq⟩ := Option.ite_none_left_eq_some.mp hstep
    cases heq
    have hvalue := h.available
    have hfull : o.inHdr.length ≠ 0 := by
      intro hempty
      rw [if_pos (.inl hempty)] at hvalue
      exact havailable hvalue
    rw [if_neg (not_or.mpr ⟨hfull, by simp [hworker]⟩)] at hvalue
    refine ⟨⟨h.alive, h.arriving, ?_, h.socket, h.stored, fun _ => hfull, ?_, h.boxes⟩, rfl, rfl⟩
    · have hflow := h.flow
      rwa [inHand, hworker] at hflow
    · rw [hvalue, if_pos (.inr rfl)]
      rfl
  · cases hstep

/-- It takes the packet, and the inbox is empty. -/
theorem take (h : o.Sound m numBoxes) (hstep : o.take = some o') :
    o'.Sound m numBoxes ∧ o.Inner o' := by
  unfold Office.take at hstep
  split at hstep
  · rename_i hworker
    cases hstep
    have hfull := h.through hworker
    have hflow := h.flow
    have hmail : Mail.ofBytes o.inHdr o.inbox ∈ o.delivered ++ (o.inHand ++ (o.inInbox ++
        o.socket.map .ofDatagram)) := by
      rw [inInbox, if_neg hfull]
      simp
    have hsize : o.inHdr.length.toNat = headerSize + (Header.ofBytes o.inbox).length.toNat :=
      (h.deliverable hmail).2.1
    have hcopy : Mail.ofBytes o.inHdr (bcopy o.inbox o.buffer o.inHdr.length.toNat)
        = .ofBytes o.inHdr o.inbox :=
      (Mail.ofBytes_congr hsize.ge (take_bcopy h.stored o.buffer).symm).symm
    refine ⟨⟨h.alive, h.arriving, ?_, h.socket, Nat.zero_le _, nofun, ?_, h.boxes⟩, rfl, rfl⟩
    · simp only [inHand, hworker, inInbox, if_neg hfull] at hflow
      simp only [inHand, inInbox, if_pos hfull, hcopy, if_true]
      exact hflow
    · rw [h.available, if_pos (.inr hworker), if_pos (.inl rfl)]
  · cases hstep

/-- It puts the mail in its box. -/
theorem put (h : o.Sound m numBoxes) (hstep : o.Put numBoxes = some o') :
    o'.Sound m numBoxes ∧ o.Inner o' := by
  unfold Office.Put at hstep
  split at hstep
  · rename_i pktHdr hworker
    have hflow := h.flow
    simp only [inHand, hworker] at hflow
    have hmem : Mail.ofBytes pktHdr o.buffer ∈ o.delivered ++ (o.inHand ++ (o.inInbox ++
        o.socket.map .ofDatagram)) := by
      simp [inHand, hworker]
    obtain ⟨-, -, hlength, hnonneg, hbox⟩ := h.deliverable hmem
    simp only at hstep
    rw [if_pos ⟨hnonneg, hbox, hlength⟩] at hstep
    cases hstep
    refine ⟨⟨h.alive, h.arriving, ?_, h.socket, h.stored, nofun, ?_, fun box => ?_⟩, rfl, rfl⟩
    · rw [hflow, List.append_assoc]
      rfl
    · rw [h.available]
      simp [hworker]
    · have hboxes := h.boxes box
      rw [List.filter_append, ← hboxes, List.append_assoc]
      by_cases hto : box = (Header.ofBytes o.buffer).to
      · subst hto
        simp [Mail.ofBytes]
      · simp [Mail.ofBytes, hto, Ne.symm hto]
  · cases hstep

/-- `Receive` gives the first mail of the box. -/
theorem receive (h : o.Sound m numBoxes) {box : MailBoxAddress}
    (hbox : 0 ≤ box.toInt ∧ box.toInt < numBoxes) (hstep : o.Receive numBoxes box = some o') :
    o'.Sound m numBoxes ∧ o.Inner o' := by
  unfold Office.Receive at hstep
  rw [if_pos hbox] at hstep
  split at hstep
  · cases hstep
  · rename_i mail rest hmails
    have hmem : mail ∈ o.delivered := by
      have hin : mail ∈ o.received box ++ o.boxes box := by simp [hmails]
      rw [h.boxes] at hin
      exact List.mem_of_mem_filter hin
    have hlength := (h.deliverable (List.mem_append_left _ hmem)).2.2.1
    rw [if_pos hlength] at hstep
    cases hstep
    refine ⟨⟨h.alive, h.arriving, h.flow, h.socket, h.stored, h.through, h.available,
      fun box' => ?_⟩, rfl, rfl⟩
    rw [← h.boxes box']
    by_cases hbox' : box' = box
    · subst hbox'
      simp [hmails]
    · simp [hbox']

end Sound

/-! ### What is left to do -/

/-- The steps that the poll and the worker have to take for what has come. -/
def work (o : Office) : Nat :=
  4 * o.socket.length +
    (if o.inHdr.length = 0 then 0 else if o.worker = .through then 2 else 3) +
    o.inHand.length

namespace Sound

variable {m : NetworkAddress} {numBoxes : Int} {o o' : Office}

/-- When there is nothing to do, all that came has been delivered. -/
theorem delivered_of_work (h : o.Sound m numBoxes) (hwork : o.work = 0) :
    o.arrived.map .ofDatagram = o.delivered := by
  have hsocket : o.socket = [] := by
    rw [← List.length_eq_zero_iff]
    unfold work at hwork
    omega
  have hhand : o.inHand = [] := by
    rw [← List.length_eq_zero_iff]
    unfold work at hwork
    omega
  have hempty : o.inHdr.length = 0 := by
    by_contra hfull
    unfold work at hwork
    rw [if_neg hfull] at hwork
    split at hwork <;> omega
  rw [h.flow, hhand, hsocket, inInbox, if_pos hempty]
  exact List.append_nil _

theorem work_poll (h : o.Sound m numBoxes) (hworker : o.worker = .waiting)
    (hempty : o.inHdr.length = 0) (hwork : o.work ≠ 0) : (o.CheckPktAvail m).work < o.work := by
  have halive := h.poll.1.alive
  have hidle : o.inHand = [] := by
    rw [inHand, hworker]
  unfold CheckPktAvail at halive ⊢
  rw [if_neg (not_not.mpr hempty)] at halive ⊢
  cases hsocket : o.socket with
  | nil =>
      unfold work at hwork
      rw [hsocket, if_pos hempty, hidle] at hwork
      exact absurd rfl hwork
  | cons d rest =>
      simp only [hsocket] at halive ⊢
      split at halive
      case isFalse => cases halive
      case isTrue hchecks =>
        rw [if_pos hchecks]
        simp only [work, inHand, hworker, hsocket, hempty, List.length_cons, List.length_nil,
          reduceCtorEq, if_false, if_true]
        split <;> omega

theorem work_P (h : o.Sound m numBoxes) (hstep : o.P = some o') : o'.work < o.work := by
  unfold Office.P at hstep
  split at hstep
  · rename_i hworker
    obtain ⟨havailable, heq⟩ := Option.ite_none_left_eq_some.mp hstep
    cases heq
    have hfull : o.inHdr.length ≠ 0 := by
      intro hempty
      rw [h.available, if_pos (.inl hempty)] at havailable
      exact havailable rfl
    simp only [work, inHand, hworker, if_neg hfull, reduceCtorEq, if_false, if_true]
    omega
  · cases hstep

theorem work_take (h : o.Sound m numBoxes) (hstep : o.take = some o') : o'.work < o.work := by
  unfold Office.take at hstep
  split at hstep
  · rename_i hworker
    cases hstep
    simp only [work, inHand, hworker, if_neg (h.through hworker), if_true, List.length_singleton,
      List.length_nil]
    omega
  · cases hstep

theorem work_put (h : o.Sound m numBoxes) (hstep : o.Put numBoxes = some o') :
    o'.work < o.work := by
  have halive := (h.put hstep).1.alive
  unfold Office.Put at hstep
  split at hstep
  · rename_i pktHdr hworker
    simp only at hstep
    split at hstep
    case isFalse =>
      cases hstep
      cases halive
    case isTrue =>
      cases hstep
      simp only [work, inHand, hworker, reduceCtorEq, if_false, List.length_singleton,
        List.length_nil]
      omega
  · cases hstep

end Sound

end Office

/-! ## All machines -/

/-- The sending half of machine `m` in order, from an idle network. -/
abbrev SendSound (present : NetworkAddress → Bool) (numBoxes : Int) (m : NetworkAddress)
    (sender : Driver Sender Letter Bool) : Prop :=
  Driver.Sound (sendDevice m present numBoxes) (fun network => network.sendBusy = false)
    (Letter.Valid present numBoxes) ⟨false, []⟩ sender

section Senders

variable {present : NetworkAddress → Bool} {numBoxes : Int} {m : NetworkAddress}
  {sender sender' : Driver Sender Letter Bool}

/-- What a socket was given stays in front of what it gets later. -/
theorem sent_step {e : Driver.Event Conditions Letter}
    (hdoes : Driver.Does (sendDevice m present numBoxes) sender e sender') :
    sender.hardware.sent <+: sender'.hardware.sent := by
  cases hdoes with
  | background | acquire | through | asleep | release | leave | interrupt => exact List.prefix_rfl
  | request =>
      unfold Driver.ask
      split
      · exact List.prefix_rfl
      · rename_i network out hrequest
        obtain ⟨-, -, hsent⟩ := Send_cases hrequest
        rw [hsent]
        exact List.prefix_append ..

theorem SendSound.sent (h : SendSound present numBoxes m sender) :
    (∀ p ∈ sender.hardware.sent, Genuine m numBoxes p.1 p.2) ∧
      sender.hardware.sent.map (fun p => (p.1, Mail.ofDatagram p.2)) = outgoing m sender.log := by
  have hsettled : (Driver.settled (sendDevice m present numBoxes) sender).sent
      = sender.hardware.sent := by
    rw [Driver.settled]
    split <;> rfl
  have hsent := sent_of_replay rfl h.replayed
  rwa [hsettled] at hsent

end Senders

namespace Net

/-- The datagrams that have come to machine `m` from machine `a`. -/
def fromMachine (a : NetworkAddress) (ds : List (List (BitVec 8))) : List (List (BitVec 8)) :=
  ds.filter fun d => (Header.ofBytes d).from = a

/-- The datagrams for machine `m`. -/
def toMachine (m : NetworkAddress) (sent : List (NetworkAddress × List (BitVec 8))) :
    List (List (BitVec 8)) :=
  (sent.filter fun p => p.1 = m).map Prod.snd

theorem fromMachine_append (a : NetworkAddress) (ds ds' : List (List (BitVec 8))) :
    fromMachine a (ds ++ ds') = fromMachine a ds ++ fromMachine a ds' :=
  List.filter_append ..

theorem toMachine_append (m : NetworkAddress) (sent new : List (NetworkAddress × List (BitVec 8))) :
    toMachine m (sent ++ new) = toMachine m sent ++ toMachine m new := by
  rw [toMachine, List.filter_append, List.map_append]
  rfl

section Post

variable {net : Net} {m : NetworkAddress} {sender : Driver Sender Letter Bool}
  {new : List (NetworkAddress × List (BitVec 8))}

theorem post_apply (h : (net m).sender.hardware.sent ++ new = sender.hardware.sent)
    (a : NetworkAddress) : net.post m sender a
      = (Function.update net m { net m with sender := sender } a).arrive (toMachine a new) := by
  rw [post, news, ← h, List.drop_left]
  rfl

theorem arrived_post (h : (net m).sender.hardware.sent ++ new = sender.hardware.sent)
    (a : NetworkAddress) : (net.post m sender a).arrived = (net a).arrived ++ toMachine a new := by
  rw [post_apply h]
  by_cases ha : a = m
  · subst ha
    rw [Function.update_self]
    rfl
  · rw [Function.update_of_ne ha]
    rfl

theorem sender_post (a : NetworkAddress) :
    (net.post m sender a).sender = if a = m then sender else (net a).sender := by
  unfold post
  by_cases ha : a = m
  · subst ha
    rw [Function.update_self, if_pos rfl]
    rfl
  · rw [Function.update_of_ne ha, if_neg ha]
    rfl

end Post

/-- The receiving half of a machine touches no sender and no socket. -/
theorem inner_update {net : Net} {m : NetworkAddress} {o' : Office} (h : (net m).Inner o')
    (a : NetworkAddress) : (Function.update net m o' a).sender = (net a).sender ∧
      (Function.update net m o' a).arrived = (net a).arrived := by
  by_cases ha : a = m
  · subst ha
    rw [Function.update_self]
    exact h
  · rw [Function.update_of_ne ha]
    exact ⟨rfl, rfl⟩

/-- Each machine is in order, and has what the others have sent to it. -/
structure Sound (present : NetworkAddress → Bool) (numBoxes : Int) (net : Net) : Prop where
  offices : ∀ m, (net m).Sound m numBoxes
  senders : ∀ m, SendSound present numBoxes m (net m).sender
  channels : ∀ a m, fromMachine a (net m).arrived = toMachine m (net a).sender.hardware.sent

namespace Sound

variable {present : NetworkAddress → Bool} {numBoxes : Int} {net net' : Net}
  {m : NetworkAddress}

theorem start : Sound present numBoxes .start where
  offices _ := .new
  senders _ := .start rfl
  channels _ _ := rfl

/-- **A sender**: what is new comes to the sockets. -/
theorem post (h : net.Sound present numBoxes) {e : Driver.Event Conditions Letter}
    (hevent : ∀ t letter, e = .acquire t letter → letter.Valid present numBoxes)
    {sender : Driver Sender Letter Bool}
    (hstep : Driver.step (sendDevice m present numBoxes) (net m).sender e = some sender) :
    (net.post m sender).Sound present numBoxes := by
  have hsound : SendSound present numBoxes m sender :=
    (h.senders m).step sendDevice_lawful hevent hstep
  obtain ⟨new, hnew⟩ := sent_step (Driver.does_of_step hstep).2
  have hgenuine : ∀ a, ∀ d ∈ toMachine a new, Genuine m numBoxes a d := by
    intro a d hd
    obtain ⟨p, hp, rfl⟩ := List.mem_map.mp hd
    obtain ⟨hp, hto⟩ := List.mem_filter.mp hp
    have hto : p.1 = a := by simpa using hto
    exact hto ▸ hsound.sent.1 p (hnew ▸ List.mem_append_right _ hp)
  constructor
  · intro a
    rw [post_apply hnew]
    refine Office.Sound.arrive ?_ fun d hd => (hgenuine a d hd).arriving
    by_cases ha : a = m
    · subst ha
      rw [Function.update_self]
      exact (h.offices a).sender sender
    · rw [Function.update_of_ne ha]
      exact h.offices a
  · intro a
    rw [sender_post]
    split
    · rename_i ha
      exact ha ▸ hsound
    · exact h.senders a
  · intro a b
    -- the channel from `a` to `b` grows at both of its ends alike
    rw [arrived_post hnew, sender_post, fromMachine_append, h.channels a b]
    by_cases ha : a = m
    · subst ha
      have hall : fromMachine a (toMachine b new) = toMachine b new :=
        List.filter_eq_self.mpr fun d hd => by simpa using (hgenuine b d hd).from_eq
      rw [if_pos rfl, hall, ← hnew, toMachine_append]
    · have hnone : fromMachine a (toMachine b new) = [] := by
        refine List.filter_eq_nil_iff.mpr fun d hd => ?_
        rw [(hgenuine b d hd).from_eq]
        simpa using Ne.symm ha
      rw [if_neg ha, hnone, List.append_nil]

/-- **The receiving half** of a machine touches nothing else. -/
theorem act (h : net.Sound present numBoxes) {o : Option Office}
    (ho : ∀ o', o = some o' → o'.Sound m numBoxes ∧ (net m).Inner o')
    (hstep : net.act m o = some net') : net'.Sound present numBoxes := by
  obtain ⟨-, hstep⟩ := Option.ite_none_left_eq_some.mp hstep
  obtain ⟨o', rfl, rfl⟩ := Option.map_eq_some_iff.mp hstep
  obtain ⟨hsound, hsender, harrived⟩ := ho o' rfl
  have hinner := inner_update (show (net m).Inner o' from ⟨hsender, harrived⟩)
  constructor
  · intro a
    by_cases ha : a = m
    · subst ha
      rwa [Function.update_self]
    · rw [Function.update_of_ne ha]
      exact h.offices a
  · intro a
    rw [(hinner a).1]
    exact h.senders a
  · intro a b
    rw [(hinner b).2, (hinner a).1]
    exact h.channels a b

end Sound

theorem Sound.step {present : NetworkAddress → Bool} {numBoxes : Int} {net net' : Net} {e : Event}
    (h : net.Sound present numBoxes) (hvalid : e.Valid present numBoxes)
    (hstep : net.step present numBoxes e = some net') : net'.Sound present numBoxes := by
  cases e with
  | send m e =>
      obtain ⟨-, hstep⟩ := Option.ite_none_left_eq_some.mp hstep
      obtain ⟨sender, hsender, rfl⟩ := Option.map_eq_some_iff.mp hstep
      refine h.post (fun t letter he => ?_) hsender
      subst he
      exact hvalid
  | poll m =>
      refine h.act (fun o' ho => ?_) hstep
      cases ho
      exact (h.offices m).poll
  | P m => exact h.act (fun o' ho => (h.offices m).P ho) hstep
  | take m => exact h.act (fun o' ho => (h.offices m).take ho) hstep
  | put m => exact h.act (fun o' ho => (h.offices m).put ho) hstep
  | receive m box => exact h.act (fun o' ho => (h.offices m).receive hvalid ho) hstep

/-- The mails for a box that machine `a` has sent, in the order of its `Send`s,
but for those that got lost. -/
def mailed (a : NetworkAddress) (log : List (Tid × Letter × Bool)) (m : NetworkAddress)
    (box : MailBoxAddress) : List Mail :=
  ((outgoing a log).filter fun p => p.1 = m ∧ p.2.mailHdr.to = box).map Prod.snd

/-- What has come from machine `a` for a box is what it has sent. -/
theorem Sound.mailed {present : NetworkAddress → Bool} {numBoxes : Int} {net : Net}
    (h : net.Sound present numBoxes) (a m : NetworkAddress) (box : MailBoxAddress) :
    ((net m).arrived.map Mail.ofDatagram).filter
        (fun mail => mail.pktHdr.from = a ∧ mail.mailHdr.to = box)
      = Net.mailed a (net a).sender.log m box := by
  have hchannel : fromMachine a (net m).arrived = toMachine m (net a).sender.hardware.sent :=
    h.channels a m
  have hsent : (net a).sender.hardware.sent.map (fun p => (p.1, Mail.ofDatagram p.2))
      = outgoing a (net a).sender.log := (h.senders a).sent.2
  have hfrom : ((net m).arrived.map Mail.ofDatagram).filter
      (fun mail => mail.pktHdr.from = a ∧ mail.mailHdr.to = box)
        = ((fromMachine a (net m).arrived).map Mail.ofDatagram).filter
          (fun mail => mail.mailHdr.to = box) := by
    simp only [fromMachine, List.filter_map, List.filter_filter]
    congr 1
    refine List.filter_congr fun d _ => ?_
    simp [Mail.ofDatagram, Mail.ofBytes, Bool.and_comm]
  rw [hfrom, hchannel, Net.mailed, ← hsent, toMachine]
  simp only [List.filter_map, List.map_map, List.filter_filter]
  congr 1
  refine List.filter_congr fun p _ => ?_
  simp [Bool.and_comm]

/-! ## Along a run -/

/-- No `ASSERT` fails; the `Send`s of each machine are as if one came behind the
other; and what a box has given away of the mails of a machine are the first
ones that it has sent there. -/
structure InOrder (present : NetworkAddress → Bool) (numBoxes : Int) (net : Net) : Prop where
  alive : ∀ m, (net m).failed = false
  atomic : ∀ m, Driver.Atomic (sendDevice m present numBoxes) ⟨false, []⟩ (net m).sender
  order : ∀ a m box, ((net m).received box).filter (fun mail => mail.pktHdr.from = a)
    <+: Net.mailed a (net a).sender.log m box

section Runs

variable {present : NetworkAddress → Bool} {numBoxes : Int} {net net' : Net}
  {events : List Event} {m : NetworkAddress}

theorem sound_of_exec (hvalid : ∀ e ∈ events, e.Valid present numBoxes)
    (hrun : exec (Net.step present numBoxes) .start events = some net) :
    net.Sound present numBoxes := by
  have hall : Throughout (Net.step present numBoxes) (Net.Sound present numBoxes) .start events :=
    throughout_of_step .start fun front e net net' hfront _ h hstep =>
      h.step (hvalid e (mem_of_snoc hfront)) hstep
  exact hall events net List.prefix_rfl hrun

/-- What is in a box, or was, is the front of what has come for it. -/
theorem Sound.received (h : net.Sound present numBoxes) (a : NetworkAddress)
    (box : MailBoxAddress) :
    ((net m).received box).filter (fun mail => mail.pktHdr.from = a)
      <+: Net.mailed a (net a).sender.log m box := by
  have hboxes := (h.offices m).boxes box
  have hflow := (h.offices m).flow
  have hfront : (net m).received box
      <+: ((net m).arrived.map Mail.ofDatagram).filter fun mail => mail.mailHdr.to = box := by
    rw [hflow, List.filter_append, ← hboxes, List.append_assoc]
    exact List.prefix_append ..
  have hmailed := h.mailed a m box
  simp only [Bool.decide_and] at hmailed
  rw [← hmailed, ← List.filter_filter]
  exact hfront.filter _

/-- **Each box gets what was sent to it in order**, whatever steps the senders,
the interrupts, the postal workers and the receivers take. -/
theorem in_order (hvalid : ∀ e ∈ events, e.Valid present numBoxes)
    (hrun : exec (Net.step present numBoxes) .start events = some net) :
    net.InOrder present numBoxes := by
  have h := sound_of_exec hvalid hrun
  exact ⟨fun m => (h.offices m).alive, fun m => (h.senders m).atomic,
    fun a m box => h.received a box⟩

/-! ### Nothing gets stuck -/

/-- The poll and the worker of machine `m`. -/
def Delivers (m : NetworkAddress) : Event → Prop
  | .poll m' | .P m' | .take m' | .put m' => m' = m
  | .send _ _ | .receive _ _ => False

/-- **A machine with something to do** has a step to take. -/
theorem Sound.advances (h : net.Sound present numBoxes) (hwork : (net m).work ≠ 0) :
    ∃ e o', Delivers m e ∧ net.step present numBoxes e = some (Function.update net m o') ∧
      (net m).Inner o' ∧ o'.work < (net m).work := by
  have hsound := h.offices m
  have hact : ∀ o', net.act m (some o') = some (Function.update net m o') := by
    intro o'
    rw [Net.act, hsound.alive]
    rfl
  cases hworker : (net m).worker with
  | delivering pktHdr =>
      -- the worker of `m` finishes what it has, before a packet is taken from the socket
      have hput : ((net m).Put numBoxes).isSome := by
        unfold Office.Put
        rw [hworker]
        dsimp only
        split <;> rfl
      obtain ⟨o', ho'⟩ := Option.isSome_iff_exists.mp hput
      refine ⟨.put m, o', rfl, ?_, (hsound.put ho').2, hsound.work_put ho'⟩
      rw [Net.step, ho', hact]
  | through =>
      have htake : ((net m).take).isSome := by
        unfold Office.take
        rw [hworker]
        rfl
      obtain ⟨o', ho'⟩ := Option.isSome_iff_exists.mp htake
      refine ⟨.take m, o', rfl, ?_, (hsound.take ho').2, hsound.work_take ho'⟩
      rw [Net.step, ho', hact]
  | waiting =>
      by_cases hempty : (net m).inHdr.length = 0
      · refine ⟨.poll m, _, rfl, hact _, hsound.poll.2, ?_⟩
        exact hsound.work_poll hworker hempty hwork
      · have havailable : (net m).messageAvailable ≠ 0 := by
          rw [hsound.available, if_neg (not_or.mpr ⟨hempty, by simp [hworker]⟩)]
          decide
        have hP : ((net m).P).isSome := by
          unfold Office.P
          rw [hworker]
          dsimp only
          rw [if_neg havailable]
          rfl
        obtain ⟨o', ho'⟩ := Option.isSome_iff_exists.mp hP
        refine ⟨.P m, o', rfl, ?_, (hsound.P ho').2, hsound.work_P ho'⟩
        rw [Net.step, ho', hact]

/-- **All that a machine was sent can be delivered**, wherever the run stands:
its poll and its worker get to where each box has got, from each machine, all
that was sent there and not lost. -/
theorem drained (hvalid : ∀ e ∈ events, e.Valid present numBoxes)
    (hrun : exec (Net.step present numBoxes) .start events = some net) (m : NetworkAddress) :
    ∃ more net', (∀ e ∈ more, Delivers m e) ∧
      exec (Net.step present numBoxes) net more = some net' ∧
      (∀ a, (net' a).sender = (net a).sender) ∧
      ∀ a box, ((net' m).received box ++ (net' m).boxes box).filter
          (fun mail => mail.pktHdr.from = a)
        = Net.mailed a (net a).sender.log m box := by
  have hstep : ∀ {net₁ : Net}, (net₁.Sound present numBoxes ∧
        ∀ a, (net₁ a).sender = (net a).sender) → (net₁ m).work ≠ 0 →
      ∃ e net₂, Delivers m e ∧ net₁.step present numBoxes e = some net₂ ∧
        (net₂.Sound present numBoxes ∧ ∀ a, (net₂ a).sender = (net a).sender) ∧
        (net₂ m).work < (net₁ m).work := by
    intro net₁ ⟨h, hsenders⟩ hwork
    obtain ⟨e, o', hdelivers, hstep, hinner, hless⟩ := h.advances hwork
    have hvalid : e.Valid present numBoxes := by
      cases e with
      | send | receive => exact hdelivers.elim
      | poll | P | take | put => trivial
    refine ⟨e, _, hdelivers, hstep, ⟨h.step hvalid hstep, fun a => ?_⟩, ?_⟩
    · rw [(inner_update hinner a).1, hsenders a]
    · rwa [Function.update_self]
  obtain ⟨more, net', hmore, hexec, ⟨h, hsenders⟩, hdone⟩ :=
    exists_exec_of_measure (fun net : Net => (net m).work) hstep
      ⟨sound_of_exec hvalid hrun, fun a => rfl⟩
  refine ⟨more, net', hmore, hexec, hsenders, fun a box => ?_⟩
  have hmailed := h.mailed a m box
  rw [(h.offices m).delivered_of_work hdone] at hmailed
  simp only [Bool.decide_and] at hmailed
  rw [(h.offices m).boxes box, List.filter_filter, hmailed, hsenders]

end Runs

section Example

/-- Two bytes for box 1 of machine 1. -/
def letterWith (b : BitVec 8) : Letter where
  pktHdr := ⟨1, 0, 0⟩
  mailHdr := ⟨1, 0, 2⟩
  data := [b, b]
  room := Nat.le_refl 2

/-- A `Send` by thread 0 of machine 0, up to its return. -/
def sends (b : BitVec 8) (lost : Bool) : List Event :=
  [.acquire 0 (letterWith b), .request 0 { lost, junk := fun _ => 0 }, .interrupt, .wait 0,
    .release 0, .leave 0].map (.send 0)

/-- Three letters, of which the network loses the second; the first one is
taken out of the box, and the third is on its way. -/
def threeLetters : List Event :=
  sends 7 false ++ [.poll 1, .P 1] ++ sends 8 true ++ [.take 1] ++ sends 9 false ++
    [.put 1, .poll 1, .receive 1 1]

theorem valid_threeLetters : ∀ e ∈ threeLetters, e.Valid (fun _ => true) 10 := by
  have hletter : ∀ b, (letterWith b).Valid (fun _ => true) 10 :=
    fun _ => ⟨(by decide : (letterWith 0).Fits 10), rfl⟩
  simp only [threeLetters, sends, List.map_cons, List.map_nil, List.cons_append, List.nil_append,
    List.forall_mem_cons]
  simp [Event.Valid, hletter]

theorem exec_threeLetters :
    ∃ net, exec (Net.step (fun _ => true) 10) .start threeLetters = some net ∧
      ((net 1).received 1).map Mail.data = [[7, 7]] ∧ (net 1).work = 3 ∧
      (Net.mailed 0 (net 0).sender.log 1 1).map Mail.data = [[7, 7], [9, 9]] := by
  have hrun : (exec (Net.step (fun _ => true) 10) .start threeLetters).map (fun net =>
      (((net 1).received 1).map Mail.data, (net 1).work,
        (Net.mailed 0 (net 0).sender.log 1 1).map Mail.data))
        = some ([[7, 7]], 3, [[7, 7], [9, 9]]) := by
    decide +kernel
  obtain ⟨net, hnet, hfacts⟩ := Option.map_eq_some_iff.mp hrun
  simp only [Prod.mk.injEq] at hfacts
  exact ⟨net, hnet, hfacts⟩

theorem in_order_threeLetters :
    ∃ net, exec (Net.step (fun _ => true) 10) .start threeLetters = some net ∧
      ((net 1).received 1).map Mail.data = [[7, 7]] ∧ net.InOrder (fun _ => true) 10 := by
  obtain ⟨net, hrun, hreceived, -, -⟩ := exec_threeLetters
  exact ⟨net, hrun, hreceived, in_order valid_threeLetters hrun⟩

theorem drained_threeLetters :
    ∃ net more net', exec (Net.step (fun _ => true) 10) .start threeLetters = some net ∧
      (net 1).work = 3 ∧ exec (Net.step (fun _ => true) 10) net more = some net' ∧
      (((net' 1).received 1 ++ (net' 1).boxes 1).filter fun mail => mail.pktHdr.from = 0).map
        Mail.data = [[7, 7], [9, 9]] := by
  obtain ⟨net, hrun, -, hwork, hmailed⟩ := exec_threeLetters
  obtain ⟨more, net', -, hmore, -, hall⟩ := drained valid_threeLetters hrun 1
  exact ⟨net, more, net', hrun, hwork, hmore, by rw [hall 0 1, hmailed]⟩

end Example

end Net

end DistributedAscii.NachOS.Network
