import DistributedAscii.Server.IntegratedServer

/-!
# Server — sending an answer

The three servers send an answer in chunks of a buffer. A socket may take
less of a chunk than it is offered and says how much it took (`Write`); the
loops go on behind the chunk all the same. What arrives is the answer in its
order, with the end of every chunk that was not taken whole left out.
-/

namespace DistributedAscii.Server

open FileSystem Lib.Search

/-! ## Sockets -/

/-- What was written to a socket: the number of writes, what they offered
and what was taken of it. -/
structure Sent where
  writes : Nat
  offered : Bytes
  accepted : Bytes
deriving DecidableEq

def Sent.start : Sent := ⟨0, [], []⟩

/-- How many bytes a socket takes of each write, by the number of the write
and the bytes offered: at least one, at most all of them. -/
structure Wire where
  takes : Nat → Nat → Nat
  pos : ∀ i offered, 0 < offered → 0 < takes i offered
  le : ∀ i offered, takes i offered ≤ offered

namespace Wire

variable (wire : Wire)

/-- `Socket::Write` of a buffer and its size, with the count it returns. -/
def Write (buffer : Bytes) (s : Sent) : Nat × Sent :=
  let st := wire.takes s.writes buffer.length
  (st, ⟨s.writes + 1, s.offered ++ buffer, s.accepted ++ buffer.take st⟩)

/-- `Socket::Write` of a text. -/
def WriteText (text : Bytes) (s : Sent) : Nat × Sent :=
  wire.Write (untilNul text) s

/-- A socket that always takes everything. -/
def whole : Wire where
  takes _ offered := offered
  pos _ _ h := h
  le _ _ := Nat.le_refl _

/-- A socket that takes one byte at a time. -/
def bytewise : Wire where
  takes _ offered := min 1 offered
  pos _ _ h := by omega
  le _ _ := by omega

end Wire

/-! ## The loops -/

/-- The size of the buffers, `BUFFER` and `BUFSIZE`. -/
def BUFFER : Nat := 256

/-- The size of the chunk that begins at `sent`. -/
def chunkSize (response : Bytes) (sent : Nat) : Nat :=
  if BUFFER < response.length - sent then BUFFER else response.length - sent

theorem chunkSize_pos {response : Bytes} {sent : Nat} (h : sent < response.length) :
    0 < chunkSize response sent := by
  rw [chunkSize, BUFFER]
  split <;> omega

theorem chunkSize_le (response : Bytes) (sent : Nat) :
    chunkSize response sent ≤ response.length - sent := by
  rw [chunkSize, BUFFER]
  split <;> omega

/-- `while (sent < response.size())`; the count that `write` returns is
dropped. -/
def sendLoop (write : Bytes → Sent → Nat × Sent) (response : Bytes) (sent : Nat) (s : Sent) :
    Sent :=
  if sent < response.length then
    sendLoop write response (sent + chunkSize response sent)
      (write (substr response sent (some (chunkSize response sent))) s).2
  else s
termination_by response.length - sent
decreasing_by
  have := chunkSize_pos (by assumption)
  omega

/-- The loop of `ASCIIServer::handleRequest`. -/
def sendAnswer (wire : Wire) (response : Bytes) : Sent :=
  sendLoop wire.WriteText response 0 .start

/-- The loop of `forkServer::init`, which hands over a pointer and a size. -/
def sendHttpResponse (wire : Wire) (httpResponse : Bytes) : Sent :=
  sendLoop wire.Write httpResponse 0 .start

/-- The loop of `task`. -/
def Integrated.sendResponse (wire : Wire) (asciiResponse : Bytes) : Sent :=
  sendLoop wire.WriteText asciiResponse 0 .start

/-! ## What arrives -/

section Loop

variable {wire : Wire} {response : Bytes} {sent : Nat} {s : Sent}

theorem sendLoop_step {write : Bytes → Sent → Nat × Sent} (h : sent < response.length) :
    sendLoop write response sent s
      = sendLoop write response (sent + chunkSize response sent)
          (write (substr response sent (some (chunkSize response sent))) s).2 := by
  rw [sendLoop, if_pos h]

theorem sendLoop_done {write : Bytes → Sent → Nat × Sent} (h : ¬ sent < response.length) :
    sendLoop write response sent s = s := by
  rw [sendLoop, if_neg h]

/-- A text without NUL is handed over as it is. -/
theorem sendLoop_text (hnul : 0 ∉ response) (sent : Nat) (s : Sent) :
    sendLoop wire.WriteText response sent s = sendLoop wire.Write response sent s := by
  fun_induction sendLoop wire.Write response sent s with
  | case1 sent s h ih =>
      have hchunk : 0 ∉ substr response sent (some (chunkSize response sent)) :=
        fun hmem => hnul (List.mem_of_mem_drop (List.mem_of_mem_take hmem))
      rw [sendLoop_step h, Wire.WriteText, untilNul_of_not_mem hchunk, ih]
  | case2 sent s h => rw [sendLoop_done h]

/-- Everything is offered, in order. -/
theorem sendLoop_offered (wire : Wire) (response : Bytes) (sent : Nat) (s : Sent) :
    (sendLoop wire.Write response sent s).offered = s.offered ++ response.drop sent := by
  fun_induction sendLoop wire.Write response sent s with
  | case1 sent s h ih =>
      rw [ih, Wire.Write, substr, List.append_assoc, ← List.drop_drop, List.take_append_drop]
  | case2 sent s h => rw [List.drop_of_length_le (by omega), List.append_nil]

/-- **Nothing is repeated or reordered**, whatever the socket takes. -/
theorem sendLoop_sublist (wire : Wire) (response : Bytes) (sent : Nat) (s : Sent) :
    ∃ arrived, (sendLoop wire.Write response sent s).accepted = s.accepted ++ arrived
      ∧ arrived.Sublist (response.drop sent) := by
  fun_induction sendLoop wire.Write response sent s with
  | case1 sent s h ih =>
      obtain ⟨arrived, haccepted, hsub⟩ := ih
      refine ⟨(substr response sent (some (chunkSize response sent))).take
        (wire.takes s.writes (substr response sent (some (chunkSize response sent))).length)
        ++ arrived, ?_, ?_⟩
      · rw [haccepted, Wire.Write, List.append_assoc]
      · rw [← List.take_append_drop (chunkSize response sent) (response.drop sent),
          List.drop_drop]
        exact (List.take_sublist _ _).append hsub
  | case2 sent s h => exact ⟨[], by simp, List.nil_sublist _⟩

/-- Two parts that may have lost bytes make the whole iff none did. -/
theorem append_sublist_eq_iff {x x' y y' : Bytes} (hx : x'.Sublist x) (hy : y'.Sublist y) :
    x' ++ y' = x ++ y ↔ x' = x ∧ y' = y := by
  constructor
  · intro h
    have hlen := congrArg List.length h
    rw [List.length_append, List.length_append] at hlen
    have hxle := hx.length_le
    have hyle := hy.length_le
    exact ⟨hx.eq_of_length (by omega), hy.eq_of_length (by omega)⟩
  · rintro ⟨rfl, rfl⟩
    rfl

/-- The writes of the loop from number `first` on are taken whole. -/
def WholeFrom (wire : Wire) (response : Bytes) (first : Nat) : Prop :=
  ∀ i, first ≤ i → BUFFER * i < response.length →
    wire.takes i (chunkSize response (BUFFER * i)) = chunkSize response (BUFFER * i)

theorem wholeFrom_step (h : BUFFER * s.writes < response.length) :
    WholeFrom wire response s.writes
      ↔ wire.takes s.writes (chunkSize response (BUFFER * s.writes))
          = chunkSize response (BUFFER * s.writes)
        ∧ WholeFrom wire response (s.writes + 1) := by
  constructor
  · intro hwhole
    exact ⟨hwhole _ (Nat.le_refl _) h, fun i hi => hwhole i (by omega)⟩
  · rintro ⟨hfirst, hrest⟩ i hi hlen
    rcases Nat.eq_or_lt_of_le hi with rfl | hlt
    · exact hfirst
    · exact hrest i hlt hlen

/-- Behind the last chunk no write is left. -/
theorem wholeFrom_done {first : Nat} (h : response.length ≤ BUFFER * first) :
    WholeFrom wire response first := by
  intro i hi hlen
  have := Nat.mul_le_mul_left BUFFER hi
  omega

/-- Where the next chunk begins, by the number of the write; behind the last
chunk only that nothing is left. -/
theorem next_chunk (h : sent < response.length) {i : Nat} (hsent : sent = BUFFER * i) :
    sent + chunkSize response sent = BUFFER * (i + 1)
      ∨ response.length ≤ sent + chunkSize response sent
        ∧ response.length ≤ BUFFER * (i + 1) := by
  rw [chunkSize]
  split
  · left
    rw [hsent, Nat.mul_succ]
  · right
    rw [Nat.mul_succ]
    omega

/-- **What arrives is the whole** iff no write of the loop is cut short. The
induction is on the loop; a chunk is a part of its own, as is what comes
behind it. -/
theorem sendLoop_whole_iff (wire : Wire) (response : Bytes) (sent : Nat) (s : Sent)
    (hsent : sent = BUFFER * s.writes
      ∨ response.length ≤ sent ∧ response.length ≤ BUFFER * s.writes) :
    (sendLoop wire.Write response sent s).accepted = s.accepted ++ response.drop sent
      ↔ WholeFrom wire response s.writes := by
  fun_induction sendLoop wire.Write response sent s with
  | case1 sent s h ih =>
      have hmul : sent = BUFFER * s.writes := hsent.resolve_right (by omega)
      have hlen : (substr response sent (some (chunkSize response sent))).length
          = chunkSize response sent := by
        have := chunkSize_le response sent
        rw [substr, List.length_take, List.length_drop]
        omega
      have hcut : response.drop sent = substr response sent (some (chunkSize response sent))
          ++ response.drop (sent + chunkSize response sent) := by
        rw [substr, ← List.drop_drop, List.take_append_drop]
      have hnext := ih (next_chunk h hmul)
      -- behind a cut chunk nothing that is sent later fills the gap
      obtain ⟨arrived, harrived, hsub⟩ := sendLoop_sublist wire response
        (sent + chunkSize response sent)
        (wire.Write (substr response sent (some (chunkSize response sent))) s).2
      have hstep : WholeFrom wire response s.writes
          ↔ wire.takes s.writes (chunkSize response sent) = chunkSize response sent
            ∧ WholeFrom wire response (s.writes + 1) := by
        rw [hmul]
        exact wholeFrom_step (hmul ▸ h)
      rw [harrived, List.append_cancel_left_eq, show (wire.Write (substr response sent
        (some (chunkSize response sent))) s).2.writes = s.writes + 1 from rfl] at hnext
      rw [harrived, hcut, Wire.Write, List.append_assoc, List.append_cancel_left_eq,
        append_sublist_eq_iff (List.take_sublist _ _) hsub, hnext, List.take_eq_self_iff, hlen,
        hstep]
      have hle := wire.le s.writes (chunkSize response sent)
      constructor
      · rintro ⟨hall, hrest⟩
        exact ⟨by omega, hrest⟩
      · rintro ⟨hall, hrest⟩
        exact ⟨by omega, hrest⟩
  | case2 sent s h =>
      have hnone : WholeFrom wire response s.writes := by
        apply wholeFrom_done
        omega
      simp only [hnone, iff_true]
      rw [List.drop_of_length_le (by omega), List.append_nil]

end Loop

/-! ## Delivery -/

/-- The three servers send the same of an answer without NUL. -/
theorem sendAnswer_eq (wire : Wire) (response : CString) :
    sendAnswer wire response.bytes = sendHttpResponse wire response.bytes :=
  sendLoop_text response.noNul 0 .start

/-- Every write that the loop makes for the answer is taken whole. -/
def WritesWhole (wire : Wire) (response : Bytes) : Prop :=
  WholeFrom wire response 0

/-- The answer arrives, byte for byte, from each of the servers. -/
structure Delivered (wire : Wire) (response : Bytes) : Prop where
  handleRequest : (sendAnswer wire response).accepted = response
  init : (sendHttpResponse wire response).accepted = response
  task : (Integrated.sendResponse wire response).accepted = response

theorem sendHttpResponse_whole_iff (wire : Wire) (response : Bytes) :
    (sendHttpResponse wire response).accepted = response ↔ WritesWhole wire response :=
  sendLoop_whole_iff wire response 0 .start (.inl rfl)

/-- **When the whole answer arrives.** -/
theorem delivered_iff (wire : Wire) (response : CString) :
    Delivered wire response.bytes ↔ WritesWhole wire response.bytes := by
  rw [← sendHttpResponse_whole_iff]
  constructor
  · exact fun h => h.init
  · intro h
    have htext : (sendAnswer wire response.bytes).accepted = response.bytes := by
      rw [sendAnswer_eq, h]
    exact ⟨htext, h, htext⟩

/-- Of an answer of two bytes, the first one. -/
theorem not_delivered_short :
    ¬ ∀ (wire : Wire) (response : CString), Delivered wire response.bytes := by
  intro h
  have hall :=
    (sendHttpResponse_whole_iff .bytewise _).mp (h .bytewise (.ofBytes (bytes "ok"))).init
  have hfirst := hall 0 (Nat.le_refl 0) (by decide)
  revert hfirst
  decide

/-- The pieces that a socket can tear an answer into keep its order. -/
theorem accepted_sublist (wire : Wire) (response : Bytes) :
    (sendHttpResponse wire response).accepted.Sublist response := by
  obtain ⟨arrived, haccepted, hsub⟩ := sendLoop_sublist wire response 0 .start
  rw [sendHttpResponse, haccepted]
  exact hsub

theorem sendHttpResponse_offered (wire : Wire) (response : Bytes) :
    (sendHttpResponse wire response).offered = response :=
  sendLoop_offered wire response 0 .start

end DistributedAscii.Server
