import DistributedAscii.Server.Answers
import DistributedAscii.Server.Grammar
import DistributedAscii.Server.Sending

/-!
# Server — one read for a request

`ASCIIServer::handleRequest` reads once and answers what it has; the two
HTTP front ends read on until the mark that ends a request. A request whose
first read is only a part of it is answered as if the part were all. That
makes no difference where the part is refused in the same words as the
whole (`Refused`).
-/

namespace DistributedAscii.Server

open FileSystem Lib.Search

/-! ## The code -/

/-- `request` after the one `Read`: the buffer is zero behind what came. -/
def requestBuffer (reads : List Bytes) : CString :=
  .ofBytes (padTo BUFFER ((reads.headD []).take BUFFER))

/-- `ASCIIServer::handleRequest`. -/
def handleRequest (fuel : Nat) (disk : Disk) (wire : Wire) (reads : List Bytes) : Option Sent :=
  (validateRequest fuel disk (requestBuffer reads)).map (sendAnswer wire)

/-! ## Answers are texts -/

theorem not_mem_listLoop (disk : Disk) {fuel i pos : Nat} {info : Bytes} (h : 0 ∉ info) :
    0 ∉ listLoop disk fuel i pos info := by
  induction fuel generalizing i pos info with
  | zero => exact h
  | succ fuel ih =>
      rw [listLoop]
      split
      · dsimp only
        split
        · exact h
        · apply ih
          rw [List.mem_append, List.mem_append]
          rintro ((hmem | hmem) | hmem)
          · exact h hmem
          · exact not_mem_untilNul _ hmem
          · revert hmem
            decide
      · exact h

theorem not_mem_drawingLoop {disk : Disk} {name : CString} {fuel : Nat} {next : UInt8}
    {asciiArt drawing : Bytes} (h : 0 ∉ asciiArt)
    (hread : drawingLoop disk name fuel next asciiArt = some drawing) : 0 ∉ drawing := by
  induction fuel generalizing next asciiArt with
  | zero => cases hread
  | succ fuel ih =>
      rw [drawingLoop] at hread
      split at hread
      · cases hread
        exact h
      · split at hread
        · cases hread
        · apply ih _ hread
          rw [List.mem_append]
          exact fun hmem => hmem.elim h (not_mem_untilNul _)

/-! ## What a request asks for -/

/-- The list, or a drawing by its name. -/
def Asks (req : Bytes) : Prop :=
  req = bytes "BEGIN/OBJECTS/END" ∨ ∃ ascii, 47 ∉ ascii ∧ req = getMessage ascii

/-- The answer to a message that asks for nothing. -/
def refusal (req : Bytes) : Bytes :=
  if badFrame req then bytes "BEGIN/ERROR/300/Formato de mensaje inválido/END"
  else bytes "BEGIN/ERROR/300/Mensaje no reconocido por el protocolo/END"

section Answers

variable {fuel : Nat} {disk : Disk} {request : CString}

theorem validateRequest_get {ascii : Bytes} (hslash : 47 ∉ ascii)
    (h : request.bytes = getMessage ascii) :
    validateRequest fuel disk request
      = if existASCII disk (.ofBytes ascii) = exitSuccess then
          (readDrawing fuel disk (.ofBytes ascii)).map (drawingAnswer ascii)
        else some (bytes "BEGIN/ERROR/201/El dibujo solicitado no fue encontrado/END") := by
  obtain ⟨hframe, htokens⟩ := framed_get_iff.mpr ⟨hslash, h⟩
  have hne : request.bytes ≠ [] := by
    rw [h, getMessage]
    simp [bytes_end]
  rw [validateRequest, if_neg hne, hframe, if_neg Bool.false_ne_true, htokens]
  simp only [if_true]

theorem validateRequest_refused (hne : request.bytes ≠ []) (h : ¬ Asks request.bytes) :
    validateRequest fuel disk request = some (refusal request.bytes) := by
  rw [validateRequest, if_neg hne, refusal]
  cases hframe : badFrame request.bytes with
  | true => rfl
  | false =>
      have hobjects : requestTokens request.bytes ≠ [bytes "OBJECTS"] :=
        fun htokens => h (.inl (framed_objects_iff.mp ⟨hframe, htokens⟩))
      have hget : ∀ ascii, requestTokens request.bytes ≠ [bytes "GET", ascii] :=
        fun ascii htokens => h (.inr ⟨ascii, framed_get_iff.mp ⟨hframe, htokens⟩⟩)
      rw [if_neg Bool.false_ne_true, if_neg Bool.false_ne_true]
      split
      · rename_i command htokens
        rw [if_neg]
        rintro rfl
        exact hobjects htokens
      · rename_i command ascii htokens
        rw [if_neg]
        rintro rfl
        exact hget ascii htokens
      · rfl

/-- What is asked for is never refused in these words. -/
theorem validateRequest_ne_refusal (h : Asks request.bytes) (req : Bytes) :
    validateRequest fuel disk request ≠ some (refusal req) := by
  have hinvalid : Outcome.invalid.head <+: refusal req := by
    rw [refusal]
    split <;> decide
  intro hanswer
  rcases h with h | ⟨ascii, hslash, h⟩
  · rw [validateRequest_list h] at hanswer
    have hok : Outcome.ok.head <+: refusal req := by
      rw [← Option.some.inj hanswer, objectsAnswer, List.append_assoc]
      exact List.prefix_append _ _
    exact absurd (Outcome.eq_of_head hok hinvalid) (by decide)
  · rw [validateRequest_get hslash h] at hanswer
    split at hanswer
    · obtain ⟨drawing, -, hdrawing⟩ := Option.map_eq_some_iff.mp hanswer
      have hok : Outcome.ok.head <+: refusal req := by
        rw [← hdrawing, drawingAnswer, List.append_assoc, List.append_assoc]
        exact List.prefix_append _ _
      exact absurd (Outcome.eq_of_head hok hinvalid) (by decide)
    · have hmissing : Outcome.missing.head <+: refusal req := by
        rw [← Option.some.inj hanswer]
        decide
      exact absurd (Outcome.eq_of_head hmissing hinvalid) (by decide)

theorem not_mem_answer {content : Bytes} (h : 0 ∉ content) :
    0 ∉ bytes "BEGIN/OK/" ++ content ++ bytes "/END" := by
  rw [List.mem_append, List.mem_append]
  rintro ((hmem | hmem) | hmem)
  · revert hmem
    decide
  · exact h hmem
  · revert hmem
    decide

/-- **Every answer is a text**, so the sending loop offers all of it. -/
theorem not_mem_validateRequest {answer : Bytes}
    (h : validateRequest fuel disk request = some answer) : 0 ∉ answer := by
  by_cases hempty : request.bytes = []
  · rw [validateRequest, if_pos hempty] at h
    obtain rfl := Option.some.inj h
    decide
  by_cases hasks : Asks request.bytes
  · rcases hasks with hobjects | ⟨ascii, hslash, hget⟩
    · rw [validateRequest_list hobjects] at h
      obtain rfl := Option.some.inj h
      exact not_mem_answer (not_mem_listLoop disk (by simp))
    · have hascii : 0 ∉ ascii := by
        intro h0
        apply request.noNul
        rw [hget, getMessage]
        simp [h0]
      rw [validateRequest_get hslash hget] at h
      split at h
      · obtain ⟨drawing, hdrawing, rfl⟩ := Option.map_eq_some_iff.mp h
        rw [drawingAnswer, List.append_assoc (bytes "BEGIN/OK/")]
        apply not_mem_answer
        rw [List.mem_append, drawingTitle, List.mem_append, List.mem_append]
        rintro (((hmem | hmem) | hmem) | hmem)
        · revert hmem
          decide
        · exact hascii hmem
        · revert hmem
          decide
        · exact not_mem_drawingLoop (by simp) hdrawing hmem
      · obtain rfl := Option.some.inj h
        decide
  · rw [validateRequest_refused hempty hasks] at h
    obtain rfl := Option.some.inj h
    rw [refusal]
    split <;> decide

/-- Of two requests that both ask for something, neither begins the other. -/
theorem asks_eq_of_begins {req part : Bytes} (hpart : Asks part) (hreq : Asks req)
    (h : part <+: req) : part = req := by
  have hget : ∀ ascii : Bytes,
      getMessage ascii = bytes "BEGIN/GET/" ++ (ascii ++ 47 :: bytes "END") := by
    intro ascii
    rw [getMessage, List.append_assoc]
    rfl
  have hobjects : ∀ ascii : Bytes, ¬ bytes "BEGIN/OBJECTS/END" <+: getMessage ascii := by
    intro ascii hpre
    have hseven := List.prefix_iff_eq_take.mp ((show bytes "BEGIN/O" <+: bytes "BEGIN/OBJECTS/END"
      by decide).trans hpre)
    exact absurd hseven (show ¬ bytes "BEGIN/O" = bytes "BEGIN/G" by decide)
  have hget' : ∀ ascii : Bytes, ¬ getMessage ascii <+: bytes "BEGIN/OBJECTS/END" := by
    intro ascii hpre
    have hseven : bytes "BEGIN/G" <+: bytes "BEGIN/OBJECTS/END" := by
      refine List.IsPrefix.trans ?_ hpre
      exact ⟨(getMessage ascii).drop 7, rfl⟩
    revert hseven
    decide
  rcases hpart with rfl | ⟨ascii, hslash, rfl⟩ <;> rcases hreq with rfl | ⟨ascii', hslash', rfl⟩
  · rfl
  · exact absurd h (hobjects ascii')
  · exact absurd h (hget' ascii)
  · obtain ⟨rest, hrest⟩ := h
    rw [hget, hget, List.append_assoc, List.append_cancel_left_eq, List.append_assoc,
      List.cons_append] at hrest
    rw [(sep_inj hslash hslash' hrest).1]

end Answers

/-! ## The first read -/

/-- Two messages that ask for nothing and are refused in the same words. -/
def RefusedAlike (part req : Bytes) : Prop :=
  ¬ Asks part ∧ ¬ Asks req ∧ badFrame part = badFrame req

section Reads

variable {request : CString} {pieces : List Bytes}

theorem headD_prefix (hcut : Cut request.bytes pieces) : pieces.headD [] <+: request.bytes := by
  rw [← hcut.flatten]
  cases pieces with
  | nil => exact List.nil_prefix
  | cons piece rest =>
      rw [List.flatten_cons]
      exact List.prefix_append _ _

theorem headD_eq_nil (hcut : Cut request.bytes pieces) (h : pieces.headD [] = []) :
    request.bytes = [] := by
  rw [← hcut.flatten]
  cases pieces with
  | nil => rfl
  | cons piece rest => exact absurd h (hcut.ne_nil piece List.mem_cons_self)

/-- The buffer holds the first piece of the request. -/
theorem requestBuffer_bytes (hcut : Cut request.bytes pieces) (hlen : request.length ≤ 255) :
    (requestBuffer pieces).bytes = pieces.headD [] := by
  have hpre := headD_prefix hcut
  have hnul : 0 ∉ pieces.headD [] := fun h => request.noNul (hpre.subset h)
  have hle : (pieces.headD []).length ≤ BUFFER := by
    have := hpre.length_le
    rw [CString.length] at hlen
    rw [BUFFER]
    omega
  rw [requestBuffer, List.take_of_length_le hle]
  exact untilNul_padTo BUFFER hnul

/-- What is offered to the socket is the answer to what was read. -/
theorem handleRequest_offered (fuel : Nat) (disk : Disk) (wire : Wire) (reads : List Bytes) :
    (handleRequest fuel disk wire reads).map Sent.offered
      = validateRequest fuel disk (requestBuffer reads) := by
  rw [handleRequest, Option.map_map]
  cases hanswer : validateRequest fuel disk (requestBuffer reads) with
  | none => rfl
  | some answer =>
      have heq := sendAnswer_eq wire ⟨answer, not_mem_validateRequest hanswer⟩
      rw [Option.map_some, Function.comp_apply, heq, sendHttpResponse_offered]

/-- **When the cut does not matter**: what is sent is the answer to the whole
request iff the first read brings all of it, or a part that is refused as
the whole is. -/
theorem handleRequest_whole_iff (fuel : Nat) (disk : Disk) (wire : Wire)
    (hcut : Cut request.bytes pieces) (hlen : request.length ≤ 255) :
    (handleRequest fuel disk wire pieces).map Sent.offered = validateRequest fuel disk request
      ↔ pieces.headD [] = request.bytes ∨ RefusedAlike (pieces.headD []) request.bytes := by
  have hbuffer := requestBuffer_bytes hcut hlen
  rw [handleRequest_offered, ← hbuffer]
  by_cases hall : (requestBuffer pieces).bytes = request.bytes
  · rw [CString.ext hall]
    simp
  have hne : (requestBuffer pieces).bytes ≠ [] := by
    intro hnil
    rw [hbuffer] at hnil hall
    exact hall (hnil.trans (headD_eq_nil hcut hnil).symm)
  have hpre : (requestBuffer pieces).bytes <+: request.bytes := hbuffer ▸ headD_prefix hcut
  have hreq : request.bytes ≠ [] := by
    intro hnil
    rw [hnil] at hpre
    exact hne (List.prefix_nil.mp hpre)
  simp only [hall, false_or, RefusedAlike]
  by_cases hpart : Asks (requestBuffer pieces).bytes
  · have hwhole : ¬ Asks request.bytes := fun hwhole => hall (asks_eq_of_begins hpart hwhole hpre)
    rw [validateRequest_refused hreq hwhole]
    simp only [hpart, not_true_eq_false, false_and, iff_false]
    exact validateRequest_ne_refusal hpart _
  · rw [validateRequest_refused hne hpart]
    by_cases hwhole : Asks request.bytes
    · simp only [hwhole, not_true_eq_false, false_and, and_false, iff_false]
      exact (validateRequest_ne_refusal hwhole _).symm
    · rw [validateRequest_refused hreq hwhole]
      simp only [hpart, hwhole, not_false_eq_true, true_and, Option.some.injEq, refusal]
      cases badFrame (requestBuffer pieces).bytes <;> cases badFrame request.bytes <;> decide

end Reads

/-- What begins with a `G` asks for nothing. -/
theorem not_asks_of_head {req : Bytes} (h : req.head? = some 71) : ¬Asks req := by
  rintro (rfl | ⟨ascii, -, rfl⟩)
  · revert h
    decide
  · rw [getMessage, show bytes "BEGIN/GET/" = 66 :: bytes "EGIN/GET/" from rfl] at h
    cases h

/-- An HTTP request in two reads: both parts lack the frame. -/
theorem handleRequest_whole_http :
    (handleRequest 0 [] .whole [bytes "GET /ga", bytes "to"]).map Sent.offered
      = validateRequest 0 [] (.ofBytes (bytes "GET /gato")) := by
  have hbytes : (CString.ofBytes (bytes "GET /gato")).bytes = bytes "GET /gato" := by
    decide
  have hcut : Cut (CString.ofBytes (bytes "GET /gato")).bytes [bytes "GET /ga", bytes "to"] := by
    rw [hbytes]
    exact ⟨by decide, by decide, by decide⟩
  have hrefused : RefusedAlike (bytes "GET /ga") (bytes "GET /gato") :=
    ⟨not_asks_of_head rfl, not_asks_of_head rfl, by decide⟩
  exact (handleRequest_whole_iff 0 [] .whole hcut (by decide)).mpr (.inr (hbytes ▸ hrefused))

/-- The request for the list in two reads: the first one has no end. -/
theorem handleRequest_not_whole :
    ¬ ∀ (fuel : Nat) (disk : Disk) (wire : Wire) (request : CString) (pieces : List Bytes),
      Cut request.bytes pieces → request.length ≤ 255 →
      (handleRequest fuel disk wire pieces).map Sent.offered
        = validateRequest fuel disk request := by
  intro h
  have hbytes : (CString.ofBytes (bytes "BEGIN/OBJECTS/END")).bytes
      = bytes "BEGIN/OBJECTS/END" := by
    decide
  have hcut : Cut (CString.ofBytes (bytes "BEGIN/OBJECTS/END")).bytes
      [bytes "BEGIN/OBJECTS", bytes "/END"] := by
    rw [hbytes]
    exact ⟨by decide, by decide, by decide⟩
  have hfirst : requestBuffer [bytes "BEGIN/OBJECTS", bytes "/END"]
      = .ofBytes (bytes "BEGIN/OBJECTS") := by
    decide
  have hrefused : ¬ Asks (bytes "BEGIN/OBJECTS") := by
    rintro (heq | ⟨ascii, -, heq⟩)
    · revert heq
      decide
    · have hseven := congrArg (List.take 7) heq
      exact absurd hseven (show ¬ bytes "BEGIN/O" = bytes "BEGIN/G" by decide)
  have hsent := h 0 [] .whole _ _ hcut (by decide)
  rw [handleRequest_offered, hfirst, validateRequest_list hbytes,
    validateRequest_refused (by decide) hrefused] at hsent
  have hhead := congrArg (List.take 9) (Option.some.inj hsent)
  exact absurd hhead (show ¬ bytes "BEGIN/ERR" = bytes "BEGIN/OK/" by decide)

end DistributedAscii.Server
