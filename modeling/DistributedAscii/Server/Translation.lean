import DistributedAscii.Server.Frame
import DistributedAscii.Server.IntegratedServer
import DistributedAscii.Server.Relay

/-!
# Server — what the integrated server translates back

`translateAsciiToHttp` tells an error from an answer by a search for
`BEGIN/ERROR/` in the whole message, payload included. The mark of a real
error stands in front of everything else, so an error is always translated
as it is. A payload can hold the mark as well, or make one together with the
slash of `/END`, and is then cut up as if it were an error.
-/

namespace DistributedAscii.Server.Integrated

open Lib.Search

/-! ## Messages -/

/-- The answer that carries a drawing. -/
def okMessage (content : CString) : Bytes :=
  bytes "BEGIN/OK/" ++ content.bytes ++ bytes "/END"

def errorMessage (code message : CString) : Bytes :=
  bytes "BEGIN/ERROR/" ++ (code.bytes ++ 47 :: (message.bytes ++ bytes "/END"))

/-- The response to a drawing, whole. -/
def okResponse (content : CString) : Bytes :=
  httpResponse (bytes "200 OK") (bytes "text/plain; charset=utf-8") content.bytes

def errorResponse (code message : CString) : Bytes :=
  httpResponse (code.bytes ++ bytes " Error") (bytes "text/plain") message.bytes

/-- The content has the mark of an error, or all of it but the last slash at
its end. -/
def LooksLikeError (content : CString) : Prop :=
  bytes "BEGIN/ERROR/" <:+: content.bytes ∨ bytes "BEGIN/ERROR" <:+ content.bytes

theorem okMessage_bytes (content : CString) :
    (CString.ofBytes (okMessage content)).bytes = okMessage content := by
  apply CString.ofBytes_bytes
  rw [okMessage, List.mem_append, List.mem_append]
  rintro ((h | h) | h)
  · revert h
    decide
  · exact content.noNul h
  · revert h
    decide

theorem errorMessage_bytes (code message : CString) :
    (CString.ofBytes (errorMessage code message)).bytes = errorMessage code message := by
  apply CString.ofBytes_bytes
  rw [errorMessage, List.mem_append, List.mem_append, List.mem_cons, List.mem_append]
  rintro (h | h | h | h | h)
  · revert h
    decide
  · exact code.noNul h
  · revert h
    decide
  · exact message.noNul h
  · revert h
    decide

/-- **The mark in a drawing.** The slashes of `BEGIN/OK/` belong to no mark
of an error; the slash of `/END` may. -/
theorem error_infix_okMessage_iff (content : CString) :
    bytes "BEGIN/ERROR/" <:+: okMessage content ↔ LooksLikeError content := by
  have hmark : bytes "BEGIN/ERROR/" = bytes "BEGIN" ++ 47 :: bytes "ERROR/" := by decide
  have hfirst : okMessage content
      = bytes "BEGIN" ++ 47 :: (bytes "OK" ++ 47 :: (content.bytes ++ bytes "/END")) := by
    rw [okMessage, show bytes "BEGIN/OK/" = bytes "BEGIN" ++ 47 :: (bytes "OK" ++ [47]) by decide]
    simp
  have hok : ¬ bytes "ERROR/" <+: bytes "OK" ++ 47 :: (content.bytes ++ bytes "/END") := by
    rw [show bytes "ERROR/" = 69 :: bytes "RROR/" by decide,
      show bytes "OK" = 79 :: bytes "K" by decide, List.cons_append, List.cons_prefix_cons]
    exact fun h => absurd h.1 (by decide)
  have hword : ¬ bytes "BEGIN" <:+ bytes "OK" := by decide
  have hpayload : bytes "BEGIN/ERROR/" <:+: okMessage content
      ↔ bytes "BEGIN/ERROR/" <:+: content.bytes ++ bytes "/END" := by
    rw [hfirst, hmark, sep_infix_iff (by decide) (by decide),
      sep_infix_iff (by decide) (by decide)]
    simp [hok, hword]
  rw [hpayload, LooksLikeError]
  by_cases hinside : bytes "BEGIN/ERROR/" <:+: content.bytes
  · simp only [hinside, true_or, iff_true]
    exact hinside.trans (List.prefix_append _ _).isInfix
  · rw [error_infix_append_end_iff hinside]
    exact ⟨.inr, fun h => h.resolve_left hinside⟩

/-! ## Errors -/

/-- What lies between a position and the next slash has no slash. -/
theorem not_mem_upToSlash (s : Bytes) (pos : Nat) :
    47 ∉ substr s pos (sizeDiff (findFrom (bytes "/") s pos) pos) ∨ s.length < pos := by
  by_cases hpos : pos ≤ s.length
  · left
    rw [findFrom, if_pos hpos, bytes_slash]
    by_cases hslash : 47 ∈ s.drop pos
    · obtain ⟨code, rest, hdrop, hcode⟩ := List.eq_append_cons_of_mem hslash
      have hfind : find [47] (s.drop pos) = some code.length := by
        rw [hdrop, find_append_of_not_mem hcode, show (47 : UInt8) :: rest = [47] ++ rest from rfl,
          find_append_left, Option.map_some, Nat.zero_add]
      rw [hfind, Option.map_some, sizeDiff, if_pos (Nat.le_add_left _ _), Nat.add_sub_cancel,
        substr, hdrop, List.take_left]
      exact hcode
    · have hnone : find [47] (s.drop pos) = none := by
        apply find_eq_none
        rw [List.singleton_infix_iff]
        exact hslash
      rw [hnone, Option.map_none, sizeDiff, substr]
      exact hslash
  · exact .inr (by omega)

/-- **Taken for an error**: with the mark anywhere in it, a message becomes
an error whose code has no slash. -/
theorem translate_error {response : CString}
    (hmark : bytes "BEGIN/ERROR/" <:+: response.bytes) :
    ∃ code message, 47 ∉ code ∧ translateAsciiToHttp response
      = httpResponse (code ++ bytes " Error") (bytes "text/plain") message := by
  obtain ⟨i, hfind⟩ := Option.isSome_iff_exists.mp (find_isSome_iff.mpr hmark)
  have hle := find_le hfind
  rw [show (bytes "BEGIN/ERROR/").length = 12 by decide] at hle
  rw [translateAsciiToHttp]
  simp only [hfind]
  refine ⟨_, _, ?_, rfl⟩
  exact (not_mem_upToSlash response.bytes (i + 12)).resolve_right (by omega)

/-- An error is not the response to a drawing: up to the slash of
`text/plain` the two differ in the status. -/
theorem httpResponse_error_ne {code : Bytes} (hcode : 47 ∉ code) (message content : Bytes) :
    httpResponse (code ++ bytes " Error") (bytes "text/plain") message
      ≠ httpResponse (bytes "200 OK") (bytes "text/plain; charset=utf-8") content := by
  intro h
  have hplain : bytes "text/plain" = bytes "text" ++ 47 :: bytes "plain" := by decide
  have hutf : bytes "text/plain; charset=utf-8"
      = bytes "text" ++ 47 :: bytes "plain; charset=utf-8" := by
    decide
  simp only [httpResponse, hplain, hutf, List.append_assoc, List.append_cancel_left_eq,
    List.cons_append] at h
  have hleft : 47 ∉ code ++ (bytes " Error" ++ (bytes "\r\nContent-Type: " ++ bytes "text")) := by
    rw [List.mem_append]
    exact fun h => h.elim hcode (by decide)
  have hright : 47 ∉ bytes "200 OK" ++ (bytes "\r\nContent-Type: " ++ bytes "text") := by decide
  have hstatus := (sep_inj hleft hright (by simpa only [List.append_assoc] using h)).1
  have hsuffix : bytes " Error" ++ (bytes "\r\nContent-Type: " ++ bytes "text")
      <:+ bytes "200 OK" ++ (bytes "\r\nContent-Type: " ++ bytes "text") :=
    ⟨code, hstatus⟩
  revert hsuffix
  decide

/-- **An error is translated as it is**, whatever its message. -/
theorem translate_errorMessage {code : CString} (hcode : 47 ∉ code.bytes) (message : CString) :
    translateAsciiToHttp (.ofBytes (errorMessage code message)) = errorResponse code message := by
  have hmark : (bytes "BEGIN/ERROR/").length = 12 := by decide
  have hbehind : (errorMessage code message).drop 12
      = code.bytes ++ 47 :: (message.bytes ++ bytes "/END") :=
    List.drop_left' hmark
  have hlen : (errorMessage code message).length
      = 12 + code.bytes.length + 5 + message.bytes.length := by
    rw [errorMessage, List.length_append, List.length_append, List.length_cons,
      List.length_append, hmark, length_endMark]
    omega
  have hcodeEnd : findFrom (bytes "/") (errorMessage code message) 12
      = some (12 + code.bytes.length) := by
    rw [findFrom, if_pos (by omega), hbehind, bytes_slash, find_append_of_not_mem hcode,
      show (47 : UInt8) :: (message.bytes ++ bytes "/END")
        = [47] ++ (message.bytes ++ bytes "/END") from rfl,
      find_append_left, Option.map_some, Option.map_some]
    congr 1
    omega
  have hcut : substr (errorMessage code message) 12 (some code.bytes.length) = code.bytes := by
    rw [substr, hbehind, List.take_left]
  have hrest : substr (errorMessage code message) (12 + code.bytes.length + 1)
      (some message.bytes.length) = message.bytes := by
    rw [substr, show 12 + code.bytes.length + 1 = 12 + (code.bytes.length + 1) by omega,
      ← List.drop_drop, hbehind, ← List.drop_drop, List.drop_left, List.drop_one, List.tail_cons,
      List.take_left]
  have hcount : sizeDiff (some (12 + code.bytes.length)) 12 = some code.bytes.length := by
    rw [sizeDiff, if_pos (Nat.le_add_right _ _), Nat.add_sub_cancel_left]
  have hlast : sizeDiff (some (errorMessage code message).length) (12 + code.bytes.length + 5)
      = some message.bytes.length := by
    rw [hlen, sizeDiff, if_pos (Nat.le_add_right _ _), Nat.add_sub_cancel_left]
  have hfind : find (bytes "BEGIN/ERROR/") (errorMessage code message) = some 0 :=
    find_append_left _ _
  rw [translateAsciiToHttp, errorMessage_bytes]
  simp only [hfind, Nat.zero_add, hcodeEnd, hcount, hlast, hcut, hrest]
  rfl

/-! ## Drawings -/

/-- Without the mark of an error the offsets 9 and `length - 13` cut out the
content. -/
theorem translate_okMessage {content : CString}
    (herror : ¬ bytes "BEGIN/ERROR/" <:+: okMessage content) :
    translateAsciiToHttp (.ofBytes (okMessage content)) = okResponse content := by
  have hok : contains (bytes "BEGIN/OK/") (okMessage content) = true := by
    rw [contains_iff, okMessage, List.append_assoc]
    exact (List.prefix_append _ _).isInfix
  have hcount : sizeDiff (some (okMessage content).length) 13
      = some content.bytes.length := by
    have hlen : (okMessage content).length = 13 + content.bytes.length := by
      rw [okMessage, List.length_append, List.length_append, length_okMark, length_endMark]
      omega
    simp [hlen, sizeDiff]
  have hcut : substr (okMessage content) 9 (some content.bytes.length) = content.bytes := by
    rw [okMessage, substr, List.append_assoc, List.drop_left' length_okMark, List.take_left]
  rw [translateAsciiToHttp, okMessage_bytes, find_eq_none herror]
  simp only [hok, if_true, hcount, hcut]
  rfl

/-- **When nothing is lost.** Every error is translated as it is; a drawing
is, if and only if it does not look like an error. -/
theorem translation_lossless_iff (content : CString) :
    (translateAsciiToHttp (.ofBytes (okMessage content)) = okResponse content
      ∧ ∀ code message : CString, 47 ∉ code.bytes →
        translateAsciiToHttp (.ofBytes (errorMessage code message)) = errorResponse code message)
      ↔ ¬ LooksLikeError content := by
  rw [← error_infix_okMessage_iff]
  constructor
  · intro h hmark
    obtain ⟨code, message, hcode, hhttp⟩ :=
      translate_error (by rwa [okMessage_bytes])
    rw [h.1, okResponse] at hhttp
    exact httpResponse_error_ne hcode message content.bytes hhttp.symm
  · intro hmark
    exact ⟨translate_okMessage hmark, fun _ message hcode => translate_errorMessage hcode message⟩

/-- A drawing that ends with the word. -/
theorem translation_loses :
    ¬ ∀ content : CString,
      translateAsciiToHttp (.ofBytes (okMessage content)) = okResponse content
        ∧ ∀ code message : CString, 47 ∉ code.bytes →
          translateAsciiToHttp (.ofBytes (errorMessage code message))
            = errorResponse code message := by
  intro h
  have hloss := (h (.ofBytes (bytes "BEGIN/ERROR"))).1
  revert hloss
  decide +kernel

end DistributedAscii.Server.Integrated
