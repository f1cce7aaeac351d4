import DistributedAscii.FileSystem.Success
import DistributedAscii.Server.HttpRequests
import DistributedAscii.Server.Returns

/-!
# Server — the language of the ASCII server

However it takes a request apart, `validateRequest` accepts a small
language: `OBJECTS`, and `GET` with a name that has no slash. A disk of at
most 14 files tells the names that are stored from the others, so each of
the three kinds of answers is given to exactly the requests that are due it.
-/

namespace DistributedAscii.Server

open FileSystem Lib.Search

/-! ## The language -/

theorem getMessage_framed (name : Bytes) :
    getMessage name = framed (bytes "GET" ++ 47 :: name) := by
  rw [getMessage_eq, framed, bytes_end]
  simp [show bytes "BEGIN/" = bytes "BEGIN" ++ [47] by decide, bytes_end_word]

theorem framed_get_iff {req ascii : Bytes} :
    badFrame req = false ∧ requestTokens req = [bytes "GET", ascii]
      ↔ 47 ∉ ascii ∧ req = getMessage ascii := by
  rw [getMessage_framed]
  exact framed_drawing_iff

/-- The three kinds of answers. -/
inductive Outcome where
  | ok
  | missing
  | invalid
deriving DecidableEq

/-- How an answer of each kind begins. -/
def Outcome.head : Outcome → Bytes
  | .ok => bytes "BEGIN/OK/"
  | .missing => bytes "BEGIN/ERROR/201/"
  | .invalid => bytes "BEGIN/ERROR/300/"

/-- The list, or a drawing that is stored. -/
def AsksStored (stored : List CString) (request : Bytes) : Prop :=
  request = bytes "BEGIN/OBJECTS/END"
    ∨ ∃ n ∈ stored, 47 ∉ n.bytes ∧ request = getMessage n.bytes

/-- A drawing that is not. -/
def AsksMissing (stored : List CString) (request : Bytes) : Prop :=
  ∃ n : CString, n.bytes ≠ [] ∧ 47 ∉ n.bytes ∧ n ∉ stored ∧ request = getMessage n.bytes

/-- The requests for each kind of answer. -/
def Outcome.Due (stored : List CString) (request : Bytes) : Outcome → Prop
  | .ok => AsksStored stored request
  | .missing => AsksMissing stored request
  | .invalid => ¬ AsksStored stored request ∧ ¬ AsksMissing stored request

/-- No answer is of two kinds. -/
theorem Outcome.eq_of_head {o o' : Outcome} {answer : Bytes} (h : o.head <+: answer)
    (h' : o'.head <+: answer) : o = o' := by
  have hapart : ∀ o o' : Outcome, o ≠ o' → ¬ o.head <+: o'.head := by
    intro o o'
    cases o <;> cases o' <;> decide
  by_contra hne
  rcases le_total o.head.length o'.head.length with hle | hle
  · exact hapart o o' hne (List.prefix_of_prefix_length_le h h' hle)
  · exact hapart o' o (Ne.symm hne) (List.prefix_of_prefix_length_le h' h hle)

theorem getMessage_inj {n n' : Bytes} (h : getMessage n = getMessage n') : n = n' := by
  simpa [getMessage] using h

theorem getMessage_ne_objects (n : Bytes) : getMessage n ≠ bytes "BEGIN/OBJECTS/END" := by
  intro h
  have hseven : (getMessage n).take 7 = bytes "BEGIN/G" := rfl
  rw [h] at hseven
  exact absurd hseven (by decide)

/-- No request is for two kinds. -/
theorem Outcome.eq_of_due {stored : List CString} {request : Bytes} {o o' : Outcome}
    (h : o.Due stored request) (h' : o'.Due stored request) : o = o' := by
  have hapart : AsksStored stored request → ¬ AsksMissing stored request := by
    rintro (rfl | ⟨n, hn, -, rfl⟩) ⟨m, -, -, hm, heq⟩
    · exact getMessage_ne_objects _ heq.symm
    · exact hm (CString.ext (getMessage_inj heq) ▸ hn)
  cases o <;> cases o'
  · rfl
  · exact absurd h' (hapart h)
  · exact absurd h h'.1
  · exact absurd h (hapart h')
  · rfl
  · exact absurd h h'.2
  · exact absurd h' h.1
  · exact absurd h' h.2
  · rfl

/-! ## Answers -/

section Answers

variable {L : Layout} {calls : List WriteCall} {fuel : Nat} {request : CString} {answer : Bytes}

/-- A request that is due another answer than the last one has a frame. -/
theorem badFrame_of_asks {stored : List CString} {req : Bytes}
    (h : AsksStored stored req ∨ AsksMissing stored req) : badFrame req = false := by
  rcases h with (h | ⟨n, -, hslash, h⟩) | ⟨n, -, hslash, -, h⟩
  · exact (framed_objects_iff.mpr h).1
  · exact (framed_get_iff.mpr ⟨hslash, h⟩).1
  · exact (framed_get_iff.mpr ⟨hslash, h⟩).1

/-- With other tokens than those of the language nothing is asked. -/
theorem due_invalid {stored : List CString} {req : Bytes}
    (h : badFrame req = true ∨ (requestTokens req ≠ [bytes "OBJECTS"]
      ∧ ∀ ascii, requestTokens req ≠ [bytes "GET", ascii])) :
    Outcome.invalid.Due stored req := by
  rcases h with hbad | ⟨hobjects, hget⟩
  · refine ⟨fun hasks => ?_, fun hasks => ?_⟩
    · exact absurd (badFrame_of_asks (.inl hasks)) (by simp [hbad])
    · exact absurd (badFrame_of_asks (.inr hasks)) (by simp [hbad])
  · refine ⟨?_, ?_⟩
    · rintro (h | ⟨n, -, hslash, h⟩)
      · exact hobjects (framed_objects_iff.mpr h).2
      · exact hget n.bytes (framed_get_iff.mpr ⟨hslash, h⟩).2
    · rintro ⟨n, -, hslash, -, h⟩
      exact hget n.bytes (framed_get_iff.mpr ⟨hslash, h⟩).2

/-- A `GET` is answered as the directory says. -/
theorem get_due (hL : Layout.Filled calls L) (h14 : calls.length ≤ 14) (name : CString)
    (hpos : 0 < name.length) (hslash : 47 ∉ name.bytes)
    (hanswer : (if existASCII L.toBytes (.ofBytes name.bytes) = exitSuccess then
        (readDrawing fuel L.toBytes (.ofBytes name.bytes)).map (drawingAnswer name.bytes)
      else some (bytes "BEGIN/ERROR/201/El dibujo solicitado no fue encontrado/END"))
        = some answer) :
    ∃ o : Outcome, o.head <+: answer
      ∧ o.Due (calls.map WriteCall.name) (getMessage name.bytes) := by
  have hname : CString.ofBytes name.bytes = name :=
    CString.ext (CString.ofBytes_bytes name.noNul)
  rw [hname] at hanswer
  have hstored : existASCII L.toBytes name = exitSuccess ↔ name ∈ calls.map WriteCall.name := by
    rw [L.existASCII_toBytes_iff hpos, ne_eq, hL.find_eq_none_iff h14, not_not]
  by_cases hexists : existASCII L.toBytes name = exitSuccess
  · rw [if_pos hexists] at hanswer
    obtain ⟨drawing, -, rfl⟩ := Option.map_eq_some_iff.mp hanswer
    refine ⟨.ok, ?_, .inr ⟨name, hstored.mp hexists, hslash, rfl⟩⟩
    rw [drawingAnswer, List.append_assoc, List.append_assoc]
    exact List.prefix_append _ _
  · rw [if_neg hexists] at hanswer
    obtain rfl := Option.some.inj hanswer
    exact ⟨.missing, by decide, name, List.length_pos_iff.mp hpos, hslash,
      fun hmem => hexists (hstored.mpr hmem), rfl⟩

/-- **Every answer is the one that is due.** The cases are those of the
tokens. -/
theorem validateRequest_due (hL : Layout.Filled calls L) (h14 : calls.length ≤ 14)
    (hempty : request.bytes ≠ bytes "BEGIN/GET//END")
    (hanswer : validateRequest fuel L.toBytes request = some answer) :
    ∃ o : Outcome, o.head <+: answer
      ∧ o.Due (calls.map WriteCall.name) request.bytes := by
  rw [validateRequest] at hanswer
  by_cases hnil : request.bytes = []
  · rw [if_pos hnil] at hanswer
    obtain rfl := Option.some.inj hanswer
    refine ⟨.invalid, by decide, due_invalid (.inl ?_)⟩
    rw [hnil]
    decide
  rw [if_neg hnil] at hanswer
  cases hframe : badFrame request.bytes with
  | true =>
      rw [hframe, if_pos rfl] at hanswer
      obtain rfl := Option.some.inj hanswer
      exact ⟨.invalid, by decide, due_invalid (.inl hframe)⟩
  | false =>
      rw [hframe, if_neg Bool.false_ne_true] at hanswer
      by_cases hobjects : requestTokens request.bytes = [bytes "OBJECTS"]
      · -- the list
        rw [hobjects] at hanswer
        obtain rfl := Option.some.inj ((if_pos rfl).symm.trans hanswer)
        refine ⟨.ok, ?_, .inl (framed_objects_iff.mp ⟨hframe, hobjects⟩)⟩
        rw [objectsAnswer, List.append_assoc]
        exact List.prefix_append _ _
      by_cases hget : ∃ ascii, requestTokens request.bytes = [bytes "GET", ascii]
      · -- a drawing, whose name is a part of the request
        obtain ⟨ascii, htokens⟩ := hget
        obtain ⟨hslash, hrequest⟩ := framed_get_iff.mp ⟨hframe, htokens⟩
        have hnul : 0 ∉ ascii := by
          intro h0
          apply request.noNul
          rw [hrequest, getMessage]
          simp [h0]
        have hpos : 0 < ascii.length := by
          rw [List.length_pos_iff]
          rintro rfl
          exact hempty hrequest
        rw [htokens] at hanswer
        rw [hrequest]
        exact get_due hL h14 ⟨ascii, hnul⟩ hpos hslash
          ((if_pos rfl).symm.trans hanswer)
      · -- anything else is not recognised
        have hlast : some (bytes "BEGIN/ERROR/300/Mensaje no reconocido por el protocolo/END")
            = some answer := by
          rw [← hanswer]
          split
          · rename_i command htokens
            rw [if_neg]
            rintro rfl
            exact hobjects htokens
          · rename_i command ascii htokens
            rw [if_neg]
            rintro rfl
            exact hget ⟨ascii, htokens⟩
          · rfl
        obtain rfl := Option.some.inj hlast
        exact ⟨.invalid, by decide, due_invalid (.inr ⟨hobjects, fun ascii h => hget ⟨ascii, h⟩⟩)⟩

end Answers

/-- **The language of the server.** Nothing throws, every request is
answered, and each kind of answer is given to exactly the requests that are
due it. -/
theorem validateRequest_language {host : Host} {calls : List WriteCall} {request : CString}
    (hcalls : Succeeds host calls) (h14 : calls.length ≤ 14)
    (hempty : request.bytes ≠ bytes "BEGIN/GET//END") :
    InRange (frameCuts request.bytes) ∧ Answered (runWrites host calls) request
      ∧ ∀ fuel answer, validateRequest fuel (runWrites host calls) request = some answer →
        ∀ o : Outcome, o.head <+: answer
          ↔ o.Due (calls.map WriteCall.name) request.bytes := by
  obtain ⟨L, hdisk, hL⟩ := hcalls.filled (by omega)
  rw [hdisk]
  refine ⟨inRange_frame _, answered_of_readable hL.toReadable hempty, ?_⟩
  intro fuel answer hanswer o
  obtain ⟨o', hhead, hdue⟩ := validateRequest_due hL h14 hempty hanswer
  constructor
  · intro h
    rwa [Outcome.eq_of_head h hhead]
  · intro h
    rwa [Outcome.eq_of_due h hdue]

/-- Fourteen drawings, and a request for the first of them. -/
theorem validateRequest_language_a :
    ∃ fuel answer, validateRequest fuel (runWrites (fun _ => some []) (letters 14))
        (.ofBytes (bytes "BEGIN/GET/a/END")) = some answer ∧ bytes "BEGIN/OK/" <+: answer := by
  obtain ⟨-, ⟨fuel, answer, hanswer⟩, hkinds⟩ := validateRequest_language
    (succeeds_letters.of_prefix (letters_prefix_letters (show 14 ≤ 15 by decide))) (by decide)
    (show (CString.ofBytes (bytes "BEGIN/GET/a/END")).bytes ≠ bytes "BEGIN/GET//END" by decide)
  refine ⟨fuel, answer, hanswer, (hkinds fuel answer hanswer .ok).mpr (.inr ?_)⟩
  exact ⟨(letter 0).name, by decide, by decide, by decide⟩

end DistributedAscii.Server
