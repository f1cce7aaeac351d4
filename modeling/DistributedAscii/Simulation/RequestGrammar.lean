import DistributedAscii.Simulation.Framing

/-!
# Simulation — the requests that the tenedor takes

`buildRequest` looks at the first four characters of a line and at the last
eight, cuts one character off at each end of what lies between without
looking at it, takes a slash off and splits the rest. With `std::stoi` for
the number it takes more lines than the two kinds it is for; the others it
refuses.
-/

namespace DistributedAscii.Simulation

open Lib.Search Server

/-! ## Numbers -/

section Numbers

theorem stoi_neg_decimal (n : Nat) :
    stoi (45 :: decimal n) = if (n : Int) ≤ 2147483648 then some (-(n : Int)) else none := by
  have htake : (decimal n).takeWhile isDigit = decimal n :=
    List.takeWhile_eq_self_iff.mpr fun b hb => isDigit_of_mem_decimal hb
  have hblank : (45 :: decimal n).dropWhile isSpace = 45 :: decimal n := rfl
  have hhigh : -(n : Int) ≤ 2147483647 := by omega
  have hlow : -2147483648 ≤ -(n : Int) ↔ (n : Int) ≤ 2147483648 := by omega
  simp [stoi, hblank, takeSign, htake, decimal_ne_nil, digitsValue_decimal, hhigh, hlow]

/-- **A number is read back**, if it is an `int`. -/
theorem stoi_decimalInt_eq (n : Int) : stoi (decimalInt n)
    = if -2147483648 ≤ n ∧ n ≤ 2147483647 then some n else none := by
  rw [decimalInt]
  split
  · rw [stoi_neg_decimal, show -(n.natAbs : Int) = n by omega]
    congr 1
    rw [eq_iff_iff]
    omega
  · have hread := stoi_decimal_eq n.natAbs (by simp : ∀ b ∈ ([] : Bytes).head?, isDigit b = false)
    rw [List.append_nil, show (n.natAbs : Int) = n by omega] at hread
    rw [hread]
    congr 1
    rw [eq_iff_iff]
    omega

theorem stoi_decimalInt (id : Int32) : stoi (decimalInt id.toInt) = some id.toInt := by
  have hlow := id.le_toInt
  have hhigh := id.toInt_lt
  rw [stoi_decimalInt_eq, if_pos (by omega)]

/-- The text of an `int` is the text of no other number. -/
theorem decimalInt_inj {id : Int32} {n : Int} (h : decimalInt id.toInt = decimalInt n) :
    id.toInt = n := by
  have hread := stoi_decimalInt id
  rw [h, stoi_decimalInt_eq] at hread
  split at hread
  · exact (Option.some.inj hread).symm
  · cases hread

/-- Only digits and a sign. -/
theorem not_mem_decimalInt {n : Int} {b : UInt8} (hb : isDigit b = false) (hsign : b ≠ 45) :
    b ∉ decimalInt n := by
  have hdigits : b ∉ decimal n.natAbs := by
    intro h
    rw [isDigit_of_mem_decimal h] at hb
    cases hb
  rw [decimalInt]
  split
  · rw [List.mem_cons]
    exact fun h => h.elim hsign hdigits
  · exact hdigits

end Numbers

/-! ## Lines -/

/-- A line of the right ends: `c` and `d` are the characters that are cut off. -/
def line (c d : UInt8) (mid : Bytes) : Bytes :=
  bytes "GET " ++ c :: (mid ++ d :: bytes "HTTP/1.1")

/-- What is split, without the slash in front. -/
def stripped (mid : Bytes) : Bytes :=
  if mid.head? = some 47 then mid.tail else mid

/-- `buildRequest` behind the checks of the line. -/
def route (serverFigures : ServerFigures) (content : Bytes) : Except Bytes Bytes :=
  if (content.splitOn 47).getLast? = some [] then .error httpBadRequest
  else
    match content.splitOn 47 with
    | [object] =>
        if object = bytes "objects" then .error (httpObtenerObjects serverFigures)
        else .error httpBadRequest
    | [object, id, objectName] =>
        if object = bytes "object" then
          match stoi id with
          | none => .error httpBadRequest
          | some objectId =>
              if hasFigure serverFigures objectId objectName then
                .ok (bytes "BEGIN/GET/" ++ objectName ++ bytes "/END")
              else .error httpBadRequest
        else .error httpBadRequest
    | _ => .error httpBadRequest

/-- The one `substr` that could throw, if it is reached. -/
def requestCuts (request : Bytes) : List (Bytes × Option Nat) :=
  let stop := position (rfind (bytes "HTTP/1.1") request)
  if position (find (bytes "GET ") request) ≠ 0 || stop ≠ sizeSub request.length 8 then []
  else if stop = npos || stop ≤ 5 then []
  else [(request, some 5)]

section Lines

variable {serverFigures : ServerFigures} {c d c' d' : UInt8} {mid mid' request : Bytes}

theorem length_GET : (bytes "GET ").length = 4 := by decide

theorem length_version : (bytes "HTTP/1.1").length = 8 := by decide

theorem length_line (c d : UInt8) (mid : Bytes) : (line c d mid).length = mid.length + 14 := by
  simp only [line, List.length_append, List.length_cons, length_GET, length_version]
  omega

theorem line_inj (h : line c d mid = line c' d' mid') : c = c' ∧ mid = mid' ∧ d = d' := by
  rw [line, line, List.append_cancel_left_eq] at h
  obtain ⟨hc, hrest⟩ := List.cons.inj h
  obtain ⟨hmid, htail⟩ := List.append_inj' hrest rfl
  exact ⟨hc, hmid, (List.cons.inj htail).1⟩

theorem rfind_line (c d : UInt8) (mid : Bytes) :
    rfind (bytes "HTTP/1.1") (line c d mid) = some (mid.length + 6) := by
  have hfront : line c d mid = (bytes "GET " ++ c :: (mid ++ [d])) ++ bytes "HTTP/1.1" := by
    simp [line]
  rw [hfront, rfind_append_self]
  congr 1
  simp only [List.length_append, List.length_cons, List.length_nil, length_GET]
  omega

theorem requestContent_line (c d : UInt8) (mid : Bytes) :
    requestContent (line c d mid) = stripped mid := by
  have hdrop : (line c d mid).drop 5 = mid ++ d :: bytes "HTTP/1.1" := by
    have hfront : line c d mid = (bytes "GET " ++ [c]) ++ (mid ++ d :: bytes "HTTP/1.1") := by
      simp [line]
    rw [hfront]
    exact List.drop_left' rfl
  have hcut : substr (line c d mid) 5 (some (mid.length + 6 - 5 - 1)) = mid := by
    rw [substr, hdrop, show mid.length + 6 - 5 - 1 = mid.length by omega, List.take_left]
  rw [requestContent, rfind_line, position, Option.getD_some, hcut]
  rfl

/-- **The two ends of a line are all that is checked.** -/
theorem buildRequest_line (hsize : (line c d mid).length < npos) :
    buildRequest serverFigures (line c d mid) = route serverFigures (stripped mid) := by
  have hget : find (bytes "GET ") (line c d mid) = some 0 := find_append_left _ _
  have hsub : sizeSub (line c d mid).length 8 = mid.length + 6 := by
    rw [length_line] at hsize ⊢
    rw [npos] at hsize
    rw [sizeSub]
    omega
  have hend : mid.length + 6 ≠ npos ∧ ¬ mid.length + 6 ≤ 5 := by
    rw [length_line] at hsize
    omega
  rw [buildRequest, hget, rfind_line, hsub, requestContent_line]
  simp only [position, Option.getD_some, ne_eq, not_true_eq_false, decide_false, Bool.or_self,
    Bool.false_eq_true, if_false, hend]
  rfl

/-- Where the last `HTTP/1.1` is eight characters from the end, it is the
end. -/
theorem drop_of_rfind {stop : Nat} (hsize : request.length < npos)
    (hlast : rfind (bytes "HTTP/1.1") request = some stop)
    (hstop : stop = sizeSub request.length 8) :
    request.length = stop + 8 ∧ request.drop stop = bytes "HTTP/1.1" := by
  have hpattern := prefix_drop_of_rfind hlast
  have hfits := hpattern.length_le
  rw [List.length_drop, length_version] at hfits
  have hlen : request.length = stop + 8 := by
    rw [sizeSub, npos] at *
    omega
  refine ⟨hlen, (hpattern.eq_of_length ?_).symm⟩
  rw [List.length_drop, length_version]
  omega

theorem prefix_of_find (hget : position (find (bytes "GET ") request) = 0) :
    bytes "GET " <+: request := by
  cases hfound : find (bytes "GET ") request with
  | none =>
      rw [hfound] at hget
      exact absurd hget (by decide)
  | some i =>
      rw [hfound] at hget
      obtain rfl : i = 0 := hget
      exact prefix_drop_of_find hfound

/-- The front, one character, the middle, one character, the tail. -/
theorem line_of_ends {rest : Bytes} {stop : Nat} (hlong : 5 < stop)
    (hlen : (bytes "GET " ++ rest).length = stop + 8)
    (htail : (bytes "GET " ++ rest).drop stop = bytes "HTTP/1.1") :
    ∃ c d mid, bytes "GET " ++ rest = line c d mid := by
  rw [List.length_append, length_GET] at hlen
  cases rest with
  | nil =>
      rw [List.length_nil] at hlen
      omega
  | cons c rest =>
      rw [List.length_cons] at hlen
      have hsplit : rest = rest.take (stop - 5) ++ bytes "HTTP/1.1" := by
        have hdrop : (bytes "GET " ++ c :: rest).drop stop = rest.drop (stop - 5) := by
          rw [show stop = (bytes "GET ").length + (1 + (stop - 5)) by rw [length_GET]; omega,
            List.drop_length_add_append, ← List.drop_drop, List.drop_one, List.tail_cons]
          congr 1
          rw [length_GET]
          omega
        rw [← htail, hdrop, List.take_append_drop]
      have hne : rest.take (stop - 5) ≠ [] := by
        intro hnil
        rw [hnil, List.nil_append] at hsplit
        rw [hsplit, length_version] at hlen
        omega
      refine ⟨c, (rest.take (stop - 5)).getLast hne, (rest.take (stop - 5)).dropLast, ?_⟩
      rw [line, List.append_cancel_left_eq, List.cons_eq_cons]
      refine ⟨rfl, ?_⟩
      rw [List.append_cons, List.dropLast_append_getLast, ← hsplit]

/-- A request that passes the checks is a line. -/
theorem line_of_checks (hsize : request.length < npos)
    (hget : position (find (bytes "GET ") request) = 0)
    (hstop : position (rfind (bytes "HTTP/1.1") request) = sizeSub request.length 8)
    (hlong : position (rfind (bytes "HTTP/1.1") request) ≠ npos
      ∧ ¬ position (rfind (bytes "HTTP/1.1") request) ≤ 5) :
    ∃ c d mid, request = line c d mid := by
  cases hlast : rfind (bytes "HTTP/1.1") request with
  | none =>
      rw [hlast] at hlong
      exact absurd rfl hlong.1
  | some stop =>
      rw [hlast, position, Option.getD_some] at hstop hlong
      obtain ⟨hlen, htail⟩ := drop_of_rfind hsize hlast hstop
      obtain ⟨rest, rfl⟩ := prefix_of_find hget
      exact line_of_ends (Nat.lt_of_not_le hlong.2) hlen htail

/-- Everything else is a bad request. -/
theorem buildRequest_other (hsize : request.length < npos)
    (h : ¬ ∃ c d mid, request = line c d mid) :
    buildRequest serverFigures request = .error httpBadRequest := by
  rw [buildRequest]
  dsimp only
  split
  · rfl
  · rename_i hchecks
    split
    · rfl
    · rename_i hlong
      simp only [Bool.or_eq_true, decide_eq_true_eq, not_or, ne_eq, not_not] at hchecks hlong
      exact absurd (line_of_checks hsize hchecks.1 hchecks.2 hlong) h

/-- Nothing throws. -/
theorem inRange_requestCuts (hsize : request.length < npos) : InRange (requestCuts request) := by
  rw [requestCuts]
  split
  · exact inRange_nil
  · rename_i hchecks
    split
    · exact inRange_nil
    · rename_i hlong
      simp only [Bool.or_eq_true, decide_eq_true_eq, not_or, ne_eq, not_not] at hchecks hlong
      obtain ⟨c, d, mid, rfl⟩ := line_of_checks hsize hchecks.1 hchecks.2 hlong
      rw [inRange_cons_iff, length_line]
      exact ⟨by omega, inRange_nil⟩

end Lines

/-! ## What a line asks for -/

/-- The content asks for a figure that is there, by a text that reads as the
number of its server. -/
structure AsksFor (serverFigures : ServerFigures) (content id objectName : Bytes)
    (objectId : Int) : Prop where
  content_eq : content = bytes "object" ++ 47 :: (id ++ 47 :: objectName)
  id_slash : 47 ∉ id
  name_slash : 47 ∉ objectName
  name_ne : objectName ≠ []
  stoi_eq : stoi id = some objectId
  found : hasFigure serverFigures objectId objectName = true

section Routes

variable {serverFigures : ServerFigures} {content id objectName : Bytes} {objectId : Int}

theorem hasFigure_iff : hasFigure serverFigures objectId objectName = true
    ↔ ∃ figure ∈ serverFigures, figure.1.toInt = objectId ∧ objectName ∈ figure.2 := by
  simp [hasFigure]

theorem route_objects (serverFigures : ServerFigures) :
    route serverFigures (bytes "objects") = .error (httpObtenerObjects serverFigures) := by
  have hsplit : (bytes "objects").splitOn 47 = [bytes "objects"] := by decide
  rw [route, hsplit, if_neg (by decide)]
  rfl

theorem AsksFor.splitOn (h : AsksFor serverFigures content id objectName objectId) :
    content.splitOn 47 = [bytes "object", id, objectName] :=
  splitOn_eq_triple_iff.mpr ⟨h.content_eq, by decide, h.id_slash, h.name_slash⟩

theorem AsksFor.ne_objects (h : AsksFor serverFigures content id objectName objectId) :
    content ≠ bytes "objects" := by
  rintro rfl
  have hsplit := congrArg List.length h.splitOn
  rw [show (bytes "objects").splitOn 47 = [bytes "objects"] by decide] at hsplit
  cases hsplit

/-- A content asks for one figure only. -/
theorem AsksFor.unique (h : AsksFor serverFigures content id objectName objectId)
    {id' objectName' : Bytes} {objectId' : Int}
    (h' : AsksFor serverFigures content id' objectName' objectId') :
    id = id' ∧ objectName = objectName' ∧ objectId = objectId' := by
  have hsplit := h'.splitOn
  rw [h.splitOn] at hsplit
  obtain ⟨rfl, rfl⟩ : id = id' ∧ objectName = objectName' := by simpa using hsplit
  exact ⟨rfl, rfl, Option.some.inj (h.stoi_eq.symm.trans h'.stoi_eq)⟩

theorem route_found (h : AsksFor serverFigures content id objectName objectId) :
    route serverFigures content = .ok (bytes "BEGIN/GET/" ++ objectName ++ bytes "/END") := by
  rw [route, h.splitOn, if_neg (by simpa using h.name_ne)]
  simp only [if_true, h.stoi_eq, h.found]

/-- Everything else is refused. -/
theorem route_other (hobjects : content ≠ bytes "objects")
    (hasks : ∀ id objectName objectId, ¬ AsksFor serverFigures content id objectName objectId) :
    route serverFigures content = .error httpBadRequest := by
  rw [route]
  split
  · rfl
  · rename_i hlast
    split
    · rename_i object hsplit
      rw [if_neg]
      rintro rfl
      exact hobjects (splitOn_eq_singleton_iff.mp hsplit).1
    · rename_i object id objectName hsplit
      split
      · rename_i hobject
        split
        · rfl
        · rename_i objectId hstoi
          rw [if_neg]
          intro hfound
          obtain ⟨hcontent, -, hid, hname⟩ := splitOn_eq_triple_iff.mp hsplit
          refine hasks id objectName objectId ⟨hobject ▸ hcontent, hid, hname, ?_, hstoi, hfound⟩
          rintro rfl
          rw [hsplit] at hlast
          exact hlast rfl
      · rfl
    · rfl

/-- The list and a refusal differ in their status. -/
theorem objects_ne_badRequest (serverFigures : ServerFigures) :
    httpObtenerObjects serverFigures ≠ httpBadRequest := by
  intro h
  have hstatus : ∀ status body : Bytes, (httpResponse (bytes "200 OK") body).take 12
      = bytes "HTTP/1.1 200" := by
    intro status body
    rw [httpResponse]
    simp only [List.append_assoc]
    rfl
  have hhead := congrArg (List.take 12) h
  rw [httpObtenerObjects, hstatus [] _] at hhead
  revert hhead
  decide

end Routes

/-! ## The grammar -/

/-- The request for a figure of a registered server. -/
def AsksFigure (serverFigures : ServerFigures) (request : Bytes) : Prop :=
  ∃ figure ∈ serverFigures, ∃ objectName ∈ figure.2, objectName ≠ [] ∧ 47 ∉ objectName
    ∧ request = bytes "GET /object/" ++ decimalInt figure.1.toInt ++ bytes "/" ++ objectName
      ++ bytes " HTTP/1.1"

def objectsRequest : Bytes :=
  bytes "GET /objects HTTP/1.1"

/-- The tenedor takes the request for what it is. -/
structure Exact (serverFigures : ServerFigures) (request : Bytes) : Prop where
  success : (∃ message, buildRequest serverFigures request = .ok message)
    ↔ AsksFigure serverFigures request
  page : buildRequest serverFigures request = .error (httpObtenerObjects serverFigures)
    ↔ request = objectsRequest
  bad : ¬ AsksFigure serverFigures request → request ≠ objectsRequest →
    buildRequest serverFigures request = .error httpBadRequest
  inRange : InRange (requestCuts request)

/-- A line with a slash and a blank where they are not looked at, and no
second slash. -/
def Plain (c d : UInt8) (mid : Bytes) : Prop :=
  c = 47 ∧ d = 32 ∧ mid.head? ≠ some 47

/-- A line that is taken although it is no request: another character is
where a slash or a blank should be, a second slash follows the first, or the
number is not written as one (blanks, a sign or zeros in front, anything
behind). -/
def Misspelt (serverFigures : ServerFigures) (request : Bytes) : Prop :=
  ∃ c d mid, request = line c d mid
    ∧ ((stripped mid = bytes "objects" ∧ ¬ Plain c d mid)
      ∨ ∃ id objectName objectId, AsksFor serverFigures (stripped mid) id objectName objectId
        ∧ ¬ (Plain c d mid ∧ id = decimalInt objectId))

section Grammar

variable {serverFigures : ServerFigures} {request : Bytes}

theorem objectsRequest_eq : objectsRequest = line 47 32 (bytes "objects") := by decide

theorem stripped_of_plain {c d : UInt8} {mid : Bytes} (h : Plain c d mid) :
    stripped mid = mid :=
  if_neg h.2.2

/-- The text of a request for a figure is a line. -/
theorem figure_line (id objectName : Bytes) :
    bytes "GET /object/" ++ id ++ bytes "/" ++ objectName ++ bytes " HTTP/1.1"
      = line 47 32 (bytes "object" ++ 47 :: (id ++ 47 :: objectName)) := by
  simp only [line, List.append_assoc, show bytes "GET /object/" = bytes "GET " ++ 47 ::
    (bytes "object" ++ [47]) by decide, show bytes "/" = [47] by decide,
    show bytes " HTTP/1.1" = 32 :: bytes "HTTP/1.1" by decide, List.cons_append, List.nil_append]

theorem head_object (rest : Bytes) : (bytes "object" ++ rest).head? ≠ some 47 := by
  rw [show bytes "object" = 111 :: bytes "bject" by decide]
  simp

/-- The request for a figure as a line. -/
theorem asksFigure_iff : AsksFigure serverFigures request
    ↔ ∃ mid id objectName objectId, request = line 47 32 mid ∧ mid.head? ≠ some 47
      ∧ AsksFor serverFigures mid id objectName objectId ∧ id = decimalInt objectId := by
  constructor
  · rintro ⟨figure, hfigure, objectName, hname, hne, hslash, rfl⟩
    refine ⟨_, _, objectName, figure.1.toInt, figure_line _ _, head_object _,
      ⟨rfl, ?_, hslash, hne, ?_, ?_⟩, rfl⟩
    · exact not_mem_decimalInt (by decide) (by decide)
    · exact stoi_decimalInt figure.1
    · exact hasFigure_iff.mpr ⟨figure, hfigure, rfl, hname⟩
  · rintro ⟨mid, id, objectName, objectId, rfl, -, h, rfl⟩
    obtain ⟨figure, hfigure, rfl, hname⟩ := hasFigure_iff.mp h.found
    refine ⟨figure, hfigure, objectName, hname, h.name_ne, h.name_slash, ?_⟩
    rw [h.content_eq, figure_line]

/-- What asks for nothing and is refused is taken for what it is. -/
theorem exact_of_bad (hsize : request.length < npos)
    (hbad : buildRequest serverFigures request = .error httpBadRequest)
    (hfigure : ¬ AsksFigure serverFigures request) (hobjects : request ≠ objectsRequest) :
    Exact serverFigures request := by
  constructor
  · rw [hbad]
    simp [hfigure]
  · rw [hbad]
    simp only [hobjects, iff_false]
    exact fun heq => objects_ne_badRequest serverFigures (Except.error.inj heq).symm
  · exact fun _ _ => hbad
  · exact inRange_requestCuts hsize

/-- A request that is no line is refused, as the grammar has it. -/
theorem exact_other (hsize : request.length < npos) (h : ¬ ∃ c d mid, request = line c d mid) :
    Exact serverFigures request := by
  refine exact_of_bad hsize (buildRequest_other hsize h) ?_ ?_
  · rw [asksFigure_iff]
    rintro ⟨mid, -, -, -, hline, -⟩
    exact h ⟨47, 32, mid, hline⟩
  · exact fun heq => h ⟨47, 32, _, heq.trans objectsRequest_eq⟩

/-- The line of the list: exact iff nothing in it is misspelt. -/
theorem exact_objects_iff {c d : UInt8} {mid : Bytes} (hsize : (line c d mid).length < npos)
    (hcontent : stripped mid = bytes "objects") :
    Exact serverFigures (line c d mid) ↔ Plain c d mid := by
  have hpage : buildRequest serverFigures (line c d mid)
      = .error (httpObtenerObjects serverFigures) := by
    rw [buildRequest_line hsize, hcontent, route_objects]
  have hrequest : line c d mid = objectsRequest ↔ Plain c d mid := by
    rw [objectsRequest_eq]
    constructor
    · intro h
      obtain ⟨rfl, rfl, rfl⟩ := line_inj h
      exact ⟨rfl, rfl, by decide⟩
    · intro h
      rw [← hcontent, stripped_of_plain h, h.1, h.2.1]
  constructor
  · exact fun h => hrequest.mp (h.page.mp hpage)
  · intro hplain
    have hfigure : ¬ AsksFigure serverFigures (line c d mid) := by
      rw [asksFigure_iff]
      rintro ⟨mid', id, objectName, objectId, hline, -, hasks, -⟩
      obtain ⟨-, rfl, -⟩ := line_inj hline
      rw [stripped_of_plain hplain] at hcontent
      exact hasks.ne_objects hcontent
    constructor
    · rw [hpage]
      simp [hfigure]
    · simp [hpage, hrequest, hplain]
    · exact fun _ h => absurd (hrequest.mpr hplain) h
    · exact inRange_requestCuts hsize

/-- The line of a figure: exact iff nothing in it is misspelt. -/
theorem exact_figure_iff {c d : UInt8} {mid id objectName : Bytes} {objectId : Int}
    (hsize : (line c d mid).length < npos)
    (hasks : AsksFor serverFigures (stripped mid) id objectName objectId) :
    Exact serverFigures (line c d mid) ↔ Plain c d mid ∧ id = decimalInt objectId := by
  have hok : buildRequest serverFigures (line c d mid)
      = .ok (bytes "BEGIN/GET/" ++ objectName ++ bytes "/END") := by
    rw [buildRequest_line hsize, route_found hasks]
  have hobjects : line c d mid ≠ objectsRequest := by
    rw [objectsRequest_eq]
    intro h
    obtain ⟨-, rfl, -⟩ := line_inj h
    exact hasks.ne_objects (by decide)
  have hfigure : AsksFigure serverFigures (line c d mid)
      ↔ Plain c d mid ∧ id = decimalInt objectId := by
    rw [asksFigure_iff]
    constructor
    · rintro ⟨mid', id', objectName', objectId', hline, hhead, hasks', hid⟩
      obtain ⟨rfl, rfl, rfl⟩ := line_inj hline
      have hplain : Plain 47 32 mid := ⟨rfl, rfl, hhead⟩
      rw [stripped_of_plain hplain] at hasks
      obtain ⟨rfl, rfl, rfl⟩ := hasks.unique hasks'
      exact ⟨hplain, hid⟩
    · rintro ⟨hplain, hid⟩
      rw [stripped_of_plain hplain] at hasks
      exact ⟨mid, id, objectName, objectId, by rw [hplain.1, hplain.2.1], hplain.2.2, hasks, hid⟩
  rw [← hfigure]
  constructor
  · exact fun h => h.success.mp ⟨_, hok⟩
  · intro h
    constructor
    · exact ⟨fun _ => h, fun _ => ⟨_, hok⟩⟩
    · rw [hok]
      simp [hobjects]
    · exact fun hno => absurd h hno
    · exact inRange_requestCuts hsize

/-- A line that asks for nothing is refused. -/
theorem exact_refused {c d : UInt8} {mid : Bytes} (hsize : (line c d mid).length < npos)
    (hobjects : stripped mid ≠ bytes "objects")
    (hasks : ∀ id objectName objectId,
      ¬ AsksFor serverFigures (stripped mid) id objectName objectId) :
    Exact serverFigures (line c d mid) := by
  have hbad : buildRequest serverFigures (line c d mid) = .error httpBadRequest := by
    rw [buildRequest_line hsize, route_other hobjects hasks]
  refine exact_of_bad hsize hbad ?_ ?_
  · rw [asksFigure_iff]
    rintro ⟨mid', id, objectName, objectId, hline, hhead, hasks', -⟩
    obtain ⟨-, rfl, -⟩ := line_inj hline
    exact hasks id objectName objectId (by rwa [stripped, if_neg hhead])
  · rw [objectsRequest_eq]
    intro h
    obtain ⟨-, rfl, -⟩ := line_inj h
    exact hobjects (by decide)

/-- A line can be cut in one way only. -/
theorem misspelt_line_iff {c d : UInt8} {mid : Bytes} : Misspelt serverFigures (line c d mid)
    ↔ (stripped mid = bytes "objects" ∧ ¬ Plain c d mid)
      ∨ ∃ id objectName objectId, AsksFor serverFigures (stripped mid) id objectName objectId
        ∧ ¬ (Plain c d mid ∧ id = decimalInt objectId) := by
  constructor
  · rintro ⟨c', d', mid', hline, hmis⟩
    obtain ⟨rfl, rfl, rfl⟩ := line_inj hline
    exact hmis
  · exact fun hmis => ⟨c, d, mid, rfl, hmis⟩

/-- **The grammar of the tenedor**: it takes a request for what it is iff the
request is not a misspelt one. -/
theorem exact_iff (serverFigures : ServerFigures) (hsize : request.length < npos) :
    Exact serverFigures request ↔ ¬ Misspelt serverFigures request := by
  by_cases hline : ∃ c d mid, request = line c d mid
  case neg =>
    simp only [exact_other hsize hline, true_iff]
    rintro ⟨c, d, mid, heq, -⟩
    exact hline ⟨c, d, mid, heq⟩
  case pos =>
    obtain ⟨c, d, mid, rfl⟩ := hline
    rw [misspelt_line_iff, not_or]
    by_cases hobjects : stripped mid = bytes "objects"
    case pos =>
      rw [exact_objects_iff hsize hobjects]
      constructor
      · exact fun hplain => ⟨fun h => h.2 hplain,
          fun ⟨_, _, _, hasks, _⟩ => hasks.ne_objects hobjects⟩
      · exact fun h => by_contra fun hplain => h.1 ⟨hobjects, hplain⟩
    case neg =>
      by_cases hasks : ∃ id objectName objectId,
          AsksFor serverFigures (stripped mid) id objectName objectId
      case pos =>
        obtain ⟨id, objectName, objectId, hasks⟩ := hasks
        rw [exact_figure_iff hsize hasks]
        constructor
        · rintro hplain
          refine ⟨fun h => hobjects h.1, ?_⟩
          rintro ⟨id', objectName', objectId', hasks', hmis⟩
          obtain ⟨rfl, rfl, rfl⟩ := hasks.unique hasks'
          exact hmis hplain
        · exact fun h => by_contra fun hplain => h.2 ⟨id, objectName, objectId, hasks, hplain⟩
      case neg =>
        have hnone : ∀ id objectName objectId,
            ¬ AsksFor serverFigures (stripped mid) id objectName objectId :=
          fun id objectName objectId h => hasks ⟨id, objectName, objectId, h⟩
        simp only [exact_refused hsize hobjects hnone, true_iff]
        exact ⟨fun h => hobjects h.1, fun ⟨_, _, _, h, _⟩ => hnone _ _ _ h⟩

end Grammar

/-- The request for the list. -/
theorem exact_list : Exact [(0, [bytes "Goku.txt"])] objectsRequest := by
  refine (exact_iff _ (by decide)).mpr ?_
  rw [objectsRequest_eq, misspelt_line_iff]
  rintro (⟨-, hmis⟩ | ⟨id, objectName, objectId, hasks, -⟩)
  · exact hmis ⟨rfl, rfl, by decide⟩
  · exact hasks.ne_objects (by decide)

/-- A letter where the slash should be. -/
theorem not_exact_letter :
    ¬ ∀ (serverFigures : ServerFigures) (request : Bytes), request.length < npos →
      Exact serverFigures request := by
  intro h
  have hexact := h [] (line 120 32 (bytes "objects")) (by decide)
  rw [exact_objects_iff (by decide) (by decide)] at hexact
  exact absurd hexact.1 (by decide)

end DistributedAscii.Simulation
