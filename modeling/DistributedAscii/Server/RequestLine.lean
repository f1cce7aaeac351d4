import DistributedAscii.Server.IntegratedServer

/-!
# Server — routing and the request line

`translateHttpToAscii` searches the whole request for its marks, in a fixed
order, so a mark behind the request line counts as much as one in it. No
mark has a line break, so each is found in the line or behind it, and two
requests with one line differ in what stands behind it only: the first mark
in the order of the tests, and the text that becomes the name.
-/

namespace DistributedAscii.Server

open Lib.Search

/-- The request up to its first line break. -/
def requestLine (request : Bytes) : Bytes :=
  match find (bytes "\r\n") request with
  | some i => request.take i
  | none => request

/-- What follows the request line. -/
def behindLine (request : Bytes) : Bytes :=
  match find (bytes "\r\n") request with
  | some i => request.drop i
  | none => []

/-- The marks of the routes, in the order of the tests. -/
def routeMarks : List Bytes :=
  [bytes "GET /objects", bytes "GET /get/", bytes "POST /on/server", bytes "POST /on/fork",
    bytes "POST /off/server"]

/-- The place of the first mark that is in a text, 5 if there is none. -/
def firstMark (s : Bytes) : Nat :=
  routeMarks.findIdx fun mark => contains mark s

/-- The mark that decides for a request; `GET /get/` does not without a
` HTTP/` somewhere. -/
def routeOf (line rest : Bytes) : Nat :=
  if min (firstMark line) (firstMark rest) = 1
      ∧ ¬ (contains (bytes " HTTP/") line ∨ contains (bytes " HTTP/") rest) then 5
  else min (firstMark line) (firstMark rest)

/-- The text behind a mark that is found at `i`, up to a ` HTTP/` at `e`, or
to the end if that comes earlier. -/
def nameBetween (s : Bytes) (i e : Nat) : Bytes :=
  substr s (i + 9) (sizeDiff (some e) (i + 9))

/-- Two texts behind one request line give the same name. If the line has
both marks in their order the name lies in it; if only one of them is in the
line, the other end of the name lies behind it. -/
def SameName (line rest₁ rest₂ : Bytes) : Prop :=
  match find (bytes "GET /get/") line, find (bytes " HTTP/") line with
  | some i, some e => i + 9 ≤ e ∨ rest₁ = rest₂
  | some _, none =>
      (find (bytes " HTTP/") rest₁).map rest₁.take = (find (bytes " HTTP/") rest₂).map rest₂.take
  | none, some _ =>
      (find (bytes "GET /get/") rest₁).map (fun i => rest₁.drop (i + 9))
        = (find (bytes "GET /get/") rest₂).map fun i => rest₂.drop (i + 9)
  | none, none =>
      (find (bytes "GET /get/") rest₁).bind (fun i =>
          (find (bytes " HTTP/") rest₁).map (nameBetween rest₁ i))
        = (find (bytes "GET /get/") rest₂).bind fun i =>
          (find (bytes " HTTP/") rest₂).map (nameBetween rest₂ i)

/-- What stands behind the request line does not tell the two requests
apart. -/
structure SameRoute (line rest₁ rest₂ : Bytes) : Prop where
  route : routeOf line rest₁ = routeOf line rest₂
  name : routeOf line rest₁ = 1 → SameName line rest₁ rest₂

/-! ## Line and rest -/

theorem bytes_lineBreak : bytes "\r\n" = [13, 10] := by decide

theorem requestLine_append_behindLine (request : Bytes) :
    requestLine request ++ behindLine request = request := by
  rw [requestLine, behindLine]
  cases find (bytes "\r\n") request with
  | some i => exact List.take_append_drop _ _
  | none => exact List.append_nil _

/-- Nothing, or what a line break separates. -/
def Separate (rest : Bytes) : Prop :=
  rest = [] ∨ ∃ tail, rest = 13 :: tail

theorem separate_behindLine (request : Bytes) : Separate (behindLine request) := by
  rw [behindLine]
  cases hfind : find (bytes "\r\n") request with
  | some i =>
      right
      obtain ⟨tail, htail⟩ := prefix_drop_of_find hfind
      rw [bytes_lineBreak] at htail
      exact ⟨10 :: tail, htail.symm⟩
  | none => exact .inl rfl

section Marks

variable {mark line rest : Bytes}

/-- A mark is found in the line, or behind it. -/
theorem find_line (hmark : 13 ∉ mark) (hne : mark ≠ []) (hrest : Separate rest) :
    find mark (line ++ rest)
      = match find mark line with
        | some i => some i
        | none => (find mark rest).map (· + line.length) := by
  rcases hrest with rfl | ⟨tail, rfl⟩
  · rw [List.append_nil, find, if_neg hne]
    cases find mark line <;> rfl
  · exact find_append_cons hmark line tail

theorem contains_line (hmark : 13 ∉ mark) (hne : mark ≠ []) (hrest : Separate rest) :
    contains mark (line ++ rest) = (contains mark line || contains mark rest) := by
  rw [contains, contains, contains, find_line hmark hne hrest]
  cases find mark line with
  | some i => rfl
  | none => simp

theorem findIdx_or {α : Type*} {p q r : α → Bool} {l : List α}
    (h : ∀ a ∈ l, r a = (p a || q a)) : l.findIdx r = min (l.findIdx p) (l.findIdx q) := by
  induction l with
  | nil => rfl
  | cons a l ih =>
      have hrest := ih fun b hb => h b (List.mem_cons_of_mem _ hb)
      rw [List.findIdx_cons, List.findIdx_cons, List.findIdx_cons, h a List.mem_cons_self, hrest]
      cases p a <;> cases q a <;> simp

/-- **The first mark of a request** is that of the line or that behind it,
whichever is tested first. -/
theorem firstMark_line (hrest : Separate rest) :
    firstMark (line ++ rest) = min (firstMark line) (firstMark rest) := by
  have hmarks : ∀ mark ∈ routeMarks, 13 ∉ mark ∧ mark ≠ [] := by decide
  exact findIdx_or fun mark hmem => contains_line (hmarks mark hmem).1 (hmarks mark hmem).2 hrest

end Marks

/-! ## Messages -/

/-- The message of a route. -/
def routeMessage (name : Bytes) : Nat → Bytes
  | 0 => bytes "BEGIN/OBJECTS/END"
  | 1 => getMessage name
  | 2 => bytes "BEGIN/ON/SERVIDOR/param1/param2/END"
  | 3 => bytes "BEGIN/ON/TENEDOR/END"
  | 4 => bytes "BEGIN/OFF/SERVIDOR/param1/param2/END"
  | _ => invalidRequest

theorem firstMark_eq (s : Bytes) :
    firstMark s = if contains (bytes "GET /objects") s then 0
      else if contains (bytes "GET /get/") s then 1
      else if contains (bytes "POST /on/server") s then 2
      else if contains (bytes "POST /on/fork") s then 3
      else if contains (bytes "POST /off/server") s then 4
      else 5 := by
  simp only [firstMark, routeMarks, List.findIdx_cons, List.findIdx_nil]
  cases contains (bytes "GET /objects") s <;> cases contains (bytes "GET /get/") s <;>
    cases contains (bytes "POST /on/server") s <;> cases contains (bytes "POST /on/fork") s <;>
    cases contains (bytes "POST /off/server") s <;> rfl

theorem firstMark_le (s : Bytes) : firstMark s ≤ 5 :=
  List.findIdx_le_length

theorem firstMark_eq_zero_iff {s : Bytes} :
    firstMark s = 0 ↔ contains (bytes "GET /objects") s = true := by
  rw [firstMark, routeMarks, List.findIdx_cons]
  cases contains (bytes "GET /objects") s <;> simp

/-- The mark at the place is in the text. -/
theorem contains_get_of_firstMark {s : Bytes} (h : firstMark s = 1) :
    contains (bytes "GET /get/") s = true := by
  rw [firstMark, routeMarks, List.findIdx_cons, List.findIdx_cons] at h
  cases hget : contains (bytes "GET /get/") s with
  | true => rfl
  | false =>
      rw [hget] at h
      cases hobjects : contains (bytes "GET /objects") s <;> simp [hobjects] at h

/-- The route of a request as a whole. -/
def routeIn (request : Bytes) : Nat :=
  if firstMark request = 1 ∧ ¬ contains (bytes " HTTP/") request then 5 else firstMark request

/-- The name in a request as a whole. -/
def nameIn (request : Bytes) : Bytes :=
  nameBetween request ((find (bytes "GET /get/") request).getD 0)
    ((find (bytes " HTTP/") request).getD 0)

/-- **What the translation depends on**: the route, and for one of them the
name. -/
theorem translateHttpToAscii_eq (request : CString) :
    translateHttpToAscii request = routeMessage (nameIn request.bytes) (routeIn request.bytes) := by
  rw [translateHttpToAscii, routeIn, nameIn, firstMark_eq]
  cases hobjects : contains (bytes "GET /objects") request.bytes with
  | true => simp [routeMessage]
  | false =>
      cases hget : find (bytes "GET /get/") request.bytes with
      | some i =>
          have hin : contains (bytes "GET /get/") request.bytes = true := by
            rw [contains, hget]
            rfl
          cases hend : find (bytes " HTTP/") request.bytes with
          | some e =>
              have hversion : contains (bytes " HTTP/") request.bytes = true := by
                rw [contains, hend]
                rfl
              simp [hin, hversion, routeMessage, getMessage, nameBetween]
          | none =>
              have hversion : contains (bytes " HTTP/") request.bytes = false := by
                rw [contains, hend]
                rfl
              simp [hin, hversion, routeMessage]
      | none =>
          have hout : contains (bytes "GET /get/") request.bytes = false := by
            rw [contains, hget]
            rfl
          cases contains (bytes "POST /on/server") request.bytes <;>
            cases contains (bytes "POST /on/fork") request.bytes <;>
            cases contains (bytes "POST /off/server") request.bytes <;>
            simp [hout, routeMessage]

/-- The messages tell the routes apart, and the names. -/
theorem routeMessage_inj {name name' : Bytes} {route route' : Nat} (hle : route ≤ 5)
    (hle' : route' ≤ 5) :
    routeMessage name route = routeMessage name' route'
      ↔ route = route' ∧ (route = 1 → name = name') := by
  have hconst : ∀ k, k ≠ 1 → ∀ n, routeMessage n k = routeMessage [] k := by
    intro k hk n
    match k with
    | 0 => rfl
    | 1 => exact absurd rfl hk
    | 2 => rfl
    | 3 => rfl
    | 4 => rfl
    | _ + 5 => rfl
  have hother : ∀ k < 6, k ≠ 1 → (routeMessage [] k).take 7 ≠ bytes "BEGIN/G" := by decide
  have hapart : ∀ k k' : Fin 6, k ≠ 1 → k' ≠ 1 →
      routeMessage [] k.val = routeMessage [] k'.val → k = k' := by
    decide
  have hget : ∀ n, (routeMessage n 1).take 7 = bytes "BEGIN/G" := fun n => rfl
  by_cases h1 : route = 1
  · subst h1
    by_cases h1' : route' = 1
    · subst h1'
      simp [routeMessage, getMessage]
    · rw [hconst route' h1']
      constructor
      · intro heq
        exact absurd ((congrArg (List.take 7) heq).symm.trans (hget name))
          (hother route' (by omega) h1')
      · rintro ⟨rfl, -⟩
        exact absurd rfl h1'
  · rw [hconst route h1]
    by_cases h1' : route' = 1
    · subst h1'
      constructor
      · intro heq
        exact absurd ((congrArg (List.take 7) heq).trans (hget name')) (hother route (by omega) h1)
      · rintro ⟨rfl, -⟩
        exact absurd rfl h1
    · rw [hconst route' h1']
      constructor
      · intro heq
        have hfin := hapart ⟨route, by omega⟩ ⟨route', by omega⟩ (by simpa [Fin.ext_iff] using h1)
          (by simpa [Fin.ext_iff] using h1') heq
        exact ⟨Fin.mk.inj hfin, fun h => absurd h h1⟩
      · rintro ⟨rfl, -⟩
        rfl

/-! ## Names -/

section Names

variable {line rest : Bytes}

theorem routeIn_line (hrest : Separate rest) : routeIn (line ++ rest) = routeOf line rest := by
  rw [routeIn, routeOf, firstMark_line hrest, contains_line (by decide) (by decide) hrest]
  simp only [Bool.or_eq_true]

/-- Both marks in the line, in their order: the name lies in the line. -/
theorem nameBetween_inside {i e : Nat} (hie : i + 9 ≤ e) (he : e ≤ line.length) :
    nameBetween (line ++ rest) i e = nameBetween line i e := by
  have hcount : sizeDiff (some e) (i + 9) = some (e - (i + 9)) := if_pos hie
  rw [nameBetween, nameBetween, hcount, substr, substr,
    List.drop_append_of_le_length (by omega), List.take_append_of_le_length]
  rw [List.length_drop]
  omega

/-- The mark of the end comes first: everything behind the name's mark is taken. -/
theorem nameBetween_over {s : Bytes} {i e : Nat} (hie : e < i + 9) :
    nameBetween s i e = s.drop (i + 9) := by
  have hcount : sizeDiff (some e) (i + 9) = none := if_neg (by omega)
  rw [nameBetween, hcount, substr]

/-- The name begins in the line and ends behind it. -/
theorem nameBetween_across {i e : Nat} (hi : i + 9 ≤ line.length) :
    nameBetween (line ++ rest) i (e + line.length) = line.drop (i + 9) ++ rest.take e := by
  have hcount : sizeDiff (some (e + line.length)) (i + 9)
      = some ((line.drop (i + 9)).length + e) := by
    rw [sizeDiff, if_pos (by omega), List.length_drop]
    congr 1
    omega
  rw [nameBetween, hcount, substr, List.drop_append_of_le_length hi, List.take_length_add_append]

/-- The name lies behind the line. -/
theorem nameBetween_behind (i e : Nat) :
    nameBetween (line ++ rest) (i + line.length) (e + line.length) = nameBetween rest i e := by
  have hcount : sizeDiff (some (e + line.length)) (i + line.length + 9)
      = sizeDiff (some e) (i + 9) := by
    simp only [sizeDiff]
    split <;> split
    · congr 1
      omega
    · omega
    · omega
    · rfl
  have hdrop : (line ++ rest).drop (i + line.length + 9) = rest.drop (i + 9) := by
    rw [show i + line.length + 9 = line.length + (i + 9) by omega, List.drop_length_add_append]
  rw [nameBetween, nameBetween, hcount]
  cases sizeDiff (some e) (i + 9) with
  | none => exact hdrop
  | some n => exact congrArg (List.take n) hdrop

theorem nameIn_eq {s : Bytes} {i e : Nat} (hi : find (bytes "GET /get/") s = some i)
    (he : find (bytes " HTTP/") s = some e) : nameIn s = nameBetween s i e := by
  rw [nameIn, hi, he]
  rfl

theorem find_get_line (line : Bytes) (hrest : Separate rest) :
    find (bytes "GET /get/") (line ++ rest)
      = match find (bytes "GET /get/") line with
        | some i => some i
        | none => (find (bytes "GET /get/") rest).map (· + line.length) :=
  find_line (by decide) (by decide) hrest

theorem find_version_line (line : Bytes) (hrest : Separate rest) :
    find (bytes " HTTP/") (line ++ rest)
      = match find (bytes " HTTP/") line with
        | some e => some e
        | none => (find (bytes " HTTP/") rest).map (· + line.length) :=
  find_line (by decide) (by decide) hrest

/-- A mark that is in the request and not in its line. -/
theorem find_rest {mark : Bytes} (hmark : 13 ∉ mark) (hne : mark ≠ []) (hrest : Separate rest)
    (hline : find mark line = none) (hin : contains mark (line ++ rest) = true) :
    ∃ i, find mark rest = some i ∧ find mark (line ++ rest) = some (i + line.length) := by
  have hfind : find mark (line ++ rest) = _ := find_line hmark hne hrest
  rw [hline] at hfind
  rw [contains, hfind, Option.isSome_map] at hin
  obtain ⟨i, hi⟩ := Option.isSome_iff_exists.mp hin
  refine ⟨i, hi, ?_⟩
  rw [hfind, hi]
  rfl

/-- **When two requests with one line name the same.** -/
theorem nameIn_eq_iff {rest' : Bytes} (hrest : Separate rest) (hrest' : Separate rest')
    (hget : contains (bytes "GET /get/") (line ++ rest) = true)
    (hget' : contains (bytes "GET /get/") (line ++ rest') = true)
    (hend : contains (bytes " HTTP/") (line ++ rest) = true)
    (hend' : contains (bytes " HTTP/") (line ++ rest') = true) :
    nameIn (line ++ rest) = nameIn (line ++ rest') ↔ SameName line rest rest' := by
  have hlenG : (bytes "GET /get/").length = 9 := by decide
  have hlenH : (bytes " HTTP/").length = 6 := by decide
  have hfindG := find_get_line line hrest
  have hfindG' := find_get_line line hrest'
  have hfindH := find_version_line line hrest
  have hfindH' := find_version_line line hrest'
  rw [SameName]
  cases hi : find (bytes "GET /get/") line with
  | some i =>
      have hile := find_le hi
      rw [hi] at hfindG hfindG'
      cases he : find (bytes " HTTP/") line with
      | some e =>
          -- both marks in the line: the rest matters if they overlap
          have hele := find_le he
          rw [he] at hfindH hfindH'
          rw [nameIn_eq hfindG hfindH, nameIn_eq hfindG' hfindH']
          by_cases hie : i + 9 ≤ e
          · rw [nameBetween_inside hie (by omega), nameBetween_inside hie (by omega)]
            simp [hie]
          · rw [nameBetween_over (by omega), nameBetween_over (by omega),
              List.drop_append_of_le_length (by omega), List.drop_append_of_le_length (by omega),
              List.append_cancel_left_eq]
            simp [hie]
      | none =>
          obtain ⟨e, he₁, hfind⟩ := find_rest (by decide) (by decide) hrest he hend
          obtain ⟨e', he₁', hfind'⟩ := find_rest (by decide) (by decide) hrest' he hend'
          rw [nameIn_eq hfindG hfind, nameIn_eq hfindG' hfind', nameBetween_across (by omega),
            nameBetween_across (by omega), List.append_cancel_left_eq]
          simp [he₁, he₁']
  | none =>
      obtain ⟨i, hi₁, hfind⟩ := find_rest (by decide) (by decide) hrest hi hget
      obtain ⟨i', hi₁', hfind'⟩ := find_rest (by decide) (by decide) hrest' hi hget'
      cases he : find (bytes " HTTP/") line with
      | some e =>
          have hele := find_le he
          have hdrop : ∀ (j : Nat) (r : Bytes),
              (line ++ r).drop (j + line.length + 9) = r.drop (j + 9) := by
            intro j r
            rw [show j + line.length + 9 = line.length + (j + 9) by omega,
              List.drop_length_add_append]
          rw [he] at hfindH hfindH'
          rw [nameIn_eq hfind hfindH, nameIn_eq hfind' hfindH', nameBetween_over (by omega),
            nameBetween_over (by omega), hdrop, hdrop]
          simp [hi₁, hi₁']
      | none =>
          obtain ⟨e, he₁, hfindE⟩ := find_rest (by decide) (by decide) hrest he hend
          obtain ⟨e', he₁', hfindE'⟩ := find_rest (by decide) (by decide) hrest' he hend'
          rw [nameIn_eq hfind hfindE, nameIn_eq hfind' hfindE', nameBetween_behind,
            nameBetween_behind]
          simp [hi₁, hi₁', he₁, he₁']

end Names

/-! ## Two requests -/

theorem routeIn_le (request : Bytes) : routeIn request ≤ 5 := by
  rw [routeIn]
  split
  · exact Nat.le_refl _
  · exact firstMark_le _

/-- The route of a name has both marks in the request. -/
theorem marks_of_routeIn {request : Bytes} (h : routeIn request = 1) :
    contains (bytes "GET /get/") request = true ∧ contains (bytes " HTTP/") request = true := by
  rw [routeIn] at h
  split at h
  · exact absurd h (by decide)
  · rename_i hboth
    refine ⟨contains_get_of_firstMark h, ?_⟩
    by_contra hout
    exact hboth ⟨h, hout⟩

/-- The messages of two requests with one line. -/
theorem routeMessage_line_iff (line : Bytes) {rest rest' : Bytes} (hrest : Separate rest)
    (hrest' : Separate rest') :
    routeMessage (nameIn (line ++ rest)) (routeIn (line ++ rest))
        = routeMessage (nameIn (line ++ rest')) (routeIn (line ++ rest'))
      ↔ SameRoute line rest rest' := by
  have hroute : routeIn (line ++ rest) = routeOf line rest := routeIn_line hrest
  have hroute' : routeIn (line ++ rest') = routeOf line rest' := routeIn_line hrest'
  have hnames : routeOf line rest = routeOf line rest' → routeOf line rest = 1 →
      (nameIn (line ++ rest) = nameIn (line ++ rest') ↔ SameName line rest rest') := by
    intro hsame hone
    have hmarks := marks_of_routeIn (hroute.trans hone)
    have hmarks' := marks_of_routeIn (hroute'.trans (hsame ▸ hone))
    exact nameIn_eq_iff hrest hrest' hmarks.1 hmarks'.1 hmarks.2 hmarks'.2
  rw [routeMessage_inj (routeIn_le _) (routeIn_le _), hroute, hroute']
  constructor
  · rintro ⟨hsame, hname⟩
    exact ⟨hsame, fun hone => (hnames hsame hone).mp (hname hone)⟩
  · rintro ⟨hsame, hname⟩
    exact ⟨hsame, fun hone => (hnames hsame hone).mpr (hname hone)⟩

theorem translateHttpToAscii_eq_iff {request request' : CString}
    (hline : requestLine request.bytes = requestLine request'.bytes) :
    translateHttpToAscii request = translateHttpToAscii request'
      ↔ SameRoute (requestLine request.bytes) (behindLine request.bytes)
          (behindLine request'.bytes) := by
  have hiff := routeMessage_line_iff (requestLine request.bytes)
    (separate_behindLine request.bytes) (separate_behindLine request'.bytes)
  rw [requestLine_append_behindLine, hline, requestLine_append_behindLine] at hiff
  rw [translateHttpToAscii_eq, translateHttpToAscii_eq, hline]
  exact hiff

/-- **When the request line decides**, in the fork and in the integrated
server: if what stands behind it gives both requests the same first mark,
and the same name where a name is asked for. -/
theorem translate_eq_iff {request request' : CString}
    (hline : requestLine request.bytes = requestLine request'.bytes) :
    (translateHttpToAscii request = translateHttpToAscii request'
      ↔ SameRoute (requestLine request.bytes) (behindLine request.bytes)
          (behindLine request'.bytes))
      ∧ (Integrated.translateHttpToAscii request = Integrated.translateHttpToAscii request'
        ↔ SameRoute (requestLine request.bytes) (behindLine request.bytes)
            (behindLine request'.bytes)) :=
  ⟨translateHttpToAscii_eq_iff hline, translateHttpToAscii_eq_iff hline⟩

/-- Two requests for the cat, one of them with a header. -/
theorem translate_eq_gato :
    translateHttpToAscii (.ofBytes (bytes "GET /get/gato HTTP/1.1\r\n\r\n"))
      = translateHttpToAscii (.ofBytes (bytes "GET /get/gato HTTP/1.1\r\nHost: isla\r\n\r\n")) := by
  apply (translate_eq_iff _).1.mpr
  · refine ⟨by decide, fun _ => ?_⟩
    exact .inl (by decide)
  · decide

/-- A header that names another route. -/
theorem translate_ne :
    (¬ ∀ request request' : CString, requestLine request.bytes = requestLine request'.bytes →
        translateHttpToAscii request = translateHttpToAscii request')
      ∧ ¬ ∀ request request' : CString, requestLine request.bytes = requestLine request'.bytes →
        Integrated.translateHttpToAscii request = Integrated.translateHttpToAscii request' := by
  have hline : requestLine (bytes "GET /get/gato HTTP/1.1\r\n\r\n")
      = requestLine (bytes "GET /get/gato HTTP/1.1\r\nReferer: GET /objects\r\n\r\n") := by
    decide
  have hne : translateHttpToAscii (.ofBytes (bytes "GET /get/gato HTTP/1.1\r\n\r\n"))
      ≠ translateHttpToAscii
        (.ofBytes (bytes "GET /get/gato HTTP/1.1\r\nReferer: GET /objects\r\n\r\n")) := by
    decide
  exact ⟨fun h => hne (h _ _ hline), fun h => hne (h _ _ hline)⟩

/-! ## All requests with a line -/

/-- The mark that is tested first decides, wherever it stands. -/
theorem translate_objects_iff {request : CString} :
    translateHttpToAscii request = bytes "BEGIN/OBJECTS/END"
      ↔ bytes "GET /objects" <:+: request.bytes := by
  have hmessage : bytes "BEGIN/OBJECTS/END" = routeMessage [] 0 := rfl
  have hroute : routeIn request.bytes = 0 ↔ firstMark request.bytes = 0 := by
    rw [routeIn]
    split <;> omega
  rw [translateHttpToAscii_eq, hmessage, routeMessage_inj (routeIn_le _) (Nat.zero_le _),
    ← contains_iff, ← firstMark_eq_zero_iff, ← hroute]
  exact ⟨fun h => h.1, fun h => ⟨h, fun hone => by omega⟩⟩

/-- **The lines that decide alone**: those with the mark that is tested
first. Any other line becomes a request for the objects with a header that
has this mark. -/
theorem line_decides_iff {line : CString} (hbreak : 13 ∉ line.bytes) :
    (∀ request request' : CString, requestLine request.bytes = line.bytes →
        requestLine request'.bytes = line.bytes →
        translateHttpToAscii request = translateHttpToAscii request')
      ↔ bytes "GET /objects" <:+: line.bytes := by
  constructor
  · intro h
    have hnul : 0 ∉ line.bytes ++ bytes "\r\nReferer: GET /objects" := by
      rw [List.mem_append]
      exact fun hmem => hmem.elim line.noNul (by decide)
    have hline : requestLine line.bytes = line.bytes := by
      have hno : ¬ bytes "\r\n" <:+: line.bytes := by
        rw [bytes_lineBreak]
        exact fun hin => hbreak (hin.subset List.mem_cons_self)
      rw [requestLine, find_eq_none hno]
    have hheader : requestLine (line.bytes ++ bytes "\r\nReferer: GET /objects") = line.bytes := by
      have hfind : find (bytes "\r\n") (line.bytes ++ bytes "\r\nReferer: GET /objects")
          = some line.bytes.length := by
        rw [bytes_lineBreak, show bytes "\r\nReferer: GET /objects"
          = [13, 10] ++ bytes "Referer: GET /objects" by decide, find_append_of_not_mem hbreak,
          find_append_left]
        simp
      rw [requestLine, hfind]
      exact List.take_left
    have hsame := h line ⟨_, hnul⟩ hline hheader
    have hobjects : translateHttpToAscii ⟨_, hnul⟩ = bytes "BEGIN/OBJECTS/END" := by
      rw [translate_objects_iff]
      exact ⟨line.bytes ++ bytes "\r\nReferer: ", [], by
        simp only [List.append_assoc, List.append_nil]
        rfl⟩
    rw [hobjects] at hsame
    exact translate_objects_iff.mp hsame
  · intro hmark request request' hline hline'
    have hin : ∀ r : CString, requestLine r.bytes = line.bytes →
        translateHttpToAscii r = bytes "BEGIN/OBJECTS/END" := by
      intro r hr
      rw [translate_objects_iff, ← requestLine_append_behindLine r.bytes, hr]
      exact hmark.trans (List.prefix_append _ _).isInfix
    rw [hin request hline, hin request' hline']

end DistributedAscii.Server
