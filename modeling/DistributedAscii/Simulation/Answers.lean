import DistributedAscii.Server.Returns
import DistributedAscii.Simulation.Delivery

/-!
# Simulation — the answers of the drawing server

`buildAnswer` keeps request and answer in one variable. The exits for errors,
the list and a drawing put a frame around what they return; the operations
`ON`, `OFF`, `OK` and `ERROR` drop what their case returns, and the rest of
the request is left in the variable and goes out as the answer.
-/

namespace DistributedAscii.Simulation

open FileSystem Lib.Search Server

/-! ## Messages of the protocol -/

/-- The keys of `ERROR_TABLE`. -/
def errorCodes : List Nat :=
  [100, 101, 102, 103, 104, 105, 106, 200, 201, 202, 300]

/-- A content, or an error of the table. -/
def IsMessage (answer : Bytes) : Prop :=
  (∃ x, answer = bytes "BEGIN/OK/" ++ x ++ bytes "/END")
    ∨ ∃ code ∈ errorCodes, answer = bytes "BEGIN/ERROR/" ++ decimal code ++ bytes "/END"

/-- The tenedor finds the content of an answer. -/
def Decoded (answer : Bytes) : Prop :=
  ∃ content, getContent answer = .ok content

/-- A message that the tenedor does not refuse for its frame. -/
structure Proper (answer : Bytes) : Prop where
  message : IsMessage answer
  decoded : Decoded answer

theorem IsMessage.begins {answer : Bytes} (h : IsMessage answer) : bytes "BEGIN/" <+: answer := by
  rcases h with ⟨x, rfl⟩ | ⟨code, -, rfl⟩
  · rw [show bytes "BEGIN/OK/" = bytes "BEGIN/" ++ bytes "OK/" by decide, List.append_assoc,
      List.append_assoc]
    exact List.prefix_append _ _
  · rw [show bytes "BEGIN/ERROR/" = bytes "BEGIN/" ++ bytes "ERROR/" by decide,
      List.append_assoc, List.append_assoc]
    exact List.prefix_append _ _

theorem IsMessage.ends {answer : Bytes} (h : IsMessage answer) : bytes "/END" <:+ answer := by
  rcases h with ⟨x, rfl⟩ | ⟨code, -, rfl⟩ <;> exact List.suffix_append _ _

theorem proper_error200 : Proper (bytes "BEGIN/ERROR/200/END") where
  message := .inr ⟨200, by decide, by decide⟩
  decoded := ⟨bytes "ERROR/200", by decide⟩

theorem proper_error201 : Proper (bytes "BEGIN/ERROR/201/END") where
  message := .inr ⟨201, by decide, by decide⟩
  decoded := ⟨bytes "ERROR/201", by decide⟩

theorem proper_error300 : Proper (bytes "BEGIN/ERROR/300/END") where
  message := .inr ⟨300, by decide, by decide⟩
  decoded := ⟨bytes "ERROR/300", by decide⟩

/-- The frame of a drawing is refused iff the drawing makes a begin mark. -/
theorem proper_framed_iff {c : Bytes} (hsize : (framed c).length < npos) :
    Proper (framed c) ↔ ¬ bytes "BEGIN/" <:+: c ∧ ¬ bytes "BEGIN" <:+ c := by
  constructor
  · intro h
    rw [← not_or, ← begin_infix_ok_iff]
    intro hmark
    obtain ⟨content, hcontent⟩ := h.decoded
    rw [framed_eq, getContent_begin hmark] at hcontent
    cases hcontent
  · rintro ⟨hbegin, hend⟩
    exact ⟨.inl ⟨c, rfl⟩, _, getContent_framed hbegin hend hsize⟩

theorem proper_objCase : Proper objCase := by
  rw [show objCase = framed nameList from rfl]
  exact (proper_framed_iff (by decide +kernel)).mpr (by decide +kernel)

/-! ## The exits of `buildAnswer` -/

/-- The operations whose case returns into nothing. -/
def droppedOperations : List Bytes :=
  [bytes "ON", bytes "OFF", bytes "OK", bytes "ERROR"]

section Exits

variable {fuel : Nat} {disk : Disk} {request operation rest : Bytes}

theorem determOperation_dropped (h : operation ∈ droppedOperations) :
    determOperation operation ≠ -1 ∧ determOperation operation ≠ 5 := by
  simp only [droppedOperations, List.mem_cons, List.not_mem_nil, or_false] at h
  rcases h with rfl | rfl | rfl | rfl <;> decide

theorem determOperation_unknown (h : operation ∉ droppedOperations)
    (hget : operation ≠ bytes "GET") :
    determOperation operation = -1 := by
  simp only [droppedOperations, List.mem_cons, List.not_mem_nil, or_false, not_or] at h
  obtain ⟨hon, hoff, hok, herror⟩ := h
  rw [determOperation, if_neg hon, if_neg hoff, if_neg hok, if_neg herror, if_neg hget]

/-- A content with a slash, as `buildAnswer` takes it apart. -/
theorem buildAnswer_split (hop : 47 ∉ operation)
    (hcontent : deleteFlags request = operation ++ 47 :: rest) :
    buildAnswer fuel disk request
      = if determOperation operation = -1 then some (bytes "BEGIN/ERROR/300/END")
        else if determOperation operation = 5 then
          (getCase fuel disk rest).map fun response =>
            if response = bytes "-1" then bytes "BEGIN/ERROR/201/END" else response
        else some rest := by
  have hnil : operation ++ 47 :: rest ≠ [] := by simp
  have hobjects : operation ++ 47 :: rest ≠ bytes "OBJECTS" := by
    intro h
    have hmem : (47 : UInt8) ∈ bytes "OBJECTS" := by
      rw [← h]
      simp
    revert hmem
    decide
  have hfind : find (bytes "/") (operation ++ 47 :: rest) = some operation.length := by
    rw [bytes_slash, find_append_of_not_mem hop,
      show (47 : UInt8) :: rest = [47] ++ rest from rfl, find_append_left, Option.map_some,
      Nat.zero_add]
  have hdrop : (operation ++ 47 :: rest).drop (operation.length + 1) = rest := by
    rw [← List.drop_drop, List.drop_left, List.drop_one, List.tail_cons]
  rw [buildAnswer, hcontent]
  dsimp only
  rw [if_neg hnil, if_neg hobjects, hfind]
  dsimp only
  rw [List.take_left, hdrop]

/-- **The dropped operations**: the rest of the request is the answer. -/
theorem buildAnswer_dropped (hop : operation ∈ droppedOperations)
    (hcontent : deleteFlags request = operation ++ 47 :: rest) :
    buildAnswer fuel disk request = some rest := by
  have hslash : 47 ∉ operation := by
    simp only [droppedOperations, List.mem_cons, List.not_mem_nil, or_false] at hop
    rcases hop with rfl | rfl | rfl | rfl <;> decide
  obtain ⟨hknown, hget⟩ := determOperation_dropped hop
  rw [buildAnswer_split hslash hcontent, if_neg hknown, if_neg hget]

theorem buildAnswer_get (hcontent : deleteFlags request = bytes "GET" ++ 47 :: rest) :
    buildAnswer fuel disk request
      = if existASCII disk (.ofBytes rest) = exitSuccess then
          (readDrawing fuel disk (.ofBytes rest)).map framed
        else some (bytes "BEGIN/ERROR/201/END") := by
  rw [buildAnswer_split (by decide) hcontent, if_neg (by decide), if_pos (by decide), getCase]
  split
  · cases readDrawing fuel disk (.ofBytes rest) with
    | none => rfl
    | some art =>
        have hne : framed art ≠ bytes "-1" := by
          intro h
          have hhead := congrArg List.head? h
          simp [framed, show bytes "BEGIN/OK/" = 66 :: bytes "EGIN/OK/" from rfl,
            show bytes "-1" = [45, 49] from rfl] at hhead
        exact congrArg some (if_neg hne)
  · rfl

/-- Every other request is answered with a message of its own. -/
theorem buildAnswer_other
    (h : ∀ operation rest, deleteFlags request = operation ++ 47 :: rest →
      operation ∉ droppedOperations ∧ operation ≠ bytes "GET") :
    ∃ answer, buildAnswer fuel disk request = some answer ∧ Proper answer := by
  by_cases hnil : deleteFlags request = []
  · exact ⟨_, by rw [buildAnswer, hnil, if_pos rfl], proper_error200⟩
  by_cases hobjects : deleteFlags request = bytes "OBJECTS"
  · refine ⟨objCase, ?_, proper_objCase⟩
    rw [buildAnswer]
    dsimp only
    rw [if_neg hnil, if_pos hobjects]
  by_cases hslash : 47 ∈ deleteFlags request
  · obtain ⟨operation, rest, hcontent, hop⟩ := List.eq_append_cons_of_mem hslash
    obtain ⟨hdropped, hget⟩ := h operation rest hcontent
    refine ⟨_, ?_, proper_error300⟩
    rw [buildAnswer_split hop hcontent, if_pos (determOperation_unknown hdropped hget)]
  · refine ⟨_, ?_, proper_error300⟩
    have hfind : find (bytes "/") (deleteFlags request) = none := by
      rw [bytes_slash]
      exact find_eq_none (mt (List.singleton_infix_iff _ _).mp hslash)
    rw [buildAnswer]
    dsimp only
    rw [if_neg hnil, if_neg hobjects, hfind]

end Exits

/-! ## Every answer -/

/-- What `buildAnswer` returns is a message that the tenedor decodes. -/
def AnsweredProperly (disk : Disk) (request : Bytes) : Prop :=
  ∃ fuel answer, buildAnswer fuel disk request = some answer ∧ Proper answer

/-- What follows an operation whose case is dropped is a message itself, and
a drawing makes no begin mark. -/
structure Harmless (disk : Disk) (request : Bytes) : Prop where
  dropped : ∀ operation ∈ droppedOperations, ∀ rest,
    deleteFlags request = operation ++ 47 :: rest → Proper rest
  drawing : ∀ rest drawing, deleteFlags request = bytes "GET" ++ 47 :: rest →
    Stored disk (.ofBytes rest) drawing →
    ¬ bytes "BEGIN/" <:+: drawing ∧ ¬ bytes "BEGIN" <:+ drawing

section Answered

variable {L : Layout} {request : Bytes}

/-- Whatever the fuel, a drawing is read as one text. -/
theorem Stored.unique {disk : Disk} {name : CString} {c d : Bytes} (hc : Stored disk name c)
    (hd : Stored disk name d) : c = d := by
  obtain ⟨fuel, hread⟩ := hc.read
  obtain ⟨fuel', hread'⟩ := hd.read
  have h1 := readDrawing_mono hread (Nat.le_max_left fuel fuel')
  have h2 := readDrawing_mono hread' (Nat.le_max_right fuel fuel')
  exact Option.some.inj (h1.symm.trans h2)

/-- The answer to a `GET` with a name. -/
theorem answeredProperly_get_iff (hL : L.Readable) {rest : Bytes}
    (hcontent : deleteFlags request = bytes "GET" ++ 47 :: rest)
    (hname : 0 < (CString.ofBytes rest).length) :
    AnsweredProperly L.toBytes request ↔ ∀ drawing, Stored L.toBytes (.ofBytes rest) drawing →
      ¬ bytes "BEGIN/" <:+: drawing ∧ ¬ bytes "BEGIN" <:+ drawing := by
  rw [AnsweredProperly]
  by_cases hexists : existASCII L.toBytes (.ofBytes rest) = exitSuccess
  · obtain ⟨fuel, art, hread, hle⟩ := readDrawing_stored hL hname hexists
    have hsize : (framed art).length < npos := by
      rw [length_framed, npos]
      omega
    have hart : Stored L.toBytes (.ofBytes rest) art := ⟨hexists, fuel, hread⟩
    constructor
    · rintro ⟨fuel', answer, hanswer, hproper⟩ drawing hstored
      rw [buildAnswer_get hcontent, if_pos hexists] at hanswer
      obtain ⟨drawing', hread', rfl⟩ := Option.map_eq_some_iff.mp hanswer
      rw [hstored.unique hart]
      rw [Stored.unique ⟨hexists, fuel', hread'⟩ hart] at hproper
      exact (proper_framed_iff hsize).mp hproper
    · intro h
      refine ⟨fuel, framed art, ?_, (proper_framed_iff hsize).mpr (h art hart)⟩
      rw [buildAnswer_get hcontent, if_pos hexists, hread, Option.map_some]
  · constructor
    · intro _ drawing hstored
      exact absurd hstored.found hexists
    · intro _
      exact ⟨0, _, by rw [buildAnswer_get hcontent, if_neg hexists], proper_error201⟩

/-- **When every answer is a message.** -/
theorem answeredProperly_iff (hL : L.Readable)
    (hname : ∀ rest, deleteFlags request = bytes "GET" ++ 47 :: rest →
      0 < (CString.ofBytes rest).length) :
    AnsweredProperly L.toBytes request ↔ Harmless L.toBytes request := by
  have hsep : ∀ {operation operation' rest rest' : Bytes}, 47 ∉ operation → 47 ∉ operation' →
      deleteFlags request = operation ++ 47 :: rest →
      deleteFlags request = operation' ++ 47 :: rest' → operation = operation' ∧ rest = rest' :=
    fun hop hop' h h' => sep_inj hop hop' (h.symm.trans h')
  have hslash : ∀ operation ∈ droppedOperations, 47 ∉ operation := by decide
  have hget : 47 ∉ bytes "GET" := by decide
  have hapart : bytes "GET" ∉ droppedOperations := by decide
  by_cases hdropped : ∃ operation ∈ droppedOperations, ∃ rest,
      deleteFlags request = operation ++ 47 :: rest
  · obtain ⟨operation, hop, rest, hcontent⟩ := hdropped
    constructor
    · rintro ⟨fuel, answer, hanswer, hproper⟩
      rw [buildAnswer_dropped hop hcontent] at hanswer
      obtain rfl := Option.some.inj hanswer
      constructor
      · intro operation' hop' rest' hcontent'
        exact (hsep (hslash _ hop') (hslash _ hop) hcontent' hcontent).2 ▸ hproper
      · intro rest' drawing hcontent' _
        exact absurd ((hsep hget (hslash _ hop) hcontent' hcontent).1 ▸ hop) hapart
    · intro h
      exact ⟨0, rest, buildAnswer_dropped hop hcontent, h.dropped operation hop rest hcontent⟩
  by_cases hasks : ∃ rest, deleteFlags request = bytes "GET" ++ 47 :: rest
  · obtain ⟨rest, hcontent⟩ := hasks
    rw [answeredProperly_get_iff hL hcontent (hname rest hcontent)]
    constructor
    · intro h
      constructor
      · exact fun operation hop rest' hcontent' =>
          absurd ⟨operation, hop, rest', hcontent'⟩ hdropped
      · intro rest' drawing hcontent' hstored
        obtain rfl := (hsep hget hget hcontent' hcontent).2
        exact h drawing hstored
    · exact fun h drawing => h.drawing rest drawing hcontent
  · have hother : AnsweredProperly L.toBytes request := by
      refine ⟨0, buildAnswer_other fun operation rest hcontent => ⟨fun hop => ?_, ?_⟩⟩
      · exact hdropped ⟨operation, hop, rest, hcontent⟩
      · rintro rfl
        exact hasks ⟨rest, hcontent⟩
    simp only [hother, true_iff]
    constructor
    · exact fun operation hop rest hcontent => absurd ⟨operation, hop, rest, hcontent⟩ hdropped
    · exact fun rest drawing hcontent _ => absurd ⟨rest, hcontent⟩ hasks

end Answered

/-- With the marks in their order the content has no end mark, so that what
follows an operation is never a message. -/
theorem not_message_of_ordered {request operation rest : Bytes} {i e : Nat}
    (hbegin : find (bytes "BEGIN/") request = some i)
    (hend : find (bytes "/END") request = some e) (hle : i + 6 ≤ e)
    (hcontent : deleteFlags request = operation ++ 47 :: rest) : ¬ IsMessage rest := by
  intro h
  have hcut : deleteFlags request = (request.take e).drop (i + 6) := by
    rw [deleteFlags, hbegin, hend]
    dsimp only
    rw [sizeDiff, if_pos hle, substr, List.drop_take]
  have hmark : bytes "/END" <:+: request.take e := by
    have hrest : rest <:+ deleteFlags request := by
      rw [hcontent]
      exact (List.suffix_cons 47 rest).trans (List.suffix_append _ _)
    rw [hcut] at hrest
    exact (h.ends.trans (hrest.trans (List.drop_suffix _ _))).isInfix
  -- a mark in front of the first one
  obtain ⟨j, hj⟩ := Option.isSome_iff_exists.mp (find_isSome_iff.mpr hmark)
  have hfirst := find_append_of_some hj (request.drop e)
  rw [List.take_append_drop, hend] at hfirst
  obtain rfl := Option.some.inj hfirst
  have hlen := find_le hj
  rw [length_endMark, List.length_take] at hlen
  omega

theorem readable_goku {c : Bytes} (hlen : c.length < 255 * 255) :
    ∃ L : Layout, goku c = L.toBytes ∧ L.Readable := by
  exact Layout.readable_run fun _ _ _ => .inr (.inr ⟨c, rfl, hlen⟩)

/-- A drawing that the disk has. -/
theorem answeredProperly_goku :
    AnsweredProperly (goku (bytes "=^.^=")) (bytes "BEGIN/GET/Goku.txt/END") := by
  have hcontent : deleteFlags (bytes "BEGIN/GET/Goku.txt/END")
      = bytes "GET" ++ 47 :: bytes "Goku.txt" := by
    decide
  have hrest : ∀ rest, deleteFlags (bytes "BEGIN/GET/Goku.txt/END") = bytes "GET" ++ 47 :: rest →
      rest = bytes "Goku.txt" := by
    intro rest h
    rw [hcontent] at h
    exact (sep_inj (by decide) (by decide) h).2.symm
  have hstored : Stored (goku (bytes "=^.^=")) (.ofBytes (bytes "Goku.txt")) (bytes "=^.^=") :=
    stored_goku (by decide) (by decide)
  obtain ⟨L, hdisk, hL⟩ := readable_goku (by decide : (bytes "=^.^=").length < 255 * 255)
  rw [hdisk]
  refine (answeredProperly_iff hL fun rest h => by rw [hrest rest h]; decide).mpr ?_
  constructor
  · intro operation hop rest h
    rw [hcontent] at h
    have hget := (sep_inj (by decide) ((by decide : ∀ o ∈ droppedOperations, 47 ∉ o) _ hop) h).1
    exact absurd (hget ▸ hop) (by decide)
  · intro rest drawing h hdrawing
    obtain rfl := hrest rest h
    rw [← hdisk] at hdrawing
    rw [hdrawing.unique hstored]
    decide +kernel

/-- The answer to `ON` is what follows it. -/
theorem not_answeredProperly_on :
    ¬ ∀ (L : Layout) (request : Bytes), L.Readable →
      (∀ rest, deleteFlags request = bytes "GET" ++ 47 :: rest →
        0 < (CString.ofBytes rest).length) →
      AnsweredProperly L.toBytes request := by
  intro h
  have hcontent : deleteFlags (bytes "BEGIN/ON/SERVIDOR/END")
      = bytes "ON" ++ 47 :: bytes "SERVIDOR" := by
    decide
  have hname : ∀ rest, deleteFlags (bytes "BEGIN/ON/SERVIDOR/END") = bytes "GET" ++ 47 :: rest →
      0 < (CString.ofBytes rest).length := by
    intro rest hget
    rw [hcontent] at hget
    exact absurd (sep_inj (by decide) (by decide) hget).1 (by decide)
  obtain ⟨fuel, answer, hanswer, hproper⟩ := h _ _ Layout.readable_fresh hname
  rw [buildAnswer_dropped (by decide) hcontent] at hanswer
  obtain rfl := Option.some.inj hanswer
  have hbegins := hproper.message.begins
  revert hbegins
  decide

end DistributedAscii.Simulation
