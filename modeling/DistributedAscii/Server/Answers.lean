import DistributedAscii.Server.Registry
import DistributedAscii.Server.ASCIIServer
import DistributedAscii.FileSystem.Directory

/-!
# Server — answers on their way to the fork

An answer is `BEGIN/OK/`, a content and `/END`, written in one piece and
read in others. The reader stops at the first `/END` of what it has so far,
so it takes the whole answer if `/END` does not come earlier
(`readLoop_whole`). The frame alone can make one: the slash of `OK/` and a
content that begins with `END` (`end_infix_answer_iff`).
-/

namespace DistributedAscii.Server

open FileSystem Lib.Search

/-! ## Marks -/

theorem bytes_end : bytes "/END" = 47 :: [69, 78, 68] := by decide

theorem bytes_end_word : bytes "END" = [69, 78, 68] := by decide

theorem bytes_newline : bytes "\n" = [10] := by decide

@[simp] theorem length_okMark : (bytes "BEGIN/OK/").length = 9 := by decide

@[simp] theorem length_endMark : (bytes "/END").length = 4 := by decide

/-- The first `/END`, in front of anything. -/
theorem find_end {s : Bytes} (hs : ¬ bytes "/END" <:+: s) (rest : Bytes) :
    find (bytes "/END") (s ++ (bytes "/END" ++ rest)) = some s.length := by
  rw [bytes_end] at hs ⊢
  exact find_append_self (by decide) hs rest

/-! ## Reading -/

/-- The reads of a connection that has to hand over `answer`. -/
structure Cut (answer : Bytes) (pieces : List Bytes) : Prop where
  flatten : pieces.flatten = answer
  ne_nil : ∀ p ∈ pieces, p ≠ []
  size : ∀ p ∈ pieces, p.length ≤ 256

/-- An answer that fits is read at once. -/
theorem cut_singleton {answer : Bytes} (hne : answer ≠ []) (hsize : answer.length ≤ 256) :
    Cut answer [answer] where
  flatten := by simp
  ne_nil := by simpa using hne
  size := by simpa using hsize

/-- Any answer can come byte by byte. -/
theorem cut_bytes (answer : Bytes) : Cut answer (answer.map fun b => [b]) where
  flatten := by
    induction answer with
    | nil => rfl
    | cons b rest ih => simp [ih]
  ne_nil := by simp
  size := by simp

/-- The loop of both readers of the fork: reads are put together until the
mark is there. -/
def readUntil (mark : Bytes) : List ReadResult → Bytes → Option Bytes
  | [], whole => some whole
  | .failed :: _, _ => none
  | .data buffer :: rest, whole =>
      if buffer = [] then some whole
      else if contains mark (whole ++ buffer) then some (whole ++ buffer)
      else readUntil mark rest (whole ++ buffer)

/-- **The reader takes the whole message**, however it is cut, if the mark is
in no part of it that comes first. -/
theorem readUntil_whole {mark whole : Bytes}
    (hearly : ∀ front, front <+: whole → mark <:+: front → front = whole) {pieces : List Bytes}
    (hne : ∀ p ∈ pieces, p ≠ []) {front : Bytes} (hflatten : front ++ pieces.flatten = whole) :
    readUntil mark (pieces.map .data) front = some whole := by
  induction pieces generalizing front with
  | nil =>
      rw [List.flatten_nil, List.append_nil] at hflatten
      rw [hflatten]
      rfl
  | cons p rest ih =>
      have hp : p ≠ [] := hne p List.mem_cons_self
      rw [List.flatten_cons, ← List.append_assoc] at hflatten
      rw [List.map_cons, readUntil, if_neg hp]
      split
      · -- the mark is there: nothing can be missing
        rename_i hmark
        exact congrArg some
          (hearly _ (hflatten ▸ List.prefix_append _ _) (contains_iff.mp hmark))
      · -- no mark yet: the next read goes on from the longer front
        exact ih (fun q hq => hne q (List.mem_cons_of_mem _ hq)) hflatten

theorem readLoop_eq (reads : List ReadResult) (response : Bytes) :
    readLoop reads response = readUntil (bytes "/END") reads response := by
  induction reads generalizing response with
  | nil => rfl
  | cons read rest ih =>
      cases read with
      | failed => rfl
      | data buffer => rw [readLoop, readUntil, ih]

/-- An answer with the mark at its end only. -/
theorem readLoop_whole {s : Bytes} (hs : ¬ bytes "/END" <:+: s) {pieces : List Bytes}
    (hne : ∀ p ∈ pieces, p ≠ []) {response : Bytes}
    (hflatten : response ++ pieces.flatten = s ++ bytes "/END") :
    readLoop (pieces.map .data) response = some (s ++ bytes "/END") := by
  rw [readLoop_eq]
  refine readUntil_whole ?_ hne hflatten
  intro front hfront hmark
  by_contra hshort
  rw [bytes_end] at hs hmark hfront hshort
  exact not_infix_of_prefix (by decide) hs hfront hshort hmark

theorem requestFromServer_whole {s : Bytes} (hs : ¬ bytes "/END" <:+: s)
    {pieces : List Bytes} (hcut : Cut (s ++ bytes "/END") pieces) :
    requestFromServer (some (pieces.map .data)) = some (s ++ bytes "/END") := by
  have hread : readLoop (pieces.map .data) [] = some (s ++ bytes "/END") :=
    readLoop_whole hs hcut.ne_nil hcut.flatten
  have hne : s ++ bytes "/END" ≠ [] := by simp [bytes_end]
  simp [requestFromServer, hread, hne]

/-- An answer that is read at once is taken whole, whatever it holds. -/
theorem requestFromServer_singleton {answer : Bytes} (hne : answer ≠ []) :
    requestFromServer (some [.data answer]) = some answer := by
  simp [requestFromServer, readLoop, hne]

/-! ## The frame -/

/-- A mark with a slash in front is in the content, or the slash is the one of
`OK/` and the content goes on with the mark. -/
theorem slash_infix_answer_iff {c : UInt8} (hc : c ≠ 79) {rest content : Bytes} :
    47 :: c :: rest <:+: bytes "BEGIN/OK/" ++ content
      ↔ c :: rest <+: content ∨ 47 :: c :: rest <:+: content := by
  have hframe : bytes "BEGIN/OK/" ++ content
      = bytes "BEGIN" ++ 47 :: (bytes "OK" ++ 47 :: content) := rfl
  have hok : ¬ 47 :: c :: rest <+: 47 :: (bytes "OK" ++ 47 :: content) := by
    simp [show bytes "OK" = [79, 75] by decide, hc]
  have hslash : 47 :: c :: rest <+: 47 :: content ↔ c :: rest <+: content := by simp
  rw [hframe, infix_append_of_not_mem (by decide), List.infix_cons_iff,
    infix_append_of_not_mem (by decide), List.infix_cons_iff, hslash]
  exact ⟨fun h => h.resolve_left hok, .inr⟩

/-- **An early mark.** -/
theorem end_infix_answer_iff {content : Bytes} :
    bytes "/END" <:+: bytes "BEGIN/OK/" ++ content
      ↔ bytes "END" <+: content ∨ bytes "/END" <:+: content :=
  slash_infix_answer_iff (by decide)

/-! ## Lines -/

/-- Lines that are written are read back, and what follows the last line
break comes last. -/
theorem splitOn_lines {lines : List Bytes} (hlines : ∀ n ∈ lines, 10 ∉ n) {last : Bytes}
    (hlast : 10 ∉ last) :
    (lines.flatMap (fun n => n ++ bytes "\n") ++ last).splitOn 10 = lines ++ [last] := by
  induction lines with
  | nil => exact List.splitOn_eq_singleton hlast
  | cons n rest ih =>
      have hn : 10 ∉ n := hlines n List.mem_cons_self
      have hrest := ih fun m hm => hlines m (List.mem_cons_of_mem _ hm)
      rw [bytes_newline] at hrest ⊢
      rw [List.flatMap_cons, List.append_assoc, List.append_assoc, List.singleton_append,
        List.splitOn_append_cons_self_of_not_mem hn, hrest]
      rfl

theorem getLines_lines {lines : List Bytes} (hlines : ∀ n ∈ lines, 10 ∉ n) :
    getLines (lines.flatMap fun n => n ++ bytes "\n") = lines := by
  have hsplit := splitOn_lines hlines (List.not_mem_nil (a := 10))
  rw [List.append_nil] at hsplit
  simp [getLines, hsplit]

theorem getLines_lines_append {lines : List Bytes} (hlines : ∀ n ∈ lines, 10 ∉ n)
    {last : Bytes} (hlast : 10 ∉ last) (hne : last ≠ []) :
    getLines (lines.flatMap (fun n => n ++ bytes "\n") ++ last) = lines ++ [last] := by
  simp [getLines, splitOn_lines hlines hlast, hne]

/-! ## The names of an answer -/

/-- The names of an answer with the mark of success in front. -/
theorem objectsOf_ok (rest : Bytes) :
    objectsOf (bytes "BEGIN/OK/" ++ rest)
      = some (getLines (substr (bytes "BEGIN/OK/" ++ rest) 9
          (sizeDiff (find (bytes "/END") (bytes "BEGIN/OK/" ++ rest)) 9))) := by
  rw [objectsOf, find_append_left]
  rfl

/-- Without an early mark the content is what lies in the frame. -/
theorem objectsOf_answer {content : Bytes}
    (hend : ¬ bytes "/END" <:+: bytes "BEGIN/OK/" ++ content) :
    objectsOf (bytes "BEGIN/OK/" ++ content ++ bytes "/END") = some (getLines content) := by
  have hfind : find (bytes "/END") (bytes "BEGIN/OK/" ++ (content ++ bytes "/END"))
      = some (9 + content.length) := by
    have h := find_end hend []
    rw [List.append_nil, List.length_append, length_okMark, List.append_assoc] at h
    exact h
  have hcount : sizeDiff (some (9 + content.length)) 9 = some content.length := by
    simp [sizeDiff]
  rw [List.append_assoc, objectsOf_ok, hfind, hcount, substr, List.drop_left' length_okMark,
    List.take_left]

/-- **The slip of the splitter**: content that begins with `END` completes a
mark in front of it, and everything behind `OK/` is taken, the end of the
frame included. -/
theorem objectsOf_early {content : Bytes} (hend : bytes "END" <+: content) :
    objectsOf (bytes "BEGIN/OK/" ++ content ++ bytes "/END")
      = some (getLines (content ++ bytes "/END")) := by
  obtain ⟨rest, rfl⟩ := hend
  have hfront : ¬ bytes "/END" <:+: bytes "BEGIN/OK" := by
    rw [← find_isSome_iff]
    decide
  have hfind : find (bytes "/END") (bytes "BEGIN/OK/" ++ (bytes "END" ++ rest ++ bytes "/END"))
      = some 8 :=
    find_end hfront (rest ++ bytes "/END")
  have hcount : sizeDiff (some 8) 9 = none := rfl
  rw [List.append_assoc, objectsOf_ok, hfind, hcount, substr, List.drop_left' length_okMark]

/-- The list, as the server answers it. -/
theorem validateRequest_list {fuel : Nat} {disk : Disk} {request : CString}
    (h : request.bytes = bytes "BEGIN/OBJECTS/END") :
    validateRequest fuel disk request = some (objectsAnswer disk) := by
  have htokens : requestTokens (bytes "BEGIN/OBJECTS/END") = [bytes "OBJECTS"] := by decide
  rw [validateRequest, h, if_neg (by decide), if_neg (by decide), htokens]
  rfl

end DistributedAscii.Server
