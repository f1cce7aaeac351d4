import DistributedAscii.Server.Answers

/-!
# Server — the frame of a request

`validateRequest` tests a prefix and a suffix that may share a slash, cuts
out what lies between them with an unsigned length, and splits that at its
slashes. The one string whose frame overlaps is `BEGIN/END`, and its single
token is no command; any other request that passes is a content in its
frame.
-/

namespace DistributedAscii.Server

open Lib.Search

/-! ## The split loop -/

/-- The loop that takes the tokens from the front of the content. Both its
`substr` and its `erase` begin at 0. -/
def splitLoop (tokens : List Bytes) (content : Bytes) : List Bytes :=
  match h : find (bytes "/") content with
  | some pos =>
      splitLoop (tokens ++ [substr content 0 (some pos)]) (content.drop (pos + 1))
  | none => tokens ++ [content]
termination_by content.length
decreasing_by
  have hle := find_le h
  rw [show (bytes "/").length = 1 by decide] at hle
  rw [List.length_drop]
  omega

theorem bytes_slash : bytes "/" = [47] := by decide

theorem splitLoop_last {content : Bytes} (h : 47 ∉ content) (tokens : List Bytes) :
    splitLoop tokens content = tokens ++ [content] := by
  have hfind : find (bytes "/") content = none := by
    rw [bytes_slash]
    exact find_eq_none ((List.singleton_infix_iff _ _).not.mpr h)
  rw [splitLoop]
  split
  · rename_i hpos
    rw [hfind] at hpos
    cases hpos
  · rfl

theorem splitLoop_slash {x : Bytes} (hx : 47 ∉ x) (tokens : List Bytes) (y : Bytes) :
    splitLoop tokens (x ++ 47 :: y) = splitLoop (tokens ++ [x]) y := by
  have hfind : find (bytes "/") (x ++ 47 :: y) = some x.length := by
    rw [bytes_slash, find_append_of_not_mem hx, show 47 :: y = [47] ++ y from rfl,
      find_append_left]
    simp
  rw [splitLoop]
  split
  · rename_i pos hpos
    obtain rfl := Option.some.inj (hfind.symm.trans hpos)
    rw [substr, List.drop_zero, List.take_left, ← List.drop_drop, List.drop_left]
    rfl
  · rename_i hnone
    rw [hfind] at hnone
    cases hnone

/-- **The loop splits at the slashes.** -/
theorem splitLoop_eq (tokens : List Bytes) (content : Bytes) :
    splitLoop tokens content = tokens ++ content.splitOn 47 := by
  induction hlen : content.length using Nat.strong_induction_on generalizing tokens content with
  | _ n ih =>
      rcases splitOn_cases 47 content with ⟨hout, hsplit⟩ | ⟨x, y, rfl, hx, hsplit⟩
      · rw [splitLoop_last hout, hsplit]
      · have hy : y.length < n := by
          rw [← hlen, List.length_append, List.length_cons]
          omega
        rw [splitLoop_slash hx, ih y.length hy _ y rfl, hsplit]
        simp

theorem requestTokens_eq (req : Bytes) :
    requestTokens req = splitLoop [] (substr req 6 (sizeDiff (some req.length) 10)) := by
  rw [splitLoop_eq, List.nil_append, requestTokens]

/-! ## The frame -/

/-- The calls of `substr` in front of the loop; the second one is only
reached behind the prefix, the third one behind the whole frame. -/
def frameCuts (req : Bytes) : List (Bytes × Option Nat) :=
  if req = [] then []
  else if req.take 6 ≠ bytes "BEGIN/" then [(req, some 0)]
  else if req.drop (req.length - 4) ≠ bytes "/END" then
    [(req, some 0), (req, sizeDiff (some req.length) 4)]
  else [(req, some 0), (req, sizeDiff (some req.length) 4), (req, some 6)]

/-- **No request makes `substr` throw.** -/
theorem inRange_frame (req : Bytes) : InRange (frameCuts req) := by
  have hzero : InRange [(req, some 0)] := inRange_cons_iff.mpr ⟨Nat.zero_le _, inRange_nil⟩
  rw [frameCuts]
  split
  · exact inRange_nil
  · split
    · exact hzero
    · rename_i hprefix
      have hlong : 6 ≤ req.length := by
        have hlen := congrArg List.length (not_not.mp hprefix)
        rw [List.length_take, show (bytes "BEGIN/").length = 6 by decide] at hlen
        omega
      have hfour : sizeDiff (some req.length) 4 = some (req.length - 4) := if_pos (by omega)
      rw [hfour]
      split
      · exact inRange_cons_iff.mpr
          ⟨Nat.zero_le _, inRange_cons_iff.mpr ⟨Nat.sub_le _ _, inRange_nil⟩⟩
      · exact inRange_cons_iff.mpr ⟨Nat.zero_le _, inRange_cons_iff.mpr
          ⟨Nat.sub_le _ _, inRange_cons_iff.mpr ⟨hlong, inRange_nil⟩⟩⟩

/-- A request with a content between the parts of the frame. -/
def framed (content : Bytes) : Bytes :=
  bytes "BEGIN/" ++ content ++ bytes "/END"

theorem badFrame_framed (content : Bytes) : badFrame (framed content) = false := by
  have hfirst : (framed content).take 6 = bytes "BEGIN/" := by
    rw [framed, List.append_assoc]
    exact List.take_left' (by decide)
  have hlast : (framed content).drop ((framed content).length - 4) = bytes "/END" := by
    have hlen : (framed content).length - 4 = (bytes "BEGIN/" ++ content).length := by
      rw [framed, List.length_append, length_endMark, Nat.add_sub_cancel]
    rw [hlen, framed, List.drop_left]
  rw [badFrame, hfirst, hlast]
  decide

theorem requestTokens_framed (content : Bytes) :
    requestTokens (framed content) = content.splitOn 47 := by
  have hsix : (bytes "BEGIN/").length = 6 := by decide
  have hlen : (framed content).length = 10 + content.length := by
    rw [framed, List.length_append, List.length_append, length_endMark, hsix]
    omega
  have hcount : sizeDiff (some (10 + content.length)) 10 = some content.length := by
    simp [sizeDiff]
  rw [requestTokens, hlen, hcount, substr, framed, List.append_assoc, List.drop_left' hsix,
    List.take_left]

/-- **What the frame lets through**: a content in it, or the one string in
which prefix and suffix share their slash. -/
theorem framed_of_badFrame {req : Bytes} (h : badFrame req = false) :
    req = bytes "BEGIN/END" ∨ ∃ content, req = framed content := by
  rw [badFrame, Bool.or_eq_false_iff] at h
  have hfirst : req.take 6 = bytes "BEGIN/" := by simpa using h.1
  have hlast : req.drop (req.length - 4) = bytes "/END" := by simpa using h.2
  obtain ⟨tail, rfl⟩ : ∃ tail, req = bytes "BEGIN/" ++ tail :=
    ⟨req.drop 6, by rw [← hfirst, List.take_append_drop]⟩
  have hsix : (bytes "BEGIN/").length = 6 := by decide
  rw [List.length_append, hsix] at hlast
  by_cases hlong : 4 ≤ tail.length
  · -- the suffix lies in the tail
    right
    rw [show 6 + tail.length - 4 = (bytes "BEGIN/").length + (tail.length - 4) by omega,
      List.drop_length_add_append] at hlast
    exact ⟨tail.take (tail.length - 4), by
      rw [framed, List.append_assoc, ← hlast, List.take_append_drop]⟩
  · -- the suffix reaches into the prefix
    left
    have hcut : (bytes "BEGIN/").drop (2 + tail.length) ++ tail = bytes "/END" := by
      rw [← hlast, List.drop_append_of_le_length (by omega)]
      congr 2
      omega
    rw [show bytes "BEGIN/" = [66, 69, 71, 73, 78, 47] by decide, bytes_end] at hcut
    match tail, hcut with
    | [], hcut => simp at hcut
    | [a], hcut => simp at hcut
    | [a, b], hcut => simp at hcut
    | [a, b, c], hcut =>
        obtain ⟨rfl, rfl, rfl⟩ : a = 69 ∧ b = 78 ∧ c = 68 := by simpa using hcut
        decide
    | a :: b :: c :: d :: rest, _ => simp at hlong

/-! ## Two commands -/

/-- **The request for the list.** -/
theorem framed_objects_iff {req : Bytes} :
    badFrame req = false ∧ requestTokens req = [bytes "OBJECTS"]
      ↔ req = bytes "BEGIN/OBJECTS/END" := by
  constructor
  · rintro ⟨hframe, htokens⟩
    rcases framed_of_badFrame hframe with rfl | ⟨content, rfl⟩
    · exact absurd htokens (by decide)
    · rw [requestTokens_framed, splitOn_eq_singleton_iff] at htokens
      rw [htokens.1]
      decide
  · rintro rfl
    decide

/-- **The request for a drawing.** -/
theorem framed_drawing_iff {req ascii : Bytes} :
    badFrame req = false ∧ requestTokens req = [bytes "GET", ascii]
      ↔ 47 ∉ ascii ∧ req = framed (bytes "GET" ++ 47 :: ascii) := by
  constructor
  · rintro ⟨hframe, htokens⟩
    rcases framed_of_badFrame hframe with rfl | ⟨content, rfl⟩
    · exact absurd (congrArg List.length htokens)
        (show (requestTokens (bytes "BEGIN/END")).length ≠ 2 by decide)
    · rw [requestTokens_framed, splitOn_eq_pair_iff] at htokens
      obtain ⟨rfl, -, hascii⟩ := htokens
      exact ⟨hascii, rfl⟩
  · rintro ⟨hascii, rfl⟩
    refine ⟨badFrame_framed _, ?_⟩
    rw [requestTokens_framed, splitOn_eq_pair_iff]
    exact ⟨rfl, by decide, hascii⟩

end DistributedAscii.Server
