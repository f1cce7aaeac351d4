import DistributedAscii.Server.Frame
import DistributedAscii.Server.Registration
import DistributedAscii.Simulation.Adapter
import DistributedAscii.Simulation.ColabProtocolHandler

/-!
# Simulation — two decoders of one frame

The server takes the frame off with a search for the first `BEGIN/` and the
first `/END`; the tenedor wants the last `BEGIN/` in front and the last
`/END` at the end. Marks that arise across the border of the content tell
them apart: the slash of `BEGIN/` and a content that begins with `END` end
the message early for the server, a content that ends with `BEGIN` and the
slash of `/END` begin it late for the tenedor.
-/

namespace DistributedAscii.Simulation

open Lib.Search Server

variable {c : Bytes}

theorem length_frame (c : Bytes) : (Server.framed c).length = c.length + 10 := by
  rw [Server.framed, List.length_append, List.length_append, length_endMark,
    show (bytes "BEGIN/").length = 6 by decide]
  omega

/-! ## The server -/

/-- The first end mark is the slash of `BEGIN/` with the content's own
letters, or it lies in the content. -/
theorem end_infix_begin_iff : bytes "/END" <:+: bytes "BEGIN/" ++ c
    ↔ bytes "END" <+: c ∨ bytes "/END" <:+: c := by
  have hend : bytes "/END" = [] ++ 47 :: bytes "END" := by decide
  have hbegin : bytes "BEGIN/" ++ c = bytes "BEGIN" ++ 47 :: c := by
    rw [show bytes "BEGIN/" = bytes "BEGIN" ++ [47] by decide, List.append_assoc,
      List.singleton_append]
  rw [hbegin, hend, sep_infix_iff (by simp) (by decide)]
  simp

/-- **The server's decoder**: the content, or, when it begins with `END`,
all that follows the begin mark. -/
theorem deleteFlags_framed (hend : ¬ bytes "/END" <:+: c) :
    deleteFlags (Server.framed c) = if bytes "END" <+: c then c ++ bytes "/END" else c := by
  have hfirst : find (bytes "BEGIN/") (Server.framed c) = some 0 := by
    rw [Server.framed, List.append_assoc]
    exact find_append_left _ _
  have hdrop : (Server.framed c).drop 6 = c ++ bytes "/END" := by
    rw [Server.framed, List.append_assoc]
    exact List.drop_left' (by decide)
  by_cases hearly : bytes "END" <+: c
  · -- the end mark is found in front of the content
    obtain ⟨rest, rfl⟩ := hearly
    have hlast : find (bytes "/END") (Server.framed (bytes "END" ++ rest)) = some 5 := by
      have hno : ¬ bytes "/END" <:+: bytes "BEGIN" := by decide
      have hmark := find_end hno (rest ++ bytes "/END")
      rw [show (bytes "BEGIN").length = 5 by decide] at hmark
      rw [← hmark, Server.framed, List.append_assoc, List.append_assoc]
      rfl
    rw [deleteFlags, hfirst, hlast, if_pos (List.prefix_append _ _)]
    dsimp only
    rw [sizeDiff, if_neg (by decide), substr, hdrop]
  · have hlast : find (bytes "/END") (Server.framed c) = some (6 + c.length) := by
      have hno : ¬ bytes "/END" <:+: bytes "BEGIN/" ++ c := by
        rw [end_infix_begin_iff]
        exact fun h => h.elim hearly hend
      have hmark := find_end hno []
      rwa [List.append_nil, List.length_append, show (bytes "BEGIN/").length = 6 by decide]
        at hmark
    rw [deleteFlags, hfirst, hlast, if_neg hearly]
    dsimp only
    rw [sizeDiff, if_pos (by omega), substr, hdrop, show 6 + c.length - (0 + 6) = c.length by omega,
      List.take_left]

/-! ## The tenedor -/

/-- The begin mark is met in a text and its end mark if it is in the text or
lies across the border. -/
theorem begin_infix_append_end_iff :
    bytes "BEGIN/" <:+: c ++ bytes "/END" ↔ bytes "BEGIN/" <:+: c ∨ bytes "BEGIN" <:+ c := by
  constructor
  · intro h
    rcases List.infix_append_iff_ne_nil.mp h with h | h | ⟨front, back, hf, hb, heq, hfront, hback⟩
    · exact .inl h
    · exact absurd h.length_le (by decide)
    · -- the back begins with the slash, which is the last letter of the mark
      obtain ⟨d, back, rfl⟩ := List.exists_cons_of_ne_nil hb
      obtain rfl : d = 47 := (List.cons_prefix_cons.mp hback).1
      have hget : (bytes "BEGIN/")[front.length]? = some 47 := by simp [heq]
      have hlast : ∀ k < 6, (bytes "BEGIN/")[k]? = some 47 → k = 5 := by decide
      have hlt : front.length < 6 := (List.getElem?_eq_some_iff.mp hget).1
      have htake : front = (bytes "BEGIN/").take front.length := by simp [heq]
      rw [hlast _ hlt hget, show (bytes "BEGIN/").take 5 = bytes "BEGIN" by decide] at htake
      exact .inr (htake ▸ hfront)
  · rintro (h | ⟨front, rfl⟩)
    · exact h.trans (List.prefix_append _ _).isInfix
    · exact ⟨front, bytes "END", by simp [show bytes "BEGIN/" = bytes "BEGIN" ++ [47] from rfl,
        show bytes "/END" = [47] ++ bytes "END" from rfl]⟩

/-- Searched from the end, the begin mark is found in front iff the content
makes no other one. -/
theorem rfind_begin_framed_iff (c : Bytes) : rfind (bytes "BEGIN/") (Server.framed c) = some 0
    ↔ ¬ bytes "BEGIN/" <:+: c ++ bytes "/END" := by
  have hcons : Server.framed c = 66 :: (bytes "EGIN/" ++ (c ++ bytes "/END")) := by
    rw [Server.framed, List.append_assoc]
    rfl
  have hfront : bytes "BEGIN/" <+: 66 :: (bytes "EGIN/" ++ (c ++ bytes "/END")) := by
    rw [← List.cons_append, show 66 :: bytes "EGIN/" = bytes "BEGIN/" by decide]
    exact List.prefix_append _ _
  have hnot : (66 : UInt8) ∉ bytes "EGIN/" := by decide
  have hrest : bytes "BEGIN/" <:+: bytes "EGIN/" ++ (c ++ bytes "/END")
      ↔ bytes "BEGIN/" <:+: c ++ bytes "/END" :=
    infix_append_of_not_mem hnot _
  rw [hcons, rfind_cons_eq_zero_iff, hrest]
  exact ⟨And.right, fun h => ⟨hfront, h⟩⟩

/-- Another begin mark: the message is refused. -/
theorem getContent_begin (hbegin : bytes "BEGIN/" <:+: c ++ bytes "/END") :
    getContent (Server.framed c) = .error httpBadRequest := by
  have hpos : position (rfind (bytes "BEGIN/") (Server.framed c)) ≠ 0 := by
    have hlate := mt (rfind_begin_framed_iff c).mp (not_not.mpr hbegin)
    cases hfound : rfind (bytes "BEGIN/") (Server.framed c) with
    | none => decide
    | some i =>
        rw [hfound] at hlate
        exact fun h => hlate (congrArg some h)
  rw [getContent, if_pos]
  simp [hpos]

/-- **The tenedor's decoder**: the content, unless another begin mark arises. -/
theorem getContent_frame (hne : c ≠ []) (hsize : (Server.framed c).length < npos) :
    getContent (Server.framed c)
      = if bytes "BEGIN/" <:+: c ++ bytes "/END" then .error httpBadRequest else .ok c := by
  by_cases hbegin : bytes "BEGIN/" <:+: c ++ bytes "/END"
  · rw [getContent_begin hbegin, if_pos hbegin]
  · have hfirst := (rfind_begin_framed_iff c).mpr hbegin
    have hlast : rfind (bytes "/END") (Server.framed c) = some (6 + c.length) := by
      rw [Server.framed, rfind_append_self, List.length_append]
      rfl
    have hsub : sizeSub (Server.framed c).length 4 = 6 + c.length := by
      rw [length_frame] at hsize ⊢
      rw [npos] at hsize
      rw [sizeSub]
      omega
    have hcut : substr (Server.framed c) 6 (some c.length) = c := by
      rw [substr, Server.framed, List.append_assoc, List.drop_left' (by decide), List.take_left]
    have hlen : 0 < c.length := List.length_pos_iff.mpr hne
    rw [if_neg hbegin, getContent, hfirst, hlast, hsub]
    simp [position, hcut, hlen.ne']

/-! ## Together -/

/-- **When both decoders undo the frame.** -/
theorem decoders_agree_iff (hne : c ≠ []) (hbegin : ¬ bytes "BEGIN/" <:+: c)
    (hend : ¬ bytes "/END" <:+: c) (hsize : (Server.framed c).length < npos) :
    deleteFlags (Server.framed c) = c ∧ getContent (Server.framed c) = .ok c
      ↔ ¬ bytes "END" <+: c ∧ ¬ bytes "BEGIN" <:+ c := by
  have hlonger : c ++ bytes "/END" ≠ c := by simp [bytes_end]
  have hlate : bytes "BEGIN/" <:+: c ++ bytes "/END" ↔ bytes "BEGIN" <:+ c := by
    rw [begin_infix_append_end_iff]
    exact ⟨fun h => h.resolve_left hbegin, .inr⟩
  rw [deleteFlags_framed hend, getContent_frame hne hsize]
  simp only [hlate]
  apply and_congr
  · by_cases h : bytes "END" <+: c <;> simp [h, hlonger]
  · by_cases h : bytes "BEGIN" <:+ c <;> simp [h]

theorem decoders_agree_objects :
    deleteFlags (Server.framed (bytes "OBJECTS")) = bytes "OBJECTS"
      ∧ getContent (Server.framed (bytes "OBJECTS")) = .ok (bytes "OBJECTS") :=
  (decoders_agree_iff (by decide) (by decide) (by decide) (by decide)).mpr (by decide)

/-- A content that the server takes for an end. -/
theorem decoders_disagree :
    ¬ ∀ c : Bytes, c ≠ [] → ¬ bytes "BEGIN/" <:+: c → ¬ bytes "/END" <:+: c →
      (Server.framed c).length < npos →
      deleteFlags (Server.framed c) = c ∧ getContent (Server.framed c) = .ok c := by
  intro h
  have hserver := (h (bytes "END") (by decide) (by decide) (by decide) (by decide)).1
  revert hserver
  decide

end DistributedAscii.Simulation
