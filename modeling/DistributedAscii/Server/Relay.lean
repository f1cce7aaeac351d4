import DistributedAscii.Server.Answers

/-!
# Server — a drawing on its way to the client

The fork reads the answer to a `GET` and turns it into HTTP: it takes an
answer with `BEGIN/ERROR/` anywhere in it for an error, any other one with
`BEGIN/OK/` loses 9 bytes in front and 4 at the end. A drawing that ends
with `BEGIN/ERROR` gets the slash of its own `/END` and turns into an error
with the code `END`.
-/

namespace DistributedAscii.Server

open FileSystem Lib.Search

/-- The head of the HTTP answer to a `GET`. -/
def okHeader : Bytes :=
  bytes "HTTP/1.1 200 OK\r\nContent-Type: text/plain; charset=utf-8\r\n\r\n"

theorem bytes_error : bytes "BEGIN/ERROR/" = 66 :: bytes "EGIN/ERROR/" := by decide

section Marks

variable {name asciiArt : Bytes}

theorem not_mem_drawingTitle (hname : 47 ∉ name) : 47 ∉ drawingTitle name := by
  rw [drawingTitle, List.mem_append, List.mem_append]
  rintro ((h | h) | h)
  · revert h
    decide
  · exact hname h
  · revert h
    decide

theorem drawingAnswer_eq (name asciiArt : Bytes) :
    drawingAnswer name asciiArt
      = bytes "BEGIN/OK/" ++ (drawingTitle name ++ asciiArt) ++ bytes "/END" := by
  simp [drawingAnswer]

/-- The title is no early mark: it begins with `Es`. -/
theorem end_infix_drawing_iff (hname : 47 ∉ name) :
    bytes "/END" <:+: bytes "BEGIN/OK/" ++ (drawingTitle name ++ asciiArt)
      ↔ bytes "/END" <:+: asciiArt := by
  have htitle : ¬ bytes "END" <+: drawingTitle name ++ asciiArt := by
    have hfront : drawingTitle name = 69 :: 115 :: (bytes "te es el contenido del dibujo "
        ++ name ++ bytes ":\n") := rfl
    simp [hfront, bytes_end_word]
  rw [end_infix_answer_iff, bytes_end, infix_append_of_not_mem (not_mem_drawingTitle hname)]
  exact ⟨fun h => h.resolve_left htitle, .inr⟩

/-- What stands in front of the drawing has no mark of an error: the slashes
of `BEGIN/OK/` are followed by `OK` and by the title. -/
theorem error_infix_head (hname : 47 ∉ name) :
    ¬ bytes "BEGIN/ERROR/" <:+: bytes "BEGIN/OK/" ++ (bytes "Este es el contenido del dibujo "
      ++ name ++ bytes ":") := by
  intro h
  have htail : 47 :: 69 :: bytes "RROR/" <:+: bytes "BEGIN/OK/"
      ++ (bytes "Este es el contenido del dibujo " ++ name ++ bytes ":") :=
    List.IsInfix.trans ⟨bytes "BEGIN", [], by decide⟩ h
  rcases (slash_infix_answer_iff (by decide)).mp htail with hstart | hlater
  · have hfront : bytes "Este es el contenido del dibujo "
        = 69 :: 115 :: bytes "te es el contenido del dibujo " := by decide
    simp [hfront, show bytes "RROR/" = [82, 82, 79, 82, 47] by decide] at hstart
  · have hmem := hlater.subset List.mem_cons_self
    rw [List.mem_append, List.mem_append] at hmem
    rcases hmem with (hmem | hmem) | hmem
    · revert hmem
      decide
    · exact hname hmem
    · revert hmem
      decide

/-- The title ends with a line break. -/
theorem content_eq (name asciiArt : Bytes) :
    bytes "BEGIN/OK/" ++ (drawingTitle name ++ asciiArt)
      = (bytes "BEGIN/OK/" ++ (bytes "Este es el contenido del dibujo " ++ name ++ bytes ":"))
        ++ 10 :: asciiArt := by
  simp [drawingTitle, show bytes ":\n" = bytes ":" ++ [10] by decide]

/-- The mark of an error is not in an answer before its drawing. -/
theorem error_infix_content_iff (hname : 47 ∉ name) :
    bytes "BEGIN/ERROR/" <:+: bytes "BEGIN/OK/" ++ (drawingTitle name ++ asciiArt)
      ↔ bytes "BEGIN/ERROR/" <:+: asciiArt := by
  rw [content_eq, infix_append_cons_iff (by decide)]
  exact ⟨fun h => h.resolve_left (error_infix_head hname), .inr⟩

/-- **The mark across the end**: only a drawing that ends with `BEGIN/ERROR`
makes a mark of an error together with `/END`. -/
theorem error_infix_append_end_iff {s : Bytes} (hs : ¬ bytes "BEGIN/ERROR/" <:+: s) :
    bytes "BEGIN/ERROR/" <:+: s ++ bytes "/END" ↔ bytes "BEGIN/ERROR" <:+ s := by
  constructor
  · intro h
    rcases List.infix_append_iff_ne_nil.mp h with h | h | ⟨front, back, _, hback, hpat, hsuf, hpre⟩
    · exact absurd h hs
    · exact absurd h.length_le (by decide)
    · -- of the part behind the border only the slash fits
      have hfits : ∀ k < 5, 0 < k →
          (bytes "BEGIN/ERROR/").drop (12 - k) = (bytes "/END").take k → k = 1 := by
        decide
      have hlen : front.length + back.length = 12 := by
        rw [← List.length_append, ← hpat]
        decide
      have hle : back.length ≤ 4 := hpre.length_le
      have hpos : 0 < back.length := List.length_pos_iff.mpr hback
      have hone : back.length = 1 := by
        apply hfits _ (by omega) hpos
        rw [hpat, show 12 - back.length = front.length by omega, List.drop_left]
        exact List.prefix_iff_eq_take.mp hpre
      have hfront : front = bytes "BEGIN/ERROR" := by
        have htake := congrArg (List.take front.length) hpat
        rw [List.take_left, show front.length = 11 by omega] at htake
        rw [← htake]
        decide
      exact hfront ▸ hsuf
  · rintro ⟨t, rfl⟩
    exact ⟨t, bytes "END", by simp only [List.append_assoc]; rfl⟩

/-- **The error that is none.** -/
theorem error_infix_drawing_iff (hname : 47 ∉ name)
    (herror : ¬ bytes "BEGIN/ERROR/" <:+: asciiArt) :
    bytes "BEGIN/ERROR/" <:+: drawingAnswer name asciiArt
      ↔ bytes "BEGIN/ERROR" <:+ asciiArt := by
  rw [drawingAnswer_eq, error_infix_append_end_iff ((error_infix_content_iff hname).not.mpr herror),
    content_eq, suffix_append_cons_iff (by decide)]

end Marks

/-! ## The translation -/

/-- The drawing reaches the client as it is, however the answer is cut into
reads. -/
def Relayed (name asciiArt : Bytes) : Prop :=
  ∀ pieces, Cut (drawingAnswer name asciiArt) pieces →
    requestFromServer (some (pieces.map .data)) = some (drawingAnswer name asciiArt)
      ∧ translateAsciiToHttp (.ofBytes (drawingAnswer name asciiArt))
        = okHeader ++ (drawingTitle name ++ asciiArt)

section Translation

variable {response : CString}

/-- Without a mark of an error the offsets 9 and `length - 13` cut out the
content. -/
theorem translate_ok {content : Bytes}
    (hresponse : response.bytes = bytes "BEGIN/OK/" ++ content ++ bytes "/END")
    (herror : ¬ bytes "BEGIN/ERROR/" <:+: response.bytes) :
    translateAsciiToHttp response = okHeader ++ content := by
  have hok : contains (bytes "BEGIN/OK/") response.bytes = true := by
    rw [contains_iff, hresponse, List.append_assoc]
    exact (List.prefix_append _ _).isInfix
  have hcount : sizeDiff (some response.bytes.length) 13 = some content.length := by
    have hlen : response.bytes.length = 13 + content.length := by
      rw [hresponse, List.length_append, List.length_append, length_okMark, length_endMark]
      omega
    simp [hlen, sizeDiff]
  have hcut : substr response.bytes 9 (some content.length) = content := by
    rw [hresponse, substr, List.append_assoc, List.drop_left' length_okMark, List.take_left]
  rw [translateAsciiToHttp, find_eq_none herror]
  simp only [hok, if_true, hcount, hcut]
  rfl

/-- A mark of an error whose slash is the one of `/END`: what is left is
taken for the code. -/
theorem translate_early {front : Bytes}
    (hresponse : response.bytes = front ++ (bytes "BEGIN/ERROR/" ++ bytes "END"))
    (hfront : ¬ bytes "BEGIN/ERROR/" <:+: front) :
    ∃ rest, translateAsciiToHttp response = bytes "HTTP/1.1 " ++ bytes "END" ++ rest := by
  have hmark : (bytes "BEGIN/ERROR/").length = 12 := by decide
  have hfind : find (bytes "BEGIN/ERROR/") response.bytes = some front.length := by
    rw [hresponse]
    rw [bytes_error] at hfront ⊢
    exact find_append_self (by decide) hfront _
  have hdrop : response.bytes.drop (front.length + 12) = bytes "END" := by
    rw [hresponse, ← List.append_assoc]
    exact List.drop_left' (by rw [List.length_append, hmark])
  have hcode : findFrom (bytes "/") response.bytes (front.length + 12) = none := by
    rw [findFrom, hdrop]
    split <;> rfl
  rw [translateAsciiToHttp]
  simp only [hfind, hcode, sizeDiff, substr, hdrop]
  exact ⟨_, List.append_assoc _ _ _⟩

end Translation

section Relay

variable {name asciiArt : CString}

theorem drawingAnswer_bytes (name asciiArt : CString) :
    (CString.ofBytes (drawingAnswer name.bytes asciiArt.bytes)).bytes
      = drawingAnswer name.bytes asciiArt.bytes := by
  apply CString.ofBytes_bytes
  have hname := name.noNul
  have hart := asciiArt.noNul
  simp only [drawingAnswer, drawingTitle, List.mem_append, not_or]
  refine ⟨⟨⟨?_, ⟨?_, hname⟩, ?_⟩, hart⟩, ?_⟩
  all_goals decide

theorem relayed_of_not_suffix (hname : 47 ∉ name.bytes)
    (hend : ¬ bytes "/END" <:+: asciiArt.bytes)
    (herror : ¬ bytes "BEGIN/ERROR/" <:+: asciiArt.bytes)
    (hlast : ¬ bytes "BEGIN/ERROR" <:+ asciiArt.bytes) :
    Relayed name.bytes asciiArt.bytes := by
  intro pieces hcut
  rw [drawingAnswer_eq] at hcut
  have hread := requestFromServer_whole ((end_infix_drawing_iff hname).not.mpr hend) hcut
  rw [← drawingAnswer_eq] at hread
  refine ⟨hread, translate_ok ?_ ?_⟩
  · rw [drawingAnswer_bytes, drawingAnswer_eq]
  · rw [drawingAnswer_bytes, error_infix_drawing_iff hname herror]
    exact hlast

theorem not_relayed_of_suffix (hname : 47 ∉ name.bytes)
    (herror : ¬ bytes "BEGIN/ERROR/" <:+: asciiArt.bytes)
    (hlast : bytes "BEGIN/ERROR" <:+ asciiArt.bytes) :
    ¬ Relayed name.bytes asciiArt.bytes := by
  intro h
  obtain ⟨front, hfront⟩ := hlast
  have hresponse : (CString.ofBytes (drawingAnswer name.bytes asciiArt.bytes)).bytes
      = bytes "BEGIN/OK/" ++ (drawingTitle name.bytes ++ front)
        ++ (bytes "BEGIN/ERROR/" ++ bytes "END") := by
    rw [drawingAnswer_bytes, drawingAnswer_eq, ← hfront]
    simp only [List.append_assoc]
    rfl
  have hearly : ¬ bytes "BEGIN/ERROR/" <:+: front :=
    fun hin => herror (hin.trans ⟨[], bytes "BEGIN/ERROR", hfront⟩)
  obtain ⟨rest, htext⟩ :=
    translate_early hresponse ((error_infix_content_iff hname).not.mpr hearly)
  have hok := (h _ (cut_bytes _)).2
  have hheader : okHeader = bytes "HTTP/1.1 " ++ (bytes "200 OK\r\n"
      ++ bytes "Content-Type: text/plain; charset=utf-8\r\n\r\n") := rfl
  -- `END` stands where `200` should be
  rw [htext, hheader, List.append_assoc, List.append_assoc, List.append_cancel_left_eq] at hok
  exact absurd (congrArg List.head? hok) (by simp [bytes_end_word,
    show bytes "200 OK\r\n" = [50, 48, 48, 32, 79, 75, 13, 10] by decide])

/-- **When a drawing is relayed unchanged**: if it does not end with
`BEGIN/ERROR`. -/
theorem relayed_iff (hname : 47 ∉ name.bytes) (hend : ¬ bytes "/END" <:+: asciiArt.bytes)
    (herror : ¬ bytes "BEGIN/ERROR/" <:+: asciiArt.bytes) :
    Relayed name.bytes asciiArt.bytes ↔ ¬ bytes "BEGIN/ERROR" <:+ asciiArt.bytes := by
  constructor
  · exact fun h hlast => not_relayed_of_suffix hname herror hlast h
  · exact relayed_of_not_suffix hname hend herror

/-- The cat reaches the client. -/
theorem relayed_gato :
    Relayed (CString.ofBytes (bytes "gato")).bytes (CString.ofBytes (bytes "=^.^=")).bytes := by
  apply (relayed_iff _ _ _).mpr
  all_goals decide

/-- A drawing that is the text `BEGIN/ERROR` is answered with an error. -/
theorem not_relayed_error :
    ¬ ∀ name asciiArt : CString, name.bytes ≠ [] → 47 ∉ name.bytes →
      ¬ bytes "/END" <:+: asciiArt.bytes → ¬ bytes "BEGIN/ERROR/" <:+: asciiArt.bytes →
      Relayed name.bytes asciiArt.bytes := by
  intro h
  have hname : 47 ∉ (CString.ofBytes (bytes "gato")).bytes := by decide
  have herror : ¬ bytes "BEGIN/ERROR/" <:+: (CString.ofBytes (bytes "BEGIN/ERROR")).bytes := by
    decide
  exact not_relayed_of_suffix hname herror (by decide)
    (h _ _ (by decide) hname (by decide) herror)

end Relay

end DistributedAscii.Server
