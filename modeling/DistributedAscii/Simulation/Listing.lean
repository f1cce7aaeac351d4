import DistributedAscii.Simulation.Delivery
import DistributedAscii.Simulation.RequestGrammar

/-!
# Simulation — the page of the figures

Each list that a server hands in is kept under the number of lists before
it. The page of the tenedor prints a line for each figure, the number, a
slash and the name, and a client asks for a figure with the same text in its
request. What a line prints the request parser reads back, so page and
lookup agree whatever is kept; but a list whose last name ends with `BEGIN`
is not kept, and all later numbers are off by one.
-/

namespace DistributedAscii.Simulation

open Lib.Search Server

/-! ## Lists -/

/-- Names on lines of their own, with or without a break behind the last
one. -/
def listText (names : List Bytes) (closed : Bool) : Bytes :=
  if closed then names.flatMap (· ++ [10]) else [10].intercalate names

/-- A list that a server can hand in; its message is a string. -/
structure Listing where
  names : List Bytes
  closed : Bool
  name_ok : ∀ n ∈ names, n ≠ [] ∧ 47 ∉ n ∧ 10 ∉ n
  size : (framed (listText names closed)).length < npos

namespace Listing

variable (l : Listing)

def text : Bytes :=
  listText l.names l.closed

/-- The answer of the server. -/
def answer : Bytes :=
  framed l.text

/-- The lines of the text that are not empty are the names. -/
theorem filter_splitOn_text : (l.text.splitOn 10).filter (· ≠ []) = l.names := by
  have hbreak : ∀ n ∈ l.names, 10 ∉ n := fun n hn => (l.name_ok n hn).2.2
  have hnames : l.names.filter (· ≠ []) = l.names := by
    rw [List.filter_eq_self]
    intro n hn
    simpa using (l.name_ok n hn).1
  rw [text, listText]
  split
  · rw [splitOn_flatMap hbreak, List.filter_append, hnames]
    simp
  · by_cases hnil : l.names = []
    · rw [hnil]
      rfl
    · rw [List.splitOn_intercalate 10 hbreak hnil, hnames]

theorem not_mem_text : 47 ∉ l.text := by
  intro h
  rw [text, listText] at h
  split at h
  · obtain ⟨n, hn, hmem⟩ := List.mem_flatMap.mp h
    rw [List.mem_append] at hmem
    rcases hmem with hmem | hmem
    · exact (l.name_ok n hn).2.1 hmem
    · revert hmem
      decide
  · have hslash : ∀ names : List Bytes, (∀ n ∈ names, 47 ∉ n) → 47 ∉ [10].intercalate names := by
      intro names hnames
      induction names with
      | nil => simp
      | cons n rest ih =>
          have hrest := ih fun m hm => hnames m (List.mem_cons_of_mem _ hm)
          cases rest with
          | nil => simpa using hnames n List.mem_cons_self
          | cons m rest =>
              rw [List.intercalate_cons_cons, List.mem_append, List.mem_append]
              rintro ((hmem | hmem) | hmem)
              · exact hnames n List.mem_cons_self hmem
              · revert hmem
                decide
              · exact hrest hmem
    exact hslash l.names (fun n hn => (l.name_ok n hn).2.1) h

/-- The tenedor takes the list: no begin mark arises in its frame. -/
def Kept : Prop :=
  ¬ bytes "BEGIN" <:+ l.text

instance : DecidablePred Kept :=
  fun l => inferInstanceAs (Decidable (¬ bytes "BEGIN" <:+ l.text))

/-- **One call**: the names under the next number, or nothing. -/
theorem setServerFigures_answer (serverFigures : ServerFigures) :
    setServerFiguresByResponse serverFigures l.answer
      = if l.Kept then serverFigures ++ [(.ofNat serverFigures.length, l.names)]
        else serverFigures := by
  have hbegin : ¬ bytes "BEGIN/" <:+: l.text := by
    intro h
    exact l.not_mem_text (h.subset (by decide))
  by_cases hkept : l.Kept
  · rw [setServerFiguresByResponse, answer, getContent_framed hbegin hkept l.size, if_pos hkept]
    simp only [getCommandAndRest_ok, if_true, l.filter_splitOn_text]
  · rw [setServerFiguresByResponse, answer, framed_eq,
      getContent_begin (begin_infix_ok_iff.mpr (.inr (not_not.mp hkept))), if_neg hkept]

end Listing

/-! ## Histories -/

/-- The figures of a fresh adapter after the calls. -/
def registerAll (calls : List Listing) : ServerFigures :=
  calls.foldl (fun serverFigures l => setServerFiguresByResponse serverFigures l.answer) []

/-- The lists that are kept, under the numbers of their own order. -/
theorem registerAll_eq (calls : List Listing) : registerAll calls
    = (calls.filter Listing.Kept).mapIdx fun i l => (Int32.ofNat i, l.names) := by
  induction calls using List.reverseRecOn with
  | nil => rfl
  | append_singleton calls l ih =>
      have hstep : registerAll (calls ++ [l])
          = setServerFiguresByResponse (registerAll calls) l.answer := by
        rw [registerAll, List.foldl_append]
        rfl
      rw [hstep, l.setServerFigures_answer, ih, List.filter_append, List.length_mapIdx]
      by_cases hkept : l.Kept
      · rw [if_pos hkept, List.filter_cons_of_pos (by simpa using hkept), List.filter_nil,
          List.mapIdx_concat]
      · rw [if_neg hkept, List.filter_cons_of_neg (by simpa using hkept), List.filter_nil,
          List.append_nil]

/-- Each call left its names under its own number. -/
def Recorded (calls : List Listing) : Prop :=
  (registerAll calls).map (fun figure => (figure.1.toInt, figure.2))
    = calls.mapIdx fun i l => ((i : Int), l.names)

/-- **When the numbers are right**: every list is kept, and there are no more
than an `int` can count. -/
theorem recorded_iff (calls : List Listing) :
    Recorded calls ↔ (∀ l ∈ calls, l.Kept) ∧ calls.length ≤ 2147483648 := by
  have hsmall : ∀ i : Nat, i < 2147483648 → (Int32.ofNat i).toInt = i := fun i hi =>
    Int32.toInt_ofNat_of_lt hi
  rw [Recorded, registerAll_eq]
  constructor
  · intro h
    have hlen := congrArg List.length h
    rw [List.length_map, List.length_mapIdx, List.length_mapIdx,
      List.length_filter_eq_length_iff] at hlen
    have hkept : ∀ l ∈ calls, l.Kept := fun l hl => by simpa using hlen l hl
    refine ⟨hkept, ?_⟩
    by_contra hmany
    rw [List.filter_eq_self.mpr fun l hl => by simpa using hkept l hl] at h
    -- the number of call 2147483648 is negative
    have hget := congrArg (fun figures => (figures[2147483648]?).map Prod.fst) h
    have hcall : calls[2147483648]? = some calls[2147483648] :=
      List.getElem?_eq_getElem (by omega)
    simp only [List.getElem?_map, List.getElem?_mapIdx, hcall, Option.map_some] at hget
    revert hget
    decide
  · rintro ⟨hkept, hfew⟩
    rw [List.filter_eq_self.mpr fun l hl => by simpa using hkept l hl]
    apply List.ext_getElem
    · simp
    · intro i hi hi'
      rw [List.length_mapIdx] at hi'
      rw [List.getElem_map, List.getElem_mapIdx, List.getElem_mapIdx, hsmall i (by omega)]

/-- No name of the figures has a line break. -/
theorem not_mem_registerAll {calls : List Listing} :
    ∀ figure ∈ registerAll calls, ∀ n ∈ figure.2, 10 ∉ n := by
  rw [registerAll_eq]
  intro figure hfigure n hn
  obtain ⟨i, hi, rfl⟩ := List.mem_mapIdx.mp hfigure
  exact (Listing.name_ok _ n hn).2.2

/-! ## The page and the lookup -/

/-- The body of the page. -/
def pageBody (serverFigures : ServerFigures) : Bytes :=
  (figureLines serverFigures).flatMap (· ++ bytes "\n")

def figureLine (id : Int) (objectName : Bytes) : Bytes :=
  decimalInt id ++ bytes "/" ++ objectName

def figureRequest (id : Int) (objectName : Bytes) : Bytes :=
  bytes "GET /object/" ++ figureLine id objectName ++ bytes " HTTP/1.1"

/-- A figure is found by its request iff its line is on the page. -/
structure Agrees (serverFigures : ServerFigures) : Prop where
  page : buildRequest serverFigures objectsRequest
    = .error (httpResponse (bytes "200 OK") (pageBody serverFigures))
  found : ∀ (id : Int) (objectName : Bytes), objectName ≠ [] → 47 ∉ objectName →
    10 ∉ objectName → (figureRequest id objectName).length < npos →
    (buildRequest serverFigures (figureRequest id objectName)
        = .ok (bytes "BEGIN/GET/" ++ objectName ++ bytes "/END")
      ↔ figureLine id objectName ∈ (pageBody serverFigures).splitOn 10)
  refused : ∀ (id : Int) (objectName : Bytes), objectName ≠ [] → 47 ∉ objectName →
    10 ∉ objectName → (figureRequest id objectName).length < npos →
    figureLine id objectName ∉ (pageBody serverFigures).splitOn 10 →
    buildRequest serverFigures (figureRequest id objectName) = .error httpBadRequest

section Page

variable {serverFigures : ServerFigures} {id : Int} {objectName : Bytes}

/-- The lines of the page are the lines that were printed. -/
theorem splitOn_pageBody (hbreak : ∀ figure ∈ serverFigures, ∀ n ∈ figure.2, 10 ∉ n) :
    (pageBody serverFigures).splitOn 10 = figureLines serverFigures ++ [[]] := by
  rw [pageBody, bytes_newline]
  apply splitOn_flatMap
  intro text htext
  obtain ⟨figure, hfigure, hline⟩ := List.mem_flatMap.mp htext
  obtain ⟨object, hobject, rfl⟩ := List.mem_map.mp hline
  rw [List.mem_append, List.mem_append]
  rintro ((h | h) | h)
  · exact not_mem_decimalInt (by decide) (by decide) h
  · revert h
    decide
  · exact hbreak figure hfigure object hobject h

/-- A line is on the page iff its figure is kept under its number. -/
theorem figureLine_mem_iff (hslash : 47 ∉ objectName) :
    figureLine id objectName ∈ figureLines serverFigures
      ↔ ∃ figure ∈ serverFigures, figure.1.toInt = id ∧ objectName ∈ figure.2 := by
  have hnumber : ∀ n : Int, 47 ∉ decimalInt n := fun n =>
    not_mem_decimalInt (by decide) (by decide)
  rw [figureLines, List.mem_flatMap]
  constructor
  · rintro ⟨figure, hfigure, hline⟩
    obtain ⟨object, hobject, hline⟩ := List.mem_map.mp hline
    rw [figureLine, bytes_slash, List.append_assoc, List.append_assoc, List.singleton_append,
      List.singleton_append] at hline
    obtain ⟨hid, rfl⟩ := sep_inj (hnumber _) (hnumber _) hline
    exact ⟨figure, hfigure, decimalInt_inj hid, hobject⟩
  · rintro ⟨figure, hfigure, rfl, hobject⟩
    exact ⟨figure, hfigure, List.mem_map.mpr ⟨objectName, hobject, rfl⟩⟩

/-- The request for a figure is a line that asks for it, or is refused. -/
theorem buildRequest_figure (hne : objectName ≠ []) (hslash : 47 ∉ objectName)
    (hsize : (figureRequest id objectName).length < npos) :
    buildRequest serverFigures (figureRequest id objectName)
      = if hasFigure serverFigures id objectName then
          .ok (bytes "BEGIN/GET/" ++ objectName ++ bytes "/END")
        else .error httpBadRequest := by
  have hid : 47 ∉ decimalInt id := not_mem_decimalInt (by decide) (by decide)
  have hline : figureRequest id objectName
      = line 47 32 (bytes "object" ++ 47 :: (decimalInt id ++ 47 :: objectName)) := by
    rw [← figure_line, figureRequest, figureLine]
    simp only [List.append_assoc]
  have hstripped : stripped (bytes "object" ++ 47 :: (decimalInt id ++ 47 :: objectName))
      = bytes "object" ++ 47 :: (decimalInt id ++ 47 :: objectName) := if_neg (head_object _)
  rw [hline] at hsize ⊢
  rw [buildRequest_line hsize, hstripped]
  by_cases hfound : hasFigure serverFigures id objectName
  · -- a number under which something is kept is an `int`
    obtain ⟨figure, -, hnumber, -⟩ := hasFigure_iff.mp hfound
    rw [if_pos hfound]
    exact route_found ⟨rfl, hid, hslash, hne, hnumber ▸ stoi_decimalInt figure.1, hfound⟩
  · rw [if_neg hfound]
    apply route_other
    · intro h
      have hmem : (47 : UInt8) ∈ bytes "objects" := by
        rw [← h]
        simp
      revert hmem
      decide
    · intro id' objectName' objectId h
      have hsplit := splitOn_eq_triple_iff.mpr ⟨rfl, (by decide : 47 ∉ bytes "object"), hid, hslash⟩
      rw [h.splitOn] at hsplit
      obtain ⟨rfl, rfl⟩ : id' = decimalInt id ∧ objectName' = objectName := by simpa using hsplit
      have hread := h.stoi_eq
      rw [stoi_decimalInt_eq] at hread
      split at hread
      · exact hfound (Option.some.inj hread ▸ h.found)
      · cases hread

/-- **Page and lookup agree**, whatever figures are kept. -/
theorem agrees_of_lines (hbreak : ∀ figure ∈ serverFigures, ∀ n ∈ figure.2, 10 ∉ n) :
    Agrees serverFigures := by
  have honPage : ∀ (id : Int) (objectName : Bytes), objectName ≠ [] → 47 ∉ objectName →
      (figureLine id objectName ∈ (pageBody serverFigures).splitOn 10
        ↔ hasFigure serverFigures id objectName = true) := by
    intro id objectName hne hslash
    have hnil : figureLine id objectName ≠ [] := by simp [figureLine, hne]
    rw [splitOn_pageBody hbreak, List.mem_append, List.mem_singleton, or_iff_left hnil,
      figureLine_mem_iff hslash, hasFigure_iff]
  constructor
  · rw [objectsRequest_eq, buildRequest_line (by decide),
      show stripped (bytes "objects") = bytes "objects" by decide, route_objects]
    rfl
  · intro id objectName hne hslash _ hsize
    rw [honPage id objectName hne hslash, buildRequest_figure hne hslash hsize]
    split
    · simp [*]
    · simp [*]
  · intro id objectName hne hslash _ hsize hline
    rw [honPage id objectName hne hslash] at hline
    rw [buildRequest_figure hne hslash hsize, if_neg hline]

end Page

/-- **Listing and lookup.** -/
theorem listing_agrees_iff (calls : List Listing) :
    Recorded calls ∧ Agrees (registerAll calls)
      ↔ (∀ l ∈ calls, ¬ bytes "BEGIN" <:+ l.text) ∧ calls.length ≤ 2147483648 := by
  rw [recorded_iff]
  exact ⟨And.left, fun h => ⟨h, agrees_of_lines not_mem_registerAll⟩⟩

/-- A list with one name, which ends the way a message begins. -/
theorem listing_disagrees :
    ¬ ∀ calls : List Listing, Recorded calls ∧ Agrees (registerAll calls) := by
  intro h
  have hrecorded := (h [⟨[bytes "BEGIN"], false, by decide, by decide⟩]).1
  rw [recorded_iff] at hrecorded
  have hkept := hrecorded.1 _ List.mem_cons_self
  revert hkept
  decide

end DistributedAscii.Simulation
