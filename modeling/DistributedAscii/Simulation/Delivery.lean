import DistributedAscii.Simulation.Framing
import DistributedAscii.Simulation.Turns

/-!
# Simulation — delivery

A `GET` of the client takes six hops, and the text of the drawing goes over
the buffer twice: from the server to the tenedor with eleven characters more
than the drawing has, from the tenedor to the client behind a header of 63
characters and the length. The second message has to fit into the buffer,
and the tenedor searches the mark `BEGIN/` from the end, so a drawing that
ends in `BEGIN` makes one with the end mark of its frame.
-/

namespace DistributedAscii.Simulation

open FileSystem Lib Lib.Runs Lib.Search Server

/-! ## The frame of a drawing -/

/-- The answer of the server to a `GET`. -/
def framed (c : Bytes) : Bytes :=
  bytes "BEGIN/OK/" ++ c ++ bytes "/END"

/-- The frame of every message, around an `OK/`. -/
theorem framed_eq (c : Bytes) : framed c = Server.framed (bytes "OK/" ++ c) := by
  rw [framed, Server.framed, show bytes "BEGIN/OK/" = bytes "BEGIN/" ++ bytes "OK/" by decide,
    List.append_assoc (bytes "BEGIN/")]

theorem length_framed (c : Bytes) : (framed c).length = c.length + 13 := by
  simp only [framed, List.length_append, length_okMark, length_endMark]
  omega

/-- The `OK/` in front of a drawing is part of no begin mark. -/
theorem begin_infix_ok_iff {c : Bytes} : bytes "BEGIN/" <:+: bytes "OK/" ++ c ++ bytes "/END"
    ↔ bytes "BEGIN/" <:+: c ∨ bytes "BEGIN" <:+ c := by
  have hnot : (66 : UInt8) ∉ bytes "OK/" := by decide
  rw [List.append_assoc, ← begin_infix_append_end_iff]
  exact infix_append_of_not_mem hnot _

theorem getContent_framed {c : Bytes} (hbegin : ¬ bytes "BEGIN/" <:+: c)
    (hend : ¬ bytes "BEGIN" <:+ c) (hsize : (framed c).length < npos) :
    getContent (framed c) = .ok (bytes "OK/" ++ c) := by
  rw [framed_eq] at hsize ⊢
  rw [getContent_frame (by simp [show bytes "OK/" = [79, 75, 47] by decide]) hsize, if_neg]
  rw [begin_infix_ok_iff]
  exact fun h => h.elim hbegin hend

theorem getCommandAndRest_ok (c : Bytes) :
    getCommandAndRest (bytes "OK/" ++ c) = (bytes "OK", c) := by
  have hfind : find (bytes "/") (bytes "OK/" ++ c) = some 2 := by
    rw [show bytes "OK/" ++ c = bytes "OK" ++ (bytes "/" ++ c) from rfl]
    rw [show bytes "/" = [47] by decide, find_append_of_not_mem (by decide), find_append_left]
    rfl
  rw [getCommandAndRest, hfind]
  rfl

/-- **The answer to the client**: whole, unless the drawing ends in
`BEGIN`. -/
theorem buildResponse_framed {c : Bytes} (hbegin : ¬ bytes "BEGIN/" <:+: c)
    (hend : ¬ bytes "BEGIN" <:+ c) (hsize : (framed c).length < npos) :
    buildResponse (framed c) = httpFigure c := by
  rw [buildResponse, getContent_framed hbegin hend hsize]
  simp only [getCommandAndRest_ok, checkFirstInput, if_true]

theorem buildResponse_begin {c : Bytes} (hend : bytes "BEGIN" <:+ c) :
    buildResponse (framed c) = httpBadRequest := by
  rw [framed_eq, buildResponse, getContent_begin (begin_infix_ok_iff.mpr (.inr hend))]

/-! ## The requests -/

/-- The line that asks for a figure of the first server. -/
def getLine (name : Bytes) : Bytes :=
  bytes "GET /object/0/" ++ name ++ bytes " HTTP/1.1"

def getQuestion (name : Bytes) : Bytes :=
  bytes "BEGIN/GET/" ++ name ++ bytes "/END"

theorem buildRequest_getLine : ∀ name ∈ listedNames,
    buildRequest [(0, listedNames)] (carried (getLine name)) = .ok (getQuestion name) := by
  decide +kernel

theorem deleteFlags_getQuestion : ∀ name ∈ listedNames,
    deleteFlags (carried (getQuestion name)) = bytes "GET/" ++ name := by
  decide +kernel

theorem find_slash_get : ∀ name ∈ listedNames,
    find (bytes "/") (bytes "GET/" ++ name) = some 3 := by
  decide +kernel

/-- The text that the server reads under a name. -/
structure Stored (disk : Disk) (name : CString) (c : Bytes) : Prop where
  found : existASCII disk name = exitSuccess
  read : ∃ fuel, readDrawing fuel disk name = some c

theorem buildAnswer_getQuestion {disk : Disk} {name c : Bytes} (hname : name ∈ listedNames)
    (h : Stored disk (.ofBytes name) c) :
    ∃ fuel, buildAnswer fuel disk (carried (getQuestion name)) = some (framed c) := by
  obtain ⟨fuel, hfuel⟩ := h.read
  have hget : getCase fuel disk name = some (framed c) := by
    simp [getCase, h.found, hfuel, framed]
  have hframed : framed c ≠ bytes "-1" := by
    intro heq
    have := congrArg List.head? heq
    simp [framed, show bytes "BEGIN/OK/" = 66 :: bytes "EGIN/OK/" from rfl,
      show bytes "-1" = [45, 49] from rfl] at this
  refine ⟨fuel, ?_⟩
  have hdrop : (bytes "GET/" ++ name).drop 4 = name := rfl
  have hop : determOperation ((bytes "GET/" ++ name).take 3) = 5 := rfl
  have hnil : bytes "GET/" ++ name ≠ [] := by simp [show bytes "GET/" = [71, 69, 84, 47] from rfl]
  have hobjects : bytes "GET/" ++ name ≠ bytes "OBJECTS" := by
    simp [show bytes "GET/" = [71, 69, 84, 47] from rfl,
      show bytes "OBJECTS" = 79 :: bytes "BJECTS" from rfl]
  simp [buildAnswer, deleteFlags_getQuestion name hname, find_slash_get name hname, hnil, hobjects,
    hop, hdrop, hget, hframed]

/-- An accepted write stores the text of its file. -/
theorem stored_of_accepted {host : Host} {calls : List WriteCall} (h : Workload host calls)
    {name : CString} {c : Bytes} (hacc : Accepted host calls name c) :
    Stored (runWrites host calls) name c := by
  have hmem := (h.mem_stored_iff List.prefix_rfl).mpr hacc
  obtain ⟨hpos, hnul⟩ := h.stored_ok List.prefix_rfl hmem
  obtain ⟨L, hdisk, hL⟩ := h.holds List.prefix_rfl
  have h14 := h.length_stored List.prefix_rfl
  rw [hdisk]
  exact ⟨(existASCII_kept hL h14 hpos).mpr (List.mem_map_of_mem hmem),
    readDrawing_kept hL h14 (nodup_stored _) hmem hpos hnul⟩

/-! ## The figures that the tenedor knows -/

/-- The tenedor is still asking for the list. -/
def TenedorAt.listing : TenedorAt → Bool
  | .writeServer e _ | .signalServer e | .waitServer e | .readServer e _ => e = .figures
  | _ => false

theorem listing_ofRequest (serverFigures : ServerFigures) (message : Bytes) :
    (TenedorAt.ofRequest serverFigures message).listing = false := by
  unfold TenedorAt.ofRequest
  cases buildRequest serverFigures message <;> rfl

theorem inputStep_keeps {s s' : State} {message : Bytes} (h : inputStep message s = some s') :
    s'.tenedor = s.tenedor ∧ s'.serverFigures = s.serverFigures := by
  grind [inputStep]

theorem clientStep_keeps {s s' : State} (h : clientStep s = some s') :
    s'.tenedor = s.tenedor ∧ s'.serverFigures = s.serverFigures := by
  grind [clientStep, State.setRing, State.log, Option.map_eq_some_iff]

theorem serverStep_keeps {disk : Disk} {s s' : State} (h : serverStep disk s = some s') :
    s'.tenedor = s.tenedor ∧ s'.serverFigures = s.serverFigures := by
  grind [serverStep, State.setRing, State.log, Option.map_eq_some_iff]

theorem tenedorStep_keeps {s s' : State} (h : tenedorStep s = some s')
    (hl : s.tenedor.listing = false) :
    s'.tenedor.listing = false ∧ s'.serverFigures = s.serverFigures := by
  grind [tenedorStep, State.setRing, State.log, Option.map_eq_some_iff, TenedorAt.listing,
    listing_ofRequest]

/-- The list that the tenedor knows does not change once it is there. -/
theorem exec_keeps {disk : Disk} {s s' : State} {events : List Event}
    (hrun : exec (step disk) s events = some s') (hl : s.tenedor.listing = false) :
    s'.serverFigures = s.serverFigures := by
  refine (exec_induction
    (P := fun t => t.tenedor.listing = false ∧ t.serverFigures = s.serverFigures) ?_ ⟨hl, rfl⟩
    hrun).2
  intro t e t' ⟨ht, hf⟩ hstep
  cases e with
  | input message =>
      obtain ⟨h1, h2⟩ := inputStep_keeps hstep
      exact ⟨h1 ▸ ht, h2.trans hf⟩
  | client =>
      obtain ⟨h1, h2⟩ := clientStep_keeps hstep
      exact ⟨h1 ▸ ht, h2.trans hf⟩
  | server =>
      obtain ⟨h1, h2⟩ := serverStep_keeps hstep
      exact ⟨h1 ▸ ht, h2.trans hf⟩
  | tenedor =>
      obtain ⟨h1, h2⟩ := tenedorStep_keeps hstep ht
      exact ⟨h1, h2.trans hf⟩

/-- **At the prompt the figures are known**, whatever the user asked before. -/
theorem stands_of_run {disk : Disk} {buffer : Fin 1024 → UInt8} {events : List Event} {s : State}
    (hrun : exec (step disk) (start buffer) events = some s) (hc : s.client = .getline) :
    Stands s prompt none [(0, listedNames)] s.trace ∧ s.memory.ring.Pending [] := by
  obtain ⟨at_, hring⟩ := (phase_of_run hrun).at_prompt hc
  refine ⟨⟨at_.places, at_.semaphore, at_.finished, ?_, rfl⟩, hring⟩
  obtain ⟨t, hreach, ht, -⟩ := reaches_prompt disk buffer
  obtain ⟨turns, hturns⟩ := hreach.exists_exec
  rw [← ht.serverFigures]
  rcases exec_compare disk (phase_start buffer) hturns hrun with ⟨rest, -, hrest⟩ | ⟨qs, hback⟩
  · exact exec_keeps hrest (by rw [show t.tenedor = _ from congrArg Places.tenedor ht.places]; rfl)
  · rw [eq_of_exec_prompt disk (phase_of_run hrun) hc hback]

/-! ## What the client reads -/

/-- The line of the user is served, and whenever the client is back at its
prompt, the answer is what it read. -/
def AnswersWith (disk : Disk) (s : State) (line answer : Bytes) : Prop :=
  (∃ (turns : List Party) (t : State),
      exec (step disk) s (.input line :: turns.map Party.event) = some t ∧ t.client = .getline)
    ∧ ∀ (turns : List Party) (t : State),
      exec (step disk) s (.input line :: turns.map Party.event) = some t → t.client = .getline →
        t.trace.getLast? = some (.got .client .tenedor answer)

theorem AnswersWith.unique {disk : Disk} {s : State} {line a b : Bytes}
    (ha : AnswersWith disk s line a) (hb : AnswersWith disk s line b) : a = b := by
  obtain ⟨⟨turns, t, hrun, hc⟩, hall⟩ := ha
  have hlast := (hall turns t hrun hc).symm.trans (hb.2 turns t hrun hc)
  simpa using hlast

theorem not_isExit_getLine : ∀ name ∈ listedNames, isExit (getLine name) = false := by
  decide +kernel

/-- What the client reads after its `GET` of a stored drawing. -/
theorem answersWith_carried {disk : Disk} {s : State} {name c : Bytes}
    (hname : name ∈ listedNames) (hstored : Stored disk (.ofBytes name) c)
    {tr : List Action} (hphase : Phase s)
    (hs : Stands s prompt none [(0, listedNames)] tr) (hring : s.memory.ring.Pending []) :
    AnswersWith disk s (getLine name) (carried (buildResponse (carried (framed c)))) := by
  obtain ⟨t, hreach, hplace, hlast⟩ := reaches_served disk (buildRequest_getLine name hname)
    (buildAnswer_getQuestion hname hstored) hs hring
  obtain ⟨turns, hturns⟩ := hreach.exists_exec
  have hinput := step_prompt disk hs.places hs.semaphore (.input (getLine name))
  simp only [not_isExit_getLine name hname, Bool.false_eq_true, if_false] at hinput
  have hexec : ∀ {qs : List Party} {u : State},
      exec (step disk) s (.input (getLine name) :: qs.map Party.event) = some u ↔
        exec (step disk) (s.moveTo (Hop.ask.writing (.store (.ofBytes (getLine name)) 0)))
          (qs.map Party.event) = some u := by
    intro qs u
    rw [exec, hinput, Option.bind_some]
  have ht : t.client = .getline := congrArg Places.client hplace
  refine ⟨⟨turns, t, hexec.mpr hturns, ht⟩, ?_⟩
  intro turns' t' hturns' ht'
  rw [exec_prompt_unique disk (hphase.after hinput) (hexec.mp hturns') ht' hturns ht]
  exact hlast

/-! ## The answer -/

/-- A 200 response with the length of the drawing and the drawing. -/
def wholeAnswer (c : Bytes) : Bytes :=
  bytes "HTTP/1.1 200 OK\r\nContent-Type: text/plain\r\nContent-Length: " ++ decimal c.length
    ++ bytes "\r\n\r\n" ++ c

theorem httpFigure_eq (c : Bytes) : httpFigure c = wholeAnswer c := by
  have hhead : bytes "HTTP/1.1 " ++ bytes "200 OK"
      ++ bytes "\r\nContent-Type: text/plain\r\nContent-Length: "
      = bytes "HTTP/1.1 200 OK\r\nContent-Type: text/plain\r\nContent-Length: " := by
    decide +kernel
  rw [httpFigure, httpResponse, hhead, wholeAnswer]

theorem length_wholeAnswer (c : Bytes) :
    (wholeAnswer c).length = 63 + (decimal c.length).length + c.length := by
  have hhead : (bytes "HTTP/1.1 200 OK\r\nContent-Type: text/plain\r\nContent-Length: ").length
      = 59 := by
    decide +kernel
  have hblank : (bytes "\r\n\r\n").length = 4 := by decide
  simp only [wholeAnswer, List.length_append, hhead, hblank]
  omega

theorem length_decimal_le_iff {n k : Nat} (hk : 0 < k) : (decimal n).length ≤ k ↔ n < 10 ^ k := by
  rw [decimal, List.length_map, Nat.length_toDigits_le_iff (by decide) hk]

/-- The answer fits into the buffer up to 957 characters. -/
theorem length_wholeAnswer_le_iff (c : Bytes) : (wholeAnswer c).length ≤ 1023 ↔ c.length ≤ 957 := by
  rw [length_wholeAnswer]
  constructor
  · intro h
    by_contra hlong
    have hthree : ¬ (decimal c.length).length ≤ 2 := by
      rw [length_decimal_le_iff (by decide)]
      omega
    omega
  · intro h
    have hthree : (decimal c.length).length ≤ 3 := by
      rw [length_decimal_le_iff (by decide)]
      omega
    omega

theorem nul_not_mem_wholeAnswer {c : Bytes} (hnul : 0 ∉ c) : 0 ∉ wholeAnswer c := by
  have h1 : (0 : UInt8)
      ∉ bytes "HTTP/1.1 200 OK\r\nContent-Type: text/plain\r\nContent-Length: " := by
    decide +kernel
  have h2 : (0 : UInt8) ∉ bytes "\r\n\r\n" := by decide
  have h3 : (0 : UInt8) ∉ decimal c.length := fun h => absurd (mem_decimal h).1 (by decide)
  simp [wholeAnswer, h1, h2, h3, hnul]

theorem nul_not_mem_framed {c : Bytes} (hnul : 0 ∉ c) : 0 ∉ framed c := by
  have h1 : (0 : UInt8) ∉ bytes "BEGIN/OK/" := by decide
  have h2 : (0 : UInt8) ∉ bytes "/END" := by decide
  simp [framed, h1, h2, hnul]

/-- What is left of the answer is the whole one for the drawings that fit
and do not end in `BEGIN`. -/
theorem carried_eq_wholeAnswer_iff {c : Bytes} (hnul : 0 ∉ c)
    (hbegin : ¬ bytes "BEGIN/" <:+: c) :
    carried (buildResponse (carried (framed c))) = wholeAnswer c ↔
      c.length ≤ 957 ∧ ¬ bytes "BEGIN" <:+ c := by
  have hshort : ∀ h : c.length ≤ 957, carried (framed c) = framed c := fun h =>
    carried_of_short (nul_not_mem_framed hnul) (by rw [length_framed]; omega)
  constructor
  · intro heq
    have hlen : c.length ≤ 957 := by
      rw [← length_wholeAnswer_le_iff, ← heq]
      exact length_carried_le _
    refine ⟨hlen, fun hend => ?_⟩
    rw [hshort hlen, buildResponse_begin hend,
      show carried httpBadRequest = httpBadRequest by decide +kernel] at heq
    have hstatus := congrArg (List.take 12) heq
    rw [wholeAnswer, List.append_assoc, List.append_assoc,
      List.take_append_of_le_length (by decide +kernel)] at hstatus
    revert hstatus
    decide +kernel
  · rintro ⟨hlen, hend⟩
    have hsize : (framed c).length < npos := by
      rw [length_framed, npos]
      omega
    rw [hshort hlen, buildResponse_framed hbegin hend hsize, httpFigure_eq]
    exact carried_of_short (nul_not_mem_wholeAnswer hnul) ((length_wholeAnswer_le_iff c).mpr hlen)

/-- **Whole drawings.** After any run that stands at the prompt, the `GET`
of a stored drawing without the mark `BEGIN/` is answered, and the answer is
the whole drawing exactly if the drawing has at most 957 characters and does
not end in `BEGIN`. -/
theorem drawing_whole_iff {disk : Disk} {buffer : Fin 1024 → UInt8} {events : List Event}
    {s : State} {name c : Bytes} (hrun : exec (step disk) (start buffer) events = some s)
    (hprompt : s.client = .getline) (hname : name ∈ listedNames)
    (hstored : Stored disk (.ofBytes name) c) (hnul : 0 ∉ c)
    (hbegin : ¬ bytes "BEGIN/" <:+: c) :
    AnswersWith disk s (getLine name) (wholeAnswer c) ↔
      c.length ≤ 957 ∧ ¬ bytes "BEGIN" <:+ c := by
  obtain ⟨hs, hring⟩ := stands_of_run hrun hprompt
  have hcarried := answersWith_carried hname hstored (phase_of_run hrun) hs hring
  rw [← carried_eq_wholeAnswer_iff hnul hbegin]
  constructor
  · exact hcarried.unique
  · intro heq
    rwa [← heq]

/-! ## One drawing on a new disk -/

/-- The disk with one drawing. -/
def goku (c : Bytes) : Disk :=
  runWrites (fun _ => some c) [⟨.ofBytes (bytes "Goku.txt"), .ofBytes []⟩]

theorem stored_goku {c : Bytes} (hnul : 0 ∉ c) (hlen : needed c ≤ 254) :
    Stored (goku c) (.ofBytes (bytes "Goku.txt")) c := by
  have hname : (CString.ofBytes (bytes "Goku.txt")).length = 8 := by decide
  have hload : Workload (fun _ => some c) [⟨.ofBytes (bytes "Goku.txt"), .ofBytes []⟩] := by
    refine ⟨⟨?_, ?_, ?_⟩, ?_⟩
    · intro call hcall _
      rw [List.mem_singleton.mp hcall, hname]
      decide
    · decide
    · simpa [stored, put, hname, total] using hlen
    · intro call _
      exact ⟨c, rfl, hnul⟩
  refine stored_of_accepted hload ⟨[], _, List.prefix_rfl, rfl, rfl, ?_⟩
  apply (hload.writeFile_next (show [] ++ [_] <+: [_] from List.prefix_rfl)).2
  simp [stored, hname]

/-- A small drawing is read whole. -/
theorem drawing_whole_goku :
    ∃ events s, exec (step (goku (bytes "=^.^="))) (start fun _ => 0) events = some s
      ∧ AnswersWith (goku (bytes "=^.^=")) s (getLine (bytes "Goku.txt"))
        (wholeAnswer (bytes "=^.^=")) := by
  obtain ⟨t, hreach, ht, -⟩ := reaches_prompt (goku (bytes "=^.^=")) fun _ => 0
  obtain ⟨turns, hturns⟩ := hreach.exists_exec
  refine ⟨_, t, hturns, (drawing_whole_iff hturns (congrArg Places.client ht.places) (by decide)
    (stored_goku (by decide) (by decide)) (by decide) (by decide +kernel)).mpr ⟨by decide, ?_⟩⟩
  decide +kernel

/-- A drawing of 958 dots is not. -/
theorem drawing_not_whole :
    ∃ c events s, c = List.replicate 958 46
      ∧ Stored (goku c) (.ofBytes (bytes "Goku.txt")) c
      ∧ 0 ∉ c ∧ ¬ bytes "BEGIN/" <:+: c ∧ ¬ bytes "/END" <:+: c
      ∧ exec (step (goku c)) (start fun _ => 0) events = some s ∧ s.client = .getline
      ∧ ¬ AnswersWith (goku c) s (getLine (bytes "Goku.txt")) (wholeAnswer c) := by
  obtain ⟨c, hc⟩ : ∃ c : Bytes, c = List.replicate 958 46 := ⟨_, rfl⟩
  have hlen : c.length = 958 := by rw [hc, List.length_replicate]
  have hmem : ∀ b ∈ c, b = 46 := by
    intro b hb
    rw [hc] at hb
    exact List.eq_of_mem_replicate hb
  have hnul : 0 ∉ c := fun h => absurd (hmem 0 h) (by decide)
  have hbegin : ¬ bytes "BEGIN/" <:+: c :=
    fun h => absurd (hmem 66 (h.subset (by decide))) (by decide)
  have hend : ¬ bytes "/END" <:+: c := fun h => absurd (hmem 47 (h.subset (by decide))) (by decide)
  have hstored : Stored (goku c) (.ofBytes (bytes "Goku.txt")) c :=
    stored_goku hnul (by rw [needed, hlen]; decide)
  obtain ⟨t, hreach, ht, hring⟩ := reaches_prompt (goku c) fun _ => 0
  obtain ⟨turns, hturns⟩ := hreach.exists_exec
  refine ⟨c, _, t, hc, hstored, hnul, hbegin, hend, hturns, congrArg Places.client ht.places, ?_⟩
  intro hanswer
  have hcarried := answersWith_carried (by decide) hstored (phase_of_run hturns) ht hring
  have hwhole := (carried_eq_wholeAnswer_iff hnul hbegin).mp (hcarried.unique hanswer)
  omega

end DistributedAscii.Simulation
