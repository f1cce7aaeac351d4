import DistributedAscii.Server.Cluster
import DistributedAscii.Server.Grammar
import DistributedAscii.Server.Relay
import DistributedAscii.Server.Routing

/-!
# Server — the whole service

A client asks a fork whose servers come and go. It gets a drawing as it was
stored, or the error that nobody has it (`service`), and the list of all
drawings there are (`service_lists`).
-/

namespace DistributedAscii.Server

open FileSystem Lib.Search Cluster

variable {c : Cluster}

/-! ## A client -/

/-- The answer of a server to a request is on its way, cut in any way. -/
def Serves (servers : Sessions) (site : Site) (request : Bytes) : Prop :=
  ∀ fuel answer, validateRequest fuel site.disk (.ofBytes request) = some answer →
    ∃ pieces, Cut answer pieces ∧
      servers site.ip site.port request = some (pieces.map .data)

/-- The page for a drawing that nobody has. -/
def notFound : Bytes :=
  bytes ("HTTP/1.1 201 Error\r\nContent-Type: text/plain\r\n\r\n" ++
    "El dibujo solicitado no fue encontrado")

section Client

variable {name : CString} {text : Bytes} {servers : Sessions}

/-- More fuel makes no other answer. -/
theorem validateRequest_mono {disk : Disk} {request : CString} {fuel fuel' : Nat} {answer : Bytes}
    (h : validateRequest fuel disk request = some answer) (hle : fuel ≤ fuel') :
    validateRequest fuel' disk request = some answer := by
  have hread : ∀ {name : CString} {art : Bytes} {f : Bytes → Bytes},
      (readDrawing fuel disk name).map f = some art →
        (readDrawing fuel' disk name).map f = some art := by
    intro name art f hmap
    obtain ⟨drawing, hdrawing, rfl⟩ := Option.map_eq_some_iff.mp hmap
    rw [readDrawing_mono hdrawing hle]
    rfl
  simp only [validateRequest] at h ⊢
  split at h
  · rwa [if_pos ‹_›]
  · rw [if_neg ‹_›]
    split at h
    · rwa [if_pos ‹_›]
    · rw [if_neg ‹_›]
      cases htokens : requestTokens request.bytes with
      | nil => rwa [htokens] at h
      | cons command rest =>
          cases rest with
          | nil => rwa [htokens] at h
          | cons ascii rest =>
              cases rest with
              | nil =>
                  rw [htokens] at h
                  simp only at h ⊢
                  split at h
                  · rw [if_pos ‹_›]
                    split at h
                    · rw [if_pos ‹_›]
                      exact hread h
                    · rwa [if_neg ‹_›]
                  · rwa [if_neg ‹_›]
              | cons => rwa [htokens] at h

theorem validateRequest_unique {disk : Disk} {request : CString} {fuel fuel' : Nat}
    {answer answer' : Bytes} (h : validateRequest fuel disk request = some answer)
    (h' : validateRequest fuel' disk request = some answer') : answer = answer' := by
  rcases Nat.le_total fuel fuel' with hle | hle
  · exact Option.some.inj ((validateRequest_mono h hle).symm.trans h')
  · exact Option.some.inj (h.symm.trans (validateRequest_mono h' hle))

/-- **A server answers** with the drawing as it was stored. -/
theorem validateRequest_drawing {site : Site} (h : (name, text) ∈ site.drawings)
    (hslash : 47 ∉ name.bytes) :
    ∃ fuel, validateRequest fuel site.disk (.ofBytes (getMessage name.bytes))
      = some (drawingAnswer name.bytes text) := by
  obtain ⟨L, hdisk, hL⟩ := site.keeps
  obtain ⟨hpos, hnul⟩ := site.workload.stored_ok List.prefix_rfl h
  have hname : CString.ofBytes name.bytes = name := CString.ext (CString.ofBytes_bytes name.noNul)
  have hrequest : (CString.ofBytes (getMessage name.bytes)).bytes = getMessage name.bytes := by
    apply CString.ofBytes_bytes
    have hname := name.noNul
    simp only [getMessage, List.mem_append, not_or]
    exact ⟨⟨by decide, hname⟩, by decide⟩
  have hexists : existASCII L.toBytes name = exitSuccess :=
    (existASCII_kept hL site.length_drawings hpos).mpr (List.mem_map_of_mem h)
  obtain ⟨fuel, hread⟩ := readDrawing_kept hL site.length_drawings (nodup_stored _) h hpos hnul
  obtain ⟨hframe, htokens⟩ := framed_get_iff.mpr ⟨hslash, rfl⟩
  refine ⟨fuel, ?_⟩
  have hne : getMessage name.bytes ≠ [] := by simp [getMessage, bytes_end]
  rw [validateRequest, hrequest, if_neg hne, hframe, if_neg Bool.false_ne_true, htokens]
  simp only [if_pos, hname, hdisk, hexists, hread, Option.map_some]

/-- **The fork relays** the drawing as it is. -/
theorem relayed {site : Site} (hclean : site.Clean) (h : (name, text) ∈ site.drawings) :
    Relayed name.bytes text := by
  have hnul := (site.workload.stored_ok List.prefix_rfl h).2
  have hslash := hclean.slash _ (List.mem_map_of_mem h)
  have hframe : ¬ bytes "/END" <:+: (⟨text, hnul⟩ : CString).bytes := hclean.frame _ h
  exact relayed_of_not_suffix hslash hframe (hclean.error _ h) (hclean.errorEnd _ h)

theorem translate_notFound : translateAsciiToHttp (.ofBytes
    (bytes "BEGIN/ERROR/201/El dibujo solicitado no fue encontrado/END")) = notFound := by
  decide

/-- What `init` does with a request for a drawing. -/
theorem serveClient_getRequest (r : Registry) (hslash : 47 ∉ name.bytes) (hspace : 32 ∉ name.bytes)
    (hmark : ¬ bytes "END" <+: name.bytes) :
    serveClient servers r (getRequest name.bytes)
      = match routeGet r name.bytes with
        | some server => (requestFromServer (servers server.1 server.2 (getMessage name.bytes))).map
            fun response => translateAsciiToHttp (.ofBytes response)
        | none => some notFound := by
  have hnul : 0 ∉ getRequest name.bytes := by
    have hname := name.noNul
    simp only [getRequest, getHead, List.mem_append, not_or]
    exact ⟨⟨⟨by decide, hname⟩, by decide⟩, by decide⟩
  rw [serveClient, asksForIndex_getRequest hspace, if_neg Bool.false_ne_true,
    translate_getRequest (CString.ofBytes_bytes hnul) hspace, asciiResponse,
    dispatch_getMessage hslash, if_neg hmark]
  simp only
  cases routeGet r name.bytes with
  | some server => rfl
  | none => exact congrArg some translate_notFound

/-- **Where the fork asks**: at a server that is up and has the drawing. -/
theorem Cluster.Tracks.route (h : c.Tracks) {server : Bytes × Int}
    (hroute : routeGet c.fork.registry name.bytes = some server) :
    ∃ site text, c.up site.ip = some site ∧ (name, text) ∈ site.drawings ∧
      server = (site.ip, (site.port : Int)) := by
  obtain ⟨ip, port⟩ := server
  obtain ⟨sender, objects, hknown, hobjects, hmem⟩ := routeGet_eq_some hroute
  rw [h.known] at hknown
  obtain ⟨site, hup, heq⟩ := Option.map_eq_some_iff.mp hknown
  cases heq
  have hown := (h.address hup).1
  rw [h.objects, hown, hup] at hobjects
  cases hobjects
  obtain ⟨f, hf, hname⟩ := List.mem_map.mp hmem
  have hfirst : f.1 = name := CString.ext hname
  exact ⟨site, f.2, hown ▸ hup, hfirst ▸ hf, rfl⟩

theorem Cluster.Tracks.route_none (h : c.Tracks)
    (hroute : routeGet c.fork.registry name.bytes = none) {site : Site}
    (hup : c.up site.ip = some site) : (name, text) ∉ site.drawings := by
  intro hmem
  rw [routeGet, Option.map_eq_none_iff, List.find?_eq_none] at hroute
  have hknown : (site.ip, site.ip, (site.port : Int)) ∈ c.fork.registry.knownServers.toList := by
    rw [StringMap.mem_toList, h.known, hup]
    rfl
  refine hroute _ hknown ?_
  have hname : name.bytes ∈ site.names := List.mem_map_of_mem hmem
  rw [hasObject, h.objects, hup]
  exact decide_eq_true hname

end Client

/-! ## The list of a client -/

def listRequest : Bytes :=
  bytes "GET /objects HTTP/1.1\r\n\r\n"

theorem joinNames_snoc (names : List Bytes) (last : Bytes) :
    joinNames (names ++ [last])
      = (if joinNames names = [] then joinNames names else joinNames names ++ bytes "\n")
          ++ last := by
  rw [joinNames, List.foldl_append]
  rfl

/-- Every name but the last one is a line. -/
theorem joinNames_append {names : List Bytes} (hne : ∀ n ∈ names, n ≠ []) (last : Bytes) :
    joinNames (names ++ [last]) = names.flatMap (fun n => n ++ bytes "\n") ++ last := by
  induction names using List.reverseRecOn generalizing last with
  | nil => simp [joinNames]
  | append_singleton names n ih =>
      have hfront : ∀ m ∈ names, m ≠ [] := fun m hm => hne m (List.mem_append_left _ hm)
      have hn : n ≠ [] := hne n (by simp)
      rw [joinNames_snoc, ih hfront n, if_neg (by simp [hn])]
      simp

/-- **The list is read back.** -/
theorem getLines_joinNames {names : List Bytes} (hne : ∀ n ∈ names, n ≠ [])
    (hbreak : ∀ n ∈ names, 10 ∉ n) : getLines (joinNames names) = names := by
  cases names using List.reverseRecOn with
  | nil => decide
  | append_singleton names last =>
      have hfront : ∀ m ∈ names, m ≠ [] := fun m hm => hne m (List.mem_append_left _ hm)
      rw [joinNames_append hfront]
      exact getLines_lines_append (fun n hn => hbreak n (List.mem_append_left _ hn))
        (hbreak last (by simp)) (hne last (by simp))

theorem mem_joinNames {names : List Bytes} {b : UInt8} (h : b ∈ joinNames names) :
    b = 10 ∨ ∃ n ∈ names, b ∈ n := by
  induction names using List.reverseRecOn with
  | nil => cases h
  | append_singleton names last ih =>
      have hfront : b ∈ joinNames names → b = 10 ∨ ∃ n ∈ names ++ [last], b ∈ n := by
        intro hb
        obtain h10 | ⟨n, hn, hb⟩ := ih hb
        · exact .inl h10
        · exact .inr ⟨n, List.mem_append_left _ hn, hb⟩
      rw [joinNames_snoc, List.mem_append] at h
      rcases h with h | h
      · split at h
        · exact hfront h
        · rw [bytes_newline, List.mem_append, List.mem_singleton] at h
          exact h.elim hfront .inl
      · exact .inr ⟨last, by simp, h⟩

/-- A content without a slash comes through the translation. -/
theorem translate_list {content : Bytes} (hnul : 0 ∉ content) (hslash : 47 ∉ content) :
    translateAsciiToHttp (.ofBytes (bytes "BEGIN/OK/" ++ content ++ bytes "/END"))
      = okHeader ++ content := by
  have hbytes : (CString.ofBytes (bytes "BEGIN/OK/" ++ content ++ bytes "/END")).bytes
      = bytes "BEGIN/OK/" ++ content ++ bytes "/END" := by
    apply CString.ofBytes_bytes
    simp only [List.mem_append, not_or]
    exact ⟨⟨by decide, hnul⟩, by decide⟩
  refine translate_ok hbytes ?_
  have htext : bytes "BEGIN/OK/" ++ content ++ bytes "/END"
      = bytes "BEGIN" ++ 47 :: (bytes "OK" ++ 47 :: (content ++ 47 :: bytes "END")) := by
    rw [bytes_end, bytes_end_word,
      show bytes "BEGIN/OK/" = bytes "BEGIN" ++ 47 :: (bytes "OK" ++ [47]) by decide]
    simp only [List.append_assoc, List.cons_append, List.nil_append]
  rw [hbytes, htext, show bytes "BEGIN/ERROR/" = bytes "BEGIN" ++ 47 :: bytes "ERROR/" by decide,
    sep_infix_iff (by decide) (by decide), sep_infix_iff (by decide) (by decide),
    sep_infix_iff (by decide) hslash]
  rintro (⟨-, hpre⟩ | ⟨hsuf, -⟩ | ⟨-, hpre⟩ | h)
  · rw [show bytes "ERROR/" = 69 :: bytes "RROR/" by decide,
      show bytes "OK" = 79 :: bytes "K" by decide, List.cons_append, List.cons_prefix_cons] at hpre
    exact absurd hpre.1 (by decide)
  · exact absurd hsuf.length_le (by decide)
  · exact absurd hpre.length_le (by decide)
  · exact absurd h.length_le (by decide)

/-- The names that the fork keeps. -/
theorem Cluster.Tracks.names (h : c.Tracks) {n : Bytes} (hn : n ∈ listObjects c.fork.registry) :
    ∃ site, c.up site.ip = some site ∧ site.Clean ∧ n ∈ site.names := by
  obtain ⟨⟨ip, objects⟩, hmem, hn⟩ := List.mem_flatMap.mp hn
  rw [StringMap.mem_toList, h.objects] at hmem
  obtain ⟨site, hup, rfl⟩ := Option.map_eq_some_iff.mp hmem
  obtain ⟨rfl, hclean⟩ := h.address hup
  exact ⟨site, hup, hclean, hn⟩

/-- A server with one drawing. -/
def gato : Site where
  ip := bytes "10.0.0.1"
  port := 80
  host := fun _ => some (bytes "=^.^=")
  calls := [⟨.ofBytes (bytes "gato"), .ofBytes []⟩]
  workload := by
    refine ⟨⟨fun c hc _ => ?_, by decide, by decide⟩, fun c _ => ⟨_, rfl, by decide⟩⟩
    rw [List.mem_singleton.mp hc]
    decide
  ip_slash := by decide
  ip_le := by decide
  port_le := by decide

/-- A server with two, of which one has the name of the cat. -/
def perro : Site where
  ip := bytes "10.0.0.2"
  port := 8080
  host := fun _ => some (bytes "U^_^U")
  calls := [⟨.ofBytes (bytes "perro"), .ofBytes []⟩, ⟨.ofBytes (bytes "gato"), .ofBytes []⟩]
  workload := by
    refine ⟨⟨?_, by decide, by decide⟩, fun c _ => ⟨_, rfl, by decide⟩⟩
    simp only [List.forall_mem_cons, List.not_mem_nil, false_implies, implies_true, and_true]
    decide
  ip_slash := by decide
  ip_le := by decide
  port_le := by decide

theorem clean_gato : gato.Clean := by
  constructor <;> decide

theorem clean_perro : perro.Clean := by
  constructor <;> decide

theorem cut_gato : Cut (objectsAnswer gato.disk) [bytes "BEGIN/OK/gato\n/END"] := by
  rw [gato.objectsAnswer_disk]
  exact ⟨by decide, by decide, by decide⟩

theorem cut_perro :
    Cut (objectsAnswer perro.disk) [bytes "BEGIN/OK/per", bytes "ro\ngato\n/END"] := by
  rw [perro.objectsAnswer_disk]
  exact ⟨by decide, by decide, by decide⟩

/-- Both sign on, and the first one signs off. -/
def catLeaves : List SiteEvent :=
  [.on gato [bytes "BEGIN/OK/gato\n/END"],
    .on perro [bytes "BEGIN/OK/per", bytes "ro\ngato\n/END"], .off gato]

namespace Cluster

/-- What the fork and the servers are when a server has signed on. -/
def on (c : Cluster) (site : Site) : Cluster where
  fork := { c.fork with
    registry := c.fork.registry.on site.ip site.ip site.port (some site.names) }
  up ip := if ip = site.ip then some site else c.up ip
  silent := c.silent

def off (c : Cluster) (site : Site) : Cluster where
  fork := { c.fork with registry := c.fork.registry.off site.ip }
  up ip := if ip = site.ip then none else c.up ip
  silent := c.silent

theorem step_on {site : Site} (hclean : site.Clean) {pieces : List Bytes}
    (hcut : Cut (objectsAnswer site.disk) pieces) (c : Cluster) :
    c.step (.on site pieces) = some (c.on site) := by
  rw [step, arrival_on hclean hcut]
  rfl

theorem step_off (site : Site) (c : Cluster) : c.step (.off site) = some (c.off site) := by
  rw [step, arrival_off]
  rfl

end Cluster

/-- The second server is left. -/
def dogStays : Cluster :=
  ((start.on gato).on perro).off gato

theorem after_catLeaves : after catLeaves = some dogStays := by
  simp only [dogStays, after, catLeaves, Lib.Runs.exec, step_on clean_gato cut_gato,
    step_on clean_perro cut_perro, step_off, Option.bind_some]

theorem honestRun_catLeaves : HonestRun catLeaves := by
  have hquiet : ∀ (c : Cluster) (ip : Bytes), c.fork.monitor = .sleeping → c.Quiet ip := by
    intro c ip hsleeping asked objects todo hmonitor
    rw [hsleeping] at hmonitor
    cases hmonitor
  intro front e c c' hfront hc _
  have hsleeping : c.fork.monitor = .sleeping := by
    refine Lib.Runs.forall_snoc_of_getElem? (P := fun front _ => ∀ c,
      Lib.Runs.exec step start front = some c → c.fork.monitor = .sleeping) ?_ hfront c hc
    intro i hi e _ c hc
    have hi : i < 3 := hi
    interval_cases i
    · cases hc
      rfl
    · have hafter : Lib.Runs.exec step start (catLeaves.take 1) = some (start.on gato) := by
        simp only [catLeaves, List.take, Lib.Runs.exec, step_on clean_gato cut_gato,
          Option.bind_some]
      cases hafter.symm.trans hc
      rfl
    · have hafter : Lib.Runs.exec step start (catLeaves.take 2)
          = some ((start.on gato).on perro) := by
        simp only [catLeaves, List.take, Lib.Runs.exec, step_on clean_gato cut_gato,
          step_on clean_perro cut_perro, Option.bind_some]
      cases hafter.symm.trans hc
      rfl
  have hmem := Lib.Runs.mem_of_snoc hfront
  simp only [catLeaves, List.mem_cons, List.not_mem_nil, or_false] at hmem
  obtain rfl | rfl | rfl := hmem
  · exact ⟨clean_gato, cut_gato, hquiet c _ hsleeping⟩
  · exact ⟨clean_perro, cut_perro, hquiet c _ hsleeping⟩
  · exact hquiet c _ hsleeping

theorem up_dogStays {site : Site} (hup : dogStays.up site.ip = some site) : site = perro := by
  simp only [dogStays, Cluster.on, Cluster.off, start] at hup
  split at hup
  · cases hup
  · split at hup
    · exact (Option.some.inj hup).symm
    · cases hup

end DistributedAscii.Server
