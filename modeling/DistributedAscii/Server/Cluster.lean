import DistributedAscii.Server.Monitor
import DistributedAscii.Server.Registration
import DistributedAscii.Server.Storage

/-!
# Server — servers that come and go

ASCII servers announce themselves to a fork, sign off, or stay silent when
the monitor asks. Each has stored files of its own, and the network cuts
every answer as it likes. Datagrams come between any two parts of a round of
the monitor. What the fork knows is what is up (`tracks_run`), as long as a
server sends none between its own answer and the write for it.
-/

namespace DistributedAscii.Server

open FileSystem Lib.Search Lib.Runs

/-- An ASCII server: its address and the calls that filled its disk. -/
structure Site where
  ip : Bytes
  port : Nat
  host : Host
  calls : List WriteCall
  workload : Workload host calls
  ip_slash : 47 ∉ ip
  ip_le : ip.length ≤ 15
  port_le : port ≤ 65535

namespace Site

def disk (site : Site) : Disk :=
  runWrites site.host site.calls

def drawings (site : Site) : Files :=
  stored site.host site.calls

/-- The names, in the order of the directory. -/
def names (site : Site) : List Bytes :=
  site.drawings.map fun f => f.1.bytes

/-- Names and drawings that the protocol can carry. -/
structure Clean (site : Site) : Prop where
  slash : ∀ n ∈ site.names, 47 ∉ n
  newline : ∀ n ∈ site.names, 10 ∉ n
  mark : ∀ n ∈ site.names, ¬ bytes "END" <+: n
  frame : ∀ f ∈ site.drawings, ¬ bytes "/END" <:+: f.2
  error : ∀ f ∈ site.drawings, ¬ bytes "BEGIN/ERROR/" <:+: f.2
  errorEnd : ∀ f ∈ site.drawings, ¬ bytes "BEGIN/ERROR" <:+ f.2

end Site

/-- What happens at the fork between two clients. -/
inductive SiteEvent where
  /-- The datagram of a server that starts, and the reads of its list. -/
  | on (site : Site) (pieces : List Bytes)
  | off (site : Site)
  | copy
  /-- The monitor asks the next server of its copy: the reads of every try,
  `none` where the connection fails. -/
  | queries (tries : List (Option (List Bytes)))
  | write
  | rest

/-- What `recvfrom` leaves of a datagram. -/
def arrival (d : Datagram) : Event :=
  .message d.query (d.payload.take 256) d.senderIp

def SiteEvent.event : SiteEvent → Event
  | .on site pieces => arrival
      { payload := announcement false site.ip site.port
        senderIp := site.ip
        query := fun _ _ => requestFromServer (some (pieces.map .data)) }
  | .off site => arrival
      { payload := announcement true site.ip site.port
        senderIp := site.ip
        query := fun _ _ => none }
  | .copy => .copy
  | .queries tries =>
      .queries (tries.map fun pieces => requestFromServer (pieces.map (List.map .data)))
  | .write => .write
  | .rest => .rest

/-- A fork and the servers around it. -/
structure Cluster where
  fork : Fork
  /-- The servers that are up, by address. -/
  up : Bytes → Option Site
  /-- No try of the last queries got through. -/
  silent : Bool

namespace Cluster

def start : Cluster where
  fork := .start
  up _ := none
  silent := false

/-- The servers that are up: a silent one goes when the monitor writes. -/
def upNext (c : Cluster) : SiteEvent → Bytes → Option Site
  | .on site _ => fun ip => if ip = site.ip then some site else c.up ip
  | .off site => fun ip => if ip = site.ip then none else c.up ip
  | .write =>
      match c.fork.monitor with
      | .queried ip _ _ => fun k => if k = ip ∧ c.silent then none else c.up k
      | _ => c.up
  | _ => c.up

def silentNext (c : Cluster) : SiteEvent → Bool
  | .queries tries => !(tries.take maxRetries).any Option.isSome
  | _ => c.silent

def step (c : Cluster) (e : SiteEvent) : Option Cluster :=
  (c.fork.step e.event).map fun fork =>
    { fork := fork, up := c.upNext e, silent := c.silentNext e }

abbrev after (events : List SiteEvent) : Option Cluster :=
  exec step start events

/-- The monitor is not about to write for the address. -/
def Quiet (c : Cluster) (ip : Bytes) : Prop :=
  ∀ asked objects todo, c.fork.monitor = .queried asked objects todo → asked ≠ ip

/-- A list comes from the server that is up at the address, cut in any way. -/
def Honest (c : Cluster) : SiteEvent → Prop
  | .on site pieces => site.Clean ∧ Cut (objectsAnswer site.disk) pieces ∧ c.Quiet site.ip
  | .off site => c.Quiet site.ip
  | .queries tries => ∀ server todo, c.fork.monitor = .visiting (server :: todo) →
      ∀ pieces, some pieces ∈ tries →
        ∃ site, c.up server.1 = some site ∧ Cut (objectsAnswer site.disk) pieces
  | _ => True

/-- Every event of a run is honest. -/
def HonestRun (events : List SiteEvent) : Prop :=
  EachStep step Honest start events

end Cluster

/-! ## The disk of a server -/

namespace Site

variable {site : Site}

theorem keeps (site : Site) : ∃ L, site.disk = L.toBytes ∧ Holds L site.drawings :=
  site.workload.holds List.prefix_rfl

theorem length_drawings (site : Site) : site.drawings.length ≤ 14 :=
  site.workload.length_stored List.prefix_rfl

theorem map_firstBlocks (start : Nat) (fs : Files) :
    (firstBlocks start fs).map Prod.fst = fs.map Prod.fst := by
  induction fs generalizing start with
  | nil => rfl
  | cons f fs ih => simp [firstBlocks, ih]

theorem objectsAnswer_disk (site : Site) :
    objectsAnswer site.disk = bytes "BEGIN/OK/" ++ listing site.names ++ bytes "/END" := by
  obtain ⟨L, hdisk, hL⟩ := site.keeps
  have hnames : L.entries.map (·.name) = site.drawings.map Prod.fst := by
    have hfirst := congrArg (List.map Prod.fst) hL.entries
    rwa [map_firstBlocks, List.map_map] at hfirst
  have hsize : L.entries.length ≤ 14 := by
    have hlength := congrArg List.length hnames
    rw [List.length_map, List.length_map] at hlength
    have h14 := site.length_drawings
    omega
  have hstored : storedNames L = site.names := by
    have hbytes := congrArg (List.map CString.bytes) hnames
    rwa [List.map_map, List.map_map] at hbytes
  rw [hdisk, objectsAnswer_toBytes hsize, hstored]

/-- **The list arrives**, however it is cut. -/
theorem Clean.query (h : site.Clean) {pieces : List Bytes}
    (hcut : Cut (objectsAnswer site.disk) pieces) :
    (requestFromServer (some (pieces.map .data))).bind objectsOf = some site.names := by
  have hmark : ¬ bytes "/END" <:+: bytes "BEGIN/OK/" ++ listing site.names := by
    rw [end_infix_listing_iff h.slash]
    rintro ⟨n, hn, hend⟩
    exact h.mark n (List.mem_of_mem_head? hn) hend
  rw [objectsAnswer_disk] at hcut
  rw [requestFromServer_whole hmark hcut, Option.bind_some, objectsOf_answer hmark, listing,
    getLines_lines h.newline]

end Site

/-! ## Datagrams -/

section Datagrams

variable {ip : Bytes} {port : Nat}

theorem length_decimal_le (h : port ≤ 65535) : (decimal port).length ≤ 5 := by
  rw [decimal, List.length_map, Nat.length_toDigits_le_iff (by decide) (by decide)]
  omega

theorem length_announcement_le (hip : ip.length ≤ 15) (hport : port ≤ 65535) (offline : Bool) :
    (announcement offline ip port).length ≤ 256 := by
  have hdecimal := length_decimal_le hport
  have hmark : (if offline then bytes "BEGIN/OFF/SERVIDOR/"
      else bytes "BEGIN/ON/SERVIDOR/").length ≤ 19 := by
    cases offline <;> decide
  have hslash : (bytes "/").length = 1 := by decide
  simp only [announcement, List.length_append, length_endMark, hslash]
  omega

/-- A sign-off is one, whatever the address. -/
theorem isOff_announcement (hip : 47 ∉ ip) : IsOff (announcement true ip port) := by
  have htext : announcement true ip port = bytes "BEGIN" ++ 47 :: (bytes "OFF" ++ 47 ::
      (bytes "SERVIDOR" ++ 47 :: (ip ++ 47 :: (decimal port ++ 47 :: bytes "END")))) := by
    rw [announcement, if_pos rfl, bytes_end, bytes_end_word, show bytes "BEGIN/OFF/SERVIDOR/"
      = bytes "BEGIN" ++ 47 :: (bytes "OFF" ++ 47 :: (bytes "SERVIDOR" ++ [47])) by decide,
      show bytes "/" = [47] by decide]
    simp only [List.append_assoc, List.cons_append, List.nil_append]
  have hdigits : 47 ∉ decimal port := fun h => absurd (mem_decimal h).1 (by decide)
  refine ⟨?_, ?_⟩
  · rw [← Bool.not_eq_true, contains_iff, htext, show bytes "BEGIN/ON/SERVIDOR/"
      = bytes "BEGIN" ++ 47 :: bytes "ON/SERVIDOR/" by decide,
      sep_infix_iff (by decide) (by decide), sep_infix_iff (by decide) (by decide),
      sep_infix_iff (by decide) (by decide), sep_infix_iff (by decide) hip,
      sep_infix_iff (by decide) hdigits]
    have hon : bytes "ON/SERVIDOR/" = 79 :: 78 :: bytes "/SERVIDOR/" := by decide
    rintro (⟨-, hpre⟩ | ⟨hsuf, -⟩ | ⟨hsuf, -⟩ | ⟨-, hpre⟩ | ⟨hsuf, -⟩ | h)
    · rw [hon, show bytes "OFF" = [79, 70, 70] by decide] at hpre
      simp at hpre
    · exact absurd hsuf.length_le (by decide)
    · exact absurd hsuf (by decide)
    · -- the port begins with a digit
      obtain ⟨d, rest, hd⟩ := List.exists_cons_of_ne_nil (decimal_ne_nil port)
      have hdigit := mem_decimal (n := port) (b := d) (by rw [hd]; exact List.mem_cons_self)
      rw [hon, hd, List.cons_append, List.cons_prefix_cons] at hpre
      rw [← hpre.1] at hdigit
      exact absurd hdigit.2 (by decide)
    · have hmem := hsuf.subset (show 66 ∈ bytes "BEGIN" by decide)
      exact absurd (mem_decimal hmem).2 (by decide)
    · exact absurd h.length_le (by decide)
  · rw [contains_iff, announcement, if_pos rfl, List.append_assoc, List.append_assoc,
      List.append_assoc]
    exact (List.prefix_append _ _).isInfix

end Datagrams

/-! ## The registry follows the servers -/

/-- What the monitor still has to visit. -/
def Phase.todo : Phase → List (Bytes × Bytes × Int)
  | .sleeping => []
  | .visiting todo => todo
  | .queried _ _ todo => todo

namespace Cluster

/-- The registry knows the servers that are up, each with its names, and the
monitor is about to write what one of them has. -/
structure Tracks (c : Cluster) : Prop where
  address : ∀ {ip site}, c.up ip = some site → site.ip = ip ∧ site.Clean
  known : ∀ ip, c.fork.registry.knownServers[ip]?
    = (c.up ip).map fun site => (site.ip, (site.port : Int))
  objects : ∀ ip, c.fork.registry.serverObjects[ip]? = (c.up ip).map Site.names
  own : ∀ server ∈ c.fork.monitor.todo, server.2.1 = server.1
  pending : ∀ {ip objects todo}, c.fork.monitor = .queried ip objects todo →
    if c.silent then objects = none else ∃ site, c.up ip = some site ∧ objects = some site.names

theorem tracks_start : start.Tracks where
  address h := by cases h
  known _ := by simp [start, Fork.start]
  objects _ := by simp [start, Fork.start]
  own := List.forall_mem_nil _
  pending h := by cases h

/-! ### Datagrams -/

section Datagrams

variable {site : Site} {query : Query} {r : Registry}

theorem arrival_on (hclean : site.Clean) {pieces : List Bytes}
    (hcut : Cut (objectsAnswer site.disk) pieces) (fork : Fork) :
    fork.step (SiteEvent.on site pieces).event = some { fork with
      registry := fork.registry.on site.ip site.ip site.port (some site.names) } := by
  rw [SiteEvent.event, arrival, Fork.step]
  simp only
  rw [List.take_of_length_le (length_announcement_le site.ip_le site.port_le false),
    processProtocolMessage_announced (announced_announcement site.ip_slash site.port_le),
    register_registry, hclean.query hcut]

theorem arrival_off (site : Site) (fork : Fork) :
    fork.step (SiteEvent.off site).event
      = some { fork with registry := fork.registry.off site.ip } := by
  have hoff : IsOff (announcement true site.ip site.port) := isOff_announcement site.ip_slash
  rw [SiteEvent.event, arrival, Fork.step]
  simp only
  rw [List.take_of_length_le (length_announcement_le site.ip_le site.port_le true),
    processProtocolMessage_isOff hoff]

end Datagrams

/-! ### The monitor -/

/-- **One answered try is enough**, and without one there is no list. -/
theorem monitorQuery_tries {known : Option Site} (hclean : ∀ site, known = some site → site.Clean)
    {tries : List (Option (List Bytes))}
    (hcut : ∀ pieces, some pieces ∈ tries →
      ∃ site, known = some site ∧ Cut (objectsAnswer site.disk) pieces) :
    monitorQuery (tries.map fun pieces => requestFromServer (pieces.map (List.map .data)))
      = if (tries.take maxRetries).any Option.isSome then known.map Site.names else none := by
  have hall : ∀ some_tries : List (Option (List Bytes)), (∀ try' ∈ some_tries, try' ∈ tries) →
      (some_tries.map fun pieces => requestFromServer (pieces.map (List.map .data))).findSome?
          (fun answer => answer.bind objectsOf)
        = if some_tries.any Option.isSome then known.map Site.names else none := by
    intro some_tries hmem
    induction some_tries with
    | nil => rfl
    | cons try' rest ih =>
        have hrest := ih fun t ht => hmem t (List.mem_cons_of_mem _ ht)
        rw [List.map_cons]
        cases try' with
        | none =>
            rw [List.findSome?_cons_of_isNone rfl, hrest]
            rfl
        | some pieces =>
            obtain ⟨site, rfl, hpieces⟩ := hcut pieces (hmem _ List.mem_cons_self)
            have hquery := (hclean site rfl).query hpieces
            rw [List.findSome?_cons]
            simp only [Option.map_some, hquery]
            rfl
  rw [monitorQuery, ← List.map_take]
  exact hall _ fun t ht => List.mem_of_mem_take ht

variable {c c' : Cluster} {e : SiteEvent}

theorem step_eq_some (h : c.step e = some c') :
    ∃ fork, c.fork.step e.event = some fork ∧
      c' = { fork := fork, up := c.upNext e, silent := c.silentNext e } := by
  obtain ⟨fork, hfork, rfl⟩ := Option.map_eq_some_iff.mp h
  exact ⟨fork, hfork, rfl⟩

namespace Tracks

theorem on (h : c.Tracks) (site : Site) (hclean : site.Clean) (hquiet : c.Quiet site.ip) :
    Tracks
      { fork := { c.fork with
          registry := c.fork.registry.on site.ip site.ip site.port (some site.names) }
        up := fun ip => if ip = site.ip then some site else c.up ip
        silent := c.silent } where
  address {ip site'} hup := by
    simp only at hup
    split at hup
    · cases hup
      exact ⟨Eq.symm ‹_›, hclean⟩
    · exact h.address hup
  known ip := by
    by_cases hip : ip = site.ip
    · simp [hip]
    · simp [hip, Ne.symm hip, h.known]
  objects ip := by
    by_cases hip : ip = site.ip
    · simp [hip]
    · simp [hip, Ne.symm hip, h.objects]
  own := h.own
  pending hmonitor := by
    simp only [if_neg (hquiet _ _ _ hmonitor)]
    exact h.pending hmonitor

theorem off (h : c.Tracks) (site : Site) (hquiet : c.Quiet site.ip) :
    Tracks
      { fork := { c.fork with registry := c.fork.registry.off site.ip }
        up := fun ip => if ip = site.ip then none else c.up ip
        silent := c.silent } where
  address {ip site'} hup := by
    simp only at hup
    split at hup
    · cases hup
    · exact h.address hup
  known ip := by
    by_cases hip : ip = site.ip
    · simp [hip]
    · simp [hip, Ne.symm hip, h.known]
  objects ip := by
    by_cases hip : ip = site.ip
    · simp [hip]
    · simp [hip, Ne.symm hip, h.objects]
  own := h.own
  pending hmonitor := by
    simp only [if_neg (hquiet _ _ _ hmonitor)]
    exact h.pending hmonitor

/-- A copy holds servers under their own addresses. -/
theorem copied (h : c.Tracks) : ∀ server ∈ c.fork.registry.knownServers.toList,
    server.2.1 = server.1 := by
  intro ⟨ip, ip', port⟩ hmem
  rw [StringMap.mem_toList, h.known] at hmem
  obtain ⟨site, hup, heq⟩ := Option.map_eq_some_iff.mp hmem
  cases heq
  exact (h.address hup).1

/-- What the monitor writes is what is there. -/
theorem written (h : c.Tracks) {ip : Bytes} {objects : Option (List Bytes)}
    {todo : List (Bytes × Bytes × Int)} (hmonitor : c.fork.monitor = .queried ip objects todo) :
    Tracks
      { fork := { registry := monitorWrite ip c.fork.registry objects
                  monitor := .visiting todo }
        up := fun k => if k = ip ∧ c.silent then none else c.up k
        silent := c.silent } := by
  have hown := h.own
  have hpending := h.pending hmonitor
  rw [hmonitor] at hown
  cases hsilent : c.silent with
  | true =>
      rw [hsilent, if_pos rfl] at hpending
      subst hpending
      refine ⟨fun {k site} hup => ?_, fun k => ?_, fun k => ?_, hown, fun hnext => by cases hnext⟩
      · simp only [and_true] at hup
        split at hup
        · cases hup
        · exact h.address hup
      · by_cases hk : k = ip
        · simp [monitorWrite, hk]
        · simp [monitorWrite, hk, Ne.symm hk, h.known]
      · by_cases hk : k = ip
        · simp [monitorWrite, hk]
        · simp [monitorWrite, hk, Ne.symm hk, h.objects]
  | false =>
      rw [hsilent, if_neg Bool.false_ne_true] at hpending
      obtain ⟨site, hup, rfl⟩ := hpending
      refine ⟨fun {k site} hup => ?_, fun k => ?_, fun k => ?_, hown, fun hnext => by cases hnext⟩
      · exact h.address (by simpa using hup)
      · simp [monitorWrite, h.known]
      · by_cases hk : k = ip
        · simp [monitorWrite, hk, hup]
        · simp [monitorWrite, hk, Ne.symm hk, h.objects]

/-- **One event**: the registry goes on tracking what is up. -/
theorem step (h : c.Tracks) (hstep : c.step e = some c') (hhonest : c.Honest e) : c'.Tracks := by
  obtain ⟨fork, hfork, rfl⟩ := step_eq_some hstep
  cases e with
  | on site pieces =>
      obtain ⟨hclean, hcut, hquiet⟩ := hhonest
      rw [arrival_on hclean hcut] at hfork
      cases hfork
      exact h.on site hclean hquiet
  | off site =>
      rw [arrival_off] at hfork
      cases hfork
      exact h.off site hhonest
  | copy =>
      simp only [SiteEvent.event, Fork.step] at hfork
      split at hfork
      · cases hfork
        exact ⟨h.address, h.known, h.objects, h.copied, fun hnext => by cases hnext⟩
      · cases hfork
  | queries tries =>
      simp only [SiteEvent.event, Fork.step] at hfork
      split at hfork
      · rename_i server todo hmonitor
        cases hfork
        have hown := h.own
        rw [hmonitor] at hown
        have hserver : server.2.1 = server.1 := hown server List.mem_cons_self
        have hquery := monitorQuery_tries 
          (fun site hup => (h.address hup).2) (hhonest server todo hmonitor)
        refine ⟨h.address, h.known, h.objects,
          fun other hother => hown other (List.mem_cons_of_mem _ hother), fun hnext => ?_⟩
        simp only [Phase.queried.injEq] at hnext
        obtain ⟨rfl, rfl, rfl⟩ := hnext
        rw [hserver]
        rw [hquery]
        cases hany : (tries.take maxRetries).any Option.isSome with
        | false => simp [silentNext, hany]
        | true =>
            -- some try got through, so that there is a server to answer it
            obtain ⟨try', htry, hsome⟩ := List.any_eq_true.mp hany
            obtain ⟨pieces, rfl⟩ := Option.isSome_iff_exists.mp hsome
            obtain ⟨site, hup, -⟩ := hhonest server todo hmonitor pieces (List.mem_of_mem_take htry)
            simp [silentNext, hany, upNext, hup]
      · cases hfork
  | write =>
      simp only [SiteEvent.event, Fork.step] at hfork
      split at hfork
      · rename_i ip objects todo hmonitor
        cases hfork
        have hnext := h.written hmonitor
        simpa only [upNext, silentNext, hmonitor] using hnext
      · cases hfork
  | rest =>
      simp only [SiteEvent.event, Fork.step] at hfork
      split at hfork
      · cases hfork
        exact ⟨h.address, h.known, h.objects, List.forall_mem_nil _,
          fun hnext => by cases hnext⟩
      · cases hfork

end Tracks

/-- **Along every run** the registry is what is up. -/
theorem tracks_run {events : List SiteEvent} (h : HonestRun events) (hrun : after events = some c) :
    c.Tracks :=
  EachStep.throughout tracks_start Tracks.step h events c List.prefix_rfl hrun

end Cluster

end DistributedAscii.Server
