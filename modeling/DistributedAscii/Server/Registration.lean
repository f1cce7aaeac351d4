import DistributedAscii.Server.Answers

/-!
# Server — registration from end to end

An ASCII server announces itself, the fork asks it for its names and keeps
the lines of the answer. Three encoders meet decoders that were not written
with them: the announcement and the positional parser, the directory and
the listing, the framed answer and a splitter that looks for the first
`/END`. The last pair disagrees when the first name begins with `END`.
-/

namespace DistributedAscii.Server

open FileSystem Lib.Search

/-! ## Ports -/

section Decimal

theorem mem_decimal {n : Nat} {b : UInt8} (h : b ∈ decimal n) : 48 ≤ b.toNat ∧ b.toNat ≤ 57 := by
  obtain ⟨c, hc, rfl⟩ := List.mem_map.mp h
  have hdigit := Nat.isDigit_of_mem_toDigits (by decide) (by decide) hc
  rw [Char.isDigit_iff_toNat] at hdigit
  have hzero : '0'.toNat = 48 := rfl
  have hnine : '9'.toNat = 57 := rfl
  rw [UInt8.toNat_ofNat']
  omega

theorem isDigit_of_mem_decimal {n : Nat} {b : UInt8} (h : b ∈ decimal n) : isDigit b = true := by
  have hb := mem_decimal h
  simp only [isDigit, Bool.and_eq_true, decide_eq_true_eq, UInt8.le_iff_toNat_le]
  exact hb

theorem decimal_ne_nil (n : Nat) : decimal n ≠ [] := by
  simp [decimal, Nat.toDigits_ne_nil]

theorem digitsValue_decimal (n : Nat) : digitsValue (decimal n) = n := by
  have hdigits : ∀ (cs : List Char), (∀ c ∈ cs, c.isDigit = true) → ∀ init,
      (cs.map fun c => UInt8.ofNat c.toNat).foldl (fun n b => 10 * n + (b.toNat - 48)) init
        = Nat.ofDigitChars 10 cs init := by
    intro cs hcs
    induction cs with
    | nil => simp
    | cons c cs ih =>
        intro init
        have hc := hcs c List.mem_cons_self
        rw [Char.isDigit_iff_toNat] at hc
        have hlt : c.toNat < 256 := by
          have hnine : '9'.toNat = 57 := rfl
          omega
        rw [List.map_cons, List.foldl_cons, ih fun d hd => hcs d (List.mem_cons_of_mem _ hd),
          Nat.ofDigitChars_cons, UInt8.toNat_ofNat', Nat.mod_eq_of_lt hlt]
        rfl
  rw [digitsValue, decimal, hdigits _ fun c => Nat.isDigit_of_mem_toDigits (by decide) (by decide)]
  exact Nat.ofDigitChars_ten_toDigits

/-- A number in front of a text, if it is not too large. -/
theorem stoi_decimal_eq (n : Nat) {rest : Bytes} (hrest : ∀ b ∈ rest.head?, isDigit b = false) :
    stoi (decimal n ++ rest) = if (n : Int) ≤ 2147483647 then some (n : Int) else none := by
  obtain ⟨b, digits, hdecimal⟩ := List.exists_cons_of_ne_nil (decimal_ne_nil n)
  have hrange := mem_decimal (n := n) (b := b) (by simp [hdecimal])
  -- no blank and no sign in front of the digits
  have hspace : isSpace b = false := by
    have h32 : b ≠ 32 := fun h => absurd (h ▸ hrange.1) (by decide)
    have h13 : ¬ b ≤ 13 := by
      rw [UInt8.le_iff_toNat_le, show (13 : UInt8).toNat = 13 from rfl]
      omega
    simp [isSpace, h32, h13]
  have hblank : (decimal n ++ rest).dropWhile isSpace = decimal n ++ rest := by
    simp [hdecimal, hspace]
  have hsign : takeSign (decimal n ++ rest) = (false, decimal n ++ rest) := by
    have h43 : b ≠ 43 := fun h => absurd (h ▸ hrange.1) (by decide)
    have h45 : b ≠ 45 := fun h => absurd (h ▸ hrange.1) (by decide)
    rw [hdecimal, List.cons_append]
    unfold takeSign
    split
    · rename_i heq
      exact absurd (List.cons.inj heq).1 h43
    · rename_i heq
      exact absurd (List.cons.inj heq).1 h45
    · rfl
  have htail : rest.takeWhile isDigit = [] := by
    cases rest with
    | nil => rfl
    | cons c rest => simp [hrest c rfl]
  have htake : (decimal n ++ rest).takeWhile isDigit = decimal n := by
    rw [List.takeWhile_append_of_pos fun b hb => isDigit_of_mem_decimal hb, htail,
      List.append_nil]
  have hlow : -2147483648 ≤ (n : Int) := by omega
  simp [stoi, hblank, hsign, htake, decimal_ne_nil, digitsValue_decimal, hlow]

/-- **A port is read back**, whatever comes behind its digits. -/
theorem stoi_decimal {n : Nat} (hn : n ≤ 2147483647) {rest : Bytes}
    (hrest : ∀ b ∈ rest.head?, isDigit b = false) : stoi (decimal n ++ rest) = some (n : Int) := by
  rw [stoi_decimal_eq n hrest, if_pos (by omega)]

end Decimal

/-! ## The announcement -/

section Announcement

variable {ip : Bytes} {port : Nat}

theorem length_onMark : (bytes "BEGIN/ON/SERVIDOR/").length = 18 := by decide

theorem announcement_eq (ip : Bytes) (port : Nat) :
    announcement false ip port
      = bytes "BEGIN/ON/SERVIDOR/" ++ (ip ++ 47 :: (decimal port ++ bytes "/END")) := by
  rw [announcement, if_neg (by decide), show bytes "/" = [47] by decide]
  simp only [List.append_assoc, List.cons_append, List.nil_append]

theorem find_mark : find (bytes "BEGIN/ON/SERVIDOR/") (announcement false ip port) = some 0 := by
  rw [announcement_eq]
  exact find_append_left _ _

/-- The slash behind the ip. -/
theorem find_ipEnd (hip : 47 ∉ ip) :
    findFrom (bytes "/") (announcement false ip port) 18 = some (18 + ip.length) := by
  have hslash : bytes "/" = [47] := by decide
  have hle : 18 ≤ (announcement false ip port).length := by
    rw [announcement_eq, List.length_append, length_onMark]
    omega
  have hfind : find [47] (ip ++ 47 :: (decimal port ++ bytes "/END")) = some ip.length := by
    have hhere := find_append_left [47] (decimal port ++ bytes "/END")
    rw [List.singleton_append] at hhere
    simp [find_append_of_not_mem hip, hhere]
  rw [findFrom, if_pos hle, announcement_eq, List.drop_left' length_onMark, hslash, hfind,
    Option.map_some, Nat.add_comm]

/-- The first `/END` stands behind the port, or before it, where it is not
looked for. -/
theorem find_portEnd (ip : Bytes) (port : Nat) :
    ∃ portEnd, find (bytes "/END") (announcement false ip port) = some portEnd
      ∧ (portEnd = 19 + ip.length + (decimal port).length ∨ portEnd < 19 + ip.length) := by
  have hsplit : announcement false ip port
      = bytes "BEGIN/ON/SERVIDOR/" ++ (ip ++ 47 :: decimal port) ++ bytes "/END" := by
    rw [announcement_eq]
    simp only [List.append_assoc, List.cons_append]
  have hlen : (bytes "BEGIN/ON/SERVIDOR/" ++ (ip ++ 47 :: decimal port)).length
      = 19 + ip.length + (decimal port).length := by
    simp only [List.length_append, List.length_cons, length_onMark]
    omega
  by_cases hend : bytes "/END" <:+: bytes "BEGIN/ON/SERVIDOR/" ++ (ip ++ 47 :: decimal port)
  · obtain ⟨portEnd, hfind⟩ := Option.isSome_iff_exists.mp (find_isSome_iff.mpr hend)
    refine ⟨portEnd, hsplit ▸ find_append_of_some hfind _, .inr ?_⟩
    by_contra hlate
    -- its slash would be among the digits
    have hmem : 47 ∈ (bytes "BEGIN/ON/SERVIDOR/" ++ (ip ++ 47 :: decimal port)).drop portEnd :=
      (prefix_drop_of_find hfind).subset (by simp [bytes_end])
    rw [← List.append_assoc, List.append_cons, List.drop_append, List.drop_eq_nil_of_le (by
      simp only [List.length_append, List.length_singleton, length_onMark]; omega)] at hmem
    have hdigit := mem_decimal (List.mem_of_mem_drop (by simpa using hmem))
    exact absurd hdigit.1 (by decide)
  · refine ⟨_, ?_, .inl hlen⟩
    have hfind := find_end hend []
    rw [List.append_nil] at hfind
    rw [hsplit, hfind]

/-- **The announcement is parsed back**, up to what `stoi` does not read. -/
theorem announcedText_announcement (hip : 47 ∉ ip) (port : Nat) :
    ∃ rest, (∀ b ∈ rest.head?, isDigit b = false)
      ∧ announcedText (announcement false ip port) = some (ip, decimal port ++ rest) := by
  have hip' : substr (announcement false ip port) 18 (some ip.length) = ip := by
    rw [substr, announcement_eq, List.drop_left' length_onMark, List.take_left]
  have hport' : (announcement false ip port).drop (18 + ip.length + 1)
      = decimal port ++ bytes "/END" := by
    rw [announcement_eq, ← List.append_assoc, List.append_cons]
    exact List.drop_left' (by simp only [List.length_append, List.length_singleton, length_onMark])
  obtain ⟨portEnd, hend, hafter | hbefore⟩ := find_portEnd ip port
  · refine ⟨[], by simp, ?_⟩
    have hcount : sizeDiff (some portEnd) (18 + ip.length + 1) = some (decimal port).length := by
      rw [sizeDiff, if_pos (by omega)]
      exact congrArg some (by omega)
    have htext : substr (announcement false ip port) (18 + ip.length + 1)
        (some (decimal port).length) = decimal port := by
      rw [substr, hport', List.take_left]
    simp [announcedText, find_mark, find_ipEnd hip, hend, hip', hcount, htext]
  · -- the difference of the positions falls below zero: the text goes on to the end
    refine ⟨bytes "/END", by simp [bytes_end, isDigit], ?_⟩
    have hcount : sizeDiff (some portEnd) (18 + ip.length + 1) = none := by
      rw [sizeDiff, if_neg (by omega)]
    have htext : substr (announcement false ip port) (18 + ip.length + 1) none
        = decimal port ++ bytes "/END" := hport'
    simp [announcedText, find_mark, find_ipEnd hip, hend, hip', hcount, htext]

theorem announced_announcement (hip : 47 ∉ ip) (hport : port ≤ 65535) :
    announced (announcement false ip port) = some (ip, (port : Int)) := by
  obtain ⟨rest, hrest, htext⟩ := announcedText_announcement hip port
  simp [announced, htext, stoi_decimal (show port ≤ 2147483647 by omega) hrest]

end Announcement

/-! ## The names of a disk -/

section Names

variable {L : Layout} {ip senderIp : Bytes} {port : Nat} {r : Registry}

/-- The names of the stored files, in the order of the directory. -/
def storedNames (L : Layout) : List Bytes :=
  L.entries.map fun e => e.name.bytes

/-- A line for every name. -/
def listing (names : List Bytes) : Bytes :=
  names.flatMap fun n => n ++ bytes "\n"

theorem objectsAnswer_toBytes (hsize : L.entries.length ≤ 14) :
    objectsAnswer L.toBytes = bytes "BEGIN/OK/" ++ listing (storedNames L) ++ bytes "/END" := by
  rw [objectsAnswer, L.getSystemInfo_toBytes hsize, listing, storedNames, List.flatMap_map]

theorem length_listing_le {names : List Bytes} (h : ∀ n ∈ names, n.length ≤ 16) :
    (listing names).length ≤ 17 * names.length := by
  induction names with
  | nil => simp [listing]
  | cons n rest ih =>
      have hn := h n List.mem_cons_self
      have hrest := ih fun m hm => h m (List.mem_cons_of_mem _ hm)
      have hcons : listing (n :: rest) = n ++ bytes "\n" ++ listing rest := rfl
      rw [hcons, bytes_newline]
      simp only [List.length_append, List.length_cons, List.length_nil]
      omega

/-- An answer to `OBJECTS` fits into one read. -/
theorem length_objectsAnswer_le (hsize : L.entries.length ≤ 14) :
    (objectsAnswer L.toBytes).length ≤ 256 := by
  have hnames_le : ∀ n ∈ storedNames L, n.length ≤ 16 := by
    intro n hn
    obtain ⟨e, _, rfl⟩ := List.mem_map.mp hn
    exact e.name_le
  have hlisting := length_listing_le hnames_le
  have hnames : (storedNames L).length = L.entries.length := List.length_map ..
  rw [objectsAnswer_toBytes hsize, List.length_append, List.length_append, length_okMark,
    length_endMark]
  omega

/-- The line of the first name begins the listing. -/
theorem end_prefix_listing_iff (names : List Bytes) :
    bytes "END" <+: listing names ↔ ∃ n ∈ names.head?, bytes "END" <+: n := by
  cases names with
  | nil => simp [listing, bytes_end_word]
  | cons n rest =>
      have hbreak : listing (n :: rest) = n ++ 10 :: listing rest := by
        simp [listing, bytes_newline]
      rw [hbreak, prefix_append_cons_iff (by decide)]
      simp

/-- A listing of names without a slash has an early mark only in front. -/
theorem end_infix_listing_iff {names : List Bytes} (hnames : ∀ n ∈ names, 47 ∉ n) :
    bytes "/END" <:+: bytes "BEGIN/OK/" ++ listing names
      ↔ ∃ n ∈ names.head?, bytes "END" <+: n := by
  have hslash : 47 ∉ listing names := by
    intro h
    obtain ⟨n, hn, hmem⟩ := List.mem_flatMap.mp h
    rw [List.mem_append] at hmem
    exact hmem.elim (hnames n hn) (by decide)
  have hno : ¬ bytes "/END" <:+: listing names :=
    fun h => hslash (h.subset (by simp [bytes_end]))
  rw [end_infix_answer_iff, end_prefix_listing_iff]
  simp [hno]

/-! ## The registration -/

/-- The server is known at its address, with the names on its disk. -/
def RegisteredWith (L : Layout) (senderIp ip : Bytes) (port : Nat) (r : Registry) : Prop :=
  r.knownServers[senderIp]? = some (ip, (port : Int))
    ∧ r.serverObjects[ip]? = some (storedNames L)

/-- The announcement of an ASCII server registers it, however its answer to
`OBJECTS` is cut into reads. -/
def Registers (L : Layout) (senderIp ip : Bytes) (port : Nat) (r : Registry) : Prop :=
  ∀ fuel answer pieces (query : Query),
    validateRequest fuel L.toBytes (.ofBytes (bytes "BEGIN/OBJECTS/END")) = some answer →
    Cut answer pieces → query ip port = requestFromServer (some (pieces.map .data)) →
    RegisteredWith L senderIp ip port
      (processProtocolMessage query (announcement false ip port) senderIp r).2

/-- What the fork makes of the answer to its query. -/
theorem processProtocolMessage_announcement (hip : 47 ∉ ip) (hport : port ≤ 65535)
    {query : Query} {answer : Bytes} {objects : List Bytes}
    (hquery : query ip port = some answer) (hobjects : objectsOf answer = some objects) :
    (processProtocolMessage query (announcement false ip port) senderIp r).2
      = r.on senderIp ip port (some objects) := by
  rw [processProtocolMessage_announced (announced_announcement hip hport), register_registry,
    hquery, Option.bind_some, hobjects]

theorem registers_of_separate (hsize : L.entries.length ≤ 14)
    (hnames : ∀ n ∈ storedNames L, 47 ∉ n ∧ 10 ∉ n) (hip : 47 ∉ ip) (hport : port ≤ 65535)
    (hend : ∀ n ∈ (storedNames L).head?, ¬ bytes "END" <+: n) :
    Registers L senderIp ip port r := by
  intro fuel answer pieces query hanswer hcut hquery
  rw [validateRequest_list (CString.ofBytes_bytes (by decide)), objectsAnswer_toBytes hsize,
    Option.some_inj] at hanswer
  have hmark : ¬ bytes "/END" <:+: bytes "BEGIN/OK/" ++ listing (storedNames L) := by
    rw [end_infix_listing_iff fun n hn => (hnames n hn).1]
    exact fun ⟨n, hn, h⟩ => hend n hn h
  have hobjects : objectsOf answer = some (storedNames L) := by
    rw [← hanswer, objectsOf_answer hmark, listing,
      getLines_lines fun n hn => (hnames n hn).2]
  rw [← hanswer] at hcut
  have hread := requestFromServer_whole hmark hcut
  rw [hread, hanswer] at hquery
  rw [processProtocolMessage_announcement hip hport hquery hobjects]
  exact ⟨by simp, by simp⟩

theorem not_registers_of_end (hsize : L.entries.length ≤ 14)
    (hnames : ∀ n ∈ storedNames L, 47 ∉ n ∧ 10 ∉ n) (hip : 47 ∉ ip) (hport : port ≤ 65535)
    {n : Bytes} (hn : n ∈ (storedNames L).head?) (hend : bytes "END" <+: n) :
    ¬ Registers L senderIp ip port r := by
  intro hall
  have hlist : bytes "END" <+: listing (storedNames L) :=
    (end_prefix_listing_iff _).mpr ⟨n, hn, hend⟩
  have hobjects : objectsOf (objectsAnswer L.toBytes)
      = some (storedNames L ++ [bytes "/END"]) := by
    rw [objectsAnswer_toBytes hsize, objectsOf_early hlist, listing,
      getLines_lines_append (fun n hn => (hnames n hn).2) (by decide) (by decide)]
  have hne : objectsAnswer L.toBytes ≠ [] := by
    simp [objectsAnswer_toBytes hsize, bytes_end]
  -- the whole answer in one read
  have hreg := hall 0 _ [objectsAnswer L.toBytes] (fun _ _ => some (objectsAnswer L.toBytes))
    (validateRequest_list (CString.ofBytes_bytes (by decide)))
    (cut_singleton hne (length_objectsAnswer_le hsize))
    (requestFromServer_singleton hne).symm
  rw [processProtocolMessage_announcement hip hport rfl hobjects] at hreg
  have hlong := congrArg (Option.map List.length) hreg.2
  simp at hlong

/-- **When an announcement registers its server**: if the first name does
not begin with `END`. -/
theorem registers_iff (hsize : L.entries.length ≤ 14)
    (hnames : ∀ n ∈ storedNames L, 47 ∉ n ∧ 10 ∉ n) (hip : 47 ∉ ip) (hport : port ≤ 65535)
    (senderIp : Bytes) (r : Registry) :
    Registers L senderIp ip port r ↔ ∀ n ∈ (storedNames L).head?, ¬ bytes "END" <+: n := by
  constructor
  · intro h n hn hend
    exact not_registers_of_end hsize hnames hip hport hn hend h
  · exact registers_of_separate hsize hnames hip hport

/-- A disk with one file. -/
def oneFile (name : CString) (hpos : 0 < name.length) (hle : name.length ≤ 16) : Layout :=
  Layout.fresh.addEntry ⟨name, .one, hpos, hle⟩ (by decide)

/-- The cat is registered. -/
theorem registers_gato :
    Registers (oneFile (.ofBytes (bytes "gato")) (by decide) (by decide))
      (bytes "127.0.0.1") (bytes "127.0.0.1") 8080 .empty := by
  apply (registers_iff _ _ _ _ _ _).mpr
  all_goals decide

/-- A file named `END` is registered with a second name, the end of the
frame. -/
theorem not_registers_end :
    ¬ ∀ (L : Layout) (senderIp ip : Bytes) (port : Nat) (r : Registry),
      L.entries.length ≤ 14 → (∀ n ∈ storedNames L, 47 ∉ n ∧ 10 ∉ n) → 47 ∉ ip →
      port ≤ 65535 → Registers L senderIp ip port r := by
  intro h
  have hnames : ∀ n ∈ storedNames (oneFile (.ofBytes (bytes "END")) (by decide) (by decide)),
      47 ∉ n ∧ 10 ∉ n := by
    decide
  exact not_registers_of_end (n := bytes "END") (by decide) hnames (by decide) (by decide)
    (by decide) (by decide)
    (h _ (bytes "127.0.0.1") (bytes "127.0.0.1") 8080 .empty (by decide) hnames (by decide)
      (by decide))

end Names

end DistributedAscii.Server
