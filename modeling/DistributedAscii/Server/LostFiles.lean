import DistributedAscii.FileSystem.Success
import DistributedAscii.Server.Returns

/-!
# Server — what is left when the blocks run out

A call that needs more blocks than the disk has left is not told so: the
allocator answers `EXIT_FAILURE`, the writer reads it as block 1 and goes on
there. If its text ends within 255 blocks the call reports success; if not,
it reports failure, and the first file of the disk has lost its end, so a
`GET` for it never returns.
-/

namespace DistributedAscii.Server

open FileSystem Lib.Pointers

/-! ## Returning means ending -/

section Loop

variable {L : Layout} {name : CString} {e : Entry}

/-- **A loop that returns has seen an end.** The induction is on the turns;
a link byte 0 leads back to the first block. -/
theorem ends_of_drawingLoop (hpos : 0 < name.length) (hfind : L.find name = some e)
    {fuel x : Nat} {next : UInt8} {asciiArt drawing : Bytes}
    (h : drawingLoop L.toBytes name fuel next asciiArt = some drawing) (h255 : next ≠ 255)
    (hblock : extractBlock L.toBytes name next.toNat = some (readBlock L.toBytes x)) (hx : x ≠ 0)
    (hlead : Leads L.next x e.firstBlock.val.toNat) : Ends L.next x := by
  induction fuel generalizing x next asciiArt with
  | zero => cases h
  | succ fuel ih =>
      have hfirst : e.firstBlock.val.toNat ≠ 0 := Nat.ne_of_gt e.firstBlock.pos
      rw [drawingLoop_succ h255 hblock, L.getD_readBlock] at h
      by_cases hlast : L.link x = 255
      · refine .last ?_
        rw [Layout.next, if_neg hx, if_pos hlast]
      · have hnext : L.next x = some (L.link x).toNat := by
          rw [Layout.next, if_neg hx, if_neg hlast]
        by_cases hzero : (L.link x).toNat = 0
        · -- back to the first block
          have hstart : extractBlock L.toBytes name (L.link x).toNat
              = some (readBlock L.toBytes e.firstBlock.val.toNat) := by
            rw [hzero]
            exact L.extractBlock_first hpos hfind
          exact (ih h hlast hstart hfirst .here).of_leads hlead
        · exact .step hnext (ih h hlast (L.extractBlock_block name hzero) hzero
            (hlead.snoc hnext))

/-- A drawing that can be read has a chain that ends. -/
theorem ends_of_readDrawing (hpos : 0 < name.length) (hfind : L.find name = some e)
    {fuel : Nat} {drawing : Bytes} (h : readDrawing fuel L.toBytes name = some drawing) :
    Ends L.next e.firstBlock.val.toNat :=
  ends_of_drawingLoop hpos hfind h (by decide) (L.extractBlock_first hpos hfind)
    (Nat.ne_of_gt e.firstBlock.pos) .here

end Loop

/-! ## A call that needs more than is left -/

/-- The server finds the file and reads this text. -/
def Reads (disk : Disk) (name : CString) (text : Bytes) : Prop :=
  existASCII disk name = exitSuccess ∧ ∃ fuel, readDrawing fuel disk name = some text

/-- A new name behind at most 13 stored ones, whose text needs more of the
254 blocks than are left. -/
structure Overfull (host : Host) (calls : List WriteCall) (c : WriteCall) (text : Bytes) :
    Prop where
  succeeds : Succeeds host calls
  names : (calls.map WriteCall.name).dedup.length ≤ 13
  new : c.name ∉ calls.map WriteCall.name
  opens : host c.path = some text
  more : 254 < total (stored host calls) + needed text

/-- The call fails, and what could be read before reads the same. -/
structure Contained (host : Host) (calls : List WriteCall) (c : WriteCall) : Prop where
  reported : (writeFile host c.name c.path (some (runWrites host calls))).1 = exitFailure
  kept : ∀ d ∈ calls, ∀ text, Reads (runWrites host calls) d.name text →
    Reads (runWrites host (calls ++ [c])) d.name text

section Calls

variable {host : Host} {calls : List WriteCall} {c : WriteCall} {text : Bytes}

/-- The entry of the first file. -/
theorem first_entry {L : Layout} (hL : Layout.Filled calls L) {d : WriteCall}
    {rest : List WriteCall} (hcalls : calls = d :: rest) :
    ∃ e tail, L.entries = e :: tail ∧ e.name = d.name ∧ e.firstBlock = .one := by
  have hnames := hL.names
  rw [hcalls, List.map_cons] at hnames
  obtain ⟨e, tail, hentries, hname, -⟩ := List.map_eq_cons_iff.mp hnames
  refine ⟨e, tail, hentries, hname, ?_⟩
  rcases hL.first with rfl | ⟨e', he', hone⟩
  · cases hentries
  · rw [hentries] at he'
    cases he'
    exact hone

theorem find_first {L : Layout} {e : Entry} {tail : List Entry}
    (hentries : L.entries = e :: tail) : L.find e.name = some e := by
  rw [Layout.find, hentries, List.take_succ_cons, List.find?_cons_of_pos (by simp)]

/-- **An overlong text takes the end of the first file**: after the call no
`GET` for it returns. -/
theorem first_lost {L : Layout} (hL : Layout.Filled calls L) (hlen : calls.length < 15)
    (hpos : 0 < c.name.length) (hle : c.name.length ≤ 16) (hfind : L.find c.name = none)
    (hlong : 255 * 255 ≤ text.length) : ¬ Ends (L.write c.name (some text)).2.next 1 := by
  have h15 : L.alloc.2.entries.length < 15 := by
    rw [Layout.entries_alloc, hL.length_entries]
    exact hlen
  have hsolid := hL.toCompact.alloc.addEntry ⟨c.name, L.alloc.1, hpos, hle⟩ h15
  have hpos₁ := L.alloc.2.one_le_counter
  rw [Layout.write_some L hpos hle hfind, Layout.enter, dif_pos h15]
  refine hsolid.store_loops (by omega) ?_ ?_
  · rw [Layout.addEntry_counter]
    omega
  · rcases (Layout.alloc_cases hL.linked).1 with ⟨hne, -, hcount⟩ | ⟨-, hone, -⟩
    · -- the counter has moved, so it will be used up in time
      have hpos₀ := L.one_le_counter
      refine .inr (.inr ?_)
      rw [Layout.addEntry_counter, hcount, Layout.toNat_one_add hne]
      omega
    · left
      rw [hone]
      exact .here

theorem not_kept_of_long {L : Layout} (hL : Layout.Filled calls L) (hlen : calls.length < 14)
    (hdisk : runWrites host calls = L.toBytes) (hne : calls ≠ [])
    (hpos : 0 < c.name.length) (hle : c.name.length ≤ 16) (hfind : L.find c.name = none)
    (htext : host c.path = some text) (hlong : 255 * 255 ≤ text.length) :
    ¬ Contained host calls c := by
  intro h
  obtain ⟨d, rest, hcalls⟩ := List.exists_cons_of_ne_nil hne
  obtain ⟨e, tail, hentries, hname, hone⟩ := first_entry hL hcalls
  have hepos : 0 < e.name.length := e.name_pos
  have hfirst := find_first hentries
  have h15 : L.entries.length < 15 := by
    rw [hL.length_entries]
    omega
  -- the first file could be read
  have hexists : existASCII L.toBytes e.name = exitSuccess := by
    rw [L.existASCII_toBytes_iff hepos, hfirst]
    simp
  obtain ⟨fuel, drawing, hread⟩ := readDrawing_returns hL.toReadable hepos hexists
  have hafter := h.kept d (by rw [hcalls]; exact List.mem_cons_self) drawing
    (by rw [hdisk, ← hname]; exact ⟨hexists, fuel, hread⟩)
  rw [runWrites_append, hdisk, Layout.writeMounted_toBytes L hL.room, htext, ← hname] at hafter
  -- its entry is still the first one, and its chain has no end
  have hentries' : (L.write c.name (some text)).2.entries
      = e :: (tail ++ [⟨c.name, L.alloc.1, hpos, hle⟩]) := by
    rw [write_entries h15 hpos hle hfind, hentries, List.cons_append]
  obtain ⟨-, fuel', hread'⟩ := hafter
  have hends := ends_of_readDrawing hepos (find_first hentries') hread'
  rw [hone] at hends
  exact first_lost hL (by omega) hpos hle hfind hlong hends

/-- A text that ends within 255 blocks is reported as stored. -/
theorem not_reported_of_short (hcalls : Succeeds host calls) (hlen : calls.length ≤ 14)
    (hnew : c.name ∉ calls.map WriteCall.name) (hpos : 0 < c.name.length)
    (hle : c.name.length ≤ 16) (htext : host c.path = some text)
    (hshort : text.length < 255 * 255) : ¬ Contained host calls c := by
  intro h
  obtain ⟨L, hdisk, hL⟩ := hcalls.filled (by omega)
  have hfail := h.reported
  rw [hdisk, hL.writeFile, htext, Layout.write_success_iff.mpr
    ⟨⟨⟨hpos, hle⟩, (hL.find_eq_none_iff hlen).mpr hnew⟩, text, rfl, hshort⟩] at hfail
  exact absurd hfail (by decide)

/-- **When running out of blocks is contained**: if the name is rejected, or
if there is no file to lose and the text is too long for any disk. -/
theorem contained_iff (h : Overfull host calls c text) :
    Contained host calls c
      ↔ c.name.length = 0 ∨ 16 < c.name.length ∨ (calls = [] ∧ 255 * 255 ≤ text.length) := by
  have hlen := h.succeeds.length_le_of_dedup (by omega) h.names
  obtain ⟨L, hdisk, hL⟩ := h.succeeds.filled (by omega)
  have hfind := (hL.find_eq_none_iff (by omega)).mpr h.new
  constructor
  · intro hcontained
    by_contra hcond
    simp only [not_or, not_and] at hcond
    obtain ⟨h0, h16, hnil⟩ := hcond
    by_cases hlong : 255 * 255 ≤ text.length
    · exact not_kept_of_long hL (by omega) hdisk (fun hc => hnil hc hlong) (by omega) (by omega)
        hfind h.opens hlong hcontained
    · exact not_reported_of_short h.succeeds (by omega) h.new (by omega) (by omega) h.opens
        (by omega) hcontained
  · intro hcond
    by_cases hname : 0 < c.name.length ∧ c.name.length ≤ 16
    · obtain ⟨hcalls, hlong⟩ : calls = [] ∧ 255 * 255 ≤ text.length := by
        rcases hcond with h0 | hlong | hboth
        · omega
        · omega
        · exact hboth
      refine ⟨?_, ?_⟩
      · rw [hdisk, hL.writeFile, h.opens, Layout.write_some L hname.1 hname.2 hfind]
        exact store_fails (by omega) _ _
      · rw [hcalls]
        exact fun d hd => absurd hd List.not_mem_nil
    · -- the name is rejected: nothing is written
      have hrejected : L.write c.name (host c.path) = (exitFailure, L) :=
        Layout.write_rejected L fun hc => hname hc.1
      refine ⟨?_, ?_⟩
      · rw [hdisk, hL.writeFile, hrejected]
      · intro d _ drawing hread
        rwa [runWrites_append, hdisk, Layout.writeMounted_toBytes L hL.room, hrejected, ← hdisk]

end Calls

/-- A text of 255 blocks. -/
def longText : Bytes :=
  List.replicate (254 * 255) 32

theorem needed_longText : needed longText = 255 := by
  rw [needed, longText, List.length_replicate]

/-- Files without a name are empty, all others have a text of 255 blocks. -/
def emptyOrLong : Host :=
  fun path => if path.length = 0 then some [] else some longText

theorem succeeds_emptyOrLong : Succeeds emptyOrLong (letters 13) := by
  apply succeeds_of_distinct
  · decide
  · decide
  · decide
  · intro c hc
    obtain ⟨i, -, rfl⟩ := List.mem_map.mp hc
    exact ⟨[], by rfl, by decide⟩

/-- Behind thirteen files a name of 17 characters is rejected, whatever its
text; a text of 255 * 255 bytes is on a new disk. -/
theorem contained_thirteen :
    Contained emptyOrLong (letters 13)
        ⟨.ofBytes (bytes "Personaje_del.txt"), .ofBytes (bytes "largo")⟩
      ∧ Contained (fun _ => some (List.replicate (255 * 255) 32)) [] (letter 0) := by
  constructor
  · apply (contained_iff (show Overfull _ _ _ longText from
      ⟨succeeds_emptyOrLong, ?_, ?_, rfl, ?_⟩)).mpr
    · exact .inr (.inl (by decide))
    · decide
    · decide
    · rw [needed_longText]
      omega
  · apply (contained_iff (show Overfull _ _ _ (List.replicate (255 * 255) 32) from
      ⟨?_, by decide, by decide, rfl, ?_⟩)).mpr
    · exact .inr (.inr ⟨rfl, by rw [List.length_replicate]⟩)
    · exact fun front c hc => absurd (List.prefix_nil.mp hc) (by simp)
    · rw [needed, List.length_replicate]
      decide

/-- A text of 255 blocks on a new disk: the call reports success. -/
theorem not_contained_longText :
    ¬ ∀ (host : Host) (calls : List WriteCall) (c : WriteCall) (text : Bytes),
      Overfull host calls c text → Contained host calls c := by
  intro h
  have hnone : Succeeds (fun _ => some longText) [] :=
    fun front c hc => absurd (List.prefix_nil.mp hc) (by simp)
  refine not_reported_of_short (c := letter 0) hnone (by decide) (by decide) (by decide)
    (by decide) rfl ?_ (h _ _ _ longText ⟨hnone, by decide, by decide, rfl, ?_⟩)
  · rw [longText, List.length_replicate]
    decide
  · rw [needed_longText]
    decide

end DistributedAscii.Server
