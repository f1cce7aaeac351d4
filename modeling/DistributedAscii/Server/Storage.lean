import DistributedAscii.FileSystem.AtOnce
import DistributedAscii.FileSystem.Reading
import DistributedAscii.Server.ASCIIServer

/-!
# Server — the drawings of an ASCII server

The two ends of the disk together: what the `GET` loop reads from a disk
that keeps files is the text that was written, so a disk with the calls of
`writeFile` and the lookups of the server is a finite map, whether the
writes act at once or wait in the buffer.
-/

namespace DistributedAscii.Server

open FileSystem Lib.ByteFile Lib.Runs

/-- One turn of the `GET` loop. -/
theorem drawingLoop_succ {disk : Disk} {name : CString} {next : UInt8} (h255 : next ≠ 255)
    {block : Bytes} (hblock : extractBlock disk name next.toNat = some block) (fuel : Nat)
    (asciiArt : Bytes) :
    drawingLoop disk name (fuel + 1) next asciiArt
      = drawingLoop disk name fuel (block.getD 255 0)
          (asciiArt ++ untilNul (block.take 255)) := by
  rw [drawingLoop, if_neg h255, hblock]

theorem drawingLoop_last (disk : Disk) (name : CString) (fuel : Nat) (asciiArt : Bytes) :
    drawingLoop disk name (fuel + 1) 255 asciiArt = some asciiArt := by
  rw [drawingLoop, if_pos rfl]

/-- More fuel does not change what the loop returns. -/
theorem drawingLoop_mono {disk : Disk} {name : CString} {fuel fuel' : Nat} {next : UInt8}
    {asciiArt text : Bytes} (h : drawingLoop disk name fuel next asciiArt = some text)
    (hle : fuel ≤ fuel') : drawingLoop disk name fuel' next asciiArt = some text := by
  induction fuel generalizing fuel' next asciiArt with
  | zero => cases h
  | succ fuel ih =>
      obtain ⟨k, rfl⟩ := Nat.exists_eq_add_of_le' (show 1 ≤ fuel' by omega)
      rw [drawingLoop] at h ⊢
      split at h
      · rename_i hlast
        rwa [if_pos hlast]
      · rename_i hlast
        rw [if_neg hlast]
        cases hblock : extractBlock disk name next.toNat with
        | none => simp [hblock] at h
        | some block =>
            simp only [hblock] at h ⊢
            exact ih h (by omega)

theorem readDrawing_mono {disk : Disk} {name : CString} {fuel fuel' : Nat} {text : Bytes}
    (h : readDrawing fuel disk name = some text) (hle : fuel ≤ fuel') :
    readDrawing fuel' disk name = some text :=
  drawingLoop_mono h hle

/-! ## A kept file -/

section Kept

variable {L : Layout} {fs : Files}

/-- **The rest of a drawing**: from the buffer of block `j` the loop appends
the text from chunk `j` on. The induction is on the blocks behind it. -/
theorem drawingLoop_kept (h : Holds L fs) {k : Nat} (hk : k < fs.length)
    (hnul : 0 ∉ fs[k].2) {name : CString} {m j : Nat} (hm : j + m + 1 = needed fs[k].2)
    {next : UInt8} (h255 : next ≠ 255)
    (hblock : extractBlock L.toBytes name next.toNat
      = some (fileBlock (1 + total (fs.take k)) fs[k].2 j).toBytes) (asciiArt : Bytes) :
    drawingLoop L.toBytes name (m + 2) next asciiArt
      = some (asciiArt ++ fs[k].2.drop (j * 255)) := by
  induction m generalizing j next asciiArt with
  | zero =>
      -- the last block: its chunk is all that is left of the text
      have hlast : fs[k].2.length < (j + 1) * 255 := length_lt_iff_needed_le.mpr (by omega)
      have hnone : fs[k].2.drop ((j + 1) * 255) = [] := List.drop_eq_nil_of_le (by omega)
      have hread := readAt_append_drop fs[k].2 j
      rw [hnone, List.append_nil] at hread
      rw [drawingLoop_succ h255 hblock, Block.take_toBytes, Block.getD_toBytes, fileBlock,
        linkOf, if_pos hlast, drawingLoop_last, untilNul_chunk hnul, hread]
  | succ m ih =>
      -- a block in the middle: its link byte is the number of the next one
      have hmore : ¬ fs[k].2.length < (j + 1) * 255 := by
        rw [length_lt_iff_needed_le]
        omega
      have hle := h.first_add_le hk (show j + 1 < needed fs[k].2 by omega)
      have hnext : (UInt8.ofNat (1 + total (fs.take k) + j + 1)).toNat
          = 1 + total (fs.take k) + (j + 1) := by
        rw [UInt8.toNat_ofNat']
        omega
      have hne : UInt8.ofNat (1 + total (fs.take k) + j + 1) ≠ 255 := by
        intro hc
        rw [hc, show (255 : UInt8).toNat = 255 from rfl] at hnext
        omega
      have hblock' : extractBlock L.toBytes name
          (UInt8.ofNat (1 + total (fs.take k) + j + 1)).toNat
          = some (fileBlock (1 + total (fs.take k)) fs[k].2 (j + 1)).toBytes := by
        rw [hnext, L.extractBlock_block name (by omega), h.readBlock hk (by omega)]
      rw [drawingLoop_succ h255 hblock, Block.take_toBytes, Block.getD_toBytes, fileBlock,
        linkOf, if_neg hmore, ih (by omega) hne hblock', List.append_assoc,
        untilNul_chunk hnul, readAt_append_drop]

/-- **A stored drawing is read back.** -/
theorem readDrawing_kept (h : Holds L fs) (h14 : fs.length ≤ 14)
    (hnodup : (fs.map Prod.fst).Nodup) {f : CString × Bytes} (hf : f ∈ fs)
    (hpos : 0 < f.1.length) (hnul : 0 ∉ f.2) :
    ∃ fuel, readDrawing fuel L.toBytes f.1 = some f.2 := by
  obtain ⟨k, hk, rfl⟩ := List.mem_iff_getElem.mp hf
  cases hfind : L.find fs[k].1 with
  | none =>
      exact absurd (List.mem_map_of_mem hf) ((h.find_eq_none_iff h14).mp hfind)
  | some e =>
      have hn := needed_pos fs[k].2
      have hblock := L.extractBlock_first hpos hfind
      rw [h.find_eq hnodup hk hfind, ← Nat.add_zero (1 + _), h.readBlock hk hn] at hblock
      refine ⟨needed fs[k].2 - 1 + 2, ?_⟩
      exact drawingLoop_kept h hk hnul (j := 0) (by omega)
        (show (0 : UInt8) ≠ 255 by decide) hblock []

/-- `existASCII` tells the names of the kept files. -/
theorem existASCII_kept (h : Holds L fs) (h14 : fs.length ≤ 14) {name : CString}
    (hpos : 0 < name.length) :
    existASCII L.toBytes name = exitSuccess ↔ name ∈ fs.map Prod.fst := by
  rw [L.existASCII_toBytes_iff hpos, ne_eq, h.find_eq_none_iff h14, not_not]

end Kept

/-! ## Runs -/

/-- Calls within the capacity of the disk whose host files are text that
can be opened. -/
structure Workload (host : Host) (calls : List WriteCall) : Prop extends
    Load host calls where
  texts : ∀ c ∈ calls, ∃ text, host c.path = some text ∧ 0 ∉ text

namespace Workload

variable {host : Host} {calls front : List WriteCall}

/-- A stored file has a name that can be looked up and no NUL. -/
theorem stored_ok (h : Workload host calls) (hfront : front <+: calls)
    {f : CString × Bytes} (hf : f ∈ stored host front) : 0 < f.1.length ∧ 0 ∉ f.2 := by
  obtain ⟨c, hc, hle, rfl⟩ := mem_stored hf
  have hmem := hfront.subset hc
  obtain ⟨text, htext, hnul⟩ := h.texts c hmem
  refine ⟨(h.names c hmem hle).1, ?_⟩
  rw [htext]
  exact hnul

/-- A call that is neither too long nor a repetition is carried out. -/
theorem write_accepted (h : Workload host calls) {c : WriteCall}
    (hfront : front ++ [c] <+: calls) {L : Layout} (hL : Holds L (stored host front))
    (hacc : ¬ (16 < c.name.length ∨ c.name ∈ (stored host front).map Prod.fst)) :
    ∃ L', writeMounted host c.name c.path L.toBytes = (exitSuccess, L'.toBytes)
      ∧ Holds L' (stored host (front ++ [c])) := by
  have hc : c ∈ calls := mem_of_snoc hfront
  rw [not_or, Nat.not_lt] at hacc
  obtain ⟨hle, hnew⟩ := hacc
  obtain ⟨text, htext, _⟩ := h.texts c hc
  have hlen := h.length_stored hfront
  have htotal := h.total_stored hfront
  rw [stored_append, List.foldl_cons, List.foldl_nil] at hlen htotal ⊢
  rw [put_new hle hnew, List.length_append, List.length_singleton] at hlen
  rw [put_new hle hnew, total_append, htext] at htotal
  exact hL.writeMounted_accepted (by omega) (h.names c hc hle).1 hle hnew htext htotal

/-- **Every disk on the way keeps the stored files.** -/
theorem holds (h : Workload host calls) (hfront : front <+: calls) :
    ∃ L, runWrites host front = L.toBytes ∧ Holds L (stored host front) := by
  refine prefix_induction (P := fun front =>
    ∃ L, runWrites host front = L.toBytes ∧ Holds L (stored host front)) ?_ ?_ front hfront
  · exact ⟨.fresh, Layout.toBytes_fresh.symm, holds_fresh⟩
  · intro front c hfront ⟨L, hdisk, hL⟩
    have hbefore : front <+: calls := (List.prefix_append ..).trans hfront
    have hstored : stored host (front ++ [c]) = put host (stored host front) c :=
      stored_append front [c]
    rw [runWrites_append, hdisk, hstored]
    by_cases hrej : 16 < c.name.length ∨ c.name ∈ (stored host front).map Prod.fst
    · rw [hL.writeMounted_rejected (h.length_stored hbefore) hrej, put_rejected hrej]
      exact ⟨L, rfl, hL⟩
    · obtain ⟨L', hwrite, hL'⟩ := h.write_accepted hfront hL hrej
      rw [hwrite, ← hstored]
      exact ⟨L', rfl, hL'⟩

/-- The next call of a workload on the disk before it. -/
theorem writeFile_next (h : Workload host calls) {c : WriteCall}
    (hfront : front ++ [c] <+: calls) :
    (16 < c.name.length ∨ c.name ∈ (stored host front).map Prod.fst →
      writeFile host c.name c.path (some (runWrites host front))
        = (exitFailure, some (runWrites host front)))
    ∧ (¬ (16 < c.name.length ∨ c.name ∈ (stored host front).map Prod.fst) →
      (writeFile host c.name c.path (some (runWrites host front))).1 = exitSuccess) := by
  have hbefore : front <+: calls := (List.prefix_append ..).trans hfront
  obtain ⟨L, hdisk, hL⟩ := h.holds hbefore
  rw [hdisk, writeFile]
  constructor
  · intro hrej
    rw [hL.writeMounted_rejected (h.length_stored hbefore) hrej]
  · intro hacc
    obtain ⟨L', hwrite, _⟩ := h.write_accepted hfront hL hacc
    rw [hwrite]

end Workload

/-- Some call of the sequence returned `EXIT_SUCCESS` for this name, with
this text in its host file. -/
def Accepted (host : Host) (calls : List WriteCall) (name : CString) (text : Bytes) : Prop :=
  ∃ front c, front ++ [c] <+: calls ∧ c.name = name ∧ host c.path = some text
    ∧ (writeFile host c.name c.path (some (runWrites host front))).1 = exitSuccess

theorem accepted_append_iff {host : Host} {calls : List WriteCall} {c : WriteCall}
    {name : CString} {text : Bytes} :
    Accepted host (calls ++ [c]) name text ↔
      Accepted host calls name text ∨ (c.name = name ∧ host c.path = some text
        ∧ (writeFile host c.name c.path (some (runWrites host calls))).1 = exitSuccess) := by
  constructor
  · rintro ⟨front, c', hfront, hrest⟩
    rw [List.prefix_concat_iff] at hfront
    rcases hfront with heq | hfront
    · obtain ⟨rfl, hc⟩ := List.append_inj' heq rfl
      obtain rfl : c' = c := by simpa using hc
      exact .inr hrest
    · exact .inl ⟨front, c', hfront, hrest⟩
  · rintro (⟨front, c', hfront, hrest⟩ | hrest)
    · exact ⟨front, c', hfront.trans (List.prefix_append ..), hrest⟩
    · exact ⟨calls, c, List.prefix_rfl, hrest⟩

/-- The map is what the accepted calls stored. -/
theorem Workload.mem_stored_iff {host : Host} {calls front : List WriteCall}
    (h : Workload host calls) (hfront : front <+: calls) {name : CString} {text : Bytes} :
    (name, text) ∈ stored host front ↔ Accepted host front name text := by
  induction front using List.reverseRecOn with
  | nil =>
      constructor
      · intro hmem
        cases hmem
      · rintro ⟨front, c, hprefix, _⟩
        have hnil := List.prefix_nil.mp hprefix
        simp at hnil
  | append_singleton front c ih =>
      have hbefore : front <+: calls := (List.prefix_append ..).trans hfront
      obtain ⟨hrejected, haccepted⟩ := h.writeFile_next hfront
      rw [accepted_append_iff, ← ih hbefore, stored_append, List.foldl_cons, List.foldl_nil]
      by_cases hrej : 16 < c.name.length ∨ c.name ∈ (stored host front).map Prod.fst
      · have hne : exitFailure ≠ exitSuccess := by decide
        simp [put_rejected hrej, hrejected hrej, hne]
      · obtain ⟨text', htext', _⟩ := h.texts c (hfront.subset (by simp))
        rw [haccepted hrej, put_new (by by_contra hc; exact hrej (.inl (by omega)))
          (fun hc => hrej (.inr hc)), htext']
        simp [eq_comm]

/-- **The disk is a finite map.** Every call of a workload that is too long
or a repetition fails and leaves every byte, every other call succeeds; after
each call the lookup knows exactly the accepted names, and the `GET` loop
returns the text of each. Writes that act at once leave the same bytes. -/
theorem disk_refines_map {host : Host} {calls front : List WriteCall} {c : WriteCall}
    (h : Workload host calls) (hfront : front ++ [c] <+: calls) :
    (16 < c.name.length ∨ (∃ text, Accepted host front c.name text) →
      writeFile host c.name c.path (some (runWrites host front))
        = (exitFailure, some (runWrites host front)))
    ∧ (¬ (16 < c.name.length ∨ ∃ text, Accepted host front c.name text) →
      (writeFile host c.name c.path (some (runWrites host front))).1 = exitSuccess)
    ∧ (∀ name : CString, 1 ≤ name.length → name.length ≤ 15 →
      (existASCII (runWrites host (front ++ [c])) name = exitSuccess ↔
        ∃ text, Accepted host (front ++ [c]) name text))
    ∧ (∀ name text, Accepted host (front ++ [c]) name text →
      ∃ fuel, readDrawing fuel (runWrites host (front ++ [c])) name = some text)
    ∧ runWritesAtOnce host (front ++ [c]) = runWrites host (front ++ [c])
    ∧ writeFileAtOnce host c.name c.path (some (runWrites host front))
      = writeFile host c.name c.path (some (runWrites host front)) := by
  have hbefore : front <+: calls := (List.prefix_append ..).trans hfront
  have hnames : ∀ {more}, more <+: calls → ∀ name : CString,
      (∃ text, Accepted host more name text) ↔ name ∈ (stored host more).map Prod.fst := by
    intro more hmore name
    simp only [← h.mem_stored_iff hmore, List.mem_map, Prod.exists, exists_and_right,
      exists_eq_right]
  obtain ⟨hrejected, haccepted⟩ := h.writeFile_next hfront
  obtain ⟨L, hdisk, hL⟩ := h.holds hfront
  have h14 := h.length_stored hfront
  refine ⟨?_, ?_, ?_, ?_, ?_, ?_⟩
  · rw [hnames hbefore]
    exact hrejected
  · rw [hnames hbefore]
    exact haccepted
  · intro name hpos _
    rw [hnames hfront, hdisk]
    exact existASCII_kept hL h14 hpos
  · intro name text hacc
    have hmem := (h.mem_stored_iff hfront).mpr hacc
    obtain ⟨hpos, hnul⟩ := h.stored_ok hfront hmem
    rw [hdisk]
    exact readDrawing_kept hL h14 (nodup_stored _) hmem hpos hnul
  · refine runWritesAtOnce_eq fun more hmore => ?_
    obtain ⟨M, hM, hholds⟩ := h.holds (hmore.trans hfront)
    exact ⟨M, _, hM, hholds, h.length_stored (hmore.trans hfront)⟩
  · obtain ⟨M, hM, hholds⟩ := h.holds hbefore
    rw [writeFileAtOnce, writeFile, hM,
      hholds.writeMountedAtOnce_eq (h.length_stored hbefore)]

/-- A host with a small drawing and one of two blocks. -/
def drawings : Host :=
  fun path => some (if path.length = 0 then bytes "=^.^=" else List.replicate 300 65)

/-- Two drawings, a name that is there and one that is too long. -/
def drawingCalls : List WriteCall :=
  [⟨.ofBytes (bytes "gato"), .ofBytes []⟩,
    ⟨.ofBytes (bytes "oso"), .ofBytes (bytes "oso.txt")⟩,
    ⟨.ofBytes (bytes "gato"), .ofBytes (bytes "oso.txt")⟩,
    ⟨.ofBytes (bytes "tenedorcucharacuchillo"), .ofBytes []⟩]

theorem workload_drawingCalls : Workload drawings drawingCalls := by
  refine ⟨⟨by decide, by decide, by decide +kernel⟩, ?_⟩
  intro c _
  refine ⟨_, rfl, ?_⟩
  split
  · decide
  · exact fun hmem => absurd (List.eq_of_mem_replicate hmem) (by decide)

/-- The repeated name is refused, and behind the call with the long one the
drawing of two blocks is read back. -/
theorem disk_refines_map_gato :
    writeFile drawings (.ofBytes (bytes "gato")) (.ofBytes (bytes "oso.txt"))
        (some (runWrites drawings (drawingCalls.take 2)))
      = (exitFailure, some (runWrites drawings (drawingCalls.take 2)))
    ∧ ∃ fuel, readDrawing fuel (runWrites drawings drawingCalls) (.ofBytes (bytes "oso"))
      = some (List.replicate 300 65) := by
  have hload := workload_drawingCalls
  constructor
  · have hthird : drawingCalls.take 2
        ++ [⟨.ofBytes (bytes "gato"), .ofBytes (bytes "oso.txt")⟩] <+: drawingCalls :=
      List.take_prefix 3 drawingCalls
    obtain ⟨hrefused, _⟩ := disk_refines_map hload hthird
    exact hrefused (.inr ⟨bytes "=^.^=",
      (hload.mem_stored_iff (List.take_prefix 2 _)).mp (by decide +kernel)⟩)
  · have hlast : drawingCalls.take 3
        ++ [⟨.ofBytes (bytes "tenedorcucharacuchillo"), .ofBytes []⟩] <+: drawingCalls :=
      List.prefix_rfl
    obtain ⟨_, _, _, hread, _⟩ := disk_refines_map hload hlast
    exact hread _ _ ((hload.mem_stored_iff List.prefix_rfl).mp (by decide +kernel))

end DistributedAscii.Server
