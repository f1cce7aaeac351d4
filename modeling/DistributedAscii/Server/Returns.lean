import DistributedAscii.FileSystem.Endings
import DistributedAscii.Server.Frame
import DistributedAscii.Server.Storage

/-!
# Server — requests that return

`validateRequest` has one loop without a bound of its own, the `GET` loop.
On a disk whose entries have chains that end it returns for every stored
name. Two kinds of input keep it going for ever: an entry whose first block
was never written (its link byte is 0, which restarts the loop), and the
empty name, which the lookup finds on every disk.
-/

namespace DistributedAscii.Server

open FileSystem Lib.Search Lib.Pointers

/-- The request is answered. -/
def Answered (disk : Disk) (request : CString) : Prop :=
  ∃ fuel answer, validateRequest fuel disk request = some answer

/-! ## The loop -/

theorem length_untilNul_take (s : Bytes) (n : Nat) : (untilNul (s.take n)).length ≤ n :=
  (List.takeWhile_sublist _).length_le.trans (List.length_take_le n s)

section Loop

variable {L : Layout} {name : CString}

/-- **The loop follows the chain**: from a buffer that holds block `x`, with
the cells of the chain of `x` known, the loop returns, and each cell adds one
block at most. -/
theorem drawingLoop_path {x : Nat} {path : List Nat} (h : Path L.next x path) (next : UInt8)
    (h255 : next ≠ 255)
    (hblock : extractBlock L.toBytes name next.toNat = some (readBlock L.toBytes x))
    (asciiArt : Bytes) :
    ∃ fuel drawing, drawingLoop L.toBytes name fuel next asciiArt = some drawing
      ∧ drawing.length ≤ asciiArt.length + 255 * path.length := by
  induction h generalizing next asciiArt with
  | @last x hlast =>
      have hx := L.not_ends_zero (.last hlast)
      rw [Layout.next, if_neg hx] at hlast
      have hlink : L.link x = 255 := by
        by_contra hne
        rw [if_neg hne] at hlast
        cases hlast
      -- one turn reads the block, the next one sees its 255
      refine ⟨2, asciiArt ++ untilNul ((readBlock L.toBytes x).take 255), ?_, ?_⟩
      · rw [drawingLoop_succ h255 hblock, L.getD_readBlock, hlink, drawingLoop_last]
      · have := length_untilNul_take (readBlock L.toBytes x) 255
        rw [List.length_append, List.length_singleton]
        omega
  | @step x y path hxy hy ih =>
      have hx := L.not_ends_zero (.step hxy hy.ends)
      rw [Layout.next, if_neg hx] at hxy
      split at hxy
      · cases hxy
      · rename_i hne
        obtain rfl := Option.some.inj hxy
        obtain ⟨fuel, drawing, hrest, hle⟩ :=
          ih (L.link x) hne (L.extractBlock_block name (L.not_ends_zero hy.ends))
            (asciiArt ++ untilNul ((readBlock L.toBytes x).take 255))
        refine ⟨fuel + 1, drawing, ?_, ?_⟩
        · rw [drawingLoop_succ h255 hblock, L.getD_readBlock, hrest]
        · have := length_untilNul_take (readBlock L.toBytes x) 255
          rw [List.length_append] at hle
          rw [List.length_cons]
          omega

/-- A stored drawing is read, and the chain has at most 256 blocks. -/
theorem readDrawing_stored (hL : L.Readable) (hpos : 0 < name.length)
    (hexists : existASCII L.toBytes name = exitSuccess) :
    ∃ fuel drawing, readDrawing fuel L.toBytes name = some drawing
      ∧ drawing.length ≤ 255 * 256 := by
  rw [L.existASCII_toBytes_iff hpos] at hexists
  cases hfind : L.find name with
  | none => exact absurd hfind hexists
  | some e =>
      have hmem : e ∈ L.entries := List.mem_of_mem_take (List.mem_of_find?_eq_some hfind)
      obtain ⟨path, hpath⟩ := (hL.ends e hmem).exists_path
      obtain ⟨fuel, drawing, hread, hle⟩ := drawingLoop_path hpath 0 (by decide)
        (L.extractBlock_first hpos hfind) []
      have hcells : path.length ≤ 256 := by
        -- every cell is a byte
        have hbyte : ∀ b ∈ path, b < 256 := by
          intro b hb
          refine (hpath.leads hb).mem_of_closed (S := (· < 256)) ?_ (UInt8.toNat_lt _)
          intro y z _ hyz
          rw [Layout.next] at hyz
          split at hyz
          · cases hyz
            decide
          · split at hyz
            · cases hyz
            · cases hyz
              exact UInt8.toNat_lt _
        have hcard := Finset.card_le_card (s := path.toFinset) (t := Finset.range 256)
          (fun b hb => Finset.mem_range.mpr (hbyte b (List.mem_toFinset.mp hb)))
        rwa [List.toFinset_card_of_nodup hpath.nodup, Finset.card_range] at hcard
      refine ⟨fuel, drawing, hread, ?_⟩
      rw [List.length_nil] at hle
      omega

theorem readDrawing_returns (hL : L.Readable) (hpos : 0 < name.length)
    (hexists : existASCII L.toBytes name = exitSuccess) :
    ∃ fuel drawing, readDrawing fuel L.toBytes name = some drawing := by
  obtain ⟨fuel, drawing, hread, -⟩ := readDrawing_stored hL hpos hexists
  exact ⟨fuel, drawing, hread⟩

end Loop

/-! ## The request -/

/-- **A request returns** on a readable disk, unless it asks for the empty
name. -/
theorem answered_of_readable {L : Layout} (hL : L.Readable) {request : CString}
    (hname : request.bytes ≠ bytes "BEGIN/GET//END") : Answered L.toBytes request := by
  by_cases hempty : request.bytes = []
  · exact ⟨0, _, by rw [validateRequest, if_pos hempty]⟩
  cases hframe : badFrame request.bytes with
  | true => exact ⟨0, _, by rw [validateRequest, if_neg hempty, if_pos hframe]⟩
  | false =>
      have hgood : ¬ badFrame request.bytes = true := by simp [hframe]
      by_cases hget : ∃ ascii, requestTokens request.bytes = [bytes "GET", ascii]
          ∧ existASCII L.toBytes (.ofBytes ascii) = exitSuccess
      · obtain ⟨ascii, htokens, hexists⟩ := hget
        have hrequest := (framed_drawing_iff.mp ⟨hframe, htokens⟩).2
        have hmem : 0 ∉ ascii := by
          intro h0
          apply request.noNul
          rw [hrequest, framed]
          simp [h0]
        have hpos : 0 < (CString.ofBytes ascii).length := by
          rw [CString.length, CString.ofBytes_bytes hmem, List.length_pos_iff]
          rintro rfl
          exact hname (hrequest.trans (by decide))
        obtain ⟨fuel, drawing, hread⟩ := readDrawing_returns hL hpos hexists
        refine ⟨fuel, drawingAnswer ascii drawing, ?_⟩
        rw [validateRequest, if_neg hempty, if_neg hgood, htokens]
        simp only [if_true, hexists, hread, Option.map_some]
      · -- every other request is answered without the loop
        rw [Answered]
        refine ⟨0, ?_⟩
        rw [validateRequest, if_neg hempty, if_neg hgood]
        split
        · split <;> exact ⟨_, rfl⟩
        · rename_i command ascii htokens
          split
          · rename_i hcommand
            rw [if_neg (fun h => hget ⟨ascii, by rw [htokens, hcommand], h⟩)]
            exact ⟨_, rfl⟩
          · exact ⟨_, rfl⟩
        · exact ⟨_, rfl⟩

/-! ## Runs -/

/-- **When every request returns**: after complete calls, for every request
but the one for the empty name. -/
theorem request_answered {host : Host} {calls : List WriteCall} {request : CString}
    (hcalls : ∀ front c, front ++ [c] <+: calls → Complete host (runWrites host front) c)
    (hname : request.bytes ≠ bytes "BEGIN/GET//END") :
    Answered (runWrites host calls) request := by
  obtain ⟨L, hdisk, hL⟩ := Layout.readable_run hcalls
  rw [hdisk]
  exact answered_of_readable hL hname

/-- The drawing of a new disk. -/
theorem request_answered_gato :
    Answered
      (runWrites (fun _ => some (bytes "=^.^=")) [⟨.ofBytes (bytes "gato"), .ofBytes []⟩])
      (.ofBytes (bytes "BEGIN/GET/gato/END")) := by
  apply request_answered
  · intro front c _
    exact .inr (.inr ⟨_, rfl, by decide⟩)
  · decide

/-- A file that cannot be opened leaves a name whose `GET` turns for ever:
its block is not on the disk, so its link byte reads as 0 again and again. -/
theorem request_not_answered :
    ¬ ∀ (host : Host) (calls : List WriteCall) (request : CString),
      Answered (runWrites host calls) request := by
  intro h
  obtain ⟨fuel, answer, hanswer⟩ := h (fun _ => none) [⟨.ofBytes (bytes "a"), .ofBytes []⟩]
    (.ofBytes (bytes "BEGIN/GET/a/END"))
  have hdisk : runWrites (fun _ => none) [⟨.ofBytes (bytes "a"), .ofBytes []⟩]
      = (Layout.fresh.write (.ofBytes (bytes "a")) none).2.toBytes := by
    have hnext := runWrites_append (fun _ => none) [] ⟨.ofBytes (bytes "a"), .ofBytes []⟩
    rw [show runWrites (fun _ => none) [] = Layout.fresh.toBytes
      from Layout.toBytes_fresh.symm, Layout.writeMounted_toBytes _ (.inl (by decide))] at hnext
    exact hnext
  obtain ⟨L, hL, hfind, hlink⟩ :
      ∃ L : Layout, runWrites (fun _ => none) [⟨.ofBytes (bytes "a"), .ofBytes []⟩] = L.toBytes
        ∧ (L.find (.ofBytes (bytes "a"))).map (fun e => e.firstBlock.val) = some 1
        ∧ L.link 1 = 0 :=
    ⟨_, hdisk, by decide, by decide⟩
  obtain ⟨e, hfind, hfirst⟩ := Option.map_eq_some_iff.mp hfind
  have hpos : 0 < (CString.ofBytes (bytes "a")).length := by decide
  have hblock := L.extractBlock_first hpos hfind
  -- every turn reads block 1 again and comes back to 0
  have hloop : ∀ fuel art, drawingLoop L.toBytes (.ofBytes (bytes "a")) fuel 0 art = none := by
    intro fuel
    induction fuel with
    | zero => exact fun _ => rfl
    | succ fuel ih =>
        intro art
        rw [drawingLoop_succ (by decide) hblock, L.getD_readBlock, hfirst,
          show (1 : UInt8).toNat = 1 from rfl, hlink, ih]
  have hexists : existASCII L.toBytes (.ofBytes (bytes "a")) = exitSuccess := by
    rw [L.existASCII_toBytes_iff (by decide), hfind]
    simp
  have htokens : requestTokens (bytes "BEGIN/GET/a/END") = [bytes "GET", bytes "a"] := by decide
  have hnone : validateRequest fuel L.toBytes (.ofBytes (bytes "BEGIN/GET/a/END")) = none := by
    rw [validateRequest, show (CString.ofBytes (bytes "BEGIN/GET/a/END")).bytes
        = bytes "BEGIN/GET/a/END" by decide, if_neg (by decide), if_neg (by decide), htokens]
    simp only [if_true, hexists, readDrawing, hloop, Option.map_none]
  rw [hL, hnone] at hanswer
  cases hanswer

end DistributedAscii.Server
