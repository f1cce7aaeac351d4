import DistributedAscii.FileSystem.Success

/-!
# FileSystem — the last slot

The directory has 15 slots, and the writer fills all of them. The two loops
that read it are off by one, in opposite directions: the lookup tests its
index behind the step, so it takes slot 14 for the end of the directory, and
the listing goes on at offset 255, so it takes the free counter and the front
of block 1 for a name.
-/

namespace DistributedAscii.FileSystem

open Lib.ByteFile Layout

/-- A slot that was free holds the name and the block that
`allocateInDirectory` answered; the lookup reports this block, and a second
call for the name is rejected. -/
structure FoundAgain (name : CString) (disk disk' : Disk) : Prop where
  slot : ∃ k, k < 15 ∧ slotFirst disk k = 0 ∧ slotName disk' k = name.bytes
    ∧ slotFirst disk' k = (allocateInDirectory name disk).1
  block : existFile disk' name = some (allocateInDirectory name disk).1
  ascii : existASCII disk' name = exitSuccess
  again : ∀ host path, writeFile host name path (some disk') = (exitFailure, some disk')

/-- The listing is these names, each with a line break, and it fits with its
terminator into the `SIZEBLOCK + 1` bytes of its buffer. -/
structure ListsExactly (names : List CString) (disk : Disk) : Prop where
  lines : getSystemInfo disk = names.flatMap fun n => n.bytes ++ bytes "\n"
  fits : (getSystemInfo disk).length + 1 ≤ 257

/-! ## The lookup -/

section Lookup

variable {host : Host} {calls : List WriteCall} {c : WriteCall}

/-- The disk behind one more successful call. -/
theorem Succeeds.next (h : Succeeds host calls) (hlen : calls.length < 15)
    (hok : (writeFile host c.name c.path (some (runWrites host calls))).1 = exitSuccess) :
    ∃ (L L' : Layout) (hpos : 0 < c.name.length) (hle : c.name.length ≤ 16),
      runWrites host calls = L.toBytes ∧ Filled calls L ∧ L'.Readable
      ∧ runWrites host (calls ++ [c]) = L'.toBytes
      ∧ L'.entries = L.entries ++ [⟨c.name, L.alloc.1, hpos, hle⟩] := by
  obtain ⟨L, hdisk, hL⟩ := h.filled (by omega)
  rw [hdisk, hL.writeFile] at hok
  obtain ⟨⟨⟨hpos, hle⟩, hfind⟩, -⟩ := write_success_iff.mp hok
  refine ⟨L, (L.write c.name (host c.path)).2, hpos, hle, hdisk, hL, ?_, ?_, ?_⟩
  · exact (hL.write hlen hok).toReadable
  · rw [runWrites_append, hdisk, writeMounted_toBytes L hL.room]
  · exact write_entries (by rw [hL.length_entries]; exact hlen) hpos hle hfind _

/-- In the first 14 slots the new entry is found. -/
theorem foundAgain_of_lt (h : Succeeds host calls) (hlen : calls.length < 14)
    (hnew : c.name ∉ calls.map WriteCall.name)
    (hok : (writeFile host c.name c.path (some (runWrites host calls))).1 = exitSuccess) :
    FoundAgain c.name (runWrites host calls) (runWrites host (calls ++ [c])) := by
  obtain ⟨L, L', hpos, hle, hdisk, hL, hL', hdisk', hentries⟩ := h.next (by omega) hok
  have hcount := hL.length_entries
  have hk : L.entries.length < L'.entries.length := by
    rw [hentries, List.length_append]
    exact Nat.lt_succ_self _
  have hentry : L'.entries[L.entries.length] = ⟨c.name, L.alloc.1, hpos, hle⟩ := by
    simp [hentries]
  have hfind : L'.find c.name = some ⟨c.name, L.alloc.1, hpos, hle⟩ := by
    rw [← hentry]
    apply find_eq_some L' hk (by omega)
    · rw [hentry]
    · intro j hj hjk hc
      -- an earlier entry has the name of an earlier call
      apply hnew
      rw [← hL.names]
      refine List.mem_map.mpr ⟨L.entries[j], List.getElem_mem _, ?_⟩
      rw [← hc]
      simp only [hentries, List.getElem_append_left hjk]
  have hblock : (allocateInDirectory c.name L.toBytes).1 = L.alloc.1.val := by
    rw [allocateInDirectory_toBytes L hL.room hpos hle]
  obtain ⟨hname, hfirst⟩ := L'.slot_entry hk
  rw [hdisk, hdisk']
  refine ⟨⟨L.entries.length, by omega, ?_, ?_, ?_⟩, ?_, ?_, ?_⟩
  · exact (L.slot_free (Nat.le_refl _) (by omega)).2
  · rw [hname, hentry]
  · rw [hfirst, hentry, hblock]
  · rw [existFile_toBytes L' hpos, hfind, hblock]
    rfl
  · rw [existASCII_toBytes_iff L' hpos, hfind]
    simp
  · intro host' path
    rw [writeFile, writeMounted_toBytes L' hL'.room, write_rejected L' (by simp [hfind])]

/-- In slot 14 it is not. -/
theorem not_foundAgain_of_eq (h : Succeeds host calls) (hlen : calls.length = 14)
    (hnew : c.name ∉ calls.map WriteCall.name)
    (hok : (writeFile host c.name c.path (some (runWrites host calls))).1 = exitSuccess) :
    ¬ FoundAgain c.name (runWrites host calls) (runWrites host (calls ++ [c])) := by
  obtain ⟨L, L', hpos, hle, hdisk, hL, hL', hdisk', hentries⟩ := h.next (by omega) hok
  have hfind : L'.find c.name = none := by
    have htake : L'.entries.take 14 = L.entries := by
      rw [hentries, ← hlen, ← hL.length_entries, List.take_left]
    rw [find, htake, ← (hL.find_eq_none_iff (Nat.le_of_eq hlen)).mpr hnew, find,
      List.take_of_length_le (by rw [hL.length_entries, hlen])]
  intro hfound
  have hblock := hfound.block
  rw [hdisk', existFile_toBytes L' hpos, hfind] at hblock
  cases hblock

/-- **Which slots the lookup finds**: the first 14. -/
theorem foundAgain_iff (h : Succeeds host calls) (hlen : calls.length < 15)
    (hnew : c.name ∉ calls.map WriteCall.name)
    (hok : (writeFile host c.name c.path (some (runWrites host calls))).1 = exitSuccess) :
    FoundAgain c.name (runWrites host calls) (runWrites host (calls ++ [c]))
      ↔ calls.length < 14 := by
  constructor
  · intro hfound
    by_contra h14
    exact not_foundAgain_of_eq h (by omega) hnew hok hfound
  · exact fun h14 => foundAgain_of_lt h h14 hnew hok

/-- The fourteenth file of a new disk, in the last slot of the lookup. -/
theorem foundAgain_fourteenth :
    FoundAgain (letter 13).name (runWrites (fun _ => some []) (letters 13))
      (runWrites (fun _ => some []) (letters 13 ++ [letter 13])) := by
  apply (foundAgain_iff _ _ _ _).mpr
  · decide
  · exact succeeds_letters.of_prefix (letters_prefix_letters (by decide))
  · decide
  · decide
  · exact succeeds_letters _ _ (letters_succ 13 ▸ letters_prefix_letters (by decide))

/-- The fifteenth file of a new disk is stored and not found. -/
theorem not_foundAgain_last :
    ¬ ∀ (host : Host) (calls : List WriteCall) (c : WriteCall) (text : Bytes),
      Succeeds host calls → (calls.map WriteCall.name).Nodup →
      (∀ d ∈ calls ++ [c], 1 ≤ d.name.length ∧ d.name.length ≤ 15) → calls.length < 15 →
      c.name ∉ calls.map WriteCall.name → host c.path = some text →
      total (stored host calls) + needed text ≤ 254 →
      (writeFile host c.name c.path (some (runWrites host calls))).1 = exitSuccess →
      FoundAgain c.name (runWrites host calls) (runWrites host (calls ++ [c])) := by
  intro h
  have hcalls := succeeds_letters.of_prefix (letters_prefix_letters (n := 14) (by decide))
  have hok := succeeds_letters (letters 14) (letter 14) (letters_succ 14 ▸ List.prefix_rfl)
  refine not_foundAgain_of_eq hcalls (by decide) (by decide) hok
    (h _ _ _ [] hcalls ?_ ?_ ?_ ?_ rfl ?_ hok)
  all_goals decide

end Lookup

/-! ## The listing -/

namespace Layout

variable (L : Layout)

/-- The loop has listed the entries from slot `k` to slot `k + m`. -/
theorem listLoop_entries {m k : Nat} (hkm : k + m ≤ L.entries.length) (fuel : Nat)
    (info : Bytes) :
    listLoop L.toBytes (m + fuel) (17 * k) (17 * k) info
      = listLoop L.toBytes fuel (17 * (k + m)) (17 * (k + m))
          (info ++ ((L.entries.drop k).take m).flatMap fun e => e.name.bytes ++ bytes "\n") := by
  have h15 := L.entries_le
  induction m generalizing k info with
  | zero => simp
  | succ m ih =>
      have hk : k < L.entries.length := by omega
      have hne : L.entries[k].name.bytes ≠ [] :=
        List.length_pos_iff.mp L.entries[k].name_pos
      rw [show m + 1 + fuel = (m + fuel) + 1 by omega,
        listLoop_slot L.le_length_toBytes (by omega), (L.slot_entry hk).1, if_neg hne,
        ih (by omega), show k + 1 + m = k + (m + 1) by omega, List.drop_eq_getElem_cons hk,
        List.take_succ_cons, List.flatMap_cons]
      simp

/-- Behind slot 14 the loop reads the counter, which is never 0. -/
theorem getSystemInfo_full (h15 : L.entries.length = 15) :
    ∃ extra, getSystemInfo L.toBytes
      = (L.entries.flatMap fun e => e.name.bytes ++ bytes "\n") ++ (extra ++ bytes "\n") := by
  have hall : (L.entries.drop 0).take 15 = L.entries := by
    rw [List.drop_zero, List.take_of_length_le (by omega)]
  have hloop := L.listLoop_entries (m := 15) (k := 0) (by omega) 1 []
  rw [hall, List.nil_append] at hloop
  have hget : L.toBytes[255]? = some L.counter := by
    have hcounter := L.getD_counter []
    have hlen := L.le_length_toBytes
    rw [List.append_nil, List.getD_eq_getElem?_getD,
      List.getElem?_eq_getElem (by omega)] at hcounter
    rw [List.getElem?_eq_getElem (by omega)]
    exact congrArg some hcounter
  have hne : untilNul (fread L.toBytes 255 (List.replicate 16 0)) ≠ [] := by
    obtain ⟨rest, hrest⟩ : ∃ rest, L.toBytes.drop 255 = L.counter :: rest := by
      obtain ⟨hlt, hbyte⟩ := List.getElem?_eq_some_iff.mp hget
      exact ⟨L.toBytes.drop 256, by rw [List.drop_eq_getElem_cons hlt, hbyte]⟩
    rw [fread, readAt, hrest, List.length_replicate, List.take_succ_cons, List.cons_append,
      untilNul, List.takeWhile_cons_of_pos (by simpa using L.counter_ne)]
    exact List.cons_ne_nil _ _
  refine ⟨untilNul (fread L.toBytes 255 (List.replicate 16 0)), ?_⟩
  rw [getSystemInfo]
  refine hloop.trans ?_
  rw [listLoop, if_pos (by decide)]
  exact (if_neg hne).trans (List.append_assoc _ _ _)

end Layout

section Listing

variable {host : Host} {calls : List WriteCall}

theorem flatMap_names {L : Layout} (h : Filled calls L) :
    (L.entries.flatMap fun e => e.name.bytes ++ bytes "\n")
      = (calls.map WriteCall.name).flatMap fun n => n.bytes ++ bytes "\n" := by
  rw [← h.names, List.flatMap_map]

/-- Lines of at most 16 bytes. -/
theorem length_lines_le {names : List CString} (hnames : ∀ n ∈ names, n.length ≤ 15) :
    (names.flatMap fun n => n.bytes ++ bytes "\n").length ≤ 16 * names.length := by
  induction names with
  | nil => exact Nat.le_refl _
  | cons n rest ih =>
      have hrest := ih fun m hm => hnames m (List.mem_cons_of_mem _ hm)
      have hn : n.bytes.length ≤ 15 := hnames n List.mem_cons_self
      rw [List.flatMap_cons, List.length_append, List.length_append, List.length_cons,
        show (bytes "\n").length = 1 by decide]
      omega

theorem not_listsExactly_of_eq (h : Succeeds host calls) (hlen : calls.length = 15) :
    ¬ ListsExactly (calls.map WriteCall.name) (runWrites host calls) := by
  obtain ⟨L, hdisk, hL⟩ := h.filled (Nat.le_of_eq hlen)
  obtain ⟨extra, hinfo⟩ := L.getSystemInfo_full (by rw [hL.length_entries, hlen])
  intro hexact
  have hlines := hexact.lines
  rw [hdisk, hinfo, flatMap_names hL] at hlines
  have hnil := List.append_right_eq_self.mp hlines
  have hlen := congrArg List.length hnil
  rw [List.length_append, show (bytes "\n").length = 1 by decide] at hlen
  simp at hlen

/-- **When the listing is exact**: up to 14 files. -/
theorem listsExactly_iff (h : Succeeds host calls) (hlen : calls.length ≤ 15)
    (hnames : ∀ c ∈ calls, c.name.length ≤ 15) :
    ListsExactly (calls.map WriteCall.name) (runWrites host calls) ↔ calls.length ≤ 14 := by
  constructor
  · intro hexact
    by_contra h14
    exact not_listsExactly_of_eq h (by omega) hexact
  · intro h14
    obtain ⟨L, hdisk, hL⟩ := h.filled hlen
    have hlines : getSystemInfo (runWrites host calls)
        = (calls.map WriteCall.name).flatMap fun n => n.bytes ++ bytes "\n" := by
      rw [hdisk, L.getSystemInfo_toBytes (by rw [hL.length_entries]; exact h14),
        flatMap_names hL]
    refine ⟨hlines, ?_⟩
    have hle := length_lines_le
      (show ∀ n ∈ calls.map WriteCall.name, n.length ≤ 15 by simpa using hnames)
    rw [List.length_map] at hle
    rw [hlines]
    omega

/-- Fourteen files are listed. -/
theorem listsExactly_letters :
    ListsExactly ((letters 14).map WriteCall.name)
      (runWrites (fun _ => some []) (letters 14)) := by
  apply (listsExactly_iff _ _ _).mpr
  · decide
  · exact succeeds_letters.of_prefix (letters_prefix_letters (by decide))
  · decide
  · decide

/-- With fifteen files the listing has a sixteenth line. -/
theorem not_listsExactly_letters :
    ¬ ∀ (host : Host) (calls : List WriteCall), Succeeds host calls → calls.length ≤ 15 →
      (calls.map WriteCall.name).Nodup →
      (∀ c ∈ calls, 1 ≤ c.name.length ∧ c.name.length ≤ 15 ∧ 10 ∉ c.name.bytes) →
      ListsExactly (calls.map WriteCall.name) (runWrites host calls) := by
  intro h
  refine not_listsExactly_of_eq succeeds_letters (by decide) (h _ _ succeeds_letters ?_ ?_ ?_)
  all_goals decide

end Listing

end DistributedAscii.FileSystem
