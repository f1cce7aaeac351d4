import DistributedAscii.FileSystem.Simulation

/-!
# FileSystem — the disk as a map of files

What the disk is for: a finite map from names to texts, here the list of
the stored files in the order they came in. `Holds L fs` says how a layout
keeps such a map as long as every write is complete: the files lie behind
each other, each in `needed` consecutive blocks, the counter stands behind
the last block, and no link byte is 0, so the scan of the allocator finds
nothing and the counter decides. One complete call adds one file
(`Holds.write`).
-/

namespace DistributedAscii.FileSystem

open Lib.ByteFile Layout

/-- The stored files, oldest first. -/
abbrev Files := List (CString × Bytes)

/-- The blocks a text takes. -/
def needed (text : Bytes) : Nat :=
  text.length / 255 + 1

/-- The blocks that files take. -/
def total (fs : Files) : Nat :=
  (fs.map fun f => needed f.2).sum

/-- The link byte of block `j` of a file that begins at block `start`. -/
def linkOf (start : Nat) (text : Bytes) (j : Nat) : UInt8 :=
  if text.length < (j + 1) * 255 then 255 else UInt8.ofNat (start + j + 1)

def fileBlock (start : Nat) (text : Bytes) (j : Nat) : Block :=
  ⟨chunk text j, linkOf start text j, length_chunk text j⟩

def fileBlocks (start : Nat) (text : Bytes) : List Block :=
  (List.range (needed text)).map (fileBlock start text)

/-- The names with the first blocks of their files. -/
def firstBlocks : Nat → Files → List (CString × Nat)
  | _, [] => []
  | start, f :: fs => (f.1, start) :: firstBlocks (start + needed f.2) fs

/-- The blocks of the files, one file behind the other. -/
def allBlocks : Nat → Files → List Block
  | _, [] => []
  | start, f :: fs => fileBlocks start f.2 ++ allBlocks (start + needed f.2) fs

/-- The directory and the counter say that these files are there. -/
structure Lists (L : Layout) (fs : Files) : Prop where
  entries : L.entries.map (fun e => (e.name, e.firstBlock.val.toNat)) = firstBlocks 1 fs
  counter : L.counter.toNat = 1 + total fs

/-- A layout keeps exactly these files. -/
structure Holds (L : Layout) (fs : Files) : Prop extends Lists L fs where
  blocks : L.blocks = allBlocks 1 fs

/-! ## The image of a list of files -/

theorem needed_pos (text : Bytes) : 0 < needed text :=
  Nat.succ_pos _

/-- A chunk that is not full is the last one. -/
theorem length_lt_iff_needed_le {text : Bytes} {j : Nat} :
    text.length < (j + 1) * 255 ↔ needed text ≤ j + 1 := by
  rw [needed]
  omega

theorem total_append (fs : Files) (f : CString × Bytes) :
    total (fs ++ [f]) = total fs + needed f.2 := by
  simp [total]

theorem length_fileBlocks (start : Nat) (text : Bytes) :
    (fileBlocks start text).length = needed text := by
  rw [fileBlocks, List.length_map, List.length_range]

theorem length_allBlocks (start : Nat) (fs : Files) :
    (allBlocks start fs).length = total fs := by
  induction fs generalizing start with
  | nil => rfl
  | cons f fs ih =>
      rw [allBlocks, List.length_append, length_fileBlocks, ih]
      simp [total]

theorem allBlocks_append (start : Nat) (fs : Files) (f : CString × Bytes) :
    allBlocks start (fs ++ [f]) = allBlocks start fs ++ fileBlocks (start + total fs) f.2 := by
  induction fs generalizing start with
  | nil => simp [allBlocks, total]
  | cons g fs ih =>
      rw [List.cons_append, allBlocks, allBlocks, ih, List.append_assoc]
      simp [total, Nat.add_assoc]

theorem firstBlocks_append (start : Nat) (fs : Files) (f : CString × Bytes) :
    firstBlocks start (fs ++ [f]) = firstBlocks start fs ++ [(f.1, start + total fs)] := by
  induction fs generalizing start with
  | nil => simp [firstBlocks, total]
  | cons g fs ih =>
      rw [List.cons_append, firstBlocks, firstBlocks, ih, List.cons_append]
      simp [total, Nat.add_assoc]

theorem map_fst_firstBlocks (start : Nat) (fs : Files) :
    (firstBlocks start fs).map Prod.fst = fs.map Prod.fst := by
  induction fs generalizing start with
  | nil => rfl
  | cons f fs ih => rw [firstBlocks, List.map_cons, List.map_cons, ih]

theorem total_take_succ {fs : Files} {k : Nat} (hk : k < fs.length) :
    total (fs.take (k + 1)) = total (fs.take k) + needed fs[k].2 := by
  rw [← List.take_append_getElem hk, total_append]

theorem getElem?_firstBlocks (start : Nat) {fs : Files} {k : Nat} (hk : k < fs.length) :
    (firstBlocks start fs)[k]? = some (fs[k].1, start + total (fs.take k)) := by
  induction fs generalizing start k with
  | nil => cases hk
  | cons f fs ih =>
      cases k with
      | zero => rfl
      | succ k =>
          have hk' : k < fs.length := Nat.lt_of_succ_lt_succ hk
          rw [firstBlocks, List.getElem?_cons_succ, ih _ hk']
          simp [total, Nat.add_assoc]

/-- The blocks of file `k` lie behind those of the files before it. -/
theorem getElem?_allBlocks (start : Nat) {fs : Files} {k : Nat} (hk : k < fs.length)
    {j : Nat} (hj : j < needed fs[k].2) :
    (allBlocks start fs)[total (fs.take k) + j]?
      = some (fileBlock (start + total (fs.take k)) fs[k].2 j) := by
  induction fs generalizing start k with
  | nil => cases hk
  | cons f fs ih =>
      cases k with
      | zero =>
          have hj' : j < needed f.2 := hj
          have hzero : total ((f :: fs).take 0) = 0 := rfl
          rw [hzero, Nat.zero_add, Nat.add_zero, allBlocks,
            List.getElem?_append_left (by rw [length_fileBlocks]; exact hj'), fileBlocks,
            List.getElem?_map, List.getElem?_range hj']
          rfl
      | succ k =>
          have hk' : k < fs.length := Nat.lt_of_succ_lt_succ hk
          have htotal : total ((f :: fs).take (k + 1)) = needed f.2 + total (fs.take k) := by
            simp [total]
          rw [htotal, allBlocks, Nat.add_assoc,
            List.getElem?_append_right (by rw [length_fileBlocks]; omega), length_fileBlocks,
            Nat.add_sub_cancel_left, ih _ hk' hj, Nat.add_assoc]
          rfl

/-- No block of a complete file looks free. -/
theorem linkOf_ne_zero {start j : Nat} {text : Bytes} (h : start + needed text ≤ 255) :
    linkOf start text j ≠ 0 := by
  rw [linkOf]
  split
  · decide
  · rename_i hlen
    rw [length_lt_iff_needed_le] at hlen
    intro h0
    have hnat := congrArg UInt8.toNat h0
    rw [UInt8.toNat_ofNat', UInt8.toNat_zero] at hnat
    omega

theorem allBlocks_link_ne {start : Nat} {fs : Files} (h : start + total fs ≤ 255) :
    ∀ b ∈ allBlocks start fs, b.link ≠ 0 := by
  induction fs generalizing start with
  | nil => intro b hb; cases hb
  | cons f fs ih =>
      intro b hb
      have hsum : total (f :: fs) = needed f.2 + total fs := by simp [total]
      rw [allBlocks, List.mem_append] at hb
      rcases hb with hb | hb
      · obtain ⟨j, _, rfl⟩ := List.mem_map.mp hb
        exact linkOf_ne_zero (by omega)
      · exact ih (by omega) b hb

namespace Lists

variable {L : Layout} {fs : Files}

theorem names (h : Lists L fs) : L.entries.map Entry.name = fs.map Prod.fst := by
  rw [← map_fst_firstBlocks 1 fs, ← h.entries, List.map_map]
  rfl

theorem length_entries (h : Lists L fs) : L.entries.length = fs.length := by
  have hlen := congrArg List.length h.names
  simpa using hlen

theorem total_le (h : Lists L fs) : total fs ≤ 254 := by
  have hlt := L.counter.toNat_lt
  have hc := h.counter
  omega

/-- The first block of file `k`. -/
theorem getElem?_entries (h : Lists L fs) {k : Nat} (hk : k < fs.length) :
    ∃ e, L.entries[k]? = some e ∧ e.name = fs[k].1
      ∧ e.firstBlock.val.toNat = 1 + total (fs.take k) := by
  have hget := getElem?_firstBlocks 1 hk
  rw [← h.entries, List.getElem?_map, Option.map_eq_some_iff] at hget
  obtain ⟨e, he, hpair⟩ := hget
  exact ⟨e, he, congrArg Prod.fst hpair, congrArg Prod.snd hpair⟩

theorem find_eq_none_iff (h : Lists L fs) (h14 : fs.length ≤ 14) {name : CString} :
    L.find name = none ↔ name ∉ fs.map Prod.fst := by
  rw [L.find_eq_none_iff (by rw [h.length_entries]; exact h14), h.names]

end Lists

namespace Holds

variable {L : Layout} {fs : Files}

theorem length_blocks (h : Holds L fs) : L.blocks.length = total fs := by
  rw [h.blocks, length_allBlocks]

theorem link_ne (h : Holds L fs) : ∀ b ∈ L.blocks, b.link ≠ 0 := by
  rw [h.blocks]
  exact allBlocks_link_ne (by have := h.total_le; omega)

theorem counter_ne_full (h : Holds L fs) (hfit : total fs < 254) : L.counter ≠ 255 := by
  intro hc
  have hcount := h.counter
  rw [hc, show (255 : UInt8).toNat = 255 from rfl] at hcount
  omega

end Holds

theorem holds_fresh : Holds fresh [] where
  entries := rfl
  counter := rfl
  blocks := rfl

/-! ## A complete write -/

/-- Without a link byte 0 the allocator takes the counter. -/
theorem alloc_counter {L : Layout} (h : ∀ b ∈ L.blocks, b.link ≠ 0) (hc : L.counter ≠ 255) :
    L.alloc = (.ofCounter L.counter L.counter_ne hc, L.bump hc) := by
  apply alloc_of_counter
  rw [freeIndex, List.findIdx?_eq_none_iff]
  intro b hb
  simpa using h b hb

/-- **The writer on fresh blocks**: with the counter right behind the block
being written, a text goes to consecutive blocks at the end of the disk. -/
theorem store_fresh (text : Bytes) (start : Nat) (front : List Block) (hstart : 1 ≤ start)
    (hfit : start + needed text ≤ 255) (hfront : front.length = start - 1)
    (hlinks : ∀ b ∈ front, b.link ≠ 0) (fuel index : Nat) (b : BlockNo) (L : Layout)
    (hfuel : needed text ≤ index + fuel) (hindex : index < needed text)
    (hb : b.val.toNat = start + index) (hcounter : L.counter.toNat = start + index + 1)
    (hblocks : L.blocks = front ++ (List.range index).map (fileBlock start text)) :
    ∃ L', store text fuel index b L = (exitSuccess, L') ∧ L'.entries = L.entries
      ∧ L'.counter.toNat = start + needed text
      ∧ L'.blocks = front ++ fileBlocks start text := by
  induction fuel generalizing index b L with
  | zero => omega
  | succ fuel ih =>
      have hdata := length_chunk text index
      -- `b` is the block behind the last one
      have hend : b.index = L.blocks.length := by
        rw [hblocks, List.length_append, List.length_map, List.length_range, hfront,
          BlockNo.index, hb]
        omega
      rw [store]
      by_cases hlast : text.length < (index + 1) * 255
      · have hn : needed text = index + 1 := by
          rw [length_lt_iff_needed_le] at hlast
          omega
        refine ⟨_, if_pos hlast, ?_, ?_, ?_⟩
        · rw [writeBlock_entries]
        · rw [writeBlock_counter, hcounter, hn, Nat.add_assoc]
        · rw [writeBlock_blocks_end _ hend, hblocks, fileBlocks, hn, List.range_succ,
            List.map_append, List.append_assoc]
          simp only [List.map_cons, List.map_nil, fileBlock, linkOf, if_pos hlast]
      · have hmore : index + 1 < needed text := by
          rw [length_lt_iff_needed_le] at hlast
          omega
        -- nothing looks free: the allocator takes the counter
        have hlinks₁ : ∀ b' ∈ L.blocks, b'.link ≠ 0 := by
          rw [hblocks]
          intro b' hb'
          rcases List.mem_append.mp hb' with hb' | hb'
          · exact hlinks b' hb'
          · obtain ⟨j, _, rfl⟩ := List.mem_map.mp hb'
            exact linkOf_ne_zero hfit
        have hc₁ : L.counter ≠ 255 := by
          intro hc
          rw [hc, show (255 : UInt8).toNat = 255 from rfl] at hcounter
          omega
        -- the block that the counter hands out is the next one of the file
        have hlink : L.counter = linkOf start text index := by
          apply UInt8.toNat_inj.mp
          rw [hcounter, linkOf, if_neg hlast, UInt8.toNat_ofNat']
          omega
        rw [if_neg hlast, alloc_counter hlinks₁ hc₁]
        obtain ⟨L', hstore, hentries, hcount, hblk⟩ := ih (index + 1)
          (.ofCounter _ L.counter_ne hc₁)
          ((L.bump hc₁).writeBlock b (chunk text index) hdata L.counter)
          (by omega) hmore
          (by
            show L.counter.toNat = start + (index + 1)
            rw [hcounter, Nat.add_assoc])
          (by
            rw [writeBlock_counter, bump_counter, toNat_one_add hc₁, hcounter]
            rfl)
          (by
            rw [writeBlock_blocks_end (L.bump hc₁) hend, bump_blocks, hblocks, hlink,
              List.range_succ, List.map_append, List.append_assoc]
            rfl)
        refine ⟨L', hstore, ?_, hcount, hblk⟩
        rw [hentries, writeBlock_entries, bump_entries]

/-- **One complete call** on a disk that keeps files adds its file. -/
theorem Holds.write {L : Layout} {fs : Files} (h : Holds L fs) {name : CString}
    {text : Bytes} (hpos : 0 < name.length) (hle : name.length ≤ 16) (h14 : fs.length < 14)
    (hnew : name ∉ fs.map Prod.fst) (hfit : total fs + needed text ≤ 254) :
    ∃ L', L.write name (some text) = (exitSuccess, L') ∧ Holds L' (fs ++ [(name, text)]) := by
  have hn := needed_pos text
  have hc := h.counter_ne_full (by omega)
  have hfind : L.find name = none := (h.find_eq_none_iff (by omega)).mpr hnew
  have h15 : (L.bump hc).entries.length < 15 := by
    rw [bump_entries, h.length_entries]
    omega
  rw [write_some L hpos hle hfind, alloc_counter h.link_ne hc]
  dsimp only
  rw [enter, dif_pos h15]
  obtain ⟨L', hrun, hentries, hcount, hblocks⟩ := store_fresh text
    (1 + total fs) (allBlocks 1 fs) (by omega) (by omega)
    (by rw [length_allBlocks, Nat.add_sub_cancel_left])
    (allBlocks_link_ne (by omega)) 255 0 (.ofCounter L.counter L.counter_ne hc)
    ((L.bump hc).addEntry ⟨name, .ofCounter L.counter L.counter_ne hc, hpos, hle⟩ h15)
    (by omega) hn h.counter
    (by rw [addEntry_counter, bump_counter, toNat_one_add hc, h.counter])
    (by rw [addEntry_blocks, bump_blocks, List.range_zero, List.map_nil, List.append_nil,
      h.blocks])
  refine ⟨L', hrun, ⟨?_, ?_⟩, ?_⟩
  · rw [hentries, firstBlocks_append, ← h.entries, ← h.counter]
    exact List.map_append
  · rw [hcount, total_append, Nat.add_assoc]
  · rw [hblocks, allBlocks_append]

/-! ## The map that a sequence of calls describes -/

/-- One call on the map: a new name of at most 16 characters is added with
the text of its host file. -/
def put (host : Host) (fs : Files) (c : WriteCall) : Files :=
  if c.name.length ≤ 16 ∧ c.name ∉ fs.map Prod.fst then
    fs ++ [(c.name, (host c.path).getD [])]
  else fs

/-- The map after a sequence of calls. -/
def stored (host : Host) (calls : List WriteCall) : Files :=
  calls.foldl (put host) []

section Stored

variable {host : Host}

theorem stored_append (calls more : List WriteCall) :
    stored host (calls ++ more) = more.foldl (put host) (stored host calls) :=
  List.foldl_append

theorem put_new {fs : Files} {c : WriteCall} (hle : c.name.length ≤ 16)
    (hnew : c.name ∉ fs.map Prod.fst) :
    put host fs c = fs ++ [(c.name, (host c.path).getD [])] :=
  if_pos ⟨hle, hnew⟩

theorem put_rejected {fs : Files} {c : WriteCall}
    (h : 16 < c.name.length ∨ c.name ∈ fs.map Prod.fst) : put host fs c = fs := by
  apply if_neg
  rintro ⟨hle, hnew⟩
  rcases h with h | h
  · omega
  · exact hnew h

/-- The map only grows. -/
theorem subset_foldl_put (calls : List WriteCall) (fs : Files) :
    fs <+: calls.foldl (put host) fs := by
  induction calls generalizing fs with
  | nil => exact List.prefix_rfl
  | cons c calls ih =>
      refine List.IsPrefix.trans ?_ (ih (put host fs c))
      rw [put]
      split
      · exact List.prefix_append ..
      · exact List.prefix_rfl

theorem stored_mono {calls calls' : List WriteCall} (h : calls <+: calls') :
    stored host calls <+: stored host calls' := by
  obtain ⟨more, rfl⟩ := h
  rw [stored_append]
  exact subset_foldl_put more _

theorem total_mono {fs fs' : Files} (h : fs <+: fs') : total fs ≤ total fs' := by
  obtain ⟨more, rfl⟩ := h
  simp [total]

/-- A stored file comes from a call with a name that is not too long. -/
theorem mem_stored {calls : List WriteCall} {f : CString × Bytes}
    (hf : f ∈ stored host calls) :
    ∃ c ∈ calls, c.name.length ≤ 16 ∧ f = (c.name, (host c.path).getD []) := by
  induction calls using List.reverseRecOn with
  | nil => cases hf
  | append_singleton calls c ih =>
      rw [stored_append, List.foldl_cons, List.foldl_nil, put] at hf
      split at hf
      · rename_i hnew
        rcases List.mem_append.mp hf with hf | hf
        · obtain ⟨c', hc', hrest⟩ := ih hf
          exact ⟨c', List.mem_append_left _ hc', hrest⟩
        · exact ⟨c, List.mem_append_right _ (List.mem_singleton_self c), hnew.1,
            List.mem_singleton.mp hf⟩
      · obtain ⟨c', hc', hrest⟩ := ih hf
        exact ⟨c', List.mem_append_left _ hc', hrest⟩

theorem nodup_stored (calls : List WriteCall) :
    ((stored host calls).map Prod.fst).Nodup := by
  induction calls using List.reverseRecOn with
  | nil => exact List.nodup_nil
  | append_singleton calls c ih =>
      rw [stored_append, List.foldl_cons, List.foldl_nil, put]
      split
      · rename_i hnew
        rw [List.map_append, List.nodup_append]
        refine ⟨ih, List.nodup_singleton _, ?_⟩
        intro a ha b hb hab
        rw [List.map_cons, List.map_nil, List.mem_singleton] at hb
        subst hb
        subst hab
        exact hnew.2 ha
      · exact ih

/-- There are as many files as distinct names that are not too long. -/
theorem length_stored_le (calls : List WriteCall) :
    (stored host calls).length
      ≤ ((calls.map WriteCall.name).filter (fun n => n.length ≤ 16)).dedup.length := by
  have hsub : (stored host calls).map Prod.fst
      ⊆ ((calls.map WriteCall.name).filter (fun n => n.length ≤ 16)).dedup := by
    intro n hn
    obtain ⟨f, hf, rfl⟩ := List.mem_map.mp hn
    obtain ⟨c, hc, hle, rfl⟩ := mem_stored hf
    rw [List.mem_dedup, List.mem_filter]
    exact ⟨List.mem_map_of_mem hc, by simpa using hle⟩
  have hlen := ((nodup_stored calls).subperm hsub).length_le
  rwa [List.length_map] at hlen

/-- A sequence of calls within the capacity of the disk: the names that are
not too long are 1 to 15 characters and at most 14, and the files that the
calls ask for fit. -/
structure Load (host : Host) (calls : List WriteCall) : Prop where
  names : ∀ c ∈ calls, c.name.length ≤ 16 → 0 < c.name.length ∧ c.name.length ≤ 15
  slots : ((calls.map WriteCall.name).filter (fun n => n.length ≤ 16)).dedup.length ≤ 14
  blocks : total (stored host calls) ≤ 254

theorem Load.length_stored {calls front : List WriteCall} (h : Load host calls)
    (hfront : front <+: calls) : (stored host front).length ≤ 14 :=
  (stored_mono hfront).length_le.trans ((length_stored_le calls).trans h.slots)

theorem Load.total_stored {calls front : List WriteCall} (h : Load host calls)
    (hfront : front <+: calls) : total (stored host front) ≤ 254 :=
  (total_mono (stored_mono hfront)).trans h.blocks

end Stored

/-! ## One call of the code -/

section Calls

variable {L : Layout} {fs : Files} {host : Host} {c : WriteCall}

/-- A name that is too long or stored is rejected, and nothing is written. -/
theorem Lists.writeMounted_rejected (h : Lists L fs) (h14 : fs.length ≤ 14)
    (hc : 16 < c.name.length ∨ c.name ∈ fs.map Prod.fst) :
    writeMounted host c.name c.path L.toBytes = (exitFailure, L.toBytes) := by
  have h15 : L.entries.length < 15 := by
    rw [h.length_entries]
    omega
  rw [writeMounted_toBytes L (.inl h15), write_rejected]
  rintro ⟨⟨_, hle⟩, hfind⟩
  rcases hc with hc | hc
  · omega
  · exact (h.find_eq_none_iff h14).mp hfind hc

/-- A new name is accepted, and the disk keeps one file more. -/
theorem Holds.writeMounted_accepted (h : Holds L fs) (h14 : fs.length < 14)
    (hpos : 0 < c.name.length) (hle : c.name.length ≤ 16) (hnew : c.name ∉ fs.map Prod.fst)
    {text : Bytes} (htext : host c.path = some text) (hfit : total fs + needed text ≤ 254) :
    ∃ L', writeMounted host c.name c.path L.toBytes = (exitSuccess, L'.toBytes)
      ∧ Holds L' (put host fs c) := by
  have h15 : L.entries.length < 15 := by
    rw [h.length_entries]
    omega
  obtain ⟨L', hwrite, hholds⟩ := h.write hpos hle h14 hnew hfit
  refine ⟨L', ?_, ?_⟩
  · rw [writeMounted_toBytes L (.inl h15), htext, hwrite]
  · rw [put_new hle hnew, htext]
    exact hholds

end Calls

end DistributedAscii.FileSystem
