import DistributedAscii.FileSystem.Allocation

/-!
# FileSystem — the directory on a layout

The two searches of the directory, over any disk that has a directory
block: `existFile` and `existASCII` stop at the first of the slots `0..13`
with the name, `allocateInDirectory` at the first slot whose block number
is 0. A layout says what the slots hold, and the slot the writer fills is
then the one behind its entries; a directory without a free slot is
overrun (`overflow`).
-/

namespace DistributedAscii.FileSystem

open Lib.ByteFile

/-- The name in slot `k`. -/
def slotName (disk : Disk) (k : Nat) : Bytes :=
  untilNul (readAt disk (17 * k) 16)

/-- The block number in slot `k`; 0 marks a free slot. -/
def slotFirst (disk : Disk) (k : Nat) : UInt8 :=
  disk.getD (17 * k + 16) 0

/-! ## The search loops -/

section Lookup

variable {disk : Disk} {name : CString}

/-- The search loop in front of slot `k`. -/
def AtSlot (s : Lookup) (k : Nat) : Prop :=
  s.nameFile.length = 16 ∧ s.i = 17 * k ∧ s.pos = 17 * k

theorem lookupLoop_stop {s : Lookup} (h : untilNul s.nameFile = name.bytes) (fuel : Nat) :
    lookupLoop disk name fuel s = s := by
  cases fuel with
  | zero => rfl
  | succ fuel => rw [lookupLoop, if_pos h]

/-- One iteration reads slot `k` into the buffer. -/
theorem lookupLoop_step {s : Lookup} {k : Nat} (hs : AtSlot s k) (hk : k < 15)
    (hdisk : 256 ≤ disk.length) (hne : untilNul s.nameFile ≠ name.bytes) (fuel : Nat) :
    ∃ s', lookupLoop disk name (fuel + 1) s = lookupLoop disk name fuel s'
      ∧ AtSlot s' (k + 1) ∧ untilNul s'.nameFile = slotName disk k := by
  obtain ⟨hbuf, hi, hpos⟩ := hs
  have hread : (readAt disk (17 * k) 16).length = 16 := by
    rw [readAt, List.length_take, List.length_drop]
    omega
  have hfread : fread disk s.pos s.nameFile = readAt disk (17 * k) 16 := by
    rw [fread, hbuf, hpos, hread, List.drop_eq_nil_of_le (by omega), List.append_nil]
  refine ⟨{ nameFile := readAt disk (17 * k) 16, i := s.i + 17, pos := s.pos + 16 + 1 },
    ?_, ?_, rfl⟩
  · rw [lookupLoop, if_neg hne, if_pos (by omega), hfread, hbuf, hpos, hread]
  · exact ⟨hread, by simp only; omega, by simp only; omega⟩

/-- The index of the loop never falls. -/
theorem le_lookupLoop (fuel : Nat) (s : Lookup) :
    s.i ≤ (lookupLoop disk name fuel s).i := by
  induction fuel generalizing s with
  | zero => exact Nat.le_refl _
  | succ fuel ih =>
      rw [lookupLoop]
      split
      · exact Nat.le_refl _
      · split
        · refine Nat.le_trans (Nat.le_add_right _ 17) (Nat.le_trans ?_ (ih _))
          exact Nat.le_refl _
        · exact Nat.le_refl _

/-- The name is first met `m` slots on. -/
theorem lookupLoop_hit (hdisk : 256 ≤ disk.length) (fuel : Nat) {m k : Nat} {s : Lookup}
    (hs : AtSlot s k) (hkm : k + m < 15) (hfuel : m < fuel)
    (hne : untilNul s.nameFile ≠ name.bytes) (hhit : slotName disk (k + m) = name.bytes)
    (hbefore : ∀ j, k ≤ j → j < k + m → slotName disk j ≠ name.bytes) :
    AtSlot (lookupLoop disk name fuel s) (k + m + 1) := by
  induction m generalizing k s fuel with
  | zero =>
      obtain ⟨fuel, rfl⟩ : ∃ f, fuel = f + 1 := ⟨fuel - 1, by omega⟩
      obtain ⟨s', hstep, hs', hname⟩ := lookupLoop_step hs (by omega) hdisk hne fuel
      rw [hstep, lookupLoop_stop (by rw [hname]; exact hhit)]
      exact hs'
  | succ m ih =>
      obtain ⟨fuel, rfl⟩ : ∃ f, fuel = f + 1 := ⟨fuel - 1, by omega⟩
      obtain ⟨s', hstep, hs', hname⟩ := lookupLoop_step hs (by omega) hdisk hne fuel
      have hne' : untilNul s'.nameFile ≠ name.bytes := by
        rw [hname]
        exact hbefore k (Nat.le_refl _) (by omega)
      rw [hstep, show k + (m + 1) + 1 = k + 1 + m + 1 by omega]
      exact ih fuel hs' (by omega) (by omega) hne' (by rw [← hhit]; congr 1; omega)
        (fun j hj hjm => hbefore j (by omega) (by omega))

/-- The name is in none of the 15 slots. -/
theorem lookupLoop_miss (hdisk : 256 ≤ disk.length) (fuel : Nat) {m k : Nat} {s : Lookup}
    (hs : AtSlot s k) (hkm : k + m = 15) (hfuel : m ≤ fuel)
    (hne : untilNul s.nameFile ≠ name.bytes)
    (hmiss : ∀ j, k ≤ j → j < 15 → slotName disk j ≠ name.bytes) :
    255 ≤ (lookupLoop disk name fuel s).i := by
  induction m generalizing k s fuel with
  | zero =>
      have h : s.i ≤ (lookupLoop disk name fuel s).i := le_lookupLoop fuel s
      obtain ⟨_, hi, _⟩ := hs
      omega
  | succ m ih =>
      obtain ⟨fuel, rfl⟩ : ∃ f, fuel = f + 1 := ⟨fuel - 1, by omega⟩
      obtain ⟨s', hstep, hs', hname⟩ := lookupLoop_step hs (by omega) hdisk hne fuel
      rw [hstep]
      exact ih fuel hs' (by omega) (by omega)
        (by rw [hname]; exact hmiss k (Nat.le_refl _) (by omega))
        (fun j hj hj15 => hmiss j (by omega) hj15)

theorem atSlot_zero : AtSlot { nameFile := List.replicate 16 0, i := 0, pos := 0 } 0 :=
  ⟨List.length_replicate .., rfl, rfl⟩

/-- A buffer of zeros is the empty string: no search for another name stops
before it has read a slot. -/
theorem untilNul_buffer_ne (h : 0 < name.length) :
    untilNul (List.replicate 16 0) ≠ name.bytes := by
  rw [untilNul_replicate]
  intro h0
  rw [CString.length, ← h0] at h
  exact Nat.lt_irrefl _ h

/-- **`existFile`** at the first slot with the name: found in the slots up
to 13, given up in slot 14. -/
theorem existFile_hit (hdisk : 256 ≤ disk.length) (hname : 0 < name.length) {k : Nat}
    (hk : k < 15) (hhit : slotName disk k = name.bytes)
    (hbefore : ∀ j, j < k → slotName disk j ≠ name.bytes) :
    existFile disk name = if k < 14 then some (slotFirst disk k) else none := by
  have h : AtSlot (lookup disk name) (0 + k + 1) :=
    lookupLoop_hit hdisk 16 (m := k) (k := 0) atSlot_zero (by omega) (by omega)
      (untilNul_buffer_ne hname) (by rwa [Nat.zero_add]) (fun j _ hj => hbefore j (by omega))
  obtain ⟨_, hi, hpos⟩ := h
  rw [existFile]
  by_cases h14 : k < 14
  · have hpos' : (lookup disk name).pos - 1 = 17 * k + 16 := by omega
    rw [if_pos h14, slotFirst, ← hpos']
    exact if_neg (by omega)
  · rw [if_neg h14]
    exact if_pos (by omega)

theorem existFile_miss (hdisk : 256 ≤ disk.length) (hname : 0 < name.length)
    (hmiss : ∀ j, j < 15 → slotName disk j ≠ name.bytes) :
    existFile disk name = none := by
  have h : 255 ≤ (lookup disk name).i :=
    lookupLoop_miss hdisk 16 (m := 15) (k := 0) atSlot_zero (by omega) (by omega)
      (untilNul_buffer_ne hname) (fun j _ hj => hmiss j hj)
  exact if_pos h

/-- `existASCII` runs the same search. -/
theorem existASCII_eq (disk : Disk) (name : CString) :
    existASCII disk name = if (existFile disk name).isSome then exitSuccess else exitFailure := by
  by_cases h : 255 ≤ (lookup disk name).i
  · have hnone : existFile disk name = none := if_pos h
    rw [hnone, existASCII, if_pos h]
    rfl
  · have hsome : existFile disk name = some (disk.getD ((lookup disk name).pos - 1) 0) :=
      if_neg h
    rw [hsome, existASCII, if_neg h]
    rfl

/-- The empty name is found on every disk, before a slot is read. -/
theorem existFile_empty (disk : Disk) {name : CString} (h : name.length = 0) :
    existFile disk name = some (disk.getD 0 0) := by
  have hb : name.bytes = [] := List.length_eq_zero_iff.mp h
  have hstop : lookup disk name = { nameFile := List.replicate 16 0, i := 0, pos := 0 } :=
    lookupLoop_stop (by rw [hb, untilNul_replicate]) 16
  rw [existFile, hstop]
  rfl

end Lookup

section Slots

variable {disk : Disk}

theorem getElem?_slotFirst (hdisk : 256 ≤ disk.length) {k : Nat} (hk : k < 15) :
    disk[17 * k + 16]? = some (slotFirst disk k) := by
  rw [slotFirst, List.getD_eq_getElem?_getD, List.getElem?_eq_getElem (by omega)]
  rfl

/-- The first free slot is `m` slots on. -/
theorem slotLoop_hit (hdisk : 256 ≤ disk.length) {m k n : Nat} {s : SlotScan}
    (hkm : k + m < 15) (hmn : m < n) (hs : s.firstBlock ≠ 0)
    (hhit : slotFirst disk (k + m) = 0)
    (hbefore : ∀ j, k ≤ j → j < k + m → slotFirst disk j ≠ 0) :
    slotLoop disk ((List.range' k n).map (17 * ·)) s
      = { firstBlock := 0, pos := 17 * (k + m + 1) } := by
  induction m generalizing k n s with
  | zero =>
      obtain ⟨n, rfl⟩ : ∃ n', n = n' + 1 := ⟨n - 1, by omega⟩
      have h0 : slotFirst disk k = 0 := hhit
      rw [List.range'_succ, List.map_cons, slotLoop, if_neg hs]
      simp only [getElem?_slotFirst hdisk (show k < 15 by omega), h0]
      cases n with
      | zero => rfl
      | succ n => rw [List.range'_succ, List.map_cons, slotLoop, if_pos rfl]; rfl
  | succ m ih =>
      obtain ⟨n, rfl⟩ : ∃ n', n = n' + 1 := ⟨n - 1, by omega⟩
      rw [List.range'_succ, List.map_cons, slotLoop, if_neg hs]
      simp only [getElem?_slotFirst hdisk (show k < 15 by omega)]
      rw [ih (k := k + 1) (by omega) (by omega) (hbefore k (Nat.le_refl _) (by omega))
        (by rw [← hhit]; congr 1; omega) (fun j hj hjm => hbefore j (by omega) (by omega)),
        show k + 1 + m + 1 = k + (m + 1) + 1 by omega]

/-- No slot is free: the loop goes on to read byte 271. -/
theorem slotLoop_full (hdisk : 271 < disk.length) {m k : Nat} {s : SlotScan}
    (hkm : k + m = 15) (hs : s.firstBlock ≠ 0)
    (hfull : ∀ j, k ≤ j → j < 15 → slotFirst disk j ≠ 0) :
    (slotLoop disk ((List.range' k (m + 1)).map (17 * ·)) s).pos = 272 := by
  induction m generalizing k s with
  | zero =>
      obtain rfl : k = 15 := by omega
      rw [List.range'_succ, List.map_cons, slotLoop, if_neg hs]
      simp only [List.getElem?_eq_getElem (show 17 * 15 + 16 < disk.length by omega)]
      rfl
  | succ m ih =>
      rw [List.range'_succ, List.map_cons, slotLoop, if_neg hs]
      simp only [getElem?_slotFirst (show 256 ≤ disk.length by omega) (show k < 15 by omega)]
      exact ih (by omega) (hfull k (Nat.le_refl _) (by omega))
        (fun j hj hj15 => hfull j (by omega) hj15)

end Slots

/-! ## The directory of a layout -/

namespace Layout

variable (L : Layout)

theorem le_length_toBytes : 256 ≤ L.toBytes.length := by
  rw [length_toBytes]
  omega

/-- What is behind the filled slots: free slots, from any of them on. -/
theorem toBytes_free {k : Nat} (hk : L.entries.length ≤ k) (h15 : k < 15) :
    ∃ front back, front.length = 17 * k
      ∧ L.toBytes = front ++ List.replicate 17 0 ++ back
      ∧ (k = L.entries.length → front = L.slots
        ∧ back = List.replicate (255 - 17 * (k + 1)) 0 ++ [L.counter]
          ++ L.blocks.flatMap Block.toBytes) := by
  refine ⟨L.slots ++ List.replicate (17 * (k - L.entries.length)) 0,
    List.replicate (255 - 17 * (k + 1)) 0 ++ [L.counter] ++ L.blocks.flatMap Block.toBytes,
    ?_, ?_, ?_⟩
  · rw [List.length_append, length_slots, List.length_replicate]
    omega
  · have hsum : 255 - 17 * L.entries.length
        = 17 * (k - L.entries.length) + 17 + (255 - 17 * (k + 1)) := by omega
    rw [toBytes, directory, hsum, ← List.replicate_append_replicate,
      ← List.replicate_append_replicate]
    simp only [List.append_assoc]
  · rintro rfl
    rw [Nat.sub_self, Nat.mul_zero, List.replicate_zero, List.append_nil]
    exact ⟨rfl, rfl⟩

/-- The slots of a layout behind its entries have no name and no block. -/
theorem slot_free {k : Nat} (hk : L.entries.length ≤ k) (h15 : k < 15) :
    slotName L.toBytes k = [] ∧ slotFirst L.toBytes k = 0 := by
  obtain ⟨front, back, hlen, hsplit, -⟩ := L.toBytes_free hk h15
  constructor
  · have hread : readAt L.toBytes (17 * k) 16 = List.replicate 16 0 := by
      have h := readAt_middle front (List.replicate 16 (0 : UInt8))
        (List.replicate 1 0 ++ back)
      rw [List.length_replicate, hlen] at h
      rw [hsplit, show (17 : Nat) = 16 + 1 from rfl, ← List.replicate_append_replicate]
      simpa only [List.append_assoc] using h
    rw [slotName, hread, untilNul_replicate]
  · rw [slotFirst, hsplit, List.getD_eq_getElem?_getD, List.append_assoc,
      List.getElem?_append_right (by omega), hlen, Nat.add_sub_cancel_left]
    rfl

theorem toBytes_entries :
    L.toBytes = [] ++ L.entries.flatMap Entry.toBytes
      ++ (List.replicate (255 - 17 * L.entries.length) 0 ++ [L.counter]
        ++ L.blocks.flatMap Block.toBytes) := by
  rw [List.nil_append, toBytes, directory, slots]
  simp only [List.append_assoc]

theorem slot_entry {k : Nat} (hk : k < L.entries.length) :
    slotName L.toBytes k = L.entries[k].name.bytes
      ∧ slotFirst L.toBytes k = L.entries[k].firstBlock.val := by
  have hname : (padTo 16 L.entries[k].name.bytes).length = 16 :=
    length_padTo L.entries[k].name_le
  constructor
  · have h := readAt_record Entry.length_toBytes [] hk
      (List.replicate (255 - 17 * L.entries.length) 0 ++ [L.counter]
        ++ L.blocks.flatMap Block.toBytes)
    rw [← toBytes_entries, List.length_nil, Nat.zero_add] at h
    have h16 : readAt L.toBytes (17 * k) 16 = (readAt L.toBytes (17 * k) 17).take 16 := by
      rw [readAt, readAt, List.take_take, Nat.min_eq_left (by omega)]
    rw [slotName, h16, h, Entry.toBytes, List.take_append_of_le_length (by omega),
      List.take_of_length_le (by omega), untilNul_padTo 16 L.entries[k].name.noNul]
  · have h := getElem?_record Entry.length_toBytes [] hk (show 16 < 17 by omega)
      (List.replicate (255 - 17 * L.entries.length) 0 ++ [L.counter]
        ++ L.blocks.flatMap Block.toBytes)
    rw [← toBytes_entries, List.length_nil, Nat.zero_add, Entry.toBytes,
      List.getElem?_append_right (by omega), hname] at h
    rw [slotFirst, List.getD_eq_getElem?_getD, h]
    rfl

theorem slotFirst_entry_ne {k : Nat} (hk : k < L.entries.length) :
    slotFirst L.toBytes k ≠ 0 := by
  rw [(L.slot_entry hk).2]
  intro h0
  have h := L.entries[k].firstBlock.pos
  rw [h0] at h
  exact absurd h (by decide)

theorem slotName_entry_iff {k : Nat} (hk : k < L.entries.length) {name : CString} :
    slotName L.toBytes k = name.bytes ↔ L.entries[k].name = name := by
  rw [(L.slot_entry hk).1]
  exact ⟨fun h => CString.ext h, fun h => by rw [h]⟩

/-- The entry of the first slot with the name, if the code looks that far. -/
theorem find_eq_some {k : Nat} (hk : k < L.entries.length) (h14 : k < 14) {name : CString}
    (hhit : L.entries[k].name = name)
    (hbefore : ∀ j (hj : j < L.entries.length), j < k → L.entries[j].name ≠ name) :
    L.find name = some (L.entries[k]) := by
  rw [find, List.find?_eq_some_iff_getElem]
  refine ⟨by simpa using hhit, k, ?_, ?_, ?_⟩
  · rw [List.length_take]
    omega
  · rw [List.getElem_take]
  · intro j hj
    rw [List.getElem_take]
    simpa using hbefore j (by omega) hj

theorem find_eq_none {name : CString}
    (hmiss : ∀ j (hj : j < L.entries.length), j < 14 → L.entries[j].name ≠ name) :
    L.find name = none := by
  rw [find, List.find?_eq_none]
  intro e he hc
  obtain ⟨j, hj, rfl⟩ := List.getElem_of_mem he
  rw [List.length_take] at hj
  rw [List.getElem_take] at hc
  exact hmiss j (by omega) (by omega) (by simpa using hc)

/-- With at most 14 entries every name is in reach of the lookup. -/
theorem find_eq_none_iff (h14 : L.entries.length ≤ 14) {name : CString} :
    L.find name = none ↔ name ∉ L.entries.map Entry.name := by
  rw [find, List.take_of_length_le h14, List.find?_eq_none]
  simp

/-- **The lookup of a layout**: the first entry with the name among the
slots `0..13`. -/
theorem existFile_toBytes {name : CString} (hname : 0 < name.length) :
    existFile L.toBytes name = (L.find name).map (fun e => e.firstBlock.val) := by
  by_cases hin : ∃ k, k < L.entries.length ∧ slotName L.toBytes k = name.bytes
  · obtain ⟨hk, hhit⟩ := Nat.find_spec hin
    have hbefore : ∀ j, j < Nat.find hin → slotName L.toBytes j ≠ name.bytes := by
      intro j hj hc
      exact Nat.find_min hin hj ⟨by omega, hc⟩
    have hother : ∀ j (hj : j < L.entries.length), j < Nat.find hin →
        L.entries[j].name ≠ name := by
      intro j hj hjk
      rw [Ne, ← L.slotName_entry_iff hj]
      exact hbefore j hjk
    have h15 := L.entries_le
    rw [existFile_hit L.le_length_toBytes hname (by omega) hhit hbefore]
    by_cases h14 : Nat.find hin < 14
    · rw [if_pos h14, L.find_eq_some hk h14 ((L.slotName_entry_iff hk).mp hhit) hother,
        (L.slot_entry hk).2]
      rfl
    · -- the name is in slot 14, where the search is given up
      rw [if_neg h14, L.find_eq_none fun j hj hj14 => hother j hj (by omega)]
      rfl
  · have hmiss : ∀ j, j < 15 → slotName L.toBytes j ≠ name.bytes := by
      intro j hj hc
      by_cases hjl : j < L.entries.length
      · exact hin ⟨j, hjl, hc⟩
      · rw [(L.slot_free (by omega) hj).1] at hc
        rw [CString.length, ← hc] at hname
        exact Nat.lt_irrefl _ hname
    have hfind : L.find name = none :=
      L.find_eq_none fun j hj _ hc => hin ⟨j, hj, (L.slotName_entry_iff hj).mpr hc⟩
    rw [existFile_miss L.le_length_toBytes hname hmiss, hfind]
    rfl

theorem existASCII_toBytes_iff {name : CString} (hname : 0 < name.length) :
    existASCII L.toBytes name = exitSuccess ↔ L.find name ≠ none := by
  rw [existASCII_eq, existFile_toBytes L hname]
  cases L.find name with
  | none => simp [show exitFailure ≠ exitSuccess by decide]
  | some e => simp

end Layout

/-! ## The listing -/

/-- One iteration of `getSystemInfo` lists slot `k`. -/
theorem listLoop_slot {disk : Disk} (hdisk : 256 ≤ disk.length) {k : Nat} (hk : k < 15)
    (fuel : Nat) (info : Bytes) :
    listLoop disk (fuel + 1) (17 * k) (17 * k) info
      = if slotName disk k = [] then info
        else listLoop disk fuel (17 * (k + 1)) (17 * (k + 1))
          (info ++ slotName disk k ++ bytes "\n") := by
  have hread : (readAt disk (17 * k) 16).length = 16 := by
    rw [readAt, List.length_take, List.length_drop]
    omega
  have hfread : fread disk (17 * k) (List.replicate 16 0) = readAt disk (17 * k) 16 := by
    simp [fread, hread]
  rw [listLoop, if_pos (by omega), hfread, hread]
  rfl

namespace Layout

variable (L : Layout)

/-- The loop in front of slot `k` lists the entries from there on. -/
theorem listLoop_toBytes (hsize : L.entries.length ≤ 14) {m k fuel : Nat}
    (hkm : k + m = L.entries.length) (hfuel : m < fuel) (info : Bytes) :
    listLoop L.toBytes fuel (17 * k) (17 * k) info
      = info ++ (L.entries.drop k).flatMap fun e => e.name.bytes ++ bytes "\n" := by
  induction m generalizing k fuel info with
  | zero =>
      obtain ⟨fuel, rfl⟩ : ∃ f, fuel = f + 1 := ⟨fuel - 1, by omega⟩
      rw [listLoop_slot L.le_length_toBytes (by omega),
        if_pos (L.slot_free (by omega) (by omega)).1, List.drop_eq_nil_of_le (by omega)]
      simp
  | succ m ih =>
      obtain ⟨fuel, rfl⟩ : ∃ f, fuel = f + 1 := ⟨fuel - 1, by omega⟩
      have hk : k < L.entries.length := by omega
      have hne : L.entries[k].name.bytes ≠ [] :=
        List.length_pos_iff.mp L.entries[k].name_pos
      rw [listLoop_slot L.le_length_toBytes (by omega), (L.slot_entry hk).1, if_neg hne,
        ih (by omega) (by omega), List.drop_eq_getElem_cons hk, List.flatMap_cons]
      simp

/-- **The listing of a layout**: a line for every entry, in their order. -/
theorem getSystemInfo_toBytes (hsize : L.entries.length ≤ 14) :
    getSystemInfo L.toBytes = L.entries.flatMap fun e => e.name.bytes ++ bytes "\n" := by
  have h : listLoop L.toBytes 16 (17 * 0) (17 * 0) [] = _ :=
    L.listLoop_toBytes hsize (Nat.zero_add _) (by omega) []
  simpa [getSystemInfo] using h

end Layout

end DistributedAscii.FileSystem
