import DistributedAscii.FileSystem.Exhaustion

/-!
# FileSystem — runs of successful calls

`writeFile` succeeds for a new name of 1 to 16 characters whose host file
can be opened and ends within 255 blocks, and for nothing else. What a run
of such calls leaves is a readable disk whose first file begins in block 1
(`Grown`). As long as the directory is not overrun its entries are the
names of the calls, in their order (`Filled`).
-/

namespace DistributedAscii.FileSystem

open Lib.ByteFile Lib.Runs Layout

/-- Every call of the sequence returns `EXIT_SUCCESS`. -/
def Succeeds (host : Host) (calls : List WriteCall) : Prop :=
  ∀ front c, front ++ [c] <+: calls →
    (writeFile host c.name c.path (some (runWrites host front))).1 = exitSuccess

namespace Layout

variable {L : Layout}

/-! ## One call -/

theorem store_success {content : Bytes} (h : content.length < 255 * 255) (b : BlockNo)
    (L : Layout) : (store content 255 0 b L).1 = exitSuccess := by
  obtain ⟨host, hpath⟩ : ∃ host : Host, host (.ofBytes []) = some content :=
    ⟨fun _ => some content, rfl⟩
  have hcode := contentLoop_toBytes hpath 255 0 b L
  have hok : (contentLoop host (.ofBytes []) 255 0 b.val L.toBytes).1 = exitSuccess :=
    contentLoop_success hpath (by omega) (by omega) _ _
  rwa [hcode] at hok

/-- **When `writeFile` succeeds.** -/
theorem write_success_iff {name : CString} {content : Option Bytes} :
    (L.write name content).1 = exitSuccess
      ↔ ((0 < name.length ∧ name.length ≤ 16) ∧ L.find name = none)
        ∧ ∃ text, content = some text ∧ text.length < 255 * 255 := by
  have hne : exitFailure ≠ exitSuccess := by decide
  constructor
  · intro hok
    by_cases hnew : (0 < name.length ∧ name.length ≤ 16) ∧ L.find name = none
    · refine ⟨hnew, ?_⟩
      obtain ⟨⟨hpos, hle⟩, hfind⟩ := hnew
      cases content with
      | none =>
          rw [write_none L hpos hle hfind] at hok
          exact absurd hok hne
      | some text =>
          refine ⟨text, rfl, ?_⟩
          by_contra hlong
          rw [write_some L hpos hle hfind, store_fails (by omega)] at hok
          exact hne hok
    · rw [write_rejected L hnew] at hok
      exact absurd hok hne
  · rintro ⟨⟨⟨hpos, hle⟩, hfind⟩, text, rfl, hlen⟩
    rw [write_some L hpos hle hfind]
    exact store_success hlen _ _

/-- What a run of successful calls leaves. -/
structure Grown (L : Layout) : Prop extends Readable L where
  first : L = fresh ∨ ∃ e, L.entries.head? = some e ∧ e.firstBlock = .one

theorem grown_fresh : Grown fresh where
  toReadable := readable_fresh
  first := .inl rfl

theorem Grown.write (h : Grown L) {name : CString} {content : Option Bytes}
    (hok : (L.write name content).1 = exitSuccess) : Grown (L.write name content).2 := by
  obtain ⟨⟨⟨hpos, hle⟩, hfind⟩, text, rfl, hlen⟩ := write_success_iff.mp hok
  refine ⟨h.toReadable.write (.inl ⟨text, rfl, hlen⟩), .inr ?_⟩
  rw [write_some L hpos hle hfind, store_entries]
  rcases h.first with rfl | ⟨e, he, hone⟩
  · exact ⟨⟨name, fresh.alloc.1, hpos, hle⟩, rfl, rfl⟩
  · -- an entry is added behind the first one, or none
    refine ⟨e, ?_, hone⟩
    rw [← entries_alloc L] at he
    rw [enter]
    split
    · show (L.alloc.2.entries ++ [_]).head? = some e
      rw [List.head?_append, he]
      rfl
    · exact he

/-- What successful calls leave that fit into the directory. -/
structure Filled (calls : List WriteCall) (L : Layout) : Prop extends Grown L, Compact L where
  names : L.entries.map Entry.name = calls.map WriteCall.name

theorem filled_fresh : Filled [] fresh where
  toGrown := grown_fresh
  toCompact := compact_fresh
  names := rfl

namespace Filled

variable {calls : List WriteCall}

theorem length_entries (h : Filled calls L) : L.entries.length = calls.length := by
  have hlen := congrArg List.length h.names
  simpa using hlen

theorem find_eq_none_iff (h : Filled calls L) (h14 : calls.length ≤ 14) {name : CString} :
    L.find name = none ↔ name ∉ calls.map WriteCall.name := by
  rw [L.find_eq_none_iff (by rw [h.length_entries]; exact h14), h.names]

theorem write (h : Filled calls L) {c : WriteCall} (hlen : calls.length < 15)
    {content : Option Bytes} (hok : (L.write c.name content).1 = exitSuccess) :
    Filled (calls ++ [c]) (L.write c.name content).2 := by
  refine ⟨h.toGrown.write hok, ?_, ?_⟩
  · obtain ⟨⟨⟨hpos, hle⟩, hfind⟩, text, rfl, htext⟩ := write_success_iff.mp hok
    have h15 : L.alloc.2.entries.length < 15 := by
      rw [entries_alloc, h.length_entries]
      exact hlen
    have hsolid := h.toCompact.alloc.addEntry ⟨c.name, L.alloc.1, hpos, hle⟩ h15
    rw [write_some L hpos hle hfind, enter, dif_pos h15]
    apply hsolid.store
    · rwa [Nat.zero_add]
    · rw [Nat.zero_mul]
      exact Nat.zero_le _
  · obtain ⟨⟨⟨hpos, hle⟩, hfind⟩, -⟩ := write_success_iff.mp hok
    rw [write_entries (by rw [h.length_entries]; exact hlen) hpos hle hfind, List.map_append,
      List.map_append, h.names]
    rfl

end Filled

/-! ## Runs -/

/-- One call of the code on a readable disk. -/
theorem Readable.writeFile (h : Readable L) (host : Host) (c : WriteCall) :
    FileSystem.writeFile host c.name c.path (some L.toBytes)
      = ((L.write c.name (host c.path)).1, some (L.write c.name (host c.path)).2.toBytes) := by
  rw [FileSystem.writeFile, writeMounted_toBytes L h.room]

end Layout

namespace Succeeds

variable {host : Host} {calls : List WriteCall}

theorem of_prefix (h : Succeeds host calls) {front : List WriteCall} (hfront : front <+: calls) :
    Succeeds host front :=
  fun front' c hc => h front' c (hc.trans hfront)

theorem grown (h : Succeeds host calls) :
    ∃ L, runWrites host calls = L.toBytes ∧ Grown L := by
  refine prefix_induction (P := fun front => ∃ L, runWrites host front = L.toBytes ∧ Grown L)
    ?_ ?_ calls List.prefix_rfl
  · exact ⟨fresh, toBytes_fresh.symm, grown_fresh⟩
  · intro front c hfront ⟨L, hdisk, hL⟩
    have hok := h front c hfront
    rw [hdisk, hL.writeFile] at hok
    refine ⟨(L.write c.name (host c.path)).2, ?_, hL.write hok⟩
    rw [runWrites_append, hdisk, writeMounted_toBytes L hL.room]

theorem filled (h : Succeeds host calls) (hlen : calls.length ≤ 15) :
    ∃ L, runWrites host calls = L.toBytes ∧ Filled calls L := by
  refine prefix_induction (P := fun front => ∃ L, runWrites host front = L.toBytes
    ∧ Filled front L) ?_ ?_ calls List.prefix_rfl
  · exact ⟨fresh, toBytes_fresh.symm, filled_fresh⟩
  · intro front c hfront ⟨L, hdisk, hL⟩
    have hshort := hfront.length_le
    rw [List.length_append, List.length_singleton] at hshort
    have hok := h front c hfront
    rw [hdisk, hL.writeFile] at hok
    refine ⟨(L.write c.name (host c.path)).2, ?_, hL.write (by omega) hok⟩
    rw [runWrites_append, hdisk, writeMounted_toBytes L hL.room]

/-- Of the names that fit into the directory none comes twice. -/
theorem nodup (h : Succeeds host calls) (hlen : calls.length ≤ 15) :
    (calls.map WriteCall.name).Nodup := by
  refine prefix_induction (P := fun front => (front.map WriteCall.name).Nodup) ?_ ?_ calls
    List.prefix_rfl
  · exact List.nodup_nil
  · intro front c hfront hnodup
    have hshort := hfront.length_le
    rw [List.length_append, List.length_singleton] at hshort
    have hbefore : Succeeds host front := h.of_prefix ((List.prefix_append ..).trans hfront)
    obtain ⟨L, hdisk, hL⟩ := hbefore.filled (by omega)
    have hok := h front c hfront
    rw [hdisk, hL.writeFile] at hok
    have hnew := (hL.find_eq_none_iff (by omega)).mp (write_success_iff.mp hok).1.2
    rw [List.map_append, List.map_singleton, ← List.concat_eq_append]
    exact hnodup.concat hnew

/-- At most `n` names come from at most `n` calls. -/
theorem length_le_of_dedup (h : Succeeds host calls) {n : Nat} (hn : n ≤ 14)
    (hnames : (calls.map WriteCall.name).dedup.length ≤ n) : calls.length ≤ n := by
  by_contra hlong
  have hshort : (calls.take 15).length ≤ 15 := by
    rw [List.length_take]
    exact Nat.min_le_left _ _
  have hnodup := (h.of_prefix (List.take_prefix 15 calls)).nodup hshort
  have hsub : (calls.take 15).map WriteCall.name ⊆ (calls.map WriteCall.name).dedup := by
    intro name hname
    rw [List.mem_dedup]
    exact ((List.take_sublist 15 calls).map _).subset hname
  have hle := (hnodup.subperm hsub).length_le
  rw [List.length_map, List.length_take] at hle
  omega

end Succeeds

/-- Distinct names with files that can be opened and end within 255 blocks:
such calls succeed up to the last slot. -/
theorem succeeds_of_distinct {host : Host} {calls : List WriteCall} (hlen : calls.length ≤ 15)
    (hnodup : (calls.map WriteCall.name).Nodup)
    (hnames : ∀ c ∈ calls, 0 < c.name.length ∧ c.name.length ≤ 16)
    (htexts : ∀ c ∈ calls, ∃ text, host c.path = some text ∧ text.length < 255 * 255) :
    Succeeds host calls := by
  have hrun : ∀ front, front <+: calls → Succeeds host front := by
    refine prefix_induction ?_ ?_
    · intro front c hfront
      have hnil := List.prefix_nil.mp hfront
      simp at hnil
    · intro front c hfront ih front' c' hfront'
      rw [List.prefix_concat_iff] at hfront'
      rcases hfront' with heq | hbefore
      · obtain ⟨rfl, hc⟩ := List.append_inj' heq rfl
        obtain rfl : c' = c := by simpa using hc
        have hshort := hfront.length_le
        rw [List.length_append, List.length_singleton] at hshort
        obtain ⟨L, hdisk, hL⟩ := ih.filled (by omega)
        have hmem : c' ∈ calls := mem_of_snoc hfront
        have hnew : c'.name ∉ front'.map WriteCall.name := by
          have hfirst := hnodup.sublist (hfront.sublist.map WriteCall.name)
          rw [List.map_append, List.nodup_append] at hfirst
          intro hc'
          exact hfirst.2.2 _ hc' c'.name (by simp) rfl
        rw [hdisk, hL.writeFile]
        exact write_success_iff.mpr ⟨⟨hnames c' hmem, (hL.find_eq_none_iff (by omega)).mpr hnew⟩,
          htexts c' hmem⟩
      · exact ih front' c' hbefore
  exact hrun calls List.prefix_rfl

/-! ## Fifteen calls -/

/-- A call with the letter number `i` as its name. -/
def letter (i : Nat) : WriteCall :=
  ⟨.ofBytes [UInt8.ofNat (97 + i)], .ofBytes []⟩

/-- The calls with the first `n` letters. -/
def letters (n : Nat) : List WriteCall :=
  (List.range n).map letter

theorem letters_succ (n : Nat) : letters (n + 1) = letters n ++ [letter n] := by
  rw [letters, List.range_succ, List.map_append]
  rfl

theorem letters_prefix_letters {n : Nat} (h : n ≤ 15) : letters n <+: letters 15 := by
  rw [letters, letters, List.range_eq_range', List.range_eq_range',
    show 15 = n + (15 - n) by omega, ← List.range'_append_1, List.map_append]
  exact List.prefix_append _ _

theorem succeeds_letters : Succeeds (fun _ => some []) (letters 15) := by
  apply succeeds_of_distinct
  · decide
  · decide
  · decide
  · exact fun c _ => ⟨[], rfl, by decide⟩

end DistributedAscii.FileSystem
