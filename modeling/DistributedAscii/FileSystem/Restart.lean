import DistributedAscii.FileSystem.Failure

/-!
# FileSystem — a second start

A program that serves the disk mounts it and calls `writeFile` for each of
its files, at every start. A call for a new name takes its slot before it
can fail, so behind the first run every name of the list has an entry, and
the lookup stops each call of the second run in front of its first write.
-/

namespace DistributedAscii.FileSystem

open Lib.Runs Layout

/-- `mountSystem` and a `writeFile` for every pair of the list. -/
def startup (host : Host) (calls : List WriteCall) (store : Option Disk) : Option Disk :=
  calls.foldl (fun store c => (writeFile host c.name c.path store).2) (some (mountSystem store))

/-- The files of `main` of the ASCII server. -/
def mainFiles : List WriteCall :=
  [⟨.ofBytes (bytes "Personal.txt"), .ofBytes (bytes "ascii/Personal.txt")⟩,
    ⟨.ofBytes (bytes "Goku.txt"), .ofBytes (bytes "ascii/Goku.txt")⟩,
    ⟨.ofBytes (bytes "Gogeta.txt"), .ofBytes (bytes "ascii/Gogeta.txt")⟩,
    ⟨.ofBytes (bytes "Foca.txt"), .ofBytes (bytes "ascii/Foca.txt")⟩,
    ⟨.ofBytes (bytes "CocaCola.txt"), .ofBytes (bytes "ascii/CocaCola.txt")⟩,
    ⟨.ofBytes (bytes "Exitante.txt"), .ofBytes (bytes "ascii/Exitante.txt")⟩,
    ⟨.ofBytes (bytes "GoyoCat.txt"), .ofBytes (bytes "ascii/GoyoCat.txt")⟩]

/-- The entries are the names that the calls can store, each once. -/
structure Recorded (calls : List WriteCall) (L : Layout) : Prop where
  taken : ∀ c ∈ calls, 0 < c.name.length → c.name.length ≤ 16 →
    c.name ∈ L.entries.map Entry.name
  asked : ∀ e ∈ L.entries, ∃ c ∈ calls, c.name = e.name
  nodup : (L.entries.map Entry.name).Nodup

/-- The names of 1 to 15 characters, each once. -/
def shortNames (calls : List WriteCall) : List CString :=
  ((calls.map WriteCall.name).filter fun n => 0 < n.length ∧ n.length ≤ 15).dedup

section Calls

variable {host : Host} {calls front : List WriteCall} {L : Layout}

theorem recorded_fresh : Recorded [] fresh where
  taken := fun _ h => absurd h List.not_mem_nil
  asked := fun _ h => absurd h List.not_mem_nil
  nodup := List.nodup_nil

namespace Recorded

/-- There are no more entries than names in the list. -/
theorem length_le (h : Recorded front L) (hfront : front <+: calls)
    (h16 : ∀ c ∈ calls, c.name.length ≠ 16) : L.entries.length ≤ (shortNames calls).length := by
  have hsub : L.entries.map Entry.name ⊆ shortNames calls := by
    intro name hname
    obtain ⟨e, he, rfl⟩ := List.mem_map.mp hname
    obtain ⟨c, hc, hce⟩ := h.asked e he
    have hmem := hfront.subset hc
    have hne : e.name.length ≠ 16 := by
      rw [← hce]
      exact h16 c hmem
    have hpos := e.name_pos
    have hle := e.name_le
    rw [shortNames, List.mem_dedup, List.mem_filter]
    refine ⟨List.mem_map.mpr ⟨c, hmem, hce⟩, ?_⟩
    simp only [decide_eq_true_eq]
    omega
  have hlen := (h.nodup.subperm hsub).length_le
  rwa [List.length_map] at hlen

/-- **One call**: its name is recorded, whatever becomes of its content. -/
theorem write (h : Recorded front L) (h14 : L.entries.length ≤ 14) (c : WriteCall)
    (content : Option Bytes) : Recorded (front ++ [c]) (L.write c.name content).2 := by
  by_cases hnew : (0 < c.name.length ∧ c.name.length ≤ 16) ∧ L.find c.name = none
  · obtain ⟨⟨hpos, hle⟩, hfind⟩ := hnew
    have hfresh := (L.find_eq_none_iff h14).mp hfind
    have hnames : (L.write c.name content).2.entries.map Entry.name
        = L.entries.map Entry.name ++ [c.name] := by
      rw [write_entries (by omega) hpos hle hfind, List.map_append]
      rfl
    refine ⟨?_, ?_, ?_⟩
    · intro d hd hdpos hdle
      rw [hnames, List.mem_append]
      rcases List.mem_append.mp hd with hd | hd
      · exact .inl (h.taken d hd hdpos hdle)
      · rw [List.mem_singleton.mp hd]
        exact .inr (List.mem_singleton_self _)
    · intro e he
      rw [write_entries (by omega) hpos hle hfind] at he
      rcases List.mem_append.mp he with he | he
      · obtain ⟨d, hd, hde⟩ := h.asked e he
        exact ⟨d, List.mem_append_left _ hd, hde⟩
      · rw [List.mem_singleton.mp he]
        exact ⟨c, List.mem_append_right _ (List.mem_singleton_self c), rfl⟩
    · rw [hnames, ← List.concat_eq_append]
      exact h.nodup.concat hfresh
  · -- the call is rejected: a name that could be stored is there
    rw [write_rejected L hnew]
    refine ⟨?_, ?_, h.nodup⟩
    · intro d hd hdpos hdle
      rcases List.mem_append.mp hd with hd | hd
      · exact h.taken d hd hdpos hdle
      · obtain rfl := List.mem_singleton.mp hd
        by_contra hout
        exact hnew ⟨⟨hdpos, hdle⟩, (L.find_eq_none_iff h14).mpr hout⟩
    · intro e he
      obtain ⟨d, hd, hde⟩ := h.asked e he
      exact ⟨d, List.mem_append_left _ hd, hde⟩

/-- A call of the second run writes nothing. -/
theorem writeFile_again (h : Recorded calls L) (h14 : L.entries.length ≤ 14) {c : WriteCall}
    (hc : c ∈ calls) : writeFile host c.name c.path (some L.toBytes)
      = (exitFailure, some L.toBytes) := by
  rw [writeFile, writeMounted_toBytes L (.inl (by omega)), write_rejected]
  rintro ⟨⟨hpos, hle⟩, hfind⟩
  exact (L.find_eq_none_iff h14).mp hfind (h.taken c hc hpos hle)

end Recorded

/-- The first run records every name. -/
theorem recorded_run (host : Host) (h16 : ∀ c ∈ calls, c.name.length ≠ 16)
    (hnames : (shortNames calls).length ≤ 14) :
    ∃ L, runWrites host calls = L.toBytes ∧ Recorded calls L ∧ L.entries.length ≤ 14 := by
  refine prefix_induction (P := fun front => ∃ L, runWrites host front = L.toBytes
    ∧ Recorded front L ∧ L.entries.length ≤ 14) ?_ ?_ calls List.prefix_rfl
  · exact ⟨fresh, toBytes_fresh.symm, recorded_fresh, by decide⟩
  · intro front c hfront ⟨L, hdisk, hL, h14⟩
    have hnext := hL.write h14 c (host c.path)
    refine ⟨(L.write c.name (host c.path)).2, ?_, hnext, ?_⟩
    · rw [runWrites_append, hdisk, writeMounted_toBytes L (.inl (by omega))]
    · exact (hnext.length_le hfront h16).trans hnames

theorem startup_none (host : Host) (calls : List WriteCall) :
    startup host calls none = some (runWrites host calls) := by
  induction calls using List.reverseRecOn with
  | nil => rfl
  | append_singleton calls c ih =>
      rw [startup] at ih
      rw [startup, List.foldl_append, ih, runWrites_append]
      rfl

/-- **A second start changes nothing**, whatever the host files were at the
first start and are at the second. -/
theorem startup_idempotent (host host' : Host) (h16 : ∀ c ∈ calls, c.name.length ≠ 16)
    (hnames : (shortNames calls).length ≤ 14) :
    startup host' calls (startup host calls none) = startup host calls none := by
  obtain ⟨L, hdisk, hL, h14⟩ := recorded_run host h16 hnames
  have hrun : ∀ more, more ⊆ calls →
      more.foldl (fun store c => (writeFile host' c.name c.path store).2) (some L.toBytes)
        = some L.toBytes := by
    intro more hmore
    induction more with
    | nil => rfl
    | cons c rest ih =>
        rw [List.foldl_cons, hL.writeFile_again h14 (hmore List.mem_cons_self)]
        exact ih fun d hd => hmore (List.mem_cons_of_mem _ hd)
  rw [startup_none, hdisk]
  exact hrun calls fun _ hc => hc

/-- The ASCII server, started again without its files. -/
theorem startup_idempotent_main :
    startup (fun _ => none) mainFiles (startup (fun _ => some (bytes "=^.^=")) mainFiles none)
      = startup (fun _ => some (bytes "=^.^=")) mainFiles none := by
  apply startup_idempotent
  all_goals decide

end Calls

end DistributedAscii.FileSystem
