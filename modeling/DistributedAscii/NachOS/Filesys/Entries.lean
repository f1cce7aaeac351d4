import DistributedAscii.NachOS.Filesys.Directory

/-!
# NachOS — the entries of a directory

The slots of the table are in no order: what the directory says are the
entries in use (`Directory.used`), up to a permutation. `Add` and `Remove`
change it by one entry.
-/

namespace DistributedAscii.NachOS.Filesys

namespace Directory

variable {directory : Directory} {name : Name} {entry : DirectoryEntry}

/-- The entries in use. -/
def used (directory : Directory) : List DirectoryEntry :=
  directory.table.filter DirectoryEntry.inUse

theorem used_new (size : Nat) (junk : Nat → DirectoryEntry) : (new size junk).used = [] := by
  rw [used, List.filter_eq_nil_iff]
  intro entry hentry
  obtain ⟨i, -, rfl⟩ := List.mem_map.mp hentry
  simp

theorem length_used_le (directory : Directory) : directory.used.length ≤ directory.tableSize :=
  List.length_filter_le ..

/-- The slot that a search finds, and the table with that slot changed. -/
theorem split_of_findIdx? {table : List DirectoryEntry} {p : DirectoryEntry → Bool} {i : Nat}
    (h : table.findIdx? p = some i) :
    ∃ front entry back, table = front ++ entry :: back ∧ p entry = true ∧
      table[i]? = some entry ∧ ∀ f, table.modify i f = front ++ f entry :: back := by
  obtain ⟨hi, hp, -⟩ := List.findIdx?_eq_some_iff_getElem.mp h
  refine ⟨table.take i, table[i], table.drop (i + 1), ?_, hp, List.getElem?_eq_getElem hi,
    fun f => List.modify_eq_take_cons_drop hi⟩
  rw [List.cons_getElem_drop_succ, List.take_append_drop]

theorem FindIndex_eq_none :
    directory.FindIndex name = none ↔ ∀ entry ∈ directory.used, entry.key ≠ name.key := by
  rw [FindIndex, List.findIdx?_eq_none_iff]
  simp only [used, List.mem_filter, Bool.and_eq_false_imp, and_imp]
  refine forall₂_congr fun entry _ => imp_congr_right fun _ => ?_
  rw [Ne, ← DirectoryEntry.strncmpEq_name, Bool.not_eq_true]

/-- A name that is found is that of an entry in use. -/
theorem FindIndex_some {i : Nat} (h : directory.FindIndex name = some i) :
    ∃ front entry back, directory.table = front ++ entry :: back ∧ entry.inUse = true ∧
      entry.key = name.key ∧ directory.table[i]? = some entry ∧
      ∀ f, directory.table.modify i f = front ++ f entry :: back := by
  obtain ⟨front, entry, back, htable, hp, hentry, hmodify⟩ := split_of_findIdx? h
  rw [Bool.and_eq_true, DirectoryEntry.strncmpEq_name] at hp
  exact ⟨front, entry, back, htable, hp.1, hp.2, hentry, hmodify⟩

theorem Find_of_absent (h : ∀ entry ∈ directory.used, entry.key ≠ name.key) :
    directory.Find name = -1 := by
  rw [Find, FindIndex_eq_none.mpr h, Option.bind_none]

/-- Names are found by their key. -/
theorem Find_of_mem (hkeys : (directory.used.map DirectoryEntry.key).Nodup)
    (hentry : entry ∈ directory.used) (hkey : entry.key = name.key) :
    directory.Find name = entry.sector.toInt := by
  cases hfind : directory.FindIndex name with
  | none => exact absurd hkey (FindIndex_eq_none.mp hfind entry hentry)
  | some i =>
      obtain ⟨front, found, back, htable, hinUse, hfound, hget, -⟩ := FindIndex_some hfind
      have hmem : found ∈ directory.used := by
        rw [used, htable, List.mem_filter]
        exact ⟨by simp, hinUse⟩
      have hsame : found = entry :=
        List.inj_on_of_nodup_map hkeys hmem hentry (hfound.trans hkey.symm)
      rw [Find, hfind, Option.bind_some, hget, hsame]

theorem Add_of_full (hfull : directory.used.length = directory.tableSize) (newSector : Int32) :
    directory.Add name newSector = (directory, false) := by
  have hall : ∀ entry ∈ directory.table, entry.inUse = true :=
    List.length_filter_eq_length_iff.mp hfull
  have hnone : directory.table.findIdx? (fun entry => !entry.inUse) = none := by
    rw [List.findIdx?_eq_none_iff]
    intro entry hentry
    rw [hall entry hentry, Bool.not_true]
  rw [Add]
  split
  · rfl
  · rw [hnone]

/-- **`Add`**: one more entry in use, with the key and the sector. -/
theorem Add_spec (name : Name) (habsent : ∀ entry ∈ directory.used, entry.key ≠ name.key)
    (hroom : directory.used.length < directory.tableSize) (newSector : Int32) :
    ∃ directory' entry, directory.Add name newSector = (directory', true) ∧
      directory'.tableSize = directory.tableSize ∧ entry.key = name.key ∧
      entry.sector = newSector ∧ directory'.used.Perm (entry :: directory.used) := by
  cases hfree : directory.table.findIdx? (fun entry => !entry.inUse) with
  | none =>
      rw [List.findIdx?_eq_none_iff] at hfree
      have hfull : directory.used.length = directory.tableSize :=
        List.length_filter_eq_length_iff.mpr fun entry hentry => by simpa using hfree entry hentry
      omega
  | some i =>
      obtain ⟨front, entry, back, htable, hunused, -, hmodify⟩ := split_of_findIdx? hfree
      have hunused : entry.inUse = false := by simpa using hunused
      have hinUse : (((entry.setInUse true).setName name).setSector newSector).inUse = true := by
        rw [DirectoryEntry.setSector, DirectoryEntry.inUse_assign _ (by decide),
          DirectoryEntry.setName, DirectoryEntry.inUse_assign _ (by decide),
          DirectoryEntry.inUse_setInUse]
      refine ⟨{
          table := front ++ ((entry.setInUse true).setName name).setSector newSector :: back },
        ((entry.setInUse true).setName name).setSector newSector, ?_, ?_, ?_, ?_, ?_⟩
      · rw [Add, if_neg (by rw [not_not, FindIndex_eq_none]; exact habsent), hfree]
        simp only [hmodify]
      · simp [tableSize, htable]
      · rw [DirectoryEntry.key_setSector, DirectoryEntry.key_setName]
      · exact DirectoryEntry.sector_setSector ..
      · rw [used, used, htable, List.filter_append, List.filter_append,
          List.filter_cons_of_pos hinUse, List.filter_cons_of_neg (by simp [hunused])]
        exact List.perm_middle

/-- **`Remove`**: the entry with the key is no longer in use. -/
theorem Remove_spec (hkeys : (directory.used.map DirectoryEntry.key).Nodup)
    (hentry : entry ∈ directory.used) (hkey : entry.key = name.key) :
    ∃ directory', directory.Remove name = (directory', true) ∧
      directory'.tableSize = directory.tableSize ∧
      directory.used.Perm (entry :: directory'.used) := by
  cases hfind : directory.FindIndex name with
  | none => exact absurd hkey (FindIndex_eq_none.mp hfind entry hentry)
  | some i =>
      obtain ⟨front, found, back, htable, hinUse, hfound, -, hmodify⟩ := FindIndex_some hfind
      have hmem : found ∈ directory.used := by
        rw [used, htable, List.mem_filter]
        exact ⟨by simp, hinUse⟩
      obtain rfl : found = entry :=
        List.inj_on_of_nodup_map hkeys hmem hentry (hfound.trans hkey.symm)
      refine ⟨{ table := front ++ found.setInUse false :: back }, ?_, ?_, ?_⟩
      · rw [Remove, hfind]
        simp only [hmodify]
      · simp [tableSize, htable]
      · rw [used, used, htable, List.filter_append, List.filter_append,
          List.filter_cons_of_pos hinUse, List.filter_cons_of_neg (by simp)]
        exact List.perm_middle

end Directory

end DistributedAscii.NachOS.Filesys
