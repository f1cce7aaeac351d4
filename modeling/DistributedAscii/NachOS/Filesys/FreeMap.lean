import DistributedAscii.NachOS.Filesys.OpenFile

/-!
# NachOS — the sectors of a header and the free ones

`Allocate` moves the first clear bits of the map into a header and
`Deallocate` moves them back: what is said of the map is said of the list
of its clear bits, `BitMap.clearBits`.
-/

namespace DistributedAscii.NachOS

/-- A negative number is rounded towards zero. -/
theorem divRoundUp_neg (m s : Nat) : divRoundUp (-m) s = -((m / s : Nat) : Int) := by
  have htdiv : (m : Int).tdiv s = (m / s : Nat) := (Int.ofNat_tdiv m s).symm
  have htmod : (m : Int).tmod s = (m % s : Nat) := (Int.ofNat_tmod m s).symm
  rw [divRoundUp, Int.neg_tdiv, Int.neg_tmod, htdiv, htmod, if_neg (by omega), Int.add_zero]

theorem divRoundUp_le {n : Int} {s k : Nat} (hs : 0 < s) (h : n ≤ (k * s : Nat)) :
    divRoundUp n s ≤ k := by
  obtain ⟨m, rfl | rfl⟩ := n.eq_nat_or_neg
  · have hm : m ≤ k * s := by omega
    rw [divRoundUp_natCast]
    rcases Nat.lt_or_eq_of_le hm with hlt | rfl
    · have hdiv := (Nat.div_lt_iff_lt_mul hs).mpr hlt
      split <;> omega
    · rw [Nat.mul_div_cancel _ hs, Nat.mul_mod_left]
      simp
  · rw [divRoundUp_neg]
    exact (Int.neg_nonpos_of_nonneg (Int.natCast_nonneg _)).trans (Int.natCast_nonneg k)

theorem le_divRoundUp {n low : Int} {s : Nat} (hlow : low ≤ n) (h0 : low ≤ 0) :
    low ≤ divRoundUp n s := by
  obtain ⟨m, rfl | rfl⟩ := n.eq_nat_or_neg
  · rw [divRoundUp_natCast]
    exact h0.trans (Int.natCast_nonneg _)
  · rw [divRoundUp_neg]
    have := Nat.div_le_self m s
    omega

namespace BitMap

variable {b : BitMap} {i : Nat}

theorem clearBits_new (n : Nat) : (new n).clearBits = List.range n := by
  rw [clearBits, List.filter_eq_self.mpr]
  · rfl
  · simp [bit_new]

theorem numBits_clearBit (b : BitMap) (i : Nat) : (b.clearBit i).numBits = b.numBits := rfl

/-- A bit that was set is one more clear bit. -/
theorem clearBits_clearBit (hi : i < b.numBits) (hset : i ∉ b.clearBits) :
    (b.clearBit i).clearBits.Perm (i :: b.clearBits) := by
  rw [List.perm_ext_iff_of_nodup (nodup_clearBits _)
    (List.nodup_cons.mpr ⟨hset, b.nodup_clearBits⟩)]
  intro j
  rw [mem_clearBits, List.mem_cons, mem_clearBits, bit_clearBit hi, numBits_clearBit]
  by_cases hj : j = i
  · simp [hj, hi]
  · simp [hj]

theorem bit_of_not_mem (hi : i < b.numBits) (hset : i ∉ b.clearBits) : b.bit i = true := by
  by_contra hclear
  exact hset (mem_clearBits.mpr ⟨hi, by simpa using hclear⟩)

end BitMap

namespace Filesys

namespace FileHeader

theorem sectors_eq_of_take {hdr : FileHeader} {free : List Nat} {n : Nat}
    (hcount : hdr.numSectors.toInt.toNat = n) (hsmall : ∀ s ∈ free, s < 2 ^ 31)
    (htake : hdr.dataSectors.take n = free.map Int32.ofNat) : hdr.sectors = free := by
  rw [sectors, hcount, htake, List.map_map]
  refine (List.map_congr_left fun s hs => ?_).trans (List.map_id free)
  rw [Function.comp_apply, Int32.toInt_ofNat_of_lt (hsmall s hs), Int.toNat_natCast, id]

/-- The loop of `Allocate` takes the first clear bits. -/
theorem allocateLoop_spec (hdr : FileHeader) (freeMap : BitMap) {i n : Nat}
    (hn : n ≤ freeMap.clearBits.length) (hi : i + n ≤ NumDirect) :
    ∃ hdr' freeMap', hdr.allocateLoop freeMap i n = (hdr', freeMap') ∧
      hdr'.numBytes = hdr.numBytes ∧ hdr'.numSectors = hdr.numSectors ∧
      hdr'.dataSectors.take (i + n)
        = hdr.dataSectors.take i ++ (freeMap.clearBits.take n).map Int32.ofNat ∧
      freeMap'.numBits = freeMap.numBits ∧ freeMap'.clearBits = freeMap.clearBits.drop n := by
  induction n generalizing hdr freeMap i with
  | zero => exact ⟨hdr, freeMap, rfl, rfl, rfl, by simp, rfl, rfl⟩
  | succ n ih =>
      obtain ⟨s, rest, hclear⟩ := List.exists_cons_of_ne_nil
        (List.ne_nil_of_length_pos (show 0 < freeMap.clearBits.length by omega))
      have hrest := BitMap.clearBits_markBit hclear
      have hlength : n ≤ rest.length := by
        rw [hclear, List.length_cons] at hn
        omega
      obtain ⟨hdr', freeMap', hloop, hbytes, hsectors, hdata, hbits, hdrop⟩ :=
        ih (hdr.setDataSector i (.ofInt s)) (freeMap.markBit s) (i := i + 1)
          (by rw [hrest]; exact hlength) (by omega)
      refine ⟨hdr', freeMap', ?_, hbytes, hsectors, ?_, hbits, ?_⟩
      · rw [allocateLoop, BitMap.Find_of_clearBits hclear, hloop]
      · have hplace : i < hdr.dataSectors.length := by
          rw [hdr.numDirect]
          omega
        rw [show i + (n + 1) = i + 1 + n by omega, hdata, hclear, hrest, List.take_succ_cons,
          List.map_cons, setDataSector, List.take_succ_eq_append_getElem (by simpa using hplace),
          List.getElem_set_self, List.take_set_of_le (Nat.le_refl i), List.append_assoc]
        rfl
      · rw [hdrop, hrest, hclear, List.drop_succ_cons]

/-- **`Allocate`**: a sound header over the first free sectors. -/
theorem Allocate_spec (hdr : FileHeader) (freeMap : BitMap) (fileSize : Int32)
    (hbits : freeMap.numBits = NumSectors) (hsize : fileSize.toInt ≤ MaxFileSize)
    (hroom : divRoundUp fileSize.toInt SectorSize ≤ freeMap.clearBits.length) :
    ∃ hdr' freeMap', hdr.Allocate freeMap fileSize = some (hdr', freeMap', true) ∧
      hdr'.Sound ∧ hdr'.numBytes = fileSize ∧ freeMap'.numBits = NumSectors ∧
      freeMap.clearBits = hdr'.sectors ++ freeMap'.clearBits := by
  obtain ⟨count, hcount⟩ : ∃ count, count = divRoundUp fileSize.toInt SectorSize := ⟨_, rfl⟩
  have hfits : count ≤ NumDirect := hcount ▸ divRoundUp_le (by decide) hsize
  have hlow : -2 ^ 31 ≤ count :=
    hcount ▸ le_divRoundUp fileSize.le_toInt (by decide)
  have hword : (Int32.ofInt count).toInt = count :=
    Int32.toInt_ofInt_of_le (by omega) (by simp only [NumDirect, SectorSize] at *; omega)
  rw [← hcount] at hroom
  obtain ⟨hdr', freeMap', hloop, hbytes, hnum, hdata, hbits', hdrop⟩ :=
    allocateLoop_spec { hdr with numBytes := fileSize, numSectors := .ofInt count } freeMap
      (i := 0) (n := count.toNat) (by omega) (by omega)
  have hnum : hdr'.numSectors.toInt = count := by rw [hnum, hword]
  have hmem : ∀ s ∈ freeMap.clearBits.take count.toNat, s < NumSectors := fun s hs =>
    hbits ▸ (BitMap.mem_clearBits.mp (List.mem_of_mem_take hs)).1
  rw [Nat.zero_add, List.take_zero, List.nil_append] at hdata
  have hsectors : hdr'.sectors = freeMap.clearBits.take count.toNat :=
    sectors_eq_of_take (by rw [hnum])
      (fun s hs => (hmem s hs).trans (by decide)) hdata
  refine ⟨hdr', freeMap', ?_, ⟨?_, ?_, ?_, ?_⟩, hbytes, hbits'.trans hbits, ?_⟩
  · rw [Allocate, ← hcount, if_neg (by rw [← BitMap.length_clearBits]; omega), if_neg (by omega),
      hloop]
  · rw [hnum, hbytes, hcount]
  · omega
  · intro sector hsector
    rw [hnum, hdata] at hsector
    obtain ⟨s, hs, rfl⟩ := List.mem_map.mp hsector
    have hlt := hmem s hs
    rw [OnDisk, Int32.toInt_ofNat_of_lt (hlt.trans (by decide))]
    omega
  · rw [hsectors]
    exact freeMap.nodup_clearBits.sublist (List.take_sublist ..)
  · rw [hsectors, hdrop, List.take_append_drop]

theorem deallocateLoop_spec (freeMap : BitMap) {sectors : List Int32}
    (hdisk : ∀ sector ∈ sectors, freeMap.InRange sector.toInt)
    (hnodup : (sectors.map fun sector => sector.toInt.toNat).Nodup)
    (hmarked : ∀ sector ∈ sectors, sector.toInt.toNat ∉ freeMap.clearBits) :
    ∃ freeMap', deallocateLoop freeMap sectors = some freeMap' ∧
      freeMap'.numBits = freeMap.numBits ∧
      freeMap'.clearBits.Perm
        ((sectors.map fun sector => sector.toInt.toNat) ++ freeMap.clearBits) := by
  induction sectors generalizing freeMap with
  | nil => exact ⟨freeMap, rfl, rfl, .refl _⟩
  | cons sector rest ih =>
      have hrange := hdisk sector List.mem_cons_self
      have hlt := hrange.toNat_lt
      have hset := hmarked sector List.mem_cons_self
      have hperm := BitMap.clearBits_clearBit hlt hset
      rw [List.map_cons, List.nodup_cons] at hnodup
      obtain ⟨freeMap', hloop, hbits, hrest⟩ :=
        ih (freeMap.clearBit sector.toInt.toNat)
          (fun other hother => hdisk other (List.mem_cons_of_mem _ hother)) hnodup.2
          (fun other hother hmem => by
            rw [hperm.mem_iff, List.mem_cons] at hmem
            rcases hmem with heq | hmem
            · exact hnodup.1 (heq ▸ List.mem_map_of_mem hother)
            · exact hmarked other (List.mem_cons_of_mem _ hother) hmem)
      refine ⟨freeMap', ?_, hbits, ?_⟩
      · rw [deallocateLoop, BitMap.Test, if_pos hrange, Option.bind_eq_bind, Option.bind_some,
          BitMap.bit_of_not_mem hlt hset, if_pos rfl, BitMap.Clear, if_pos hrange,
          Option.bind_eq_bind, Option.bind_some]
        exact hloop
      · rw [List.map_cons, List.cons_append]
        exact hrest.trans ((hperm.append_left _).trans List.perm_middle)

/-- **`Deallocate`** gives the sectors of a sound header back. -/
theorem Deallocate_spec {hdr : FileHeader} (h : hdr.Sound) (freeMap : BitMap)
    (hbits : freeMap.numBits = NumSectors) (hmarked : ∀ s ∈ hdr.sectors, s ∉ freeMap.clearBits) :
    ∃ freeMap', hdr.Deallocate freeMap = some freeMap' ∧ freeMap'.numBits = NumSectors ∧
      freeMap'.clearBits.Perm (hdr.sectors ++ freeMap.clearBits) := by
  obtain ⟨freeMap', hloop, hbits', hperm⟩ := deallocateLoop_spec freeMap
    (fun sector hsector => by
      obtain ⟨h0, hlt⟩ := h.onDisk sector hsector
      exact ⟨h0, by rw [hbits]; exact hlt⟩)
    h.nodup (fun sector hsector => hmarked _ (List.mem_map_of_mem hsector))
  have hfits := h.fits
  exact ⟨freeMap', by rw [Deallocate, if_neg (by omega), hloop], hbits'.trans hbits, hperm⟩

end FileHeader

end Filesys

end DistributedAscii.NachOS
