import DistributedAscii.NachOS.Loader

/-!
# NachOS — what the loader clears

The constructor clears physical memory from 0 on, as much as the program is
large, whatever its frames are. What it finds in the marked pages there is
lost, and what stood in its own frames behind stays. That is no harm exactly
where the one and the other were zero before; on a machine that runs nothing
else both are none.
-/

namespace DistributedAscii.NachOS

open Lib.Paging

namespace AddrSpace

/-- The pages that were marked are as before, and what is outside the two
segments reads as zero. -/
structure LoadsAlone (noffH : NoffSegments) (MiMapa : BitMap) (machine : Machine)
    (loaded : Loaded) : Prop where
  others : ∀ p : Nat, MiMapa.Test p = some true → ∀ offset < PageSize,
    loaded.machine.mainMemory (p * PageSize + offset) =
      machine.mainMemory (p * PageSize + offset)
  zero : ∀ v < noffH.numPages * PageSize, ¬noffH.code.Covers v → ¬noffH.initData.Covers v →
    loaded.byteAt v = .ok 0

/-- The marked pages that are cleared were zero, and so was what is not
cleared of the frames behind, outside the segments. -/
structure ZeroBefore (noffH : NoffSegments) (MiMapa : BitMap) (mainMemory : Nat → Byte) :
    Prop where
  others : ∀ p < noffH.numPages, MiMapa.bit p = true → ∀ offset < PageSize,
    mainMemory (p * PageSize + offset) = 0
  own : ∀ v < noffH.numPages * PageSize, ¬noffH.code.Covers v → ¬noffH.initData.Covers v →
    noffH.numPages ≤ (frames MiMapa noffH.numPages).getD (v / PageSize) 0 →
    mainMemory (locate (frames MiMapa noffH.numPages) PageSize v) = 0

variable {executable : OpenFile} {noffH : NoffSegments} {MiMapa : BitMap} {machine : Machine}
  {loaded : Loaded}

/-- Where no byte of a segment goes, memory is as `bzero` leaves it. -/
theorem mainMemory_elsewhere (hread : NoffSegments.read executable = some noffH)
    (hinside : noffH.Inside) (hbits : MiMapa.numBits = NumPhysPages)
    (hfree : noffH.numPages ≤ MiMapa.NumClear)
    (h : loadExecutable executable MiMapa machine = some loaded) {p : Nat}
    (hp : ∀ v < noffH.numPages * PageSize, noffH.code.Covers v ∨ noffH.initData.Covers v →
      locate (frames MiMapa noffH.numPages) PageSize v ≠ p) :
    loaded.machine.mainMemory p =
      if p < noffH.numPages * PageSize then 0 else machine.mainMemory p := by
  obtain ⟨-, htable, m, hm, hm'⟩ := loadExecutable_some h hread
  have hlaid := laid_findPages hinside hbits hfree
  rw [htable] at hm hm'
  rw [loadSegment_elsewhere hlaid.mapped hlaid.initData hm' fun v hv =>
      hp v (hlaid.length_eq ▸ lt_of_covers hlaid.initData hv) (.inr hv),
    loadSegment_elsewhere hlaid.mapped hlaid.code hm fun v hv =>
      hp v (hlaid.length_eq ▸ lt_of_covers hlaid.code hv) (.inl hv)]
  rfl

/-- A page that was marked is not among the frames. -/
theorem mainMemory_marked (hread : NoffSegments.read executable = some noffH)
    (hinside : noffH.Inside) (hbits : MiMapa.numBits = NumPhysPages)
    (hfree : noffH.numPages ≤ MiMapa.NumClear)
    (h : loadExecutable executable MiMapa machine = some loaded) {p offset : Nat}
    (hmarked : MiMapa.bit p = true) (hoffset : offset < PageSize) :
    loaded.machine.mainMemory (p * PageSize + offset) =
      if p < noffH.numPages then 0 else machine.mainMemory (p * PageSize + offset) := by
  have hpage : p * PageSize + offset < noffH.numPages * PageSize ↔ p < noffH.numPages := by
    simp only [PageSize] at *
    omega
  have hapart : ∀ v < noffH.numPages * PageSize, noffH.code.Covers v ∨ noffH.initData.Covers v →
      locate (frames MiMapa noffH.numPages) PageSize v ≠ p * PageSize + offset := by
    intro v hv _ heq
    have hdiv : locate (frames MiMapa noffH.numPages) PageSize v / PageSize =
        (frames MiMapa noffH.numPages).getD (v / PageSize) 0 := locate_div (by decide) v
    have hframe : (frames MiMapa noffH.numPages).getD (v / PageSize) 0 ∈
        frames MiMapa noffH.numPages := getD_mem (by rwa [length_frames hfree])
    have hclear := (BitMap.mem_clearBits.mp (List.mem_of_mem_take hframe)).2
    have hp : (p * PageSize + offset) / PageSize = p := by
      simp only [PageSize] at *
      omega
    rw [← hdiv, heq, hp, hmarked] at hclear
    cases hclear
  rw [mainMemory_elsewhere hread hinside hbits hfree h hapart]
  simp only [hpage]

/-- So is a byte of the space outside the segments, wherever its frame is. -/
theorem mainMemory_outside (hread : NoffSegments.read executable = some noffH)
    (hinside : noffH.Inside) (hbits : MiMapa.numBits = NumPhysPages)
    (hfree : noffH.numPages ≤ MiMapa.NumClear)
    (h : loadExecutable executable MiMapa machine = some loaded) {v : Nat}
    (hv : v < noffH.numPages * PageSize) (hcode : ¬noffH.code.Covers v)
    (hdata : ¬noffH.initData.Covers v) :
    loaded.machine.mainMemory (locate (frames MiMapa noffH.numPages) PageSize v) =
      if (frames MiMapa noffH.numPages).getD (v / PageSize) 0 < noffH.numPages then 0
      else machine.mainMemory (locate (frames MiMapa noffH.numPages) PageSize v) := by
  have hframes := length_frames hfree
  have hpage : locate (frames MiMapa noffH.numPages) PageSize v < noffH.numPages * PageSize ↔
      (frames MiMapa noffH.numPages).getD (v / PageSize) 0 < noffH.numPages := by
    rw [← Nat.div_lt_iff_lt_mul (by decide), locate_div (by decide)]
  have hapart : ∀ w < noffH.numPages * PageSize, noffH.code.Covers w ∨ noffH.initData.Covers w →
      locate (frames MiMapa noffH.numPages) PageSize w ≠
        locate (frames MiMapa noffH.numPages) PageSize v := by
    intro w hw hcovers heq
    have hsame := locate_inj (mapped_findPages hbits hfree).nodup (hframes.symm ▸ hw)
      (hframes.symm ▸ hv) heq
    subst hsame
    exact hcovers.elim hcode hdata
  rw [mainMemory_elsewhere hread hinside hbits hfree h hapart]
  simp only [hpage]

/-- **The loader minds its own pages** exactly where there was nothing else
to clear, and nothing left to clear. -/
theorem loads_alone_iff (hread : NoffSegments.read executable = some noffH)
    (hinside : noffH.Inside) (hbits : MiMapa.numBits = NumPhysPages)
    (hfree : noffH.numPages ≤ MiMapa.NumClear)
    (h : loadExecutable executable MiMapa machine = some loaded) :
    LoadsAlone noffH MiMapa machine loaded ↔ ZeroBefore noffH MiMapa machine.mainMemory := by
  obtain ⟨haccepted, htable, -⟩ := loadExecutable_some h hread
  have htest : ∀ p : Nat, MiMapa.Test p = some true ↔ p < NumPhysPages ∧ MiMapa.bit p = true := by
    intro p
    simp [BitMap.Test, BitMap.InRange, hbits]
  constructor
  · rintro ⟨hothers, hzero⟩
    constructor
    · intro p hp hmarked offset hoffset
      have hsame :=
        hothers p ((htest p).mpr ⟨hp.trans_le haccepted.numPages, hmarked⟩) offset hoffset
      rwa [mainMemory_marked hread hinside hbits hfree h hmarked hoffset, if_pos hp,
        eq_comm] at hsame
    · intro v hv hcode hdata hbehind
      have hbyte := hzero v hv hcode hdata
      rw [byteAt_eq hbits hfree htable hv,
        mainMemory_outside hread hinside hbits hfree h hv hcode hdata,
        if_neg (Nat.not_lt.mpr hbehind)] at hbyte
      exact Except.ok.inj hbyte
  · rintro ⟨hothers, hown⟩
    constructor
    · intro p hmarked offset hoffset
      have hbit := ((htest p).mp hmarked).2
      rw [mainMemory_marked hread hinside hbits hfree h hbit hoffset]
      split
      case isTrue hp => exact (hothers p hp hbit offset hoffset).symm
      case isFalse => rfl
    · intro v hv hcode hdata
      rw [byteAt_eq hbits hfree htable hv,
        mainMemory_outside hread hinside hbits hfree h hv hcode hdata]
      split
      case isTrue => rfl
      case isFalse hbehind => rw [hown v hv hcode hdata (Nat.le_of_not_lt hbehind)]

/-- A program with nothing but a stack. -/
def stackOnly : OpenFile where
  bytes := [0xad, 0xdf, 0xba, 0] ++ List.replicate 36 0
  length_lt := by decide

def stackOnlyHeader : NoffSegments where
  noffMagic := 0xbadfad
  code := ⟨0, 0, 0⟩
  initData := ⟨0, 0, 0⟩
  uninitData := ⟨0, 0, 0⟩

/-- Page 0 is another program's, with something in it. -/
def firstPageTaken : BitMap :=
  (BitMap.new NumPhysPages).markBit 0

def written : Machine where
  registers _ := 0
  mainMemory _ := 1
  pageTable := []

/-- Another program loses its page. -/
theorem not_loads_alone :
    ∃ loaded, loadExecutable stackOnly firstPageTaken written = some loaded ∧
      ¬LoadsAlone stackOnlyHeader firstPageTaken written loaded := by
  have hcleared : (loadExecutable stackOnly firstPageTaken written).map
      (fun loaded => loaded.machine.mainMemory 0) = some 0 := by decide
  obtain ⟨loaded, hload, hcleared⟩ := Option.map_eq_some_iff.mp hcleared
  refine ⟨loaded, hload, fun halone => ?_⟩
  have hkept := halone.others 0 rfl 0 (by decide)
  rw [show 0 * PageSize + 0 = 0 from rfl, hcleared] at hkept
  cases hkept

/-- Page 0 is marked with nothing in it, and page 20 is another program's. -/
def twoPagesTaken : BitMap :=
  ((BitMap.new NumPhysPages).markBit 0).markBit 20

/-- There is something in every page but 0 and 9. -/
def writtenAround : Machine where
  registers _ := 0
  mainMemory p := if p / PageSize = 0 ∨ p / PageSize = 9 then 0 else 1
  pageTable := []

theorem zeroBefore_writtenAround :
    ZeroBefore boundaryHeader twoPagesTaken writtenAround.mainMemory where
  others p hp hmarked offset hoffset := by
    have hfirst : ∀ p < boundaryHeader.numPages, twoPagesTaken.bit p = true → p = 0 := by decide
    have hpage : (p * PageSize + offset) / PageSize = 0 := by
      rw [hfirst p hp hmarked]
      exact Nat.div_eq_of_lt (by omega)
    exact if_pos (.inl hpage)
  own v hv _ _ hbehind := by
    -- the frames are 1 to 9
    have hlast : ∀ i < boundaryHeader.numPages,
        boundaryHeader.numPages ≤ (frames twoPagesTaken boundaryHeader.numPages).getD i 0 →
          (frames twoPagesTaken boundaryHeader.numPages).getD i 0 = 9 := by decide
    have hlt : v / PageSize < boundaryHeader.numPages :=
      (Nat.div_lt_iff_lt_mul (by decide)).mpr hv
    have hpage : locate (frames twoPagesTaken boundaryHeader.numPages) PageSize v / PageSize
        = 9 := by
      rw [locate_div (by decide), hlast _ hlt hbehind]
    exact if_pos (.inr hpage)

/-- A program of nine pages does no harm there. -/
theorem loads_alone_boundary :
    ∃ loaded, loadExecutable boundary twoPagesTaken writtenAround = some loaded ∧
      LoadsAlone boundaryHeader twoPagesTaken writtenAround loaded := by
  have hread : NoffSegments.read boundary = some boundaryHeader := by decide
  have hinside : boundaryHeader.Inside := by decide
  obtain ⟨loaded, hload⟩ := loadExecutable_isSome hread (by decide) hinside (fun _ => by decide)
    (fun _ => by decide) (rfl : twoPagesTaken.numBits = NumPhysPages) (by decide) writtenAround
  exact ⟨loaded, hload,
    (loads_alone_iff hread hinside rfl (by decide) hload).mpr zeroBefore_writtenAround⟩

/-- Where nothing else is loaded, the frames are the pages that are cleared. -/
theorem zeroBefore_new (noffH : NoffSegments) (hpages : noffH.numPages ≤ NumPhysPages)
    (mainMemory : Nat → Byte) : ZeroBefore noffH (.new NumPhysPages) mainMemory where
  others p _ hmarked := by simp [BitMap.bit_new] at hmarked
  own v hv _ _ hbehind := by
    have hclear : (BitMap.new NumPhysPages).clearBits = List.range NumPhysPages := by
      rw [BitMap.clearBits, List.filter_eq_self.mpr fun i _ => by rw [BitMap.bit_new]; rfl]
      rfl
    have hpage : v / PageSize < noffH.numPages := Nat.div_lt_of_lt_mul (by rwa [Nat.mul_comm])
    rw [frames, hclear, List.getD_eq_getElem?_getD, List.getElem?_take_of_lt hpage,
      List.getElem?_range (by omega), Option.getD_some] at hbehind
    omega

end AddrSpace

end DistributedAscii.NachOS
