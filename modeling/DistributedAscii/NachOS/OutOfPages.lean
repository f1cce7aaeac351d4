import DistributedAscii.Lib.Runs
import DistributedAscii.NachOS.Constructors
import DistributedAscii.NachOS.Zeroing

/-!
# NachOS — running out of pages

Programs are loaded, their threads fork and exit, and each constructor takes
its pages with `Find`, which returns -1 when there is none. The constructors
do not look. So a page table has its pages in the memory, and the memory is
all that is written, as long as there are enough of them for each load and
each fork, and the segments of what is loaded lie in its space. For headers
with nothing odd about them it is exactly as long (`within_iff`).
-/

namespace DistributedAscii.NachOS

open Lib Lib.Runs Lib.Paging Lib.Outcome

/-- A segment with nothing in it, or one whose addresses and positions are
nonnegative and stay within an `int`. -/
def Segment.Plain (segment : Segment) : Prop :=
  0 < segment.size.toInt →
    (0 ≤ segment.virtualAddr.toInt ∧ segment.virtualAddr.toInt + segment.size.toInt < 2 ^ 31) ∧
    (0 ≤ segment.inFileAddr.toInt ∧ segment.inFileAddr.toInt + segment.size.toInt < 2 ^ 31)

/-- A file with a whole header, and plain segments in it. -/
def OpenFile.Plain (file : OpenFile) : Prop :=
  ∃ noffH, NoffSegments.read file = some noffH ∧ noffH.code.Plain ∧ noffH.initData.Plain

/-- The page is one of the memory. -/
def TranslationEntry.InMemory (entry : TranslationEntry) : Prop :=
  0 ≤ entry.physicalPage ∧ entry.physicalPage < NumPhysPages

namespace AddrSpace

/-- A constructor that stays inside the arrays; the table it completes has
pages of the memory only. -/
structure Within (outcome : Except Crash Loaded) : Prop where
  access : outcome ≠ .error .outOfBounds
  pages : ∀ loaded, outcome = .ok loaded →
    ∀ entry ∈ loaded.space.pageTable, entry.InMemory

/-- What the constructor for an executable needs: a whole header and, unless
an assertion refuses it, segments that lie in the space, and pages for all of
it. -/
def LoadFits (file : OpenFile) (MiMapa : BitMap) : Prop :=
  ∃ noffH, NoffSegments.read file = some noffH ∧
    (noffH.Accepted → noffH.Inside ∧ noffH.numPages ≤ MiMapa.NumClear)

instance (file : OpenFile) (MiMapa : BitMap) : Decidable (LoadFits file MiMapa) :=
  inferInstanceAs (Decidable (∃ noffH ∈ NoffSegments.read file,
    noffH.Accepted → noffH.Inside ∧ noffH.numPages ≤ MiMapa.NumClear))

/-! ## The constructor for an executable -/

section Checked

variable {executable : OpenFile} {pageTable : List TranslationEntry} {frames : List Nat}
  {segment : Segment} {m : Nat → Byte} {e : Crash} {va size i r n : Nat}

theorem ReadAtChecked_inside {into numBytes : Nat} {position : Int}
    (hfits : into + numBytes ≤ MemorySize) :
    executable.ReadAtChecked m into numBytes position ≠ .error .outOfBounds := by
  intro herror
  have hlength := ByteFile.length_readAt_le executable.bytes position.toNat numBytes
  rw [OpenFile.ReadAtChecked] at herror
  obtain herror | ⟨_, -, herror⟩ := bind_eq_error.mp herror
  · cases (check_eq_error.mp herror).2
  obtain herror | ⟨_, -, herror⟩ := bind_eq_error.mp herror
  · exact (check_eq_error.mp herror).1 (by omega)
  · cases herror

/-- One pass, as in `copyPages_succ`. -/
theorem copyPagesChecked_succ (hmapped : Mapped pageTable frames)
    (hlies : Lies segment frames va size) (hat : AtPage va size i r n) :
    copyPagesChecked executable pageTable segment (n + 1) i r m =
      executable.ReadAtChecked m (locate frames PageSize (va + r)) (chunk va size r)
        (wrap32 (segment.inFileAddr.toInt + r)) >>=
        copyPagesChecked executable pageTable segment n (i + 1) (r + chunk va size r) := by
  obtain ⟨hentry, hoffset, hchunk, hplace⟩ := pass_eq hmapped hlies hat
  simp only [copyPagesChecked, hentry, hoffset, hchunk]
  rw [← hplace]
  rfl

/-- Through a proper table a segment of the space stays in the memory, even
if it does not lie in the file. -/
theorem copyPagesChecked_inside (hmapped : Mapped pageTable frames)
    (hlies : Lies segment frames va size) (hat : AtPage va size i r n) :
    copyPagesChecked executable pageTable segment (n + 1) i r m ≠ .error .outOfBounds := by
  have hpass : ∀ {i r n} {m : Nat → Byte}, AtPage va size i r n →
      executable.ReadAtChecked m (locate frames PageSize (va + r)) (chunk va size r)
        (wrap32 (segment.inFileAddr.toInt + r)) ≠ .error .outOfBounds :=
    fun hat => ReadAtChecked_inside (locate_add_chunk_le hmapped hlies hat)
  induction n generalizing i r m with
  | zero =>
      rw [copyPagesChecked_succ hmapped hlies hat]
      intro h
      obtain herror | ⟨m₁, -, h⟩ := bind_eq_error.mp h
      · exact hpass hat herror
      · cases h
  | succ n ih =>
      rw [copyPagesChecked_succ hmapped hlies hat]
      intro h
      obtain herror | ⟨m₁, -, h⟩ := bind_eq_error.mp h
      · exact hpass hat herror
      · exact ih hat.next h

theorem loadSegmentChecked_inside (hmapped : Mapped pageTable frames)
    (hinside : segment.Inside frames.length) :
    loadSegmentChecked executable pageTable segment m ≠ .error .outOfBounds := by
  by_cases hsize : 0 < segment.size.toInt
  · have hlies := hmapped.lies hinside hsize
    have hsmall := hlies.small
    have hpages : segment.virtualAddr.toInt.toNat / PageSize ≤
        (segment.virtualAddr.toInt.toNat + segment.size.toInt.toNat - 1) / PageSize :=
      Nat.div_le_div_right (by omega)
    rw [loadSegmentChecked, if_pos hsize, startPage_eq hlies.virtualAddr (by omega),
      endPage_eq hlies.virtualAddr hlies.size_eq (by omega) (by omega), Nat.succ_sub hpages]
    exact copyPagesChecked_inside hmapped hlies (.start (by omega))
  · rw [loadSegmentChecked, if_neg hsize]
    exact nofun

/-- A loop that comes to its end has found an entry for each of its pages. -/
theorem copyPagesChecked_entries {m' : Nat → Byte}
    (h : copyPagesChecked executable pageTable segment n i r m = .ok m') {k : Nat} (hk : k < n) :
    i + k < pageTable.length := by
  induction n generalizing i r m k with
  | zero => cases hk
  | succ n ih =>
      obtain ⟨entry, hentry, h⟩ := bind_eq_ok.mp h
      obtain ⟨m₁, -, h⟩ := bind_eq_ok.mp h
      rw [need_eq_ok] at hentry
      cases k with
      | zero => exact (List.getElem?_eq_some_iff.mp hentry).1
      | succ k =>
          have hrest := ih h (Nat.lt_of_succ_lt_succ hk)
          omega

/-- So a plain segment that is loaded lies in the space. -/
theorem loadSegmentChecked_ok (hplain : segment.Plain) {m' : Nat → Byte}
    (h : loadSegmentChecked executable pageTable segment m = .ok m') :
    segment.Inside pageTable.length := by
  intro hsize
  obtain ⟨⟨hlow, hhigh⟩, -⟩ := hplain hsize
  obtain ⟨va, hva⟩ := Int.eq_ofNat_of_zero_le hlow
  obtain ⟨size, hlength⟩ := Int.eq_ofNat_of_zero_le hsize.le
  have hpages : va / PageSize ≤ (va + size - 1) / PageSize := Nat.div_le_div_right (by omega)
  rw [loadSegmentChecked, if_pos hsize, startPage_eq hva (by omega),
    endPage_eq hva hlength (by omega) (by omega), Nat.succ_sub hpages] at h
  have hlast := copyPagesChecked_entries h (Nat.lt_succ_self _)
  rw [Nat.add_sub_cancel' hpages] at hlast
  refine ⟨hlow, ?_⟩
  rw [hva, hlength]
  simp only [PageSize] at *
  omega

/-- In a plain segment there is no position that `Lseek` refuses. -/
theorem copyPagesChecked_error (hlow : 0 ≤ segment.inFileAddr.toInt)
    (hhigh : segment.inFileAddr.toInt + segment.size.toInt < 2 ^ 31)
    (hread : (r : Int) ≤ segment.size.toInt)
    (h : copyPagesChecked executable pageTable segment n i r m = .error e) :
    e = .outOfBounds := by
  induction n generalizing i r m with
  | zero => cases h
  | succ n ih =>
      rw [copyPagesChecked] at h
      obtain herror | ⟨entry, -, h⟩ := bind_eq_error.mp h
      · exact (need_eq_error.mp herror).2
      obtain herror | ⟨m₁, -, h⟩ := bind_eq_error.mp h
      · have hposition : 0 ≤ wrap32 (segment.inFileAddr.toInt + r) := by
          rw [wrap32_of_range (by omega) (by omega)]
          omega
        rw [OpenFile.ReadAtChecked] at herror
        obtain herror | ⟨_, -, herror⟩ := bind_eq_error.mp herror
        · exact absurd hposition (check_eq_error.mp herror).1
        obtain herror | ⟨_, -, herror⟩ := bind_eq_error.mp herror
        · exact (check_eq_error.mp herror).2
        · cases herror
      · refine ih ?_ h
        have hle : min (unsigned (PageSize - (if i = startPage segment then
            unsigned (segment.virtualAddr.toInt.tmod PageSize) else 0 : Nat)))
            (unsigned (segment.size.toInt - r)) ≤ unsigned (segment.size.toInt - r) :=
          Nat.min_le_right ..
        have hrest : (unsigned (segment.size.toInt - r) : Int) = segment.size.toInt - r := by
          have hmax := Int32.toInt_lt segment.size
          simp only [unsigned]
          omega
        push_cast
        omega

theorem loadSegmentChecked_error (hplain : segment.Plain)
    (h : loadSegmentChecked executable pageTable segment m = .error e) : e = .outOfBounds := by
  rw [loadSegmentChecked] at h
  split at h
  case isTrue hsize =>
    obtain ⟨-, hlow, hhigh⟩ := hplain hsize
    exact copyPagesChecked_error hlow hhigh (by omega) h
  case isFalse => cases h

end Checked

/-- With enough free pages, all that are found are in the memory. -/
theorem inMemory_findPages {MiMapa : BitMap} {i n : Nat} (hbits : MiMapa.numBits = NumPhysPages)
    (hn : n ≤ MiMapa.NumClear) : ∀ entry ∈ (findPages MiMapa i n).1, entry.InMemory := by
  intro entry hentry
  rw [← BitMap.length_clearBits] at hn
  have hpage : entry.physicalPage ∈ (findPages MiMapa i n).1.map (·.physicalPage) :=
    List.mem_map.mpr ⟨entry, hentry, rfl⟩
  rw [findPages_physicalPage hn, List.mem_map] at hpage
  obtain ⟨p, hp, hpage⟩ := hpage
  have hlt := (BitMap.mem_clearBits.mp (List.mem_of_mem_take hp)).1
  rw [TranslationEntry.InMemory, ← hpage]
  exact ⟨Int.natCast_nonneg p, Int.ofNat_lt.mpr (hbits ▸ hlt)⟩

variable {MiMapa : BitMap} {machine : Machine}

theorem ofExecutable_accepted {file : OpenFile} {loaded : Loaded}
    (h : ofExecutable file MiMapa machine = .ok loaded) :
    ∃ noffH, NoffSegments.read file = some noffH ∧ noffH.Accepted ∧
      loaded.space.pageTable = (findPages MiMapa 0 noffH.numPages).1 ∧
      loaded.MiMapa = (findPages MiMapa 0 noffH.numPages).2 := by
  obtain ⟨noffH, hread, h⟩ := bind_eq_ok.mp h
  obtain ⟨pages, hpages, h⟩ := bind_eq_ok.mp h
  obtain ⟨m, -, h⟩ := bind_eq_ok.mp h
  obtain ⟨m', -, h⟩ := bind_eq_ok.mp h
  rw [need_eq_ok] at hread hpages
  obtain ⟨haccepted, hpages⟩ := Option.ite_none_right_eq_some.mp hpages
  cases hpages
  cases h
  exact ⟨noffH, hread, ⟨haccepted.1, haccepted.2⟩, rfl, rfl⟩

/-- Where a constructor for a file with a header stops: it is refused, or a
segment is. -/
theorem ofExecutable_error {file : OpenFile} {noffH : NoffSegments} {e : Crash}
    (hread : NoffSegments.read file = some noffH)
    (h : ofExecutable file MiMapa machine = .error e) :
    ¬noffH.Accepted ∧ e = .assertion ∨ noffH.Accepted ∧
      ∃ segment ∈ [noffH.code, noffH.initData], ∃ m,
        loadSegmentChecked file (findPages MiMapa 0 noffH.numPages).1 segment m = .error e := by
  obtain herror | ⟨noffH', hread', h⟩ := bind_eq_error.mp h
  · rw [need_eq_error, hread] at herror
    cases herror.1
  rw [need_eq_ok, hread] at hread'
  cases hread'
  obtain herror | ⟨pages, hpages, h⟩ := bind_eq_error.mp h
  · obtain ⟨hnone, rfl⟩ := need_eq_error.mp herror
    refine .inl ⟨fun haccepted => ?_, rfl⟩
    rw [load, if_pos ⟨haccepted.noffMagic, haccepted.numPages⟩] at hnone
    cases hnone
  rw [need_eq_ok] at hpages
  obtain ⟨haccepted, hpages⟩ := Option.ite_none_right_eq_some.mp hpages
  cases hpages
  refine .inr ⟨⟨haccepted.1, haccepted.2⟩, ?_⟩
  obtain herror | ⟨m, -, h⟩ := bind_eq_error.mp h
  · exact ⟨noffH.code, by simp, _, herror⟩
  obtain herror | ⟨m', -, h⟩ := bind_eq_error.mp h
  · exact ⟨noffH.initData, by simp, _, herror⟩
  · cases h

/-- And what it has loaded, when it does not stop. -/
theorem ofExecutable_segments {file : OpenFile} {noffH : NoffSegments} {loaded : Loaded}
    (hread : NoffSegments.read file = some noffH)
    (h : ofExecutable file MiMapa machine = .ok loaded) :
    ∀ segment ∈ [noffH.code, noffH.initData], ∃ m m',
      loadSegmentChecked file (findPages MiMapa 0 noffH.numPages).1 segment m = .ok m' := by
  obtain ⟨noffH', hread', h⟩ := bind_eq_ok.mp h
  obtain ⟨pages, hpages, h⟩ := bind_eq_ok.mp h
  obtain ⟨m, hcode, h⟩ := bind_eq_ok.mp h
  obtain ⟨m', hdata, h⟩ := bind_eq_ok.mp h
  rw [need_eq_ok, hread] at hread'
  cases hread'
  rw [need_eq_ok] at hpages
  cases (Option.ite_none_right_eq_some.mp hpages).2
  intro segment hsegment
  simp only [List.mem_cons, List.not_mem_nil, or_false] at hsegment
  obtain rfl | rfl := hsegment
  · exact ⟨_, _, hcode⟩
  · exact ⟨_, _, hdata⟩

/-- **A load that fits stays within the memory.** -/
theorem LoadFits.within {file : OpenFile} (hfits : LoadFits file MiMapa)
    (hbits : MiMapa.numBits = NumPhysPages) (machine : Machine) :
    Within (ofExecutable file MiMapa machine) := by
  obtain ⟨noffH, hread, hfits⟩ := hfits
  constructor
  · intro herror
    obtain ⟨-, herror⟩ | ⟨haccepted, segment, hsegment, m, herror⟩ :=
      ofExecutable_error hread herror
    · cases herror
    · obtain ⟨hinside, hfree⟩ := hfits haccepted
      have hlaid := laid_findPages hinside hbits hfree
      simp only [List.mem_cons, List.not_mem_nil, or_false] at hsegment
      obtain rfl | rfl := hsegment
      · exact loadSegmentChecked_inside hlaid.mapped hlaid.code herror
      · exact loadSegmentChecked_inside hlaid.mapped hlaid.initData herror
  · intro loaded hload
    obtain ⟨noffH', hread', haccepted, htable, -⟩ := ofExecutable_accepted hload
    cases hread.symm.trans hread'
    rw [htable]
    exact inMemory_findPages hbits (hfits haccepted).2

/-- A plain file that does not fit is loaded outside the memory. -/
theorem LoadFits.of_within {file : OpenFile} (hplain : file.Plain)
    (hwithin : Within (ofExecutable file MiMapa machine)) : LoadFits file MiMapa := by
  obtain ⟨noffH, hread, hcode, hdata⟩ := hplain
  refine ⟨noffH, hread, fun haccepted => ?_⟩
  cases houtcome : ofExecutable file MiMapa machine with
  | error e =>
      -- in a plain segment the loop does not stop at an assertion
      obtain ⟨hrefused, -⟩ | ⟨-, segment, hsegment, m, herror⟩ := ofExecutable_error hread houtcome
      · exact absurd haccepted hrefused
      · have hsegment_plain : segment.Plain := by
          simp only [List.mem_cons, List.not_mem_nil, or_false] at hsegment
          obtain rfl | rfl := hsegment
          · exact hcode
          · exact hdata
        cases loadSegmentChecked_error hsegment_plain herror
        exact absurd houtcome hwithin.access
  | ok loaded =>
      have hsegments := ofExecutable_segments hread houtcome
      simp only [List.forall_mem_cons, List.not_mem_nil, false_implies, implies_true,
        and_true] at hsegments
      obtain ⟨⟨_, _, hloaded⟩, ⟨_, _, hloaded'⟩⟩ := hsegments
      have hinside := loadSegmentChecked_ok hcode hloaded
      have hinside' := loadSegmentChecked_ok hdata hloaded'
      rw [length_findPages] at hinside hinside'
      refine ⟨⟨hinside, hinside'⟩, ?_⟩
      by_contra hshort
      -- the table has a page that `Find` did not find
      obtain ⟨noffH', hread', -, htable, -⟩ := ofExecutable_accepted houtcome
      cases hread.symm.trans hread'
      rw [← BitMap.length_clearBits] at hshort
      obtain ⟨entry, hentry, hpage⟩ :
          ∃ entry ∈ (findPages MiMapa 0 noffH.numPages).1, entry.physicalPage = -1 :=
        findPages_exhausted (Nat.lt_of_not_le hshort)
      have hlow := (hwithin.pages loaded houtcome entry (htable ▸ hentry)).1
      omega

/-! ## The constructor for a fork -/

/-- **So does a fork**, exactly if there are pages for a stack, and a stack in
the table. -/
theorem ofSpace_within_iff {space : AddrSpace} (htable : ∀ entry ∈ space.pageTable, entry.InMemory)
    (hbits : MiMapa.numBits = NumPhysPages) (machine : Machine) :
    Within (ofSpace space MiMapa machine) ↔
      stackPages ≤ space.numPages ∧ stackPages ≤ MiMapa.NumClear := by
  constructor
  · intro hwithin
    have hpages : stackPages ≤ space.numPages := by
      by_contra hshort
      refine hwithin.access ?_
      rw [ofSpace, check, if_neg hshort]
      rfl
    refine ⟨hpages, ?_⟩
    by_contra hshort
    exact hwithin.access (ofSpace_outOfBounds hpages hbits (Nat.lt_of_not_le hshort) machine)
  · intro h
    obtain ⟨hpages, henough⟩ := h
    have hfork := ofSpace_ok hpages hbits henough machine
    constructor
    · rw [hfork]
      intro houtside
      cases houtside
    · intro child hchild
      rw [(ofSpace_some hchild).2.1]
      intro entry hentry
      rcases List.mem_append.mp hentry with hentry | hentry
      · exact htable entry (List.mem_of_mem_take hentry)
      · exact inMemory_findPages hbits henough entry hentry

end AddrSpace

/-! ## Sequences of loads, forks and exits -/

/-- The address spaces by number; `none` has been deleted. -/
structure Spaces where
  MiMapa : BitMap
  machine : Machine
  spaces : List (Option AddrSpace)

namespace Spaces

open AddrSpace

inductive Event where
  | load (file : OpenFile)
  | fork (t : Nat)
  | exit (t : Nat)

/-- A load is of a plain file. -/
def Event.Plain : Event → Prop
  | .load file => file.Plain
  | .fork _ | .exit _ => True

def start (MiMapa : BitMap) (machine : Machine) : Spaces :=
  ⟨MiMapa, machine, []⟩

def space (s : Spaces) (t : Nat) : Option AddrSpace :=
  s.spaces[t]?.join

/-- What the constructor that the event calls comes to, if it calls one. -/
def construct (s : Spaces) : Event → Option (Except Crash Loaded)
  | .load file => some (ofExecutable file s.MiMapa s.machine)
  | .fork t => (s.space t).map fun space => ofSpace space s.MiMapa s.machine
  | .exit _ => none

/-- A constructor that stops ends the simulation. -/
def step (s : Spaces) : Event → Option Spaces
  | .exit t => (s.space t).bind fun space =>
      (space.delete s.MiMapa).map fun MiMapa => { s with MiMapa, spaces := s.spaces.set t none }
  | e => (s.construct e).bind fun outcome => outcome.toOption.map fun loaded =>
      ⟨loaded.MiMapa, loaded.machine, s.spaces ++ [some loaded.space]⟩

/-- The constructor minds the end of the memory. -/
def Within (s : Spaces) (e : Event) : Prop :=
  ∀ outcome, s.construct e = some outcome → AddrSpace.Within outcome

/-- What is loaded fits, and for a fork there are as many free pages as a
stack has, and a stack in the table. -/
def Enough (s : Spaces) : Event → Prop
  | .load file => LoadFits file s.MiMapa
  | .fork t => ∀ space, s.space t = some space →
      stackPages ≤ space.numPages ∧ stackPages ≤ s.MiMapa.NumClear
  | .exit _ => True

instance (s : Spaces) (e : Event) : Decidable (s.Enough e) :=
  match e with
  | .load file => inferInstanceAs (Decidable (LoadFits file s.MiMapa))
  | .fork t => inferInstanceAs (Decidable (∀ space ∈ s.space t,
      stackPages ≤ space.numPages ∧ stackPages ≤ s.MiMapa.NumClear))
  | .exit _ => inferInstanceAs (Decidable True)

/-- The pages of every table are in the memory. -/
structure Sound (s : Spaces) : Prop where
  numBits : s.MiMapa.numBits = NumPhysPages
  pages : ∀ {t space}, s.space t = some space → ∀ entry ∈ space.pageTable, entry.InMemory

variable {s s' : Spaces} {e : Event}

theorem Sound.fork_within_iff (h : s.Sound) {t : Nat} :
    s.Within (.fork t) ↔ s.Enough (.fork t) := by
  cases hspace : s.space t with
  | none => simp [Within, construct, Enough, hspace]
  | some space =>
      simp only [Within, construct, hspace, Option.map_some, Option.some.injEq, forall_eq', Enough]
      exact ofSpace_within_iff (h.pages hspace) h.numBits s.machine

theorem Sound.within (h : s.Sound) (henough : s.Enough e) : s.Within e := by
  cases e with
  | load file =>
      intro outcome houtcome
      cases houtcome
      exact LoadFits.within henough h.numBits s.machine
  | fork t => exact h.fork_within_iff.mpr henough
  | exit t => exact fun _ => nofun

theorem Sound.enough (h : s.Sound) (hplain : e.Plain) (hwithin : s.Within e) : s.Enough e := by
  cases e with
  | load file => exact LoadFits.of_within hplain (hwithin _ rfl)
  | fork t => exact h.fork_within_iff.mp hwithin
  | exit t => trivial

/-- A new table comes behind the others. -/
theorem Sound.append (h : s.Sound) {loaded : Loaded} (hbits : loaded.MiMapa.numBits = NumPhysPages)
    (hpages : ∀ entry ∈ loaded.space.pageTable, entry.InMemory) :
    Sound ⟨loaded.MiMapa, loaded.machine, s.spaces ++ [some loaded.space]⟩ := by
  have hspaces : ∀ {t space},
      Spaces.space ⟨loaded.MiMapa, loaded.machine, s.spaces ++ [some loaded.space]⟩ t =
        some space → space = loaded.space ∨ s.space t = some space := by
    intro t space ht
    simp only [Spaces.space] at ht ⊢
    rcases Nat.lt_trichotomy t s.spaces.length with hlt | rfl | hgt
    · rw [List.getElem?_append_left hlt] at ht
      exact .inr ht
    · simp at ht
      exact .inl ht.symm
    · rw [List.getElem?_append_right hgt.le, List.getElem?_eq_none (by simp; omega)] at ht
      cases ht
  refine ⟨hbits, fun ht => ?_⟩
  obtain rfl | ht := hspaces ht
  · exact hpages
  · exact h.pages ht

theorem Sound.exit (h : s.Sound) {t : Nat} {space : AddrSpace} {MiMapa : BitMap}
    (hdelete : space.delete s.MiMapa = some MiMapa) :
    Sound { s with MiMapa, spaces := s.spaces.set t none } := by
  have hspaces : ∀ {u a},
      Spaces.space { s with MiMapa, spaces := s.spaces.set t none } u = some a →
        s.space u = some a := by
    intro u a hu
    simp only [Spaces.space] at hu ⊢
    by_cases heq : t = u
    · subst heq
      rw [List.getElem?_set] at hu
      simp only [if_true] at hu
      split at hu <;> cases hu
    · rwa [List.getElem?_set_ne heq] at hu
  exact ⟨(clearPages_some hdelete).1.trans h.numBits, fun hu => h.pages (hspaces hu)⟩

theorem Sound.step (h : s.Sound) (hstep : Spaces.step s e = some s') (henough : s.Enough e) :
    s'.Sound := by
  have hwithin := h.within henough
  cases e with
  | load file =>
      obtain ⟨loaded, hload, rfl⟩ := Option.map_eq_some_iff.mp hstep
      rw [toOption_eq_some] at hload
      obtain ⟨noffH, -, -, -, hmap⟩ := ofExecutable_accepted hload
      refine h.append ?_ ((hwithin _ rfl).pages loaded hload)
      rw [hmap, numBits_findPages]
      exact h.numBits
  | fork t =>
      obtain ⟨outcome, houtcome, hstep⟩ := Option.bind_eq_some_iff.mp hstep
      obtain ⟨space, -, rfl⟩ := Option.map_eq_some_iff.mp houtcome
      obtain ⟨child, hchild, rfl⟩ := Option.map_eq_some_iff.mp hstep
      rw [toOption_eq_some] at hchild
      refine h.append ?_ ((hwithin _ houtcome).pages child hchild)
      rw [(ofSpace_some hchild).2.2, numBits_findPages]
      exact h.numBits
  | exit t =>
      obtain ⟨space, -, hstep⟩ := Option.bind_eq_some_iff.mp hstep
      obtain ⟨MiMapa, hdelete, rfl⟩ := Option.map_eq_some_iff.mp hstep
      exact h.exit hdelete

/-- **Every table has its pages in the memory, and nothing else is touched**,
in every run in which what is loaded fits and each fork finds its pages. Of
plain files these are the only runs. -/
theorem within_iff (MiMapa : BitMap) (hbits : MiMapa.numBits = NumPhysPages) (machine : Machine)
    (events : List Event) :
    (EachEvent step Enough (start MiMapa machine) events →
      EachEvent step Within (start MiMapa machine) events) ∧
    ((∀ e ∈ events, e.Plain) → (EachEvent step Within (start MiMapa machine) events ↔
      EachEvent step Enough (start MiMapa machine) events)) := by
  have hnone : ∀ t, (start MiMapa machine).space t = none := fun t => rfl
  have hstart : (start MiMapa machine).Sound := by
    refine ⟨hbits, fun ht => ?_⟩
    rw [hnone] at ht
    cases ht
  constructor
  · intro h
    exact h.imp hstart (fun _ h hstep henough => h.step hstep henough) fun _ h => h.within
  · intro hplain
    exact eachEvent_iff hstart (fun h hstep henough => h.step hstep henough)
      fun he h => ⟨h.enough (hplain _ he), h.within⟩

/-- Programs of nine and of eight pages, a thread of a thread, and what is
freed is taken again. -/
def threads : List Event :=
  [.load boundary, .fork 0, .fork 1, .exit 1, .load stackOnly, .exit 0, .fork 3]

theorem enough_threads : EachEvent step Enough (start (.new NumPhysPages) written) threads := by
  intro front e s hfront hrun
  refine forall_snoc_of_getElem? (P := fun front e =>
    ∀ s ∈ exec step (start (.new NumPhysPages) written) front, s.Enough e) ?_ hfront s hrun
  decide

theorem within_threads : EachEvent step Within (start (.new NumPhysPages) written) threads :=
  (within_iff _ rfl _ _).1 enough_threads

/-- Four stacks are all of the memory. -/
def threeForks : List Event :=
  [.load stackOnly, .fork 0, .fork 0, .fork 0]

/-- The fourth fork clears the bytes in front of the memory. -/
theorem not_within : ¬EachEvent step Within (start (.new NumPhysPages) written)
    (threeForks ++ [.fork 0]) := by
  have hrun : (exec step (start (.new NumPhysPages) written) threeForks).map
      (fun s => (s.MiMapa.numBits, s.MiMapa.NumClear, (s.space 0).map numPages)) =
      some (32, 0, some 8) := by decide
  obtain ⟨s, hexec, hfacts⟩ := Option.map_eq_some_iff.mp hrun
  simp only [Prod.mk.injEq, Option.map_eq_some_iff] at hfacts
  obtain ⟨hbits, hclear, space, hspace, hpages⟩ := hfacts
  intro h
  have hwithin := h threeForks (.fork 0) s (List.prefix_refl _) hexec
  refine (hwithin _ (congrArg (Option.map _) hspace)).access ?_
  exact ofSpace_outOfBounds (by rw [hpages]; decide) hbits (by rw [hclear]; decide) s.machine

end Spaces

end DistributedAscii.NachOS
