import DistributedAscii.Lib.Runs
import DistributedAscii.NachOS.BitMap

/-!
# NachOS — the open-file table

`userprog/nachostabla.cc`. The handle of a file is its place in
`openFiles`, the value there the Unix descriptor. `Close` takes the
descriptor for the place when it resets the entry, so that it hits the entry
of another file, or one behind the array. `close_lawful_iff` says when it
does not matter, `map_iff` what follows for every sequence of operations.
-/

namespace DistributedAscii.NachOS

open Lib.Runs

def MAX_OPEN_FILES : Nat := 100

structure NachosOpenFilesTable where
  openFiles : List Int
  openFilesMap : BitMap
  /-- How many threads use the table. -/
  usage : Int
  length_openFiles : openFiles.length = MAX_OPEN_FILES
  numBits_openFilesMap : openFilesMap.numBits = MAX_OPEN_FILES

namespace NachosOpenFilesTable

/-- Handles 0, 1 and 2 are stdin, stdout and stderr. -/
def new : NachosOpenFilesTable where
  openFiles := [0, 1, 2] ++ List.replicate (MAX_OPEN_FILES - 3) (-1)
  openFilesMap := (((BitMap.new MAX_OPEN_FILES).markBit 0).markBit 1).markBit 2
  usage := 1
  length_openFiles := by simp [MAX_OPEN_FILES]
  numBits_openFilesMap := rfl

/-- The descriptor at a place of the array. -/
def entry (s : NachosOpenFilesTable) (i : Nat) : Int :=
  s.openFiles.getD i (-1)

def setEntry (s : NachosOpenFilesTable) (i : Nat) (u : Int) : NachosOpenFilesTable where
  openFiles := s.openFiles.set i u
  openFilesMap := s.openFilesMap
  usage := s.usage
  length_openFiles := by rw [List.length_set, s.length_openFiles]
  numBits_openFilesMap := s.numBits_openFilesMap

def markBit (s : NachosOpenFilesTable) (i : Nat) : NachosOpenFilesTable where
  openFiles := s.openFiles
  openFilesMap := s.openFilesMap.markBit i
  usage := s.usage
  length_openFiles := s.length_openFiles
  numBits_openFilesMap := s.numBits_openFilesMap

def clearBit (s : NachosOpenFilesTable) (i : Nat) : NachosOpenFilesTable where
  openFiles := s.openFiles
  openFilesMap := s.openFilesMap.clearBit i
  usage := s.usage
  length_openFiles := s.length_openFiles
  numBits_openFilesMap := s.numBits_openFilesMap

/-- `openFilesMap->Find()`; the bit that is found is marked. -/
def Find (s : NachosOpenFilesTable) : Int × NachosOpenFilesTable where
  fst := s.openFilesMap.Find.1
  snd :=
    { openFiles := s.openFiles
      openFilesMap := s.openFilesMap.Find.2
      usage := s.usage
      length_openFiles := s.length_openFiles
      numBits_openFilesMap := by rw [BitMap.numBits_Find, s.numBits_openFilesMap] }

/-- A place of the array. -/
def InTable (i : Int) : Prop :=
  0 ≤ i ∧ i < MAX_OPEN_FILES

instance (i : Int) : Decidable (InTable i) :=
  inferInstanceAs (Decidable (_ ∧ _))

def Open (s : NachosOpenFilesTable) (UnixHandle : Int) : Int × NachosOpenFilesTable :=
  let found := s.Find
  if found.1 = -1 then (-1, found.2)
  else (found.1, found.2.setEntry found.1.toNat UnixHandle)

/-- `none`: the assertion of `Test` fails. -/
def isOpened (s : NachosOpenFilesTable) (NachosHandle : Int) : Option Bool :=
  (s.openFilesMap.Test NachosHandle).map fun marked =>
    marked && s.entry NachosHandle.toNat != -1

/-- `none`: outside the array. -/
def getUnixHandle (s : NachosOpenFilesTable) (NachosHandle : Int) : Option Int :=
  if InTable NachosHandle then some (s.entry NachosHandle.toNat) else none

/-- `none`: an assertion fails or `openFiles` is written outside. -/
def Close (s : NachosOpenFilesTable) (NachosHandle : Int) :
    Option (Int × NachosOpenFilesTable) :=
  (s.isOpened NachosHandle).bind fun opened =>
    if opened then
      let index := s.entry NachosHandle.toNat
      if InTable index then
        some (index, (s.clearBit NachosHandle.toNat).setEntry index.toNat (-1))
      else none
    else some (-1, s)

def addThread (s : NachosOpenFilesTable) : NachosOpenFilesTable :=
  { s with usage := s.usage + 1 }

/-! ## Reading the table -/

@[simp] theorem entry_setEntry (s : NachosOpenFilesTable) (i : Nat) (u : Int) (j : Nat) :
    (s.setEntry i u).entry j = if j = i ∧ i < MAX_OPEN_FILES then u else s.entry j := by
  by_cases hij : i = j
  · subst hij
    by_cases hi : i < MAX_OPEN_FILES
    · simp [entry, setEntry, s.length_openFiles, hi]
    · simp [entry, setEntry, s.length_openFiles, hi]
  · simp [entry, setEntry, hij, Ne.symm hij]

@[simp] theorem entry_markBit (s : NachosOpenFilesTable) (i j : Nat) :
    (s.markBit i).entry j = s.entry j := rfl

@[simp] theorem entry_clearBit (s : NachosOpenFilesTable) (i j : Nat) :
    (s.clearBit i).entry j = s.entry j := rfl

/-- The bit of a handle. -/
def bit (s : NachosOpenFilesTable) (i : Nat) : Bool :=
  s.openFilesMap.bit i

@[simp] theorem bit_setEntry (s : NachosOpenFilesTable) (i : Nat) (u : Int) (j : Nat) :
    (s.setEntry i u).bit j = s.bit j := rfl

theorem bit_markBit (s : NachosOpenFilesTable) {i : Nat} (hi : i < MAX_OPEN_FILES) (j : Nat) :
    (s.markBit i).bit j = (s.bit j || decide (j = i)) :=
  BitMap.bit_markBit (s.numBits_openFilesMap ▸ hi) j

theorem bit_clearBit (s : NachosOpenFilesTable) {i : Nat} (hi : i < MAX_OPEN_FILES) (j : Nat) :
    (s.clearBit i).bit j = (s.bit j && !decide (j = i)) :=
  BitMap.bit_clearBit (s.numBits_openFilesMap ▸ hi) j

theorem isOpened_of_lt (s : NachosOpenFilesTable) {i : Nat} (hi : i < MAX_OPEN_FILES) :
    s.isOpened i = some (s.bit i && s.entry i != -1) := by
  have hrange : s.openFilesMap.InRange i :=
    ⟨by omega, by rw [s.numBits_openFilesMap]; omega⟩
  simp [isOpened, BitMap.Test, hrange, bit]

theorem getUnixHandle_of_lt (s : NachosOpenFilesTable) {i : Nat} (hi : i < MAX_OPEN_FILES) :
    s.getUnixHandle i = some (s.entry i) := by
  have hrange : InTable i := ⟨by omega, by omega⟩
  simp [getUnixHandle, hrange]

/-- The handles that pass the assertion of `Test` are those of the table. -/
theorem isOpened_eq_none {s : NachosOpenFilesTable} {h : Int} :
    s.isOpened h = none ↔ ¬InTable h := by
  have hbits := s.numBits_openFilesMap
  simp only [isOpened, BitMap.Test, BitMap.InRange, InTable, hbits]
  split <;> simp_all

theorem isOpened_cases (s : NachosOpenFilesTable) {h : Int} (hid : InTable h) :
    s.isOpened h = some false ∨ s.isOpened h = some true := by
  cases hopened : s.isOpened h with
  | none => exact absurd hid (isOpened_eq_none.mp hopened)
  | some opened => cases opened <;> simp

/-- The handle that the next file gets. -/
def FirstClear (s : NachosOpenFilesTable) (h : Int) : Prop :=
  InTable h ∧ s.bit h.toNat = false ∧ ∀ j < h.toNat, s.bit j = true

theorem FirstClear.unique {s : NachosOpenFilesTable} {h h' : Int} (hh : s.FirstClear h)
    (hh' : s.FirstClear h') : h = h' := by
  obtain ⟨⟨hnonneg, -⟩, hclear, hfirst⟩ := hh
  obtain ⟨⟨hnonneg', -⟩, hclear', hfirst'⟩ := hh'
  rcases Nat.lt_trichotomy h.toNat h'.toNat with hlt | heq | hgt
  · simp [hfirst' _ hlt] at hclear
  · omega
  · simp [hfirst _ hgt] at hclear'

/-- `Open` takes the first clear handle, if there is one. -/
theorem Open_first (s : NachosOpenFilesTable) (u : Int) :
    (∃ i : Nat, s.FirstClear i ∧ s.Open u = ((i : Int), (s.markBit i).setEntry i u)) ∨
      (s.Open u = (-1, s) ∧ ∀ i < MAX_OPEN_FILES, s.bit i = true) := by
  have hbits := s.numBits_openFilesMap
  obtain ⟨i, hi, hclear, hfirst, hfind⟩ | ⟨hfind, hfull⟩ := s.openFilesMap.Find_cases
  · refine .inl ⟨i, ⟨⟨by omega, by omega⟩, hclear, hfirst⟩, ?_⟩
    have hne : (i : Int) ≠ -1 := by omega
    simp [Open, Find, hfind, hne, markBit]
  · refine .inr ⟨?_, fun i hi => hfull i (hbits.symm ▸ hi)⟩
    simp [Open, Find, hfind]

/-- What `Open` does. -/
theorem Open_cases (s : NachosOpenFilesTable) (u : Int) :
    (∃ i : Nat, i < MAX_OPEN_FILES ∧ s.bit i = false ∧
        s.Open u = ((i : Int), (s.markBit i).setEntry i u)) ∨
      (s.Open u = (-1, s) ∧ ∀ i < MAX_OPEN_FILES, s.bit i = true) := by
  obtain ⟨i, ⟨⟨-, hi⟩, hclear, -⟩, hopen⟩ | hfull := s.Open_first u
  · exact .inl ⟨i, by omega, hclear, hopen⟩
  · exact .inr hfull

/-- What `Close` does. -/
theorem Close_eq (s : NachosOpenFilesTable) {h : Nat} (hh : h < MAX_OPEN_FILES) :
    s.Close h =
      if s.isOpened h = some true then
        if InTable (s.entry h) then
          some (s.entry h, (s.clearBit h).setEntry (s.entry h).toNat (-1))
        else none
      else some (-1, s) := by
  rw [Close, isOpened_of_lt s hh, Int.toNat_natCast]
  cases s.bit h && s.entry h != -1 <;> simp

/-! ## The table as a finite map -/

/-- An operation in the range the table is made for. -/
inductive Op where
  | open (u : Nat)
  | close (h : Fin MAX_OPEN_FILES)
deriving DecidableEq

def step (s : NachosOpenFilesTable) : Op → Option NachosOpenFilesTable
  | .open u => some (s.Open u).2
  | .close h => (s.Close h).map (·.2)

/-- The handles other than `h` are as they were. -/
def SameBut (h : Int) (s s' : NachosOpenFilesTable) : Prop :=
  ∀ h' : Nat, h' < MAX_OPEN_FILES → (h' : Int) ≠ h →
    s'.isOpened h' = s.isOpened h' ∧ s'.getUnixHandle h' = s.getUnixHandle h'

/-- What an operation on a finite map does: an insertion at a free place or
the removal of one, and nothing at the other places. -/
def Lawful (s : NachosOpenFilesTable) : Op → Prop
  | .open u =>
      let r := s.Open u
      SameBut r.1 s r.2 ∧
        ((r.1 = -1 ∧ ∀ h : Nat, h < MAX_OPEN_FILES → s.isOpened h = some true) ∨
          (s.isOpened r.1 = some false ∧ r.2.isOpened r.1 = some true ∧
            r.2.getUnixHandle r.1 = some (u : Int)))
  | .close h =>
      ∃ r s', s.Close h = some (r, s') ∧ SameBut h s s' ∧
        (s.isOpened h = some true →
          s.getUnixHandle h = some r ∧ s'.isOpened h = some false)

/-- Where the slip of `Close` does not matter: the descriptor of the file is
the place of the file, or an unused place of the array. -/
def DescriptorFits (s : NachosOpenFilesTable) : Op → Prop
  | .open _ => True
  | .close h => s.isOpened h = some true → ∀ u, s.getUnixHandle h = some u →
      u = h ∨ s.getUnixHandle u = some (-1)

/-- The bit of a handle is only set where there is a descriptor. -/
def Held (s : NachosOpenFilesTable) : Prop :=
  ∀ i < MAX_OPEN_FILES, s.bit i = true → 0 ≤ s.entry i

theorem held_new : Held new := by
  unfold Held
  decide

theorem Held.isOpened {s : NachosOpenFilesTable} (hs : Held s) {h : Nat}
    (hh : h < MAX_OPEN_FILES) : s.isOpened h = some (s.bit h) := by
  rw [isOpened_of_lt s hh]
  cases hbit : s.bit h with
  | false => rfl
  | true =>
      have hne : s.entry h ≠ -1 := by
        have := hs h hh hbit
        omega
      simp [hne]

/-- `Open` is an insertion, on every table of a run. -/
theorem Held.open_lawful {s : NachosOpenFilesTable} (hs : Held s) (u : Nat) :
    s.Lawful (.open u) := by
  have hu : (u : Int) ≠ -1 := by omega
  simp only [Lawful]
  obtain ⟨i, hi, hclear, hopen⟩ | ⟨hopen, hfull⟩ := s.Open_cases u
  · rw [hopen]
    refine ⟨fun h hh hne => ?_, .inr ⟨?_, ?_, ?_⟩⟩
    · have hne' : h ≠ i := by omega
      simp [isOpened_of_lt _ hh, getUnixHandle_of_lt _ hh, bit_markBit s hi, hne']
    · rw [isOpened_of_lt s hi, hclear]
      rfl
    · simp [isOpened_of_lt _ hi, bit_markBit s hi, hi, hu]
    · simp [getUnixHandle_of_lt _ hi, hi]
  · rw [hopen]
    refine ⟨fun h hh hne => ⟨rfl, rfl⟩, .inl ⟨rfl, fun h hh => ?_⟩⟩
    rw [hs.isOpened hh, hfull h hh]

/-- `Close` is a removal exactly where the descriptor fits. -/
theorem Held.close_lawful_iff {s : NachosOpenFilesTable} (hs : Held s)
    (h : Fin MAX_OPEN_FILES) : s.Lawful (.close h) ↔ s.DescriptorFits (.close h) := by
  simp only [Lawful, DescriptorFits, s.Close_eq h.isLt, getUnixHandle_of_lt s h.isLt,
    Option.some.injEq, forall_eq']
  by_cases hopened : s.isOpened h = some true
  case neg =>
    simp only [hopened, if_false, false_implies, iff_true, and_true]
    exact ⟨-1, s, rfl, fun _ _ _ => ⟨rfl, rfl⟩⟩
  case pos =>
    have hbit : s.bit h = true := by
      rw [hs.isOpened h.isLt] at hopened
      exact Option.some.inj hopened
    have hentry := hs h h.isLt hbit
    simp only [hopened, if_true, true_implies]
    constructor
    · rintro ⟨r, s', hclose, hsame, -⟩
      split at hclose
      case isFalse => cases hclose
      case isTrue hrange =>
        cases hclose
        by_contra hfits
        obtain ⟨hne, hused⟩ := not_or.mp hfits
        obtain ⟨-, hlt⟩ := hrange
        have hplace : ((s.entry h).toNat : Int) = s.entry h := Int.toNat_of_nonneg hentry
        have hlt' : (s.entry h).toNat < MAX_OPEN_FILES := by omega
        have hentries := (hsame (s.entry h).toNat hlt' (by rwa [hplace])).2
        rw [getUnixHandle_of_lt _ hlt', hplace] at hentries
        simp only [entry_setEntry, hlt', and_self, if_true] at hentries
        exact hused hentries.symm
    · intro hfits
      have hrange : InTable (s.entry h) := by
        rcases hfits with heq | hunused
        · rw [heq]
          exact ⟨by omega, by exact_mod_cast h.isLt⟩
        · by_contra hout
          rw [getUnixHandle, if_neg hout] at hunused
          cases hunused
      have hplace : ((s.entry h).toNat : Int) = s.entry h := Int.toNat_of_nonneg hentry
      have hlt : (s.entry h).toNat < MAX_OPEN_FILES := by
        have := hrange.2
        omega
      rw [if_pos hrange]
      refine ⟨_, _, rfl, fun h' hh' hne => ?_, rfl, ?_⟩
      · have hne' : h' ≠ h := by omega
        have hsame : ((s.clearBit h).setEntry (s.entry h).toNat (-1)).entry h' = s.entry h' := by
          simp only [entry_setEntry, entry_clearBit]
          split
          case isFalse => rfl
          case isTrue hhit =>
            rcases hfits with heq | hunused
            · omega
            · rw [← hplace, getUnixHandle_of_lt s hlt, ← hhit.1] at hunused
              exact (Option.some.inj hunused).symm
        simp only [isOpened_of_lt _ hh', getUnixHandle_of_lt _ hh', hsame, bit_setEntry,
          bit_clearBit s h.isLt, hne', decide_false, Bool.not_false, Bool.and_true, and_self]
      · simp [isOpened_of_lt _ h.isLt, bit_clearBit s h.isLt]

theorem Held.step {s s' : NachosOpenFilesTable} {op : Op} (hs : Held s)
    (hstep : step s op = some s') (hfits : s.DescriptorFits op) : Held s' := by
  cases op with
  | «open» u =>
      cases hstep
      intro j hj hbit
      obtain ⟨i, hi, -, hopen⟩ | ⟨hopen, -⟩ := s.Open_cases u
      · rw [hopen] at hbit ⊢
        simp only [entry_setEntry, entry_markBit, hi, and_true]
        split
        · omega
        · have : s.bit j = true := by
            simpa [bit_markBit s hi, ‹¬j = i›] using hbit
          exact hs j hj this
      · rw [hopen] at hbit ⊢
        exact hs j hj hbit
  | close h =>
      obtain ⟨⟨r, t⟩, hclose, rfl⟩ := Option.map_eq_some_iff.mp hstep
      rw [s.Close_eq h.isLt] at hclose
      split at hclose
      case isFalse =>
        cases hclose
        exact hs
      case isTrue hopened =>
        split at hclose
        case isFalse => cases hclose
        case isTrue hrange =>
          cases hclose
          intro j hj hbit
          simp only [bit_setEntry, bit_clearBit s h.isLt, Bool.and_eq_true, Bool.not_eq_true',
            decide_eq_false_iff_not] at hbit
          have hentry := hs j hj hbit.1
          simp only [entry_setEntry, entry_clearBit]
          split
          case isFalse => exact hentry
          case isTrue hhit =>
            -- an entry that is in use is neither `h` itself nor unused
            have hplace : ((s.entry h).toNat : Int) = s.entry h := Int.toNat_of_nonneg hrange.1
            rcases hfits hopened _ (getUnixHandle_of_lt s h.isLt) with heq | hunused
            · omega
            · rw [← hplace, ← hhit.1, getUnixHandle_of_lt s hj] at hunused
              have := Option.some.inj hunused
              omega

/-- **The open-file table is a finite map** exactly as long as each file that
is closed has a descriptor that fits. -/
theorem map_iff (ops : List Op) :
    EachEvent step Lawful new ops ↔ EachEvent step DescriptorFits new ops := by
  refine eachEvent_iff held_new (fun hs hstep hfits => hs.step hstep hfits) ?_
  intro s op _ hs
  cases op with
  | «open» u => exact iff_of_true (hs.open_lawful u) trivial
  | close h => exact hs.close_lawful_iff h

/-- Two files whose handles and descriptors are exchanged: closing one resets
the entry of the other. -/
theorem close_not_lawful :
    ¬EachEvent step Lawful new [.open 4, .open 3, .close ⟨4, by decide⟩] := by
  intro h
  have hrun : exec step new [.open 4, .open 3] =
      some ((new.Open 4).2.Open 3).2 := rfl
  obtain ⟨r, s', hclose, hsame, -⟩ :=
    h [.open 4, .open 3] (.close ⟨4, _⟩) _ (List.prefix_refl _) hrun
  have hother : s'.isOpened 3 = _ := (hsame 3 (by decide) (by decide)).1
  have hclosed : ((((new.Open 4).2.Open 3).2.Close 4).bind fun closed => closed.2.isOpened 3) =
      some false := by decide
  have hopened : ((new.Open 4).2.Open 3).2.isOpened 3 = some true := by decide
  have hclose' : ((new.Open 4).2.Open 3).2.Close 4 = some (r, s') := hclose
  rw [hclose', Option.bind_some, hother] at hclosed
  exact absurd (hopened.symm.trans hclosed) (by decide)

end NachosOpenFilesTable

end DistributedAscii.NachOS
