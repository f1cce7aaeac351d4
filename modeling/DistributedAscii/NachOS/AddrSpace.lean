import DistributedAscii.NachOS.BitMap

/-!
# NachOS — AddrSpace

`userprog/addrspace.cc`, as far as it decides which physical page belongs to
whom: the constructor for an executable, the one that `Fork` uses, and the
destructor. The bits `use` and `dirty` are only for a TLB, and what is read
into the pages is not part of this.
-/

namespace DistributedAscii.NachOS

def PageSize : Nat := 128
def NumPhysPages : Nat := 32
def UserStackSize : Nat := 1024
def NOFFMAGIC : Int := 0xbadfad

/-- The fields of a NOFF header that decide about the page table; the host is
little endian, so that `SwapHeader` changes nothing. -/
structure NoffHeader where
  noffMagic : Int
  codeSize : Int
  initDataSize : Int
  uninitDataSize : Int

structure TranslationEntry where
  virtualPage : Nat
  physicalPage : Int
  valid : Bool
  readOnly : Bool
deriving DecidableEq, Repr

/-- The page table has `numPages` entries. -/
structure AddrSpace where
  pageTable : List TranslationEntry
deriving DecidableEq, Repr

namespace AddrSpace

def numPages (space : AddrSpace) : Nat :=
  space.pageTable.length

/-- The pages of the stack. -/
def stackPages : Nat :=
  (divRoundUp UserStackSize PageSize).toNat

/-- `n` entries from page `i` on, each with a page from `MiMapa->Find()`. -/
def findPages (MiMapa : BitMap) (i : Nat) : Nat → List TranslationEntry × BitMap
  | 0 => ([], MiMapa)
  | n + 1 =>
      let found := MiMapa.Find
      let rest := findPages found.2 (i + 1) n
      ({ virtualPage := i, physicalPage := found.1, valid := true, readOnly := false } :: rest.1,
        rest.2)

/-- `numPages` of an executable: `size` is unsigned, the argument of
`divRoundUp` is not, and the result is unsigned again. -/
def pagesOf (noffH : NoffHeader) : Nat :=
  let size := (noffH.codeSize + noffH.initDataSize + noffH.uninitDataSize + UserStackSize) % 2 ^ 32
  (divRoundUp (if size < 2 ^ 31 then size else size - 2 ^ 32) PageSize % 2 ^ 32).toNat

/-- `AddrSpace(OpenFile *executable)`, with its two assertions. -/
def load (noffH : NoffHeader) (MiMapa : BitMap) : Option (AddrSpace × BitMap) :=
  if noffH.noffMagic = NOFFMAGIC ∧ pagesOf noffH ≤ NumPhysPages then
    let pages := findPages MiMapa 0 (pagesOf noffH)
    some (⟨pages.1⟩, pages.2)
  else none

/-- `AddrSpace(AddrSpace *space)`: everything in front of the stack is shared.
With fewer pages than a stack the unsigned `size` wraps and the copy runs out
of the table; without a free page `bzero` writes in front of `mainMemory`. -/
def copy (space : AddrSpace) (MiMapa : BitMap) : Option (AddrSpace × BitMap) :=
  if stackPages ≤ space.numPages then
    let size := space.numPages - stackPages
    let stack := findPages MiMapa size stackPages
    if ∀ entry ∈ stack.1, entry.physicalPage ≠ -1 then
      some (⟨space.pageTable.take size ++ stack.1⟩, stack.2)
    else none
  else none

/-- `~AddrSpace()`: the loop over the page table. -/
def clearPages (MiMapa : BitMap) : List TranslationEntry → Option BitMap
  | [] => some MiMapa
  | entry :: rest =>
      if entry.valid then
        (MiMapa.Clear entry.physicalPage).bind fun MiMapa => clearPages MiMapa rest
      else clearPages MiMapa rest

def delete (space : AddrSpace) (MiMapa : BitMap) : Option BitMap :=
  clearPages MiMapa space.pageTable

/-- A valid entry maps `p`. -/
def Maps (space : AddrSpace) (p : Int) : Prop :=
  ∃ entry ∈ space.pageTable, entry.valid = true ∧ entry.physicalPage = p

/-! ## What the loops do -/

@[simp] theorem length_findPages (MiMapa : BitMap) (i n : Nat) :
    (findPages MiMapa i n).1.length = n := by
  induction n generalizing MiMapa i with
  | zero => rfl
  | succ n ih => simp [findPages, ih]

@[simp] theorem numBits_findPages (MiMapa : BitMap) (i n : Nat) :
    (findPages MiMapa i n).2.numBits = MiMapa.numBits := by
  induction n generalizing MiMapa i with
  | zero => rfl
  | succ n ih => simp [findPages, ih]

theorem findPages_valid {MiMapa : BitMap} {i n : Nat} {entry : TranslationEntry}
    (h : entry ∈ (findPages MiMapa i n).1) : entry.valid = true := by
  induction n generalizing MiMapa i with
  | zero => simp [findPages] at h
  | succ n ih =>
      simp only [findPages, List.mem_cons] at h
      rcases h with rfl | h
      · rfl
      · exact ih h

theorem findPages_readOnly {MiMapa : BitMap} {i n : Nat} {entry : TranslationEntry}
    (h : entry ∈ (findPages MiMapa i n).1) : entry.readOnly = false := by
  induction n generalizing MiMapa i with
  | zero => simp [findPages] at h
  | succ n ih =>
      simp only [findPages, List.mem_cons] at h
      rcases h with rfl | h
      · rfl
      · exact ih h

/-- A marked page stays marked. -/
theorem findPages_bit {MiMapa : BitMap} {i n j : Nat} (h : MiMapa.bit j = true) :
    (findPages MiMapa i n).2.bit j = true := by
  induction n generalizing MiMapa i with
  | zero => exact h
  | succ n ih =>
      refine ih ?_
      obtain ⟨k, hk, -, -, hfind⟩ | ⟨hfind, -⟩ := MiMapa.Find_cases
      · simp [hfind, BitMap.bit_markBit hk, h]
      · rw [hfind]
        exact h

/-- Every page that was found was free, and is not free any more. -/
theorem findPages_page {MiMapa : BitMap} {i n : Nat} {entry : TranslationEntry}
    (h : entry ∈ (findPages MiMapa i n).1) (hne : entry.physicalPage ≠ -1) :
    ∃ p : Nat, entry.physicalPage = p ∧ p < MiMapa.numBits ∧ MiMapa.bit p = false ∧
      (findPages MiMapa i n).2.bit p = true := by
  induction n generalizing MiMapa i with
  | zero => simp [findPages] at h
  | succ n ih =>
      simp only [findPages, List.mem_cons] at h
      rcases h with rfl | h
      · obtain ⟨p, hp, hclear, -, hfind⟩ | ⟨hfind, -⟩ := MiMapa.Find_cases
        · have hmarked : MiMapa.Find.2.bit p = true := by simp [hfind, BitMap.bit_markBit hp]
          exact ⟨p, by rw [hfind], hp, hclear, findPages_bit (i := i + 1) (n := n) hmarked⟩
        · rw [hfind] at hne
          exact absurd rfl hne
      · obtain ⟨p, hpage, hp, hclear, hmarked⟩ := ih h
        rw [BitMap.numBits_Find] at hp
        refine ⟨p, hpage, hp, ?_, hmarked⟩
        obtain ⟨k, hk, -, -, hfind⟩ | ⟨hfind, -⟩ := MiMapa.Find_cases
        · rw [hfind, BitMap.bit_markBit hk, Bool.or_eq_false_iff] at hclear
          exact hclear.1
        · rwa [hfind] at hclear

theorem stackPages_eq : stackPages = 8 := by
  decide

/-- The pages of the segments and those of the stack, unless the sum of the
sizes overflows. -/
theorem pagesOf_eq {noffH : NoffHeader} {S : Nat}
    (hS : noffH.codeSize + noffH.initDataSize + noffH.uninitDataSize = S)
    (hsmall : S + UserStackSize + PageSize ≤ 2 ^ 32) (haccepted : pagesOf noffH ≤ NumPhysPages) :
    pagesOf noffH = (S + PageSize - 1) / PageSize + stackPages := by
  have hstack := stackPages_eq
  simp only [UserStackSize, PageSize, NumPhysPages] at *
  have hsize : ((S : Int) + (1024 : Nat)) % 2 ^ 32 = (S + 1024 : Nat) := by omega
  simp only [pagesOf, hS, UserStackSize, hsize] at *
  by_cases hint : S + 1024 < 2 ^ 31
  · rw [if_pos (by omega), PageSize, divRoundUp_natCast] at *
    have hlt : (S + 1024) / 128 + (if 0 < (S + 1024) % 128 then 1 else 0) < 2 ^ 32 := by
      split <;> omega
    split <;> omega
  · -- the `int` is negative, and the unsigned result too large
    rw [if_neg (by omega), PageSize] at *
    obtain ⟨k, hk⟩ : ∃ k : Nat, ((S + 1024 : Nat) : Int) - 2 ^ 32 = -(k : Int) :=
      ⟨2 ^ 32 - (S + 1024), by omega⟩
    have htdiv : (-(k : Int)).tdiv (128 : Nat) = -(k / 128 : Nat) := by
      rw [Int.neg_tdiv, ← Int.ofNat_tdiv]
    have htmod : (-(k : Int)).tmod (128 : Nat) = -(k % 128 : Nat) := by
      rw [Int.neg_tmod, ← Int.ofNat_tmod]
    rw [divRoundUp, hk, htdiv, htmod, if_neg (by omega)] at haccepted
    omega

/-- With enough clear bits, the pages are the first ones of them. -/
theorem findPages_getElem? {MiMapa : BitMap} {i n j : Nat} (hn : n ≤ MiMapa.clearBits.length)
    (hj : j < n) : (findPages MiMapa i n).1[j]? =
      some ⟨i + j, (MiMapa.clearBits.getD j 0 : Nat), true, false⟩ := by
  induction n generalizing MiMapa i j with
  | zero => cases hj
  | succ n ih =>
      cases hclear : MiMapa.clearBits with
      | nil =>
          rw [hclear] at hn
          cases hn
      | cons p rest =>
          have hrest := BitMap.clearBits_markBit hclear
          rw [hclear, List.length_cons] at hn
          simp only [findPages, BitMap.Find_of_clearBits hclear]
          cases j with
          | zero => simp
          | succ j =>
              have henough : n ≤ (MiMapa.markBit p).clearBits.length := by
                rw [hrest]
                omega
              rw [List.getElem?_cons_succ, ih henough (by omega), hrest, List.getD_cons_succ,
                Nat.add_assoc, Nat.add_comm 1]

/-- The pages, in the order of the table. -/
theorem findPages_physicalPage {MiMapa : BitMap} {i n : Nat} (hn : n ≤ MiMapa.clearBits.length) :
    (findPages MiMapa i n).1.map (·.physicalPage) =
      (MiMapa.clearBits.take n).map (Nat.cast : Nat → Int) := by
  refine List.ext_getElem? fun j => ?_
  by_cases hj : j < n
  · rw [List.getElem?_map, findPages_getElem? hn hj, List.getElem?_map,
      List.getElem?_take_of_lt hj, List.getD_eq_getElem?_getD,
      List.getElem?_eq_getElem (hj.trans_le hn)]
    rfl
  · rw [List.getElem?_eq_none (by simpa using hj), List.getElem?_eq_none (by simp; omega)]

/-- Without, there is a page -1 among them. -/
theorem findPages_exhausted {MiMapa : BitMap} {i n : Nat} (hn : MiMapa.clearBits.length < n) :
    ∃ entry ∈ (findPages MiMapa i n).1, entry.physicalPage = -1 := by
  induction n generalizing MiMapa i with
  | zero => cases hn
  | succ n ih =>
      cases hclear : MiMapa.clearBits with
      | nil =>
          obtain ⟨k, hk, hbit, -, -⟩ | ⟨hfind, -⟩ := MiMapa.Find_cases
          · have hmem : k ∈ MiMapa.clearBits := BitMap.mem_clearBits.mpr ⟨hk, hbit⟩
            rw [hclear] at hmem
            cases hmem
          · exact ⟨_, List.mem_cons_self, by rw [hfind]⟩
      | cons p rest =>
          have hrest := BitMap.clearBits_markBit hclear
          rw [hclear, List.length_cons] at hn
          simp only [findPages, BitMap.Find_of_clearBits hclear]
          have hshort : (MiMapa.markBit p).clearBits.length < n := by
            rw [hrest]
            omega
          obtain ⟨entry, hentry, hpage⟩ := ih hshort
          exact ⟨entry, List.mem_cons_of_mem _ hentry, hpage⟩

/-- The loop of the destructor clears the valid pages and no other. -/
theorem clearPages_some {MiMapa MiMapa' : BitMap} {entries : List TranslationEntry}
    (h : clearPages MiMapa entries = some MiMapa') :
    MiMapa'.numBits = MiMapa.numBits ∧
      ∀ p, MiMapa'.bit p = true ↔ MiMapa.bit p = true ∧
        ∀ entry ∈ entries, entry.valid = true → entry.physicalPage ≠ p := by
  induction entries generalizing MiMapa with
  | nil =>
      cases h
      simp
  | cons entry rest ih =>
      simp only [clearPages] at h
      split at h
      case isTrue hvalid =>
        obtain ⟨cleared, hcleared, hrest⟩ := Option.bind_eq_some_iff.mp h
        simp only [BitMap.Clear, Option.ite_none_right_eq_some, Option.some.injEq] at hcleared
        obtain ⟨hrange, rfl⟩ := hcleared
        obtain ⟨hbits, hbit⟩ := ih hrest
        have hpage : ∀ p : Nat, p ≠ entry.physicalPage.toNat ↔ entry.physicalPage ≠ p := by
          intro p
          have := hrange.1
          omega
        refine ⟨hbits, fun p => ?_⟩
        rw [hbit p, BitMap.bit_clearBit hrange.toNat_lt]
        simp [hvalid, hpage, and_assoc]
      case isFalse hvalid =>
        obtain ⟨hbits, hbit⟩ := ih h
        refine ⟨hbits, fun p => ?_⟩
        rw [hbit p]
        simp [hvalid]

/-- A copy shares the pages in front of the stack; the others were free. -/
theorem copy_some {space child : AddrSpace} {MiMapa MiMapa' : BitMap}
    (h : space.copy MiMapa = some (child, MiMapa')) :
    stackPages ≤ space.numPages ∧ MiMapa'.numBits = MiMapa.numBits ∧
      (∀ p, MiMapa.bit p = true → MiMapa'.bit p = true) ∧
      ∃ stack, child.pageTable = space.pageTable.take (space.numPages - stackPages) ++ stack ∧
        stack.length = stackPages ∧
        ∀ entry ∈ stack, entry.valid = true ∧ ∃ p : Nat, entry.physicalPage = p ∧
          p < MiMapa.numBits ∧ MiMapa.bit p = false ∧ MiMapa'.bit p = true := by
  simp only [copy] at h
  split at h
  case isFalse => cases h
  case isTrue hpages =>
    split at h
    case isFalse => cases h
    case isTrue hfound =>
      cases h
      refine ⟨hpages, numBits_findPages .., fun p hp => findPages_bit hp, _, rfl,
        length_findPages .., fun entry hentry => ⟨findPages_valid hentry, ?_⟩⟩
      exact findPages_page hentry (hfound entry hentry)

/-- Where the first `i` pages are taken and the others free, `Find` goes up
page by page. -/
theorem findPages_ne {MiMapa : BitMap} {i n : Nat} (hn : i + n ≤ MiMapa.numBits)
    (hfree : ∀ j, MiMapa.bit j = decide (j < i)) {entry : TranslationEntry}
    (h : entry ∈ (findPages MiMapa i n).1) : entry.physicalPage ≠ -1 := by
  induction n generalizing MiMapa i with
  | zero => simp [findPages] at h
  | succ n ih =>
      simp only [findPages, List.mem_cons] at h
      obtain ⟨k, hk, hclear, hfirst, hfind⟩ | ⟨-, hfull⟩ := MiMapa.Find_cases
      · have hki : k = i := by
          have hle : i ≤ k := by simpa [hfree] using hclear
          by_contra hne
          have := hfirst i (by omega)
          simp [hfree] at this
        subst hki
        rcases h with rfl | h
        · rw [hfind]
          simp
        · rw [hfind] at h
          refine ih (by simpa using (by omega : k + 1 + n ≤ MiMapa.numBits)) (fun j => ?_) h
          rw [BitMap.bit_markBit hk, hfree, Bool.eq_iff_iff]
          simp
          omega
      · have := hfull i (by omega)
        simp [hfree] at this

/-- A program is loaded into pages of its own, all of them marked. -/
theorem load_some {noffH : NoffHeader} {space : AddrSpace} {MiMapa : BitMap}
    (h : load noffH (.new NumPhysPages) = some (space, MiMapa)) :
    space.numPages = pagesOf noffH ∧ MiMapa.numBits = NumPhysPages ∧
      ∀ entry ∈ space.pageTable, entry.valid = true ∧
        ∃ p : Nat, entry.physicalPage = p ∧ p < NumPhysPages ∧ MiMapa.bit p = true := by
  simp only [load] at h
  split at h
  case isFalse => cases h
  case isTrue hfits =>
    cases h
    refine ⟨length_findPages .., numBits_findPages .., fun entry hentry =>
      ⟨findPages_valid hentry, ?_⟩⟩
    have hne : entry.physicalPage ≠ -1 := by
      refine findPages_ne ?_ (fun j => ?_) hentry
      · rw [Nat.zero_add]
        exact hfits.2
      · simp [BitMap.bit_new]
    obtain ⟨p, hpage, hp, -, hmarked⟩ := findPages_page hentry hne
    exact ⟨p, hpage, hp, hmarked⟩

end AddrSpace

end DistributedAscii.NachOS
