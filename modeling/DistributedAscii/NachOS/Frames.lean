import DistributedAscii.Lib.Runs
import DistributedAscii.NachOS.AddrSpace

/-!
# NachOS — the physical pages of a program

One program is loaded and its threads call `Fork` and `Exit` in any order.
The pages in front of the stack belong to all threads, the stack to one; the
destructor that `Exit` runs makes no difference. The pages of the threads
that are left stay marked exactly as long as no `Exit` frees a shared page
under them.
-/

namespace DistributedAscii.NachOS

open Lib.Runs

/-- The threads of a program by number; `none` has exited. -/
structure Program where
  MiMapa : BitMap
  threads : List (Option AddrSpace)

namespace Program

/-- The system calls that touch the page map, with the thread that makes them. -/
inductive Call where
  | fork (t : Nat)
  | exit (t : Nat)
deriving DecidableEq, Repr

/-- `StartProcess`, on a machine that runs nothing else. -/
def start (noffH : NoffHeader) : Option Program :=
  (AddrSpace.load noffH (.new NumPhysPages)).map fun loaded =>
    { MiMapa := loaded.2, threads := [some loaded.1] }

/-- `currentThread->space`. -/
def space (s : Program) (t : Nat) : Option AddrSpace :=
  s.threads[t]?.join

def step (s : Program) : Call → Option Program
  | .fork t =>
      (s.space t).bind fun space =>
        (space.copy s.MiMapa).map fun child =>
          { MiMapa := child.2, threads := s.threads ++ [some child.1] }
  | .exit t =>
      (s.space t).bind fun space =>
        (space.delete s.MiMapa).map fun MiMapa =>
          { MiMapa := MiMapa, threads := s.threads.set t none }

/-- A thread that has not exited maps `p` by a valid entry. -/
def InUse (s : Program) (p : Int) : Prop :=
  ∃ t space, s.space t = some space ∧ space.Maps p

/-- No page in use is free, and `Find` does not hand one out. -/
def Safe (s : Program) : Prop :=
  (∀ p, s.InUse p → s.MiMapa.Test p = some true) ∧ ¬s.InUse s.MiMapa.Find.1

/-- Who exits is the last thread, or shares no page. -/
def ExitAlone (s : Program) : Call → Prop
  | .fork _ => True
  | .exit t => (∀ u, u ≠ t → s.space u = none) ∨
      ∀ space, s.space t = some space → space.numPages ≤ AddrSpace.stackPages

theorem space_append (m : BitMap) (s : Program) (child : AddrSpace) (u : Nat) :
    space ⟨m, s.threads ++ [some child]⟩ u =
      if u = s.threads.length then some child else s.space u := by
  rcases Nat.lt_trichotomy u s.threads.length with hu | hu | hu
  · simp [space, List.getElem?_append_left hu, hu.ne]
  · simp [space, hu]
  · have hne : u - s.threads.length ≠ 0 := by omega
    simp [space, List.getElem?_append_right hu.le, hu.ne', List.getElem?_eq_none hu.le, hne]

theorem space_set (m : BitMap) (s : Program) (t u : Nat) :
    space ⟨m, s.threads.set t none⟩ u = if u = t then none else s.space u := by
  by_cases hu : u = t
  · subst hu
    simp [space, List.getElem?_set]
    split <;> rfl
  · simp [space, List.getElem?_set_ne (Ne.symm hu), hu]

/-- What a step does. -/
theorem step_cases {s s' : Program} {call : Call} (h : step s call = some s') :
    (∃ t space child m, call = .fork t ∧ s.space t = some space ∧
        space.copy s.MiMapa = some (child, m) ∧ s'.MiMapa = m ∧
        ∀ u, s'.space u = if u = s.threads.length then some child else s.space u) ∨
      (∃ t space m, call = .exit t ∧ s.space t = some space ∧
        space.delete s.MiMapa = some m ∧ s'.MiMapa = m ∧
        ∀ u, s'.space u = if u = t then none else s.space u) := by
  cases call with
  | fork t =>
      obtain ⟨space, hspace, h⟩ := Option.bind_eq_some_iff.mp h
      obtain ⟨⟨child, m⟩, hcopy, rfl⟩ := Option.map_eq_some_iff.mp h
      exact .inl ⟨t, space, child, m, rfl, hspace, hcopy, rfl, space_append m s child⟩
  | exit t =>
      obtain ⟨space, hspace, h⟩ := Option.bind_eq_some_iff.mp h
      obtain ⟨m, hdelete, rfl⟩ := Option.map_eq_some_iff.mp h
      exact .inr ⟨t, space, m, rfl, hspace, hdelete, rfl, space_set m s t⟩

/-! ## The invariant -/

/-- The tables of a program of `n` pages: all alike in front of the stack,
every page marked, and nothing in common where there is nothing in front of
the stack. -/
structure Tables (n : Nat) (s : Program) : Prop where
  numBits : s.MiMapa.numBits = NumPhysPages
  numPages : ∀ {t space}, s.space t = some space → space.numPages = n
  valid : ∀ {t space}, s.space t = some space → ∀ entry ∈ space.pageTable, entry.valid = true
  shared : ∀ {t u a b}, s.space t = some a → s.space u = some b →
    a.pageTable.take (n - AddrSpace.stackPages) = b.pageTable.take (n - AddrSpace.stackPages)
  marked : ∀ {t space}, s.space t = some space → ∀ entry ∈ space.pageTable,
    ∃ p : Nat, entry.physicalPage = p ∧ p < NumPhysPages ∧ s.MiMapa.bit p = true
  disjoint : n ≤ AddrSpace.stackPages → ∀ {t u a b}, t ≠ u → s.space t = some a →
    s.space u = some b → ∀ x ∈ a.pageTable, ∀ y ∈ b.pageTable, x.physicalPage ≠ y.physicalPage

theorem Tables.safe {n : Nat} {s : Program} (h : Tables n s) : s.Safe := by
  have hmarked : ∀ p, s.InUse p → s.MiMapa.Test p = some true := by
    rintro p ⟨t, space, hspace, entry, hentry, -, rfl⟩
    obtain ⟨p, hpage, hp, hbit⟩ := h.marked hspace entry hentry
    have hrange : s.MiMapa.InRange p := ⟨by omega, by rw [h.numBits]; omega⟩
    rw [hpage, BitMap.Test, if_pos hrange]
    exact congrArg some hbit
  refine ⟨hmarked, fun hfound => ?_⟩
  have htest := hmarked _ hfound
  obtain ⟨i, hi, hclear, -, hfind⟩ | ⟨hfind, -⟩ := s.MiMapa.Find_cases
  · have hrange : s.MiMapa.InRange i := ⟨by omega, by omega⟩
    rw [hfind, BitMap.Test, if_pos hrange] at htest
    simp [hclear] at htest
  · have hrange : ¬s.MiMapa.InRange (-1) := by simp [BitMap.InRange]
    rw [hfind, BitMap.Test, if_neg hrange] at htest
    cases htest

theorem tables_start {noffH : NoffHeader} {s : Program} (h : start noffH = some s) :
    Tables (AddrSpace.pagesOf noffH) s := by
  obtain ⟨⟨space, m⟩, hload, rfl⟩ := Option.map_eq_some_iff.mp h
  obtain ⟨hpages, hbits, hentries⟩ := AddrSpace.load_some hload
  have hone : ∀ {t a}, Program.space ⟨m, [some space]⟩ t = some a → t = 0 ∧ a = space := by
    intro t a ht
    cases t with
    | zero => exact ⟨rfl, by simpa [Program.space, eq_comm] using ht⟩
    | succ t => simp [Program.space] at ht
  refine ⟨hbits, ?_, ?_, ?_, ?_, ?_⟩
  · rintro t a ht
    obtain ⟨-, rfl⟩ := hone ht
    exact hpages
  · rintro t a ht entry hentry
    obtain ⟨-, rfl⟩ := hone ht
    exact (hentries entry hentry).1
  · rintro t u a b ht hu
    rw [(hone ht).2, (hone hu).2]
  · rintro t a ht entry hentry
    obtain ⟨-, rfl⟩ := hone ht
    exact (hentries entry hentry).2
  · rintro - t u a b hne ht hu
    exact absurd ((hone ht).1.trans (hone hu).1.symm) hne

/-- A fork keeps the tables: the new stack was free, so that nobody uses it. -/
theorem Tables.fork {n : Nat} {s s' : Program} {t : Nat} {space child : AddrSpace} {m : BitMap}
    (h : Tables n s) (hspace : s.space t = some space)
    (hcopy : space.copy s.MiMapa = some (child, m)) (hm : s'.MiMapa = m)
    (hspaces : ∀ u, s'.space u = if u = s.threads.length then some child else s.space u) :
    Tables n s' := by
  obtain ⟨hfits, hbits, hkeep, stack, htable, hlength, hstack⟩ := AddrSpace.copy_some hcopy
  have hn := h.numPages hspace
  rw [hn] at hfits htable
  have hmap : ∀ {u a}, s'.space u = some a → (u = s.threads.length ∧ a = child) ∨
      (u ≠ s.threads.length ∧ s.space u = some a) := by
    intro u a hu
    rw [hspaces] at hu
    split at hu
    · exact .inl ⟨‹_›, (Option.some.inj hu).symm⟩
    · exact .inr ⟨‹_›, hu⟩
  have htake : child.pageTable.take (n - AddrSpace.stackPages) =
      space.pageTable.take (n - AddrSpace.stackPages) := by
    have hlen : (space.pageTable.take (n - AddrSpace.stackPages)).length =
        n - AddrSpace.stackPages := by
      rw [List.length_take, min_eq_left]
      exact (Nat.sub_le ..).trans_eq hn.symm
    rw [htable, List.take_left' hlen]
  refine ⟨by rw [hm, hbits, h.numBits], ?_, ?_, ?_, ?_, ?_⟩
  · intro u a hu
    obtain ⟨-, rfl⟩ | ⟨-, hu⟩ := hmap hu
    · have hle : n - AddrSpace.stackPages ≤ space.pageTable.length :=
        (Nat.sub_le ..).trans_eq hn.symm
      simp only [AddrSpace.numPages, htable, List.length_append, List.length_take, hlength,
        min_eq_left hle]
      omega
    · exact h.numPages hu
  · intro u a hu entry hentry
    obtain ⟨-, rfl⟩ | ⟨-, hu⟩ := hmap hu
    · rw [htable, List.mem_append] at hentry
      rcases hentry with hentry | hentry
      · exact h.valid hspace entry (List.mem_of_mem_take hentry)
      · exact (hstack entry hentry).1
    · exact h.valid hu entry hentry
  · intro u v a b hu hv
    obtain ⟨-, rfl⟩ | ⟨-, hu⟩ := hmap hu <;> obtain ⟨-, rfl⟩ | ⟨-, hv⟩ := hmap hv
    · rfl
    · rw [htake]
      exact h.shared hspace hv
    · rw [htake]
      exact h.shared hu hspace
    · exact h.shared hu hv
  · intro u a hu entry hentry
    have hold : ∀ {v b}, s.space v = some b → entry ∈ b.pageTable →
        ∃ p : Nat, entry.physicalPage = p ∧ p < NumPhysPages ∧ s'.MiMapa.bit p = true := by
      intro v b hv hentry
      obtain ⟨p, hpage, hp, hbit⟩ := h.marked hv entry hentry
      exact ⟨p, hpage, hp, hm ▸ hkeep p hbit⟩
    obtain ⟨-, rfl⟩ | ⟨-, hu⟩ := hmap hu
    · rw [htable, List.mem_append] at hentry
      rcases hentry with hentry | hentry
      · exact hold hspace (List.mem_of_mem_take hentry)
      · obtain ⟨-, p, hpage, hp, -, hbit⟩ := hstack entry hentry
        exact ⟨p, hpage, h.numBits ▸ hp, hm ▸ hbit⟩
    · exact hold hu hentry
  · intro hsmall u v a b hne hu hv x hx y hy
    -- nothing is shared, so the child has the new pages only
    have hchild : child.pageTable = stack := by
      rw [htable, Nat.sub_eq_zero_of_le hsmall, List.take_zero, List.nil_append]
    have hfresh : ∀ {w c}, s.space w = some c → ∀ x ∈ stack, ∀ y ∈ c.pageTable,
        x.physicalPage ≠ y.physicalPage := by
      intro w c hw x hx y hy heq
      obtain ⟨-, p, hpage, -, hclear, -⟩ := hstack x hx
      obtain ⟨q, hpage', -, hbit⟩ := h.marked hw y hy
      have hpq : p = q := by omega
      rw [hpq, hbit] at hclear
      cases hclear
    obtain ⟨hu', rfl⟩ | ⟨-, hu⟩ := hmap hu <;> obtain ⟨hv', rfl⟩ | ⟨-, hv⟩ := hmap hv
    · exact absurd (hu'.trans hv'.symm) hne
    · exact hfresh hv x (hchild ▸ hx) y hy
    · exact (hfresh hu y (hchild ▸ hy) x hx).symm
    · exact h.disjoint hsmall hne hu hv x hx y hy

/-- An exit keeps the tables if nobody is left or nothing was shared. -/
theorem Tables.exit {n : Nat} {s s' : Program} {t : Nat} {space : AddrSpace} {m : BitMap}
    (h : Tables n s) (hspace : s.space t = some space)
    (hdelete : space.delete s.MiMapa = some m) (hm : s'.MiMapa = m)
    (hspaces : ∀ u, s'.space u = if u = t then none else s.space u)
    (halone : s.ExitAlone (.exit t)) : Tables n s' := by
  obtain ⟨hbits, hbit⟩ := AddrSpace.clearPages_some hdelete
  have hmap : ∀ {u a}, s'.space u = some a → u ≠ t ∧ s.space u = some a := by
    intro u a hu
    rw [hspaces] at hu
    split at hu
    · cases hu
    · exact ⟨‹_›, hu⟩
  refine ⟨by rw [hm, hbits, h.numBits], fun hu => h.numPages (hmap hu).2,
    fun hu => h.valid (hmap hu).2, fun hu hv => h.shared (hmap hu).2 (hmap hv).2, ?_,
    fun hsmall _ _ _ _ hne hu hv => h.disjoint hsmall hne (hmap hu).2 (hmap hv).2⟩
  intro u a hu entry hentry
  obtain ⟨hne, hu⟩ := hmap hu
  have hsmall : n ≤ AddrSpace.stackPages := by
    rcases halone with hlast | hsmall
    · rw [hlast u hne] at hu
      cases hu
    · rw [← h.numPages hspace]
      exact hsmall space hspace
  obtain ⟨p, hpage, hp, hmarked⟩ := h.marked hu entry hentry
  refine ⟨p, hpage, hp, hm ▸ (hbit p).mpr ⟨hmarked, fun entry' hentry' _ => ?_⟩⟩
  rw [← hpage]
  exact h.disjoint hsmall (Ne.symm hne) hspace hu entry' hentry' entry hentry

theorem Tables.step {n : Nat} {s s' : Program} {call : Call} (h : Tables n s)
    (hstep : step s call = some s') (halone : s.ExitAlone call) : Tables n s' := by
  obtain ⟨t, space, child, m, rfl, hspace, hcopy, hm, hspaces⟩ |
    ⟨t, space, m, rfl, hspace, hdelete, hm, hspaces⟩ := step_cases hstep
  · exact h.fork hspace hcopy hm hspaces
  · exact h.exit hspace hdelete hm hspaces halone

/-- With something in front of the stack, an exit frees the first page of
every thread that is left. -/
theorem Tables.alone_of_safe {n : Nat} {s s' : Program} {call : Call} (h : Tables n s)
    (hstep : Program.step s call = some s') (hsafe : s'.Safe) : s.ExitAlone call := by
  obtain ⟨t, space, child, m, rfl, -⟩ |
    ⟨t, space, m, rfl, hspace, hdelete, hm, hspaces⟩ := step_cases hstep
  · trivial
  · by_contra halone
    simp only [ExitAlone, not_or, not_forall] at halone
    obtain ⟨⟨u, hne, hu⟩, space', hspace', hlarge⟩ := halone
    obtain ⟨a, ha⟩ := Option.ne_none_iff_exists'.mp hu
    rw [h.numPages hspace'] at hlarge
    have hpos : 0 < n - AddrSpace.stackPages := by omega
    have hlen : 0 < space.pageTable.length := by
      have := h.numPages hspace
      simp only [AddrSpace.numPages] at this
      omega
    have hfirst : a.pageTable[0]? = space.pageTable[0]? := by
      have hshared := congrArg (·[0]?) (h.shared ha hspace)
      simpa [List.getElem?_take, hpos] using hshared
    -- the first entry, which the two threads have in common
    have hmem : space.pageTable[0] ∈ space.pageTable := List.getElem_mem hlen
    have hmem' : space.pageTable[0] ∈ a.pageTable :=
      List.mem_of_getElem? (hfirst.trans (List.getElem?_eq_getElem hlen))
    have hvalid := h.valid hspace _ hmem
    obtain ⟨p, hpage, -, -⟩ := h.marked hspace _ hmem
    have huse : s'.InUse p := by
      refine ⟨u, a, ?_, _, hmem', hvalid, hpage⟩
      rw [hspaces, if_neg hne]
      exact ha
    have htest := hsafe.1 p huse
    obtain ⟨-, hbit⟩ := AddrSpace.clearPages_some hdelete
    simp only [BitMap.Test, Option.ite_none_right_eq_some, Option.some.injEq, Int.toNat_natCast,
      hm, hbit p] at htest
    exact htest.2.2 _ hmem hvalid hpage

/-- **The pages of the threads that are left stay marked** exactly in the
runs in which a thread exits last, or shares nothing. -/
theorem pages_marked_iff (noffH : NoffHeader) (calls : List Call) (s : Program)
    (h : start noffH = some s) :
    Throughout step Safe s calls ↔ EachStep step ExitAlone s calls :=
  throughout_iff (tables_start h) Tables.step Tables.safe Tables.alone_of_safe

/-- One page of code in front of the stack. -/
def onePage : NoffHeader where
  noffMagic := NOFFMAGIC
  codeSize := 128
  initDataSize := 0
  uninitDataSize := 0

theorem start_onePage : (start onePage).isSome := by
  decide

/-- Nothing but a stack for each thread. -/
def noPage : NoffHeader where
  noffMagic := NOFFMAGIC
  codeSize := 0
  initDataSize := 0
  uninitDataSize := 0

theorem start_noPage : (start noPage).isSome := by
  decide

/-- Four threads of which two exit, and a fifth one on the pages of these. -/
def forksAndExits : List Call :=
  [.fork 0, .fork 1, .fork 1, .exit 1, .exit 0, .fork 2]

theorem pages_marked_exits :
    Throughout step Safe ((start noPage).get start_noPage) forksAndExits := by
  refine (pages_marked_iff noPage _ _ (Option.some_get _).symm).mpr ?_
  intro front call s s' hfront hrun _
  have hstacks : ∀ space, some space ∈ s.threads → space.numPages ≤ AddrSpace.stackPages := by
    intro space hspace
    refine forall_snoc_of_getElem? (P := fun front _ =>
      ∀ s ∈ exec step ((start noPage).get start_noPage) front,
        ∀ thread ∈ s.threads, ∀ space ∈ thread, space.numPages ≤ AddrSpace.stackPages)
      (by decide) hfront s hrun _ hspace space rfl
  cases call with
  | fork t => trivial
  | exit t =>
      refine .inr fun space hspace => hstacks space ?_
      exact List.mem_of_getElem? (Option.join_eq_some_iff.mp hspace)

/-- The child exits, and the page of the code is free under its parent. -/
theorem pages_not_marked :
    ¬Throughout step Safe ((start onePage).get start_onePage) [.fork 0, .exit 1] := by
  intro h
  have hrun : ((exec step ((start onePage).get start_onePage) [.fork 0, .exit 1]).map fun s =>
      (s.MiMapa.Test 0, (s.space 0).bind (·.pageTable[0]?))) =
      some (some false, some ⟨0, 0, true, false⟩) := by decide
  obtain ⟨s, hs, hpage⟩ := Option.map_eq_some_iff.mp hrun
  simp only [Prod.mk.injEq] at hpage
  obtain ⟨hfree, hentry⟩ := hpage
  obtain ⟨space, hspace, hget⟩ := Option.bind_eq_some_iff.mp hentry
  have hsafe := h _ s (List.prefix_refl _) hs
  have hmarked := hsafe.1 0 ⟨0, space, hspace, _, List.mem_of_getElem? hget, rfl, rfl⟩
  rw [hfree] at hmarked
  cases hmarked

end Program

end DistributedAscii.NachOS
