import DistributedAscii.NachOS.Mips.TimeSharing
import DistributedAscii.NachOS.OutOfPages

/-!
# NachOS — loaded programs

Programs that are loaded and deleted in any order, without a fork, have no
frame in common, however few pages there are. They may share the processor
then (`loaded_apart`).
-/

namespace DistributedAscii.NachOS.Spaces

open Lib.Runs Lib.Outcome
open AddrSpace (findPages written boundary stackOnly)

/-- Every frame in a table is marked, and in no other table. -/
structure Apart (s : Spaces) : Prop where
  valid : ∀ {t space}, s.space t = some space → ∀ entry ∈ space.pageTable, entry.valid = true
  marked : ∀ {t space}, s.space t = some space → ∀ {p : Nat}, space.Maps p → s.MiMapa.bit p = true
  disjoint : ∀ {t u a b}, t ≠ u → s.space t = some a → s.space u = some b →
    ∀ {p : Nat}, a.Maps p → ¬b.Maps p

def IsFork : Event → Prop
  | .fork _ => True
  | .load _ | .exit _ => False

variable {s s' : Spaces}

theorem space_append (s : Spaces) (MiMapa : BitMap) (machine : Machine) (new : AddrSpace)
    (u : Nat) : space ⟨MiMapa, machine, s.spaces ++ [some new]⟩ u
      = if u = s.spaces.length then some new else s.space u := by
  rcases Nat.lt_trichotomy u s.spaces.length with hu | hu | hu
  · simp [space, List.getElem?_append_left hu, hu.ne]
  · simp [space, hu]
  · have hne : u - s.spaces.length ≠ 0 := by omega
    simp [space, List.getElem?_append_right hu.le, hu.ne', List.getElem?_eq_none hu.le, hne]

theorem space_set (s : Spaces) (MiMapa : BitMap) (t u : Nat) :
    space { s with MiMapa, spaces := s.spaces.set t none } u
      = if u = t then none else s.space u := by
  by_cases hu : u = t
  · subst hu
    simp [space, List.getElem?_set]
    split <;> rfl
  · simp [space, List.getElem?_set_ne (Ne.symm hu), hu]

/-- A frame of a new program was free. -/
theorem maps_found {MiMapa : BitMap} {n p : Nat}
    (h : AddrSpace.Maps ⟨(findPages MiMapa 0 n).1⟩ p) :
    MiMapa.bit p = false ∧ (findPages MiMapa 0 n).2.bit p = true := by
  obtain ⟨entry, hentry, -, hpage⟩ := h
  have hne : entry.physicalPage ≠ -1 := by
    rw [hpage]
    omega
  obtain ⟨q, hq, -, hfree, hmarked⟩ := AddrSpace.findPages_page hentry hne
  have hpq : p = q := by omega
  rw [hpq]
  exact ⟨hfree, hmarked⟩

theorem Apart.load (h : s.Apart) {file : OpenFile} (hstep : Spaces.step s (.load file) = some s') :
    s'.Apart := by
  obtain ⟨loaded, hload, rfl⟩ := Option.map_eq_some_iff.mp hstep
  rw [toOption_eq_some] at hload
  obtain ⟨noffH, -, -, htable, hmap⟩ := AddrSpace.ofExecutable_accepted hload
  obtain ⟨⟨pageTable⟩, MiMapa, machine⟩ := loaded
  subst htable hmap
  generalize noffH.numPages = n
  have hspaces : ∀ {t a},
      space ⟨(findPages s.MiMapa 0 n).2, machine, s.spaces ++ [some ⟨(findPages s.MiMapa 0 n).1⟩]⟩ t
        = some a →
      t = s.spaces.length ∧ a = ⟨(findPages s.MiMapa 0 n).1⟩ ∨ s.space t = some a := by
    intro t a ht
    rw [space_append] at ht
    split at ht
    · exact .inl ⟨‹_›, (Option.some.inj ht).symm⟩
    · exact .inr ht
  -- what is marked is in no new table
  have hfresh : ∀ {t a}, s.space t = some a → ∀ {p : Nat}, a.Maps p →
      ¬AddrSpace.Maps ⟨(findPages s.MiMapa 0 n).1⟩ p := by
    intro t a ht p hmaps hnew
    have hfree := (maps_found hnew).1
    rw [h.marked ht hmaps] at hfree
    cases hfree
  refine ⟨fun ht entry hentry => ?_, fun ht p hmaps => ?_, fun htu ht hu p hmaps hmaps' => ?_⟩
  · obtain ⟨-, rfl⟩ | ht := hspaces ht
    · exact AddrSpace.findPages_valid hentry
    · exact h.valid ht entry hentry
  · obtain ⟨-, rfl⟩ | ht := hspaces ht
    · exact (maps_found hmaps).2
    · exact AddrSpace.findPages_bit (h.marked ht hmaps)
  · obtain ⟨ht', rfl⟩ | ht := hspaces ht
    · obtain ⟨hu', rfl⟩ | hu := hspaces hu
      · exact htu (ht'.trans hu'.symm)
      · exact hfresh hu hmaps' hmaps
    · obtain ⟨-, rfl⟩ | hu := hspaces hu
      · exact hfresh ht hmaps hmaps'
      · exact h.disjoint htu ht hu hmaps hmaps'

theorem Apart.exit (h : s.Apart) {t : Nat} (hstep : Spaces.step s (.exit t) = some s') :
    s'.Apart := by
  obtain ⟨gone, hgone, hstep⟩ := Option.bind_eq_some_iff.mp hstep
  obtain ⟨MiMapa, hdelete, rfl⟩ := Option.map_eq_some_iff.mp hstep
  have hspaces : ∀ {u a}, space { s with MiMapa, spaces := s.spaces.set t none } u = some a →
      u ≠ t ∧ s.space u = some a := by
    intro u a hu
    rw [space_set] at hu
    split at hu
    · cases hu
    · exact ⟨‹_›, hu⟩
  refine ⟨fun hu => h.valid (hspaces hu).2, fun hu p hmaps => ?_,
    fun hne hu hv => h.disjoint hne (hspaces hu).2 (hspaces hv).2⟩
  obtain ⟨hne, hu⟩ := hspaces hu
  refine ((AddrSpace.clearPages_some hdelete).2 p).mpr ⟨h.marked hu hmaps, ?_⟩
  intro entry hentry hvalid hpage
  exact h.disjoint hne hu hgone hmaps ⟨entry, hentry, hvalid, hpage⟩

theorem apart_start (MiMapa : BitMap) (machine : Machine) : (start MiMapa machine).Apart where
  valid h := nomatch h
  marked h := nomatch h
  disjoint _ h := nomatch h

/-- A run of loads and exits keeps the tables apart. -/
theorem apart_of_run {MiMapa : BitMap} {machine : Machine} {events : List Event}
    (hforks : ∀ e ∈ events, ¬IsFork e) (hrun : exec step (start MiMapa machine) events = some s') :
    s'.Apart := by
  have hsteps : EachStep step (fun _ e => ¬IsFork e) (start MiMapa machine) events :=
    fun front e _ _ hfront _ _ => hforks e (mem_of_snoc hfront)
  refine hsteps.throughout (apart_start MiMapa machine) (fun {s e s'} h hstep hfork => ?_) events s'
    (List.prefix_refl _) hrun
  cases e with
  | load => exact h.load hstep
  | fork => exact absurd trivial hfork
  | exit => exact h.exit hstep

/-- The programs on one machine, with thread `t` at work. -/
def system (s : Spaces) (userRegisters : Nat → Nat → Word) (t : Nat) : Mips.System where
  machine := { s.machine with
    registers := userRegisters t
    pageTable := ((s.space t).map (·.pageTable)).getD [] }
  currentThread := t
  userRegisters := userRegisters
  pageTables u := ((s.space u).map (·.pageTable)).getD []

theorem maps_of_owns {t p : Nat} {userRegisters : Nat → Nat → Word} {u : Nat}
    (h : Mips.Owns ((s.system userRegisters t).pageTables u) p) :
    ∃ a, s.space u = some a ∧ a.Maps ((p / PageSize : Nat) : Int) := by
  rw [system] at h
  cases hu : s.space u with
  | none =>
      simp only [hu] at h
      obtain ⟨entry, hentry, -⟩ := h
      cases hentry
  | some a =>
      simp only [hu] at h
      obtain ⟨entry, hentry, hvalid, hpage⟩ := h
      exact ⟨a, rfl, entry, hentry, hvalid, hpage⟩

/-- **Loaded programs may share the processor**: behind any run of loads and
exits, the threads that are left have no frame in common. -/
theorem loaded_apart {MiMapa : BitMap} {machine : Machine} {events : List Event}
    (hforks : ∀ e ∈ events, ¬IsFork e) (hrun : exec step (start MiMapa machine) events = some s')
    (userRegisters : Nat → Nat → Word) (t : Nat) : (s'.system userRegisters t).Apart := by
  have hapart := apart_of_run hforks hrun
  refine ⟨rfl, fun {u v} huv p hu hv => ?_⟩
  obtain ⟨a, ha, hmaps⟩ := maps_of_owns hu
  obtain ⟨b, hb, hmaps'⟩ := maps_of_owns hv
  exact hapart.disjoint huv ha hb hmaps hmaps'

/-- Three programs; the first one is deleted. -/
def programs : List Event :=
  [.load boundary, .load stackOnly, .exit 0, .load boundary]

theorem loaded_apart_programs :
    ∃ s', exec step (start (.new NumPhysPages) written) programs = some s' ∧
      (s'.system (fun _ _ => 0) 1).Apart := by
  have hrun : (exec step (start (.new NumPhysPages) written) programs).isSome = true := by
    decide
  obtain ⟨s', hrun⟩ := Option.isSome_iff_exists.mp hrun
  refine ⟨s', hrun, loaded_apart ?_ hrun (fun _ _ => 0) 1⟩
  simp [programs, IsFork]

end DistributedAscii.NachOS.Spaces
