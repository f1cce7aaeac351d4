import Mathlib.Data.List.Infix
import Mathlib.Tactic

/-!
# Lib — searching in strings

`std::string`'s `find` and `substr` over lists. A position is `none` where
the string has `npos`; a count is `none` where it is larger than any string,
which is both `npos` and an unsigned difference that fell below zero.

Framed protocols search for a mark that may also lie across the border of
two pieces. A pattern whose first letter does not come back in it
(`Unbordered`) cannot be met in front of a place where it itself begins, so
a mark that ends a message is found exactly there (`find_append_self`).
-/

namespace DistributedAscii.Lib.Search

variable {α : Type*} [DecidableEq α]

/-- The first position where `pat` stands. -/
def find (pat : List α) : List α → Option Nat
  | [] => if pat = [] then some 0 else none
  | a :: s => if pat.isPrefixOf (a :: s) then some 0 else (find pat s).map (· + 1)

/-- The last position where `pat` stands. -/
def rfind (pat : List α) : List α → Option Nat
  | [] => if pat = [] then some 0 else none
  | a :: s =>
      match rfind pat s with
      | some i => some (i + 1)
      | none => if pat.isPrefixOf (a :: s) then some 0 else none

/-- The first position from `start` on. -/
def findFrom (pat s : List α) (start : Nat) : Option Nat :=
  if start ≤ s.length then (find pat (s.drop start)).map (· + start) else none

/-- `pat` stands somewhere in `s`. -/
def contains (pat s : List α) : Bool :=
  (find pat s).isSome

/-- `stop - start` in unsigned arithmetic. -/
def sizeDiff (stop : Option Nat) (start : Nat) : Option Nat :=
  match stop with
  | none => none
  | some stop => if start ≤ stop then some (stop - start) else none

def substr (s : List α) (pos : Nat) (count : Option Nat) : List α :=
  match count with
  | none => s.drop pos
  | some n => (s.drop pos).take n

/-- Calls of `substr` by string and position that do not throw; `none` is a
position below 0. -/
def InRange (cuts : List (List α × Option Nat)) : Prop :=
  ∀ cut ∈ cuts, ∃ pos, cut.2 = some pos ∧ pos ≤ cut.1.length

omit [DecidableEq α] in
theorem inRange_nil : InRange ([] : List (List α × Option Nat)) :=
  fun _ h => absurd h List.not_mem_nil

omit [DecidableEq α] in
theorem inRange_cons_iff {s : List α} {pos : Nat} {cuts : List (List α × Option Nat)} :
    InRange ((s, some pos) :: cuts) ↔ pos ≤ s.length ∧ InRange cuts := by
  rw [InRange, List.forall_mem_cons]
  simp [InRange]

/-! ## What a search finds -/

theorem find_nil_pat (s : List α) : find [] s = some 0 := by
  cases s <;> rfl

theorem find_isSome_iff {pat s : List α} : (find pat s).isSome ↔ pat <:+: s := by
  induction s with
  | nil =>
      rw [find]
      split
      · rename_i h
        simp [h]
      · rename_i h
        simpa using h
  | cons a s ih =>
      rw [find]
      split
      · rename_i h
        exact ⟨fun _ => (List.isPrefixOf_iff_prefix.mp h).isInfix, fun _ => rfl⟩
      · rename_i h
        have hno : ¬ pat <+: a :: s := fun hp => h (List.isPrefixOf_iff_prefix.mpr hp)
        rw [Option.isSome_map, ih, List.infix_cons_iff]
        exact ⟨.inr, fun hc => hc.resolve_left hno⟩

theorem contains_iff {pat s : List α} : contains pat s = true ↔ pat <:+: s :=
  find_isSome_iff

theorem find_eq_none {pat s : List α} (h : ¬ pat <:+: s) : find pat s = none := by
  rw [← find_isSome_iff] at h
  simpa using h

/-- A mark in front: it is found at once. -/
theorem find_append_left (pat s : List α) : find pat (pat ++ s) = some 0 := by
  cases pat with
  | nil => exact find_nil_pat s
  | cons c rest =>
      rw [List.cons_append, find, if_pos]
      rw [← List.cons_append]
      exact List.isPrefixOf_iff_prefix.mpr (List.prefix_append _ _)

/-- What a search finds fits behind its position. -/
theorem find_le {pat s : List α} {i : Nat} (h : find pat s = some i) :
    i + pat.length ≤ s.length := by
  induction s generalizing i with
  | nil =>
      rw [find] at h
      split at h
      · rename_i hp
        cases h
        simp [hp]
      · cases h
  | cons a s ih =>
      rw [find] at h
      split at h
      · rename_i hp
        cases h
        have := (List.isPrefixOf_iff_prefix.mp hp).length_le
        omega
      · cases hf : find pat s with
        | none => rw [hf] at h; cases h
        | some j =>
            rw [hf, Option.map_some] at h
            cases h
            have := ih hf
            rw [List.length_cons]
            omega

/-- The pattern stands where it is found. -/
theorem prefix_drop_of_find {pat s : List α} {i : Nat} (h : find pat s = some i) :
    pat <+: s.drop i := by
  induction s generalizing i with
  | nil =>
      rw [find] at h
      split at h
      · rename_i hp
        simp [hp]
      · cases h
  | cons a s ih =>
      rw [find] at h
      split at h
      · rename_i hp
        cases h
        exact List.isPrefixOf_iff_prefix.mp hp
      · obtain ⟨j, hj, rfl⟩ := Option.map_eq_some_iff.mp h
        exact ih hj

theorem findFrom_le {pat s : List α} {start i : Nat} (h : findFrom pat s start = some i) :
    i + pat.length ≤ s.length := by
  rw [findFrom] at h
  split at h
  · obtain ⟨j, hj, rfl⟩ := Option.map_eq_some_iff.mp h
    have hle := find_le hj
    rw [List.length_drop] at hle
    omega
  · cases h

/-- What is found in a piece is found there in the whole. -/
theorem find_append_of_some {pat s : List α} {i : Nat} (h : find pat s = some i)
    (t : List α) : find pat (s ++ t) = some i := by
  induction s generalizing i with
  | nil =>
      rw [find] at h
      split at h
      · rename_i hp
        cases h
        rw [hp, find_nil_pat]
      · cases h
  | cons a s ih =>
      have hle := find_le h
      rw [find] at h
      split at h
      · rename_i hp
        have hpre : pat <+: a :: s := List.isPrefixOf_iff_prefix.mp hp
        cases h
        rw [List.cons_append, find, if_pos]
        rw [← List.cons_append]
        exact List.isPrefixOf_iff_prefix.mpr (hpre.trans (List.prefix_append _ _))
      · rename_i hp
        cases hf : find pat s with
        | none => rw [hf] at h; cases h
        | some j =>
            rw [hf, Option.map_some] at h
            cases h
            have hq : ¬ pat.isPrefixOf (a :: (s ++ t)) := by
              -- an occurrence at the front would fit into the piece
              intro hq
              have hq' : pat <+: a :: s ++ t := List.isPrefixOf_iff_prefix.mp hq
              exact hp (List.isPrefixOf_iff_prefix.mpr
                (List.prefix_of_prefix_length_le hq' (List.prefix_append _ _) (by omega)))
            rw [List.cons_append, find, if_neg hq, ih hf]
            rfl

/-- The pattern stands where it is found last. -/
theorem prefix_drop_of_rfind {pat s : List α} {i : Nat} (h : rfind pat s = some i) :
    pat <+: s.drop i := by
  induction s generalizing i with
  | nil =>
      rw [rfind] at h
      split at h
      · rename_i hp
        simp [hp]
      · cases h
  | cons a s ih =>
      rw [rfind] at h
      cases hf : rfind pat s with
      | some j =>
          rw [hf] at h
          cases h
          exact ih hf
      | none =>
          rw [hf] at h
          dsimp only at h
          split at h
          · rename_i hp
            cases h
            exact List.isPrefixOf_iff_prefix.mp hp
          · cases h

theorem rfind_isSome_iff {pat s : List α} : (rfind pat s).isSome ↔ pat <:+: s := by
  induction s with
  | nil => by_cases h : pat = [] <;> simp [rfind, h]
  | cons a s ih =>
      rw [List.infix_cons_iff, ← ih, rfind]
      cases rfind pat s with
      | some i => simp
      | none => by_cases h : pat <+: a :: s <;> simp [h]

/-- Only the front holds the pattern. -/
theorem rfind_cons_eq_zero_iff {pat s : List α} {a : α} :
    rfind pat (a :: s) = some 0 ↔ pat <+: a :: s ∧ ¬ pat <:+: s := by
  rw [← rfind_isSome_iff, rfind]
  cases rfind pat s with
  | some i => simp
  | none => simp

/-- A mark at the end is found there by a search from the end. -/
theorem rfind_append_self (s pat : List α) : rfind pat (s ++ pat) = some s.length := by
  induction s with
  | nil =>
      cases pat with
      | nil => rfl
      | cons c rest =>
          rw [List.nil_append, List.length_nil, rfind_cons_eq_zero_iff]
          refine ⟨List.prefix_rfl, fun h => ?_⟩
          have := h.length_le
          simp at this
  | cons a s ih => rw [List.cons_append, rfind, ih, List.length_cons]

/-! ## Patterns with a first letter of their own -/

section Unbordered

variable {c : α} {rest : List α}

/-- Text without the first letter is skipped. -/
theorem find_append_of_not_mem {s : List α} (hs : c ∉ s) (t : List α) :
    find (c :: rest) (s ++ t) = (find (c :: rest) t).map (· + s.length) := by
  induction s with
  | nil => simp
  | cons a s ih =>
      have ha : c ≠ a := fun h => hs (h ▸ List.mem_cons_self)
      have hno : ¬ (c :: rest).isPrefixOf (a :: (s ++ t)) := by
        intro hp
        have hp' := List.isPrefixOf_iff_prefix.mp hp
        rw [List.cons_prefix_cons] at hp'
        exact ha hp'.1
      rw [List.cons_append, find, if_neg hno, ih (fun h => hs (List.mem_cons_of_mem _ h)),
        Option.map_map]
      rfl

/-- Text without the first letter holds no part of the pattern in front. -/
theorem infix_append_of_not_mem {s : List α} (hs : c ∉ s) (t : List α) :
    c :: rest <:+: s ++ t ↔ c :: rest <:+: t := by
  rw [← find_isSome_iff, find_append_of_not_mem hs, Option.isSome_map, find_isSome_iff]

/-- **The mark at the end**: a pattern whose first letter does not come back
in it is not met across the place where it begins. -/
theorem find_append_self (hc : c ∉ rest) {s : List α} (hs : ¬ c :: rest <:+: s)
    (t : List α) : find (c :: rest) (s ++ ((c :: rest) ++ t)) = some s.length := by
  induction s with
  | nil => exact find_append_left _ _
  | cons a s ih =>
      have hs' : ¬ c :: rest <:+: s := fun h => hs (h.trans (List.suffix_cons a s).isInfix)
      have hno : ¬ (c :: rest).isPrefixOf (a :: (s ++ ((c :: rest) ++ t))) := by
        intro hp
        have hp' : c :: rest <+: (a :: s) ++ ((c :: rest) ++ t) :=
          List.isPrefixOf_iff_prefix.mp hp
        by_cases hle : (c :: rest).length ≤ (a :: s).length
        · -- it lies in front of the mark
          exact hs (List.prefix_of_prefix_length_le hp' (List.prefix_append _ _) hle).isInfix
        · -- the pattern would have its first letter again, behind `a :: s`
          have hget := hp'.getElem (i := s.length + 1)
            (by simp only [List.length_cons] at hle ⊢; omega)
          rw [List.getElem_append_right (by simp)] at hget
          simp only [List.length_cons, Nat.sub_self, List.cons_append,
            List.getElem_cons_zero, List.getElem_cons_succ] at hget
          exact hc (hget ▸ List.getElem_mem _)
      rw [List.cons_append, find, if_neg hno, ih hs']
      rfl

/-- **No early mark**: a part of a marked text that is cut before its end
does not hold the mark. -/
theorem not_infix_of_prefix (hc : c ∉ rest) {s p : List α} (hs : ¬ c :: rest <:+: s)
    (hp : p <+: s ++ (c :: rest)) (hne : p ≠ s ++ (c :: rest)) : ¬ c :: rest <:+: p := by
  intro h
  obtain ⟨q, hq⟩ := hp
  obtain ⟨i, hi⟩ := Option.isSome_iff_exists.mp (find_isSome_iff.mpr h)
  have hself := find_append_self hc hs []
  rw [List.append_nil, ← hq, find_append_of_some hi q] at hself
  cases hself
  have hle := find_le hi
  have hlen := congrArg List.length hq
  rw [List.length_append, List.length_append] at hlen
  have hq0 : q = [] := List.length_eq_zero_iff.mp (by omega)
  rw [hq0, List.append_nil] at hq
  exact hne hq

end Unbordered

omit [DecidableEq α] in
/-- A letter that is not in the pattern ends what can begin with it. -/
theorem prefix_append_cons_iff {d : α} {pat : List α} (hd : d ∉ pat) (s t : List α) :
    pat <+: s ++ d :: t ↔ pat <+: s := by
  constructor
  · intro h
    by_cases hle : pat.length ≤ s.length
    · exact List.prefix_of_prefix_length_le h (List.prefix_append _ _) hle
    · have hget := h.getElem (i := s.length) (by omega)
      rw [List.getElem_append_right (Nat.le_refl _)] at hget
      simp only [Nat.sub_self, List.getElem_cons_zero] at hget
      exact absurd (hget ▸ List.getElem_mem _) hd
  · exact fun h => h.trans (List.prefix_append _ _)

omit [DecidableEq α] in
/-- A letter that is not in the pattern begins what can end with it. -/
theorem suffix_append_cons_iff {d : α} {pat : List α} (hd : d ∉ pat) (s t : List α) :
    pat <:+ s ++ d :: t ↔ pat <:+ t := by
  have hd' : d ∉ pat.reverse := by simpa using hd
  have h := prefix_append_cons_iff hd' t.reverse s.reverse
  rw [← List.reverse_prefix, ← List.reverse_prefix]
  simpa using h

omit [DecidableEq α] in
/-- A letter that is not in the pattern separates: the pattern is met on one
side of it. -/
theorem infix_append_cons_iff {d : α} {pat : List α} (hd : d ∉ pat) (s t : List α) :
    pat <:+: s ++ d :: t ↔ pat <:+: s ∨ pat <:+: t := by
  constructor
  · intro h
    rcases List.infix_append_iff_ne_nil.mp h with h | h | ⟨front, back, _, hback, hpat, _, hp⟩
    · exact .inl h
    · rcases List.infix_cons_iff.mp h with hp | h
      · cases pat with
        | nil => exact .inl (List.nil_infix)
        | cons c rest =>
            rw [List.cons_prefix_cons] at hp
            simp [hp.1] at hd
      · exact .inr h
    · -- the part behind the border would begin with the letter
      cases back with
      | nil => exact absurd rfl hback
      | cons c back =>
          rw [List.cons_prefix_cons] at hp
          simp [hpat, hp.1] at hd
  · rintro (h | h)
    · exact h.trans (List.prefix_append _ _).isInfix
    · exact h.trans ((List.suffix_cons d t).trans (List.suffix_append _ _)).isInfix

omit [DecidableEq α] in
/-- What lies on the two sides of the first `d`. -/
theorem sep_inj {d : α} {s s' t t' : List α} (hs : d ∉ s) (hs' : d ∉ s')
    (h : s ++ d :: t = s' ++ d :: t') : s = s' ∧ t = t' := by
  rcases List.append_eq_append_iff.mp h with ⟨c, rfl, hc⟩ | ⟨c, rfl, hc⟩
  · cases c with
    | nil => simpa using hc
    | cons a c =>
        obtain ⟨rfl, -⟩ := List.cons.inj hc
        simp at hs'
  · cases c with
    | nil => simpa using hc.symm
    | cons a c =>
        obtain ⟨rfl, -⟩ := List.cons.inj hc
        simp at hs

omit [DecidableEq α] in
/-- **A pattern with its letter**: the first `d` of the pattern meets the
first `d` of the text, or one behind it. -/
theorem sep_infix_iff {d : α} {x y s t : List α} (hx : d ∉ x) (hs : d ∉ s) :
    x ++ d :: y <:+: s ++ d :: t ↔ (x <:+ s ∧ y <+: t) ∨ x ++ d :: y <:+: t := by
  constructor
  · rintro ⟨front, back, h⟩
    by_cases hfront : d ∈ front
    · -- the first `d` of the text lies in front of the pattern
      obtain ⟨u, v, rfl, hu⟩ := List.eq_append_cons_of_mem hfront
      have h' : u ++ d :: (v ++ (x ++ d :: y) ++ back) = s ++ d :: t := by
        rw [← h]
        simp
      exact .inr ⟨v, back, (sep_inj hu hs h').2⟩
    · have hmem : d ∉ front ++ x := by
        rw [List.mem_append]
        exact fun h => h.elim hfront hx
      have h' : front ++ x ++ d :: (y ++ back) = s ++ d :: t := by
        rw [← h]
        simp
      obtain ⟨hleft, hright⟩ := sep_inj hmem hs h'
      exact .inl ⟨⟨front, hleft⟩, back, hright⟩
  · rintro (⟨⟨front, rfl⟩, back, rfl⟩ | h)
    · exact ⟨front, back, by simp⟩
    · exact h.trans ((List.suffix_cons d t).trans (List.suffix_append _ _)).isInfix

/-- A search for a pattern without the letter `d` looks on the two sides of
it separately. -/
theorem find_append_cons {d : α} {pat : List α} (hd : d ∉ pat) (s t : List α) :
    find pat (s ++ d :: t)
      = match find pat s with
        | some i => some i
        | none => (find pat (d :: t)).map (· + s.length) := by
  induction s with
  | nil =>
      by_cases hp : pat = []
      · rw [hp, List.nil_append, find_nil_pat, find_nil_pat]
      · rw [List.nil_append, find, if_neg hp]
        simp
  | cons a s ih =>
      have hpre := prefix_append_cons_iff hd (a :: s) t
      rw [List.cons_append, find, find]
      by_cases hp : pat.isPrefixOf (a :: s)
      · have hp' : pat.isPrefixOf (a :: (s ++ d :: t)) :=
          List.isPrefixOf_iff_prefix.mpr (hpre.mpr (List.isPrefixOf_iff_prefix.mp hp))
        rw [if_pos hp, if_pos hp']
      · have hp' : ¬ pat.isPrefixOf (a :: (s ++ d :: t)) :=
          fun h => hp (List.isPrefixOf_iff_prefix.mpr (hpre.mp (List.isPrefixOf_iff_prefix.mp h)))
        rw [if_neg hp, if_neg hp', ih]
        cases find pat s with
        | some i => rfl
        | none =>
            rw [Option.map_map]
            rfl

/-! ## Splitting -/

/-- A list without the separator, or the part in front of the first one. -/
theorem splitOn_cases (d : α) (s : List α) :
    (d ∉ s ∧ s.splitOn d = [s])
      ∨ ∃ x y, s = x ++ d :: y ∧ d ∉ x ∧ s.splitOn d = x :: y.splitOn d := by
  by_cases hd : d ∈ s
  · obtain ⟨x, y, rfl, hx⟩ := List.eq_append_cons_of_mem hd
    exact .inr ⟨x, y, rfl, hx, List.splitOn_append_cons_self_of_not_mem hx y⟩
  · exact .inl ⟨hd, List.splitOn_eq_singleton hd⟩

theorem splitOn_eq_singleton_iff {d : α} {s a : List α} :
    s.splitOn d = [a] ↔ s = a ∧ d ∉ s := by
  rcases splitOn_cases d s with ⟨hd, hs⟩ | ⟨x, y, rfl, -, hs⟩
  · simp [hs, hd]
  · simp [hs, List.splitOn_ne_nil]

theorem splitOn_eq_pair_iff {d : α} {s a b : List α} :
    s.splitOn d = [a, b] ↔ s = a ++ d :: b ∧ d ∉ a ∧ d ∉ b := by
  constructor
  · intro h
    rcases splitOn_cases d s with ⟨-, hs⟩ | ⟨x, y, rfl, hx, hs⟩
    · rw [hs] at h
      cases h
    · rw [hs] at h
      obtain ⟨rfl, hy⟩ := List.cons.inj h
      obtain ⟨rfl, hb⟩ := splitOn_eq_singleton_iff.mp hy
      exact ⟨rfl, hx, hb⟩
  · rintro ⟨rfl, ha, hb⟩
    rw [List.splitOn_append_cons_self_of_not_mem ha, List.splitOn_eq_singleton hb]

theorem splitOn_eq_triple_iff {d : α} {s a b c : List α} :
    s.splitOn d = [a, b, c] ↔ s = a ++ d :: (b ++ d :: c) ∧ d ∉ a ∧ d ∉ b ∧ d ∉ c := by
  constructor
  · intro h
    rcases splitOn_cases d s with ⟨-, hs⟩ | ⟨x, y, rfl, hx, hs⟩
    · rw [hs] at h
      cases h
    · rw [hs] at h
      obtain ⟨rfl, hy⟩ := List.cons.inj h
      obtain ⟨rfl, hb, hc⟩ := splitOn_eq_pair_iff.mp hy
      exact ⟨rfl, hx, hb, hc⟩
  · rintro ⟨rfl, ha, hb, hc⟩
    rw [List.splitOn_append_cons_self_of_not_mem ha, splitOn_eq_pair_iff.mpr ⟨rfl, hb, hc⟩]

/-- Pieces that are each followed by the separator, and nothing behind the
last one. -/
theorem splitOn_flatMap {d : α} {pieces : List (List α)} (h : ∀ p ∈ pieces, d ∉ p) :
    (pieces.flatMap (· ++ [d])).splitOn d = pieces ++ [[]] := by
  induction pieces with
  | nil => simp
  | cons p rest ih =>
      rw [List.flatMap_cons, List.append_assoc, List.singleton_append,
        List.splitOn_append_cons_self_of_not_mem (h p List.mem_cons_self),
        ih fun q hq => h q (List.mem_cons_of_mem _ hq), List.cons_append]

end DistributedAscii.Lib.Search
