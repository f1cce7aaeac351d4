import Mathlib.Data.List.GetD
import Mathlib.Data.List.Nodup
import Mathlib.Logic.Function.Basic
import Mathlib.Tactic

/-!
# Lib — paged memory

A space of pages in the frames of a memory: page `i` lies in `frames[i]`, and
`locate` is where a byte of the space lies. Distinct frames keep distinct
bytes apart.

`scatter` writes a list byte by byte through such a placement. Inside a page
it is one block (`scatter_eq_store`), and a copy in chunks is the copy of the
whole (`scatter_append`), which is what a loader that goes page by page rests
on. What it writes is read back where no two bytes fall together, and the
rest of the memory stays.
-/

namespace DistributedAscii.Lib.Paging

open Function (update update_self update_of_ne)

section Locate

variable {frames : List Nat} {size v w : Nat}

/-- Where byte `v` of the space lies. -/
def locate (frames : List Nat) (size v : Nat) : Nat :=
  frames.getD (v / size) 0 * size + v % size

theorem locate_div (hsize : 0 < size) (v : Nat) :
    locate frames size v / size = frames.getD (v / size) 0 := by
  rw [locate, Nat.mul_comm, Nat.mul_add_div hsize, Nat.div_eq_of_lt (Nat.mod_lt _ hsize),
    Nat.add_zero]

theorem locate_mod (v : Nat) : locate frames size v % size = v % size := by
  rw [locate, Nat.mul_comm, Nat.mul_add_mod, Nat.mod_mod]

/-- Inside a page, bytes that follow each other lie behind each other. -/
theorem locate_add {k : Nat} (h : v % size + k < size) :
    locate frames size (v + k) = locate frames size v + k := by
  have hsplit := Nat.div_add_mod v size
  have hv : v + k = size * (v / size) + (v % size + k) := by omega
  have hdiv : (v + k) / size = v / size := by
    rw [hv, Nat.mul_add_div (by omega), Nat.div_eq_of_lt h, Nat.add_zero]
  have hmod : (v + k) % size = v % size + k := by
    rw [hv, Nat.mul_add_mod, Nat.mod_eq_of_lt h]
  rw [locate, locate, hdiv, hmod, Nat.add_assoc]

/-- The frame of a byte is one of the frames. -/
theorem getD_mem (hv : v < frames.length * size) : frames.getD (v / size) 0 ∈ frames := by
  have hpage : v / size < frames.length := Nat.div_lt_of_lt_mul (by rwa [Nat.mul_comm])
  rw [List.getD_eq_getElem _ _ hpage]
  exact List.getElem_mem hpage

/-- **Distinct frames keep the bytes apart.** -/
theorem locate_inj (hnodup : frames.Nodup) (hv : v < frames.length * size)
    (hw : w < frames.length * size) (h : locate frames size v = locate frames size w) :
    v = w := by
  have hsize : 0 < size := Nat.pos_of_ne_zero fun h0 => by simp [h0] at hv
  have hpage : ∀ {u}, u < frames.length * size → u / size < frames.length := fun hu =>
    Nat.div_lt_of_lt_mul (by rwa [Nat.mul_comm])
  have hframe : frames.getD (v / size) 0 = frames.getD (w / size) 0 := by
    rw [← locate_div hsize, h, locate_div hsize]
  rw [List.getD_eq_getElem _ _ (hpage hv), List.getD_eq_getElem _ _ (hpage hw),
    hnodup.getElem_inj_iff] at hframe
  have hmod : v % size = w % size := by
    have hv : locate frames size v % size = v % size := locate_mod v
    rw [← hv, h, locate_mod]
  rw [← Nat.div_add_mod v size, hframe, hmod, Nat.div_add_mod]

end Locate

section Scatter

variable {α : Type*} {place : Nat → Nat} {bytes : List α} {memory : Nat → α}

/-- `bytes` in one block from `a` on. -/
def store (memory : Nat → α) (a : Nat) (bytes : List α) : Nat → α :=
  fun p => if a ≤ p then (bytes[p - a]?).getD (memory p) else memory p

/-- `bytes` at the places of `v`, `v + 1` and so on. -/
def scatter (place : Nat → Nat) : Nat → List α → (Nat → α) → Nat → α
  | _, [], memory => memory
  | v, b :: rest, memory => scatter place (v + 1) rest (update memory (place v) b)

theorem scatter_append (v : Nat) (front back : List α) (memory : Nat → α) :
    scatter place v (front ++ back) memory =
      scatter place (v + front.length) back (scatter place v front memory) := by
  induction front generalizing v memory with
  | nil => rfl
  | cons b front ih =>
      rw [List.cons_append, scatter, ih, List.length_cons, scatter, Nat.add_assoc,
        Nat.add_comm 1]

theorem store_nil (a : Nat) : store memory a [] = memory := by
  funext p
  simp [store]

theorem store_cons (a : Nat) (b : α) (rest : List α) :
    store memory a (b :: rest) = store (update memory a b) (a + 1) rest := by
  funext p
  simp only [store]
  rcases Nat.lt_trichotomy p a with hp | rfl | hp
  · have hne : p ≠ a := by omega
    rw [if_neg (by omega), if_neg (by omega), update_of_ne hne]
  · rw [if_pos (by omega), if_neg (by omega), update_self, Nat.sub_self]
    rfl
  · have hne : p ≠ a := by omega
    obtain ⟨k, rfl⟩ := Nat.exists_eq_add_of_lt hp
    rw [if_pos (by omega), if_pos (by omega), update_of_ne hne,
      show a + k + 1 - a = k + 1 by omega, show a + k + 1 - (a + 1) = k by omega,
      List.getElem?_cons_succ]

/-- **A block**: places that follow each other. -/
theorem scatter_eq_store {v a : Nat} (h : ∀ k < bytes.length, place (v + k) = a + k) :
    scatter place v bytes memory = store memory a bytes := by
  induction bytes generalizing v a memory with
  | nil => exact (store_nil a).symm
  | cons b rest ih =>
      have hfirst : place v = a := h 0 (Nat.succ_pos _)
      rw [store_cons, scatter, hfirst]
      refine ih fun k hk => ?_
      rw [Nat.add_assoc, Nat.add_assoc, Nat.add_comm 1]
      exact h (k + 1) (Nat.succ_lt_succ hk)

/-- **The frame**: what lies elsewhere stays. -/
theorem scatter_of_ne {v p : Nat} (h : ∀ k < bytes.length, place (v + k) ≠ p) :
    scatter place v bytes memory p = memory p := by
  induction bytes generalizing v memory with
  | nil => rfl
  | cons b rest ih =>
      have hrest : ∀ k < rest.length, place (v + 1 + k) ≠ p := by
        intro k hk
        rw [Nat.add_assoc, Nat.add_comm 1]
        exact h (k + 1) (Nat.succ_lt_succ hk)
      have hfirst : p ≠ place v := Ne.symm (h 0 (Nat.succ_pos _))
      rw [scatter, ih hrest, update_of_ne hfirst]

/-- **Read back**, where no two bytes fall together. -/
theorem scatter_apply {v k : Nat}
    (hinj : ∀ i < bytes.length, ∀ j < bytes.length, place (v + i) = place (v + j) → i = j)
    (hk : k < bytes.length) : scatter place v bytes memory (place (v + k)) = bytes[k] := by
  induction bytes generalizing v k memory with
  | nil => cases hk
  | cons b rest ih =>
      have hshift : ∀ i, v + 1 + i = v + (i + 1) := fun i => by omega
      rw [scatter]
      cases k with
      | zero =>
          have hother : ∀ i < rest.length, place (v + 1 + i) ≠ place v := by
            intro i hi heq
            rw [hshift] at heq
            cases hinj (i + 1) (Nat.succ_lt_succ hi) 0 (Nat.succ_pos _) heq
          show scatter place (v + 1) rest (update memory (place v) b) (place v) = b
          rw [scatter_of_ne hother, update_self]
      | succ k =>
          have hrest : ∀ i < rest.length, ∀ j < rest.length,
              place (v + 1 + i) = place (v + 1 + j) → i = j := by
            intro i hi j hj heq
            rw [hshift, hshift] at heq
            exact Nat.succ.inj
              (hinj (i + 1) (Nat.succ_lt_succ hi) (j + 1) (Nat.succ_lt_succ hj) heq)
          rw [← hshift k, ih hrest (Nat.lt_of_succ_lt_succ hk)]
          rfl

end Scatter

end DistributedAscii.Lib.Paging
