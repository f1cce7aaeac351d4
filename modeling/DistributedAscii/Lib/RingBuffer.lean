import Mathlib.Algebra.Group.Fin.Basic
import Mathlib.Data.List.DropRight
import Mathlib.Tactic

/-!
# Lib — ring buffers

An array of `n` cells with a write and a read position that advance modulo
`n`, and no counter: nothing keeps the writer from running over what has not
been read. `Pending r text` says that `text` was written behind the read
position and not yet read; of a text longer than the array only the last `n`
letters are still there (`Pending.drop`), and the read position, which is
only known modulo `n`, stands in front of those.
-/

namespace DistributedAscii.Lib

structure Ring (α : Type*) (n : Nat) where
  buffer : Fin n → α
  writeIndex : Fin n
  readIndex : Fin n

namespace Ring

variable {α : Type*} {n : Nat} [NeZero n]

/-- The cell `i` places behind `p`. -/
def cell (p : Fin n) (i : Nat) : Fin n :=
  p + Fin.ofNat n i

@[simp] theorem cell_zero (p : Fin n) : cell p 0 = p := by
  simp [cell]

theorem cell_add (p : Fin n) (i j : Nat) : cell (cell p i) j = cell p (i + j) := by
  apply Fin.ext
  simp [cell, Fin.val_add, Nat.add_assoc]

theorem cell_one (p : Fin n) : cell p 1 = p + 1 := by
  apply Fin.ext
  simp [cell, Fin.val_add]

theorem cell_cap (p : Fin n) : cell p n = p := by
  simp [cell]

theorem cell_eq_self_iff {p : Fin n} {i : Nat} : cell p i = p ↔ n ∣ i := by
  rw [cell, add_eq_left, ← Fin.natCast_eq_zero]
  rfl

/-- Fewer than `n` places apart, cells differ. -/
theorem cell_ne {p : Fin n} {i j : Nat} (hij : i < j) (hn : j < i + n) :
    cell p i ≠ cell p j := by
  intro h
  have hval := congrArg Fin.val h
  simp only [cell, Fin.val_add, Fin.val_ofNat, Nat.add_mod_mod] at hval
  have hdvd : n ∣ j - i := by
    have := (Nat.modEq_iff_dvd' (by omega : p.val + i ≤ p.val + j)).mp hval
    rwa [Nat.add_sub_add_left] at this
  have := Nat.le_of_dvd (by omega) hdvd
  omega

/-! ## The operations -/

def store (r : Ring α n) (a : α) : Ring α n :=
  { r with buffer := fun p => if p = r.writeIndex then a else r.buffer p }

def advanceWrite (r : Ring α n) : Ring α n :=
  { r with writeIndex := r.writeIndex + 1 }

def load (r : Ring α n) : α :=
  r.buffer r.readIndex

def advanceRead (r : Ring α n) : Ring α n :=
  { r with readIndex := r.readIndex + 1 }

/-- A letter and the advance behind it. -/
def put (r : Ring α n) (a : α) : Ring α n :=
  (r.store a).advanceWrite

/-! ## What has been written and not read -/

/-- `text` lies behind the read position, as far as it has not been
overwritten by itself. -/
structure Pending (r : Ring α n) (text : List α) : Prop where
  write : r.writeIndex = cell r.readIndex text.length
  cells : ∀ i a, text[i]? = some a → text.length ≤ i + n → r.buffer (cell r.readIndex i) = a

theorem pending_nil_iff {r : Ring α n} : Pending r [] ↔ r.readIndex = r.writeIndex := by
  constructor
  · intro h
    simpa using h.write.symm
  · intro h
    exact ⟨by simp [h], by simp⟩

/-- A letter is written. -/
theorem Pending.put {r : Ring α n} {text : List α} (h : Pending r text) (a : α) :
    Pending (r.store a).advanceWrite (text ++ [a]) := by
  constructor
  · simp only [store, advanceWrite, List.length_append, List.length_singleton]
    rw [← cell_add, ← h.write, cell_one]
  · intro i b hb hi
    simp only [List.length_append, List.length_singleton] at hi
    simp only [store, advanceWrite]
    rw [h.write]
    by_cases hlt : i < text.length
    · rw [List.getElem?_append_left hlt] at hb
      rw [if_neg (cell_ne hlt (by omega)), h.cells i b hb (by omega)]
    · have hlen := (List.getElem?_eq_some_iff.mp hb).1
      simp only [List.length_append, List.length_singleton] at hlen
      obtain rfl : i = text.length := by omega
      simpa using hb

theorem Pending.putAll {r : Ring α n} {text : List α} (h : Pending r text) (l : List α) :
    Pending (l.foldl Ring.put r) (text ++ l) := by
  induction l generalizing r text with
  | nil => simpa using h
  | cons a l ih =>
      have hput : Pending (r.put a) (text ++ [a]) := h.put a
      simpa using ih hput

/-- A letter is read. -/
theorem Pending.take {r : Ring α n} {a : α} {text : List α} (h : Pending r (a :: text))
    (hlen : text.length < n) : r.load = a ∧ Pending r.advanceRead text := by
  constructor
  · have := h.cells 0 a rfl (by simp; omega)
    simpa [load] using this
  · have hpos : ∀ i, cell (r.readIndex + 1) i = cell r.readIndex (i + 1) := by
      intro i
      rw [← cell_one, cell_add, Nat.add_comm]
    constructor
    · simp only [advanceRead, hpos, h.write, List.length_cons]
    · intro i b hb _
      simp only [advanceRead, hpos]
      exact h.cells (i + 1) b (by simpa using hb) (by simp; omega)

/-- **Running over itself**: of a text that does not fit the front is lost. -/
theorem Pending.drop {r : Ring α n} {text : List α} (h : Pending r text)
    (hlen : n ≤ text.length) : Pending r (text.drop n) := by
  have hpos : ∀ i, cell r.readIndex (n + i) = cell r.readIndex i := by
    intro i
    rw [← cell_add, cell_cap]
  constructor
  · rw [List.length_drop, ← hpos, Nat.add_sub_cancel' hlen]
    exact h.write
  · intro i a ha hi
    rw [List.length_drop] at hi
    rw [← hpos]
    exact h.cells (n + i) a (by simpa using ha) (by omega)

/-! ## Messages -/

/-- What is left of a message that is written whole before it is read. -/
def kept (n : Nat) (m : List α) : List α :=
  m.drop (n * (m.length / n))

omit [NeZero n] in
theorem kept_of_lt {m : List α} (h : m.length < n) : kept n m = m := by
  simp [kept, Nat.div_eq_of_lt h]

omit [NeZero n] in
theorem length_kept (m : List α) : (kept n m).length = m.length % n := by
  rw [kept, List.length_drop, Nat.mod_def]

theorem length_kept_lt (m : List α) : (kept n m).length < n := by
  rw [length_kept]
  exact Nat.mod_lt _ (NeZero.pos n)

theorem Pending.drop_mul {r : Ring α n} {text : List α} (h : Pending r text) (k : Nat)
    (hlen : n * k ≤ text.length) : Pending r (text.drop (n * k)) := by
  induction k with
  | zero => simpa using h
  | succ k ih =>
      rw [Nat.mul_succ] at hlen ⊢
      have hdrop := (ih (by omega)).drop (by rw [List.length_drop]; omega)
      rwa [List.drop_drop] at hdrop

/-- **A message and its terminator**: what can be read of it fits. -/
theorem Pending.kept {r : Ring α n} {m : List α} {z : α} (h : Pending r (m ++ [z])) :
    Pending r (kept n m ++ [z]) := by
  have hle : n * (m.length / n) ≤ m.length := Nat.mul_div_le _ _
  have hdrop := h.drop_mul (m.length / n) (by simp; omega)
  rwa [List.drop_append_of_le_length hle] at hdrop

end Ring

end DistributedAscii.Lib
