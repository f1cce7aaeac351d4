import Mathlib.Data.List.TakeWhile
import Mathlib.Tactic

/-!
# Text

`char` data of the program: a `std::string` is its list of bytes, a
`char *` argument is a `CString`, the bytes before the terminator, so that
no terminator can occur inside one. Source literals are written as Lean
strings and encoded by `bytes` (the sources are UTF-8).
-/

namespace DistributedAscii

/-- The contents of a `std::string`, or of a region of memory. -/
abbrev Bytes := List UInt8

instance Bytes.lawfulBEq : LawfulBEq Bytes := inferInstance

/-- The bytes of a source literal. -/
def bytes (s : String) : Bytes :=
  s.toList.flatMap String.utf8EncodeChar

/-- What a C string function sees of a region: the bytes before the first
NUL (all of them, if there is none). -/
def untilNul (s : Bytes) : Bytes :=
  s.takeWhile (· ≠ 0)

/-- A NUL-terminated string. -/
structure CString where
  bytes : Bytes
  noNul : 0 ∉ bytes
deriving DecidableEq

theorem not_mem_untilNul (s : Bytes) : 0 ∉ untilNul s := by
  intro h
  simpa using List.mem_takeWhile_imp h

theorem untilNul_of_not_mem {s : Bytes} (h : 0 ∉ s) : untilNul s = s := by
  rw [untilNul, List.takeWhile_eq_self_iff]
  intro b hb
  have hne : b ≠ 0 := by
    rintro rfl
    exact h hb
  simpa using hne

/-- The bytes up to a terminator, whatever follows it. -/
theorem untilNul_append_nul {s : Bytes} (h : 0 ∉ s) (rest : Bytes) :
    untilNul (s ++ 0 :: rest) = s := by
  rw [untilNul, List.takeWhile_append_of_pos]
  · simp
  · intro b hb
    have hne : b ≠ 0 := by
      rintro rfl
      exact h hb
    simpa using hne

/-- A string followed by padding reads back as the string. -/
theorem untilNul_append_replicate {s : Bytes} (h : 0 ∉ s) (k : Nat) :
    untilNul (s ++ List.replicate k 0) = s := by
  cases k with
  | zero => rw [List.replicate_zero, List.append_nil, untilNul_of_not_mem h]
  | succ k => rw [List.replicate_succ, untilNul_append_nul h]

theorem untilNul_replicate (k : Nat) : untilNul (List.replicate k 0) = [] := by
  simpa using untilNul_append_replicate (s := []) (by simp) k

namespace CString

/-- The `c_str()` of a `std::string`, as a C function reads it. -/
def ofBytes (s : Bytes) : CString :=
  ⟨untilNul s, not_mem_untilNul s⟩

/-- `strlen`. -/
def length (s : CString) : Nat :=
  s.bytes.length

theorem ext {s t : CString} (h : s.bytes = t.bytes) : s = t := by
  cases s
  cases t
  simp only at h
  subst h
  rfl

theorem ofBytes_bytes {s : Bytes} (h : 0 ∉ s) : (ofBytes s).bytes = s :=
  untilNul_of_not_mem h

end CString

/-- `memset`/`calloc` to `n` bytes, then a copy of `s` at the front. -/
def padTo (n : Nat) (s : Bytes) : Bytes :=
  s ++ List.replicate (n - s.length) 0

theorem length_padTo {n : Nat} {s : Bytes} (h : s.length ≤ n) :
    (padTo n s).length = n := by
  rw [padTo, List.length_append, List.length_replicate]
  omega

theorem untilNul_padTo (n : Nat) {s : Bytes} (h : 0 ∉ s) : untilNul (padTo n s) = s :=
  untilNul_append_replicate h _

end DistributedAscii
