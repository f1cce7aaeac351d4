import Mathlib.Data.List.Basic
import Mathlib.Tactic

/-!
# Lib — random-access files

A file is the list of its cells. A read hands out the cells that are there;
a write at a position replaces cells, and a write that starts past the end
fills the gap with a blank cell first (POSIX `lseek` + `write`).

The laws are stated over a decomposition of the file: a write that falls on
a middle part of its own size replaces that part (`writeAt_middle`), a write
at or past the end appends (`writeAt_end`, `writeAt_gap`). A structured
image is edited through these two shapes and never through indices.
-/

namespace DistributedAscii.Lib.ByteFile

variable {α : Type*}

/-- The cells `pos, …, pos + n - 1`, as far as the file goes. -/
def readAt (file : List α) (pos n : Nat) : List α :=
  (file.drop pos).take n

/-- The file after `new` is written at `pos`; a gap is filled with `blank`. -/
def writeAt (blank : α) (file : List α) (pos : Nat) (new : List α) : List α :=
  file.take pos ++ List.replicate (pos - file.length) blank ++ new ++
    file.drop (pos + new.length)

section Read

/-- A read of exactly the middle part of a file. -/
theorem readAt_middle (front mid back : List α) :
    readAt (front ++ mid ++ back) front.length mid.length = mid := by
  rw [readAt, List.append_assoc, List.drop_left, List.take_left]

theorem length_readAt_le (file : List α) (pos n : Nat) :
    (readAt file pos n).length ≤ n := by
  rw [readAt, List.length_take]
  exact Nat.min_le_left _ _

/-- A read in two parts. -/
theorem readAt_add (file : List α) (pos m n : Nat) :
    readAt file pos (m + n) = readAt file pos m ++ readAt file (pos + m) n := by
  rw [readAt, readAt, readAt, List.take_add, List.drop_drop]

/-- Behind a short read there is nothing. -/
theorem readAt_behind {file : List α} {pos m : Nat} (h : (readAt file pos m).length ≠ m) (n : Nat) :
    readAt file (pos + m) n = [] := by
  rw [readAt, List.length_take, List.length_drop] at h
  rw [readAt, List.drop_eq_nil_of_le (by omega), List.take_nil]

end Read

section Write

variable (blank : α)

/-- **In place**: a write over a middle part of its own size replaces it. -/
theorem writeAt_middle (front mid back new : List α) (h : new.length = mid.length) :
    writeAt blank (front ++ mid ++ back) front.length new = front ++ new ++ back := by
  have hdrop : (front ++ mid ++ back).drop (front.length + new.length) = back := by
    rw [h, ← List.length_append, List.drop_left]
  have htake : (front ++ mid ++ back).take front.length = front := by
    rw [List.append_assoc, List.take_left]
  have hgap : front.length - (front ++ mid ++ back).length = 0 := by
    simp only [List.length_append]
    omega
  rw [writeAt, hdrop, htake, hgap, List.replicate_zero, List.append_nil]

/-- **At the end**: a write at the end of the file appends. -/
theorem writeAt_end (file new : List α) :
    writeAt blank file file.length new = file ++ new := by
  rw [writeAt, List.take_length, Nat.sub_self, List.drop_eq_nil_of_le (by omega),
    List.replicate_zero, List.append_nil, List.append_nil]

/-- **Past the end**: the gap is filled with blanks. -/
theorem writeAt_gap (file : List α) (k : Nat) (new : List α) :
    writeAt blank file (file.length + k) new
      = file ++ List.replicate k blank ++ new := by
  rw [writeAt, List.take_of_length_le (by omega), List.drop_eq_nil_of_le (by omega),
    Nat.add_sub_cancel_left, List.append_nil]

/-- **In two parts**: one write is the write of its front and then of the
rest behind it. -/
theorem writeAt_append (file : List α) (pos : Nat) (xs ys : List α) :
    writeAt blank file pos (xs ++ ys)
      = writeAt blank (writeAt blank file pos xs) (pos + xs.length) ys := by
  have hfront : (file.take pos ++ List.replicate (pos - file.length) blank ++ xs).length
      = pos + xs.length := by
    simp only [List.length_append, List.length_take, List.length_replicate]
    omega
  have hgap : pos + xs.length
      - (file.take pos ++ List.replicate (pos - file.length) blank ++ xs
        ++ file.drop (pos + xs.length)).length = 0 := by
    rw [List.length_append, hfront]
    omega
  have hback : (file.take pos ++ List.replicate (pos - file.length) blank ++ xs
        ++ file.drop (pos + xs.length)).drop (pos + xs.length + ys.length)
      = file.drop (pos + (xs ++ ys).length) := by
    rw [← List.drop_drop, List.drop_left' hfront, List.drop_drop, List.length_append,
      Nat.add_assoc]
  rw [writeAt, writeAt, writeAt, hgap, hback, List.take_left' hfront, List.replicate_zero,
    List.append_nil]
  simp only [List.append_assoc]

end Write

/-! ## Records of one size

A table inside a file: `records.flatMap enc`, where every encoding has the
same size. -/

section Records

variable {β : Type*} {enc : β → List α} {size : Nat}

theorem length_records (h : ∀ r, (enc r).length = size) (records : List β) :
    (records.flatMap enc).length = size * records.length := by
  induction records with
  | nil => simp
  | cons r rest ih =>
      rw [List.flatMap_cons, List.length_append, ih, h, List.length_cons]
      ring

/-- Cell `off` of record `i`, behind a header. -/
theorem getElem?_record (h : ∀ r, (enc r).length = size) (head : List α)
    {records : List β} {i off : Nat} (hi : i < records.length) (hoff : off < size)
    (tail : List α) :
    (head ++ records.flatMap enc ++ tail)[head.length + size * i + off]?
      = (enc records[i])[off]? := by
  have hsplit : records = records.take i ++ records[i] :: records.drop (i + 1) := by
    rw [List.cons_getElem_drop_succ, List.take_append_drop]
  have hfront : ((records.take i).flatMap enc).length = size * i := by
    rw [length_records h, List.length_take, Nat.min_eq_left (by omega)]
  have henc : off < (enc records[i]).length := by rw [h]; exact hoff
  conv_lhs => rw [hsplit]
  rw [List.flatMap_append, List.flatMap_cons, List.append_assoc, List.append_assoc,
    Nat.add_assoc, List.getElem?_append_right (by omega), Nat.add_sub_cancel_left,
    List.getElem?_append_right (by omega), hfront, Nat.add_sub_cancel_left,
    List.append_assoc, List.getElem?_append_left henc]

/-- Record `i`, behind a header. -/
theorem readAt_record (h : ∀ r, (enc r).length = size) (head : List α)
    {records : List β} {i : Nat} (hi : i < records.length) (tail : List α) :
    readAt (head ++ records.flatMap enc ++ tail) (head.length + size * i) size
      = enc records[i] := by
  have hsplit : records = records.take i ++ records[i] :: records.drop (i + 1) := by
    rw [List.cons_getElem_drop_succ, List.take_append_drop]
  have hfront : (head ++ (records.take i).flatMap enc).length = head.length + size * i := by
    rw [List.length_append, length_records h, List.length_take,
      Nat.min_eq_left (by omega)]
  have hfile : head ++ records.flatMap enc ++ tail
      = (head ++ (records.take i).flatMap enc) ++ enc records[i]
        ++ ((records.drop (i + 1)).flatMap enc ++ tail) := by
    conv_lhs => rw [hsplit]
    simp only [List.flatMap_append, List.flatMap_cons, List.append_assoc]
  rw [hfile, ← hfront]
  conv_lhs => rw [← h records[i]]
  exact readAt_middle _ _ _

/-- **A record is edited in place**: a write of its part `old`, behind
`front`, changes that record only. -/
theorem writeAt_record (h : ∀ r, (enc r).length = size) (blank : α) (head : List α)
    {records : List β} {i : Nat} (hi : i < records.length) {f : β → β}
    {front old back new : List α} (hold : enc records[i] = front ++ old ++ back)
    (hnew : enc (f records[i]) = front ++ new ++ back) (hlen : new.length = old.length)
    (tail : List α) :
    writeAt blank (head ++ records.flatMap enc ++ tail)
        (head.length + size * i + front.length) new
      = head ++ (records.modify i f).flatMap enc ++ tail := by
  obtain ⟨l₁, r, l₂, hrec, hl₁, hmod⟩ := List.exists_of_modify f hi
  have hr : records[i] = r := by
    subst hl₁
    simp [hrec]
  rw [hr] at hold hnew
  have hfront : (head ++ l₁.flatMap enc ++ front).length
      = head.length + size * i + front.length := by
    rw [List.length_append, List.length_append, length_records h, hl₁]
  have hfile : head ++ records.flatMap enc ++ tail
      = (head ++ l₁.flatMap enc ++ front) ++ old ++ (back ++ l₂.flatMap enc ++ tail) := by
    rw [hrec, List.flatMap_append, List.flatMap_cons, hold]
    simp only [List.append_assoc]
  rw [hfile, ← hfront, writeAt_middle blank _ _ _ _ hlen, hmod, List.flatMap_append,
    List.flatMap_cons, hnew]
  simp only [List.append_assoc]

end Records

end DistributedAscii.Lib.ByteFile
