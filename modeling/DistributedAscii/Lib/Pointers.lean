import Mathlib.Logic.Function.Basic

/-!
# Lib — chains of next-pointers

A store of cells, each holding the name of its successor or the mark of a
last cell, is a function `next : α → Option α`. `Ends next x` says that
following the pointers from `x` reaches a last cell, `Leads next b x` that
it reaches `b`.

A writer that lays out a chain redirects one pointer at a time. Nothing is
assumed about where it points (a cell may be redirected twice, or taken out
of the middle of another chain): what survives every redirection is that
each cell which ended before ends now or leads to the cell being written
(`Pending`), and the write of a last mark turns the second case back into
the first.
-/

namespace DistributedAscii.Lib.Pointers

variable {α : Type*} {next : α → Option α}

/-- Following `next` from a cell reaches a last one. -/
inductive Ends (next : α → Option α) : α → Prop
  | last {x : α} (h : next x = none) : Ends next x
  | step {x y : α} (h : next x = some y) (hy : Ends next y) : Ends next x

/-- Following `next` from a cell reaches `b`. -/
inductive Leads (next : α → Option α) (b : α) : α → Prop
  | here : Leads next b b
  | step {x y : α} (h : next x = some y) (hy : Leads next b y) : Leads next b x

/-- A cell on the way of a writer that is about to set the pointer of `b`. -/
def Pending (next : α → Option α) (b x : α) : Prop :=
  Ends next x ∨ Leads next b x

theorem Leads.ends {b x : α} (h : Leads next b x) (hb : Ends next b) : Ends next x := by
  induction h with
  | here => exact hb
  | step h _ ih => exact .step h ih

/-- One more pointer at the far end. -/
theorem Leads.snoc {b c x : α} (h : Leads next b x) (hc : next b = some c) :
    Leads next c x := by
  induction h with
  | here => exact .step hc .here
  | step h _ ih => exact .step h ih

/-- A set closed under `next` holds whatever its members lead to. -/
theorem Leads.mem_of_closed {S : α → Prop} {b x : α}
    (hS : ∀ y z, S y → next y = some z → S z) (h : Leads next b x) (hx : S x) : S b := by
  induction h with
  | here => exact hx
  | step h _ ih => exact ih (hS _ _ hx h)

/-- What an ending chain leads to ends. -/
theorem Ends.of_leads {b x : α} (h : Ends next x) (hb : Leads next b x) : Ends next b := by
  induction hb with
  | here => exact h
  | step hxy _ ih =>
      cases h with
      | last hnone =>
          rw [hnone] at hxy
          cases hxy
      | step hxz hz =>
          rw [hxz] at hxy
          cases hxy
          exact ih hz

/-- **A cycle does not end.** The induction is on the chain that would: its
next cell lies on a cycle as well. -/
theorem not_ends_of_cycle {b x : α} (hb : Leads next b x) (hx : next b = some x) :
    ¬ Ends next x := by
  intro h
  induction h generalizing b with
  | last hnone =>
      cases hb with
      | here => rw [hnone] at hx; cases hx
      | step hxy _ => rw [hnone] at hxy; cases hxy
  | step hxy _ ih =>
      cases hb with
      | here =>
          rw [hxy] at hx
          cases hx
          exact ih .here hxy
      | step hxz hz =>
          rw [hxy] at hxz
          cases hxz
          exact ih (hz.snoc hx) hxy

/-! ## The cells of a chain -/

/-- The cells of a chain, up to its last one. -/
inductive Path (next : α → Option α) : α → List α → Prop
  | last {x : α} (h : next x = none) : Path next x [x]
  | step {x y : α} {path : List α} (h : next x = some y) (hy : Path next y path) :
      Path next x (x :: path)

theorem Ends.exists_path {x : α} (h : Ends next x) : ∃ path, Path next x path := by
  induction h with
  | last h => exact ⟨_, .last h⟩
  | step h _ ih =>
      obtain ⟨path, hpath⟩ := ih
      exact ⟨_, .step h hpath⟩

theorem Path.ends {x : α} {path : List α} (h : Path next x path) : Ends next x := by
  induction h with
  | last h => exact .last h
  | step h _ ih => exact .step h ih

theorem Path.leads {x b : α} {path : List α} (h : Path next x path) (hb : b ∈ path) :
    Leads next b x := by
  induction h with
  | last _ =>
      rw [List.mem_singleton] at hb
      exact hb ▸ .here
  | step hxy _ ih =>
      rcases List.mem_cons.mp hb with rfl | hb
      · exact .here
      · exact .step hxy (ih hb)

/-- No cell comes twice: the chain would turn in a cycle. -/
theorem Path.nodup {x : α} {path : List α} (h : Path next x path) : path.Nodup := by
  induction h with
  | last _ => simp
  | step hxy hy ih =>
      rw [List.nodup_cons]
      exact ⟨fun hmem => not_ends_of_cycle (hy.leads hmem) hxy hy.ends, ih⟩

section Update

variable [DecidableEq α]

/-- Redirecting `b` cuts a path short at `b` or leaves it alone. -/
theorem Leads.update {b x : α} (h : Leads next b x) (v : Option α) :
    Leads (Function.update next b v) b x := by
  induction h with
  | here => exact .here
  | @step x y hxy _ ih =>
      by_cases hx : x = b
      · subst hx
        exact .here
      · exact .step (by rw [Function.update_of_ne hx, hxy]) ih

/-- A cell that ended still ends, or leads to the redirected cell. -/
theorem Ends.update {x : α} (h : Ends next x) (b : α) (v : Option α) :
    Pending (Function.update next b v) b x := by
  induction h with
  | @last x hx =>
      by_cases hb : x = b
      · subst hb
        exact .inr .here
      · exact .inl (.last (by rw [Function.update_of_ne hb, hx]))
  | @step x y hxy _ ih =>
      by_cases hb : x = b
      · subst hb
        exact .inr .here
      · have hxy' : Function.update next b v x = some y := by
          rw [Function.update_of_ne hb, hxy]
        exact ih.imp (.step hxy') (.step hxy')

theorem Pending.update {b x : α} (h : Pending next b x) (v : Option α) :
    Pending (Function.update next b v) b x := by
  rcases h with h | h
  · exact h.update b v
  · exact .inr (h.update v)

/-- **Redirect**: after `b` is pointed at `c`, the writer is pending at `c`. -/
theorem Pending.redirect {b x : α} (h : Pending next b x) (c : α) :
    Pending (Function.update next b (some c)) c x := by
  rcases h.update (some c) with h | h
  · exact .inl h
  · exact .inr (h.snoc (Function.update_self b (some c) next))

/-- **Close**: after `b` is marked last, every pending cell ends. -/
theorem Pending.close {b x : α} (h : Pending next b x) :
    Ends (Function.update next b none) x := by
  rcases h.update none with h | h
  · exact h
  · exact h.ends (.last (Function.update_self b none next))

/-- Marking any cell as last never opens a chain. -/
theorem Ends.close {x : α} (h : Ends next x) (b : α) :
    Ends (Function.update next b none) x :=
  Pending.close (.inl h)

/-- Marking a cell as last keeps a writer pending. -/
theorem Pending.close_other {b x : α} (h : Pending next b x) (c : α) :
    Pending (Function.update next c none) b x := by
  rcases h with h | h
  · exact .inl (h.close c)
  · induction h with
    | here => exact .inr .here
    | @step x y hxy _ ih =>
        by_cases hc : x = c
        · subst hc
          exact .inl (.last (Function.update_self x none next))
        · have hxy' : Function.update next c none x = some y := by
            rw [Function.update_of_ne hc, hxy]
          exact ih.imp (.step hxy') (.step hxy')

end Update

end DistributedAscii.Lib.Pointers
