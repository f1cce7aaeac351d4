import Mathlib.Tactic

/-!
# Lib — programs that may stop

What an `Except` program must have done to come to a result: `bind_eq_ok`
takes a sequence apart, `check_eq_ok` and `need_eq_ok` the two ways of
stopping it.
-/

namespace DistributedAscii.Lib.Outcome

universe u v

variable {ε : Type u} {α β : Type v}

theorem bind_eq_ok {x : Except ε α} {f : α → Except ε β} {b : β} :
    (x >>= f) = .ok b ↔ ∃ a, x = .ok a ∧ f a = .ok b := by
  cases x <;> simp [bind, Except.bind]

theorem bind_eq_error {x : Except ε α} {f : α → Except ε β} {e : ε} :
    (x >>= f) = .error e ↔ x = .error e ∨ ∃ a, x = .ok a ∧ f a = .error e := by
  cases x <;> simp [bind, Except.bind]

/-- Stops with `e` unless `c`. -/
def check (c : Prop) [Decidable c] (e : ε) : Except ε PUnit :=
  if c then .ok ⟨⟩ else .error e

@[simp] theorem check_eq_ok {c : Prop} [Decidable c] {e : ε} {u : PUnit} :
    check c e = .ok u ↔ c := by
  unfold check
  split <;> simp_all

theorem check_eq_error {c : Prop} [Decidable c] {e e' : ε} :
    check c e = .error e' ↔ ¬c ∧ e' = e := by
  unfold check
  split <;> simp_all [eq_comm]

/-- Stops with `e` if there is no value. -/
def need (o : Option α) (e : ε) : Except ε α :=
  match o with
  | some a => .ok a
  | none => .error e

@[simp] theorem need_eq_ok {o : Option α} {e : ε} {a : α} : need o e = .ok a ↔ o = some a := by
  cases o <;> simp [need]

theorem need_eq_error {o : Option α} {e e' : ε} :
    need o e = .error e' ↔ o = none ∧ e' = e := by
  cases o <;> simp [need, eq_comm]

/-! ## Where the error does not matter -/

@[simp] theorem toOption_ok (a : α) : (.ok a : Except ε α).toOption = some a := rfl

@[simp] theorem toOption_error (e : ε) : (.error e : Except ε α).toOption = none := rfl

theorem toOption_bind (x : Except ε α) (f : α → Except ε β) :
    (x >>= f).toOption = x.toOption.bind fun a => (f a).toOption := by
  cases x <;> rfl

theorem need_toOption (o : Option α) (e : ε) : (need o e).toOption = o := by
  cases o <;> rfl

theorem toOption_eq_some {x : Except ε α} {a : α} : x.toOption = some a ↔ x = .ok a := by
  cases x <;> simp

end DistributedAscii.Lib.Outcome
