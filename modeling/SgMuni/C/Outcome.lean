import Mathlib.Tactic.TypeStar

/-!
# Computations that may be undefined

A function of the program returns a value or reports a failure. A computation that
accesses memory out of bounds, that reads an argument which is not there, or that does
not end within its fuel, does neither.
-/

namespace C

/-- What a computation comes to. -/
inductive Outcome (α : Type*)
  | ok (a : α)
  | fail
  | fault
deriving DecidableEq

namespace Outcome

variable {α β : Type*}

def bind (x : Outcome α) (f : α → Outcome β) : Outcome β :=
  match x with
  | .ok a => f a
  | .fail => .fail
  | .fault => .fault

/-- An access with no result is out of bounds. -/
def ofAccess : Option α → Outcome α
  | some a => .ok a
  | none => .fault

/-- No access is out of bounds, and the computation ends. -/
def Safe (x : Outcome α) : Prop := x ≠ .fault

@[simp] theorem safe_ok (a : α) : Safe (.ok a) := nofun

@[simp] theorem safe_fail : Safe (.fail : Outcome α) := nofun

@[simp] theorem ok_bind (a : α) (f : α → Outcome β) : bind (.ok a) f = f a := rfl

theorem bind_assoc {γ : Type*} (x : Outcome α) (f : α → Outcome β) (g : β → Outcome γ) :
    (x.bind f).bind g = x.bind fun a => (f a).bind g := by
  cases x <;> rfl

theorem bind_eq_ok {x : Outcome α} {f : α → Outcome β} {b : β} :
    x.bind f = .ok b ↔ ∃ a, x = .ok a ∧ f a = .ok b := by
  cases x <;> simp [bind]

theorem Safe.bind {x : Outcome α} (hx : x.Safe) {f : α → Outcome β}
    (hf : ∀ a, x = .ok a → (f a).Safe) : (x.bind f).Safe := by
  cases x with
  | ok a => exact hf a rfl
  | fail => exact safe_fail
  | fault => exact absurd rfl hx

theorem ofAccess_eq_ok {o : Option α} {a : α} : ofAccess o = .ok a ↔ o = some a := by
  cases o <;> simp [ofAccess]

theorem safe_ofAccess {o : Option α} : (ofAccess o).Safe ↔ o.isSome := by
  cases o <;> simp [ofAccess, Safe]

end Outcome

end C
