import Mathlib.Data.Option.Basic

/-!
# Mutual exclusion

A mutex is a variable that names its owner. The threads keep to it when exactly
the owner is at a position inside of a critical section, and they keep doing so
when every step moves one thread and takes or leaves the mutex together with
the critical section.
-/

namespace Transition

variable {T : Type*}

/-- Exactly the owner of the mutex is inside of a critical section. -/
def Guarded (owner : Option T) (inside : T → Bool) : Prop :=
  ∀ t, inside t = true ↔ owner = some t

/-- What a step of thread `t` may do to a mutex and to its own position: keep
both, take the free mutex and enter, or leave both. -/
inductive MutexStep (t : T) (owner owner' : Option T) (inside inside' : Bool) : Prop
  | keep (same : owner' = owner) (stay : inside' = inside)
  | take (free : owner = none) (taken : owner' = some t) (enter : inside' = true)
  | leave (held : inside = true) (freed : owner' = none) (exit : inside' = false)

variable {owner owner' : Option T} {inside inside' : T → Bool} {t u : T}

theorem Guarded.unique (h : Guarded owner inside) (ht : inside t = true) (hu : inside u = true) :
    t = u :=
  Option.some.inj (((h t).mp ht).symm.trans ((h u).mp hu))

theorem Guarded.outside (h : Guarded owner inside) (ht : inside t = true) (hne : u ≠ t) :
    inside u = false :=
  Bool.eq_false_iff.mpr fun hu => hne (h.unique hu ht)

theorem Guarded.outside_of_free (h : Guarded owner inside) (hfree : owner = none) (t : T) :
    inside t = false :=
  Bool.eq_false_iff.mpr fun ht => Option.some_ne_none t (((h t).mp ht).symm.trans hfree)

/-- A step that keeps to the mutex keeps the mutex guarding the sections. -/
theorem Guarded.step (h : Guarded owner inside)
    (hstep : MutexStep t owner owner' (inside t) (inside' t))
    (hother : ∀ u, u ≠ t → inside' u = inside u) : Guarded owner' inside' := by
  intro u
  by_cases hu : u = t
  · subst hu
    cases hstep with
    | keep same stay => rw [same, stay]; exact h u
    | take free taken enter => simp [taken, enter]
    | leave held freed exit => simp [freed, exit]
  · rw [hother u hu]
    cases hstep with
    | keep same stay => rw [same]; exact h u
    | take free taken enter => simp [taken, h.outside_of_free free u, Ne.symm hu]
    | leave held freed exit => simp [freed, h.outside held hu]

end Transition
