import Mathlib.Data.Set.Basic
import Mathlib.Order.WellFounded

/-!
# Waiting for resources

A thread waits for a resource until one of the threads that can free it does.
A deadlock is a nonempty set of waiting threads that contains every thread
that can free what a member waits for.
-/

namespace Transition

/-- Who waits for what, and who can free what, in one state. -/
structure WaitGraph (T R : Type*) where
  waits : T → R → Prop
  frees : R → T → Prop

namespace WaitGraph

variable {T R : Type*} (G : WaitGraph T R)

/-- A nonempty set of threads each of which waits for something that only
members of the set can free. -/
def Deadlocked : Prop :=
  ∃ W : Set T, W.Nonempty ∧ ∀ t ∈ W, ∃ r, G.waits t r ∧ ∀ u, G.frees r u → u ∈ W

variable {G}

/-- Two threads that wait for each other, and for nobody else. -/
theorem deadlocked_of_pair {t u : T} {r q : R} (ht : G.waits t r) (hu : G.waits u q)
    (hr : ∀ v, G.frees r v → v = u) (hq : ∀ v, G.frees q v → v = t) : G.Deadlocked := by
  refine ⟨{t, u}, ⟨t, by simp⟩, fun v hv => ?_⟩
  rcases hv with rfl | rfl
  · exact ⟨r, ht, fun w hw => Or.inr (hr w hw)⟩
  · exact ⟨q, hu, fun w hw => Or.inl (hq w hw)⟩

/-- There is no deadlock when what a thread waits for can always be freed by a
thread that does not wait or is of smaller rank. -/
theorem not_deadlocked_of_rank (rank : T → Nat)
    (h : ∀ t r, G.waits t r → ∃ u, G.frees r u ∧ ((∀ q, ¬ G.waits u q) ∨ rank u < rank t)) :
    ¬ G.Deadlocked := by
  rintro ⟨W, hne, hclosed⟩
  -- A member of least rank waits for a member that cannot exist.
  let least := (measure rank).wf.min W hne
  have hleast : least ∈ W := (measure rank).wf.min_mem W hne
  obtain ⟨r, hwaits, hfrees⟩ := hclosed least hleast
  obtain ⟨u, hu, hidle | hlt⟩ := h least r hwaits
  · obtain ⟨q, hq, -⟩ := hclosed u (hfrees u hu)
    exact hidle q hq
  · exact (measure rank).wf.not_lt_min W (hfrees u hu) hlt

end WaitGraph

end Transition
