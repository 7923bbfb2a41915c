import SgMuni.Transition.History

/-!
# Refinement mappings

A function on the states that takes every step of a system to a step of a
second one. The labels may be read off the state as well. Runs, the conditions
on their steps and their histories carry over.
-/

namespace Transition

namespace System

variable {σ α τ β ε : Type*}

structure Mapping (S : System σ α) (T : System τ β) where
  state : σ → τ
  label : σ → α → β
  init : ∀ s, S.init s → T.init (state s)
  next : ∀ s a t, S.next s a = some t → T.next (state s) (label s a) = some (state t)

namespace Mapping

variable {S : System σ α} {T : System τ β} (m : Mapping S T)

/-- A condition on the steps of the second system, of those of the first. -/
def pullback (C : τ → β → Prop) (s : σ) (a : α) : Prop := C (m.state s) (m.label s a)

/-- The events that the second system reports, of the steps of the first. -/
def reports (report : τ → β → List ε) (s : σ) (a : α) : List ε :=
  report (m.state s) (m.label s a)

variable {m} {C : τ → β → Prop}

theorem reachableUnder {s : σ} (h : S.ReachableUnder (m.pullback C) s) :
    T.ReachableUnder C (m.state s) := by
  apply h.invariant (P := fun s => T.ReachableUnder C (m.state s))
  · intro s hs
    exact .of_init (m.init s hs)
  · intro s a t hc hn hs
    exact hs.next hc (m.next s a t hn)

/-- The history is the same on both sides. -/
theorem recording_reachableUnder {report : τ → β → List ε} {s : σ} {log : List ε}
    (h : (S.recording (m.reports report)).ReachableUnder (recorded (m.pullback C)) (s, log)) :
    (T.recording report).ReachableUnder (recorded C) (m.state s, log) := by
  apply h.invariant
    (P := fun p => (T.recording report).ReachableUnder (recorded C) (m.state p.1, p.2))
  · intro p hp
    exact .of_init ⟨m.init p.1 hp.1, hp.2⟩
  · intro p a q hc hn hp
    obtain ⟨ht, hlog⟩ := recording_next hn
    have hnext : (T.recording report).next (m.state p.1, p.2) (m.label p.1 a) =
        some (m.state q.1, q.2) := by
      rw [hlog]
      simp only [recording, m.next p.1 a q.1 ht, Option.map_some, reports]
    exact hp.next hc hnext

end Mapping

end System

end Transition
