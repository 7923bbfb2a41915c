import SgMuni.Transition.System

/-!
# Systems that write a history

Each step of a system reports events, and the recording of the system keeps
them in order beside its state. No step reads the history, so that the
recording has the runs of the system. A variable that only remembers what the
steps do is added in the same way.
-/

namespace Transition

namespace System

variable {σ α ε : Type*} (S : System σ α) (report : σ → α → List ε)

/-- The system together with the events reported so far. -/
def recording : System (σ × List ε) α where
  init p := S.init p.1 ∧ p.2 = []
  next p a := (S.next p.1 a).map fun t => (t, p.2 ++ report p.1 a)

/-- A condition on the steps of a system, of the steps of its recording. -/
def recorded (C : σ → α → Prop) (p : σ × List ε) (a : α) : Prop := C p.1 a

variable {S report} {C : σ → α → Prop} {s : σ} {log : List ε} {p q : σ × List ε} {a : α}

theorem recording_next (h : (S.recording report).next p a = some q) :
    S.next p.1 a = some q.1 ∧ q.2 = p.2 ++ report p.1 a := by
  obtain ⟨t, ht, rfl⟩ := Option.map_eq_some_iff.mp h
  exact ⟨ht, rfl⟩

/-- A run of the recording is a run of the system. -/
theorem ReachableUnder.of_recording (h : (S.recording report).ReachableUnder (recorded C) p) :
    S.ReachableUnder C p.1 := by
  apply h.invariant (P := fun p => S.ReachableUnder C p.1)
  · intro p hp
    exact .of_init hp.1
  · intro p a q hc hn hp
    exact hp.next hc (recording_next hn).1

/-- What holds initially without a history, and is preserved by every admitted
step from a state of the admitted runs when its events are added, holds in every
state of these runs. -/
theorem recording_invariant {P : σ → List ε → Prop}
    (h : (S.recording report).ReachableUnder (recorded C) p)
    (init : ∀ s, S.init s → P s [])
    (step : ∀ s log a t, S.ReachableUnder C s → C s a → S.next s a = some t → P s log →
      P t (log ++ report s a)) :
    P p.1 p.2 := by
  apply h.invariant_using (P := fun p => P p.1 p.2) (fun _ hp => hp.of_recording)
  · rintro ⟨s, log⟩ ⟨hinit, rfl⟩
    exact init s hinit
  · intro p a q hreach hc hn hp
    obtain ⟨ht, hlog⟩ := recording_next hn
    rw [hlog]
    exact step p.1 p.2 a q.1 hreach hc ht hp

/-- Every run of the system has a history. -/
theorem ReachableUnder.recording (h : S.ReachableUnder C s) :
    ∃ log, (S.recording report).ReachableUnder (recorded C) (s, log) := by
  apply h.invariant (P := fun s => ∃ log, (S.recording report).ReachableUnder (recorded C) (s, log))
  · intro s hs
    exact ⟨[], .of_init ⟨hs, rfl⟩⟩
  · rintro s a t hc hn ⟨log, hlog⟩
    have hnext : (S.recording report).next (s, log) a = some (t, log ++ report s a) := by
      simp [System.recording, hn]
    exact ⟨_, hlog.next hc hnext⟩

section Auxiliary

variable {τ : Type*} (S) (update : σ → α → τ → τ)

/-- The system with an auxiliary variable that no step reads. -/
def auxiliary (init : τ) : System (σ × τ) α where
  init p := S.init p.1 ∧ p.2 = init
  next p a := (S.next p.1 a).map fun t => (t, update p.1 a p.2)

variable {S update} {init m : τ} {t : σ} {P : σ → Prop}

theorem auxiliary_next {p q : σ × τ} (h : (S.auxiliary update init).next p a = some q) :
    S.next p.1 a = some q.1 ∧ q.2 = update p.1 a p.2 := by
  obtain ⟨t, ht, rfl⟩ := Option.map_eq_some_iff.mp h
  exact ⟨ht, rfl⟩

theorem auxiliary_next_of_next (h : S.next s a = some t) :
    (S.auxiliary update init).next (s, m) a = some (t, update s a m) := by
  simp [auxiliary, h]

/-- The variable can be added to every run. -/
theorem auxiliary_exec {as : List α} (h : S.exec s as = some t) :
    ∃ m', (S.auxiliary update init).exec (s, m) as = some (t, m') := by
  induction as generalizing s m with
  | nil =>
      cases h
      exact ⟨m, rfl⟩
  | cons a as ih =>
      obtain ⟨u, hn, hu⟩ := Option.bind_eq_some_iff.mp h
      obtain ⟨m', hm'⟩ := ih hu (m := update s a m)
      refine ⟨m', ?_⟩
      rw [exec_cons, auxiliary_next_of_next hn]
      exact hm'

/-- A property of the system's own states. -/
theorem statesMeet_auxiliary {as : List α} :
    (S.auxiliary update init).StatesMeet (fun p => P p.1) (s, m) as ↔ S.StatesMeet P s as := by
  induction as generalizing s m with
  | nil => exact Iff.rfl
  | cons a as ih =>
      apply and_congr_right
      intro _
      constructor
      · intro h t ht
        exact ih.mp (h _ (auxiliary_next_of_next ht))
      · rintro h ⟨t, m'⟩ ht
        exact ih.mpr (h t (auxiliary_next ht).1)

end Auxiliary

section EachEvent

/-- Every event meets a condition with the history before it. -/
def EachEvent (Q : List ε → ε → Prop) (log : List ε) : Prop :=
  ∀ pre e post, log = pre ++ e :: post → Q pre e

variable {Q : List ε → ε → Prop} {e : ε}

theorem eachEvent_nil : EachEvent Q [] := by
  intro pre e post h
  simp at h

theorem EachEvent.snoc (h : EachEvent Q log) (he : Q log e) : EachEvent Q (log ++ [e]) := by
  intro pre x post hlog
  rcases List.eq_nil_or_concat post with rfl | ⟨post, y, rfl⟩
  · obtain ⟨rfl, hx⟩ := List.append_inj' hlog rfl
    cases hx
    exact he
  · have hsplit : log ++ [e] = (pre ++ x :: post) ++ [y] := by simpa using hlog
    exact h pre x post (List.append_inj' hsplit rfl).1

end EachEvent

/-- Selecting the events of one kind from a history. -/
theorem mem_select {α ε : Type*} {select : ε → Option α} (event : α → ε)
    (h : ∀ e a, select e = some a ↔ e = event a) {log : List ε} (a : α) :
    a ∈ log.filterMap select ↔ event a ∈ log := by
  simp [List.mem_filterMap, h]

end System

end Transition
