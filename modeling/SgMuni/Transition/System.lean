import Mathlib.Logic.Relation

/-!
# Labelled transition systems

A step is a partial function of the state and a label, so that a schedule is a
list of labels and can be executed. Safety is stated of reachable states, and
of the states reached by runs whose steps all meet a side condition.
-/

namespace Transition

/-- A system starts in an initial state and takes the steps that `next` allows. -/
structure System (σ α : Type*) where
  init : σ → Prop
  next : σ → α → Option σ

namespace System

variable {σ α τ β : Type*} (S : System σ α)

/-- Execute a schedule; the result is `none` when a label in it is not enabled. -/
def exec : σ → List α → Option σ
  | s, [] => some s
  | s, a :: as => (S.next s a).bind fun t => exec t as

@[simp] theorem exec_cons (s : σ) (a : α) (as : List α) :
    S.exec s (a :: as) = (S.next s a).bind fun t => S.exec t as := rfl

/-- One step whose state and label meet the condition `C`. -/
def StepUnder (C : σ → α → Prop) (s t : σ) : Prop :=
  ∃ a, C s a ∧ S.next s a = some t

/-- Any number of steps that all meet the condition `C`. -/
def LeadsUnder (C : σ → α → Prop) : σ → σ → Prop :=
  Relation.ReflTransGen (S.StepUnder C)

/-- The states of the runs whose steps all meet the condition `C`. -/
def ReachableUnder (C : σ → α → Prop) (s : σ) : Prop :=
  ∃ s₀, S.init s₀ ∧ S.LeadsUnder C s₀ s

/-- Any number of steps. -/
abbrev Leads : σ → σ → Prop := S.LeadsUnder fun _ _ => True

/-- The states of all runs. -/
abbrev Reachable : σ → Prop := S.ReachableUnder fun _ _ => True

variable {S} {C D : σ → α → Prop} {P : σ → Prop} {s t : σ}

theorem LeadsUnder.invariant (h : S.LeadsUnder C s t) (hs : P s)
    (step : ∀ s a t, C s a → S.next s a = some t → P s → P t) : P t := by
  induction h with
  | refl => exact hs
  | tail _ hstep ih =>
      obtain ⟨a, hc, hn⟩ := hstep
      exact step _ a _ hc hn ih

/-- What holds initially and is preserved by every admitted step holds in
every state of the admitted runs. -/
theorem ReachableUnder.invariant (h : S.ReachableUnder C s)
    (init : ∀ s, S.init s → P s)
    (step : ∀ s a t, C s a → S.next s a = some t → P s → P t) : P s := by
  obtain ⟨s₀, hinit, hleads⟩ := h
  exact hleads.invariant (init s₀ hinit) step

theorem ReachableUnder.of_init (h : S.init s) : S.ReachableUnder C s :=
  ⟨s, h, .refl⟩

theorem ReachableUnder.next {a : α} (h : S.ReachableUnder C s) (hc : C s a)
    (hn : S.next s a = some t) : S.ReachableUnder C t := by
  obtain ⟨s₀, hinit, hleads⟩ := h
  exact ⟨s₀, hinit, hleads.tail ⟨a, hc, hn⟩⟩

/-- An invariant may use what is known of all states of the admitted runs. -/
theorem ReachableUnder.invariant_using {Q : σ → Prop} (h : S.ReachableUnder C s)
    (known : ∀ s, S.ReachableUnder C s → Q s) (init : ∀ s, S.init s → P s)
    (step : ∀ s a t, Q s → C s a → S.next s a = some t → P s → P t) : P s := by
  have hboth : S.ReachableUnder C s ∧ P s := by
    apply h.invariant (P := fun s => S.ReachableUnder C s ∧ P s)
    · intro s hs
      exact ⟨.of_init hs, init s hs⟩
    · intro s a t hc hn ⟨hreach, hp⟩
      exact ⟨hreach.next hc hn, step s a t (known s hreach) hc hn hp⟩
  exact hboth.2

theorem ReachableUnder.leads (h : S.ReachableUnder C s) (hl : S.LeadsUnder C s t) :
    S.ReachableUnder C t := by
  obtain ⟨s₀, hinit, hleads⟩ := h
  exact ⟨s₀, hinit, hleads.trans hl⟩

theorem LeadsUnder.mono (hCD : ∀ s a, C s a → D s a) (h : S.LeadsUnder C s t) :
    S.LeadsUnder D s t := by
  induction h with
  | refl => exact .refl
  | tail _ hstep ih =>
      obtain ⟨a, hc, hn⟩ := hstep
      exact ih.tail ⟨a, hCD _ a hc, hn⟩

theorem ReachableUnder.mono (hCD : ∀ s a, C s a → D s a) (h : S.ReachableUnder C s) :
    S.ReachableUnder D s := by
  obtain ⟨s₀, hinit, hleads⟩ := h
  exact ⟨s₀, hinit, hleads.mono hCD⟩

theorem ReachableUnder.reachable (h : S.ReachableUnder C s) : S.Reachable s :=
  h.mono fun _ _ _ => trivial

theorem leads_of_exec (as : List α) (h : S.exec s as = some t) : S.Leads s t := by
  induction as generalizing s with
  | nil =>
      cases h
      exact .refl
  | cons a as ih =>
      obtain ⟨u, hn, hu⟩ := Option.bind_eq_some_iff.mp h
      exact (ih hu).head ⟨a, trivial, hn⟩

/-- The end of an executable schedule is reachable. -/
theorem reachable_of_exec (as : List α) (hs : S.init s) (h : S.exec s as = some t) :
    S.Reachable t :=
  ⟨s, hs, leads_of_exec as h⟩

section Schedules

variable (S)

/-- Every step of the schedule meets the condition `C`. -/
def StepsMeet (C : σ → α → Prop) : σ → List α → Prop
  | _, [] => True
  | s, a :: as => C s a ∧ ∀ t, S.next s a = some t → StepsMeet C t as

/-- Every state that the schedule passes through, the first and the last
included, satisfies `P`. -/
def StatesMeet (P : σ → Prop) : σ → List α → Prop
  | s, [] => P s
  | s, a :: as => P s ∧ ∀ t, S.next s a = some t → StatesMeet P t as

variable {S}

theorem stepsMeet_of_forall {as : List α} (h : ∀ a ∈ as, ∀ s, C s a) (s : σ) :
    S.StepsMeet C s as := by
  induction as generalizing s with
  | nil => trivial
  | cons a as ih =>
      have hrest : ∀ b ∈ as, ∀ s, C s b := fun b hb => h b (List.mem_cons_of_mem a hb)
      exact ⟨h a List.mem_cons_self s, fun t _ => ih hrest t⟩

theorem stepsMeet_append {as bs : List α} (has : S.StepsMeet C s as)
    (hbs : ∀ t, S.exec s as = some t → S.StepsMeet C t bs) : S.StepsMeet C s (as ++ bs) := by
  induction as generalizing s with
  | nil => exact hbs s rfl
  | cons a as ih =>
      refine ⟨has.1, fun t ht => ih (has.2 t ht) fun u hu => hbs u ?_⟩
      simp only [exec_cons, ht, Option.bind_some, hu]

/-- A condition on states only is checked in the states before each step. -/
theorem stepsMeet_of_exec_take {as : List α}
    (h : ∀ n < as.length, ∀ t, S.exec s (as.take n) = some t → ∀ a, C t a) :
    S.StepsMeet C s as := by
  induction as generalizing s with
  | nil => trivial
  | cons a as ih =>
      refine ⟨h 0 (Nat.zero_lt_succ _) s rfl a, fun t ht => ih fun n hn u hu => ?_⟩
      refine h (n + 1) (Nat.succ_lt_succ hn) u ?_
      rw [List.take_succ_cons, exec_cons, ht]
      exact hu

theorem leadsUnder_of_stepsMeet (as : List α) (hmeet : S.StepsMeet C s as)
    (h : S.exec s as = some t) : S.LeadsUnder C s t := by
  induction as generalizing s with
  | nil =>
      cases h
      exact .refl
  | cons a as ih =>
      obtain ⟨u, hn, hu⟩ := Option.bind_eq_some_iff.mp h
      exact (ih (hmeet.2 u hn) hu).head ⟨a, hmeet.1, hn⟩

/-- When, under an invariant, `C` is exactly what a step needs to keep `P`,
a schedule meets `C` at every step if and only if it meets `P` in every state. -/
theorem stepsMeet_iff_statesMeet {I : σ → Prop}
    (hI : ∀ s a t, S.next s a = some t → I s → I t)
    (hP : ∀ s a t, S.next s a = some t → I s → P s → (P t ↔ C s a))
    {as : List α} (hs : I s) (hPs : P s) (hrun : S.exec s as = some t) :
    S.StepsMeet C s as ↔ S.StatesMeet P s as := by
  induction as generalizing s with
  | nil => simp [StepsMeet, StatesMeet, hPs]
  | cons a as ih =>
      obtain ⟨u, hn, hu⟩ := Option.bind_eq_some_iff.mp hrun
      have huI : I u := hI s a u hn hs
      have hiff : P u ↔ C s a := hP s a u hn hs hPs
      constructor
      · rintro ⟨hc, hrest⟩
        refine ⟨hPs, fun v hv => ?_⟩
        cases hn.symm.trans hv
        exact (ih huI (hiff.mpr hc) hu).mp (hrest u hn)
      · rintro ⟨_, hrest⟩
        have hPu : P u := by
          cases as with
          | nil => exact hrest u hn
          | cons b bs => exact (hrest u hn).1
        refine ⟨hiff.mp hPu, fun v hv => ?_⟩
        cases hn.symm.trans hv
        exact (ih huI hPu hu).mpr (hrest u hn)

/-- A condition without which a step is not enabled, or leads to a state outside of
`P`: a schedule meets it if and only if it can be executed and meets `P`. -/
theorem stepsMeet_iff_executes {I : σ → Prop}
    (hI : ∀ s a t, S.next s a = some t → I s → I t)
    (hP : ∀ s a t, S.next s a = some t → I s → P s → (P t ↔ C s a))
    (hC : ∀ s a, C s a → S.next s a ≠ none) (as : List α) (hs : I s) (hPs : P s) :
    S.StepsMeet C s as ↔ (∃ t, S.exec s as = some t) ∧ S.StatesMeet P s as := by
  have hexec : S.StepsMeet C s as → ∃ t, S.exec s as = some t := by
    intro h
    clear hs hPs
    induction as generalizing s with
    | nil => exact ⟨s, rfl⟩
    | cons a as ih =>
        obtain ⟨t, ht⟩ := Option.ne_none_iff_exists'.mp (hC s a h.1)
        obtain ⟨u, hu⟩ := ih (h.2 t ht)
        exact ⟨u, by rw [exec_cons, ht]; exact hu⟩
  constructor
  · intro h
    obtain ⟨t, ht⟩ := hexec h
    exact ⟨⟨t, ht⟩, (stepsMeet_iff_statesMeet hI hP hs hPs ht).mp h⟩
  · rintro ⟨⟨t, ht⟩, h⟩
    exact (stepsMeet_iff_statesMeet hI hP hs hPs ht).mpr h

/-- What holds of the steps between states that satisfy `P`. -/
theorem StatesMeet.stepsMeet {as : List α} (h : S.StatesMeet P s as)
    (hrun : S.exec s as = some t)
    (hD : ∀ s a t, S.next s a = some t → P s → P t → D s a) : S.StepsMeet D s as := by
  induction as generalizing s with
  | nil => trivial
  | cons a as ih =>
      obtain ⟨u, hn, hu⟩ := Option.bind_eq_some_iff.mp hrun
      have hPu : P u := by
        cases as with
        | nil => exact h.2 u hn
        | cons b bs => exact (h.2 u hn).1
      refine ⟨hD s a u hn h.1 hPu, fun v hv => ?_⟩
      cases hn.symm.trans hv
      exact ih (h.2 u hn) hu

end Schedules

/-- A forward simulation: each concrete step is matched by one abstract step or
by none. -/
structure Simulation (S : System σ α) (T : System τ β) where
  rel : σ → τ → Prop
  init : ∀ s, S.init s → ∃ t, T.init t ∧ rel s t
  step : ∀ s t a s', rel s t → S.next s a = some s' →
    rel s' t ∨ ∃ b t', T.next t b = some t' ∧ rel s' t'

/-- Every reachable concrete state is related to a reachable abstract state. -/
theorem Simulation.reachable {T : System τ β} (sim : Simulation S T)
    (h : S.Reachable s) : ∃ t, T.Reachable t ∧ sim.rel s t := by
  refine h.invariant (P := fun s => ∃ t, T.Reachable t ∧ sim.rel s t) ?_ ?_
  · intro s hs
    obtain ⟨t, ht, hrel⟩ := sim.init s hs
    exact ⟨t, .of_init ht, hrel⟩
  · rintro s a s' - hn ⟨t, ht, hrel⟩
    rcases sim.step s t a s' hrel hn with hstutter | ⟨b, t', hb, hrel'⟩
    · exact ⟨t, ht, hstutter⟩
    · exact ⟨t', ht.next trivial hb, hrel'⟩

end System

end Transition
