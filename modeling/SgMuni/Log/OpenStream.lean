import SgMuni.Log.Threads

/-!
# The stream of the log

`log_write` tests `log_fp` before it takes the mutex. A reopen that fails, or a
`log_close` between the test and the use, leaves a thread with no stream.
-/

namespace SgMuni

open C Transition

namespace LogPosition

/-- The next call is made with `log_fp`. -/
def uses : LogPosition → Bool
  | .closing _ | .header _ _ | .message _ _ | .newline _ _ | .flushing _ _ | .closeStream => true
  | _ => false

/-- Behind a test that has found a stream. -/
def passed : LogPosition → Bool
  | .idle | .closeLocked | .clearing | .closeUnlocking | .destroying => false
  | _ => true

/-- The stream has been closed, and `log_fp` is assigned next. -/
def assigns : LogPosition → Bool
  | .reopening _ | .clearing => true
  | _ => false

variable {p : LogPosition}

theorem inside_of_assigns (h : p.assigns = true) : p.inside = true := by
  cases p <;> first | rfl | cases h

theorem inside_of_uses (h : p.uses = true) : p.inside = true := by
  cases p <;> first | rfl | cases h

theorem passed_of_uses (h : p.uses = true) : p.passed = true := by
  cases p <;> first | rfl | cases h

theorem assigns_of_uses (h : p.uses = true) : p.assigns = false := by
  cases p <;> first | rfl | cases h

/-- A thread without the mutex has passed a test only if it is about to lock. -/
theorem passed_of_outside (hinside : p.inside = false) (htested : ∀ e, p ≠ .tested e) :
    p.passed = false := by
  cases p with
  | tested e => exact absurd rfl (htested e)
  | idle => rfl
  | destroying => rfl
  | _ => cases hinside

end LogPosition

namespace Logger

variable {T : Type*} {maxSize : Nat} {s s' : Logger T} {t u : T} {a : LogAction}

/-- A reopen succeeds, and `log_close` clears `log_fp` when no thread is between its test
and its lock. -/
def Orderly (s : Logger T) : T × LogAction → Prop
  | (_, .fopen succeeds) => succeeds = true
  | (_, .clear) => ∀ u e, s.pos u ≠ .tested e
  | _ => True

/-- The pointer is `NULL` only when no thread relies on it, and dangles only while a
thread is about to assign it. -/
structure Healthy (s : Logger T) : Prop where
  exclusive : s.Exclusive
  closed : s.logFp = .closed → ∃ t, (s.pos t).assigns = true
  null : s.logFp = .null → ∀ t, (s.pos t).passed = false

/-- A thread that uses the stream finds it open. -/
theorem Healthy.opened (h : s.Healthy) (hpos : (s.pos t).uses = true) :
    ∃ st, s.logFp = .opened st := by
  cases hfp : s.logFp with
  | opened st => exact ⟨st, rfl⟩
  | null =>
      have hpassed := LogPosition.passed_of_uses hpos
      rw [h.null hfp t] at hpassed
      cases hpassed
  | closed =>
      obtain ⟨u, hu⟩ := h.closed hfp
      have hut : u = t := h.exclusive.unique (LogPosition.inside_of_assigns hu)
        (LogPosition.inside_of_uses hpos)
      rw [hut, LogPosition.assigns_of_uses hpos] at hu
      cases hu

section Steps

variable [DecidableEq T]

/-- A move that leaves `log_fp` alone, from a position where it is not about to be
assigned. -/
theorem Healthy.keep (h : s.Healthy) (hmove : Move maxSize s t a s') (hfp : s'.logFp = s.logFp)
    (hassigns : (s.pos t).assigns = false)
    (hpassed : (s'.pos t).passed = true → (s.pos t).passed = true ∨ s.logFp ≠ .null) :
    s'.Healthy := by
  constructor
  case exclusive => exact h.exclusive.move hmove
  case closed =>
    intro hclosed
    obtain ⟨u, hu⟩ := h.closed (hfp ▸ hclosed)
    have hne : u ≠ t := by
      rintro rfl
      rw [hassigns] at hu
      cases hu
    exact ⟨u, (hmove.others hne).symm ▸ hu⟩
  case null =>
    intro hnull u
    have hnull : s.logFp = .null := hfp ▸ hnull
    by_cases hu : u = t
    · subst hu
      apply Bool.eq_false_iff.mpr
      intro htrue
      rcases hpassed htrue with hpassed | hfound
      · rw [h.null hnull u] at hpassed
        cases hpassed
      · exact hfound hnull
    · rw [hmove.others hu]
      exact h.null hnull u

/-- A move behind which the stream is open. -/
theorem Healthy.open (h : s.Healthy) (hmove : Move maxSize s t a s') {st : Stream}
    (hfp : s'.logFp = .opened st) : s'.Healthy := by
  constructor
  case exclusive => exact h.exclusive.move hmove
  case closed =>
    rw [hfp]
    exact fun hclosed => by cases hclosed
  case null =>
    rw [hfp]
    exact fun hnull => by cases hnull

/-- A move that closes the stream. -/
theorem Healthy.close (h : s.Healthy) (hmove : Move maxSize s t a s') (hfp : s'.logFp = .closed)
    (hassigns : (s'.pos t).assigns = true) : s'.Healthy := by
  constructor
  case exclusive => exact h.exclusive.move hmove
  case closed => exact fun _ => ⟨t, hassigns⟩
  case null =>
    rw [hfp]
    exact fun hnull => by cases hnull

theorem Healthy.move (h : s.Healthy) (hmove : Move maxSize s t a s') (horderly : s.Orderly (t, a)) :
    s'.Healthy := by
  have hmove' := hmove
  cases hmove with
  | refuse pos null => exact h
  | enter pos found => exact h.keep hmove' rfl (by rw [pos]; rfl) fun _ => .inr found
  | closeFound pos found => exact h.keep hmove' rfl (by rw [pos]; rfl) fun _ => .inr found
  | lock pos free => exact h.keep hmove' rfl (by rw [pos]; rfl) fun _ => .inl (by rw [pos]; rfl)
  | fits pos small => exact h.keep hmove' rfl (by rw [pos]; rfl) fun _ => .inl (by rw [pos]; rfl)
  | exceeds pos large =>
      exact h.keep hmove' rfl (by rw [pos]; rfl) fun _ => .inl (by rw [pos]; rfl)
  | time pos => exact h.keep hmove' rfl (by rw [pos]; rfl) fun _ => .inl (by rw [pos]; rfl)
  | close pos stream => exact h.close hmove' rfl (by rw [goto_pos]; rfl)
  | closeFile pos stream => exact h.close hmove' rfl (by rw [goto_pos]; rfl)
  | reopen pos => exact h.open hmove' rfl
  | print pos stream => exact h.open hmove' rfl
  | flush pos stream => exact h.open hmove' rfl
  | lose pos => cases horderly
  | clear pos =>
      have hinside : (s.pos t).inside = true := by
        rw [pos]
        rfl
      constructor
      case exclusive => exact h.exclusive.move hmove'
      case closed => exact fun hclosed => by cases hclosed
      case null =>
        intro _ u
        by_cases hu : u = t
        · rw [hu, goto_pos]
          rfl
        · rw [hmove'.others hu]
          exact LogPosition.passed_of_outside (h.exclusive.outside hinside hu) (horderly u)
  | _ pos =>
      refine h.keep hmove' rfl (by rw [pos]; rfl) fun hpassed => ?_
      rw [goto_pos] at hpassed
      cases hpassed

theorem healthy_of_init (h : (system T maxSize).init s) : s.Healthy := by
  obtain ⟨file, hstart⟩ := h
  obtain ⟨rfl, -⟩ := Prod.mk.inj hstart
  refine ⟨fun t => iff_of_false nofun nofun, ?_, ?_⟩
  · exact fun hclosed => by cases hclosed
  · exact fun _ _ => rfl

/-- In a run whose steps all meet the condition, every call with `log_fp` is made with an
open stream; and without a stream a call of `log_write` changes nothing. -/
theorem log_stream_open (h : (system T maxSize).ReachableUnder Orderly s) :
    (∀ t, (s.pos t).uses = true → ∃ st, s.logFp = .opened st) ∧
    ∀ t e, s.pos t = .idle → s.logFp = .null → s.next maxSize (t, .logWrite e) = some s := by
  have hhealthy : s.Healthy := by
    apply h.invariant
    · exact fun s hs => healthy_of_init hs
    · rintro s ⟨t, a⟩ s' horderly hn hs
      exact hs.move (next_move hn) horderly
  refine ⟨fun t => hhealthy.opened, fun t e hpos hnull => ?_⟩
  simp only [next, hpos, hnull]
  rfl

theorem system_next (x : T × LogAction) : (system T maxSize).next s x = s.next maxSize x := rfl

/-- A thread prints with `NULL` in a state that can be reached from here. -/
def MissesStream (maxSize : Nat) (s : Logger T) : Prop :=
  ∃ as s' t, (system T maxSize).exec s as = some s' ∧ (s'.pos t).uses = true ∧ s'.logFp = .null

theorem missesStream_of_rotated {e : Entry} (hpos : s.pos t = .rotated e)
    (hnull : s.logFp = .null) : s.MissesStream maxSize := by
  have hstep : s.next maxSize (t, .time []) = some (s.goto t (.header e [])) := by
    simp only [next, hpos]
  refine ⟨[(t, .time [])], s.goto t (.header e []), t, ?_, by rw [goto_pos]; rfl, hnull⟩
  simp only [System.exec_cons, system_next, hstep, Option.bind_some]
  rfl

/-- A thread takes the mutex as soon as it is free, although the stream has gone. -/
theorem missesStream_of_tested {e : Entry} (hpos : s.pos t = .closeUnlocking)
    (hu : s.pos u = .tested e) (hlive : s.destroyed = false) (hnull : s.logFp = .null) :
    s.MissesStream maxSize := by
  have hut : u ≠ t := by
    rintro rfl
    rw [hu] at hpos
    cases hpos
  let s₁ : Logger T := { s with logMutex := none }.goto t .destroying
  let s₂ : Logger T := { s₁ with logMutex := some u }.goto u (.locked e)
  have hpos₁ : s₁.pos u = .tested e := (goto_pos_of_ne hut _).trans hu
  have hpos₂ : s₂.pos u = .locked e := goto_pos ..
  have hstep₁ : s.next maxSize (t, .unlock) = some s₁ := by
    simp only [next, hpos, s₁]
  have hstep₂ : s₁.next maxSize (u, .lock) = some s₂ := by
    have hlock : s₁.lock u = some { s₁ with logMutex := some u } := if_pos ⟨rfl, hlive⟩
    simp only [next, hpos₁, hlock, Option.map_some, s₂]
  have hstep₃ : s₂.next maxSize (u, .stat false) = some (s₂.goto u (.rotated e)) := by
    simp only [next, hpos₂, Bool.false_and, Bool.false_eq_true, if_false]
  obtain ⟨as, s', v, hrun, hmisses⟩ :=
    missesStream_of_rotated (s := s₂.goto u (.rotated e)) (goto_pos ..) hnull
  refine ⟨(t, .unlock) :: (u, .lock) :: (u, .stat false) :: as, s', v, ?_, hmisses⟩
  simp only [System.exec_cons, system_next, hstep₁, hstep₂, hstep₃, Option.bind_some]
  exact hrun

/-- The condition leaves out only steps behind which a thread can print with `NULL`. -/
theorem missesStream_of_not_orderly (h : s.next maxSize (t, a) = some s')
    (hnot : ¬s.Orderly (t, a)) (hlive : s.destroyed = false) : s'.MissesStream maxSize := by
  cases next_move h with
  | lose pos => exact missesStream_of_rotated (goto_pos ..) rfl
  | clear pos =>
      obtain ⟨u, e, hu⟩ : ∃ u e, s.pos u = .tested e := by
        by_contra hnone
        exact hnot fun u e hu => hnone ⟨u, e, hu⟩
      have hut : u ≠ t := by
        rintro rfl
        rw [hu] at pos
        cases pos
      exact missesStream_of_tested (goto_pos ..) ((goto_pos_of_ne hut _).trans hu) hlive rfl
  | reopen pos => exact absurd rfl hnot
  | _ => exact absurd trivial hnot

end Steps

/-- The program with a log file of one byte. -/
def oneByte : Logger Nat := (logInit (statics [65]) true).1

/-- Both threads pass the test, and the first one closes the log, which is too long. -/
def rotation : List (Nat × LogAction) :=
  [(0, logInfo []), (1, logError []), (0, .lock), (0, .stat true), (0, .fclose 0)]

theorem log_stream_open_rotation :
    ∃ s, (system Nat 1).exec oneByte (rotation ++ [(0, .fopen true), (0, .time [])]) = some s ∧
      ∃ st, s.logFp = .opened st := by
  obtain ⟨s, hrun⟩ : ∃ s, (system Nat 1).exec oneByte
      (rotation ++ [(0, .fopen true), (0, .time [])]) = some s := ⟨_, rfl⟩
  have hmeet : (system Nat 1).StepsMeet Orderly oneByte
      (rotation ++ [(0, .fopen true), (0, .time [])]) := by
    apply System.stepsMeet_of_forall
    simp [rotation, Orderly, logInfo, logError]
  have hpos : (s.pos 0).uses = true := by
    cases hrun
    rfl
  exact ⟨s, hrun, (log_stream_open ⟨oneByte, ⟨[65], rfl⟩,
    System.leadsUnder_of_stepsMeet _ hmeet hrun⟩).1 0 hpos⟩

/-- After a reopen that fails, and after a `log_close` between its test and its lock, a
thread prints with `NULL`. -/
theorem missing_stream_used :
    (∃ s, (system Nat 1).exec oneByte (rotation ++ [(0, .fopen false), (0, .time [])]) = some s ∧
      (s.pos 0).uses = true ∧ s.logFp = .null) ∧
    ∃ s, (system Nat 2).exec oneByte [(0, logInfo []), (1, .logClose), (1, .test),
        (1, .fclose 0), (1, .clear), (1, .unlock), (0, .lock), (0, .stat true), (0, .time [])] =
          some s ∧
      (s.pos 0).uses = true ∧ s.logFp = .null :=
  ⟨⟨_, rfl, rfl, rfl⟩, ⟨_, rfl, rfl, rfl⟩⟩

end Logger

end SgMuni
