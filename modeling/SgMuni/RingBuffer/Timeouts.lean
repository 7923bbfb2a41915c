import SgMuni.RingBuffer.Refinement
import SgMuni.Transition.History

/-!
# Timeouts while the buffer could be used

`pthread_cond_timedwait` re-acquires the mutex before it returns `ETIMEDOUT`,
and the operation then returns 0 without a second look at the buffer. It is
right to do so exactly when the other threads stored as many items as they
fetched since the waiting thread tested its loop condition.
-/

namespace SgMuni

namespace RingBuffer

/-- The number of items at which a call waits. -/
def Call.limit {α : Type*} (cap : Nat) : Call α → Nat
  | .push _ | .timedPush _ => cap
  | .pop | .timedPop => 0

theorem blocked_iff {α : Type*} [Inhabited α] {rb : RingBuffer α} (c : Call α) :
    c.routine.blocked rb = true ↔ rb.cnt = c.limit rb.cap := by
  cases c <;> simp [Call.routine, rbPush, rbTimedPush, rbPop, rbTimedPop, Call.limit]

/-- The call that waits, with or without the mutex to be re-acquired. -/
def Pc.waiting? {α : Type*} : Pc α → Option (Call α)
  | .sleeping c | .waking c _ => some c
  | _ => none

@[simp] theorem waiting?_wake {α : Type*} (p : Pc α) : p.wake.waiting? = p.waiting? := by
  cases p <;> rfl

namespace Threads

variable {Tid α : Type*} [DecidableEq Tid]

/-- How many items had been stored and fetched when a thread last tested its
loop condition. -/
abbrev Marks (Tid : Type*) := Tid → Nat × Nat

/-- A test of the loop condition is marked. -/
def mark (s : Threads Tid α) : Action Tid α → Marks Tid → Marks Tid
  | .test t _, marks => Function.update marks t (s.pushed.length, s.popped.length)
  | _, marks => marks

/-- A waiting thread tested its condition when that was true, and the histories
only grew since. -/
structure Waited (cap : Nat) (s : Threads Tid α) (marks : Marks Tid) (t : Tid) (c : Call α) :
    Prop where
  limit : (marks t).1 = (marks t).2 + c.limit cap
  pushed : (marks t).1 ≤ s.pushed.length
  popped : (marks t).2 ≤ s.popped.length

structure MarkInv (cap : Nat) (p : Threads Tid α × Marks Tid) : Prop where
  inv : p.1.Inv cap
  count : p.1.pushed.length = p.1.popped.length + p.1.rb.cnt
  waited : ∀ t c, (p.1.pc t).waiting? = some c → Waited cap p.1 p.2 t c

variable {cap : Nat} {s s' : Threads Tid α} {marks : Marks Tid}

omit [DecidableEq Tid] in
theorem Waited.mono {t : Tid} {c : Call α} (h : Waited cap s marks t c) {marks' : Marks Tid}
    (hmarks : marks' t = marks t) (hpushed : s.pushed.length ≤ s'.pushed.length)
    (hpopped : s.popped.length ≤ s'.popped.length) : Waited cap s' marks' t c where
  limit := by rw [hmarks, h.limit]
  pushed := by
    rw [hmarks]
    exact h.pushed.trans hpushed
  popped := by
    rw [hmarks]
    exact h.popped.trans hpopped

/-- A thread that moves without the buffer waits only if it already did. -/
theorem MarkInv.move (h : MarkInv cap (s, marks)) (hinv : s'.Inv cap) {t : Tid} {p : Pc α}
    (hrb : s'.rb = s.rb) (hpushed : s'.pushed = s.pushed) (hpopped : s'.popped = s.popped)
    (hpc : s'.pc = Function.update s.pc t p)
    (hwaiting : ∀ c, p.waiting? = some c → (s.pc t).waiting? = some c) :
    MarkInv cap (s', marks) where
  inv := hinv
  count := by
    rw [hrb, hpushed, hpopped]
    exact h.count
  waited u c hu := by
    have hbefore : (s.pc u).waiting? = some c := by
      rw [hpc] at hu
      by_cases hut : u = t
      · subst hut
        rw [Function.update_self] at hu
        exact hwaiting c hu
      · rwa [Function.update_of_ne hut] at hu
    apply (h.waited u c hbefore).mono rfl
    · rw [hpushed]
    · rw [hpopped]

variable [Inhabited α]

/-- A thread that finds its loop condition true marks the histories. -/
theorem MarkInv.sleep (h : MarkInv cap (s, marks)) {t : Tid} {c : Call α}
    (hpc : s.pc t = .testing c) (hblocked : c.routine.blocked s.rb = true) :
    MarkInv cap (s.release t (.sleeping c),
      Function.update marks t (s.pushed.length, s.popped.length)) where
  inv := h.inv.release (by rw [hpc]; rfl) rfl
  count := h.count
  waited u d hu := by
    by_cases hut : u = t
    · subst hut
      have hd : c = d := by simpa [Threads.release, Pc.waiting?] using hu
      subst hd
      have hcnt : s.rb.cnt = c.limit cap := by
        rw [← h.inv.wf.cap_eq]
        exact (blocked_iff c).mp hblocked
      constructor
      · simp only [Function.update_self]
        rw [← hcnt]
        exact h.count
      · simp [Threads.release]
      · simp [Threads.release]
    · have hbefore : (s.pc u).waiting? = some d := by
        simpa [Threads.release, Function.update_of_ne hut] using hu
      exact (h.waited u d hbefore).mono (Function.update_of_ne hut _ _) le_rfl le_rfl

/-- An operation that does not wait changes the number of items and one history. -/
theorem length_complete {c : Call α} (t : Tid) (woken : List Tid)
    (hb : c.routine.blocked s.rb = false) (hcount : s.pushed.length = s.popped.length + s.rb.cnt) :
    let u := s.complete t c woken
    u.pushed.length = u.popped.length + u.rb.cnt ∧ s.pushed.length ≤ u.pushed.length ∧
      s.popped.length ≤ u.popped.length := by
  have hpop (hne : s.rb.cnt ≠ 0) : s.pushed.length = s.popped.length + 1 + (s.rb.cnt - 1) := by
    omega
  cases c with
  | push item => simp [Threads.complete, Call.routine, rbPush, Result.stored?, Result.fetched?,
      RingBuffer.store, hcount, Nat.add_assoc]
  | timedPush item => simp [Threads.complete, Call.routine, rbTimedPush, rbPush, Result.stored?,
      Result.fetched?, RingBuffer.store, hcount, Nat.add_assoc]
  | pop =>
      have hne : s.rb.cnt ≠ 0 := by simpa [Call.routine, rbPop] using hb
      simp [Threads.complete, Call.routine, rbPop, Result.stored?, Result.fetched?,
        RingBuffer.fetch, hpop hne]
  | timedPop =>
      have hne : s.rb.cnt ≠ 0 := by simpa [Call.routine, rbTimedPop, rbPop] using hb
      simp [Threads.complete, Call.routine, rbTimedPop, rbPop, Result.stored?, Result.fetched?,
        RingBuffer.fetch, hpop hne]

theorem MarkInv.complete (h : MarkInv cap (s, marks)) {t : Tid} {c : Call α}
    (hpc : s.pc t = .testing c) (hb : c.routine.blocked s.rb = false) (woken : List Tid) :
    MarkInv cap (s.complete t c woken,
      Function.update marks t (s.pushed.length, s.popped.length)) := by
  obtain ⟨hcount, hpushed, hpopped⟩ := length_complete t woken hb h.count
  refine ⟨h.inv.complete hpc hb woken, hcount, fun u d hu => ?_⟩
  by_cases hut : u = t
  · subst hut
    simp [Threads.complete, Pc.waiting?] at hu
  · have hbefore : (s.pc u).waiting? = some d := by
      simp only [Threads.complete, Function.update_of_ne hut] at hu
      split at hu
      · rwa [waiting?_wake] at hu
      · exact hu
    exact (h.waited u d hbefore).mono (Function.update_of_ne hut _ _) hpushed hpopped

theorem MarkInv.next [Fintype Tid] {a : Action Tid α} (h : MarkInv cap (s, marks))
    (hn : s.next a = some s') : MarkInv cap (s', mark s a marks) := by
  have hinv := h.inv.next hn
  cases next_move hn with
  | call outside => exact h.move hinv rfl rfl rfl rfl nofun
  | lock pc free => exact h.move hinv rfl rfl rfl rfl nofun
  | sleep pc blocked => exact h.sleep pc blocked
  | complete pc ready signals => exact h.complete pc ready _
  | wake pc => exact h.move hinv rfl rfl rfl rfl fun c hc => by rwa [pc]
  | timeout pc timed => exact h.move hinv rfl rfl rfl rfl fun c hc => by rwa [pc]
  | @relock t c timedOut pc free =>
      apply h.move hinv rfl rfl rfl rfl
      intro d hd
      cases timedOut <;> cases hd
  | giveUp pc => exact h.move hinv rfl rfl rfl rfl nofun

/-- A call whose wait has timed out holds the mutex while its loop condition is
true: a push finds the buffer full, a pop finds it empty. -/
def Genuine (s : Threads Tid α) : Prop :=
  ∀ t c, s.pc t = .expired c → c.routine.blocked s.rb = true

/-- While a call waited that `ETIMEDOUT` ends, as many items were stored as fetched. -/
def Matched (p : Threads Tid α × Marks Tid) : Action Tid α → Prop
  | .relock t => ∀ c, p.1.pc t = .waking c true →
      p.1.pushed.length - (p.2 t).1 = p.1.popped.length - (p.2 t).2
  | _ => True

omit [DecidableEq Tid] in
/-- A wait that timed out finds its loop condition true exactly when it has seen
as many items stored as fetched. -/
theorem blocked_iff_matched (h : MarkInv cap (s, marks)) {t : Tid} {c : Call α}
    (hpc : s.pc t = .waking c true) :
    c.routine.blocked s.rb = true ↔ Matched (s, marks) (.relock t) := by
  have hwaited : Waited cap s marks t c := h.waited t c (by rw [hpc]; rfl)
  have hcount : s.pushed.length = s.popped.length + s.rb.cnt := h.count
  have hbalance : s.rb.cnt = c.limit cap ↔
      s.pushed.length - (marks t).1 = s.popped.length - (marks t).2 := by
    have hlimit := hwaited.limit
    have hpushed := hwaited.pushed
    have hpopped := hwaited.popped
    omega
  rw [blocked_iff, h.inv.wf.cap_eq, hbalance]
  constructor
  · intro hmatched d _
    exact hmatched
  · intro hmatched
    exact hmatched c hpc

/-- A thread that moves without the buffer leaves the timeouts genuine unless
its own is not. -/
theorem Genuine.move (h : s.Genuine) {t : Tid} {p : Pc α} (hrb : s'.rb = s.rb)
    (hpc : s'.pc = Function.update s.pc t p)
    (hp : ∀ c, p = .expired c → c.routine.blocked s.rb = true) : s'.Genuine := by
  intro u c hu
  rw [hpc] at hu
  rw [hrb]
  by_cases hut : u = t
  · subst hut
    rw [Function.update_self] at hu
    exact hp c hu
  · rw [Function.update_of_ne hut] at hu
    exact h u c hu

variable [Fintype Tid]

/-- The threads on a ring buffer with their marks. -/
def marked (Tid α : Type*) [DecidableEq Tid] [Fintype Tid] [Inhabited α] (cap : Nat) :
    Transition.System (Threads Tid α × Marks Tid) (Action Tid α) :=
  (system Tid α cap).auxiliary mark fun _ => (0, 0)

/-- A step keeps the timeouts genuine exactly when it meets the condition. -/
theorem genuine_next_iff {a : Action Tid α} (hinv : MarkInv cap (s, marks)) (h : s.Genuine)
    (hn : s.next a = some s') : s'.Genuine ↔ Matched (s, marks) a := by
  cases next_move hn with
  | call outside => exact iff_of_true (h.move rfl rfl nofun) trivial
  | lock pc free => exact iff_of_true (h.move rfl rfl nofun) trivial
  | sleep pc blocked => exact iff_of_true (h.move rfl rfl nofun) trivial
  | @complete t c woken pc ready signals =>
      refine iff_of_true ?_ trivial
      -- Only the thread that completes its operation holds the mutex.
      intro u d hu
      have howner : s.owner = some t := (hinv.inv.holder t).mp (by rw [pc]; rfl)
      have hafter := (hinv.inv.complete pc ready woken).holder u
      rw [hu] at hafter
      cases hafter.mp rfl
  | wake pc => exact iff_of_true (h.move rfl rfl nofun) trivial
  | timeout pc timed => exact iff_of_true (h.move rfl rfl nofun) trivial
  | @relock t c timedOut pc free =>
      cases timedOut with
      | false =>
          refine iff_of_true (h.move rfl rfl nofun) ?_
          intro d hd
          cases pc.symm.trans hd
      | true =>
          rw [← blocked_iff_matched hinv pc]
          constructor
          · intro hgenuine
            exact hgenuine t c (Function.update_self ..)
          · intro hblocked
            refine h.move rfl rfl fun d hd => ?_
            cases hd
            exact hblocked
  | giveUp pc => exact iff_of_true (h.move rfl rfl nofun) trivial

/-- In a run all reported timeouts are genuine exactly when every wait that
`ETIMEDOUT` ends has seen as many items stored as fetched. -/
theorem timeouts_genuine_iff (hcap : 0 < cap) {as : List (Action Tid α)}
    (hrun : (system Tid α cap).exec (start cap) as = some s) :
    (marked Tid α cap).StepsMeet Matched (start cap, fun _ => (0, 0)) as ↔
      (system Tid α cap).StatesMeet Genuine (start cap) as := by
  obtain ⟨marks, hmarks⟩ : ∃ marks, (marked Tid α cap).exec (start cap, fun _ => (0, 0)) as =
      some (s, marks) := Transition.System.auxiliary_exec hrun
  have hstates : (marked Tid α cap).StatesMeet (fun p => p.1.Genuine)
      (start cap, fun _ => (0, 0)) as ↔ (system Tid α cap).StatesMeet Genuine (start cap) as :=
    Transition.System.statesMeet_auxiliary
  rw [← hstates]
  apply Transition.System.stepsMeet_iff_statesMeet (I := MarkInv cap) _ _ _ _ hmarks
  · intro p a q hn hinv
    obtain ⟨hnext, hq⟩ := Transition.System.auxiliary_next hn
    have hinv' := hinv.next hnext
    rwa [← hq] at hinv'
  · intro p a q hn hinv hp
    exact genuine_next_iff hinv hp (Transition.System.auxiliary_next hn).1
  · exact ⟨inv_start hcap, rfl, nofun⟩
  · exact nofun

/-- A producer sleeps behind the only slot and times out; a consumer empties the
slot before the producer has the mutex again. -/
def lateRun : List (Action (Fin 3) Nat) :=
  [.call 0 (.push 7), .lock 0, .test 0 [], .call 1 (.timedPush 8), .lock 1, .test 1 [],
    .call 2 .timedPop, .timeout 1, .lock 2, .test 2 [], .relock 1]

/-- The producer returns 0 and drops its item while the buffer is empty. -/
theorem timeout_with_room :
    ∃ s : Threads (Fin 3) Nat, (system (Fin 3) Nat 1).exec (start 1) lateRun = some s ∧
      s.pc 1 = .expired (.timedPush 8) ∧ s.rb.cnt = 0 ∧ s.rb.cap = 1 ∧ ¬s.Genuine := by
  refine ⟨_, rfl, rfl, rfl, rfl, fun h => ?_⟩
  exact absurd (h 1 (.timedPush 8) rfl) (by decide)

/-- Nothing happens while the producer of `timeoutRun` waits. -/
theorem timeouts_genuine_iff_timeoutRun :
    (system (Fin 2) Nat 1).StatesMeet Genuine (start 1) timeoutRun := by
  have hmeet : (marked (Fin 2) Nat 1).StepsMeet Matched (start 1, fun _ => (0, 0))
      (timeoutRun.take 7 ++ [.relock 1]) := by
    apply Transition.System.stepsMeet_append
    · exact Transition.System.stepsMeet_of_forall (by simp [timeoutRun, Matched]) _
    · intro p hp
      cases hp
      exact ⟨fun c _ => rfl, fun _ _ => trivial⟩
  exact (timeouts_genuine_iff (by decide) rfl).mp hmeet

end Threads

end RingBuffer

end SgMuni
