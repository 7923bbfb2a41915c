import SgMuni.RingBuffer.Basic
import SgMuni.Transition.System
import SgMuni.Queue.Bounded
import Mathlib.Data.Fintype.Basic
import Mathlib.Logic.Function.Basic

/-!
# Threads on one ring buffer

The four operations run by any number of threads, at the granularity of
`pthread_mutex_lock`, one evaluation of the waiting condition, the wait itself
and `pthread_mutex_unlock`. A signal wakes at least one sleeper when there is
one; a sleeper may also wake spuriously, and a timed one may time out.

## Implementation notes

`pushed`, `popped` and `seen` are history: the items of successful operations
in the order of their critical sections, and what each thread found in the
buffer when it last took the mutex.
-/

namespace SgMuni

namespace RingBuffer

/-- The condition variables of a ring buffer. -/
inductive Cond
  | notEmpty
  | notFull
deriving DecidableEq

/-- What an operation ends with. -/
inductive Result (α : Type*)
  | stored (item : α)
  | fetched (item : α)
  | timeout

/-- The item that a successful push stored. -/
def Result.stored? {α : Type*} : Result α → Option α
  | .stored x => some x
  | _ => none

/-- The item that a successful pop returned. -/
def Result.fetched? {α : Type*} : Result α → Option α
  | .fetched x => some x
  | _ => none

/-- An operation: the loop condition under which it waits, the condition
variables it waits on and signals, and the section it runs when the loop ends. -/
structure Routine (α : Type*) where
  timed : Bool
  waitsOn : Cond
  signals : Cond
  blocked : RingBuffer α → Bool
  body : RingBuffer α → RingBuffer α × Result α

section Routines

variable {α : Type*} [Inhabited α]

def rbPush (item : α) : Routine α where
  timed := false
  waitsOn := .notFull
  signals := .notEmpty
  blocked rb := rb.cnt == rb.cap
  body rb := (rb.store item, .stored item)

def rbTimedPush (item : α) : Routine α :=
  { rbPush item with timed := true }

def rbPop : Routine α where
  timed := false
  waitsOn := .notEmpty
  signals := .notFull
  blocked rb := rb.cnt == 0
  body rb := (rb.fetch, .fetched rb.front)

def rbTimedPop : Routine α :=
  { rbPop with timed := true }

end Routines

/-- A call of one of the four operations. -/
inductive Call (α : Type*)
  | push (item : α)
  | timedPush (item : α)
  | pop
  | timedPop

/-- The operation that a call runs. -/
def Call.routine {α : Type*} [Inhabited α] : Call α → Routine α
  | .push item => rbPush item
  | .timedPush item => rbTimedPush item
  | .pop => rbPop
  | .timedPop => rbTimedPop

/-- Where a thread is. `waking` has left the wait and re-acquires the mutex;
`expired` holds it again after `ETIMEDOUT`. -/
inductive Pc (α : Type*)
  | idle
  | locking (c : Call α)
  | testing (c : Call α)
  | sleeping (c : Call α)
  | waking (c : Call α) (timedOut : Bool)
  | expired (c : Call α)
  | returned (r : Result α)

namespace Pc

variable {α : Type*} [Inhabited α]

/-- The thread is outside of the ring buffer. -/
def outside : Pc α → Bool
  | .idle | .returned _ => true
  | _ => false

/-- The thread holds the mutex. -/
def holds : Pc α → Bool
  | .testing _ | .expired _ => true
  | _ => false

/-- The thread sleeps on the condition variable. -/
def asleepOn (v : Cond) : Pc α → Bool
  | .sleeping c => c.routine.waitsOn == v
  | _ => false

/-- A wake-up ends the sleep; the mutex is still to be re-acquired. -/
def wake : Pc α → Pc α
  | .sleeping c => .waking c false
  | p => p

end Pc

/-- The buffer, its mutex and the threads. -/
structure Threads (Tid α : Type*) where
  rb : RingBuffer α
  owner : Option Tid
  pc : Tid → Pc α
  pushed : List α
  popped : List α
  seen : Tid → RingBuffer α

inductive Action (Tid α : Type*)
  | call (t : Tid) (c : Call α)
  | lock (t : Tid)
  | test (t : Tid) (woken : List Tid)
  | wake (t : Tid)
  | timeout (t : Tid)
  | relock (t : Tid)
  | giveUp (t : Tid)

namespace Threads

variable {Tid α : Type*} [DecidableEq Tid] [Fintype Tid] [Inhabited α]

/-- `pthread_cond_signal` may wake exactly the threads `woken`. -/
def Signals (s : Threads Tid α) (v : Cond) (woken : List Tid) : Prop :=
  (∀ u ∈ woken, (s.pc u).asleepOn v = true) ∧
    ((∃ u, (s.pc u).asleepOn v = true) → woken ≠ [])

instance (s : Threads Tid α) (v : Cond) (woken : List Tid) : Decidable (s.Signals v woken) := by
  unfold Signals
  infer_instance

/-- Thread `t` moves to `p`. -/
def goto (s : Threads Tid α) (t : Tid) (p : Pc α) : Threads Tid α :=
  { s with pc := Function.update s.pc t p }

/-- Thread `t` takes the mutex and moves to `p`. -/
def acquire (s : Threads Tid α) (t : Tid) (p : Pc α) : Threads Tid α :=
  { s with
    owner := some t
    pc := Function.update s.pc t p
    seen := Function.update s.seen t s.rb }

/-- Thread `t` leaves the mutex and moves to `p`. -/
def release (s : Threads Tid α) (t : Tid) (p : Pc α) : Threads Tid α :=
  { s with
    owner := none
    pc := Function.update s.pc t p }

/-- The section behind the waiting loop, the signal and the unlock. -/
def complete (s : Threads Tid α) (t : Tid) (c : Call α) (woken : List Tid) : Threads Tid α :=
  { s with
    rb := (c.routine.body s.rb).1
    owner := none
    pc := Function.update (fun u => if u ∈ woken then (s.pc u).wake else s.pc u) t
      (.returned (c.routine.body s.rb).2)
    pushed := s.pushed ++ (c.routine.body s.rb).2.stored?.toList
    popped := s.popped ++ (c.routine.body s.rb).2.fetched?.toList }

def next (s : Threads Tid α) : Action Tid α → Option (Threads Tid α)
  | .call t c => if (s.pc t).outside then some (s.goto t (.locking c)) else none
  | .lock t =>
      match s.pc t with
      | .locking c => if s.owner = none then some (s.acquire t (.testing c)) else none
      | _ => none
  | .test t woken =>
      match s.pc t with
      | .testing c =>
          if c.routine.blocked s.rb then some (s.release t (.sleeping c))
          else if s.Signals c.routine.signals woken then some (s.complete t c woken)
          else none
      | _ => none
  | .wake t =>
      match s.pc t with
      | .sleeping c => some (s.goto t (.waking c false))
      | _ => none
  | .timeout t =>
      match s.pc t with
      | .sleeping c => if c.routine.timed then some (s.goto t (.waking c true)) else none
      | _ => none
  | .relock t =>
      match s.pc t with
      | .waking c timedOut =>
          if s.owner = none then
            some (s.acquire t (if timedOut then .expired c else .testing c))
          else none
      | _ => none
  | .giveUp t =>
      match s.pc t with
      | .expired _ => some (s.release t (.returned .timeout))
      | _ => none

/-- No thread has called anything on the buffer that `rb_create` returned. -/
def start (cap : Nat) : Threads Tid α where
  rb := rbCreate cap
  owner := none
  pc _ := .idle
  pushed := []
  popped := []
  seen _ := rbCreate cap

def system (Tid α : Type*) [DecidableEq Tid] [Fintype Tid] [Inhabited α] (cap : Nat) :
    Transition.System (Threads Tid α) (Action Tid α) where
  init s := s = start cap
  next := next

/-- The ways in which a thread moves on. -/
inductive Move (s : Threads Tid α) : Action Tid α → Threads Tid α → Prop
  | call {t : Tid} {c : Call α} (outside : (s.pc t).outside = true) :
      Move s (.call t c) (s.goto t (.locking c))
  | lock {t : Tid} {c : Call α} (pc : s.pc t = .locking c) (free : s.owner = none) :
      Move s (.lock t) (s.acquire t (.testing c))
  | sleep {t : Tid} {c : Call α} {woken : List Tid} (pc : s.pc t = .testing c)
      (blocked : c.routine.blocked s.rb = true) :
      Move s (.test t woken) (s.release t (.sleeping c))
  | complete {t : Tid} {c : Call α} {woken : List Tid} (pc : s.pc t = .testing c)
      (ready : c.routine.blocked s.rb = false) (signals : s.Signals c.routine.signals woken) :
      Move s (.test t woken) (s.complete t c woken)
  | wake {t : Tid} {c : Call α} (pc : s.pc t = .sleeping c) :
      Move s (.wake t) (s.goto t (.waking c false))
  | timeout {t : Tid} {c : Call α} (pc : s.pc t = .sleeping c) (timed : c.routine.timed = true) :
      Move s (.timeout t) (s.goto t (.waking c true))
  | relock {t : Tid} {c : Call α} {timedOut : Bool} (pc : s.pc t = .waking c timedOut)
      (free : s.owner = none) :
      Move s (.relock t) (s.acquire t (if timedOut then .expired c else .testing c))
  | giveUp {t : Tid} {c : Call α} (pc : s.pc t = .expired c) :
      Move s (.giveUp t) (s.release t (.returned .timeout))

theorem next_move {s s' : Threads Tid α} {a : Action Tid α} (h : s.next a = some s') :
    Move s a s' := by
  cases a with
  | call t c =>
      simp only [next, Option.ite_none_right_eq_some, Option.some.injEq] at h
      obtain ⟨hout, rfl⟩ := h
      exact .call hout
  | lock t =>
      cases hp : s.pc t <;> simp only [next, hp, reduceCtorEq,
        Option.ite_none_right_eq_some, Option.some.injEq] at h
      obtain ⟨hfree, rfl⟩ := h
      exact .lock hp hfree
  | test t woken =>
      cases hp : s.pc t <;> simp only [next, hp, reduceCtorEq] at h
      split at h
      · next hblocked =>
          cases h
          exact .sleep hp hblocked
      · next hblocked =>
          simp only [Option.ite_none_right_eq_some, Option.some.injEq] at h
          obtain ⟨hsignals, rfl⟩ := h
          exact .complete hp (by simpa using hblocked) hsignals
  | wake t =>
      cases hp : s.pc t <;> simp only [next, hp, reduceCtorEq, Option.some.injEq] at h
      subst h
      exact .wake hp
  | timeout t =>
      cases hp : s.pc t <;> simp only [next, hp, reduceCtorEq,
        Option.ite_none_right_eq_some, Option.some.injEq] at h
      obtain ⟨htimed, rfl⟩ := h
      exact .timeout hp htimed
  | relock t =>
      cases hp : s.pc t <;> simp only [next, hp, reduceCtorEq,
        Option.ite_none_right_eq_some, Option.some.injEq] at h
      obtain ⟨hfree, rfl⟩ := h
      exact .relock hp hfree
  | giveUp t =>
      cases hp : s.pc t <;> simp only [next, hp, reduceCtorEq, Option.some.injEq] at h
      subst h
      exact .giveUp hp

end Threads

end RingBuffer

end SgMuni
