import SgMuni.Transition.System
import Mathlib.Data.List.Basic

/-!
# Bounded first-in first-out queues

The queue keeps the whole history of what entered and what left it. The FIFO
law and the capacity bound are fields, so that a queue that loses, repeats or
reorders an item cannot be built.
-/

namespace Queue

variable {α : Type*}

/-- A queue of at most `cap` items together with its history. -/
structure Fifo (α : Type*) (cap : Nat) where
  items : List α
  pushed : List α
  popped : List α
  le_cap : items.length ≤ cap
  law : popped ++ items = pushed

namespace Fifo

variable {cap : Nat}

/-- The queue that nothing has entered. -/
def empty (cap : Nat) : Fifo α cap where
  items := []
  pushed := []
  popped := []
  le_cap := Nat.zero_le _
  law := rfl

/-- Append an item to a queue with room for it. -/
def push (q : Fifo α cap) (x : α) (room : q.items.length < cap) : Fifo α cap where
  items := q.items ++ [x]
  pushed := q.pushed ++ [x]
  popped := q.popped
  le_cap := by simpa [Nat.succ_le_iff] using room
  law := by rw [← List.append_assoc, q.law]

/-- Remove the oldest item of a nonempty queue. -/
def pop (q : Fifo α cap) (nonempty : q.items ≠ []) : Fifo α cap where
  items := q.items.tail
  pushed := q.pushed
  popped := q.popped ++ [q.items.head nonempty]
  le_cap := by
    have h := q.le_cap
    rw [List.length_tail]
    omega
  law := by rw [List.append_assoc, List.singleton_append, List.cons_head_tail, q.law]

/-- What can happen to a queue. -/
inductive Event (α : Type*)
  | push (x : α)
  | pop

/-- A push needs room and a pop needs an item. -/
def next (q : Fifo α cap) : Event α → Option (Fifo α cap)
  | .push x => if room : q.items.length < cap then some (q.push x room) else none
  | .pop => if nonempty : q.items ≠ [] then some (q.pop nonempty) else none

/-- The bounded queue as a transition system. -/
def system (α : Type*) (cap : Nat) : Transition.System (Fifo α cap) (Event α) where
  init q := q = empty cap
  next := next

theorem next_push (q : Fifo α cap) (x : α) (room : q.items.length < cap) :
    q.next (.push x) = some (q.push x room) := by
  simp [next, room]

theorem next_pop (q : Fifo α cap) (nonempty : q.items ≠ []) :
    q.next .pop = some (q.pop nonempty) := by
  simp [next, nonempty]

end Fifo

end Queue
