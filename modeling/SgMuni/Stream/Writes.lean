import Mathlib.Data.List.Basic
import Mathlib.Data.List.Infix

/-!
# Streams of messages under short writes

Messages are written one after the other, each with one write that takes a first
part of its message, or nothing. An element of a stream is the place of its
message and its own place in the message, so that what the writes take can be
compared with the messages whatever these contain: it is a prefix of the
messages exactly when no write takes anything behind a message that was not
taken as a whole.
-/

namespace Stream

/-- The first elements of the messages from number `i` on, as many of each as the
list says. -/
def parts : Nat → List Nat → List (Nat × Nat)
  | _, [] => []
  | i, n :: ns => (List.range n).map (fun j => (i, j)) ++ parts (i + 1) ns

/-- Nothing is taken behind a message of which not all was taken. -/
def Whole : List Nat → List Nat → Prop
  | n :: ns, l :: ls => n ≤ l ∧ (n = l ∨ ∀ k ∈ ns, k = 0) ∧ Whole ns ls
  | ns, [] => ∀ k ∈ ns, k = 0
  | [], _ :: _ => True

variable {ns ls : List Nat}

end Stream
