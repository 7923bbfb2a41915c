import Mathlib.Data.List.Basic

/-!
# The value last written for a key

A history of partial writes gives each key the value of the last write that
covers it. A cache is right when it holds these values.
-/

namespace Cache

variable {ι β : Type*}

/-- The last value that the history has for a key, or the initial one. -/
def latest (init : ι → β) (writes : List (ι → Option β)) (i : ι) : β :=
  ((writes.filterMap (· i)).getLast?).getD (init i)

variable {init : ι → β} {writes : List (ι → Option β)} {w : ι → Option β} {i : ι}

@[simp] theorem latest_nil : latest init [] i = init i := rfl

@[simp] theorem latest_concat :
    latest init (writes ++ [w]) i = (w i).getD (latest init writes i) := by
  cases h : w i <;> simp [latest, h]

end Cache
