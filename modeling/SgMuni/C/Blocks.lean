import SgMuni.C.Lines
import SgMuni.C.Outcome

/-!
# Blocks of memory

Stores and string lengths in a block, which fault where they leave it, and an allocator that
may refuse each of its calls. The bytes of a new block are arbitrary.
-/

namespace C

/-- Stores bytes at an offset of a block. -/
def store (block : List UInt8) (offset : Nat) (bytes : List UInt8) : Outcome (List UInt8) :=
  if offset + bytes.length ≤ block.length then
    .ok (block.take offset ++ (bytes ++ block.drop (offset + bytes.length)))
  else .fault

/-- `strlen` at an offset of a block. -/
def strlen (block : List UInt8) (offset : Nat) : Outcome Nat :=
  if 0 ∈ block.drop offset then .ok (cString (block.drop offset)).length else .fault

/-- What the allocator does at its calls: it refuses, or gives memory with some content. -/
abbrev Allocator := Nat → Option (Nat → UInt8)

def malloc (memory : Allocator) (call size : Nat) : Option (List UInt8) :=
  (memory call).map fun fresh => (List.range size).map fresh

/-- `realloc` keeps the bytes of the block that fit. -/
def realloc (memory : Allocator) (call : Nat) (block : List UInt8) (size : Nat) :
    Option (List UInt8) :=
  (memory call).map fun fresh =>
    block.take size ++ (List.range (size - block.length)).map fresh

section Stores

variable {block a b bytes s t : List UInt8} {n : Nat}

theorem store_append (hn : n = a.length) (hlen : bytes.length ≤ b.length) :
    store (a ++ b) n bytes = .ok (a ++ (bytes ++ b.drop bytes.length)) := by
  subst hn
  rw [store, if_pos (by rw [List.length_append]; omega), List.take_left, ← List.drop_drop,
    List.drop_left]

theorem strlen_append (hn : n = a.length) (hs : 0 ∉ s) :
    strlen (a ++ (s ++ 0 :: t)) n = .ok s.length := by
  subst hn
  rw [strlen, List.drop_left, if_pos (by simp), cString_terminated hs]

end Stores

section Allocation

variable {memory : Allocator} {call size : Nat} {block b : List UInt8}

theorem length_malloc (h : malloc memory call size = some b) : b.length = size := by
  obtain ⟨fresh, -, rfl⟩ := Option.map_eq_some_iff.mp h
  simp

theorem malloc_eq_none : malloc memory call size = none ↔ memory call = none :=
  Option.map_eq_none_iff

theorem realloc_eq_none : realloc memory call block size = none ↔ memory call = none :=
  Option.map_eq_none_iff

/-- A larger block starts with the old one. -/
theorem realloc_grow (hsize : block.length ≤ size) (h : realloc memory call block size = some b) :
    ∃ fresh, b = block ++ fresh ∧ fresh.length = size - block.length := by
  obtain ⟨fresh, -, rfl⟩ := Option.map_eq_some_iff.mp h
  exact ⟨_, by rw [List.take_of_length_le hsize], by simp⟩

/-- A smaller block is a start of the old one. -/
theorem realloc_shrink (hsize : size ≤ block.length) (h : realloc memory call block size = some b) :
    b = block.take size := by
  obtain ⟨fresh, -, rfl⟩ := Option.map_eq_some_iff.mp h
  rw [Nat.sub_eq_zero_of_le hsize, List.range_zero, List.map_nil, List.append_nil]

end Allocation

end C
