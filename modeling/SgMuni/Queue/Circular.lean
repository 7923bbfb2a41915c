import Mathlib.Data.List.Basic
import Mathlib.Data.Nat.ModEq

/-!
# Windows of a circular array

The window of length `n` at `head` reads `n` consecutive slots of an array,
continuing at slot zero after the last one. Writing the slot behind the window
extends it and moving `head` by one drops its first element.
-/

namespace Queue

variable {α : Type*} [Inhabited α]

/-- The `n` slots from `head` on, in order, indices taken modulo the length. -/
def window (buf : List α) (head n : Nat) : List α :=
  (List.range n).map fun i => buf.getD ((head + i) % buf.length) default

@[simp] theorem length_window (buf : List α) (head n : Nat) :
    (window buf head n).length = n := by
  simp [window]

/-- Two offsets below the length address different slots. -/
theorem slot_ne {cap : Nat} (head : Nat) {i n : Nat} (hi : i < n) (hn : n < cap) :
    (head + n) % cap ≠ (head + i) % cap := by
  intro h
  have hmod : n ≡ i [MOD cap] := Nat.ModEq.add_left_cancel' head h
  have heq : n = i := hmod.eq_of_lt_of_lt hn (hi.trans hn)
  omega

/-- Writing the first slot behind a window that does not fill the array appends
to the window. -/
theorem window_set {buf : List α} {head n : Nat} (hn : n < buf.length) (x : α) :
    window (buf.set ((head + n) % buf.length) x) head (n + 1) =
      window buf head n ++ [x] := by
  have hlt : (head + n) % buf.length < buf.length := Nat.mod_lt _ (by omega)
  have hold : ∀ i ∈ List.range n,
      (buf.set ((head + n) % buf.length) x).getD ((head + i) % buf.length) default =
        buf.getD ((head + i) % buf.length) default := by
    intro i hi
    have hne := slot_ne head (List.mem_range.mp hi) hn
    simp only [List.getD_eq_getElem?_getD, List.getElem?_set_ne hne]
  simp only [window, List.length_set, List.range_succ, List.map_append, List.map_cons,
    List.map_nil]
  rw [List.map_congr_left hold]
  simp [List.getD_eq_getElem?_getD, List.getElem?_set_self hlt]

/-- A nonempty window starts with the slot at `head` and continues with the
window at the following slot. -/
theorem window_succ {buf : List α} {head : Nat} (hhead : head < buf.length) (n : Nat) :
    window buf head (n + 1) =
      buf.getD head default :: window buf ((head + 1) % buf.length) n := by
  simp only [window, List.range_succ_eq_map, List.map_cons, List.map_map, Nat.add_zero,
    Nat.mod_eq_of_lt hhead]
  congr 1
  apply List.map_congr_left
  intro i _
  have hslot : (head + (i + 1)) % buf.length =
      ((head + 1) % buf.length + i) % buf.length := by
    rw [Nat.mod_add_mod]
    congr 1
    omega
  simp only [Function.comp_apply, Nat.succ_eq_add_one, hslot]

end Queue
