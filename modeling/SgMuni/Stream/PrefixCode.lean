import Mathlib.Data.List.Infix

/-!
# Codes whose words end by themselves

When the bytes behind a word cannot change which word it is, a stream of words is read in
one way, and what has arrived of it is read before the rest is there.
-/

namespace Stream

variable {α M : Type*} {encode : M → List α}

/-- A word is not empty, and no stream starts with the words of two messages. -/
structure PrefixCode (encode : M → List α) : Prop where
  ne_nil : ∀ m, encode m ≠ []
  unique : ∀ m m' s s', encode m ++ s = encode m' ++ s' → m = m'

/-- Streams of words are one the start of the other as their messages are. -/
theorem PrefixCode.flatMap_prefix_iff (h : PrefixCode encode) {ms ms' : List M} :
    ms.flatMap encode <+: ms'.flatMap encode ↔ ms <+: ms' := by
  constructor
  · intro hprefix
    induction ms generalizing ms' with
    | nil => exact List.nil_prefix
    | cons m ms ih =>
        obtain ⟨t, ht⟩ := hprefix
        rw [List.flatMap_cons, List.append_assoc] at ht
        cases ms' with
        | nil => exact absurd (List.append_eq_nil_iff.mp ht).1 (h.ne_nil m)
        | cons m' ms' =>
            rw [List.flatMap_cons] at ht
            obtain rfl := h.unique _ _ _ _ ht
            exact List.cons_prefix_cons.mpr ⟨rfl, ih ⟨t, List.append_cancel_left ht⟩⟩
  · rintro ⟨t, rfl⟩
    rw [List.flatMap_append]
    exact List.prefix_append _ _

end Stream
