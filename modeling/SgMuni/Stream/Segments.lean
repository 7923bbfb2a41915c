import Mathlib.Data.List.Basic
import Mathlib.Data.List.Count
import Mathlib.Data.List.Flatten

/-!
# Segments of a stream that start with a marker

A stream is cut into segments. When every segment starts with a marker and the
marker does not occur elsewhere in the segments of one cut, a cut into equally
many segments is the same cut.
-/

namespace Stream

variable {α : Type*} {m : α}

/-- A segment whose only marker is its first element. -/
def Marked (m : α) (seg : List α) : Prop := ∃ rest, seg = m :: rest ∧ m ∉ rest

theorem length_le_count_flatten [DecidableEq α] {as : List (List α)} (h : ∀ a ∈ as, a.head? = some m) :
    as.length ≤ as.flatten.count m := by
  induction as with
  | nil => exact Nat.zero_le _
  | cons a as ih =>
      obtain ⟨rest, rfl⟩ := List.head?_eq_some_iff.mp (h a (by simp))
      have hrest := ih fun b hb => h b (by simp [hb])
      simp only [List.length_cons, List.flatten_cons, List.count_append, List.count_cons_self]
      omega

theorem count_flatten_of_marked [DecidableEq α] {bs : List (List α)} (h : ∀ b ∈ bs, Marked m b) :
    bs.flatten.count m = bs.length := by
  induction bs with
  | nil => rfl
  | cons b bs ih =>
      obtain ⟨rest, rfl, hnot⟩ := h b (by simp)
      have hrest := ih fun c hc => h c (by simp [hc])
      simp only [List.flatten_cons, List.count_append, List.count_cons_self, List.length_cons,
        List.count_eq_zero_of_not_mem hnot, hrest]
      omega

/-- The rest of a stream behind a segment is empty or starts with the marker. -/
theorem flatten_head {as : List (List α)} (h : ∀ a ∈ as, a.head? = some m) :
    as.flatten = [] ∨ as.flatten.head? = some m := by
  cases as with
  | nil => exact Or.inl rfl
  | cons a as =>
      refine Or.inr ?_
      rw [List.flatten_cons, List.head?_append, h a (by simp)]
      rfl

/-- Of two segments without further markers that continue to the same stream,
neither is longer. -/
theorem eq_of_append_eq {u v x y : List α} (hu : m ∉ u) (hv : m ∉ v)
    (hx : x = [] ∨ x.head? = some m) (hy : y = [] ∨ y.head? = some m)
    (h : u ++ x = v ++ y) : u = v := by
  have hnil {w z t : List α} (hw : m ∉ w) (hz : z = [] ∨ z.head? = some m)
      (hwz : z = w ++ t) : w = [] := by
    cases w with
    | nil => rfl
    | cons c w =>
        rcases hz with rfl | hz
        · simp at hwz
        · rw [hwz, List.cons_append, List.head?_cons, Option.some.injEq] at hz
          exact absurd (by simp [hz]) hw
  rcases List.append_eq_append_iff.mp h with ⟨w, rfl, hwz⟩ | ⟨w, rfl, hwz⟩
  · have hw : m ∉ w := fun hmem => hv (by simp [hmem])
    rw [hnil hw hx hwz, List.append_nil]
  · have hw : m ∉ w := fun hmem => hu (by simp [hmem])
    rw [hnil hw hy hwz, List.append_nil]

/-- A cut of a stream of marked segments into equally many segments that start
with the marker is the cut at the markers. -/
theorem segments_unique [DecidableEq α] {as bs : List (List α)} (ha : ∀ a ∈ as, a.head? = some m)
    (hb : ∀ b ∈ bs, Marked m b) (hflat : as.flatten = bs.flatten)
    (hlen : as.length = bs.length) : as = bs := by
  induction bs generalizing as with
  | nil => exact List.length_eq_zero_iff.mp hlen
  | cons b bs ih =>
      cases as with
      | nil => simp at hlen
      | cons a as =>
          have ha' : ∀ c ∈ as, c.head? = some m := fun c hc => ha c (by simp [hc])
          have hb' : ∀ c ∈ bs, Marked m c := fun c hc => hb c (by simp [hc])
          have hlen' : as.length = bs.length := by simpa using hlen
          obtain ⟨u, rfl⟩ := List.head?_eq_some_iff.mp (ha a (by simp))
          obtain ⟨v, rfl, hv⟩ := hb b (by simp)
          -- One marker per segment leaves none for the rest of the first segment.
          have hcount := count_flatten_of_marked hb
          rw [← hflat, List.flatten_cons, List.count_append, List.count_cons_self,
            List.length_cons] at hcount
          have hle := length_le_count_flatten ha'
          have hu : m ∉ u := List.count_eq_zero.mp (by omega)
          have hrest : u ++ as.flatten = v ++ bs.flatten := by simpa using hflat
          have hbhead : ∀ c ∈ bs, c.head? = some m := by
            intro c hc
            obtain ⟨rest, rfl, -⟩ := hb' c hc
            rfl
          have huv : u = v :=
            eq_of_append_eq hu hv (flatten_head ha') (flatten_head hbhead) hrest
          subst huv
          rw [ih ha' hb' (List.append_cancel_left hrest) hlen']

end Stream
