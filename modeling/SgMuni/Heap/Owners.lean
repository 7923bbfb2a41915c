import Mathlib.Data.List.Nodup
import Mathlib.Logic.Function.Basic

/-!
# Who holds which block

Every block that is allocated is held by one holder. An allocation and a release change what
one holder has, and blocks are passed on from one holder to another.
-/

namespace Heap

variable {A V H : Type*} {heap : A → Option V} {holds holds' : H → List A} {i j : H} {a b : A}

/-- The holders have each allocated block once, and no other block. -/
structure Exact (heap : A → Option V) (holds : H → List A) : Prop where
  nodup : ∀ i, (holds i).Nodup
  unique : ∀ i j a, a ∈ holds i → a ∈ holds j → i = j
  live : ∀ a, heap a ≠ none ↔ ∃ i, a ∈ holds i

theorem Exact.live_of_mem (h : Exact heap holds) (ha : a ∈ holds i) : heap a ≠ none :=
  (h.live a).mpr ⟨i, ha⟩

theorem Exact.ne_of_mem (h : Exact heap holds) (hij : i ≠ j) (ha : a ∈ holds i)
    (hb : b ∈ holds j) : b ≠ a := by
  rintro rfl
  exact hij (h.unique i j b ha hb)

theorem Exact.ne_of_dead (h : Exact heap holds) (ha : heap a = none) (hb : b ∈ holds j) :
    b ≠ a := by
  rintro rfl
  exact h.live_of_mem hb ha

/-- Blocks are passed on, or stay where they are in another order. -/
theorem Exact.pass (h : Exact heap holds) (hij : i ≠ j) (blocks : List A)
    (hi : (holds i).Perm (blocks ++ holds' i)) (hj : (holds' j).Perm (blocks ++ holds j))
    (hothers : ∀ l, l ≠ i → l ≠ j → holds' l = holds l) : Exact heap holds' := by
  have hmem (l : H) (a : A) : a ∈ holds' l →
      a ∈ blocks ∧ l = j ∨ a ∉ blocks ∧ a ∈ holds l := by
    intro ha
    by_cases hli : l = i
    · subst hli
      have hnodup := hi.nodup_iff.mp (h.nodup l)
      exact .inr ⟨fun hb => List.disjoint_of_nodup_append hnodup hb ha,
        hi.mem_iff.mpr (List.mem_append_right _ ha)⟩
    · by_cases hlj : l = j
      · subst hlj
        rcases List.mem_append.mp (hj.mem_iff.mp ha) with hb | hl
        · exact .inl ⟨hb, rfl⟩
        · refine .inr ⟨fun hb => ?_, hl⟩
          exact hli (h.unique l i a hl (hi.mem_iff.mpr (List.mem_append_left _ hb)))
      · rw [hothers l hli hlj] at ha
        refine .inr ⟨fun hb => ?_, ha⟩
        exact hli (h.unique l i a ha (hi.mem_iff.mpr (List.mem_append_left _ hb)))
  constructor
  · intro l
    by_cases hli : l = i
    · subst hli
      exact (List.nodup_append.mp (hi.nodup_iff.mp (h.nodup l))).2.1
    · by_cases hlj : l = j
      · subst hlj
        have hblocks := (List.nodup_append.mp (hi.nodup_iff.mp (h.nodup i))).1
        refine hj.nodup_iff.mpr (hblocks.append (h.nodup l) fun a hb hl => ?_)
        exact hli (h.unique l i a hl (hi.mem_iff.mpr (List.mem_append_left _ hb)))
      · rw [hothers l hli hlj]
        exact h.nodup l
  · intro l r a hl hr
    rcases hmem l a hl with ⟨hb, rfl⟩ | ⟨hb, hl'⟩
    · rcases hmem r a hr with ⟨-, rfl⟩ | ⟨hb', -⟩
      · rfl
      · exact absurd hb hb'
    · rcases hmem r a hr with ⟨hb', -⟩ | ⟨-, hr'⟩
      · exact absurd hb' hb
      · exact h.unique l r a hl' hr'
  · intro a
    rw [h.live a]
    constructor
    · rintro ⟨l, ha⟩
      by_cases hli : l = i
      · subst hli
        rcases List.mem_append.mp (hi.mem_iff.mp ha) with hb | hl
        · exact ⟨j, hj.mem_iff.mpr (List.mem_append_left _ hb)⟩
        · exact ⟨l, hl⟩
      · by_cases hlj : l = j
        · subst hlj
          exact ⟨l, hj.mem_iff.mpr (List.mem_append_right _ ha)⟩
        · exact ⟨l, by rwa [hothers l hli hlj]⟩
    · rintro ⟨l, ha⟩
      rcases hmem l a ha with ⟨hb, -⟩ | ⟨-, hl⟩
      · exact ⟨i, hi.mem_iff.mpr (List.mem_append_left _ hb)⟩
      · exact ⟨l, hl⟩

variable [DecidableEq A]

/-- The content of a block changes. -/
theorem Exact.store (h : Exact heap holds) (ha : a ∈ holds i) (v : V) :
    Exact (Function.update heap a (some v)) holds where
  nodup := h.nodup
  unique := h.unique
  live b := by
    rw [← h.live b]
    by_cases hb : b = a
    · subst hb
      simp [h.live_of_mem ha]
    · rw [Function.update_of_ne hb]

/-- A holder gets a block that nobody has. -/
theorem Exact.alloc (h : Exact heap holds) (ha : heap a = none) (v : V)
    (hi : holds' i = a :: holds i) (hothers : ∀ l, l ≠ i → holds' l = holds l) :
    Exact (Function.update heap a (some v)) holds' := by
  have hmem (l : H) (b : A) : b ∈ holds' l ↔ b = a ∧ l = i ∨ b ∈ holds l := by
    by_cases hl : l = i
    · subst hl
      simp [hi]
    · simp [hothers l hl, hl]
  constructor
  · intro l
    by_cases hl : l = i
    · subst hl
      rw [hi, List.nodup_cons]
      exact ⟨fun hmem => h.live_of_mem hmem ha, h.nodup l⟩
    · rw [hothers l hl]
      exact h.nodup l
  · intro l r b hl hr
    rcases (hmem l b).mp hl with ⟨rfl, rfl⟩ | hl'
    · rcases (hmem r b).mp hr with ⟨-, rfl⟩ | hr'
      · rfl
      · exact absurd ha (h.live_of_mem hr')
    · rcases (hmem r b).mp hr with ⟨rfl, -⟩ | hr'
      · exact absurd ha (h.live_of_mem hl')
      · exact h.unique l r b hl' hr'
  · intro b
    by_cases hb : b = a
    · subst hb
      simp only [Function.update_self, ne_eq, reduceCtorEq, not_false_iff, true_iff]
      exact ⟨i, (hmem i b).mpr (.inl ⟨rfl, rfl⟩)⟩
    · rw [Function.update_of_ne hb, h.live b]
      simp only [hmem, hb, false_and, false_or]

/-- A holder frees a block. -/
theorem Exact.free (h : Exact heap holds) (hi : (holds i).Perm (a :: holds' i))
    (hothers : ∀ l, l ≠ i → holds' l = holds l) :
    Exact (Function.update heap a none) holds' := by
  have hnodup : a ∉ holds' i ∧ (holds' i).Nodup :=
    List.nodup_cons.mp (hi.nodup_iff.mp (h.nodup i))
  have hmem (l : H) (b : A) : b ∈ holds' l ↔ b ≠ a ∧ b ∈ holds l := by
    by_cases hl : l = i
    · subst hl
      rw [hi.mem_iff, List.mem_cons]
      refine ⟨fun hb => ⟨fun hba => hnodup.1 (hba ▸ hb), .inr hb⟩, fun hb => ?_⟩
      exact hb.2.resolve_left hb.1
    · rw [hothers l hl]
      have hhas : a ∈ holds i := hi.mem_iff.mpr List.mem_cons_self
      exact ⟨fun hb => ⟨h.ne_of_mem (Ne.symm hl) hhas hb, hb⟩, fun hb => hb.2⟩
  constructor
  · intro l
    by_cases hl : l = i
    · subst hl
      exact hnodup.2
    · rw [hothers l hl]
      exact h.nodup l
  · intro l r b hl hr
    exact h.unique l r b ((hmem l b).mp hl).2 ((hmem r b).mp hr).2
  · intro b
    by_cases hb : b = a
    · subst hb
      simp [hmem]
    · rw [Function.update_of_ne hb, h.live b]
      simp only [hmem, ne_eq, hb, not_false_iff, true_and]

end Heap
