import SgMuni.C.Double

/-!
# Numbers with a point and an exponent

`strtod` on a text of digits, signs, points and exponent letters, with the exact value
of the text.
-/

namespace C

/-- The optional sign of a number, and whether it is a minus. -/
def sign : List UInt8 → Bool × List UInt8
  | 43 :: s => (false, s)
  | 45 :: s => (true, s)
  | s => (false, s)

/-- The digits behind an optional point. -/
def fraction : List UInt8 → List UInt8 × List UInt8
  | 46 :: s => (s.takeWhile isdigit, s.dropWhile isdigit)
  | s => ([], s)

/-- An optional exponent; a letter without a number behind it is none. -/
def exponent (s : List UInt8) : ℤ × List UInt8 :=
  match s with
  | [] => (0, s)
  | c :: t =>
      let digits := (sign t).2.takeWhile isdigit
      if (c = 101 ∨ c = 69) ∧ digits ≠ [] then
        (if (sign t).1 then -(value digits : ℤ) else value digits, (sign t).2.dropWhile isdigit)
      else (0, s)

/-- The number at the start of a text, and the text behind it. -/
def strtod (s : List UInt8) : Option (ℚ × List UInt8) :=
  let int := (sign s).2.takeWhile isdigit
  let (frac, s₁) := fraction ((sign s).2.dropWhile isdigit)
  let (exp, s₂) := exponent s₁
  if int = [] ∧ frac = [] then none
  else
    let magnitude : ℚ := value (int ++ frac) * 10 ^ (exp - frac.length)
    some (if (sign s).1 then -magnitude else magnitude, s₂)

theorem sign_suffix (s : List UInt8) : (sign s).2 <:+ s := by
  unfold sign
  split
  · exact List.suffix_cons _ _
  · exact List.suffix_cons _ _
  · exact List.suffix_rfl

theorem fraction_suffix (s : List UInt8) : (fraction s).2 <:+ s := by
  unfold fraction
  split
  · exact (List.dropWhile_suffix _).trans (List.suffix_cons _ _)
  · exact List.suffix_rfl

theorem exponent_suffix (s : List UInt8) : (exponent s).2 <:+ s := by
  unfold exponent
  split
  · exact List.suffix_rfl
  · next c t =>
      dsimp only
      split
      · exact ((List.dropWhile_suffix _).trans (sign_suffix t)).trans (List.suffix_cons _ _)
      · exact List.suffix_rfl

/-- `strtod` reads a text from its start. -/
theorem strtod_suffix {s t : List UInt8} {x : ℚ} (h : strtod s = some (x, t)) : t <:+ s := by
  simp only [strtod, Option.ite_none_left_eq_some, Option.some.injEq, Prod.mk.injEq] at h
  obtain ⟨-, -, rfl⟩ := h
  exact (exponent_suffix _).trans ((fraction_suffix _).trans
    ((List.dropWhile_suffix _).trans (sign_suffix s)))

/-- A number has a digit. -/
theorem length_lt_of_strtod {s t : List UInt8} {x : ℚ} (h : strtod s = some (x, t)) :
    t.length < s.length := by
  simp only [strtod, Option.ite_none_left_eq_some, Option.some.injEq, Prod.mk.injEq] at h
  obtain ⟨hdigits, -, rfl⟩ := h
  have hsign := (sign_suffix s).length_le
  have hsplit := congrArg List.length
    (List.takeWhile_append_dropWhile (p := isdigit) (l := (sign s).2))
  have hfrac := (fraction_suffix ((sign s).2.dropWhile isdigit)).length_le
  have hexp := (exponent_suffix (fraction ((sign s).2.dropWhile isdigit)).2).length_le
  rw [List.length_append] at hsplit
  by_cases hint : (sign s).2.takeWhile isdigit = []
  · have hne : (fraction ((sign s).2.dropWhile isdigit)).1 ≠ [] := fun h => hdigits ⟨hint, h⟩
    have hlt : (fraction ((sign s).2.dropWhile isdigit)).2.length <
        ((sign s).2.dropWhile isdigit).length := by
      generalize (sign s).2.dropWhile isdigit = r at hne
      unfold fraction at hne ⊢
      split
      · next r =>
          rw [List.length_cons]
          exact Nat.lt_succ_of_le (List.dropWhile_suffix _).length_le
      · next hpoint =>
          split at hne
          · exact absurd rfl (hpoint _)
          · exact absurd rfl hne
    omega
  · have hpos := List.length_pos_iff.mpr hint
    omega

section Numerals

variable {ds frac s t : List UInt8} {c : UInt8}

/-- The text does not go on with a number. -/
def Stops (t : List UInt8) : Prop :=
  ∀ c ∈ t.head?, isdigit c = false ∧ c ≠ 46 ∧ c ≠ 101 ∧ c ≠ 69

/-- Digits end where something else begins. -/
theorem span_digits (hds : ∀ c ∈ ds, isdigit c = true) (hs : ∀ c ∈ s.head?, isdigit c = false) :
    (ds ++ s).takeWhile isdigit = ds ∧ (ds ++ s).dropWhile isdigit = s := by
  rw [List.takeWhile_append_of_pos hds, List.dropWhile_append_of_pos hds]
  cases s with
  | nil => exact ⟨List.append_nil _, rfl⟩
  | cons c s =>
      have hc : ¬isdigit c = true := by simp [hs c rfl]
      rw [List.takeWhile_cons_of_neg hc, List.dropWhile_cons_of_neg hc]
      exact ⟨List.append_nil _, rfl⟩

theorem sign_of_digits (hds : ∀ c ∈ ds, isdigit c = true) (hne : ds ≠ []) :
    sign (ds ++ s) = (false, ds ++ s) := by
  obtain ⟨c, ds, rfl⟩ := List.exists_cons_of_ne_nil hne
  have hc := hds c List.mem_cons_self
  rw [List.cons_append]
  unfold sign
  split
  · next heq =>
      cases heq
      cases hc
  · next heq =>
      cases heq
      cases hc
  · rfl

/-- A point and digits behind it, if there are any. -/
def pointText (frac : List UInt8) : List UInt8 := if frac = [] then [] else 46 :: frac

/-- An exponent has at least two digits. -/
def exponentText (e : ℤ) : List UInt8 :=
  101 :: (if e < 0 then 45 else 43) ::
    ((if e.natAbs < 10 then [48] else []) ++ decimal e.natAbs)

theorem fraction_pointText (hfrac : ∀ c ∈ frac, isdigit c = true)
    (hs : ∀ c ∈ s.head?, isdigit c = false ∧ c ≠ 46) :
    fraction (pointText frac ++ s) = (frac, s) := by
  unfold pointText
  split_ifs with hempty
  · subst hempty
    rw [List.nil_append]
    unfold fraction
    split
    · exact absurd rfl (hs 46 rfl).2
    · rfl
  · obtain ⟨htake, hdrop⟩ := span_digits hfrac fun c hc => (hs c hc).1
    rw [List.cons_append, fraction, htake, hdrop]

theorem exponent_of_stops (hs : Stops s) : exponent s = (0, s) := by
  unfold exponent
  split
  · rfl
  · next c t =>
      obtain ⟨-, -, he, hE⟩ := hs c rfl
      exact if_neg fun h => h.1.elim he hE

theorem exponent_exponentText (e : ℤ) (hs : Stops s) : exponent (exponentText e ++ s) = (e, s) := by
  set ds := (if e.natAbs < 10 then [48] else []) ++ decimal e.natAbs with hds
  have hdigits : ∀ c ∈ ds, isdigit c = true := by
    intro c hc
    rw [hds, List.mem_append] at hc
    rcases hc with hc | hc
    · split_ifs at hc
      · rw [List.mem_singleton.mp hc]
        rfl
      · cases hc
    · exact isdigit_of_mem_decimal hc
  have hvalue : value ds = e.natAbs := by
    rw [hds]
    split_ifs
    · simpa [digitVal] using value_decimal e.natAbs
    · exact value_decimal e.natAbs
  have hne : ds ≠ [] := by simp [hds, decimal_ne_nil]
  obtain ⟨htake, hdrop⟩ := span_digits hdigits fun c hc => (hs c hc).1
  have hsign : sign ((if e < 0 then 45 else 43) :: (ds ++ s)) = (decide (e < 0), ds ++ s) := by
    split_ifs with hneg
    · simp [sign, hneg]
    · simp [sign, hneg]
  rw [exponentText, ← hds, List.cons_append, List.cons_append, exponent,
    hsign, htake, hdrop, if_pos ⟨.inl rfl, hne⟩, hvalue]
  congr 1
  simp only [decide_eq_true_eq]
  split_ifs <;> omega

/-- The text of a number: a sign, digits, digits behind a point, and an exponent. -/
structure Numeral where
  negative : Bool
  int : List UInt8
  frac : List UInt8
  exp : Option ℤ
  isdigit_int : ∀ c ∈ int, isdigit c = true
  isdigit_frac : ∀ c ∈ frac, isdigit c = true
  int_ne_nil : int ≠ []

namespace Numeral

def text (n : Numeral) : List UInt8 :=
  (if n.negative then [45] else []) ++
    (n.int ++ (pointText n.frac ++ (n.exp.map exponentText).getD []))

/-- The value of the digits with their point and exponent. -/
def magnitude (n : Numeral) : ℚ := C.value (n.int ++ n.frac) * 10 ^ (n.exp.getD 0 - n.frac.length)

def number (n : Numeral) : ℚ := if n.negative then -n.magnitude else n.magnitude

/-- A number is read to its end, unless the text goes on with one. -/
theorem strtod_text (n : Numeral) (hs : Stops s) : strtod (n.text ++ s) = some (n.number, s) := by
  set r := (n.exp.map exponentText).getD [] ++ s with hr
  have hstart : ∀ c ∈ r.head?, isdigit c = false ∧ c ≠ 46 := by
    intro c hc
    cases hexp : n.exp with
    | none =>
        rw [hr, hexp, Option.map_none, Option.getD_none, List.nil_append] at hc
        exact ⟨(hs c hc).1, (hs c hc).2.1⟩
    | some e =>
        rw [hr, hexp, Option.map_some, Option.getD_some, exponentText, List.cons_append,
          List.head?_cons, Option.mem_some_iff] at hc
        subst hc
        decide
  have hexponent : exponent r = (n.exp.getD 0, s) := by
    cases hexp : n.exp with
    | none => simpa [hr, hexp] using exponent_of_stops hs
    | some e => simpa [hr, hexp] using exponent_exponentText e hs
  have hpoint : ∀ c ∈ (pointText n.frac ++ r).head?, isdigit c = false := by
    intro c hc
    unfold pointText at hc
    split_ifs at hc
    · exact (hstart c hc).1
    · rw [List.cons_append, List.head?_cons, Option.mem_some_iff] at hc
      subst hc
      decide
  have hsign : sign (n.text ++ s) = (n.negative, n.int ++ (pointText n.frac ++ r)) := by
    simp only [text, List.append_assoc, ← hr]
    cases n.negative with
    | true => rfl
    | false =>
        rw [if_neg Bool.false_ne_true, List.nil_append]
        exact sign_of_digits n.isdigit_int n.int_ne_nil
  obtain ⟨htake, hdrop⟩ := span_digits n.isdigit_int hpoint
  simp only [strtod, hsign, htake, hdrop, fraction_pointText n.isdigit_frac hstart, hexponent,
    n.int_ne_nil, false_and, if_false]
  rfl

/-- The characters of the text of a number. -/
theorem mem_text {n : Numeral} (hc : c ∈ n.text) :
    isdigit c = true ∨ c ∈ ([43, 45, 46, 101] : List UInt8) := by
  simp only [text, List.mem_append] at hc
  rcases hc with hc | hc | hc | hc
  · split_ifs at hc
    · rw [List.mem_singleton.mp hc]
      decide
    · cases hc
  · exact .inl (n.isdigit_int c hc)
  · unfold pointText at hc
    split_ifs at hc
    · cases hc
    · rcases List.mem_cons.mp hc with rfl | hc
      · decide
      · exact .inl (n.isdigit_frac c hc)
  · cases hexp : n.exp with
    | none => simp [hexp] at hc
    | some e =>
        simp only [hexp, Option.map_some, Option.getD_some, exponentText, List.mem_cons,
          List.mem_append] at hc
        rcases hc with rfl | rfl | hc | hc
        · decide
        · split_ifs <;> decide
        · split_ifs at hc
          · rw [List.mem_singleton.mp hc]
            decide
          · cases hc
        · exact .inl (isdigit_of_mem_decimal hc)

/-- The text begins with a sign or a digit. -/
theorem head_text (n : Numeral) (s : List UInt8) :
    ∃ c ∈ (n.text ++ s).head?, c = 45 ∨ isdigit c = true := by
  unfold text
  cases n.negative with
  | true => exact ⟨45, rfl, .inl rfl⟩
  | false =>
      obtain ⟨c, ds, hcons⟩ := List.exists_cons_of_ne_nil n.int_ne_nil
      exact ⟨c, by simp [hcons], .inr (n.isdigit_int c (hcons ▸ List.mem_cons_self))⟩

end Numeral

/-- What `%d` prints. -/
def intNumeral (n : ℤ) : Numeral where
  negative := decide (n < 0)
  int := decimal n.natAbs
  frac := []
  exp := none
  isdigit_int _ hc := isdigit_of_mem_decimal hc
  isdigit_frac _ hc := absurd hc List.not_mem_nil
  int_ne_nil := decimal_ne_nil _

theorem text_intNumeral (n : ℤ) : (intNumeral n).text = formatInt n := by
  by_cases hneg : n < 0 <;> simp [Numeral.text, intNumeral, formatInt, pointText, hneg]

theorem number_intNumeral (n : ℤ) : (intNumeral n).number = n := by
  simp only [Numeral.number, Numeral.magnitude, intNumeral, List.append_nil, value_decimal,
    Option.getD_none, List.length_nil, Nat.cast_zero, sub_zero, zpow_zero, mul_one,
    decide_eq_true_eq]
  split_ifs with hneg
  · rw [← Int.cast_natCast, Int.natCast_natAbs, abs_of_neg hneg]
    push_cast
    ring
  · rw [← Int.cast_natCast, Int.natCast_natAbs, abs_of_nonneg (not_lt.mp hneg)]

end Numerals

end C
