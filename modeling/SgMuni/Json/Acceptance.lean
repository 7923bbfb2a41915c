import Mathlib.Data.List.TakeWhile
import SgMuni.Json.Grammar

/-!
# The texts that are accepted

The parser reads every derivation of the grammar, and so accepts a text exactly where the
grammar has one, at any depth up to the nesting limit.
-/

namespace CJson

open C

section Space

variable {content w s t : List UInt8} {o : Nat} {c : UInt8}

/-- Behind a byte that is no space there is nothing to skip. -/
theorem skipWhitespace_self (hc : isSpace c = false) (h : content.drop o = c :: t) :
    skipWhitespace content o = o :=
  skipWhitespace_of_drop (w := []) spaces_nil hc h

/-- A part that starts behind space at a byte that is none. -/
def Starts (s : List UInt8) (close : UInt8) : Prop :=
  ∃ w c s', Spaces w ∧ s = w ++ c :: s' ∧ isSpace c = false ∧ c ≠ close

end Space

section Dispatch

variable {content s t : List UInt8} {fuel depth o n : Nat} {c : UInt8}

/-- A text that starts with another byte does not stand at the offset. -/
theorem not_prefix_of_drop {a : UInt8} {text : List UInt8} (h : content.drop o = c :: s)
    (ha : c ≠ a) : ¬(a :: text) <+: content.drop o := by
  rw [h, List.cons_prefix_cons]
  exact fun heq => ha heq.1.symm

/-- What `parse_value` does at a byte that starts none of the three literals. -/
theorem parseValue_of_drop (h : content.drop o = c :: s) (hn : c ≠ 110) (hf : c ≠ 102)
    (ht : c ≠ 116) :
    parseValue content (fuel + 1) depth o =
      if c = 34 then
        (parseString content o).bind fun (valuestring, offset) => .ok (.string valuestring, offset)
      else if c = 45 ∨ isdigit c = true then
        parseNumber content o
      else if c = 91 then
        (parseArray content fuel depth o).bind fun (child, offset) => .ok (.array child, offset)
      else if c = 123 then
        (parseObject content fuel depth o).bind fun (child, offset) => .ok (.object child, offset)
      else .fail := by
  have hnull : ¬nullText <+: content.drop o := not_prefix_of_drop h hn
  have hfalse : ¬boolText false <+: content.drop o := not_prefix_of_drop h hf
  have htrue : ¬boolText true <+: content.drop o := not_prefix_of_drop h ht
  have hbyte : content[o]? = some c := by
    rw [← List.head?_drop, h, List.head?_cons]
  rw [parseValue, literal_eq (by decide) (by decide), literal_eq (by decide) (by decide),
    literal_eq (by decide) (by decide)]
  simp only [Outcome.ok_bind, decide_eq_true_eq]
  rw [if_neg hnull, if_neg hfalse, if_neg htrue]
  simp only [nextIs_of_drop h, hbyte, Option.any_some, decide_eq_true_eq, Bool.or_eq_true]

theorem parseValue_null (h : content.drop o = nullText ++ t) :
    parseValue content (fuel + 1) depth o = .ok (.null, o + nullText.length) := by
  rw [parseValue, literal_eq (by decide) (by decide), Outcome.ok_bind, h,
    if_pos (decide_eq_true (List.prefix_append _ _))]
  rfl

theorem parseValue_bool (value : Bool) (h : content.drop o = boolText value ++ t) :
    parseValue content (fuel + 1) depth o = .ok (.bool value, o + (boolText value).length) := by
  have hprefix : boolText value <+: content.drop o := h ▸ List.prefix_append _ _
  rw [parseValue, literal_eq (by decide) (by decide), literal_eq (by decide) (by decide),
    literal_eq (by decide) (by decide)]
  simp only [Outcome.ok_bind, decide_eq_true_eq]
  cases value with
  | false =>
      have hnull : ¬nullText <+: content.drop o :=
        not_prefix_of_drop (c := 102) (List.cons_append ▸ h) (by decide)
      rw [if_neg hnull, if_pos hprefix]
      rfl
  | true =>
      have hnull : ¬nullText <+: content.drop o :=
        not_prefix_of_drop (c := 116) (List.cons_append ▸ h) (by decide)
      have hfalse : ¬boolText false <+: content.drop o :=
        not_prefix_of_drop (c := 116) (List.cons_append ▸ h) (by decide)
      rw [if_neg hnull, if_neg hfalse, if_pos hprefix]
      rfl

theorem parseValue_string {v : List UInt8} {o' : Nat} (h : content.drop o = 34 :: s)
    (hstring : parseString content o = .ok (v, o')) :
    parseValue content (fuel + 1) depth o = .ok (.string v, o') := by
  rw [parseValue_of_drop h (by decide) (by decide) (by decide), if_pos rfl, hstring]
  rfl

theorem parseValue_number {item : CJson} {o' : Nat} (h : content.drop o = c :: s)
    (hc : c = 45 ∨ isdigit c = true) (hnumber : parseNumber content o = .ok (item, o')) :
    parseValue content (fuel + 1) depth o = .ok (item, o') := by
  have hne {a : UInt8} (ha : a ≠ 45) (hdigit : isdigit a = false) : c ≠ a := by
    rintro rfl
    exact hc.elim ha (by simp [hdigit])
  rw [parseValue_of_drop h (hne (by decide) (by decide)) (hne (by decide) (by decide))
    (hne (by decide) (by decide)), if_neg (hne (by decide) (by decide)), if_pos hc, hnumber]

theorem parseValue_array {child : List CJson} {o' : Nat} (h : content.drop o = 91 :: s)
    (harray : parseArray content fuel depth o = .ok (child, o')) :
    parseValue content (fuel + 1) depth o = .ok (.array child, o') := by
  rw [parseValue_of_drop h (by decide) (by decide) (by decide), if_neg (by decide),
    if_neg (by decide), if_pos rfl, harray]
  rfl

theorem parseValue_object {child : List (List UInt8 × CJson)} {o' : Nat}
    (h : content.drop o = 123 :: s) (hobject : parseObject content fuel depth o = .ok (child, o')) :
    parseValue content (fuel + 1) depth o = .ok (.object child, o') := by
  rw [parseValue_of_drop h (by decide) (by decide) (by decide), if_neg (by decide),
    if_neg (by decide), if_neg (by decide), if_pos rfl, hobject]
  rfl

end Dispatch

section Completeness

variable {content w s t : List UInt8} {fuel depth o n : Nat} {close : UInt8}

theorem isSpace_number {c : UInt8} (hc : c = 45 ∨ isdigit c = true) :
    isSpace c = false ∧ c ≠ 93 ∧ c ≠ 0xEF := by
  rcases hc with rfl | hdigit
  · decide
  · rw [isdigit, Bool.and_eq_true, decide_eq_true_eq, decide_eq_true_eq] at hdigit
    refine ⟨?_, ?_, ?_⟩
    · rw [isSpace, decide_eq_false_iff_not]
      omega
    · rintro rfl
      exact absurd hdigit.2 (by decide)
    · rintro rfl
      exact absurd hdigit.2 (by decide)

/-- The text starts with neither space, a closing bracket nor a byte order mark. -/
def Visible (s : List UInt8) : Prop :=
  ∃ c s', s = c :: s' ∧ isSpace c = false ∧ c ≠ 93 ∧ c ≠ 0xEF

theorem Derives.head {item : CJson} (h : Derives n s (.value item) t) : Visible s := by
  cases h with
  | null => exact ⟨_, _, rfl, by decide, by decide, by decide⟩
  | bool value => cases value <;> exact ⟨_, _, rfl, by decide, by decide, by decide⟩
  | string literal =>
      obtain ⟨raw, marks, hs, -, -⟩ := literal
      exact ⟨_, _, hs, by decide, by decide, by decide⟩
  | number number =>
      obtain ⟨lexeme, rest, x, -, -, -, -, c, hc, hfirst⟩ := number
      obtain ⟨s', hs⟩ := List.head?_eq_some_iff.mp hc
      exact ⟨c, s', hs, isSpace_number hfirst⟩
  | emptyArray space => exact ⟨_, _, rfl, by decide, by decide, by decide⟩
  | array elements => exact ⟨_, _, rfl, by decide, by decide, by decide⟩
  | emptyObject space => exact ⟨_, _, rfl, by decide, by decide, by decide⟩
  | object members => exact ⟨_, _, rfl, by decide, by decide, by decide⟩

theorem Derives.starts_elements {child : List CJson} (h : Derives n s (.elements child) t) :
    Starts s 93 := by
  cases h with
  | lastElement before value after =>
      obtain ⟨c, s', rfl, hc, hne, -⟩ := value.head
      exact ⟨_, c, s', before, rfl, hc, hne⟩
  | element before value after rest =>
      obtain ⟨c, s', rfl, hc, hne, -⟩ := value.head
      exact ⟨_, c, s', before, rfl, hc, hne⟩

theorem Literal.head {v : List UInt8} (h : Literal s v t) : ∃ s', s = 34 :: s' :=
  let ⟨_, _, hs, _, _⟩ := h
  ⟨_, hs⟩

theorem Derives.starts_members {child : List (List UInt8 × CJson)}
    (h : Derives n s (.members child) t) : Starts s 125 := by
  cases h with
  | lastMember before name space₁ space₂ value after =>
      obtain ⟨s', rfl⟩ := name.head
      exact ⟨_, 34, s', before, rfl, by decide, by decide⟩
  | member before name space₁ space₂ value after rest =>
      obtain ⟨s', rfl⟩ := name.head
      exact ⟨_, 34, s', before, rfl, by decide, by decide⟩

/-- The functions read the part at an offset, with enough fuel. -/
def Parses (content : List UInt8) (n : Nat) (s : List UInt8) (t : List UInt8) : Part → Prop
  | .value item => ∀ fuel depth o, n + depth = nestingLimit → content.drop o = s →
      o ≤ content.length → 3 * s.length + 3 ≤ fuel →
      ∃ o' ≤ content.length, parseValue content fuel depth o = .ok (item, o') ∧ content.drop o' = t
  | .elements child => ∀ fuel depth o, n + depth = nestingLimit → content.drop (o + 1) = s →
      3 * s.length + 4 ≤ fuel → t.head? = some 93 →
      ∃ o' ≤ content.length, parseElements content fuel depth o = .ok (child, o') ∧
        content.drop o' = t
  | .members child => ∀ fuel depth o, n + depth = nestingLimit → content.drop (o + 1) = s →
      3 * s.length + 4 ≤ fuel → t.head? = some 125 →
      ∃ o' ≤ content.length, parseMembers content fuel depth o = .ok (child, o') ∧
        content.drop o' = t

theorem parseContainer_empty {α : Type} (loop : Nat → Outcome (List α × Nat)) (hw : Spaces w)
    (hclose : isSpace close = false) (hdrop : content.drop o = w ++ close :: t) :
    ∃ o' ≤ content.length, parseContainer content close loop o = .ok ([], o') ∧
      content.drop o' = t := by
  have hskip := drop_skipWhitespace hw hclose hdrop
  refine ⟨skipWhitespace content o + 1, lt_length_of_drop hskip, ?_, drop_succ hskip⟩
  rw [parseContainer]
  dsimp only
  rw [nextIs_of_drop hskip, if_pos (decide_eq_true rfl)]

theorem parseContainer_loop {α : Type} {loop : Nat → Outcome (List α × Nat)} {child : List α}
    {p : Nat} (hs : Starts s close) (hdrop : content.drop o = s)
    (hloop : loop (skipWhitespace content o - 1) = .ok (child, p))
    (hclose : content.drop p = close :: t) :
    ∃ o' ≤ content.length, parseContainer content close loop o = .ok (child, o') ∧
      content.drop o' = t := by
  obtain ⟨w, c, s', hw, rfl, hc, hne⟩ := hs
  have hskip := drop_skipWhitespace hw hc hdrop
  refine ⟨p + 1, lt_length_of_drop hclose, ?_, drop_succ hclose⟩
  rw [parseContainer]
  dsimp only
  rw [nextIs_of_drop hskip, if_neg (by simpa using hne),
    if_neg (not_le.mpr (lt_length_of_drop hskip)), hloop, Outcome.ok_bind]
  dsimp only
  rw [nextIs_of_drop hclose, if_pos (decide_eq_true rfl)]

/-- The loop of a container may start in front of the space before the first part. -/
theorem skipWhitespace_back (hs : Starts s close) (hdrop : content.drop (o + 1) = s) :
    skipWhitespace content (skipWhitespace content (o + 1) - 1 + 1) =
      skipWhitespace content (o + 1) := by
  obtain ⟨w, c, s', hw, rfl, hc, -⟩ := hs
  have hskip := skipWhitespace_of_drop hw hc hdrop
  have hback : skipWhitespace content (o + 1) - 1 + 1 = skipWhitespace content (o + 1) := by
    rw [hskip]
    omega
  rw [hback]
  exact skipWhitespace_self hc (drop_skipWhitespace hw hc hdrop)

theorem parses_array {child : List CJson} (hs : Starts s 93)
    (ih : Parses content n s (93 :: t) (.elements child)) :
    Parses content (n + 1) (91 :: s) t (.value (.array child)) := by
  intro fuel depth o hn hdrop ho hfuel
  rw [List.length_cons] at hfuel
  obtain ⟨fuel, rfl⟩ : ∃ k, fuel = k + 3 := ⟨fuel - 3, by omega⟩
  obtain ⟨p, hp, hloop, hclose⟩ := ih (fuel + 1) (depth + 1) o (by omega)
    (drop_succ hdrop) (by omega) rfl
  have hback : parseElements content (fuel + 1) (depth + 1)
      (skipWhitespace content (o + 1) - 1) = .ok (child, p) := by
    rw [← hloop, parseElements, parseElements, skipWhitespace_back hs (drop_succ hdrop)]
  obtain ⟨o', ho', hbody, ht⟩ := parseContainer_loop hs (drop_succ hdrop) hback hclose
  refine ⟨o', ho', parseValue_array hdrop ?_, ht⟩
  rw [parseArray, if_neg (by omega), read_of_drop hdrop, Outcome.ok_bind,
    if_neg (not_not.mpr rfl), hbody]

theorem parses_emptyArray (hw : Spaces w) :
    Parses content (n + 1) (91 :: (w ++ 93 :: t)) t (.value (.array [])) := by
  intro fuel depth o hn hdrop ho hfuel
  obtain ⟨fuel, rfl⟩ : ∃ k, fuel = k + 2 := ⟨fuel - 2, by omega⟩
  obtain ⟨o', ho', hbody, ht⟩ := parseContainer_empty
    (parseElements content fuel (depth + 1)) hw (by decide) (drop_succ hdrop)
  refine ⟨o', ho', parseValue_array hdrop ?_, ht⟩
  rw [parseArray, if_neg (by omega), read_of_drop hdrop, Outcome.ok_bind,
    if_neg (not_not.mpr rfl), hbody]

theorem parses_object {child : List (List UInt8 × CJson)} (hs : Starts s 125)
    (ih : Parses content n s (125 :: t) (.members child)) :
    Parses content (n + 1) (123 :: s) t (.value (.object child)) := by
  intro fuel depth o hn hdrop ho hfuel
  rw [List.length_cons] at hfuel
  obtain ⟨fuel, rfl⟩ : ∃ k, fuel = k + 3 := ⟨fuel - 3, by omega⟩
  obtain ⟨p, hp, hloop, hclose⟩ := ih (fuel + 1) (depth + 1) o (by omega)
    (drop_succ hdrop) (by omega) rfl
  have hback : parseMembers content (fuel + 1) (depth + 1)
      (skipWhitespace content (o + 1) - 1) = .ok (child, p) := by
    have hskip := skipWhitespace_back hs (drop_succ hdrop)
    obtain ⟨w, c, s', hw, rfl, hc, -⟩ := hs
    have hstart := lt_length_of_drop (drop_skipWhitespace hw hc (drop_succ hdrop))
    have hlen := length_of_drop (drop_append (drop_succ hdrop))
    rw [← hloop, parseMembers, parseMembers, hskip, if_neg (by omega), if_neg (by omega)]
  obtain ⟨o', ho', hbody, ht⟩ := parseContainer_loop hs (drop_succ hdrop) hback hclose
  refine ⟨o', ho', parseValue_object hdrop ?_, ht⟩
  rw [parseObject, if_neg (by omega), nextIs_of_drop hdrop, hbody]
  rfl

theorem parses_emptyObject (hw : Spaces w) :
    Parses content (n + 1) (123 :: (w ++ 125 :: t)) t (.value (.object [])) := by
  intro fuel depth o hn hdrop ho hfuel
  obtain ⟨fuel, rfl⟩ : ∃ k, fuel = k + 2 := ⟨fuel - 2, by omega⟩
  obtain ⟨o', ho', hbody, ht⟩ := parseContainer_empty
    (parseMembers content fuel (depth + 1)) hw (by decide) (drop_succ hdrop)
  refine ⟨o', ho', parseValue_object hdrop ?_, ht⟩
  rw [parseObject, if_neg (by omega), nextIs_of_drop hdrop, hbody]
  rfl

/-- One value of a container, with the space around it. -/
theorem parses_space (fuel : Nat) {item : CJson} {w' : List UInt8} {c : UInt8} (hw : Spaces w)
    (hs : Visible s) (hw' : Spaces w')
    (hc : isSpace c = false) (ih : Parses content n s (w' ++ c :: t) (.value item))
    (hn : n + depth = nestingLimit) (hdrop : content.drop o = w ++ s)
    (hfuel : 3 * s.length + 3 ≤ fuel) :
    ∃ p ≤ content.length, parseValue content fuel depth (skipWhitespace content o) =
      .ok (item, p) ∧ content.drop (skipWhitespace content p) = c :: t := by
  obtain ⟨b, s, rfl, hb, -⟩ := hs
  have hskip := drop_skipWhitespace hw hb hdrop
  obtain ⟨p, hp, hvalue, hrest⟩ := ih _ _ _ hn hskip (lt_length_of_drop hskip).le hfuel
  exact ⟨p, hp, hvalue, drop_skipWhitespace hw' hc hrest⟩

theorem parseString_of_literal {v : List UInt8} (h : Literal s v t) (hdrop : content.drop o = s) :
    ∃ o' ≤ content.length, parseString content o = .ok (v, o') ∧ content.drop o' = t := by
  obtain ⟨raw, marks, rfl, hclosed, hv⟩ := h
  have hquote := drop_append (drop_succ hdrop)
  have hstop : o + 1 + raw.length + 1 = o + raw.length + 2 := by omega
  exact ⟨_, lt_length_of_drop hquote,
    ((parseString_closed hclosed hdrop).2 v _).mpr ⟨hv, hstop⟩, drop_succ hquote⟩

/-- The name of a member, up to the colon. -/
theorem parses_name {v w₁ s' : List UInt8} (hw : Spaces w)
    (hname : Literal s v (w₁ ++ 58 :: s')) (hw₁ : Spaces w₁) (hdrop : content.drop o = w ++ s) :
    ∃ p ≤ content.length, parseString content (skipWhitespace content o) = .ok (v, p) ∧
      content.drop (skipWhitespace content p) = 58 :: s' := by
  obtain ⟨s'', rfl⟩ := hname.head
  obtain ⟨p, hp, hstring, hrest⟩ := parseString_of_literal hname
    (drop_skipWhitespace hw (by decide) hdrop)
  exact ⟨p, hp, hstring, drop_skipWhitespace hw₁ (by decide) hrest⟩

theorem parses_lastElement {item : CJson} {w' : List UInt8} (hw : Spaces w)
    (hs : Visible s) (hw' : Spaces w')
    (ih : Parses content n s (w' ++ t) (.value item)) :
    Parses content n (w ++ s) t (.elements [item]) := by
  intro fuel depth o hn hdrop hfuel hclose
  obtain ⟨t, rfl⟩ := List.head?_eq_some_iff.mp hclose
  rw [List.length_append] at hfuel
  obtain ⟨fuel, rfl⟩ : ∃ k, fuel = k + 1 := ⟨fuel - 1, by omega⟩
  obtain ⟨p, hp, hvalue, hskip⟩ := parses_space fuel hw hs hw' (by decide) ih hn hdrop
    (by omega)
  refine ⟨_, (lt_length_of_drop hskip).le, ?_, hskip⟩
  rw [parseElements, hvalue, Outcome.ok_bind]
  dsimp only
  rw [nextIs_of_drop hskip]
  rfl

theorem parses_element {item : CJson} {next : List CJson} {w' s' : List UInt8} (hw : Spaces w)
    (hs : Visible s) (hw' : Spaces w')
    (hlt : s'.length < s.length) (ih : Parses content n s (w' ++ 44 :: s') (.value item))
    (ihrest : Parses content n s' t (.elements next)) :
    Parses content n (w ++ s) t (.elements (item :: next)) := by
  intro fuel depth o hn hdrop hfuel hclose
  rw [List.length_append] at hfuel
  obtain ⟨fuel, rfl⟩ : ∃ k, fuel = k + 1 := ⟨fuel - 1, by omega⟩
  obtain ⟨p, hp, hvalue, hskip⟩ := parses_space fuel hw hs hw' (by decide) ih hn hdrop
    (by omega)
  obtain ⟨o', ho', hrest, ht⟩ := ihrest fuel _ _ hn (drop_succ hskip) (by omega) hclose
  refine ⟨o', ho', ?_, ht⟩
  rw [parseElements, hvalue, Outcome.ok_bind]
  dsimp only
  rw [nextIs_of_drop hskip, if_pos (decide_eq_true rfl), hrest]
  rfl

theorem parses_lastMember {v w₁ w₂ s' w' : List UInt8} {item : CJson} (hw : Spaces w)
    (hname : Literal s v (w₁ ++ 58 :: (w₂ ++ s'))) (hw₁ : Spaces w₁) (hw₂ : Spaces w₂)
    (hs : Visible s') (hw' : Spaces w')
    (ih : Parses content n s' (w' ++ t) (.value item)) :
    Parses content n (w ++ s) t (.members [(v, item)]) := by
  intro fuel depth o hn hdrop hfuel hclose
  obtain ⟨t, rfl⟩ := List.head?_eq_some_iff.mp hclose
  have hlt := hname.length_lt
  simp only [List.length_append, List.length_cons] at hfuel hlt
  obtain ⟨fuel, rfl⟩ : ∃ k, fuel = k + 1 := ⟨fuel - 1, by omega⟩
  have hlen := congrArg List.length hdrop
  rw [List.length_drop, List.length_append] at hlen
  obtain ⟨p, hp, hstring, hcolon⟩ := parses_name hw hname hw₁ hdrop
  obtain ⟨q, hq, hvalue, hskip⟩ := parses_space fuel hw₂ hs hw' (by decide) ih hn
    (drop_succ hcolon) (by omega)
  refine ⟨_, (lt_length_of_drop hskip).le, ?_, hskip⟩
  rw [parseMembers, if_neg (by omega), hstring, Outcome.ok_bind]
  dsimp only
  rw [nextIs_of_drop hcolon, hvalue]
  simp only [decide_true, Bool.not_true, Bool.false_eq_true, if_false, Outcome.ok_bind]
  rw [nextIs_of_drop hskip]
  rfl

theorem parses_member {v w₁ w₂ s' w' s'' : List UInt8} {item : CJson}
    {next : List (List UInt8 × CJson)} (hw : Spaces w)
    (hname : Literal s v (w₁ ++ 58 :: (w₂ ++ s'))) (hw₁ : Spaces w₁) (hw₂ : Spaces w₂)
    (hs : Visible s') (hw' : Spaces w')
    (hlt' : s''.length < s'.length) (ih : Parses content n s' (w' ++ 44 :: s'') (.value item))
    (ihrest : Parses content n s'' t (.members next)) :
    Parses content n (w ++ s) t (.members ((v, item) :: next)) := by
  intro fuel depth o hn hdrop hfuel hclose
  have hlt := hname.length_lt
  simp only [List.length_append, List.length_cons] at hfuel hlt
  obtain ⟨fuel, rfl⟩ : ∃ k, fuel = k + 1 := ⟨fuel - 1, by omega⟩
  have hlen := congrArg List.length hdrop
  rw [List.length_drop, List.length_append] at hlen
  obtain ⟨p, hp, hstring, hcolon⟩ := parses_name hw hname hw₁ hdrop
  obtain ⟨q, hq, hvalue, hskip⟩ := parses_space fuel hw₂ hs hw' (by decide) ih hn
    (drop_succ hcolon) (by omega)
  obtain ⟨o', ho', hrest, ht⟩ := ihrest fuel _ _ hn (drop_succ hskip) (by omega) hclose
  refine ⟨o', ho', ?_, ht⟩
  rw [parseMembers, if_neg (by omega), hstring, Outcome.ok_bind]
  dsimp only
  rw [nextIs_of_drop hcolon, hvalue]
  simp only [decide_true, Bool.not_true, Bool.false_eq_true, if_false, Outcome.ok_bind]
  rw [nextIs_of_drop hskip, if_pos (decide_eq_true rfl), hrest]
  rfl

/-- The parser reads every derivation. -/
theorem complete (content : List UInt8) {part : Part} (h : Derives n s part t) :
    Parses content n s t part := by
  have hfuel {k m : Nat} (hk : 3 * m + 3 ≤ k) : ∃ j, k = j + 1 := ⟨k - 1, by omega⟩
  induction h with
  | null =>
      intro fuel depth o hn hdrop ho hle
      obtain ⟨fuel, rfl⟩ := hfuel hle
      exact ⟨_, add_length_le hdrop ho, parseValue_null hdrop, drop_append hdrop⟩
  | bool value =>
      intro fuel depth o hn hdrop ho hle
      obtain ⟨fuel, rfl⟩ := hfuel hle
      exact ⟨_, add_length_le hdrop ho, parseValue_bool value hdrop, drop_append hdrop⟩
  | string literal =>
      intro fuel depth o hn hdrop ho hle
      obtain ⟨fuel, rfl⟩ := hfuel hle
      obtain ⟨o', ho', hstring, ht⟩ := parseString_of_literal literal hdrop
      obtain ⟨s', rfl⟩ := literal.head
      exact ⟨o', ho', parseValue_string hdrop hstring, ht⟩
  | number number =>
      intro fuel depth o hn hdrop ho hle
      obtain ⟨fuel, rfl⟩ := hfuel hle
      obtain ⟨o', ho', hnumber, ht⟩ := parseNumber_complete (hdrop ▸ number) ho
      obtain ⟨-, -, -, -, -, -, -, c, hc, hfirst⟩ := number
      obtain ⟨s', rfl⟩ := List.head?_eq_some_iff.mp hc
      exact ⟨o', ho', parseValue_number hdrop hfirst hnumber, ht⟩
  | emptyArray space => exact parses_emptyArray space
  | array elements ih => exact parses_array elements.starts_elements ih
  | emptyObject space => exact parses_emptyObject space
  | object members ih => exact parses_object members.starts_members ih
  | lastElement before value after ih => exact parses_lastElement before value.head after ih
  | element before value after rest ihvalue ihrest =>
      have hlt := value.length_lt
      rw [List.length_append, List.length_cons] at hlt
      exact parses_element before value.head after (by omega) ihvalue ihrest
  | lastMember before name space₁ space₂ value after ih =>
      exact parses_lastMember before name space₁ space₂ value.head after ih
  | member before name space₁ space₂ value after rest ihvalue ihrest =>
      have hlt := value.length_lt
      rw [List.length_append, List.length_cons] at hlt
      exact parses_member before name space₁ space₂ value.head after (by omega) ihvalue ihrest

end Completeness

section Documents

variable {value t : List UInt8} {item : CJson} {o : Nat}

/-- The byte order mark of UTF-8. -/
def byteOrderMark : List UInt8 := [0xEF, 0xBB, 0xBF]

/-- A value behind space and an optional byte order mark, and the text behind the value. -/
def Document (value : List UInt8) (item : CJson) (t : List UInt8) : Prop :=
  ∃ mark w s, (mark = [] ∨ mark = byteOrderMark ∧ 4 < value.length) ∧ Spaces w ∧
    value = mark ++ (w ++ s) ∧ Derives nestingLimit s (.value item) t

/-- What is behind the value is an end of the content. -/
theorem Document.exists_drop (h : Document value item t) :
    ∃ o ≤ value.length, value.drop o = t := by
  obtain ⟨mark, w, s, -, -, rfl, hderives⟩ := h
  obtain ⟨o, ho, -, ht⟩ := complete s hderives (3 * s.length + 3) 0 0 rfl List.drop_zero
    (Nat.zero_le _) le_rfl
  have hlen : (mark ++ w).length + o ≤ (mark ++ (w ++ s)).length := by
    simp only [List.length_append]
    omega
  refine ⟨(mark ++ w).length + o, hlen, ?_⟩
  rw [← List.append_assoc, ← List.drop_drop, List.drop_left, ht]

theorem skipUtf8Bom_eq : skipUtf8Bom value =
    .ok (if 4 < value.length ∧ byteOrderMark <+: value then byteOrderMark.length else 0) := by
  rw [skipUtf8Bom]
  by_cases hlen : value.length ≤ 4
  · rw [if_pos hlen, if_neg fun h => absurd h.1 (not_lt.mpr hlen)]
  · rw [if_neg hlen]
    obtain ⟨d, hd⟩ := Option.isSome_iff_exists.mp
      (strncmp_isSome (s := value) (t := byteOrderMark ++ [0]) (n := 3) (by omega) (by decide))
    have hzero : d = 0 ↔ byteOrderMark <+: value := by
      rw [← strncmp_eq_zero_iff (by decide) value [0], show byteOrderMark.length = 3 from rfl, hd,
        Option.some_inj]
    change (Outcome.ofAccess (strncmp value (byteOrderMark ++ [0]) 3)).bind _ = _
    rw [hd, Outcome.ofAccess, Outcome.ok_bind]
    simp only [hzero, not_le.mp hlen, true_and]
    rfl

theorem markLength_le (value : List UInt8) :
    (if 4 < value.length ∧ byteOrderMark <+: value then byteOrderMark.length else 0) ≤
      value.length := by
  split_ifs with hmark
  · exact hmark.2.length_le
  · exact Nat.zero_le _

/-- No part starts with a byte order mark. -/
theorem not_derives_mark {w s : List UInt8} {n : Nat} (hw : Spaces w)
    (h : Derives n s (.value item) t) : ¬byteOrderMark <+: w ++ s := by
  obtain ⟨c, s', rfl, -, -, hmark⟩ := h.head
  cases w with
  | nil => exact fun hprefix => hmark (List.cons_prefix_cons.mp hprefix).1.symm
  | cons b w =>
      intro hprefix
      obtain rfl : 0xEF = b := (List.cons_prefix_cons.mp hprefix).1
      exact absurd (hw _ List.mem_cons_self) (by decide)

/-- The text that `parse_value` is called on. -/
theorem Document.bodies (h : Document value item t) : ∃ w s, Spaces w ∧
    value.drop (if 4 < value.length ∧ byteOrderMark <+: value then byteOrderMark.length else 0) =
      w ++ s ∧ Derives nestingLimit s (.value item) t := by
  obtain ⟨mark, w, s, hmark, hw, rfl, hderives⟩ := h
  refine ⟨w, s, hw, ?_, hderives⟩
  rcases hmark with rfl | ⟨rfl, hlen⟩
  · rw [if_neg fun h => not_derives_mark hw hderives h.2]
    rfl
  · rw [if_pos ⟨hlen, List.prefix_append _ _⟩, List.drop_left]

/-- What a parse that does not ask for the terminator comes to. -/
theorem parseWithLengthOpts_eq_ok : parseWithLengthOpts value false = .ok (item, o) ↔
    o ≤ value.length ∧ Document value item (value.drop o) := by
  rw [parseWithLengthOpts, skipUtf8Bom_eq, Outcome.ok_bind]
  have hle := markLength_le value
  set start := if 4 < value.length ∧ byteOrderMark <+: value then byteOrderMark.length else 0
    with hstart
  constructor
  · intro h
    by_cases hempty : value.length = 0
    · rw [if_pos hempty] at h
      cases h
    rw [if_neg hempty] at h
    obtain ⟨⟨item', o'⟩, hvalue, h⟩ := Outcome.bind_eq_ok.mp h
    cases h
    obtain ⟨-, hskip, -, w, hw, hdrop⟩ := skipWhitespace_spec hle
    obtain ⟨ho, hderives⟩ := (sound value _).value hskip hvalue
    refine ⟨ho, value.take start, w, _, ?_, hw, ?_, hderives⟩
    · rw [hstart]
      split_ifs with hmark
      · exact .inr ⟨List.prefix_iff_eq_take.mp hmark.2 ▸ rfl, hmark.1⟩
      · exact .inl rfl
    · rw [← hdrop, List.take_append_drop]
  · rintro ⟨ho, hdoc⟩
    obtain ⟨w, s, hw, hdrop, hderives⟩ := hdoc.bodies
    obtain ⟨c, s', rfl, hc, -, -⟩ := hderives.head
    have hskip := drop_skipWhitespace hw hc hdrop
    have hlen := length_of_drop hskip
    obtain ⟨o', ho', hvalue, ht⟩ := complete value hderives (3 * value.length + 3) 0 _ rfl hskip
      (lt_length_of_drop hskip).le (by rw [List.length_cons]; omega)
    have heq : o' = o := by
      have := congrArg List.length ht
      rw [List.length_drop, List.length_drop] at this
      omega
    rw [if_neg (by omega), hvalue, heq]
    rfl

/-- `buffer_skip_whitespace` stays on space at the last byte only. -/
theorem drop_skipWhitespace_last {c : UInt8} (h : value.drop (skipWhitespace value o) = c :: t)
    (hc : isSpace c = true) : t = [] := by
  have hlen := length_of_drop h
  by_contra hne
  have hpos := List.length_pos_iff.mpr hne
  have hsplit := List.takeWhile_append_dropWhile (p := isSpace) (l := value.drop o)
  rw [skipWhitespace] at h hlen
  dsimp only at h hlen
  split_ifs at h hlen with hend hlast
  · omega
  · omega
  · have hdrop : (value.drop o).dropWhile isSpace = c :: t := by
      rw [← h, drop_append hsplit.symm]
    have hhead := List.head_dropWhile_not isSpace (hdrop ▸ List.cons_ne_nil c t)
    simp only [hdrop, List.head_cons, hc] at hhead
    cases hhead

/-- The terminator is found where only space and the last zero byte are left. -/
theorem nextIs_skipWhitespace_zero (ho : o ≤ value.length) :
    nextIs value (skipWhitespace value o) 0 = true ↔
      ∃ w, Spaces w ∧ value.drop o = w ++ [0] := by
  constructor
  · intro h
    obtain ⟨w, hw, hdrop, hlt⟩ := exists_space ho h
    obtain ⟨t, ht⟩ := nextIs_eq_true.mp h
    obtain rfl := drop_skipWhitespace_last ht (by decide)
    rw [drop_succ ht] at hdrop
    exact ⟨w, hw, hdrop⟩
  · rintro ⟨w, hw, hdrop⟩
    have hlen := congrArg List.length hdrop
    simp only [List.length_drop, List.length_append, List.length_singleton] at hlen
    have hspaces : (value.drop o).takeWhile isSpace = value.drop o := by
      refine List.takeWhile_eq_self_iff.mpr fun c hc => ?_
      rw [hdrop] at hc
      rcases List.mem_append.mp hc with hc | hc
      · exact hw c hc
      · rw [List.mem_singleton.mp hc]
        decide
    have hskip : skipWhitespace value o = o + w.length := by
      rw [skipWhitespace, hspaces, if_neg (by omega), List.length_drop, if_pos (by omega)]
      omega
    rw [hskip, nextIs_of_drop (drop_append hdrop)]
    rfl

/-- The test for the terminator comes behind the parse. -/
theorem parseWithLengthOpts_eq (value : List UInt8) (requireNullTerminated : Bool) :
    parseWithLengthOpts value requireNullTerminated =
      (parseWithLengthOpts value false).bind fun (item, offset) =>
        if requireNullTerminated then
          if nextIs value (skipWhitespace value offset) 0 then
            .ok (item, skipWhitespace value offset)
          else .fail
        else .ok (item, offset) := by
  rw [parseWithLengthOpts, parseWithLengthOpts, skipUtf8Bom_eq]
  by_cases hempty : value.length = 0
  · rw [if_pos hempty, if_pos hempty]
    rfl
  · rw [if_neg hempty, if_neg hempty, Outcome.ok_bind, Outcome.ok_bind]
    cases parseValue value (3 * value.length + 3) 0 (skipWhitespace value _) with
    | ok r => rfl
    | fail => rfl
    | fault => rfl

/-- A text is accepted where it has a document, with the terminator behind it if asked for. -/
theorem parseWithLengthOpts_accepts (value : List UInt8) (requireNullTerminated : Bool)
    (item : CJson) :
    (∃ stop, parseWithLengthOpts value requireNullTerminated = .ok (item, stop)) ↔
      ∃ t, Document value item t ∧
        (requireNullTerminated = true → ∃ w, Spaces w ∧ t = w ++ [0]) := by
  rw [parseWithLengthOpts_eq]
  constructor
  · rintro ⟨stop, h⟩
    obtain ⟨⟨item', o⟩, hparse, h⟩ := Outcome.bind_eq_ok.mp h
    dsimp only at h
    split_ifs at h with hrequire hzero
    · cases h
      obtain ⟨ho, hdoc⟩ := parseWithLengthOpts_eq_ok.mp hparse
      exact ⟨_, hdoc, fun _ => (nextIs_skipWhitespace_zero ho).mp hzero⟩
    · cases h
      exact ⟨_, (parseWithLengthOpts_eq_ok.mp hparse).2, fun h => absurd h hrequire⟩
  · rintro ⟨t, hdoc, hzero⟩
    obtain ⟨o, ho, rfl⟩ := hdoc.exists_drop
    rw [parseWithLengthOpts_eq_ok.mpr ⟨ho, hdoc⟩, Outcome.ok_bind]
    dsimp only
    by_cases hrequire : requireNullTerminated = true
    · have hnext := (nextIs_skipWhitespace_zero ho).mpr (hzero hrequire)
      exact ⟨_, by rw [if_pos hrequire, if_pos hnext]⟩
    · exact ⟨_, if_neg hrequire⟩

/-- No content is read or written out of bounds, and every parse ends. -/
theorem safe_parseWithLengthOpts (value : List UInt8) (requireNullTerminated : Bool) :
    (parseWithLengthOpts value requireNullTerminated).Safe := by
  rw [parseWithLengthOpts, skipUtf8Bom_eq, Outcome.ok_bind]
  by_cases hempty : value.length = 0
  · rw [if_pos hempty]
    exact Outcome.safe_fail
  rw [if_neg hempty]
  have hstart := (skipWhitespace_spec (markLength_le value)).2.1
  refine ((steady value _).value hstart (by omega)).bind fun (item, o) _ => ?_
  dsimp only
  split_ifs
  · exact Outcome.safe_ok _
  · exact Outcome.safe_fail
  · exact Outcome.safe_ok _

end Documents

end CJson
