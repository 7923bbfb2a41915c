import SgMuni.Json.Literals
import SgMuni.Json.Parser

/-!
# The grammar of the JSON texts

`Derives` gives the texts that the functions of the parser read, with the items they build.
`parse_value` finds exactly the derivations, and never leaves the content.

## Implementation notes

Values, the elements of an array and the members of an object are the parts of one relation,
so that its induction needs no mutual definition. The index `n` counts the levels of
containers that the nesting limit still allows.
-/

namespace CJson

open C

def Spaces (w : List UInt8) : Prop := ∀ c ∈ w, isSpace c = true

/-- The text `s` begins with a number, as `strtod` reads it from the bytes that were copied. -/
def Number (s : List UInt8) (item : CJson) (t : List UInt8) : Prop :=
  ∃ lexeme rest x, numberText s = lexeme ++ rest ∧ strtod (numberText s) = some (x, rest) ∧
    s = lexeme ++ t ∧ item = ofDouble (toDouble x) ∧ ∃ c ∈ s.head?, c = 45 ∨ isdigit c = true

/-- What a function of the parser reads. -/
inductive Part
  | value (item : CJson)
  | elements (child : List CJson)
  | members (child : List (List UInt8 × CJson))

/-- The text `s` begins with a part, and goes on with `t`. -/
inductive Derives : Nat → List UInt8 → Part → List UInt8 → Prop
  | null {n : Nat} {t : List UInt8} : Derives n (nullText ++ t) (.value .null) t
  | bool {n : Nat} {t : List UInt8} (value : Bool) :
      Derives n (boolText value ++ t) (.value (.bool value)) t
  | string {n : Nat} {s v t : List UInt8} (literal : Literal s v t) :
      Derives n s (.value (.string v)) t
  | number {n : Nat} {s t : List UInt8} {item : CJson} (number : Number s item t) :
      Derives n s (.value item) t
  | emptyArray {n : Nat} {w t : List UInt8} (space : Spaces w) :
      Derives (n + 1) (91 :: (w ++ 93 :: t)) (.value (.array [])) t
  | array {n : Nat} {s t : List UInt8} {child : List CJson}
      (elements : Derives n s (.elements child) (93 :: t)) :
      Derives (n + 1) (91 :: s) (.value (.array child)) t
  | emptyObject {n : Nat} {w t : List UInt8} (space : Spaces w) :
      Derives (n + 1) (123 :: (w ++ 125 :: t)) (.value (.object [])) t
  | object {n : Nat} {s t : List UInt8} {child : List (List UInt8 × CJson)}
      (members : Derives n s (.members child) (125 :: t)) :
      Derives (n + 1) (123 :: s) (.value (.object child)) t
  | lastElement {n : Nat} {w s w' t : List UInt8} {item : CJson} (before : Spaces w)
      (value : Derives n s (.value item) (w' ++ t)) (after : Spaces w') :
      Derives n (w ++ s) (.elements [item]) t
  | element {n : Nat} {w s w' s' t : List UInt8} {item : CJson} {next : List CJson}
      (before : Spaces w) (value : Derives n s (.value item) (w' ++ 44 :: s')) (after : Spaces w')
      (rest : Derives n s' (.elements next) t) :
      Derives n (w ++ s) (.elements (item :: next)) t
  | lastMember {n : Nat} {w s v w₁ w₂ s' w' t : List UInt8} {item : CJson} (before : Spaces w)
      (name : Literal s v (w₁ ++ 58 :: (w₂ ++ s'))) (space₁ : Spaces w₁) (space₂ : Spaces w₂)
      (value : Derives n s' (.value item) (w' ++ t)) (after : Spaces w') :
      Derives n (w ++ s) (.members [(v, item)]) t
  | member {n : Nat} {w s v w₁ w₂ s' w' s'' t : List UInt8} {item : CJson}
      {next : List (List UInt8 × CJson)} (before : Spaces w)
      (name : Literal s v (w₁ ++ 58 :: (w₂ ++ s'))) (space₁ : Spaces w₁) (space₂ : Spaces w₂)
      (value : Derives n s' (.value item) (w' ++ 44 :: s'')) (after : Spaces w')
      (rest : Derives n s'' (.members next) t) :
      Derives n (w ++ s) (.members ((v, item) :: next)) t

section Space

variable {n : Nat} {w s t : List UInt8}

theorem spaces_nil : Spaces [] := fun _ h => absurd h List.not_mem_nil

theorem Spaces.append {w' : List UInt8} (h : Spaces w) (h' : Spaces w') : Spaces (w ++ w') :=
  fun c hc => (List.mem_append.mp hc).elim (h c) (h' c)

theorem Derives.space_elements {child : List CJson} (h : Derives n s (.elements child) t)
    (hw : Spaces w) : Derives n (w ++ s) (.elements child) t := by
  cases h with
  | lastElement before value after =>
      rw [← List.append_assoc]
      exact .lastElement (hw.append before) value after
  | element before value after rest =>
      rw [← List.append_assoc]
      exact .element (hw.append before) value after rest

theorem Derives.space_members {child : List (List UInt8 × CJson)}
    (h : Derives n s (.members child) t) (hw : Spaces w) :
    Derives n (w ++ s) (.members child) t := by
  cases h with
  | lastMember before name space₁ space₂ value after =>
      rw [← List.append_assoc]
      exact .lastMember (hw.append before) name space₁ space₂ value after
  | member before name space₁ space₂ value after rest =>
      rw [← List.append_assoc]
      exact .member (hw.append before) name space₁ space₂ value after rest

end Space

section Reading

variable {content s t w : List UInt8} {o : Nat} {c : UInt8}

theorem nextIs_eq_true : nextIs content o c = true ↔ ∃ t, content.drop o = c :: t := by
  rw [nextIs, beq_iff_eq, ← List.head?_drop, List.head?_eq_some_iff]

theorem nextIs_of_drop (h : content.drop o = c :: t) (d : UInt8) :
    nextIs content o d = decide (c = d) := by
  rw [nextIs, ← List.head?_drop, h, List.head?_cons, Option.some_beq_some, beq_eq_decide]

theorem lt_length_of_drop (h : content.drop o = c :: t) : o < content.length := by
  have := length_of_drop h
  omega

theorem skipWhitespace_of_drop (hw : Spaces w) (hc : isSpace c = false)
    (h : content.drop o = w ++ c :: t) : skipWhitespace content o = o + w.length := by
  have hlen := length_of_drop (drop_append h)
  have htake : (content.drop o).takeWhile isSpace = w := by
    rw [h, List.takeWhile_append_of_pos hw, List.takeWhile_cons_of_neg (by simp [hc]),
      List.append_nil]
  rw [skipWhitespace, if_neg (by omega)]
  simp only [htake]
  rw [if_neg (by omega)]

/-- Behind the space there is a byte that is none. -/
theorem drop_skipWhitespace (hw : Spaces w) (hc : isSpace c = false)
    (h : content.drop o = w ++ c :: t) : content.drop (skipWhitespace content o) = c :: t := by
  rw [skipWhitespace_of_drop hw hc h]
  exact drop_append h

/-- `buffer_skip_whitespace` passes over space, and stays in the content. -/
theorem skipWhitespace_spec (ho : o ≤ content.length) :
    o ≤ skipWhitespace content o ∧ skipWhitespace content o ≤ content.length ∧
      (o < content.length → skipWhitespace content o < content.length) ∧
      ∃ w, Spaces w ∧ content.drop o = w ++ content.drop (skipWhitespace content o) := by
  set space := (content.drop o).takeWhile isSpace with hspace
  have hprefix : space <+: content.drop o := List.takeWhile_prefix _
  have hlen := hprefix.length_le
  rw [List.length_drop] at hlen
  obtain ⟨k, hk, hskip, hlt⟩ : ∃ k ≤ space.length, skipWhitespace content o = o + k ∧
      (o < content.length → o + k < content.length) := by
    rw [skipWhitespace, ← hspace]
    by_cases hend : content.length ≤ o
    · exact ⟨0, Nat.zero_le _, if_pos hend, fun h => absurd hend (not_le.mpr h)⟩
    rw [if_neg hend]
    by_cases hlast : o + space.length = content.length
    · exact ⟨space.length - 1, by omega, by rw [if_pos hlast]; omega, fun _ => by omega⟩
    · exact ⟨space.length, le_rfl, by rw [if_neg hlast], fun _ => by omega⟩
  rw [hskip]
  refine ⟨by omega, by omega, hlt, (content.drop o).take k, fun c hc => ?_, ?_⟩
  · obtain ⟨t, ht⟩ := hprefix
    rw [← ht, List.take_append_of_le_length hk] at hc
    exact List.all_eq_true.mp List.all_takeWhile c (List.mem_of_mem_take hc)
  · rw [← List.drop_drop, List.take_append_drop]

theorem strncmp_isSome {s t : List UInt8} {n : Nat} (hs : n ≤ s.length) (ht : n ≤ t.length) :
    (strncmp s t n).isSome := by
  induction n generalizing s t with
  | zero => simp [strncmp]
  | succ n ih =>
      cases s with
      | nil => cases hs
      | cons a s =>
          cases t with
          | nil => cases ht
          | cons b t =>
              rw [strncmp]
              split_ifs
              · rfl
              · rfl
              · exact ih (Nat.le_of_succ_le_succ hs) (Nat.le_of_succ_le_succ ht)

theorem literal_eq {text : List UInt8} (hz : 0 ∉ text) (hne : text ≠ []) :
    literal content text o = .ok (decide (text <+: content.drop o)) := by
  have hpos := List.length_pos_iff.mpr hne
  rw [literal]
  by_cases hlen : content.length < o + text.length
  · rw [if_pos hlen, decide_eq_false]
    intro hprefix
    have := hprefix.length_le
    rw [List.length_drop] at this
    omega
  · rw [if_neg hlen]
    obtain ⟨d, hd⟩ := Option.isSome_iff_exists.mp
      (strncmp_isSome (s := content.drop o) (t := text ++ [0]) (n := text.length)
        (by rw [List.length_drop]; omega) (by simp))
    rw [hd, Outcome.ofAccess, Outcome.ok_bind]
    congr 1
    rw [beq_eq_decide]
    refine decide_eq_decide.mpr ?_
    rw [← strncmp_eq_zero_iff hz (content.drop o) [0], hd, Option.some_inj]

end Reading

section Numbers

variable {content s t : List UInt8} {o o' : Nat} {item : CJson}

theorem numberText_prefix (s : List UInt8) : numberText s <+: s :=
  (List.takeWhile_prefix _).trans (List.take_prefix _ _)

theorem safe_parseNumber : (parseNumber content o).Safe := by
  rw [parseNumber]
  cases strtod (numberText (content.drop o)) with
  | none => exact Outcome.safe_fail
  | some r => exact Outcome.safe_ok _

theorem parseNumber_sound (h : parseNumber content o = .ok (item, o')) (ho : o ≤ content.length)
    (hfirst : ∃ c ∈ (content.drop o).head?, c = 45 ∨ isdigit c = true) :
    o' ≤ content.length ∧ Number (content.drop o) item (content.drop o') := by
  rw [parseNumber] at h
  cases hread : strtod (numberText (content.drop o)) with
  | none =>
      rw [hread] at h
      cases h
  | some r =>
      obtain ⟨x, rest⟩ := r
      simp only [hread, Outcome.ok.injEq, Prod.mk.injEq] at h
      obtain ⟨rfl, rfl⟩ := h
      obtain ⟨lexeme, hlexeme⟩ := strtod_suffix hread
      obtain ⟨tail, htail⟩ := numberText_prefix (content.drop o)
      have hlen := congrArg List.length hlexeme
      rw [List.length_append] at hlen
      have hstop : (numberText (content.drop o)).length - rest.length = lexeme.length := by omega
      have hdrop : content.drop o = lexeme ++ (rest ++ tail) := by
        rw [← List.append_assoc, hlexeme, htail]
      have hcontent := congrArg List.length hdrop
      rw [List.length_drop, List.length_append] at hcontent
      rw [hstop]
      refine ⟨by omega, lexeme, rest, x, hlexeme.symm, hread, ?_, rfl, hfirst⟩
      rw [drop_append hdrop, hdrop]

theorem parseNumber_complete (h : Number (content.drop o) item t) (ho : o ≤ content.length) :
    ∃ o' ≤ content.length, parseNumber content o = .ok (item, o') ∧ content.drop o' = t := by
  obtain ⟨lexeme, rest, x, hlexeme, hread, hdrop, rfl, -⟩ := h
  have hcontent := congrArg List.length hdrop
  rw [List.length_drop, List.length_append] at hcontent
  refine ⟨o + lexeme.length, by omega, ?_, drop_append hdrop⟩
  rw [parseNumber]
  simp only [hread]
  rw [hlexeme, List.length_append, Nat.add_sub_cancel_right]

end Numbers

section Soundness

variable {content : List UInt8} {fuel depth o o' : Nat}

/-- Between two offsets of the content there is a part. -/
def Reads (content : List UInt8) (n o : Nat) (part : Part) (o' : Nat) : Prop :=
  o' ≤ content.length ∧ Derives n (content.drop o) part (content.drop o')

/-- What the functions read with some fuel are parts of the grammar. -/
structure Sound (content : List UInt8) (fuel : Nat) : Prop where
  value : ∀ {depth o item o'}, o ≤ content.length →
    parseValue content fuel depth o = .ok (item, o') →
      Reads content (nestingLimit - depth) o (.value item) o'
  array : ∀ {depth o child o'}, o ≤ content.length →
    parseArray content fuel depth o = .ok (child, o') →
      Reads content (nestingLimit - depth) o (.value (.array child)) o'
  elements : ∀ {depth o child o'}, o < content.length →
    parseElements content fuel depth o = .ok (child, o') →
      Reads content (nestingLimit - depth) (o + 1) (.elements child) o'
  object : ∀ {depth o child o'}, o ≤ content.length →
    parseObject content fuel depth o = .ok (child, o') →
      Reads content (nestingLimit - depth) o (.value (.object child)) o'
  members : ∀ {depth o child o'}, o < content.length →
    parseMembers content fuel depth o = .ok (child, o') →
      Reads content (nestingLimit - depth) (o + 1) (.members child) o'

theorem sound_value (ih : Sound content fuel) {item : CJson} (ho : o ≤ content.length)
    (h : parseValue content (fuel + 1) depth o = .ok (item, o')) :
    Reads content (nestingLimit - depth) o (.value item) o' := by
  have hliteral {text : List UInt8} (ht : text <+: content.drop o) :
      o + text.length ≤ content.length ∧
        content.drop o = text ++ content.drop (o + text.length) := by
    obtain ⟨t, ht⟩ := ht
    have hlen := congrArg List.length ht
    rw [List.length_append, List.length_drop] at hlen
    exact ⟨by omega, by rw [drop_append ht.symm, ht]⟩
  rw [parseValue, literal_eq (by decide) (by decide), literal_eq (by decide) (by decide),
    literal_eq (by decide) (by decide)] at h
  simp only [Outcome.ok_bind, decide_eq_true_eq] at h
  by_cases hnull : nullText <+: content.drop o
  · rw [if_pos hnull] at h
    cases h
    obtain ⟨hle, hdrop⟩ := hliteral hnull
    exact ⟨hle, by rw [hdrop]; exact .null⟩
  rw [if_neg hnull] at h
  by_cases hfalse : boolText false <+: content.drop o
  · rw [if_pos hfalse] at h
    cases h
    obtain ⟨hle, hdrop⟩ := hliteral hfalse
    exact ⟨hle, by rw [hdrop]; exact .bool false⟩
  rw [if_neg hfalse] at h
  by_cases htrue : boolText true <+: content.drop o
  · rw [if_pos htrue] at h
    cases h
    obtain ⟨hle, hdrop⟩ := hliteral htrue
    exact ⟨hle, by rw [hdrop]; exact .bool true⟩
  rw [if_neg htrue] at h
  by_cases hquote : nextIs content o 34 = true
  · rw [if_pos hquote] at h
    obtain ⟨⟨v, p⟩, hstring, h⟩ := Outcome.bind_eq_ok.mp h
    cases h
    obtain ⟨hle, hv⟩ := parseString_eq_ok.mp hstring
    exact ⟨hle, .string hv⟩
  rw [if_neg hquote] at h
  by_cases hdigit : (nextIs content o 45 || content[o]?.any isdigit) = true
  · rw [if_pos hdigit] at h
    have hfirst : ∃ c ∈ (content.drop o).head?, c = 45 ∨ isdigit c = true := by
      rw [List.head?_drop]
      rcases Bool.or_eq_true_iff.mp hdigit with hminus | hany
      · exact ⟨45, by simpa [nextIs] using hminus, .inl rfl⟩
      · obtain ⟨c, hc, hany⟩ := (Option.any_eq_true _ _).mp hany
        exact ⟨c, hc, .inr hany⟩
    obtain ⟨hle, hnumber⟩ := parseNumber_sound h ho hfirst
    exact ⟨hle, .number hnumber⟩
  rw [if_neg hdigit] at h
  by_cases harray : nextIs content o 91 = true
  · rw [if_pos harray] at h
    obtain ⟨⟨child, p⟩, hchild, h⟩ := Outcome.bind_eq_ok.mp h
    cases h
    exact ih.array ho hchild
  rw [if_neg harray] at h
  by_cases hobject : nextIs content o 123 = true
  · rw [if_pos hobject] at h
    obtain ⟨⟨child, p⟩, hchild, h⟩ := Outcome.bind_eq_ok.mp h
    cases h
    exact ih.object ho hchild
  rw [if_neg hobject] at h
  cases h

/-- Behind space there is a byte of the text. -/
theorem exists_space {c : UInt8} (ho : o ≤ content.length)
    (h : nextIs content (skipWhitespace content o) c = true) :
    ∃ w, Spaces w ∧ content.drop o = w ++ c :: content.drop (skipWhitespace content o + 1) ∧
      skipWhitespace content o < content.length := by
  obtain ⟨-, -, -, w, hw, hdrop⟩ := skipWhitespace_spec ho
  obtain ⟨t, ht⟩ := nextIs_eq_true.mp h
  exact ⟨w, hw, by rw [hdrop, ht, drop_succ ht], lt_length_of_drop ht⟩

/-- A container is empty, or its loop comes to the closing bracket. -/
theorem parseContainer_eq_ok {α : Type} {close : UInt8} {loop : Nat → Outcome (List α × Nat)}
    {child : List α} (hpos : 0 < o) (ho : o ≤ content.length)
    (h : parseContainer content close loop o = .ok (child, o')) :
    o' ≤ content.length ∧ ∃ w, Spaces w ∧
      (child = [] ∧ content.drop o = w ++ close :: content.drop o' ∨
        ∃ start p, start < content.length ∧ content.drop o = w ++ content.drop (start + 1) ∧
          loop start = .ok (child, p) ∧ content.drop p = close :: content.drop o') := by
  obtain ⟨hle, -, hlt, w, hw, hspace⟩ := skipWhitespace_spec ho
  rw [parseContainer] at h
  dsimp only at h
  by_cases hempty : nextIs content (skipWhitespace content o) close = true
  · rw [if_pos hempty] at h
    cases h
    obtain ⟨w, hw, hdrop, hend⟩ := exists_space ho hempty
    exact ⟨hend, w, hw, .inl ⟨rfl, hdrop⟩⟩
  rw [if_neg hempty] at h
  by_cases hend : content.length ≤ skipWhitespace content o
  · rw [if_pos hend] at h
    cases h
  rw [if_neg hend] at h
  obtain ⟨⟨child', p⟩, hloop, h⟩ := Outcome.bind_eq_ok.mp h
  by_cases hclose : nextIs content p close = true
  case neg =>
    rw [if_neg hclose] at h
    cases h
  rw [if_pos hclose] at h
  cases h
  obtain ⟨t, ht⟩ := nextIs_eq_true.mp hclose
  have hback : skipWhitespace content o - 1 + 1 = skipWhitespace content o := by omega
  refine ⟨lt_length_of_drop ht, w, hw, .inr ⟨_, p, by omega, ?_, hloop, ?_⟩⟩
  · rw [hback, hspace]
  · rw [ht, drop_succ ht]

theorem sound_array (ih : Sound content fuel) {child : List CJson}
    (h : parseArray content (fuel + 1) depth o = .ok (child, o')) :
    Reads content (nestingLimit - depth) o (.value (.array child)) o' := by
  rw [parseArray] at h
  by_cases hdepth : nestingLimit ≤ depth
  · rw [if_pos hdepth] at h
    cases h
  rw [if_neg hdepth] at h
  obtain ⟨c, hread, h⟩ := Outcome.bind_eq_ok.mp h
  by_cases hc : c = 91
  case neg =>
    rw [if_pos hc] at h
    cases h
  rw [if_neg (not_not.mpr hc)] at h
  have hopen := drop_of_read hread
  obtain ⟨hend, w, hw, hbody⟩ := parseContainer_eq_ok (Nat.succ_pos o) (lt_length_of_drop hopen) h
  rw [show nestingLimit - depth = nestingLimit - (depth + 1) + 1 by omega, Reads, hopen, hc]
  rcases hbody with ⟨rfl, hdrop⟩ | ⟨start, p, hstart, hdrop, hloop, hclose⟩
  · rw [hdrop]
    exact ⟨hend, .emptyArray hw⟩
  · have helements := (ih.elements hstart hloop).2
    rw [hclose] at helements
    rw [hdrop]
    exact ⟨hend, .array (helements.space_elements hw)⟩

theorem sound_object (ih : Sound content fuel) {child : List (List UInt8 × CJson)}
    (h : parseObject content (fuel + 1) depth o = .ok (child, o')) :
    Reads content (nestingLimit - depth) o (.value (.object child)) o' := by
  rw [parseObject] at h
  by_cases hdepth : nestingLimit ≤ depth
  · rw [if_pos hdepth] at h
    cases h
  rw [if_neg hdepth] at h
  by_cases hc : nextIs content o 123 = true
  case neg =>
    rw [if_pos (by simpa using hc)] at h
    cases h
  rw [if_neg (by simpa using hc)] at h
  obtain ⟨t, hopen⟩ := nextIs_eq_true.mp hc
  obtain rfl := drop_succ hopen
  obtain ⟨hend, w, hw, hbody⟩ := parseContainer_eq_ok (Nat.succ_pos o) (lt_length_of_drop hopen) h
  rw [show nestingLimit - depth = nestingLimit - (depth + 1) + 1 by omega, Reads, hopen]
  rcases hbody with ⟨rfl, hdrop⟩ | ⟨start, p, hstart, hdrop, hloop, hclose⟩
  · rw [hdrop]
    exact ⟨hend, .emptyObject hw⟩
  · have hmembers := (ih.members hstart hloop).2
    rw [hclose] at hmembers
    rw [hdrop]
    exact ⟨hend, .object (hmembers.space_members hw)⟩

theorem sound_elements (ih : Sound content fuel) {child : List CJson} (ho : o < content.length)
    (h : parseElements content (fuel + 1) depth o = .ok (child, o')) :
    Reads content (nestingLimit - depth) (o + 1) (.elements child) o' := by
  rw [parseElements] at h
  obtain ⟨⟨item, p⟩, hitem, h⟩ := Outcome.bind_eq_ok.mp h
  obtain ⟨-, hle, -, w, hw, hspace⟩ := skipWhitespace_spec (o := o + 1) ho
  obtain ⟨hp, hvalue⟩ := ih.value hle hitem
  dsimp only at h
  rw [Reads, hspace]
  by_cases hcomma : nextIs content (skipWhitespace content p) 44 = true
  · rw [if_pos hcomma] at h
    obtain ⟨⟨next, q⟩, hnext, h⟩ := Outcome.bind_eq_ok.mp h
    cases h
    obtain ⟨w', hw', hdrop, hlt⟩ := exists_space hp hcomma
    obtain ⟨hq, hrest⟩ := ih.elements hlt hnext
    rw [hdrop] at hvalue
    exact ⟨hq, .element hw hvalue hw' hrest⟩
  · rw [if_neg hcomma] at h
    cases h
    obtain ⟨-, hlast, -, w', hw', hdrop⟩ := skipWhitespace_spec hp
    rw [hdrop] at hvalue
    exact ⟨hlast, .lastElement hw hvalue hw'⟩

theorem sound_members (ih : Sound content fuel) {child : List (List UInt8 × CJson)}
    (ho : o < content.length) (h : parseMembers content (fuel + 1) depth o = .ok (child, o')) :
    Reads content (nestingLimit - depth) (o + 1) (.members child) o' := by
  rw [parseMembers] at h
  by_cases hshort : content.length ≤ o + 1
  · rw [if_pos hshort] at h
    cases h
  rw [if_neg hshort] at h
  obtain ⟨⟨name, p⟩, hname, h⟩ := Outcome.bind_eq_ok.mp h
  obtain ⟨-, -, -, w, hw, hspace⟩ := skipWhitespace_spec (o := o + 1) ho
  obtain ⟨hp, hliteral⟩ := parseString_eq_ok.mp hname
  dsimp only at h
  by_cases hcolon : nextIs content (skipWhitespace content p) 58 = true
  case neg =>
    rw [if_pos (by simpa using hcolon)] at h
    cases h
  rw [if_neg (by simpa using hcolon)] at h
  obtain ⟨w₁, hw₁, hdrop₁, hlt₁⟩ := exists_space hp hcolon
  obtain ⟨⟨item, q⟩, hitem, h⟩ := Outcome.bind_eq_ok.mp h
  obtain ⟨-, hle₂, -, w₂, hw₂, hdrop₂⟩ := skipWhitespace_spec
    (o := skipWhitespace content p + 1) hlt₁
  obtain ⟨hq, hvalue⟩ := ih.value hle₂ hitem
  rw [hdrop₁, hdrop₂] at hliteral
  dsimp only at h
  rw [Reads, hspace]
  by_cases hcomma : nextIs content (skipWhitespace content q) 44 = true
  · rw [if_pos hcomma] at h
    obtain ⟨⟨next, r⟩, hnext, h⟩ := Outcome.bind_eq_ok.mp h
    cases h
    obtain ⟨w', hw', hdrop, hlt⟩ := exists_space hq hcomma
    obtain ⟨hr, hrest⟩ := ih.members hlt hnext
    rw [hdrop] at hvalue
    exact ⟨hr, .member hw hliteral hw₁ hw₂ hvalue hw' hrest⟩
  · rw [if_neg hcomma] at h
    cases h
    obtain ⟨-, hlast, -, w', hw', hdrop⟩ := skipWhitespace_spec hq
    rw [hdrop] at hvalue
    exact ⟨hlast, .lastMember hw hliteral hw₁ hw₂ hvalue hw'⟩

theorem sound (content : List UInt8) (fuel : Nat) : Sound content fuel := by
  induction fuel with
  | zero =>
      constructor <;> intro depth o _ o' ho h
      · rw [parseValue] at h
        cases h
      · rw [parseArray] at h
        cases h
      · rw [parseElements] at h
        cases h
      · rw [parseObject] at h
        cases h
      · rw [parseMembers] at h
        cases h
  | succ fuel ih =>
      constructor
      · exact sound_value ih
      · exact fun _ => sound_array ih
      · exact sound_elements ih
      · exact fun _ => sound_object ih
      · exact sound_members ih

end Soundness

section Progress

variable {n : Nat} {s t v : List UInt8} {part : Part}

theorem Literal.length_lt (h : Literal s v t) : t.length < s.length := by
  obtain ⟨raw, marks, rfl, -, -⟩ := h
  simp only [List.length_cons, List.length_append]
  omega

theorem Number.length_lt {item : CJson} (h : Number s item t) : t.length < s.length := by
  obtain ⟨lexeme, rest, x, hlexeme, hread, rfl, -, -⟩ := h
  have hlen := length_lt_of_strtod hread
  rw [hlexeme, List.length_append] at hlen
  rw [List.length_append]
  omega

/-- A part takes at least one byte. -/
theorem Derives.length_lt (h : Derives n s part t) : t.length < s.length := by
  induction h with
  | null =>
      rw [List.length_append]
      exact Nat.lt_add_of_pos_left (by decide)
  | bool value =>
      rw [List.length_append]
      exact Nat.lt_add_of_pos_left (by cases value <;> decide)
  | string literal => exact literal.length_lt
  | number number => exact number.length_lt
  | emptyArray space =>
      simp only [List.length_cons, List.length_append]
      omega
  | array elements ih =>
      simp only [List.length_cons] at ih ⊢
      omega
  | emptyObject space =>
      simp only [List.length_cons, List.length_append]
      omega
  | object members ih =>
      simp only [List.length_cons] at ih ⊢
      omega
  | lastElement before value after ih =>
      simp only [List.length_append] at ih ⊢
      omega
  | element before value after rest ihvalue ihrest =>
      simp only [List.length_cons, List.length_append] at ihvalue ihrest ⊢
      omega
  | lastMember before name space₁ space₂ value after ih =>
      have := name.length_lt
      simp only [List.length_cons, List.length_append] at this ih ⊢
      omega
  | member before name space₁ space₂ value after rest ihvalue ihrest =>
      have := name.length_lt
      simp only [List.length_cons, List.length_append] at this ihvalue ihrest ⊢
      omega

/-- A part that was read ends behind its start. -/
theorem Reads.lt {content : List UInt8} {o o' : Nat} (h : Reads content n o part o') : o < o' := by
  have := h.2.length_lt
  rw [List.length_drop, List.length_drop] at this
  omega

end Progress

section Safety

variable {content : List UInt8} {fuel depth o o' : Nat}

/-- The functions stay inside of the content, and their fuel is enough. -/
structure Steady (content : List UInt8) (fuel : Nat) : Prop where
  value : ∀ {depth o}, o ≤ content.length → 3 * (content.length - o) + 3 ≤ fuel →
    (parseValue content fuel depth o).Safe
  array : ∀ {depth o}, o < content.length → 3 * (content.length - o) + 2 ≤ fuel →
    (parseArray content fuel depth o).Safe
  elements : ∀ {depth o}, o < content.length → 3 * (content.length - o) + 1 ≤ fuel →
    (parseElements content fuel depth o).Safe
  object : ∀ {depth o}, o < content.length → 3 * (content.length - o) + 2 ≤ fuel →
    (parseObject content fuel depth o).Safe
  members : ∀ {depth o}, o < content.length → 3 * (content.length - o) + 1 ≤ fuel →
    (parseMembers content fuel depth o).Safe

theorem lt_of_nextIs {c : UInt8} (h : nextIs content o c = true) : o < content.length :=
  let ⟨_, ht⟩ := nextIs_eq_true.mp h
  lt_length_of_drop ht

theorem steady_value (ih : Steady content fuel)
    (hfuel : 3 * (content.length - o) + 2 ≤ fuel) :
    (parseValue content (fuel + 1) depth o).Safe := by
  rw [parseValue, literal_eq (by decide) (by decide), literal_eq (by decide) (by decide),
    literal_eq (by decide) (by decide)]
  simp only [Outcome.ok_bind]
  split_ifs with hnull hfalse htrue hquote hdigit harray hobject
  · exact Outcome.safe_ok _
  · exact Outcome.safe_ok _
  · exact Outcome.safe_ok _
  · exact (safe_parseString (lt_of_nextIs hquote)).bind fun _ _ => Outcome.safe_ok _
  · exact safe_parseNumber
  · exact (ih.array (lt_of_nextIs harray) hfuel).bind fun _ _ => Outcome.safe_ok _
  · exact (ih.object (lt_of_nextIs hobject) hfuel).bind fun _ _ => Outcome.safe_ok _
  · exact Outcome.safe_fail

theorem safe_parseContainer {α : Type} {close : UInt8} {loop : Nat → Outcome (List α × Nat)}
    (hpos : 0 < o) (ho : o ≤ content.length)
    (hloop : ∀ start, o ≤ start + 1 → start < content.length → (loop start).Safe) :
    (parseContainer content close loop o).Safe := by
  obtain ⟨hge, hle, -, -⟩ := skipWhitespace_spec ho
  rw [parseContainer]
  dsimp only
  split_ifs with hempty hend
  · exact Outcome.safe_ok _
  · exact Outcome.safe_fail
  · refine (hloop _ (by omega) (by omega)).bind fun (child, p) _ => ?_
    dsimp only
    split_ifs
    · exact Outcome.safe_ok _
    · exact Outcome.safe_fail

theorem steady_array (ih : Steady content fuel) (ho : o < content.length)
    (hfuel : 3 * (content.length - o) + 1 ≤ fuel) :
    (parseArray content (fuel + 1) depth o).Safe := by
  rw [parseArray]
  split_ifs with hdepth
  · exact Outcome.safe_fail
  · refine (safe_read ho).bind fun c _ => ?_
    split_ifs
    · exact Outcome.safe_fail
    · exact safe_parseContainer (Nat.succ_pos o) ho fun start hstart hlt =>
        ih.elements hlt (by omega)

theorem steady_object (ih : Steady content fuel) (ho : o < content.length)
    (hfuel : 3 * (content.length - o) + 1 ≤ fuel) :
    (parseObject content (fuel + 1) depth o).Safe := by
  rw [parseObject]
  split_ifs with hdepth
  · exact Outcome.safe_fail
  · exact Outcome.safe_fail
  · exact safe_parseContainer (Nat.succ_pos o) ho fun start hstart hlt =>
      ih.members hlt (by omega)

theorem steady_elements (ih : Steady content fuel) (ho : o < content.length)
    (hfuel : 3 * (content.length - o) ≤ fuel) :
    (parseElements content (fuel + 1) depth o).Safe := by
  obtain ⟨hge, hle, -, -⟩ := skipWhitespace_spec (Nat.succ_le_of_lt ho)
  rw [parseElements]
  refine (ih.value hle (by omega)).bind fun r hitem => ?_
  obtain ⟨item, p⟩ := r
  have hread := (sound content fuel).value hle hitem
  have hlt := hread.lt
  obtain ⟨hge', -, -, -⟩ := skipWhitespace_spec hread.1
  dsimp only
  split_ifs with hcomma
  · exact (ih.elements (lt_of_nextIs hcomma) (by omega)).bind fun _ _ => Outcome.safe_ok _
  · exact Outcome.safe_ok _

theorem steady_members (ih : Steady content fuel) (ho : o < content.length)
    (hfuel : 3 * (content.length - o) ≤ fuel) :
    (parseMembers content (fuel + 1) depth o).Safe := by
  obtain ⟨hge, hle, hlt, -⟩ := skipWhitespace_spec (Nat.succ_le_of_lt ho)
  rw [parseMembers]
  split_ifs with hshort
  · exact Outcome.safe_fail
  refine (safe_parseString (hlt (not_le.mp hshort))).bind fun r hname => ?_
  obtain ⟨name, p⟩ := r
  obtain ⟨hp, hliteral⟩ := parseString_eq_ok.mp hname
  have hnamelt := hliteral.length_lt
  rw [List.length_drop, List.length_drop] at hnamelt
  dsimp only
  split_ifs with hcolon
  · exact Outcome.safe_fail
  have hcolonlt := lt_of_nextIs (by simpa using hcolon)
  obtain ⟨hge₁, -, -, -⟩ := skipWhitespace_spec hp
  obtain ⟨hge₂, hle₂, -, -⟩ := skipWhitespace_spec (o := skipWhitespace content p + 1) hcolonlt
  refine (ih.value hle₂ (by omega)).bind fun r hitem => ?_
  obtain ⟨item, q⟩ := r
  have hread := (sound content fuel).value hle₂ hitem
  have hvaluelt := hread.lt
  obtain ⟨hge', -, -, -⟩ := skipWhitespace_spec hread.1
  dsimp only
  split_ifs with hcomma
  · exact (ih.members (lt_of_nextIs hcomma) (by omega)).bind fun _ _ => Outcome.safe_ok _
  · exact Outcome.safe_ok _

theorem steady (content : List UInt8) (fuel : Nat) : Steady content fuel := by
  induction fuel with
  | zero => constructor <;> intros <;> omega
  | succ fuel ih =>
      constructor <;> intro depth o ho hfuel
      · exact steady_value ih (by omega)
      · exact steady_array ih ho (by omega)
      · exact steady_elements ih ho (by omega)
      · exact steady_object ih ho (by omega)
      · exact steady_members ih ho (by omega)

end Safety

end CJson
