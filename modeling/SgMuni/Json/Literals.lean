import SgMuni.Json.Strings

/-!
# The string literals that are accepted

`parse_string` accepts the literals of this module and no others, and stays inside of the
text and of the block for its output. A `\u` literal takes the four bytes behind it
whatever they are, so that it can swallow the first half of an escape.
-/

namespace CJson

open C

section Content

variable {content s t : List UInt8} {o : Nat} {c : UInt8}

theorem read_of_drop (h : content.drop o = c :: s) : read content o = .ok c := by
  rw [read, Outcome.ofAccess_eq_ok, ← List.head?_drop, h]
  rfl

theorem drop_succ (h : content.drop o = c :: s) : content.drop (o + 1) = s := by
  rw [← List.drop_drop, h]
  rfl

theorem drop_of_read (h : read content o = .ok c) : content.drop o = c :: content.drop (o + 1) := by
  obtain ⟨ho, rfl⟩ := List.getElem?_eq_some_iff.mp (Outcome.ofAccess_eq_ok.mp h)
  exact List.drop_eq_getElem_cons ho

theorem safe_read (h : o < content.length) : (read content o).Safe :=
  Outcome.safe_ofAccess.mpr (by simpa using h)

theorem drop_append (h : content.drop o = s ++ t) : content.drop (o + s.length) = t := by
  rw [← List.drop_drop, h, List.drop_left]

theorem add_length_le (h : content.drop o = s ++ t) (ho : o ≤ content.length) :
    o + s.length ≤ content.length := by
  have hlen := congrArg List.length h
  rw [List.length_drop, List.length_append] at hlen
  omega

theorem length_of_drop (h : content.drop o = c :: s) : o + s.length + 1 = content.length := by
  have hlen := congrArg List.length h
  rw [List.length_drop, List.length_cons] at hlen
  omega

end Content

/-- A text in which every quote is escaped, and which of its bytes start an escape. -/
inductive Closed : List UInt8 → List Bool → Prop
  | nil : Closed [] []
  | plain {c : UInt8} {s : List UInt8} {marks : List Bool} (quote : c ≠ 34) (backslash : c ≠ 92)
      (rest : Closed s marks) : Closed (c :: s) (false :: marks)
  | escape {c : UInt8} {s : List UInt8} {marks : List Bool} (rest : Closed s marks) :
      Closed (92 :: c :: s) (true :: false :: marks)

/-- A text in which a byte that starts an escape is a backslash with a byte behind it. -/
inductive Spaced : List UInt8 → List Bool → Prop
  | nil : Spaced [] []
  | byte {c : UInt8} {s : List UInt8} {marks : List Bool} (rest : Spaced s marks) :
      Spaced (c :: s) (false :: marks)
  | start {s : List UInt8} {marks : List Bool} (rest : Spaced s (false :: marks)) :
      Spaced (92 :: s) (true :: false :: marks)

/-- The number that four bytes give; anything but hexadecimal digits gives 0. -/
def hexQuad (quad : List UInt8) : Nat :=
  match quad.mapM hexValue with
  | some digits => digits.foldl (fun v d => v * 16 + d) 0
  | none => 0

/-- The first half of a surrogate pair. -/
def HighSurrogate (n : Nat) : Prop := 0xD800 ≤ n ∧ n ≤ 0xDBFF

/-- The second half. -/
def LowSurrogate (n : Nat) : Prop := 0xDC00 ≤ n ∧ n ≤ 0xDFFF

instance (n : Nat) : Decidable (HighSurrogate n) := inferInstanceAs (Decidable (_ ∧ _))

instance (n : Nat) : Decidable (LowSurrogate n) := inferInstanceAs (Decidable (_ ∧ _))

/-- The code point of a surrogate pair. -/
def surrogatePair (first second : Nat) : Nat :=
  0x10000 + (((first &&& 0x3FF) <<< 10) ||| (second &&& 0x3FF))

/-- The bytes that a text between quotes denotes. A backslash is the last byte when the
byte before it belongs to a `\u` literal; the closing quote is then read as its escape. -/
inductive Decodes : List UInt8 → List UInt8 → Prop
  | nil : Decodes [] []
  | plain {c : UInt8} {s v : List UInt8} (backslash : c ≠ 92) (rest : Decodes s v) :
      Decodes (c :: s) (c :: v)
  | simple {e b : UInt8} {s v : List UInt8} (escape : simpleEscape e = some b)
      (rest : Decodes s v) : Decodes (92 :: e :: s) (b :: v)
  | unicode {quad s bytes v : List UInt8} (length : quad.length = 4)
      (high : ¬HighSurrogate (hexQuad quad)) (low : ¬LowSurrogate (hexQuad quad))
      (encoded : utf8 (hexQuad quad) = some bytes) (rest : Decodes s v) :
      Decodes (92 :: 117 :: (quad ++ s)) (bytes ++ v)
  | pair {quad quad' s bytes v : List UInt8} (length : quad.length = 4)
      (length' : quad'.length = 4) (high : HighSurrogate (hexQuad quad))
      (low : LowSurrogate (hexQuad quad'))
      (encoded : utf8 (surrogatePair (hexQuad quad) (hexQuad quad')) = some bytes)
      (rest : Decodes s v) :
      Decodes (92 :: 117 :: (quad ++ 92 :: 117 :: (quad' ++ s))) (bytes ++ v)
  | swallowed : Decodes [92] [34]

/-- The text `s` begins with a literal that denotes `v`, and goes on with `t`. -/
def Literal (s v t : List UInt8) : Prop :=
  ∃ raw marks, s = 34 :: (raw ++ 34 :: t) ∧ Closed raw marks ∧ Decodes raw v

section Marks

variable {raw s a : List UInt8} {marks : List Bool} {c : UInt8} {b : Bool}

theorem Closed.spaced (h : Closed raw marks) : Spaced raw marks := by
  induction h with
  | nil => exact .nil
  | plain quote backslash rest ih => exact .byte ih
  | escape rest ih => exact .start (.byte ih)

theorem Closed.count (h : Closed raw marks) :
    marks.count true + marks.count false = raw.length := by
  induction h with
  | nil => rfl
  | plain quote backslash rest ih =>
      simp only [List.count_cons, List.length_cons]
      simp
      omega
  | escape rest ih =>
      simp only [List.count_cons, List.length_cons]
      simp
      omega

theorem Spaced.tail (h : Spaced (c :: s) (b :: marks)) : Spaced s marks := by
  cases h with
  | byte rest => exact rest
  | start rest => exact rest

theorem Spaced.cons (h : Spaced (c :: s) marks) : ∃ b rest, marks = b :: rest := by
  cases h with
  | byte rest => exact ⟨_, _, rfl⟩
  | start rest => exact ⟨_, _, rfl⟩

/-- A byte that is no backslash does not start an escape. -/
theorem Spaced.plain (h : Spaced (c :: s) marks) (hc : c ≠ 92) :
    ∃ rest, marks = false :: rest ∧ Spaced s rest := by
  cases h with
  | byte rest => exact ⟨_, rfl, rest⟩
  | start rest => exact absurd rfl hc

/-- A last byte starts no escape. -/
theorem Spaced.last (h : Spaced [c] marks) : 0 < marks.count false := by
  cases h with
  | byte rest => simp
  | start rest => simp

/-- Of the bytes of a piece at most half, rounded up, start an escape. -/
theorem Spaced.drop (h : Spaced (a ++ s) marks) :
    ∃ rest, Spaced s rest ∧ rest.count false + a.length / 2 ≤ marks.count false := by
  induction a using List.twoStepInduction generalizing marks with
  | nil => exact ⟨marks, h, le_rfl⟩
  | singleton c =>
      obtain ⟨b, rest, rfl⟩ := h.cons
      refine ⟨rest, h.tail, ?_⟩
      have hhalf : [c].length / 2 = 0 := by simp
      rw [List.count_cons, hhalf]
      exact Nat.le_add_right _ _
  | cons_cons c d a ih _ =>
      obtain ⟨b, rest, rfl⟩ := h.cons
      obtain ⟨b', rest', rfl⟩ := h.tail.cons
      obtain ⟨rest'', hrest, hcount⟩ := ih h.tail.tail
      refine ⟨rest'', hrest, ?_⟩
      have hmark : b = false ∨ b' = false := by
        cases h with
        | byte rest => exact .inl rfl
        | start rest => exact .inr rfl
      have hlen : (c :: d :: a).length / 2 = a.length / 2 + 1 := by
        simp only [List.length_cons]
        omega
      rw [hlen]
      rcases hmark with rfl | rfl <;> simp only [List.count_cons] <;> simp <;> omega

end Marks

section Quotes

variable {content raw t : List UInt8} {marks : List Bool} {o k fuel : Nat}

theorem findQuote_of_closed (hc : Closed raw marks) (h : content.drop o = raw ++ 34 :: t)
    (hfuel : raw.length < fuel) :
    findQuote content fuel o k = .ok (o + raw.length, k + marks.count true) := by
  induction hc generalizing o k fuel with
  | nil =>
      obtain ⟨fuel, rfl⟩ := Nat.exists_eq_succ_of_ne_zero (Nat.ne_zero_of_lt hfuel)
      have hlen := length_of_drop h
      rw [findQuote, if_neg (by omega), read_of_drop h]
      rfl
  | @plain c s marks quote backslash rest ih =>
      obtain ⟨fuel, rfl⟩ := Nat.exists_eq_succ_of_ne_zero (Nat.ne_zero_of_lt hfuel)
      have hlen := length_of_drop h
      rw [List.length_cons] at hfuel
      rw [findQuote, if_neg (by omega), read_of_drop h, Outcome.ok_bind, if_neg quote,
        if_neg backslash, ih (drop_succ h) (by omega), List.length_cons]
      simp only [Outcome.ok.injEq, Prod.mk.injEq]
      exact ⟨by omega, by simp⟩
  | @escape c s marks rest ih =>
      obtain ⟨fuel, rfl⟩ := Nat.exists_eq_succ_of_ne_zero (Nat.ne_zero_of_lt hfuel)
      have hlen := length_of_drop h
      have hlen' := length_of_drop (drop_succ h)
      rw [List.length_cons, List.length_cons] at hfuel
      rw [findQuote, if_neg (by omega), read_of_drop h, Outcome.ok_bind, if_neg (by decide),
        if_pos rfl, if_neg (by omega), ih (drop_succ (drop_succ h)) (by omega), List.length_cons,
        List.length_cons]
      simp only [Outcome.ok.injEq, Prod.mk.injEq]
      refine ⟨by omega, ?_⟩
      simp
      omega

/-- What the first loop finds is a closed text. -/
theorem closed_of_findQuote {inputEnd skipped : Nat}
    (h : findQuote content fuel o k = .ok (inputEnd, skipped)) :
    ∃ raw marks t, content.drop o = raw ++ 34 :: t ∧ Closed raw marks ∧
      inputEnd = o + raw.length ∧ skipped = k + marks.count true := by
  induction fuel generalizing o k with
  | zero => cases h
  | succ fuel ih =>
      rw [findQuote, ite_eq_iff'] at h
      obtain ⟨c, hread, h⟩ := Outcome.bind_eq_ok.mp (h.2 fun hle => by
        have := h.1 hle
        cases this)
      have hdrop := drop_of_read hread
      split_ifs at h with hquote hback hend
      · cases h
        exact ⟨[], [], _, by rw [hdrop, hquote]; rfl, .nil, rfl, rfl⟩
      · obtain ⟨raw, marks, t, hrest, hclosed, rfl, rfl⟩ := ih h
        have hlt : o + 1 < content.length := not_le.mp hend
        have hnext : content.drop (o + 1) = content[o + 1] :: (raw ++ 34 :: t) := by
          rw [List.drop_eq_getElem_cons hlt, hrest]
        refine ⟨92 :: content[o + 1] :: raw, true :: false :: marks, t, ?_, .escape hclosed, ?_, ?_⟩
        · rw [hdrop, hback, hnext]
          rfl
        · simp only [List.length_cons]
          omega
        · simp
          omega
      · obtain ⟨raw, marks, t, hrest, hclosed, rfl, rfl⟩ := ih h
        refine ⟨c :: raw, false :: marks, t, ?_, .plain hquote hback hclosed, ?_, ?_⟩
        · rw [hdrop, hrest]
          rfl
        · simp only [List.length_cons]
          omega
        · simp

theorem safe_findQuote (ho : o ≤ content.length) (hfuel : content.length < o + fuel) :
    (findQuote content fuel o k).Safe := by
  induction fuel generalizing o k with
  | zero => omega
  | succ fuel ih =>
      rw [findQuote]
      by_cases hle : content.length ≤ o
      · rw [if_pos hle]
        exact Outcome.safe_fail
      rw [if_neg hle]
      refine (safe_read (not_le.mp hle)).bind fun c _ => ?_
      split_ifs
      · exact Outcome.safe_ok _
      · exact Outcome.safe_fail
      · apply ih <;> omega
      · apply ih <;> omega

end Quotes

section Quads

variable {content s : List UInt8} {o : Nat}

/-- The loop of `parse_hex4` on the digits of a number that goes on from `v`. -/
theorem parseHex_eq {quad : List UInt8} (h : content.drop o = quad ++ s) (v : Nat) {n : Nat}
    (hn : quad.length = n + 1) :
    parseHex content (n + 1) o (v * 16) =
      .ok (match quad.mapM hexValue with
        | some digits => digits.foldl (fun v d => v * 16 + d) v
        | none => 0) := by
  induction n generalizing quad o v with
  | zero =>
      obtain ⟨c, rfl⟩ := List.length_eq_one_iff.mp hn
      rw [parseHex, read_of_drop h, Outcome.ok_bind, List.mapM_cons]
      cases hexValue c with
      | none => rfl
      | some d => rfl
  | succ n ih =>
      obtain ⟨c, quad, rfl⟩ := List.exists_cons_of_length_eq_add_one hn
      rw [List.length_cons, Nat.add_right_cancel_iff] at hn
      rw [parseHex, read_of_drop h, Outcome.ok_bind, List.mapM_cons]
      cases hexValue c with
      | none => rfl
      | some d =>
          have hshift : (v * 16 + d) <<< 4 = (v * 16 + d) * 16 := Nat.shiftLeft_eq _ _
          simp only [Nat.succ_ne_zero, if_false, hshift]
          rw [ih (drop_succ h) (v * 16 + d) hn]
          cases quad.mapM hexValue with
          | none => rfl
          | some digits => rfl

theorem parseHex4_eq {quad : List UInt8} (h : content.drop o = quad ++ s)
    (hlen : quad.length = 4) : parseHex4 content o = .ok (hexQuad quad) := by
  have hloop := parseHex_eq h 0 hlen
  rw [Nat.zero_mul] at hloop
  exact hloop

end Quads

section Utf16

variable {content r s t quad quad' bytes : List UInt8} {o stop : Nat}

theorem hexValue_lt {c : UInt8} {d : Nat} (h : hexValue c = some d) : d < 16 := by
  unfold hexValue at h
  split_ifs at h <;> cases h <;> omega

theorem foldl_hex_lt {digits : List Nat} (h : ∀ d ∈ digits, d < 16) (v : Nat) :
    digits.foldl (fun v d => v * 16 + d) v < (v + 1) * 16 ^ digits.length := by
  induction digits generalizing v with
  | nil => simp
  | cons d digits ih =>
      rw [List.forall_mem_cons] at h
      calc
        (d :: digits).foldl (fun v d => v * 16 + d) v < (v * 16 + d + 1) * 16 ^ digits.length :=
          ih h.2 _
        _ ≤ ((v + 1) * 16) * 16 ^ digits.length := Nat.mul_le_mul_right _ (by omega)
        _ = (v + 1) * 16 ^ (d :: digits).length := by
          rw [List.length_cons, Nat.pow_succ, Nat.mul_assoc, Nat.mul_comm 16]

theorem hexDigits {digits : List Nat} (h : quad.mapM hexValue = some digits) :
    digits.length = quad.length ∧ ∀ d ∈ digits, d < 16 := by
  induction quad generalizing digits with
  | nil =>
      cases h
      exact ⟨rfl, nofun⟩
  | cons c quad ih =>
      rw [List.mapM_cons] at h
      obtain ⟨d, hd, h⟩ := Option.bind_eq_some_iff.mp h
      obtain ⟨rest, hrest, h⟩ := Option.bind_eq_some_iff.mp h
      cases h
      obtain ⟨hlen, hlt⟩ := ih hrest
      exact ⟨by rw [List.length_cons, List.length_cons, hlen],
        List.forall_mem_cons.mpr ⟨hexValue_lt hd, hlt⟩⟩

theorem hexQuad_lt (hlen : quad.length = 4) : hexQuad quad < 0x10000 := by
  unfold hexQuad
  split
  · next digits hdigits =>
      obtain ⟨hlen', hlt⟩ := hexDigits hdigits
      have hfold := foldl_hex_lt hlt 0
      rw [hlen', hlen] at hfold
      exact hfold
  · decide

/-- A character takes at most three bytes for a quad, and four for a pair. -/
theorem length_utf8 {n : Nat} (h : utf8 n = some bytes) :
    bytes.length ≤ 4 ∧ (n < 0x10000 → bytes.length ≤ 3) := by
  unfold utf8 at h
  split_ifs at h with hone htwo hthree hfour <;> cases h <;> simp [continuation]
  exact not_lt.mp hthree

/-- A text of six bytes has a quad behind `\u`. -/
theorem exists_quad (hlen : 4 ≤ s.length) : ∃ quad t, quad.length = 4 ∧ s = quad ++ t :=
  ⟨s.take 4, s.drop 4, List.length_take_of_le hlen, (List.take_append_drop 4 s).symm⟩

theorem utf16_unicode (h : content.drop o = 92 :: 117 :: (quad ++ s)) (hlen : quad.length = 4)
    (hstop : o + 6 ≤ stop) (hhigh : ¬HighSurrogate (hexQuad quad))
    (hlow : ¬LowSurrogate (hexQuad quad)) :
    utf16LiteralToUtf8 content o stop =
      match utf8 (hexQuad quad) with
      | some bytes => .ok (bytes, 6)
      | none => .fail := by
  unfold HighSurrogate at hhigh
  unfold LowSurrogate at hlow
  rw [utf16LiteralToUtf8]
  refine (if_neg (not_lt.mpr hstop)).trans ?_
  rw [parseHex4_eq (drop_succ (drop_succ h)) hlen, Outcome.ok_bind]
  exact (if_neg hlow).trans (if_neg hhigh)

theorem utf16_low (h : content.drop o = 92 :: 117 :: (quad ++ s)) (hlen : quad.length = 4)
    (hlow : LowSurrogate (hexQuad quad)) : utf16LiteralToUtf8 content o stop = .fail := by
  unfold LowSurrogate at hlow
  rw [utf16LiteralToUtf8]
  simp only [parseHex4_eq (drop_succ (drop_succ h)) hlen, Outcome.ok_bind, if_pos hlow, ite_self]

/-- Behind a first half there is a second one, or the literal is rejected. -/
theorem utf16_high (h : content.drop o = 92 :: 117 :: (quad ++ s)) (hlen : quad.length = 4)
    (hhigh : HighSurrogate (hexQuad quad)) (hstop : o + 6 ≤ stop) :
    utf16LiteralToUtf8 content o stop =
      if stop < o + 12 then .fail
      else
        (read content (o + 6)).bind fun a =>
          if a ≠ 92 then .fail
          else
            (read content (o + 7)).bind fun b =>
              if b ≠ 117 then .fail
              else
                (parseHex4 content (o + 8)).bind fun second =>
                  if second < 0xDC00 ∨ 0xDFFF < second then .fail
                  else
                    match utf8 (surrogatePair (hexQuad quad) second) with
                    | some bytes => .ok (bytes, 12)
                    | none => .fail := by
  have hlow : ¬(0xDC00 ≤ hexQuad quad ∧ hexQuad quad ≤ 0xDFFF) := by
    have := hhigh.2
    omega
  unfold HighSurrogate at hhigh
  rw [utf16LiteralToUtf8]
  refine (if_neg (not_lt.mpr hstop)).trans ?_
  rw [parseHex4_eq (drop_succ (drop_succ h)) hlen, Outcome.ok_bind]
  exact (if_neg hlow).trans (if_pos hhigh)

end Utf16

section Decoding

variable {r s t v quad output bytes : List UInt8} {c e : UInt8}

@[simp] theorem decodes_nil : Decodes [] v ↔ v = [] :=
  ⟨fun h => by cases h; rfl, fun h => h ▸ .nil⟩

@[simp] theorem decodes_swallowed : Decodes [92] v ↔ v = [34] := by
  constructor
  · rintro (_ | _ | _ | _ | _ | _)
    · contradiction
    · rfl
  · rintro rfl
    exact .swallowed

theorem decodes_plain (hc : c ≠ 92) :
    Decodes (c :: s) v ↔ ∃ v', v = [c] ++ v' ∧ Decodes s v' := by
  constructor
  · intro h
    cases h with
    | plain backslash rest => exact ⟨_, rfl, rest⟩
    | simple escape rest => exact absurd rfl hc
    | unicode length high low encoded rest => exact absurd rfl hc
    | pair length length' high low encoded rest => exact absurd rfl hc
    | swallowed => exact absurd rfl hc
  · rintro ⟨v', rfl, h⟩
    exact .plain hc h

theorem decodes_simple (he : e ≠ 117) :
    Decodes (92 :: e :: s) v ↔
      ∃ b, simpleEscape e = some b ∧ ∃ v', v = [b] ++ v' ∧ Decodes s v' := by
  constructor
  · intro h
    cases h with
    | plain backslash rest => exact absurd rfl backslash
    | simple escape rest => exact ⟨_, escape, _, rfl, rest⟩
    | unicode length high low encoded rest => exact absurd rfl he
    | pair length length' high low encoded rest => exact absurd rfl he
  · rintro ⟨b, hb, v', rfl, h⟩
    exact .simple hb h

/-- What a `\u` literal with a first quad decodes to. -/
theorem decodes_unicode (hlen : quad.length = 4) :
    Decodes (92 :: 117 :: (quad ++ s)) v ↔
      (¬HighSurrogate (hexQuad quad) ∧ ¬LowSurrogate (hexQuad quad) ∧
        ∃ bytes, utf8 (hexQuad quad) = some bytes ∧ ∃ v', v = bytes ++ v' ∧ Decodes s v') ∨
      (HighSurrogate (hexQuad quad) ∧
        ∃ quad' s', quad'.length = 4 ∧ s = 92 :: 117 :: (quad' ++ s') ∧
          LowSurrogate (hexQuad quad') ∧
          ∃ bytes, utf8 (surrogatePair (hexQuad quad) (hexQuad quad')) = some bytes ∧
            ∃ v', v = bytes ++ v' ∧ Decodes s' v') := by
  constructor
  · intro h
    generalize hr : 92 :: 117 :: (quad ++ s) = r at h
    cases h with
    | nil => cases hr
    | plain backslash rest =>
        cases hr
        exact absurd rfl backslash
    | simple escape rest =>
        cases hr
        cases escape
    | unicode length high low encoded rest =>
        obtain ⟨rfl, rfl⟩ := List.append_inj (List.cons.inj (List.cons.inj hr).2).2
          (hlen.trans length.symm)
        exact .inl ⟨high, low, _, encoded, _, rfl, rest⟩
    | pair length length' high low encoded rest =>
        obtain ⟨rfl, rfl⟩ := List.append_inj (List.cons.inj (List.cons.inj hr).2).2
          (hlen.trans length.symm)
        exact .inr ⟨high, _, _, length', rfl, low, _, encoded, _, rfl, rest⟩
    | swallowed => cases hr
  · rintro (⟨hhigh, hlow, bytes, hbytes, v', rfl, h⟩ |
      ⟨hhigh, quad', s', hlen', rfl, hlow, bytes, hbytes, v', rfl, h⟩)
    · exact .unicode hlen hhigh hlow hbytes h
    · exact .pair hlen hlen' hhigh hlow hbytes h

/-- A `\u` literal that the quote cuts off is rejected. -/
theorem not_decodes_short (hlen : s.length < 4) : ¬Decodes (92 :: 117 :: s) v := by
  intro h
  generalize hr : 92 :: 117 :: s = r at h
  cases h with
  | nil => cases hr
  | plain backslash rest =>
      cases hr
      exact backslash rfl
  | simple escape rest =>
      cases hr
      cases escape
  | unicode length high low encoded rest =>
      cases hr
      rw [List.length_append] at hlen
      omega
  | pair length length' high low encoded rest =>
      cases hr
      rw [List.length_append] at hlen
      omega
  | swallowed => cases hr

/-- A text decodes to at most the bytes that start no escape. -/
theorem length_le_of_decodes {marks : List Bool} (h : Decodes r v) (hspaced : Spaced r marks) :
    v.length ≤ marks.count false := by
  induction h generalizing marks with
  | nil => exact Nat.zero_le _
  | plain backslash rest ih =>
      obtain ⟨marks, rfl, hmarks⟩ := hspaced.plain backslash
      have := ih hmarks
      simpa using this
  | @simple e b s v escape rest ih =>
      obtain ⟨marks, hmarks, hcount⟩ := Spaced.drop (a := [92, e]) hspaced
      have := ih hmarks
      have hhalf : [92, e].length / 2 = 1 := by simp
      rw [List.length_cons]
      omega
  | @unicode quad s bytes v length high low encoded rest ih =>
      obtain ⟨marks, hmarks, hcount⟩ := Spaced.drop (a := 92 :: 117 :: quad) hspaced
      have := ih hmarks
      have hbytes := (length_utf8 encoded).2 (hexQuad_lt length)
      simp only [List.length_cons, length] at hcount
      rw [List.length_append]
      omega
  | @pair quad quad' s bytes v length length' high low encoded rest ih =>
      obtain ⟨marks, hmarks, hcount⟩ := Spaced.drop
        (a := 92 :: 117 :: (quad ++ 92 :: 117 :: quad')) (s := s) (by simpa using hspaced)
      have := ih hmarks
      have hbytes := (length_utf8 encoded).1
      simp only [List.length_cons, List.length_append, length, length'] at hcount
      rw [List.length_append]
      omega
  | swallowed => exact hspaced.last

/-- The second loop went on behind `output` with the text `r` and came to `x`. -/
structure Unescaped (x : Outcome (List UInt8)) (output r : List UInt8) : Prop where
  safe : x.Safe
  sound : ∀ out, x = .ok out → ∃ v, out = output ++ v ∧ Decodes r v
  complete : ∀ v, Decodes r v → x = .ok (output ++ v)

theorem unescaped_fail (h : ∀ v, ¬Decodes r v) : Unescaped .fail output r :=
  ⟨Outcome.safe_fail, nofun, fun v hv => absurd hv (h v)⟩

theorem unescaped_ok : Unescaped (.ok output) output [] := by
  refine ⟨Outcome.safe_ok _, fun out hout => ⟨[], ?_, .nil⟩, fun v hv => ?_⟩
  · rw [List.append_nil, Outcome.ok.inj hout]
  · rw [decodes_nil.mp hv, List.append_nil]

theorem unescaped_put {size : Nat} {next : List UInt8 → Outcome (List UInt8)}
    (hfits : output.length + bytes.length ≤ size)
    (hr : ∀ v, Decodes r v ↔ ∃ v', v = bytes ++ v' ∧ Decodes s v')
    (hnext : Unescaped (next (output ++ bytes)) (output ++ bytes) s) :
    Unescaped ((put size output bytes).bind next) output r := by
  rw [put, if_pos hfits, Outcome.ok_bind]
  refine ⟨hnext.safe, fun out hout => ?_, fun v hv => ?_⟩
  · obtain ⟨v, rfl, hv⟩ := hnext.sound out hout
    exact ⟨bytes ++ v, List.append_assoc _ _ _, (hr _).mpr ⟨v, rfl, hv⟩⟩
  · obtain ⟨v', rfl, hv'⟩ := (hr v).mp hv
    rw [hnext.complete v' hv', List.append_assoc]

end Decoding

section Unescape

variable {content r t output : List UInt8} {marks : List Bool} {p size inputEnd fuel : Nat}

theorem unescape_end (hend : inputEnd ≤ p) (hfuel : 0 < fuel) :
    unescape content size inputEnd fuel p output = .ok output := by
  obtain ⟨fuel, rfl⟩ := Nat.exists_eq_succ_of_ne_zero (Nat.ne_zero_of_lt hfuel)
  rw [unescape, if_pos hend]

/-- A backslash in front of the closing quote, which is read as its escape. -/
theorem unescaped_swallowed (hdrop : content.drop (p + 1) = 34 :: t) (hend : inputEnd ≤ p + 2)
    (hsize : output.length < size) (hfuel : 0 < fuel) :
    Unescaped ((read content (p + 1)).bind fun e =>
      if e = 117 then
        (utf16LiteralToUtf8 content p inputEnd).bind fun (bytes, length) =>
          (put size output bytes).bind fun output =>
            unescape content size inputEnd fuel (p + length) output
      else
        match simpleEscape e with
        | some b =>
            (put size output [b]).bind fun output =>
              unescape content size inputEnd fuel (p + 2) output
        | none => .fail) output [92] := by
  rw [read_of_drop hdrop, Outcome.ok_bind, if_neg (by decide)]
  refine unescaped_put (s := []) hsize (fun v => ?_) ?_
  · simp
  · rw [unescape_end hend hfuel]
    exact unescaped_ok

/-- A literal that gives a code point: the loop puts its bytes and goes on behind `piece`. -/
theorem unescaped_codepoint (n : Nat) (piece : List UInt8) {s : List UInt8}
    (hspaced : Spaced (piece ++ s) marks) (hsize : output.length + marks.count false < size)
    (hliteral : utf16LiteralToUtf8 content p inputEnd =
      match utf8 n with
      | some bytes => .ok (bytes, piece.length)
      | none => .fail)
    (hdecodes : ∀ v, Decodes (piece ++ s) v ↔
      ∃ bytes, utf8 n = some bytes ∧ ∃ v', v = bytes ++ v' ∧ Decodes s v')
    (hhalf : ∀ bytes, utf8 n = some bytes → bytes.length ≤ piece.length / 2)
    (hnext : ∀ output rest, Spaced s rest → output.length + rest.count false < size →
      Unescaped (unescape content size inputEnd fuel (p + piece.length) output) output s) :
    Unescaped ((utf16LiteralToUtf8 content p inputEnd).bind fun (bytes, length) =>
      (put size output bytes).bind fun output =>
        unescape content size inputEnd fuel (p + length) output) output (piece ++ s) := by
  rw [hliteral]
  cases hutf8 : utf8 n with
  | none =>
      refine unescaped_fail fun v hv => ?_
      obtain ⟨bytes, hbytes, -⟩ := (hdecodes v).mp hv
      rw [hutf8] at hbytes
      cases hbytes
  | some bytes =>
      have hbytes := hhalf bytes hutf8
      obtain ⟨rest, hrest, hcount⟩ := hspaced.drop
      refine unescaped_put (s := s) (by omega) (fun v => ?_) ?_
      · rw [hdecodes]
        simp only [hutf8, Option.some.injEq, exists_eq_left']
      · refine hnext _ rest hrest ?_
        rw [List.length_append]
        omega

/-- The first half of a pair: the second one follows, or the literal is rejected. -/
theorem unescaped_pair {quad s : List UInt8} (hlen : quad.length = 4)
    (hhigh : HighSurrogate (hexQuad quad))
    (hdrop : content.drop p = 92 :: 117 :: (quad ++ (s ++ 34 :: t)))
    (hend : inputEnd = p + (s.length + 6)) (hspaced : Spaced (92 :: 117 :: (quad ++ s)) marks)
    (hsize : output.length + marks.count false < size)
    (hnext : ∀ piece s', 92 :: 117 :: (quad ++ s) = piece ++ s' → 0 < piece.length →
      ∀ output rest, Spaced s' rest → output.length + rest.count false < size →
        Unescaped (unescape content size inputEnd fuel (p + piece.length) output) output s') :
    Unescaped ((utf16LiteralToUtf8 content p inputEnd).bind fun (bytes, length) =>
      (put size output bytes).bind fun output =>
        unescape content size inputEnd fuel (p + length) output) output
      (92 :: 117 :: (quad ++ s)) := by
  have hdecodes (v : List UInt8) : Decodes (92 :: 117 :: (quad ++ s)) v ↔
      ∃ quad' s', quad'.length = 4 ∧ s = 92 :: 117 :: (quad' ++ s') ∧
        LowSurrogate (hexQuad quad') ∧
        ∃ bytes, utf8 (surrogatePair (hexQuad quad) (hexQuad quad')) = some bytes ∧
          ∃ v', v = bytes ++ v' ∧ Decodes s' v' := by
    rw [decodes_unicode hlen]
    simp only [hhigh, not_true, false_and, true_and, false_or]
  have hreject (h : ∀ quad' s', quad'.length = 4 → s = 92 :: 117 :: (quad' ++ s') →
      ¬LowSurrogate (hexQuad quad')) : Unescaped .fail output (92 :: 117 :: (quad ++ s)) := by
    refine unescaped_fail fun v hv => ?_
    obtain ⟨quad', s', hlen', hs, hlow', -⟩ := (hdecodes v).mp hv
    exact h quad' s' hlen' hs hlow'
  have hdrop6 : content.drop (p + 6) = s ++ 34 :: t := by
    have := drop_append (drop_succ (drop_succ hdrop))
    rwa [hlen] at this
  have hliteral := utf16_high hdrop hlen hhigh (show p + 6 ≤ inputEnd by omega)
  by_cases hshort : inputEnd < p + 12
  · rw [hliteral, if_pos hshort]
    refine hreject fun quad' s' hlen' hs => ?_
    rw [hs] at hend
    simp only [List.length_cons, List.length_append] at hend
    omega
  rw [if_neg hshort] at hliteral
  obtain ⟨a, s, rfl⟩ := List.exists_cons_of_length_pos (l := s) (by omega)
  rw [List.length_cons] at hend
  obtain ⟨b, s, rfl⟩ := List.exists_cons_of_length_pos (l := s) (by omega)
  rw [List.length_cons] at hend
  obtain ⟨quad', s, hlen', rfl⟩ := exists_quad (s := s) (by omega)
  rw [List.cons_append, List.cons_append, List.append_assoc] at hdrop6
  rw [read_of_drop hdrop6, Outcome.ok_bind, read_of_drop (drop_succ hdrop6), Outcome.ok_bind,
    parseHex4_eq (drop_succ (drop_succ hdrop6)) hlen', Outcome.ok_bind] at hliteral
  by_cases ha : a = 92
  case neg =>
    rw [hliteral, if_pos ha]
    exact hreject fun _ _ _ hs => absurd (List.cons.inj hs).1 ha
  by_cases hb : b = 117
  case neg =>
    rw [hliteral, if_neg (not_not.mpr ha), if_pos hb]
    exact hreject fun _ _ _ hs => absurd (List.cons.inj (List.cons.inj hs).2).1 hb
  subst ha hb
  have hquad {quad'' s'' : List UInt8} (hlen'' : quad''.length = 4)
      (hs : 92 :: 117 :: (quad' ++ s) = 92 :: 117 :: (quad'' ++ s'')) : quad' = quad'' ∧ s = s'' :=
    List.append_inj (List.cons.inj (List.cons.inj hs).2).2 (hlen'.trans hlen''.symm)
  by_cases hlow : LowSurrogate (hexQuad quad')
  case neg =>
    have hout : hexQuad quad' < 0xDC00 ∨ 0xDFFF < hexQuad quad' := by
      unfold LowSurrogate at hlow
      omega
    rw [hliteral, if_neg (not_not.mpr rfl), if_neg (not_not.mpr rfl), if_pos hout]
    refine hreject fun _ _ hlen'' hs => ?_
    rwa [← (hquad hlen'' hs).1]
  have hin : ¬(hexQuad quad' < 0xDC00 ∨ 0xDFFF < hexQuad quad') := by
    unfold LowSurrogate at hlow
    omega
  rw [if_neg (not_not.mpr rfl), if_neg (not_not.mpr rfl), if_neg hin] at hliteral
  have hsplit : 92 :: 117 :: (quad ++ 92 :: 117 :: (quad' ++ s)) =
      (92 :: 117 :: (quad ++ 92 :: 117 :: quad')) ++ s := by simp
  have hpiece : (92 :: 117 :: (quad ++ 92 :: 117 :: quad')).length = 12 := by simp [hlen, hlen']
  rw [hsplit] at hspaced hdecodes ⊢
  refine unescaped_codepoint (surrogatePair (hexQuad quad) (hexQuad quad')) _ hspaced hsize
    ?_ (fun v => ?_) (fun bytes hbytes => ?_) ?_
  · rw [hpiece]
    exact hliteral
  · rw [hdecodes]
    constructor
    · rintro ⟨quad'', s'', hlen'', hs, -, h⟩
      obtain ⟨rfl, rfl⟩ := hquad hlen'' hs
      exact h
    · exact fun h => ⟨quad', s, hlen', rfl, hlow, h⟩
  · rw [hpiece]
    exact (length_utf8 hbytes).1.trans (by decide)
  · exact hnext _ s hsplit (by omega)

/-- At a `\u` literal the loop puts the bytes of the character, or gives up. -/
theorem unescaped_unicode {s : List UInt8} (hdrop : content.drop p = 92 :: 117 :: (s ++ 34 :: t))
    (hend : inputEnd = p + (s.length + 2)) (hspaced : Spaced (92 :: 117 :: s) marks)
    (hsize : output.length + marks.count false < size)
    (hnext : ∀ piece s', 92 :: 117 :: s = piece ++ s' → 0 < piece.length →
      ∀ output rest, Spaced s' rest → output.length + rest.count false < size →
        Unescaped (unescape content size inputEnd fuel (p + piece.length) output) output s') :
    Unescaped ((utf16LiteralToUtf8 content p inputEnd).bind fun (bytes, length) =>
      (put size output bytes).bind fun output =>
        unescape content size inputEnd fuel (p + length) output) output (92 :: 117 :: s) := by
  by_cases hshort : s.length < 4
  · rw [utf16LiteralToUtf8, if_pos (by omega)]
    exact unescaped_fail fun v => not_decodes_short hshort
  obtain ⟨quad, s, hlen, rfl⟩ := exists_quad (not_lt.mp hshort)
  rw [List.append_assoc] at hdrop
  rw [List.length_append, hlen] at hend
  by_cases hlow : LowSurrogate (hexQuad quad)
  · rw [utf16_low hdrop hlen hlow]
    refine unescaped_fail fun v hv => ?_
    rcases (decodes_unicode hlen).mp hv with ⟨-, hnot, -⟩ | ⟨hhigh, -⟩
    · exact hnot hlow
    · exact absurd hhigh.2 (by have := hlow.1; omega)
  by_cases hhigh : HighSurrogate (hexQuad quad)
  · exact unescaped_pair hlen hhigh hdrop (by omega) hspaced hsize hnext
  have hpiece : (92 :: 117 :: quad).length = 6 := by simp [hlen]
  refine unescaped_codepoint (hexQuad quad) (92 :: 117 :: quad) hspaced hsize
    ?_ (fun v => ?_) (fun bytes hbytes => ?_) ?_
  · rw [hpiece]
    exact utf16_unicode hdrop hlen (by omega) hhigh hlow
  · refine (decodes_unicode hlen).trans ?_
    simp only [hhigh, hlow, not_false_iff, true_and, false_and, or_false]
  · rw [hpiece]
    exact (length_utf8 hbytes).2 (hexQuad_lt hlen)
  · exact hnext _ s rfl (by omega)

/-- The second loop between the quotes. The bytes left that start no escape are as many as
the block has room for. -/
theorem unescaped_unescape (hdrop : content.drop p = r ++ 34 :: t) (hend : inputEnd = p + r.length)
    (hspaced : Spaced r marks) (hsize : output.length + marks.count false < size)
    (hfuel : r.length < fuel) :
    Unescaped (unescape content size inputEnd fuel p output) output r := by
  induction hn : r.length using Nat.strong_induction_on generalizing p r marks output fuel with
  | _ n ih =>
  subst hn
  obtain ⟨fuel, rfl⟩ := Nat.exists_eq_succ_of_ne_zero (Nat.ne_zero_of_lt hfuel)
  have hnext (piece s : List UInt8) (hr : r = piece ++ s) (hpiece : 0 < piece.length)
      (output : List UInt8) (rest : List Bool) (hrest : Spaced s rest)
      (hsize : output.length + rest.count false < size) :
      Unescaped (unescape content size inputEnd fuel (p + piece.length) output) output s := by
    rw [hr, List.length_append] at hend hfuel
    refine ih s.length ?_ ?_ (by omega) hrest hsize (by omega) rfl
    · rw [hr, List.length_append]
      omega
    · rw [hr, List.append_assoc] at hdrop
      exact drop_append hdrop
  have hone {b : UInt8} (piece : List UInt8) {s : List UInt8} (hr : r = piece ++ s)
      (hpiece : 0 < piece.length)
      (hdecodes : ∀ v, Decodes r v ↔ ∃ v', v = [b] ++ v' ∧ Decodes s v')
      {rest : List Bool} (hrest : Spaced s rest) (hcount : rest.count false < marks.count false) :
      Unescaped ((put size output [b]).bind fun output =>
        unescape content size inputEnd fuel (p + piece.length) output) output r := by
    have hlen : ([b] : List UInt8).length = 1 := rfl
    refine unescaped_put (by omega) hdecodes (hnext piece s hr hpiece _ _ hrest ?_)
    rw [List.length_append]
    omega
  rw [unescape]
  cases r with
  | nil =>
      rw [if_pos (by simp [hend])]
      exact unescaped_ok
  | cons c s =>
      rw [List.length_cons] at hend
      rw [if_neg (by omega), read_of_drop hdrop, Outcome.ok_bind]
      by_cases hc : c = 92
      case neg =>
        rw [if_pos hc]
        obtain ⟨rest, rfl, hrest⟩ := hspaced.plain hc
        exact hone [c] rfl Nat.one_pos (fun v => decodes_plain hc) hrest (by simp)
      subst hc
      rw [if_neg (not_not.mpr rfl)]
      cases s with
      | nil =>
          have hmarks : 0 < marks.count false := hspaced.last
          rw [List.length_singleton] at hfuel
          exact unescaped_swallowed (drop_succ hdrop) (by simp [hend]) (by omega) (by omega)
      | cons e s =>
          rw [List.length_cons] at hend
          rw [read_of_drop (drop_succ hdrop), Outcome.ok_bind]
          by_cases he : e = 117
          · subst he
            rw [if_pos rfl]
            exact unescaped_unicode hdrop (by omega) hspaced hsize hnext
          rw [if_neg he]
          cases hescape : simpleEscape e with
          | none =>
              refine unescaped_fail fun v hv => ?_
              obtain ⟨b, hb, -⟩ := (decodes_simple he).mp hv
              rw [hescape] at hb
              cases hb
          | some b =>
              obtain ⟨rest, hrest, hcount⟩ := Spaced.drop (a := [92, e]) hspaced
              refine hone [92, e] rfl Nat.two_pos (fun v => ?_) hrest ?_
              · rw [decodes_simple he]
                simp only [hescape, Option.some.injEq, exists_eq_left']
              · have hhalf : [92, e].length / 2 = 1 := by simp
                omega

end Unescape

section ParseString

variable {content v : List UInt8} {o o' : Nat}

/-- Where a quoted text stands, `parse_string` reads what it decodes to. -/
theorem parseString_closed {raw t : List UInt8} {marks : List Bool} (hclosed : Closed raw marks)
    (hdrop : content.drop o = 34 :: (raw ++ 34 :: t)) :
    (parseString content o).Safe ∧
      ∀ v o', parseString content o = .ok (v, o') ↔ Decodes raw v ∧ o' = o + raw.length + 2 := by
  have hlen := length_of_drop hdrop
  rw [List.length_append] at hlen
  have hmarks := hclosed.count
  have hfind : findQuote content (content.length + 1) (o + 1) 0 =
      .ok (o + 1 + raw.length, 0 + marks.count true) :=
    findQuote_of_closed hclosed (drop_succ hdrop) (by omega)
  -- The block has room for the terminator.
  have hloop : Unescaped (unescape content (marks.count false + 2) (o + 1 + raw.length)
      (content.length + 1) (o + 1) []) [] raw :=
    unescaped_unescape (drop_succ hdrop) rfl hclosed.spaced (by rw [List.length_nil]; omega)
      (by omega)
  have hsize : o + 1 + raw.length - o - (0 + marks.count true) + 1 = marks.count false + 2 := by
    omega
  have heq : parseString content o = (unescape content (marks.count false + 2) (o + 1 + raw.length)
      (content.length + 1) (o + 1) []).bind fun output =>
        (put (marks.count false + 2) output [0]).bind fun _ =>
          .ok (output, o + 1 + raw.length + 1) := by
    rw [parseString, read_of_drop hdrop, Outcome.ok_bind, if_neg (not_not.mpr rfl), hfind,
      Outcome.ok_bind]
    simp only [hsize]
  have hput (output : List UInt8) (hout : Decodes raw output) :
      put (marks.count false + 2) output [0] = .ok (output ++ [0]) := by
    have := length_le_of_decodes hout hclosed.spaced
    rw [put, if_pos]
    rw [List.length_singleton]
    omega
  constructor
  · rw [heq]
    refine hloop.safe.bind fun output hout => ?_
    obtain ⟨v, rfl, hv⟩ := hloop.sound output hout
    rw [hput _ hv]
    exact Outcome.safe_ok _
  · intro v o'
    rw [heq, Outcome.bind_eq_ok]
    constructor
    · rintro ⟨output, hout, h⟩
      obtain ⟨v, rfl, hv⟩ := hloop.sound output hout
      rw [hput _ hv] at h
      cases h
      exact ⟨hv, by omega⟩
    · rintro ⟨hv, rfl⟩
      refine ⟨v, hloop.complete v hv, ?_⟩
      rw [hput v hv, Outcome.ok_bind]
      congr 2
      omega

/-- The literals that `parse_string` accepts, and the offset behind them. -/
theorem parseString_eq_ok : parseString content o = .ok (v, o') ↔
    o' ≤ content.length ∧ Literal (content.drop o) v (content.drop o') := by
  constructor
  · intro h
    obtain ⟨c, hread, hquote⟩ := Outcome.bind_eq_ok.mp h
    have hc : c = 34 := by
      by_contra hne
      rw [if_pos hne] at hquote
      cases hquote
    rw [if_neg (not_not.mpr hc)] at hquote
    obtain ⟨⟨inputEnd, skipped⟩, hfind, -⟩ := Outcome.bind_eq_ok.mp hquote
    obtain ⟨raw, marks, t, hraw, hclosed, -, -⟩ := closed_of_findQuote hfind
    have hdrop : content.drop o = 34 :: (raw ++ 34 :: t) := by
      rw [drop_of_read hread, hc, hraw]
    obtain ⟨hv, rfl⟩ := ((parseString_closed hclosed hdrop).2 v o').mp h
    have hlen := length_of_drop hdrop
    rw [List.length_append, List.length_cons] at hlen
    have ht : content.drop (o + raw.length + 2) = t := by
      rw [show o + raw.length + 2 = o + 1 + raw.length + 1 by omega]
      exact drop_succ (drop_append hraw)
    exact ⟨by omega, raw, marks, by rw [hdrop, ht], hclosed, hv⟩
  · rintro ⟨ho', raw, marks, hdrop, hclosed, hv⟩
    refine ((parseString_closed hclosed hdrop).2 v o').mpr ⟨hv, ?_⟩
    have hlen := length_of_drop hdrop
    rw [List.length_append, List.length_cons, List.length_drop] at hlen
    omega

theorem safe_parseString (h : o < content.length) : (parseString content o).Safe := by
  refine (safe_read h).bind fun c hread => ?_
  by_cases hc : c = 34
  case neg =>
    rw [if_pos hc]
    exact Outcome.safe_fail
  rw [if_neg (not_not.mpr hc)]
  refine (safe_findQuote (by omega) (by omega)).bind fun (inputEnd, skipped) hfind => ?_
  obtain ⟨raw, marks, t, hraw, hclosed, -, -⟩ := closed_of_findQuote hfind
  have hdrop : content.drop o = 34 :: (raw ++ 34 :: t) := by
    rw [drop_of_read hread, hc, hraw]
  have hsafe := (parseString_closed hclosed hdrop).1
  rw [parseString, hread, Outcome.ok_bind, if_neg (not_not.mpr hc), hfind] at hsafe
  exact hsafe

end ParseString

end CJson
