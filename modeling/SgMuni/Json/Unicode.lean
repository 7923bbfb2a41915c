import SgMuni.Json.RoundTrip

/-!
# Characters behind `\u`

A character of the basic plane is written with one quad, and any other one with a pair of
surrogates. What the parser makes of them is the UTF-8 encoding of the characters.
-/

namespace CJson

open C

section Bits

/-- A byte behind the first one has the six bits of its place. -/
theorem continuation_byte (n : Nat) :
    UInt8.ofNat ((n ||| 0x80) &&& 0xBF) = UInt8.ofNat (n % 64 + 0x80) := by
  have hall : ∀ m < 2 ^ 8, ((m ||| 0x80) &&& 0xBF) = m % 64 + 0x80 := by decide +kernel
  have hmod : ((n ||| 0x80) &&& 0xBF) % 2 ^ 8 = ((n % 2 ^ 8 ||| 0x80) &&& 0xBF) % 2 ^ 8 := by
    simp only [Nat.and_mod_two_pow, Nat.or_mod_two_pow, Nat.mod_mod]
  rw [← UInt8.toNat_inj, UInt8.toNat_ofNat', UInt8.toNat_ofNat', hmod,
    hall _ (Nat.mod_lt _ (by decide))]
  omega

/-- The first byte has the mark of its length in front of the bits. -/
theorem first_byte :
    (∀ k < 32, ((k ||| 0xC0) &&& 0xFF) = k % 32 + 0xC0) ∧
      (∀ k < 16, ((k ||| 0xE0) &&& 0xFF) = k % 16 + 0xE0) ∧
      ∀ k < 8, ((k ||| 0xF0) &&& 0xFF) = k % 8 + 0xF0 := by
  decide

theorem shiftRight_six (n : Nat) : n >>> 6 = n / 64 := Nat.shiftRight_eq_div_pow n 6

theorem toNat_char (c : Char) : c.toNat < 0xD800 ∨ 0xDFFF < c.toNat ∧ c.toNat < 0x110000 := c.valid

/-- The bytes of a character are its encoding. -/
theorem utf8_toNat (c : Char) : utf8 c.toNat = some (String.utf8EncodeChar c) := by
  have hvalid := toNat_char c
  unfold utf8 String.utf8EncodeChar
  simp only [show c.val.toNat = c.toNat from rfl, continuation, shiftRight_six,
    Nat.div_div_eq_div_mul, continuation_byte]
  by_cases hone : c.toNat < 0x80
  · have hmask : c.toNat &&& 0x7F = c.toNat := by
      rw [show 0x7F = 2 ^ 7 - 1 from rfl, Nat.and_two_pow_sub_one_of_lt_two_pow (by omega)]
    rw [if_pos hone, if_pos (by omega), hmask]
  rw [if_neg hone, if_neg (by omega : ¬c.toNat ≤ 0x7F)]
  by_cases htwo : c.toNat < 0x800
  · rw [if_pos htwo, if_pos (by omega), first_byte.1 _ (by omega)]
  rw [if_neg htwo, if_neg (by omega : ¬c.toNat ≤ 0x7FF)]
  by_cases hthree : c.toNat < 0x10000
  · rw [if_pos hthree, if_pos (by omega), first_byte.2.1 _ (by omega)]
  rw [if_neg hthree, if_neg (by omega : ¬c.toNat ≤ 0xFFFF), if_pos (by omega),
    first_byte.2.2 _ (by omega)]

end Bits

section Quads

/-- A number of 16 bits as four hexadecimal digits. -/
def quadText (n : Nat) : List UInt8 :=
  [hexDigit (n / 4096 % 16), hexDigit (n / 256 % 16), hexDigit (n / 16 % 16), hexDigit (n % 16)]

/-- A character as one `\u` literal, or as two for the halves of its pair. -/
def unicodeLiteral (c : Char) : List UInt8 :=
  if c.toNat < 0x10000 then 92 :: 117 :: quadText c.toNat
  else
    92 :: 117 :: (quadText (0xD800 + (c.toNat - 0x10000) / 1024) ++
      92 :: 117 :: quadText (0xDC00 + (c.toNat - 0x10000) % 1024))

theorem hexValue_hexDigit : ∀ d < 16, hexValue (hexDigit d) = some d := by
  decide

theorem hexQuad_quadText {n : Nat} (hn : n < 0x10000) : hexQuad (quadText n) = n := by
  have hdigit (m : Nat) : hexValue (hexDigit (m % 16)) = some (m % 16) :=
    hexValue_hexDigit _ (Nat.mod_lt _ (by decide))
  have hmap : (quadText n).mapM hexValue =
      some [n / 4096 % 16, n / 256 % 16, n / 16 % 16, n % 16] := by
    simp [quadText, hdigit]
  unfold hexQuad
  rw [hmap]
  simp only [List.foldl_cons, List.foldl_nil]
  omega

/-- The halves of a pair give the number that they were made from. -/
theorem surrogatePair_eq {a b : Nat} (ha : a < 1024) (hb : b < 1024) :
    surrogatePair (0xD800 + a) (0xDC00 + b) = 0x10000 + (a * 1024 + b) := by
  have hmask (k m : Nat) (hm : m < 1024) : (k * 1024 + m) &&& 0x3FF = m := by
    rw [show 0x3FF = 2 ^ 10 - 1 from rfl, Nat.and_two_pow_sub_one_eq_mod]
    omega
  have hhigh := hmask 54 a ha
  have hlow := hmask 55 b hb
  rw [surrogatePair, show 0xD800 + a = 54 * 1024 + a from rfl,
    show 0xDC00 + b = 55 * 1024 + b from rfl, hhigh, hlow,
    ← Nat.shiftLeft_add_eq_or_of_lt (show b < 2 ^ 10 from hb), Nat.shiftLeft_eq]

theorem decodes_unicodeLiteral (c : Char) {s v : List UInt8} (h : Decodes s v) :
    Decodes (unicodeLiteral c ++ s) (String.utf8EncodeChar c ++ v) := by
  have hvalid := toNat_char c
  have hutf8 := utf8_toNat c
  unfold unicodeLiteral
  split_ifs with hbasic
  · have hquad := hexQuad_quadText hbasic
    have hhigh : ¬HighSurrogate c.toNat := fun hhigh => by
      have := hhigh.1
      have := hhigh.2
      omega
    have hlow : ¬LowSurrogate c.toNat := fun hlow => by
      have := hlow.1
      have := hlow.2
      omega
    rw [← hquad] at hhigh hlow hutf8
    exact .unicode rfl hhigh hlow hutf8 h
  · set a := (c.toNat - 0x10000) / 1024 with ha
    set b := (c.toNat - 0x10000) % 1024 with hb
    have hpair := surrogatePair_eq (a := a) (b := b) (by omega) (by omega)
    have hcode : 0x10000 + (a * 1024 + b) = c.toNat := by omega
    have hfirst := hexQuad_quadText (n := 0xD800 + a) (by omega)
    have hsecond := hexQuad_quadText (n := 0xDC00 + b) (by omega)
    have hhigh : HighSurrogate (0xD800 + a) := ⟨by omega, by omega⟩
    have hlow : LowSurrogate (0xDC00 + b) := ⟨by omega, by omega⟩
    rw [← hcode, ← hpair] at hutf8
    rw [← hfirst] at hhigh hutf8
    rw [← hsecond] at hlow hutf8
    exact .pair rfl rfl hhigh hlow hutf8 h

theorem quadText_plain (n : Nat) : ∀ c ∈ quadText n, c ≠ 34 ∧ c ≠ 92 := by
  have hdigit (m : Nat) := hexDigit_plain (m % 16) (Nat.mod_lt _ (by decide))
  simp [quadText, hdigit]

theorem closed_append {a s : List UInt8} {marks : List Bool} (ha : ∀ c ∈ a, c ≠ 34 ∧ c ≠ 92)
    (h : Closed s marks) : ∃ marks', Closed (a ++ s) marks' := by
  induction a with
  | nil => exact ⟨marks, h⟩
  | cons c a ih =>
      rw [List.forall_mem_cons] at ha
      obtain ⟨marks', hclosed⟩ := ih ha.2
      exact ⟨_, .plain ha.1.1 ha.1.2 hclosed⟩

theorem closed_unicodeLiteral (c : Char) {s : List UInt8} {marks : List Bool}
    (h : Closed s marks) : ∃ marks', Closed (unicodeLiteral c ++ s) marks' := by
  unfold unicodeLiteral
  split_ifs
  · obtain ⟨_, hquad⟩ := closed_append (quadText_plain c.toNat) h
    exact ⟨_, .escape hquad⟩
  · obtain ⟨_, hlow⟩ := closed_append (quadText_plain (0xDC00 + (c.toNat - 0x10000) % 1024)) h
    obtain ⟨_, hhigh⟩ := closed_append (quadText_plain (0xD800 + (c.toNat - 0x10000) / 1024))
      (Closed.escape hlow)
    rw [List.cons_append, List.cons_append, List.append_assoc]
    exact ⟨_, .escape hhigh⟩

theorem zero_notMem_unicodeLiteral (c : Char) : 0 ∉ unicodeLiteral c := by
  have hdigit (m : Nat) : 0 ≠ hexDigit (m % 16) :=
    (hexDigit_ne_zero _ (Nat.mod_lt _ (by decide))).symm
  unfold unicodeLiteral
  split_ifs <;> simp [quadText, hdigit]

end Quads

/-- A string that is written with a `\u` literal for each character is read as the UTF-8
encoding of the characters. -/
theorem cJsonParse_unicodeLiterals (chars : List Char) :
    cJsonParse (34 :: (chars.flatMap unicodeLiteral ++ [34])) =
      some (.string (chars.flatMap String.utf8EncodeChar)) := by
  have hraw : (∃ marks, Closed (chars.flatMap unicodeLiteral) marks) ∧
      Decodes (chars.flatMap unicodeLiteral) (chars.flatMap String.utf8EncodeChar) := by
    induction chars with
    | nil => exact ⟨⟨_, .nil⟩, .nil⟩
    | cons c chars ih =>
        obtain ⟨⟨marks, hclosed⟩, hdecodes⟩ := ih
        rw [List.flatMap_cons, List.flatMap_cons]
        exact ⟨closed_unicodeLiteral c hclosed, decodes_unicodeLiteral c hdecodes⟩
  obtain ⟨⟨marks, hclosed⟩, hdecodes⟩ := hraw
  refine cJsonParse_of_derives ?_ (.string ⟨_, marks, ?_, hclosed, hdecodes⟩) (t := [0])
  · simp [zero_notMem_unicodeLiteral]
  · simp

end CJson
