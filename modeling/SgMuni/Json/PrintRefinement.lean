import SgMuni.Json.PrintBuffer
import SgMuni.Json.RoundTrip

/-!
# The buffer holds the text

Whatever the allocator does, the printer stays inside of its block and ends with the text of
the item, or with nothing and no block left. It gives up only where the allocator refused
a call or where the text is longer than the sizes allow.
-/

namespace CJson

open C

/-- The text of an item `depth` levels inside of the one that is printed. -/
def textOf (format : Bool) (depth : Nat) (item : CJson) : List UInt8 :=
  if format then printFormatted depth item else print item

def elementsText (format : Bool) (depth : Nat) (child : List CJson) : List UInt8 :=
  if format then printFormattedArray depth child else printArray child

def membersText (format : Bool) (depth : Nat) (child : List (List UInt8 × CJson)) : List UInt8 :=
  if format then printFormattedObject depth child else printObject child

namespace Printbuffer

variable {memory : Allocator} {p : Printbuffer} {text more : List UInt8} {size depth : Nat}
  {format : Bool}

/-- The allocator refuses one of its calls. -/
def Refuses (memory : Allocator) : Prop := ∃ call, memory call = none

/-- The buffer is the only block, or it was freed. -/
def Owned (p : Printbuffer) : Prop := p.live = if p.buffer.isSome then 1 else 0

/-- The buffer holds `text` up to the offset and `more` behind it, and has room left. -/
def Holds (p : Printbuffer) (text more : List UInt8) : Prop :=
  ∃ rest, rest ≠ [] ∧ p.buffer = some (text ++ (more ++ rest)) ∧ p.offset = text.length ∧
    p.length = (text ++ (more ++ rest)).length ∧ p.live = 1

/-- The function ends, and its buffer is as stated, or it gave up for a reason. -/
def Meets (memory : Allocator) (size : Nat) (post : Printbuffer → Prop) :
    Outcome (Bool × Printbuffer) → Prop
  | .ok (true, p) => post p
  | .ok (false, p) => p.Owned ∧ (Refuses memory ∨ maxSize < size + 2)
  | _ => False

theorem Meets.mono {size' : Nat} {post post' : Printbuffer → Prop}
    {x : Outcome (Bool × Printbuffer)}
    (h : Meets memory size post x) (hsize : size ≤ size') (hpost : ∀ p, post p → post' p) :
    Meets memory size' post' x := by
  match x, h with
  | .ok (true, p), h => exact hpost p h
  | .ok (false, p), h => exact ⟨h.1, h.2.imp_right fun hlt => by omega⟩

theorem Meets.andThen {post post' : Printbuffer → Prop} {x : Outcome (Bool × Printbuffer)}
    {f : Printbuffer → Outcome (Bool × Printbuffer)} (h : Meets memory size post x)
    (hf : ∀ p, post p → Meets memory size post' (f p)) :
    Meets memory size post' (andThen x f) := by
  match x, h with
  | .ok (true, p), h => exact hf p h
  | .ok (false, p), h => exact h

/-- The bytes behind the offset may be forgotten. -/
theorem Holds.weaken (h : Holds p text more) : Holds p text [] := by
  obtain ⟨rest, hrest, hbuffer, hoffset, hlength, hlive⟩ := h
  exact ⟨more ++ rest, by simp [hrest], hbuffer, hoffset, hlength, hlive⟩

theorem store_eq {a bytes rest : List UInt8} {n : Nat} (hbuffer : p.buffer = some (a ++ rest))
    (hn : n = a.length) (hlen : bytes.length ≤ rest.length) :
    p.store n bytes =
      .ok { p with buffer := some (a ++ (bytes ++ rest.drop bytes.length)) } := by
  rw [store, hbuffer]
  simp only [store_append hn hlen, Outcome.ok_bind]

/-- Room for bytes that still fit into a text of some size, or a reason to give up. -/
theorem ensure_spec (h : Holds p text []) {needed : Nat}
    (hneeded : text.length + needed ≤ size + 1) :
    (∃ p' rest, p.ensure memory needed = (true, p') ∧ needed < rest.length ∧
      p'.buffer = some (text ++ rest) ∧ p'.offset = text.length ∧
      p'.length = (text ++ rest).length ∧ p'.live = 1 ∧ p'.format = p.format ∧
      p'.depth = p.depth) ∨
    ∃ p', p.ensure memory needed = (false, p') ∧ p'.Owned ∧
      (Refuses memory ∨ maxSize < size + 2) := by
  obtain ⟨rest, hrest, hbuffer, hoffset, hlength, hlive⟩ := h
  have hpos := List.length_pos_iff.mpr hrest
  rw [List.nil_append] at hbuffer hlength
  have hlen := hlength
  rw [List.length_append] at hlen
  have howned : p.Owned := by rw [Owned, hbuffer, hlive]; rfl
  simp only [ensure, hbuffer]
  rw [if_neg (by omega)]
  by_cases hmax : maxSize < needed
  · rw [if_pos hmax]
    exact .inr ⟨p, rfl, howned, .inr (by omega)⟩
  rw [if_neg hmax]
  by_cases hfits : needed + (p.offset + 1) ≤ p.length
  · rw [if_pos hfits]
    exact .inl ⟨p, rest, rfl, by omega, hbuffer, hoffset, hlength, hlive, rfl, rfl⟩
  rw [if_neg hfits]
  by_cases hmax' : maxSize < needed + (p.offset + 1)
  · rw [if_pos hmax']
    exact .inr ⟨p, rfl, howned, .inr (by omega)⟩
  rw [if_neg hmax']
  set newsize := if maxSize / 2 < needed + (p.offset + 1) then maxSize
    else (needed + (p.offset + 1)) * 2 with hnewsize
  have hgrow : needed + (p.offset + 1) ≤ newsize := by
    rw [hnewsize]
    split_ifs <;> omega
  cases hrealloc : realloc memory p.allocs (text ++ rest) newsize with
  | none =>
      exact .inr ⟨_, rfl, by simp [Owned, hlive], .inl ⟨_, realloc_eq_none.mp hrealloc⟩⟩
  | some block =>
      obtain ⟨fresh, rfl, hfresh⟩ := realloc_grow (by omega) hrealloc
      refine .inl ⟨_, rest ++ fresh, rfl, ?_, ?_, hoffset, ?_, hlive, rfl, rfl⟩
      · rw [List.length_append]
        omega
      · rw [List.append_assoc]
      · simp only [List.length_append]
        omega

/-- The buffer holds `text`, at some depth of a text in some format. -/
structure At (format : Bool) (depth : Nat) (text more : List UInt8) (p : Printbuffer) : Prop where
  holds : Holds p text more
  format_eq : p.format = format
  depth_eq : p.depth = depth

theorem At.weaken (h : At format depth text more p) : At format depth text [] p :=
  ⟨h.holds.weaken, h.format_eq, h.depth_eq⟩

/-- The text `s` and its terminator stand behind `text`; the offset is on the way to its end. -/
def Printed (format : Bool) (depth : Nat) (text s : List UInt8) (p : Printbuffer) : Prop :=
  ∃ a b, s = a ++ b ∧ At format depth (text ++ a) (b ++ [0]) p

/-- Of the bytes that are stored, the offset moves behind the first ones. -/
theorem meets_emit (h : At format depth text [] p) {needed advance : Nat} {bytes : List UInt8}
    (a b : List UInt8) (hsplit : bytes = a ++ b) (hadvance : advance = a.length)
    (hbytes : bytes.length ≤ needed) (hneeded : text.length + needed ≤ size + 1) :
    Meets memory size (At format depth (text ++ a) b) (emit memory needed bytes advance p) := by
  subst hsplit hadvance
  rw [emit]
  rcases ensure_spec h.holds hneeded with
    ⟨p', rest, hensure, hroom, hbuffer, hoffset, hlength, hlive, hformat, hdepth⟩ |
      ⟨p', hensure, hfail⟩
  · rw [hensure]
    simp only [store_eq hbuffer hoffset (hbytes.trans hroom.le), Outcome.ok_bind]
    have hrest : rest.drop (a ++ b).length ≠ [] := by
      rw [Ne, List.drop_eq_nil_iff]
      omega
    refine ⟨⟨rest.drop (a ++ b).length, hrest, ?_, ?_, ?_, hlive⟩, hformat.trans h.format_eq,
      hdepth.trans h.depth_eq⟩
    · simp only [List.append_assoc]
    · simp only [List.length_append, hoffset]
    · rw [hlength]
      simp only [List.length_append, List.length_drop] at hbytes ⊢
      omega
  · rw [hensure]
    exact hfail

theorem meets_updateOffset {s r : List UInt8} (h : At format depth text (s ++ 0 :: r) p)
    (hs : 0 ∉ s) : Meets memory size (At format depth (text ++ s) (0 :: r)) p.updateOffset := by
  obtain ⟨⟨rest, hrest, hbuffer, hoffset, hlength, hlive⟩, hformat, hdepth⟩ := h
  have hlen : strlen (text ++ (s ++ 0 :: r ++ rest)) p.offset = .ok s.length := by
    rw [List.append_assoc, List.cons_append]
    exact strlen_append hoffset hs
  rw [updateOffset, hbuffer]
  simp only [hlen, Outcome.ok_bind]
  refine ⟨⟨rest, hrest, ?_, ?_, ?_, hlive⟩, hformat, hdepth⟩
  · simp only [List.append_assoc]
  · rw [List.length_append, hoffset]
  · rw [hlength]
    simp only [List.append_assoc]

/-- A function that prints, and the move of the offset behind what it printed. -/
theorem Meets.update {s : List UInt8} {x : Outcome (Bool × Printbuffer)}
    {f : Printbuffer → Outcome (Bool × Printbuffer)} {post : Printbuffer → Prop}
    (h : Meets memory size (Printed format depth text s) x) (hs : 0 ∉ s)
    (hf : ∀ p, At format depth (text ++ s) [] p → Meets memory size post (f p)) :
    Meets memory size post
      (Printbuffer.andThen x fun p => Printbuffer.andThen p.updateOffset f) := by
  refine h.andThen fun p' hp' => ?_
  obtain ⟨a, b, rfl, hat⟩ := hp'
  have hb : 0 ∉ b := fun hmem => hs (List.mem_append_right a hmem)
  refine (meets_updateOffset hat hb).andThen fun p'' hp'' => hf p'' ?_
  rw [← List.append_assoc]
  exact hp''.weaken

/-- A piece of text with its terminator, from which the offset does not move. -/
theorem meets_emit_value (h : At format depth text [] p) {needed : Nat} {bytes : List UInt8}
    (s : List UInt8) (hbytes : bytes = s ++ [0]) (hneeded : s.length + 1 = needed)
    (hsize : text.length + s.length ≤ size) :
    Meets memory size (Printed format depth text s) (emit memory needed bytes 0 p) := by
  refine (meets_emit h [] (s ++ [0]) hbytes rfl ?_ (by omega)).mono le_rfl
    fun p' hp' => ⟨[], s, rfl, hp'⟩
  rw [hbytes, List.length_append, List.length_singleton]
  exact hneeded.le

/-- The end of a container, whose depth ends with it. -/
theorem Printed.close {s s' : List UInt8} (h : Printed format (depth + 1) (text ++ s) s' p) :
    Printed format depth text (s ++ s') { p with depth := p.depth - 1 } := by
  obtain ⟨a, b, rfl, hat⟩ := h
  refine ⟨s ++ a, b, (List.append_assoc _ _ _).symm, ?_, hat.format_eq, ?_⟩
  · rw [← List.append_assoc]
    exact hat.holds
  · simp only [hat.depth_eq, Nat.add_sub_cancel]

theorem meets_printNumber (h : At format depth text [] p) {n : Int} (hlo : intMin ≤ n)
    (hhi : n ≤ intMax) (d : Double) (hsize : text.length + (numberBuffer n d).length ≤ size) :
    Meets memory size (Printed format depth text (numberBuffer n d))
      (printNumber memory n d p) := by
  have hshort := length_numberBuffer_le hlo hhi d
  rw [printNumber, if_neg (by omega)]
  refine (meets_emit h (numberBuffer n d) [0] rfl rfl (by simp) (by omega)).mono le_rfl
    fun p' hp' => ⟨numberBuffer n d, [], (List.append_nil _).symm, hp'⟩

section Strings

theorem length_escape (c : UInt8) :
    (escape c).length = 1 + escapeCharacters c ∧ (escapeCharacters c = 0 → escape c = [c]) := by
  have hall : ∀ n < 256, (escape (UInt8.ofNat n)).length = 1 + escapeCharacters (UInt8.ofNat n) ∧
      (escapeCharacters (UInt8.ofNat n) = 0 → escape (UInt8.ofNat n) = [UInt8.ofNat n]) := by
    decide +kernel
  have hc := hall c.toNat c.toNat_lt
  rwa [UInt8.ofNat_toNat] at hc

theorem length_flatMap_escape (input : List UInt8) :
    (input.flatMap escape).length = input.length + (input.map escapeCharacters).sum := by
  induction input with
  | nil => rfl
  | cons c input ih =>
      rw [List.flatMap_cons, List.length_append, (length_escape c).1, ih, List.length_cons,
        List.map_cons, List.sum_cons]
      omega

/-- Without additional characters the text is the input. -/
theorem flatMap_escape_of_sum {input : List UInt8} (h : (input.map escapeCharacters).sum = 0) :
    input.flatMap escape = input := by
  induction input with
  | nil => rfl
  | cons c input ih =>
      rw [List.map_cons, List.sum_cons, Nat.add_eq_zero_iff] at h
      rw [List.flatMap_cons, (length_escape c).2 h.1, ih h.2]
      rfl

/-- The loop over the input; the terminator of `sprintf` stays inside of the block. -/
theorem escapeLoop_spec (input a : List UInt8) {rest : List UInt8}
    (hbuffer : p.buffer = some (a ++ rest)) (hroom : (input.flatMap escape).length < rest.length) :
    ∃ rest', rest'.length + (input.flatMap escape).length = rest.length ∧
      escapeLoop input a.length p =
        .ok { p with buffer := some (a ++ (input.flatMap escape ++ rest')) } := by
  induction input generalizing p a rest with
  | nil => exact ⟨rest, rfl, by rw [escapeLoop, List.flatMap_nil, List.nil_append, ← hbuffer]⟩
  | cons c input ih =>
      rw [List.flatMap_cons, List.length_append] at hroom
      set zero : List UInt8 := if escapeCharacters c = 5 then [0] else [] with hzero
      have hlen : (escape c ++ zero).length ≤ rest.length := by
        rw [List.length_append, hzero]
        split_ifs <;> simp <;> omega
      set behind := zero ++ rest.drop (escape c ++ zero).length with hbehind
      have hstore : p.store a.length (escape c ++ zero) =
          .ok { p with buffer := some ((a ++ escape c) ++ behind) } := by
        rw [store_eq hbuffer rfl hlen, hbehind, List.append_assoc, List.append_assoc]
      have hbehindlen : behind.length + (escape c).length = rest.length := by
        rw [List.length_append] at hlen
        rw [hbehind, List.length_append, List.length_drop, List.length_append]
        omega
      obtain ⟨rest', hrest', hloop⟩ :=
        ih (p := { p with buffer := some ((a ++ escape c) ++ behind) }) (a ++ escape c) rfl
          (by omega)
      refine ⟨rest', ?_, ?_⟩
      · rw [List.flatMap_cons, List.length_append]
        omega
      · rw [escapeLoop, hstore, Outcome.ok_bind, ← List.length_append, hloop, List.flatMap_cons]
        simp only [List.append_assoc]

/-- Both ways to fill the block give the escaped text. -/
theorem fill_spec (input a : List UInt8) {rest : List UInt8}
    (hbuffer : p.buffer = some (a ++ rest)) (hroom : (input.flatMap escape).length < rest.length) :
    ∃ rest', rest'.length + (input.flatMap escape).length = rest.length ∧
      (if (input.map escapeCharacters).sum = 0 then p.store a.length input
        else escapeLoop input a.length p) =
        .ok { p with buffer := some (a ++ (input.flatMap escape ++ rest')) } := by
  by_cases hsum : (input.map escapeCharacters).sum = 0
  · rw [flatMap_escape_of_sum hsum] at hroom ⊢
    refine ⟨rest.drop input.length, by rw [List.length_drop]; omega, ?_⟩
    rw [if_pos hsum, store_eq hbuffer rfl hroom.le]
  · rw [if_neg hsum]
    exact escapeLoop_spec input a hbuffer hroom

theorem meets_printStringPtr (h : At format depth text [] p) (input : List UInt8)
    (hsize : text.length + (printString input).length ≤ size) :
    Meets memory size (Printed format depth text (printString input))
      (printStringPtr memory input p) := by
  rw [printStringPtr]
  unfold printString at hsize ⊢
  set v := cString input
  have hbody := length_flatMap_escape v
  rw [List.cons_append, List.length_cons, List.length_append, List.length_singleton] at hsize
  rcases ensure_spec h.holds
    (show text.length + (v.length + (v.map escapeCharacters).sum + 3) ≤ size + 1 by omega) with
    ⟨p', rest, hensure, hroom, hbuffer, hoffset, hlength, hlive, hformat, hdepth⟩ |
      ⟨p', hensure, hfail⟩
  · have hquote : p'.store p'.offset [34] =
        .ok { p' with buffer := some ((text ++ [34]) ++ rest.drop 1) } := by
      rw [store_eq hbuffer hoffset (by rw [List.length_singleton]; omega), List.append_assoc]
      rfl
    have hstart : p'.offset + 1 = (text ++ [34]).length := by
      rw [hoffset, List.length_append, List.length_singleton]
    obtain ⟨rest', hrest', hfill⟩ := fill_spec
      (p := { p' with buffer := some ((text ++ [34]) ++ rest.drop 1) }) v (text ++ [34]) rfl
      (by rw [List.length_drop]; omega)
    rw [List.length_drop] at hrest'
    have hend : p'.offset + (v.length + (v.map escapeCharacters).sum + 1) =
        (text ++ (34 :: v.flatMap escape)).length := by
      rw [hoffset, List.length_append, List.length_cons]
      omega
    have hclose : ({ p' with
        buffer := some ((text ++ [34]) ++ (v.flatMap escape ++ rest')) } : Printbuffer).store
          (p'.offset + (v.length + (v.map escapeCharacters).sum + 1)) [34, 0] = .ok { p' with
        buffer := some ((text ++ (34 :: v.flatMap escape)) ++ ([34, 0] ++ rest'.drop 2)) } :=
      store_eq (by simp) hend (by rw [List.length_cons, List.length_singleton]; omega)
    rw [hensure]
    simp only [hquote, Outcome.ok_bind, hstart, hfill, hclose]
    refine ⟨[], 34 :: v.flatMap escape ++ [34], rfl, ⟨rest'.drop 2, ?_, ?_, ?_, ?_, hlive⟩,
      hformat.trans h.format_eq, hdepth.trans h.depth_eq⟩
    · rw [Ne, List.drop_eq_nil_iff]
      omega
    · simp
    · rw [List.append_nil, hoffset]
    · rw [hlength]
      simp only [List.cons_append, List.length_append, List.length_cons, List.length_drop,
        List.length_nil]
      omega
  · rw [hensure]
    exact hfail

end Strings

section Texts

variable (format : Bool) (depth : Nat)

theorem textOf_array (child : List CJson) : textOf format depth (.array child) =
    91 :: (elementsText format (depth + 1) child ++ [93]) := by
  cases format <;> rfl

theorem textOf_object (child : List (List UInt8 × CJson)) :
    textOf format depth (.object child) = (123 :: if format then [10] else []) ++
      (membersText format (depth + 1) child ++
        ((if format then List.replicate depth 9 else []) ++ [125])) := by
  cases format <;> simp [textOf, membersText, CJson.print, printFormatted]

theorem elementsText_cons (item : CJson) (next : List CJson) :
    elementsText format depth (item :: next) = textOf format depth item ++
      ((if next.isEmpty then [] else 44 :: if format then [32] else []) ++
        elementsText format depth next) := by
  cases next <;> cases format <;>
    simp [textOf, elementsText, CJson.printArray, printFormattedArray]

theorem membersText_cons (name : List UInt8) (item : CJson) (next : List (List UInt8 × CJson)) :
    membersText format depth ((name, item) :: next) =
      (if format then List.replicate depth 9 else []) ++ (printString name ++
        ((58 :: if format then [9] else []) ++ (textOf format depth item ++
          (((if next.isEmpty then [] else [44]) ++ if format then [10] else []) ++
            membersText format depth next)))) := by
  cases next <;> cases format <;>
    simp [textOf, membersText, CJson.printObject, CJson.printField, printFormattedObject,
      printFormattedField]

theorem zero_notMem_textOf (item : CJson) : 0 ∉ textOf format depth item := by
  cases format with
  | false => exact zero_notMem_print item
  | true => exact zero_notMem_printFormatted item depth

end Texts

mutual

/-- A value is printed behind the text that the buffer holds. -/
theorem meets_printValue (item : CJson) {p : Printbuffer} {text : List UInt8} {depth : Nat}
    (hitem : Ints item) (h : At format depth text [] p)
    (hsize : text.length + (textOf format depth item).length ≤ size) :
    Meets memory size (Printed format depth text (textOf format depth item))
      (printValue memory item p) := by
  cases item with
  | null =>
      have htext : textOf format depth .null = nullText := by cases format <;> rfl
      rw [htext] at hsize ⊢
      exact meets_emit_value h nullText rfl rfl hsize
  | bool value =>
      have htext : textOf format depth (.bool value) = boolText value := by cases format <;> rfl
      rw [htext] at hsize ⊢
      cases value with
      | false => exact meets_emit_value h (boolText false) rfl rfl hsize
      | true => exact meets_emit_value h (boolText true) rfl rfl hsize
  | number n d =>
      have htext : textOf format depth (.number n d) = numberBuffer n d := by cases format <;> rfl
      rw [htext] at hsize ⊢
      exact meets_printNumber h hitem.1 hitem.2 d hsize
  | string v =>
      have htext : textOf format depth (.string v) = printString v := by cases format <;> rfl
      rw [htext] at hsize ⊢
      exact meets_printStringPtr h v hsize
  | array child =>
      rw [textOf_array] at hsize ⊢
      simp only [List.length_cons, List.length_append, List.length_nil] at hsize
      rw [printValue]
      refine (meets_emit h [91] [] rfl rfl (show [91].length ≤ 1 from le_rfl) (by omega)).andThen
        fun p₁ h₁ => ?_
      have hdeep : At format (depth + 1) (text ++ [91]) [] { p₁ with depth := p₁.depth + 1 } :=
        ⟨h₁.holds, h₁.format_eq, congrArg (· + 1) h₁.depth_eq⟩
      refine (meets_printElements child hitem hdeep ?_).andThen fun p₂ h₂ => ?_
      · rw [List.length_append, List.length_singleton]
        omega
      refine (meets_emit_value h₂ [93] rfl rfl ?_).andThen fun p₃ h₃ => ?_
      · simp only [List.length_append, List.length_singleton]
        omega
      rw [List.append_assoc] at h₃
      exact h₃.close
  | object child =>
      rw [textOf_object] at hsize ⊢
      rw [printValue, h.format_eq]
      set opening : List UInt8 := 123 :: if format = true then [10] else [] with hopening
      have hlen : (if format = true then 2 else 1) = opening.length := by cases format <;> rfl
      rw [hlen]
      simp only [List.length_append, List.length_singleton] at hsize
      refine (meets_emit h opening [] (List.append_nil _).symm rfl (Nat.le_succ _)
        (by omega)).andThen fun p₁ h₁ => ?_
      have hdeep : At format (depth + 1) (text ++ opening) [] { p₁ with depth := p₁.depth + 1 } :=
        ⟨h₁.holds, h₁.format_eq, congrArg (· + 1) h₁.depth_eq⟩
      refine (meets_printMembers child hitem hdeep ?_).andThen fun p₂ h₂ => ?_
      · rw [List.length_append]
        omega
      rw [h₂.format_eq, h₂.depth_eq, Nat.add_sub_cancel]
      set tabs : List UInt8 := if format = true then List.replicate depth 9 else [] with htabs
      have hneeded : (tabs ++ [125]).length + 1 =
          if format = true then depth + 1 + 1 else 2 := by
        cases format <;> simp [htabs]
      refine (meets_emit_value h₂ (tabs ++ [125]) (by simp) hneeded ?_).andThen fun p₃ h₃ => ?_
      · simp only [List.length_append, List.length_singleton]
        omega
      rw [List.append_assoc] at h₃
      have hclose := h₃.close
      rwa [List.append_assoc] at hclose

theorem meets_printElements (child : List CJson) {p : Printbuffer} {text : List UInt8}
    {depth : Nat} (hchild : IntsArray child) (h : At format depth text [] p)
    (hsize : text.length + (elementsText format depth child).length ≤ size) :
    Meets memory size (At format depth (text ++ elementsText format depth child) [])
      (printElements memory child p) := by
  cases child with
  | nil =>
      have htext : elementsText format depth [] = [] := by cases format <;> rfl
      rw [htext, List.append_nil, printElements]
      exact h
  | cons item next =>
      rw [elementsText_cons] at hsize ⊢
      set comma : List UInt8 := if next.isEmpty = true then []
        else 44 :: if format = true then [32] else [] with hcomma
      simp only [List.length_append] at hsize
      rw [printElements]
      refine (meets_printValue item hchild.1 h (by omega)).update (zero_notMem_textOf _ _ _)
        fun p₁ h₁ => ?_
      have hseparator : Meets memory size
          (At format depth (text ++ textOf format depth item ++ comma) [])
          (if next.isEmpty = true then .ok (true, p₁) else
            emit memory ((if p₁.format = true then 2 else 1) + 1)
              (44 :: (if p₁.format = true then [32] else []) ++ [0])
              (if p₁.format = true then 2 else 1) p₁) := by
        rw [h₁.format_eq]
        by_cases hlast : next.isEmpty = true
        · rw [if_pos hlast, hcomma, if_pos hlast, List.append_nil]
          exact h₁
        · rw [hcomma, if_neg hlast] at hsize ⊢
          rw [if_neg hlast]
          refine (meets_emit h₁ _ [0] rfl (by cases format <;> rfl)
            (by cases format <;> exact le_rfl) ?_).mono le_rfl fun p₂ h₂ => h₂.weaken
          rw [List.length_append]
          cases format <;> simp at hsize ⊢ <;> omega
      refine hseparator.andThen fun p₂ h₂ => ?_
      have hnext := meets_printElements next hchild.2 h₂ (by
        simp only [List.length_append]
        omega)
      rwa [List.append_assoc, List.append_assoc] at hnext

theorem meets_printMembers (child : List (List UInt8 × CJson)) {p : Printbuffer}
    {text : List UInt8} {depth : Nat} (hchild : IntsObject child)
    (h : At format depth text [] p)
    (hsize : text.length + (membersText format depth child).length ≤ size) :
    Meets memory size (At format depth (text ++ membersText format depth child) [])
      (printMembers memory child p) := by
  cases child with
  | nil =>
      have htext : membersText format depth [] = [] := by cases format <;> rfl
      rw [htext, List.append_nil, printMembers]
      exact h
  | cons field next =>
      obtain ⟨name, item⟩ := field
      obtain ⟨hitem, hnext⟩ := hchild
      rw [membersText_cons] at hsize ⊢
      set tabs : List UInt8 := if format = true then List.replicate depth 9 else [] with htabs
      set colon : List UInt8 := 58 :: if format = true then [9] else [] with hcolon
      set comma : List UInt8 := (if next.isEmpty = true then [] else [44]) ++
        if format = true then [10] else [] with hcomma
      simp only [List.length_append] at hsize
      rw [printMembers]
      have hindent : Meets memory size (At format depth (text ++ tabs) [])
          (if p.format = true then emit memory p.depth (List.replicate p.depth 9) p.depth p
            else .ok (true, p)) := by
        rw [h.format_eq, h.depth_eq]
        by_cases hformat : format = true
        · rw [htabs, if_pos hformat] at hsize ⊢
          rw [if_pos hformat]
          rw [List.length_replicate] at hsize
          exact meets_emit h _ [] (List.append_nil _).symm List.length_replicate.symm
            List.length_replicate.le (by omega)
        · rw [htabs, if_neg hformat, if_neg hformat, List.append_nil]
          exact h
      refine hindent.andThen fun p₁ h₁ => ?_
      refine (meets_printStringPtr h₁ name ?_).update (zero_notMem_printString name)
        fun p₂ h₂ => ?_
      · rw [List.length_append]
        omega
      have hcolonlen : (if format = true then 2 else 1) = colon.length := by cases format <;> rfl
      dsimp only
      rw [h₂.format_eq, hcolonlen]
      refine (meets_emit h₂ colon [] (List.append_nil _).symm rfl le_rfl ?_).andThen
        fun p₃ h₃ => ?_
      · simp only [List.length_append]
        omega
      refine (meets_printValue item hitem h₃ ?_).update (zero_notMem_textOf _ _ _) fun p₄ h₄ => ?_
      · simp only [List.length_append]
        omega
      have hcommalen : (if format = true then 1 else 0) + (if next.isEmpty = true then 0 else 1) =
          comma.length := by
        cases format <;> cases next <;> rfl
      rw [h₄.format_eq, hcommalen]
      refine (meets_emit h₄ comma [0] rfl rfl (by simp) ?_).andThen fun p₅ h₅ => ?_
      · simp only [List.length_append]
        omega
      have hrest := meets_printMembers next hnext h₅.weaken (by
        simp only [List.length_append]
        omega)
      simpa only [List.append_assoc] using hrest

end

/-- The text that the two printers of the program give. -/
theorem textOf_zero (format : Bool) (item : CJson) :
    textOf format 0 item = if format then cJsonPrint item else CJson.print item := rfl

/-- Behind the value the block is cut to the text, or freed. -/
theorem finish_spec {s : List UInt8} {x : Outcome (Bool × Printbuffer)}
    (h : Meets memory s.length (At format 0 s [0]) x) :
    x.bind (fun (done, p) => finish memory done p) = .ok (some (s ++ [0]), 1) ∨
      x.bind (fun (done, p) => finish memory done p) = .ok (none, 0) ∧
        (Refuses memory ∨ maxSize < s.length + 2) := by
  match x, h with
  | .ok (false, p), h =>
      refine .inr ⟨?_, h.2⟩
      have howned := h.1
      rw [Outcome.ok_bind]
      simp only [finish]
      rw [Owned] at howned
      cases hbuffer : p.buffer with
      | none =>
          rw [hbuffer] at howned
          simp [howned]
      | some buffer =>
          rw [hbuffer] at howned
          simp [howned]
  | .ok (true, p), h =>
      obtain ⟨rest, -, hbuffer, hoffset, -, hlive⟩ := h.holds
      have hsize : p.offset + 1 = (s ++ [0]).length := by
        rw [hoffset, List.length_append, List.length_singleton]
      rw [Outcome.ok_bind]
      simp only [finish, hbuffer, if_true, hsize, hlive, ← List.append_assoc]
      cases hprinted : realloc memory p.allocs (s ++ [0] ++ rest) (s ++ [0]).length with
      | none => exact .inr ⟨rfl, .inl ⟨_, realloc_eq_none.mp hprinted⟩⟩
      | some printed =>
          have hle := (List.prefix_append (s ++ [0]) rest).length_le
          rw [realloc_shrink hle hprinted, List.take_left]
          exact .inl rfl

theorem print_spec (memory : Allocator) (item : CJson) (format : Bool) (hitem : Ints item) :
    print memory item format = .ok (some (textOf format 0 item ++ [0]), 1) ∨
      print memory item format = .ok (none, 0) ∧
        (Refuses memory ∨ maxSize < (textOf format 0 item).length + 2) := by
  rw [print]
  cases hblock : malloc memory 0 256 with
  | none => exact .inr ⟨rfl, .inl ⟨0, malloc_eq_none.mp hblock⟩⟩
  | some block =>
      have hlen := length_malloc hblock
      have hstart : At format 0 [] [] ⟨some block, 256, 0, 0, format, 1, 1⟩ := by
        refine ⟨⟨block, ?_, rfl, rfl, ?_, rfl⟩, rfl, rfl⟩
        · rintro rfl
          cases hlen
        · exact hlen.symm
      have hprint : Meets memory (textOf format 0 item).length
          (At format 0 (textOf format 0 item) [0])
          (andThen (printValue memory item ⟨some block, 256, 0, 0, format, 1, 1⟩)
            updateOffset) := by
        refine (meets_printValue item hitem hstart (by simp)).andThen fun p hp => ?_
        obtain ⟨a, b, hsplit, hat⟩ := hp
        have hb : 0 ∉ b := fun hmem =>
          zero_notMem_textOf format 0 item (hsplit ▸ List.mem_append_right a hmem)
        rw [hsplit]
        exact meets_updateOffset hat hb
      exact finish_spec hprint

/-- `print` ends with the text of the item and one block, or with nothing and no block. It
gives up only where the allocator refused a call or the text is too long. -/
theorem print_refines (memory : Allocator) (item : CJson) (format : Bool) (hitem : Ints item) :
    print memory item format =
        .ok (some ((if format then cJsonPrint item else CJson.print item) ++ [0]), 1) ∨
      print memory item format = .ok (none, 0) ∧
        (Refuses memory ∨
          maxSize < (if format then cJsonPrint item else CJson.print item).length + 2) := by
  rw [← textOf_zero]
  exact print_spec memory item format hitem

/-- A list of a string and a number, printed by an allocator that refuses its second call. -/
theorem print_refines_list :
    let memory : Allocator := fun call => if call = 1 then none else some fun _ => 0
    let item : CJson := .array [.string [97, 10], .ofInt (-7)]
    print memory item true =
        .ok (some ([91, 34, 97, 92, 110, 34, 44, 32, 45, 55, 93] ++ [0]), 1) ∨
      print memory item true = .ok (none, 0) ∧
        (Refuses memory ∨ maxSize < [91, 34, 97, 92, 110, 34, 44, 32, 45, 55, 93].length + 2) := by
  intro memory item
  have hnumber : printFormatted 1 (.ofInt (-7)) = formatInt (-7) :=
    printFormatted_ofInt (by decide) (by decide) 1
  have htext : cJsonPrint item = [91, 34, 97, 92, 110, 34, 44, 32, 45, 55, 93] := by
    simp [item, cJsonPrint, printFormatted, printFormattedArray, printString, cString, escape,
      hnumber, formatInt, decimal]
  have hitem : Ints item := ⟨trivial, saturate_range _, trivial⟩
  have h := print_refines memory item true hitem
  rwa [if_pos rfl, htext] at h

end Printbuffer

end CJson
