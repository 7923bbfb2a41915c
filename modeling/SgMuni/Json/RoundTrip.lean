import SgMuni.C.Lines
import SgMuni.Json.Acceptance

/-!
# Reading what was printed

The text of an item, compact or formatted, is read back if its containers are nested as the
limit of the parser allows: its strings up to their first zero, and its numbers as `strtod`
reads what was printed.
-/

namespace CJson

open C

section Strings

variable {c : UInt8} {s v t : List UInt8} {marks : List Bool}

/-- The escapes of control characters are hexadecimal numbers of four digits. -/
theorem decode_control : ∀ n < 32,
    hexQuad [48, 48, hexDigit (n / 16), hexDigit (n % 16)] = n ∧ utf8 n = some [UInt8.ofNat n] := by
  decide

theorem hexDigit_plain : ∀ d < 16, hexDigit d ≠ 34 ∧ hexDigit d ≠ 92 := by
  decide

/-- A byte is printed as itself, as a letter behind a backslash or as a `\u` literal. -/
theorem escape_cases (c : UInt8) :
    escape c = [c] ∧ 31 < c.toNat ∧ c ≠ 34 ∧ c ≠ 92 ∨
      (∃ e, escape c = [92, e] ∧ simpleEscape e = some c) ∨
      escape c = [92, 117, 48, 48, hexDigit (c.toNat / 16), hexDigit (c.toNat % 16)] ∧
        c.toNat < 32 := by
  unfold escape
  split_ifs with hplain hback hquote hb hf hn hr ht
  · exact .inl ⟨rfl, hplain⟩
  · exact .inr (.inl ⟨_, rfl, by rw [hback]; rfl⟩)
  · exact .inr (.inl ⟨_, rfl, by rw [hquote]; rfl⟩)
  · exact .inr (.inl ⟨_, rfl, by rw [hb]; rfl⟩)
  · exact .inr (.inl ⟨_, rfl, by rw [hf]; rfl⟩)
  · exact .inr (.inl ⟨_, rfl, by rw [hn]; rfl⟩)
  · exact .inr (.inl ⟨_, rfl, by rw [hr]; rfl⟩)
  · exact .inr (.inl ⟨_, rfl, by rw [ht]; rfl⟩)
  · refine .inr (.inr ⟨rfl, ?_⟩)
    by_contra hle
    exact hplain ⟨by omega, hquote, hback⟩

theorem closed_escape (c : UInt8) (h : Closed s marks) :
    ∃ marks', Closed (escape c ++ s) marks' := by
  rcases escape_cases c with ⟨heq, -, hquote, hback⟩ | ⟨e, heq, -⟩ | ⟨heq, hlt⟩
  · rw [heq]
    exact ⟨_, .plain hquote hback h⟩
  · rw [heq]
    exact ⟨_, .escape h⟩
  · have hhigh := hexDigit_plain (c.toNat / 16) (by omega)
    have hlow := hexDigit_plain (c.toNat % 16) (by omega)
    rw [heq]
    exact ⟨_, .escape (.plain (by decide) (by decide) (.plain (by decide) (by decide)
      (.plain hhigh.1 hhigh.2 (.plain hlow.1 hlow.2 h))))⟩

theorem decodes_escape (c : UInt8) (h : Decodes s v) : Decodes (escape c ++ s) (c :: v) := by
  rcases escape_cases c with ⟨heq, -, -, hback⟩ | ⟨e, heq, he⟩ | ⟨heq, hlt⟩
  · rw [heq]
    exact .plain hback h
  · rw [heq]
    exact .simple he h
  · obtain ⟨hquad, hutf8⟩ := decode_control c.toNat hlt
    rw [UInt8.ofNat_toNat] at hutf8
    have hhigh : ¬HighSurrogate c.toNat := fun hhigh => absurd hhigh.1 (by omega)
    have hlow : ¬LowSurrogate c.toNat := fun hlow => absurd hlow.1 (by omega)
    rw [← hquad] at hhigh hlow hutf8
    rw [heq]
    exact .unicode rfl hhigh hlow hutf8 h

theorem literal_printString (v t : List UInt8) : Literal (printString v ++ t) (cString v) t := by
  have hraw (v : List UInt8) :
      (∃ marks, Closed (v.flatMap escape) marks) ∧ Decodes (v.flatMap escape) v := by
    induction v with
    | nil => exact ⟨⟨_, .nil⟩, .nil⟩
    | cons c v ih =>
        obtain ⟨⟨marks, hclosed⟩, hdecodes⟩ := ih
        rw [List.flatMap_cons]
        exact ⟨closed_escape c hclosed, decodes_escape c hdecodes⟩
  obtain ⟨⟨marks, hclosed⟩, hdecodes⟩ := hraw (cString v)
  exact ⟨_, marks, by simp [printString], hclosed, hdecodes⟩

end Strings

section Numbers

variable {t : List UInt8}

/-- The bytes that are copied for a number that was printed. -/
theorem numberText_numeral (n : Numeral) (hlen : n.text.length ≤ 63) (ht : Stops t) :
    ∃ rest, numberText (n.text ++ t) = n.text ++ rest ∧ Stops rest := by
  have hbytes : ∀ c ∈ n.text, isNumberByte c = true := by
    intro c hc
    rw [isNumberByte, Bool.or_eq_true]
    have hmarks : ([43, 45, 46, 101] : List UInt8) ⊆ [43, 45, 46, 69, 101] := by simp
    exact (n.mem_text hc).imp_right fun hmark => decide_eq_true (hmarks hmark)
  refine ⟨(t.take (63 - n.text.length)).takeWhile isNumberByte, ?_, fun c hc => ?_⟩
  · rw [numberText, List.take_append, List.take_of_length_le hlen,
      List.takeWhile_append_of_pos hbytes]
  · cases t with
    | nil =>
        simp at hc
    | cons b t =>
        cases hk : 63 - n.text.length with
        | zero =>
            rw [hk] at hc
            simp at hc
        | succ k =>
            rw [hk, List.take_succ_cons, List.takeWhile_cons] at hc
            split_ifs at hc with hb
            · obtain rfl : b = c := by simpa using hc
              exact ht b rfl
            · simp at hc

theorem number_numeral (n : Numeral) (hlen : n.text.length ≤ 63) (ht : Stops t) :
    Number (n.text ++ t) (ofDouble (toDouble n.number)) t := by
  obtain ⟨rest, htext, hstops⟩ := numberText_numeral n hlen ht
  refine ⟨n.text, rest, n.number, htext, ?_, rfl, rfl, n.head_text t⟩
  rw [htext]
  exact n.strtod_text hstops

end Numbers

mutual

/-- How deep the containers of an item are nested. -/
def depth : CJson → Nat
  | .array child => depthArray child + 1
  | .object child => depthObject child + 1
  | _ => 0

def depthArray : List CJson → Nat
  | [] => 0
  | item :: rest => max (depth item) (depthArray rest)

def depthObject : List (List UInt8 × CJson) → Nat
  | [] => 0
  | (_, item) :: rest => max (depth item) (depthObject rest)

end

mutual

/-- Every `valueint` of an item is of type `int`. -/
def Ints : CJson → Prop
  | .number n _ => intMin ≤ n ∧ n ≤ intMax
  | .array child => IntsArray child
  | .object child => IntsObject child
  | _ => True

def IntsArray : List CJson → Prop
  | [] => True
  | item :: rest => Ints item ∧ IntsArray rest

def IntsObject : List (List UInt8 × CJson) → Prop
  | [] => True
  | (_, item) :: rest => Ints item ∧ IntsObject rest

end

/-- The item that `strtod` reads of what was printed for a number. -/
def readNumber (valueint : Int) (valuedouble : Double) : CJson :=
  match strtod (numberBuffer valueint valuedouble) with
  | some r => ofDouble (toDouble r.1)
  | none => .null

mutual

/-- What is read of the text of an item. -/
def readBack : CJson → CJson
  | .null => .null
  | .bool value => .bool value
  | .number n d => readNumber n d
  | .string s => .string (cString s)
  | .array child => .array (readBackArray child)
  | .object child => .object (readBackObject child)

def readBackArray : List CJson → List CJson
  | [] => []
  | item :: rest => readBack item :: readBackArray rest

def readBackObject : List (List UInt8 × CJson) → List (List UInt8 × CJson)
  | [] => []
  | (name, item) :: rest => (cString name, readBack item) :: readBackObject rest

end

section Parts

variable {n : Nat} {c : UInt8} {s s' s'' v t u w : List UInt8} {item : CJson}

/-- Behind a value comes a comma, a bracket or the end of a line. -/
theorem stops_cons (hc : c ∈ ([44, 93, 125, 10] : List UInt8)) : Stops (c :: t) := by
  rintro b hb
  obtain rfl : c = b := by simpa using hb
  simp only [List.mem_cons, List.not_mem_nil, or_false] at hc
  rcases hc with rfl | rfl | rfl | rfl <;> decide

theorem derives_number {k : Int} (hlo : intMin ≤ k) (hhi : k ≤ intMax) (d : Double)
    (ht : Stops t) : Derives n (numberBuffer k d ++ t) (.value (readNumber k d)) t := by
  cases d with
  | nan => exact .null
  | infinite negative => exact .null
  | finite d h =>
      obtain ⟨numeral, htext⟩ := exists_numeral k h
      have hlen := length_numberBuffer_le hlo hhi (.finite d h)
      have hread := numeral.strtod_text (s := []) (by simp [Stops])
      rw [List.append_nil] at hread
      rw [readNumber, htext, hread]
      exact .number (number_numeral numeral ((htext ▸ hlen).trans (by decide)) ht)

theorem Derives.one_element (value : Derives n s (.value item) t) :
    Derives n s (.elements [item]) t :=
  @Derives.lastElement n [] s [] t item spaces_nil value spaces_nil

theorem Derives.cons_element {next : List CJson} (value : Derives n s (.value item) (44 :: s'))
    (rest : Derives n s' (.elements next) t) : Derives n s (.elements (item :: next)) t :=
  @Derives.element n [] s [] s' t item next spaces_nil value spaces_nil rest

theorem Derives.one_member (name : Literal s v (58 :: (w ++ s'))) (space : Spaces w)
    (value : Derives n s' (.value item) (u ++ t)) (after : Spaces u) :
    Derives n s (.members [(v, item)]) t :=
  @Derives.lastMember n [] s v [] w s' u t item spaces_nil name spaces_nil space value after

theorem Derives.cons_member {next : List (List UInt8 × CJson)}
    (name : Literal s v (58 :: (w ++ s'))) (space : Spaces w)
    (value : Derives n s' (.value item) (44 :: s'')) (rest : Derives n s'' (.members next) t) :
    Derives n s (.members ((v, item) :: next)) t :=
  @Derives.member n [] s v [] w s' [] s'' t item next spaces_nil name spaces_nil space value
    spaces_nil rest

end Parts

section Compact

mutual

/-- The compact text of an item derives what is read of it. -/
theorem derives_print (item : CJson) {n : Nat} {t : List UInt8} (hdepth : depth item ≤ n)
    (hints : Ints item) (ht : ∀ k d, item = .number k d → Stops t) :
    Derives n (print item ++ t) (.value (readBack item)) t := by
  cases item with
  | null => exact .null
  | bool value => exact .bool value
  | number k d => exact derives_number hints.1 hints.2 d (ht k d rfl)
  | string s => exact .string (literal_printString s t)
  | array child =>
      obtain ⟨n, rfl⟩ : ∃ m, n = m + 1 := ⟨n - 1, by rw [depth] at hdepth; omega⟩
      rw [depth, Nat.add_le_add_iff_right] at hdepth
      by_cases hempty : child = []
      · subst hempty
        exact .emptyArray spaces_nil
      · rw [print, List.append_assoc, List.cons_append]
        exact .array (derives_printArray child hempty hdepth hints)
  | object child =>
      obtain ⟨n, rfl⟩ : ∃ m, n = m + 1 := ⟨n - 1, by rw [depth] at hdepth; omega⟩
      rw [depth, Nat.add_le_add_iff_right] at hdepth
      by_cases hempty : child = []
      · subst hempty
        exact .emptyObject spaces_nil
      · rw [print, List.append_assoc, List.cons_append]
        exact .object (derives_printObject child hempty hdepth hints)

theorem derives_printArray (child : List CJson) (hne : child ≠ []) {n : Nat} {t : List UInt8}
    (hdepth : depthArray child ≤ n) (hints : IntsArray child) :
    Derives n (printArray child ++ 93 :: t) (.elements (readBackArray child)) (93 :: t) := by
  cases child with
  | nil => exact absurd rfl hne
  | cons item rest =>
      rw [depthArray, max_le_iff] at hdepth
      have hlast {t : List UInt8} := derives_print item hdepth.1 hints.1 (t := t)
      by_cases hempty : rest = []
      · subst hempty
        exact .one_element (hlast fun _ _ _ => stops_cons (by decide))
      · have hrest := derives_printArray rest hempty hdepth.2 hints.2 (t := t)
        cases rest with
        | nil => exact absurd rfl hempty
        | cons next rest =>
            rw [printArray, List.append_assoc, List.cons_append]
            exact .cons_element (hlast fun _ _ _ => stops_cons (by decide)) hrest

theorem derives_printObject (child : List (List UInt8 × CJson)) (hne : child ≠ []) {n : Nat}
    {t : List UInt8} (hdepth : depthObject child ≤ n) (hints : IntsObject child) :
    Derives n (printObject child ++ 125 :: t) (.members (readBackObject child)) (125 :: t) := by
  cases child with
  | nil => exact absurd rfl hne
  | cons field rest =>
      obtain ⟨name, item⟩ := field
      rw [depthObject, max_le_iff] at hdepth
      have hlast {t : List UInt8} := derives_print item hdepth.1 hints.1 (t := t)
      by_cases hempty : rest = []
      · subst hempty
        rw [printObject, printField, List.append_assoc]
        exact .one_member (w := []) (u := []) (literal_printString name _) spaces_nil
          (hlast fun _ _ _ => stops_cons (by decide)) spaces_nil
      · have hrest := derives_printObject rest hempty hdepth.2 hints.2 (t := t)
        cases rest with
        | nil => exact absurd rfl hempty
        | cons next rest =>
            rw [printObject, printField, List.append_assoc, List.append_assoc, List.cons_append]
            exact .cons_member (w := []) (literal_printString name _) spaces_nil
              (hlast fun _ _ _ => stops_cons (by decide)) hrest

end

end Compact

section Formatted

theorem spaces_tabs (k : Nat) : Spaces (List.replicate k 9) := by
  intro c hc
  rw [List.eq_of_mem_replicate hc]
  decide

theorem spaces_singleton {c : UInt8} (hc : isSpace c = true) : Spaces [c] := by
  intro b hb
  rwa [List.mem_singleton.mp hb]

mutual

/-- The formatted text of an item derives what is read of it. -/
theorem derives_printFormatted (item : CJson) (k : Nat) {n : Nat} {t : List UInt8}
    (hdepth : depth item ≤ n) (hints : Ints item) (ht : Stops t) :
    Derives n (printFormatted k item ++ t) (.value (readBack item)) t := by
  cases item with
  | null => exact .null
  | bool value => exact .bool value
  | number j d => exact derives_number hints.1 hints.2 d ht
  | string s => exact .string (literal_printString s t)
  | array child =>
      obtain ⟨n, rfl⟩ : ∃ m, n = m + 1 := ⟨n - 1, by rw [depth] at hdepth; omega⟩
      rw [depth, Nat.add_le_add_iff_right] at hdepth
      by_cases hempty : child = []
      · subst hempty
        exact .emptyArray spaces_nil
      · rw [printFormatted, List.append_assoc, List.cons_append]
        exact .array (derives_printFormattedArray child hempty _ hdepth hints)
  | object child =>
      obtain ⟨n, rfl⟩ : ∃ m, n = m + 1 := ⟨n - 1, by rw [depth] at hdepth; omega⟩
      rw [depth, Nat.add_le_add_iff_right] at hdepth
      have hline : Spaces [10] := spaces_singleton (by decide)
      by_cases hempty : child = []
      · subst hempty
        have hspace : Spaces (10 :: List.replicate k 9) := hline.append (spaces_tabs k)
        have h := Derives.emptyObject (n := n) (t := t) hspace
        rw [printFormatted, printFormattedObject, readBack, readBackObject]
        simpa using h
      · have hmembers := derives_printFormattedObject child hempty (k + 1) k hdepth hints (t := t)
        have h := Derives.object (hmembers.space_members hline)
        rw [printFormatted, readBack]
        simpa using h

theorem derives_printFormattedArray (child : List CJson) (hne : child ≠ []) (k : Nat) {n : Nat}
    {t : List UInt8} (hdepth : depthArray child ≤ n) (hints : IntsArray child) :
    Derives n (printFormattedArray k child ++ 93 :: t) (.elements (readBackArray child))
      (93 :: t) := by
  cases child with
  | nil => exact absurd rfl hne
  | cons item rest =>
      rw [depthArray, max_le_iff] at hdepth
      have hlast {t : List UInt8} := derives_printFormatted item k hdepth.1 hints.1 (t := t)
      by_cases hempty : rest = []
      · subst hempty
        exact .one_element (hlast (stops_cons (by decide)))
      · have hrest := derives_printFormattedArray rest hempty k hdepth.2 hints.2 (t := t)
        have hspace := hrest.space_elements (spaces_singleton (c := 32) (by decide))
        cases rest with
        | nil => exact absurd rfl hempty
        | cons next rest =>
            rw [printFormattedArray, List.append_assoc, List.append_assoc]
            exact .cons_element (hlast (stops_cons (by decide))) hspace

/-- The members behind `k` tabs each, up to the bracket behind `j` tabs. -/
theorem derives_printFormattedObject (child : List (List UInt8 × CJson)) (hne : child ≠ [])
    (k j : Nat) {n : Nat} {t : List UInt8} (hdepth : depthObject child ≤ n)
    (hints : IntsObject child) :
    Derives n (printFormattedObject k child ++ (List.replicate j 9 ++ 125 :: t))
      (.members (readBackObject child)) (125 :: t) := by
  cases child with
  | nil => exact absurd rfl hne
  | cons field rest =>
      obtain ⟨name, item⟩ := field
      rw [depthObject, max_le_iff] at hdepth
      have hlast {t : List UInt8} := derives_printFormatted item k hdepth.1 hints.1 (t := t)
      have htab : Spaces [9] := spaces_singleton (by decide)
      by_cases hempty : rest = []
      · subst hempty
        have hline : Spaces (10 :: List.replicate j 9) :=
          (spaces_singleton (c := 10) (by decide)).append (spaces_tabs j)
        have h := (Derives.one_member (t := 125 :: t) (literal_printString name _) htab
          (hlast (stops_cons (by decide))) hline).space_members (spaces_tabs k)
        rw [printFormattedObject, printFormattedField, readBackObject, readBackObject]
        simpa using h
      · have hrest := (derives_printFormattedObject rest hempty k j hdepth.2 hints.2
          (t := t)).space_members (spaces_singleton (c := 10) (by decide))
        have h := (Derives.cons_member (literal_printString name _) htab
          (hlast (stops_cons (by decide))) hrest).space_members (spaces_tabs k)
        cases rest with
        | nil => exact absurd rfl hempty
        | cons next rest =>
            rw [printFormattedObject, printFormattedField, readBackObject]
            simpa using h

end

end Formatted

section Terminator

theorem hexDigit_ne_zero : ∀ d < 16, hexDigit d ≠ 0 := by
  decide

theorem zero_notMem_printString (v : List UInt8) : 0 ∉ printString v := by
  have hescape (c : UInt8) : 0 ∉ escape c := by
    rcases escape_cases c with ⟨heq, hplain, -⟩ | ⟨e, heq, he⟩ | ⟨heq, hlt⟩
    · rw [heq, List.mem_singleton]
      rintro rfl
      exact absurd hplain (by decide)
    · have hne : (0 : UInt8) ≠ e := by
        rintro rfl
        cases he
      rw [heq]
      simp [hne]
    · have hhigh := hexDigit_ne_zero (c.toNat / 16) (by omega)
      have hlow := hexDigit_ne_zero (c.toNat % 16) (by omega)
      rw [heq]
      simp [hhigh.symm, hlow.symm]
  simp [printString, hescape]

theorem zero_notMem_literal (value : Bool) : 0 ∉ nullText ∧ 0 ∉ boolText value := by
  cases value <;> decide

theorem zero_notMem_numberBuffer (n : Int) (d : Double) : 0 ∉ numberBuffer n d := by
  cases d with
  | nan => exact (zero_notMem_literal true).1
  | infinite negative => exact (zero_notMem_literal true).1
  | finite d h =>
      obtain ⟨numeral, htext⟩ := exists_numeral n h
      rw [htext]
      intro hmem
      rcases numeral.mem_text hmem with hdigit | hmark
      · exact absurd hdigit (by decide)
      · exact absurd hmark (by decide)

mutual

/-- The text of an item is a string. -/
theorem zero_notMem_print (item : CJson) : 0 ∉ print item := by
  cases item with
  | null => exact (zero_notMem_literal true).1
  | bool value => exact (zero_notMem_literal value).2
  | number n d => exact zero_notMem_numberBuffer n d
  | string s => exact zero_notMem_printString s
  | array child => simp [print, zero_notMem_printArray child]
  | object child => simp [print, zero_notMem_printObject child]

theorem zero_notMem_printArray (child : List CJson) : 0 ∉ printArray child := by
  cases child with
  | nil => exact List.not_mem_nil
  | cons item rest =>
      have hitem := zero_notMem_print item
      have hrest := zero_notMem_printArray rest
      cases rest with
      | nil => exact hitem
      | cons next rest => simp [printArray, hitem, hrest]

theorem zero_notMem_printObject (child : List (List UInt8 × CJson)) : 0 ∉ printObject child := by
  cases child with
  | nil => exact List.not_mem_nil
  | cons field rest =>
      obtain ⟨name, item⟩ := field
      have hitem := zero_notMem_print item
      have hname := zero_notMem_printString name
      have hrest := zero_notMem_printObject rest
      cases rest with
      | nil => simp [printObject, printField, hitem, hname]
      | cons next rest => simp [printObject, printField, hitem, hname, hrest]

end

mutual

theorem zero_notMem_printFormatted (item : CJson) (k : Nat) : 0 ∉ printFormatted k item := by
  cases item with
  | null => exact (zero_notMem_literal true).1
  | bool value => exact (zero_notMem_literal value).2
  | number n d => exact zero_notMem_numberBuffer n d
  | string s => exact zero_notMem_printString s
  | array child => simp [printFormatted, zero_notMem_printFormattedArray child (k + 1)]
  | object child => simp [printFormatted, zero_notMem_printFormattedObject child (k + 1)]

theorem zero_notMem_printFormattedArray (child : List CJson) (k : Nat) :
    0 ∉ printFormattedArray k child := by
  cases child with
  | nil => exact List.not_mem_nil
  | cons item rest =>
      have hitem := zero_notMem_printFormatted item k
      have hrest := zero_notMem_printFormattedArray rest k
      cases rest with
      | nil => exact hitem
      | cons next rest => simp [printFormattedArray, hitem, hrest]

theorem zero_notMem_printFormattedObject (child : List (List UInt8 × CJson)) (k : Nat) :
    0 ∉ printFormattedObject k child := by
  cases child with
  | nil => exact List.not_mem_nil
  | cons field rest =>
      obtain ⟨name, item⟩ := field
      have hitem := zero_notMem_printFormatted item k
      have hname := zero_notMem_printString name
      have hrest := zero_notMem_printFormattedObject rest k
      cases rest with
      | nil => simp [printFormattedObject, printFormattedField, hitem, hname]
      | cons next rest => simp [printFormattedObject, printFormattedField, hitem, hname, hrest]

end

end Terminator

/-- The original number can be recovered: it is an `int`, or the one that is read of its first
fifteen digits, or another one, and `compare_double` tells so. -/
def Recovered (valueint : Int) : Double → Prop
  | .finite d h =>
      valueint = saturate (.finite d h) ∧
        (d = valueint ∨ ∀ r ∈ strtod (formatGeneral 15 d),
          compareDouble (toDouble r.1) (.finite d h) = true → toDouble r.1 = .finite d h)
  | _ => False

mutual

/-- The numbers of an item can be recovered, and its strings have no zero. -/
def Recoverable : CJson → Prop
  | .null => True
  | .bool _ => True
  | .number n d => Recovered n d
  | .string s => 0 ∉ s
  | .array child => RecoverableArray child
  | .object child => RecoverableObject child

def RecoverableArray : List CJson → Prop
  | [] => True
  | item :: rest => Recoverable item ∧ RecoverableArray rest

def RecoverableObject : List (List UInt8 × CJson) → Prop
  | [] => True
  | (name, item) :: rest => 0 ∉ name ∧ Recoverable item ∧ RecoverableObject rest

end

section Recovery

variable {n : Int}

theorem stops_nil : Stops [] := by simp [Stops]

theorem strtod_formatGeneral_nil (precision : ℕ) (x : ℚ) :
    strtod (formatGeneral precision x) = some ((generalNumeral precision x).number, []) := by
  simpa using strtod_formatGeneral precision x stops_nil

/-- A number comes back from its text exactly if it can be recovered. -/
theorem readNumber_eq_iff (d : Double) : readNumber n d = .number n d ↔ Recovered n d := by
  cases d with
  | nan => exact ⟨nofun, False.elim⟩
  | infinite negative => exact ⟨nofun, False.elim⟩
  | finite d h =>
      have hitem {x : ℚ} (hread : strtod (numberBuffer n (.finite d h)) = some (x, [])) :
          readNumber n (.finite d h) = .number n (.finite d h) ↔
            n = saturate (.finite d h) ∧ toDouble x = .finite d h := by
        rw [readNumber, hread]
        simp only [ofDouble, number.injEq]
        exact ⟨fun h => ⟨h.2 ▸ h.1.symm, h.2⟩, fun h => ⟨h.2 ▸ h.1.symm, h.2⟩⟩
      have hfifteen := strtod_formatGeneral_nil 15 d
      by_cases hint : d = n
      · have hread : strtod (numberBuffer n (.finite d h)) = some ((n : ℚ), []) := by
          have hbuffer : numberBuffer n (.finite d h) = (intNumeral n).text :=
            (if_pos hint).trans (text_intNumeral n).symm
          simpa [hbuffer, number_intNumeral] using (intNumeral n).strtod_text stops_nil
        rw [hitem hread]
        have hdouble : toDouble (n : ℚ) = .finite d h := toDouble_eq (hint ▸ h.1) h
        exact ⟨fun h => ⟨h.1, .inl hint⟩, fun h => ⟨h.1, hdouble⟩⟩
      by_cases hcompare : compareDouble (toDouble (generalNumeral 15 d).number) (.finite d h) = true
      · have hbuffer : numberBuffer n (.finite d h) = formatGeneral 15 d := by
          unfold numberBuffer
          dsimp only
          rw [if_neg hint, hfifteen, Option.any_some, if_pos hcompare]
        rw [hitem (hbuffer ▸ hfifteen), Recovered, hfifteen]
        simp only [hint, false_or, Option.mem_some_iff, forall_eq', hcompare, forall_const]
      · have hbuffer : numberBuffer n (.finite d h) = formatGeneral 17 d := by
          unfold numberBuffer
          dsimp only
          rw [if_neg hint, hfifteen, Option.any_some, if_neg hcompare]
        rw [hitem (hbuffer ▸ strtod_formatGeneral_nil 17 d), Recovered, hfifteen]
        simp only [toDouble_generalNumeral h, hint, false_or, Option.mem_some_iff, forall_eq',
          hcompare, Bool.false_eq_true, false_imp_iff]

/-- `compare_double` does not tell every `double` from its neighbour. -/
example : toDouble (11 / 10 + 2 ^ (-52 : ℤ)) ≠ toDouble (11 / 10) ∧
    numberBuffer 1 (toDouble (11 / 10 + 2 ^ (-52 : ℤ))) = numberBuffer 1 (toDouble (11 / 10)) := by
  decide +kernel

theorem recoverable_ofInt (hlo : intMin ≤ n) (hhi : n ≤ intMax) : Recoverable (.ofInt n) := by
  rw [ofInt, ofDouble, Recoverable, saturate_int hlo hhi, toDouble_int hlo hhi]
  refine ⟨?_, .inl rfl⟩
  rw [← toDouble_int hlo hhi, saturate_int hlo hhi]

theorem Recovered.int {d : Double} (h : Recovered n d) : intMin ≤ n ∧ n ≤ intMax := by
  cases d with
  | finite d hd => exact h.1 ▸ saturate_range _
  | _ => exact h.elim

mutual

/-- The parser gives `valueint` a value of type `int`. -/
theorem Recoverable.ints (item : CJson) (h : Recoverable item) : Ints item := by
  cases item with
  | number n d => exact h.int
  | array child => exact RecoverableArray.ints child h
  | object child => exact RecoverableObject.ints child h
  | _ => exact trivial

theorem RecoverableArray.ints (child : List CJson) (h : RecoverableArray child) :
    IntsArray child := by
  cases child with
  | nil => exact trivial
  | cons item rest => exact ⟨Recoverable.ints item h.1, RecoverableArray.ints rest h.2⟩

theorem RecoverableObject.ints (child : List (List UInt8 × CJson)) (h : RecoverableObject child) :
    IntsObject child := by
  cases child with
  | nil => exact trivial
  | cons field rest => exact ⟨Recoverable.ints field.2 h.2.1, RecoverableObject.ints rest h.2.2⟩

end

theorem cString_eq_iff {s : List UInt8} : cString s = s ↔ 0 ∉ s := by
  refine ⟨fun h hmem => ?_, cString_of_not_mem⟩
  have hne := List.takeWhile_eq_self_iff.mp h 0 hmem
  exact absurd hne (by decide)

mutual

/-- What is read of the text of an item is the item. -/
theorem readBack_eq_iff (item : CJson) : readBack item = item ↔ Recoverable item := by
  cases item with
  | null => exact ⟨fun _ => trivial, fun _ => rfl⟩
  | bool value => exact ⟨fun _ => trivial, fun _ => rfl⟩
  | number n d => exact readNumber_eq_iff d
  | string s => rw [readBack, string.injEq, cString_eq_iff, Recoverable]
  | array child => rw [readBack, array.injEq, readBackArray_eq_iff child, Recoverable]
  | object child => rw [readBack, object.injEq, readBackObject_eq_iff child, Recoverable]

theorem readBackArray_eq_iff (child : List CJson) :
    readBackArray child = child ↔ RecoverableArray child := by
  cases child with
  | nil => exact ⟨fun _ => trivial, fun _ => rfl⟩
  | cons item rest =>
      rw [readBackArray, List.cons.injEq, readBack_eq_iff item, readBackArray_eq_iff rest,
        RecoverableArray]

theorem readBackObject_eq_iff (child : List (List UInt8 × CJson)) :
    readBackObject child = child ↔ RecoverableObject child := by
  cases child with
  | nil => exact ⟨fun _ => trivial, fun _ => rfl⟩
  | cons field rest =>
      obtain ⟨name, item⟩ := field
      rw [readBackObject, List.cons.injEq, Prod.mk.injEq, cString_eq_iff, readBack_eq_iff item,
        readBackObject_eq_iff rest, RecoverableObject, and_assoc]

end

end Recovery

mutual

/-- The items of a tree and the bytes of its strings and names. -/
def weight : CJson → Nat
  | .null => 1
  | .bool _ => 1
  | .number _ _ => 1
  | .string valuestring => valuestring.length + 1
  | .array child => weightArray child + 1
  | .object child => weightObject child + 1

def weightArray : List CJson → Nat
  | [] => 0
  | item :: rest => weight item + weightArray rest

def weightObject : List (List UInt8 × CJson) → Nat
  | [] => 0
  | (name, item) :: rest => name.length + weight item + weightObject rest

end

section Bounds

variable {n : Nat} {s v t : List UInt8} {part : Part}

/-- The items of a part are within the nesting limit and are no larger than their text. -/
def Part.Bounded (n size : Nat) : Part → Prop
  | .value item => depth item ≤ n ∧ Ints item ∧ weight item ≤ size
  | .elements child => depthArray child ≤ n ∧ IntsArray child ∧ weightArray child ≤ size
  | .members child => depthObject child ≤ n ∧ IntsObject child ∧ weightObject child ≤ size

theorem Literal.length_le (h : Literal s v t) : v.length + t.length + 2 ≤ s.length := by
  obtain ⟨raw, marks, rfl, hclosed, hv⟩ := h
  have hbytes := length_le_of_decodes hv hclosed.spaced
  have hcount := hclosed.count
  simp only [List.length_cons, List.length_append]
  omega

theorem Derives.bounded (h : Derives n s part t) : part.Bounded n (s.length - t.length) := by
  induction h with
  | @null n t =>
      have hlt := (@Derives.null n t).length_lt
      exact ⟨Nat.zero_le _, trivial, by rw [weight]; omega⟩
  | @bool n t value =>
      have hlt := (@Derives.bool n t value).length_lt
      exact ⟨Nat.zero_le _, trivial, by rw [weight]; omega⟩
  | string literal =>
      have hlen := literal.length_le
      exact ⟨Nat.zero_le _, trivial, by rw [weight]; omega⟩
  | number number =>
      have hlt := number.length_lt
      obtain ⟨-, -, x, -, -, -, rfl, -⟩ := number
      exact ⟨Nat.zero_le _, saturate_range _, by rw [ofDouble, weight]; omega⟩
  | emptyArray space =>
      refine ⟨by simp [depth, depthArray], trivial, ?_⟩
      simp only [weight, weightArray, List.length_cons, List.length_append]
      omega
  | array elements ih =>
      obtain ⟨hdepth, hints, hweight⟩ := ih
      have hlt := elements.length_lt
      rw [List.length_cons] at hweight hlt
      refine ⟨by rw [depth]; omega, hints, ?_⟩
      rw [weight, List.length_cons]
      omega
  | emptyObject space =>
      refine ⟨by simp [depth, depthObject], trivial, ?_⟩
      simp only [weight, weightObject, List.length_cons, List.length_append]
      omega
  | object members ih =>
      obtain ⟨hdepth, hints, hweight⟩ := ih
      have hlt := members.length_lt
      rw [List.length_cons] at hweight hlt
      refine ⟨by rw [depth]; omega, hints, ?_⟩
      rw [weight, List.length_cons]
      omega
  | lastElement before value after ih =>
      obtain ⟨hdepth, hints, hweight⟩ := ih
      rw [List.length_append] at hweight
      refine ⟨by simpa [depthArray] using hdepth, ⟨hints, trivial⟩, ?_⟩
      rw [weightArray, weightArray, List.length_append]
      omega
  | element before value after rest ihvalue ihrest =>
      obtain ⟨hdepth, hints, hweight⟩ := ihvalue
      obtain ⟨hdepth', hints', hweight'⟩ := ihrest
      have hlt := value.length_lt
      have hlt' := rest.length_lt
      rw [List.length_append, List.length_cons] at hweight hlt
      refine ⟨max_le hdepth hdepth', ⟨hints, hints'⟩, ?_⟩
      rw [weightArray, List.length_append]
      omega
  | lastMember before name space₁ space₂ value after ih =>
      obtain ⟨hdepth, hints, hweight⟩ := ih
      have hlen := name.length_le
      have hlt := value.length_lt
      simp only [List.length_append, List.length_cons] at hweight hlen hlt
      refine ⟨by simpa [depthObject] using hdepth, ⟨hints, trivial⟩, ?_⟩
      rw [weightObject, weightObject, List.length_append]
      omega
  | member before name space₁ space₂ value after rest ihvalue ihrest =>
      obtain ⟨hdepth, hints, hweight⟩ := ihvalue
      obtain ⟨hdepth', hints', hweight'⟩ := ihrest
      have hlen := name.length_le
      have hlt := value.length_lt
      have hlt' := rest.length_lt
      simp only [List.length_append, List.length_cons] at hweight hlen hlt
      refine ⟨max_le hdepth hdepth', ⟨hints, hints'⟩, ?_⟩
      rw [weightObject, List.length_append]
      omega

/-- Of an accepted text the tree is bounded by the nesting limit and the length. -/
theorem Document.bounded {item : CJson} (h : Document s item t) :
    depth item ≤ nestingLimit ∧ Ints item ∧ weight item + t.length ≤ s.length := by
  obtain ⟨mark, w, s, -, -, rfl, hderives⟩ := h
  obtain ⟨hdepth, hints, hweight⟩ := hderives.bounded
  have hlt := hderives.length_lt
  refine ⟨hdepth, hints, ?_⟩
  simp only [List.length_append]
  omega

end Bounds

section RoundTrip

variable {text : List UInt8} {item : CJson}

/-- `cJSON_Parse` accepts the strings that have a document. -/
theorem cJsonParse_eq_some : cJsonParse text = some item ↔
    ∃ t, Document (cString text ++ [0]) item t := by
  unfold cJsonParse
  constructor
  · intro h
    cases hparse : parseWithLengthOpts (cString text ++ [0]) false with
    | ok r =>
        rw [hparse] at h
        cases h
        exact ⟨_, (parseWithLengthOpts_eq_ok.mp hparse).2⟩
    | fail =>
        rw [hparse] at h
        cases h
    | fault =>
        rw [hparse] at h
        cases h
  · rintro ⟨t, hdoc⟩
    obtain ⟨o, ho, rfl⟩ := hdoc.exists_drop
    rw [parseWithLengthOpts_eq_ok.mpr ⟨ho, hdoc⟩]

/-- A text without a zero byte that derives an item is read as the item. -/
theorem cJsonParse_of_derives {t : List UInt8} (hz : 0 ∉ text)
    (h : Derives nestingLimit (text ++ [0]) (.value item) t) : cJsonParse text = some item := by
  refine cJsonParse_eq_some.mpr ⟨t, [], [], text ++ [0], .inl rfl, spaces_nil, ?_, h⟩
  rw [cString_of_not_mem hz]
  rfl

theorem stops_terminator : Stops [0] := by
  rintro c hc
  obtain rfl : 0 = c := by simpa using hc
  decide

/-- Within the limits of the parser what is read is known, also where it is another item. -/
theorem cJsonParse_print (hdepth : depth item ≤ nestingLimit) (hints : Ints item) :
    cJsonParse (print item) = some (readBack item) :=
  cJsonParse_of_derives (zero_notMem_print item)
    (derives_print item hdepth hints fun _ _ _ => stops_terminator)

theorem cJsonParse_cJsonPrint (hdepth : depth item ≤ nestingLimit) (hints : Ints item) :
    cJsonParse (cJsonPrint item) = some (readBack item) :=
  cJsonParse_of_derives (zero_notMem_printFormatted item 0)
    (derives_printFormatted item 0 hdepth hints stops_terminator)

/-- A recoverable item within the limit comes back from both texts. -/
theorem Recoverable.parse_print (h : Recoverable item) (hdepth : depth item ≤ nestingLimit) :
    cJsonParse (print item) = some item ∧ cJsonParse (cJsonPrint item) = some item := by
  have hints := h.ints item
  rw [cJsonParse_print hdepth hints, cJsonParse_cJsonPrint hdepth hints,
    (readBack_eq_iff item).mpr h]
  exact ⟨rfl, rfl⟩

/-- An item that is read is nested within the limit, and each `valueint` is of type `int`. -/
theorem bounded_of_cJsonParse (h : cJsonParse text = some item) :
    depth item ≤ nestingLimit ∧ Ints item :=
  let ⟨_, hdoc⟩ := cJsonParse_eq_some.mp h
  ⟨hdoc.bounded.1, hdoc.bounded.2.1⟩

/-- Exactly the recoverable items within the nesting limit come back from both texts. -/
theorem parse_print_iff (item : CJson) :
    (cJsonParse (print item) = some item ↔ depth item ≤ nestingLimit ∧ Recoverable item) ∧
      (cJsonParse (cJsonPrint item) = some item ↔
        depth item ≤ nestingLimit ∧ Recoverable item) := by
  refine ⟨⟨fun h => ?_, fun ⟨hdepth, hitem⟩ => ?_⟩, ⟨fun h => ?_, fun ⟨hdepth, hitem⟩ => ?_⟩⟩
  · obtain ⟨hdepth, hints⟩ := bounded_of_cJsonParse h
    rw [cJsonParse_print hdepth hints, Option.some_inj] at h
    exact ⟨hdepth, (readBack_eq_iff item).mp h⟩
  · exact (hitem.parse_print hdepth).1
  · obtain ⟨hdepth, hints⟩ := bounded_of_cJsonParse h
    rw [cJsonParse_cJsonPrint hdepth hints, Option.some_inj] at h
    exact ⟨hdepth, (readBack_eq_iff item).mp h⟩
  · exact (hitem.parse_print hdepth).2

/-- Of an accepted string the tree is no deeper than the limit, each `valueint` is of type `int`,
and its items, names and strings take no more bytes than the string has. -/
theorem cJsonParse_bounded (text : List UInt8) :
    ∀ item ∈ cJsonParse text, depth item ≤ nestingLimit ∧ Ints item ∧
      weight item ≤ (cString text).length + 1 := by
  intro item hitem
  obtain ⟨t, hdoc⟩ := cJsonParse_eq_some.mp hitem
  obtain ⟨hdepth, hints, hweight⟩ := hdoc.bounded
  rw [List.length_append, List.length_singleton] at hweight
  exact ⟨hdepth, hints, by omega⟩

/-- The bounds at the text `[5]`. -/
theorem cJsonParse_bounded_list :
    depth (.array [.ofInt 5]) ≤ nestingLimit ∧ Ints (.array [.ofInt 5]) ∧
      weight (.array [.ofInt 5]) ≤ (cString (print (.array [.ofInt 5]))).length + 1 := by
  have hdepth : depth (.array [.ofInt 5]) ≤ nestingLimit := by decide
  have hitem : Recoverable (.array [.ofInt 5]) :=
    ⟨recoverable_ofInt (by decide) (by decide), trivial⟩
  exact cJsonParse_bounded _ _ (hitem.parse_print hdepth).1

end RoundTrip

end CJson
