import SgMuni.C.FormatDouble

/-!
# JSON values and their text

`cJSON_PrintUnformatted` and `cJSON_Print` of `cJSON.c`, and the search for a
field of an object.
-/

/-- A `cJSON` item; the fields of an object are its children with their names. -/
inductive CJson
  | null
  | bool (value : Bool)
  | number (valueint : Int) (valuedouble : C.Double)
  | string (valuestring : List UInt8)
  | array (child : List CJson)
  | object (child : List (List UInt8 × CJson))

namespace CJson

/-- The item that `parse_number` and `cJSON_CreateNumber` make of a number. -/
def ofDouble (number : C.Double) : CJson := .number (C.saturate number) number

def ofInt (number : Int) : CJson := ofDouble (C.toDouble number)

/-- A hexadecimal digit of `%04x`. -/
def hexDigit (n : Nat) : UInt8 := if n < 10 then UInt8.ofNat (48 + n) else UInt8.ofNat (87 + n)

/-- What `print_string_ptr` writes for one byte. -/
def escape (c : UInt8) : List UInt8 :=
  if 31 < c.toNat ∧ c ≠ 34 ∧ c ≠ 92 then [c]
  else if c = 92 then [92, 92]
  else if c = 34 then [92, 34]
  else if c = 8 then [92, 98]
  else if c = 12 then [92, 102]
  else if c = 10 then [92, 110]
  else if c = 13 then [92, 114]
  else if c = 9 then [92, 116]
  else [92, 117, 48, 48, hexDigit (c.toNat / 16), hexDigit (c.toNat % 16)]

/-- `print_string_ptr` prints the bytes before the first zero. -/
def printString (s : List UInt8) : List UInt8 := 34 :: (C.cString s).flatMap escape ++ [34]

/-- The texts of the three literals. -/
def nullText : List UInt8 := [110, 117, 108, 108]

def boolText (value : Bool) : List UInt8 :=
  if value then [116, 114, 117, 101] else [102, 97, 108, 115, 101]

/-- `compare_double`, whose difference and tolerance are doubles, too. -/
def compareDouble : C.Double → C.Double → Bool
  | .finite a _, .finite b _ => |C.nearest (a - b)| ≤ C.nearest (max |a| |b| * 2 ^ (-52 : ℤ))
  -- Both sides of the comparison are infinite.
  | .infinite _, .finite _ _ => true
  | .finite _ _, .infinite _ => true
  | .infinite a, .infinite b => a != b
  | _, _ => false

/-- What `print_number` prints to `number_buffer`. -/
def numberBuffer (valueint : Int) (valuedouble : C.Double) : List UInt8 :=
  match valuedouble with
  | .finite d _ =>
      if d = valueint then C.formatInt valueint
      else
        let text := C.formatGeneral 15 d
        -- `sscanf` reads the text again.
        if (C.strtod text).any fun r => compareDouble (C.toDouble r.1) valuedouble then text
        else C.formatGeneral 17 d
  | _ => nullText

mutual

def print : CJson → List UInt8
  | .null => nullText
  | .bool value => boolText value
  | .number n d => numberBuffer n d
  | .string s => printString s
  | .array child => 91 :: printArray child ++ [93]
  | .object child => 123 :: printObject child ++ [125]

def printArray : List CJson → List UInt8
  | [] => []
  | [item] => print item
  | item :: next :: rest => print item ++ 44 :: printArray (next :: rest)

def printObject : List (List UInt8 × CJson) → List UInt8
  | [] => []
  | [field] => printField field
  | field :: next :: rest => printField field ++ 44 :: printObject (next :: rest)

def printField : List UInt8 × CJson → List UInt8
  | (name, item) => printString name ++ 58 :: print item

end

mutual

/-- `print_value` with `format`, `depth` levels inside of the value printed. -/
def printFormatted (depth : Nat) : CJson → List UInt8
  | .null => nullText
  | .bool value => boolText value
  | .number n d => numberBuffer n d
  | .string s => printString s
  | .array child => 91 :: printFormattedArray (depth + 1) child ++ [93]
  | .object child =>
      [123, 10] ++ printFormattedObject (depth + 1) child ++ List.replicate depth 9 ++ [125]

def printFormattedArray (depth : Nat) : List CJson → List UInt8
  | [] => []
  | [item] => printFormatted depth item
  | item :: next :: rest =>
      printFormatted depth item ++ [44, 32] ++ printFormattedArray depth (next :: rest)

def printFormattedObject (depth : Nat) : List (List UInt8 × CJson) → List UInt8
  | [] => []
  | [field] => printFormattedField depth field ++ [10]
  | field :: next :: rest =>
      printFormattedField depth field ++ [44, 10] ++ printFormattedObject depth (next :: rest)

def printFormattedField (depth : Nat) : List UInt8 × CJson → List UInt8
  | (name, item) =>
      List.replicate depth 9 ++ printString name ++ [58, 9] ++ printFormatted depth item

end

/-- `cJSON_Print`. -/
def cJsonPrint (item : CJson) : List UInt8 := printFormatted 0 item

/-- `case_insensitive_strcmp` finds no difference. -/
def sameName (name string : List UInt8) : Bool :=
  (C.cString name).map C.tolower == (C.cString string).map C.tolower

/-- `cJSON_GetObjectItem`: the first child with the name; only the children of
an object have names. -/
def getObjectItem (object : CJson) (name : List UInt8) : Option CJson :=
  match object with
  | .object child => (child.find? fun field => sameName name field.1).map (·.2)
  | _ => none

section Integers

variable {n : Int}

theorem ofInt_eq (hlo : C.intMin ≤ n) (hhi : n ≤ C.intMax) :
    ofInt n = .number n (C.toDouble n) := by
  rw [ofInt, ofDouble, C.saturate_int hlo hhi]

/-- The numbers that the program makes are printed with `%d`. -/
theorem numberBuffer_int (hlo : C.intMin ≤ n) (hhi : n ≤ C.intMax) :
    numberBuffer n (C.toDouble n) = C.formatInt n := by
  rw [C.toDouble_int hlo hhi]
  exact if_pos rfl

theorem print_ofInt (hlo : C.intMin ≤ n) (hhi : n ≤ C.intMax) :
    print (ofInt n) = C.formatInt n := by
  rw [ofInt_eq hlo hhi, print, numberBuffer_int hlo hhi]

theorem printFormatted_ofInt (hlo : C.intMin ≤ n) (hhi : n ≤ C.intMax) (depth : Nat) :
    printFormatted depth (ofInt n) = C.formatInt n := by
  rw [ofInt_eq hlo hhi, printFormatted, numberBuffer_int hlo hhi]

/-- The text of an object whose first field is a number. -/
theorem print_object_number (name : List UInt8) (hlo : C.intMin ≤ n) (hhi : n ≤ C.intMax)
    (field : List UInt8 × CJson) (rest : List (List UInt8 × CJson)) :
    print (.object ((name, .ofInt n) :: field :: rest)) =
      (123 :: printString name ++ [58]) ++
        (C.formatInt n ++ 44 :: (printObject (field :: rest) ++ [125])) := by
  simp only [print, printObject, printField, print_ofInt hlo hhi, List.cons_append,
    List.append_assoc, List.nil_append]

end Integers

/-- The text of a finite number is a sign, digits, a point and an exponent. -/
theorem exists_numeral (n : Int) {d : ℚ} (h : C.Representable d) :
    ∃ numeral : C.Numeral, numberBuffer n (.finite d h) = numeral.text := by
  unfold numberBuffer
  dsimp only
  split_ifs
  · exact ⟨_, (C.text_intNumeral n).symm⟩
  · exact ⟨_, rfl⟩
  · exact ⟨_, rfl⟩

/-- The text of a number fits into `number_buffer`. -/
theorem length_numberBuffer_le {n : Int} (hlo : C.intMin ≤ n) (hhi : n ≤ C.intMax)
    (d : C.Double) : (numberBuffer n d).length ≤ 25 := by
  cases d with
  | nan => exact (by decide : nullText.length ≤ 25)
  | infinite negative => exact (by decide : nullText.length ≤ 25)
  | finite d h =>
      unfold numberBuffer
      dsimp only
      split_ifs
      · exact (C.length_formatInt_le hlo hhi).trans (by decide)
      · exact (C.length_formatGeneral_le h (by decide)).trans (by decide)
      · exact (C.length_formatGeneral_le h (by decide)).trans (by decide)

end CJson
