import SgMuni.C.Strtod
import SgMuni.Json.Strings

/-!
# The parser of a JSON text

`cJSON_Parse` of `cJSON.c`, which reads the configuration of the server.

## Implementation notes

A `parse_buffer` is its content and an offset; the depth is that of the containers around
the value. The fuel bounds the nested calls, and its end is a fault. `malloc` succeeds, and
the position of an error is left out.
-/

namespace CJson

open C

/-- `CJSON_NESTING_LIMIT`. -/
def nestingLimit : Nat := 1000

/-- `can_access_at_index` at the offset, and the byte there. -/
def nextIs (content : List UInt8) (offset : Nat) (c : UInt8) : Bool := content[offset]? == some c

def isSpace (c : UInt8) : Bool := c.toNat ≤ 32

/-- `buffer_skip_whitespace`, which stops at the last byte. -/
def skipWhitespace (content : List UInt8) (offset : Nat) : Nat :=
  if content.length ≤ offset then offset
  else
    let offset := offset + ((content.drop offset).takeWhile isSpace).length
    if offset = content.length then offset - 1 else offset

/-- `can_read` and `strncmp` for one of the three literals. -/
def literal (content text : List UInt8) (offset : Nat) : Outcome Bool :=
  if content.length < offset + text.length then .ok false
  else
    (Outcome.ofAccess (strncmp (content.drop offset) (text ++ [0]) text.length)).bind fun d =>
      .ok (d == 0)

/-- The bytes that `parse_number` copies. -/
def isNumberByte (c : UInt8) : Bool := isdigit c || c ∈ [43, 45, 46, 69, 101]

/-- What `parse_number` copies to a buffer of 64 bytes. -/
def numberText (s : List UInt8) : List UInt8 := (s.take 63).takeWhile isNumberByte

/-- `parse_number`. -/
def parseNumber (content : List UInt8) (offset : Nat) : Outcome (CJson × Nat) :=
  let text := numberText (content.drop offset)
  match strtod text with
  | some (value, afterEnd) =>
      .ok (ofDouble (toDouble value), offset + (text.length - afterEnd.length))
  | none => .fail

/-- The rest of `parse_array` and of `parse_object` behind the opening bracket. The loop starts
at the byte in front of the first element. -/
def parseContainer {α : Type} (content : List UInt8) (close : UInt8)
    (loop : Nat → Outcome (List α × Nat)) (offset : Nat) : Outcome (List α × Nat) :=
  let offset := skipWhitespace content offset
  if nextIs content offset close then .ok ([], offset + 1)
  else if content.length ≤ offset then .fail
  else
    (loop (offset - 1)).bind fun (child, offset) =>
      if nextIs content offset close then .ok (child, offset + 1) else .fail

mutual

def parseValue (content : List UInt8) : Nat → Nat → Nat → Outcome (CJson × Nat)
  | 0, _, _ => .fault
  | fuel + 1, depth, offset =>
      (literal content nullText offset).bind fun isNull =>
      if isNull then .ok (.null, offset + 4)
      else
        (literal content (boolText false) offset).bind fun isFalse =>
        if isFalse then .ok (.bool false, offset + 5)
        else
          (literal content (boolText true) offset).bind fun isTrue =>
          if isTrue then .ok (.bool true, offset + 4)
          else if nextIs content offset 34 then
            (parseString content offset).bind fun (valuestring, offset) =>
              .ok (.string valuestring, offset)
          else if nextIs content offset 45 || content[offset]?.any isdigit then
            parseNumber content offset
          else if nextIs content offset 91 then
            (parseArray content fuel depth offset).bind fun (child, offset) =>
              .ok (.array child, offset)
          else if nextIs content offset 123 then
            (parseObject content fuel depth offset).bind fun (child, offset) =>
              .ok (.object child, offset)
          else .fail

def parseArray (content : List UInt8) : Nat → Nat → Nat → Outcome (List CJson × Nat)
  | 0, _, _ => .fault
  | fuel + 1, depth, offset =>
      if nestingLimit ≤ depth then .fail
      else
        (read content offset).bind fun c =>
          if c ≠ 91 then .fail
          else parseContainer content 93 (parseElements content fuel (depth + 1)) (offset + 1)

/-- The loop of `parse_array`, from the byte in front of an element. -/
def parseElements (content : List UInt8) : Nat → Nat → Nat → Outcome (List CJson × Nat)
  | 0, _, _ => .fault
  | fuel + 1, depth, offset =>
      (parseValue content fuel depth (skipWhitespace content (offset + 1))).bind fun (item, offset) =>
        let offset := skipWhitespace content offset
        if nextIs content offset 44 then
          (parseElements content fuel depth offset).bind fun (next, offset) =>
            .ok (item :: next, offset)
        else .ok ([item], offset)

def parseObject (content : List UInt8) :
    Nat → Nat → Nat → Outcome (List (List UInt8 × CJson) × Nat)
  | 0, _, _ => .fault
  | fuel + 1, depth, offset =>
      if nestingLimit ≤ depth then .fail
      else if !nextIs content offset 123 then .fail
      else parseContainer content 125 (parseMembers content fuel (depth + 1)) (offset + 1)

/-- The loop of `parse_object`, from the byte in front of a name. -/
def parseMembers (content : List UInt8) :
    Nat → Nat → Nat → Outcome (List (List UInt8 × CJson) × Nat)
  | 0, _, _ => .fault
  | fuel + 1, depth, offset =>
      if content.length ≤ offset + 1 then .fail
      else
        (parseString content (skipWhitespace content (offset + 1))).bind fun (name, offset) =>
          let offset := skipWhitespace content offset
          if !nextIs content offset 58 then .fail
          else
            (parseValue content fuel depth (skipWhitespace content (offset + 1))).bind
              fun (item, offset) =>
                let offset := skipWhitespace content offset
                if nextIs content offset 44 then
                  (parseMembers content fuel depth offset).bind fun (next, offset) =>
                    .ok ((name, item) :: next, offset)
                else .ok ([(name, item)], offset)

end

/-- `skip_utf8_bom` at the start of the content. -/
def skipUtf8Bom (content : List UInt8) : Outcome Nat :=
  if content.length ≤ 4 then .ok 0
  else
    (Outcome.ofAccess (strncmp content [0xEF, 0xBB, 0xBF, 0] 3)).bind fun d =>
      .ok (if d = 0 then 3 else 0)

/-- `cJSON_ParseWithLengthOpts`: the item, and the end that `return_parse_end` shows. -/
def parseWithLengthOpts (value : List UInt8) (requireNullTerminated : Bool) :
    Outcome (CJson × Nat) :=
  if value.length = 0 then .fail
  else
    (skipUtf8Bom value).bind fun offset =>
    (parseValue value (3 * value.length + 3) 0 (skipWhitespace value offset)).bind
      fun (item, offset) =>
        if requireNullTerminated then
          let offset := skipWhitespace value offset
          if nextIs value offset 0 then .ok (item, offset) else .fail
        else .ok (item, offset)

/-- `cJSON_Parse` on the string `text`. -/
def cJsonParse (text : List UInt8) : Option CJson :=
  match parseWithLengthOpts (cString text ++ [0]) false with
  | .ok (item, _) => some item
  | _ => none

end CJson
