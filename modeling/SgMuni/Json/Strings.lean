import SgMuni.C.Outcome
import SgMuni.Json.Print

/-!
# The strings of a JSON text

`parse_string` of `cJSON.c`. A first loop looks for the closing quote and counts what
the output can at most need; a second one fills the block that was allocated for it.

## Implementation notes

The content of the `parse_buffer` is a block of `length` bytes, and an access behind it is
a fault, like a write behind the block of the output. `malloc` succeeds. The offset that
a failed call leaves, which only `cJSON_GetErrorPtr` shows, is left out.
-/

namespace CJson

open C

/-- The byte at an offset. -/
def read (content : List UInt8) (offset : Nat) : Outcome UInt8 := .ofAccess content[offset]?

/-- The value of a hexadecimal digit. -/
def hexValue (c : UInt8) : Option Nat :=
  if 48 ≤ c.toNat ∧ c.toNat ≤ 57 then some (c.toNat - 48)
  else if 65 ≤ c.toNat ∧ c.toNat ≤ 70 then some (10 + c.toNat - 65)
  else if 97 ≤ c.toNat ∧ c.toNat ≤ 102 then some (10 + c.toNat - 97)
  else none

/-- The loop of `parse_hex4` with `n` digits to read; anything else makes the number 0. -/
def parseHex (content : List UInt8) : Nat → Nat → Nat → Outcome Nat
  | 0, _, h => .ok h
  | n + 1, offset, h =>
      (read content offset).bind fun c =>
        match hexValue c with
        | some d => parseHex content n (offset + 1) (if n = 0 then h + d else (h + d) <<< 4)
        | none => .ok 0

def parseHex4 (content : List UInt8) (offset : Nat) : Outcome Nat := parseHex content 4 offset 0

/-- The bytes `10xxxxxx` of a character, before the bytes `acc`, and what is left of
its code point. -/
def continuation : Nat → Nat → List UInt8 → List UInt8 × Nat
  | 0, codepoint, acc => (acc, codepoint)
  | n + 1, codepoint, acc =>
      continuation n (codepoint >>> 6) (UInt8.ofNat ((codepoint ||| 0x80) &&& 0xBF) :: acc)

/-- The encoding of a code point in `utf16_literal_to_utf8`. -/
def utf8 (codepoint : Nat) : Option (List UInt8) :=
  let encode (length mark : Nat) :=
    let (bytes, codepoint) := continuation (length - 1) codepoint []
    UInt8.ofNat ((codepoint ||| mark) &&& 0xFF) :: bytes
  if codepoint < 0x80 then some [UInt8.ofNat (codepoint &&& 0x7F)]
  else if codepoint < 0x800 then some (encode 2 0xC0)
  else if codepoint < 0x10000 then some (encode 3 0xE0)
  else if codepoint ≤ 0x10FFFF then some (encode 4 0xF0)
  else none

/-- `utf16_literal_to_utf8` for the literal at `pointer`, where the string ends at `stop`:
the bytes of the character and the length of the literal. -/
def utf16LiteralToUtf8 (content : List UInt8) (pointer stop : Nat) :
    Outcome (List UInt8 × Nat) :=
  let encode (codepoint length : Nat) : Outcome (List UInt8 × Nat) :=
    match utf8 codepoint with
    | some bytes => .ok (bytes, length)
    | none => .fail
  if stop < pointer + 6 then .fail
  else
    (parseHex4 content (pointer + 2)).bind fun first =>
      if 0xDC00 ≤ first ∧ first ≤ 0xDFFF then .fail
      else if 0xD800 ≤ first ∧ first ≤ 0xDBFF then
        if stop < pointer + 12 then .fail
        else
          (read content (pointer + 6)).bind fun a =>
            if a ≠ 92 then .fail
            else
              (read content (pointer + 7)).bind fun b =>
                if b ≠ 117 then .fail
                else
                  (parseHex4 content (pointer + 8)).bind fun second =>
                    if second < 0xDC00 ∨ 0xDFFF < second then .fail
                    else
                      encode (0x10000 + (((first &&& 0x3FF) <<< 10) ||| (second &&& 0x3FF))) 12
      else encode first 6

/-- The first loop of `parse_string`: the offset of the closing quote and the number of
bytes that start an escape. -/
def findQuote (content : List UInt8) : Nat → Nat → Nat → Outcome (Nat × Nat)
  | 0, _, _ => .fault
  | fuel + 1, inputEnd, skipped =>
      if content.length ≤ inputEnd then .fail
      else
        (read content inputEnd).bind fun c =>
          if c = 34 then .ok (inputEnd, skipped)
          else if c = 92 then
            if content.length ≤ inputEnd + 1 then .fail
            else findQuote content fuel (inputEnd + 2) (skipped + 1)
          else findQuote content fuel (inputEnd + 1) skipped

/-- Writes behind the output, in a block of `size` bytes. -/
def put (size : Nat) (output bytes : List UInt8) : Outcome (List UInt8) :=
  if output.length + bytes.length ≤ size then .ok (output ++ bytes) else .fault

/-- The byte for the letter behind a backslash, without `u`. -/
def simpleEscape (c : UInt8) : Option UInt8 :=
  if c = 98 then some 8
  else if c = 102 then some 12
  else if c = 110 then some 10
  else if c = 114 then some 13
  else if c = 116 then some 9
  else if c = 34 ∨ c = 92 ∨ c = 47 then some c
  else none

/-- The second loop of `parse_string`, up to the closing quote at `inputEnd`. -/
def unescape (content : List UInt8) (size inputEnd : Nat) :
    Nat → Nat → List UInt8 → Outcome (List UInt8)
  | 0, _, _ => .fault
  | fuel + 1, pointer, output =>
      if inputEnd ≤ pointer then .ok output
      else
        (read content pointer).bind fun c =>
          if c ≠ 92 then
            (put size output [c]).bind fun output =>
              unescape content size inputEnd fuel (pointer + 1) output
          else
            (read content (pointer + 1)).bind fun e =>
              if e = 117 then
                (utf16LiteralToUtf8 content pointer inputEnd).bind fun (bytes, length) =>
                  (put size output bytes).bind fun output =>
                    unescape content size inputEnd fuel (pointer + length) output
              else
                match simpleEscape e with
                | some b =>
                    (put size output [b]).bind fun output =>
                      unescape content size inputEnd fuel (pointer + 2) output
                | none => .fail

/-- `parse_string`: the bytes before the terminator, and the offset behind the string. -/
def parseString (content : List UInt8) (offset : Nat) : Outcome (List UInt8 × Nat) :=
  (read content offset).bind fun c =>
    if c ≠ 34 then .fail
    else
      (findQuote content (content.length + 1) (offset + 1) 0).bind fun (inputEnd, skipped) =>
        let size := inputEnd - offset - skipped + 1
        (unescape content size inputEnd (content.length + 1) (offset + 1) []).bind fun output =>
          (put size output [0]).bind fun _ => .ok (output, inputEnd + 1)

end CJson
