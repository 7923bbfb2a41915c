import SgMuni.C.Blocks
import SgMuni.Json.Print

/-!
# The buffer of the printer

`cJSON_Print` and `cJSON_PrintUnformatted` of `cJSON.c` as they work on a `printbuffer`: a
block that `ensure` makes larger before each piece of text, and an offset that
`update_offset` moves behind a piece that was printed.

## Implementation notes

The hooks are `malloc`, `realloc` and `free`, as the program never sets others, and the
buffer is never preallocated. `live` counts the blocks that were not freed. A write behind
the block, and a string without its terminator, are faults.
-/

namespace CJson

open C

/-- `INT_MAX` as a size. -/
def maxSize : Nat := 2147483647

/-- The struct `printbuffer`, the calls of the allocator and the blocks that are allocated. -/
structure Printbuffer where
  buffer : Option (List UInt8)
  length : Nat
  offset : Nat
  depth : Nat
  format : Bool
  allocs : Nat
  live : Nat

namespace Printbuffer

/-- `ensure`: whether there is room for `needed` bytes. -/
def ensure (memory : Allocator) (p : Printbuffer) (needed : Nat) : Bool × Printbuffer :=
  match p.buffer with
  | none => (false, p)
  | some buffer =>
      if 0 < p.length ∧ p.length ≤ p.offset then (false, p)
      else if maxSize < needed then (false, p)
      else
        let needed := needed + (p.offset + 1)
        if needed ≤ p.length then (true, p)
        else if maxSize < needed then (false, p)
        else
          let newsize := if maxSize / 2 < needed then maxSize else needed * 2
          match realloc memory p.allocs buffer newsize with
          | none =>
              (false, { p with buffer := none, length := 0, allocs := p.allocs + 1,
                               live := p.live - 1 })
          | some block =>
              (true, { p with buffer := some block, length := newsize, allocs := p.allocs + 1 })

/-- The stores through a pointer into the buffer. -/
def store (p : Printbuffer) (offset : Nat) (bytes : List UInt8) : Outcome Printbuffer :=
  match p.buffer with
  | none => .fault
  | some buffer => (C.store buffer offset bytes).bind fun buffer => .ok { p with buffer }

/-- Goes on if the function before returned true. -/
def andThen (x : Outcome (Bool × Printbuffer)) (f : Printbuffer → Outcome (Bool × Printbuffer)) :
    Outcome (Bool × Printbuffer) :=
  x.bind fun (done, p) => if done then f p else .ok (false, p)

/-- Room for `needed` bytes, the stores from the offset on, and the move of the offset. -/
def emit (memory : Allocator) (needed : Nat) (bytes : List UInt8) (advance : Nat)
    (p : Printbuffer) : Outcome (Bool × Printbuffer) :=
  match p.ensure memory needed with
  | (false, p) => .ok (false, p)
  | (true, p) =>
      (p.store p.offset bytes).bind fun p => .ok (true, { p with offset := p.offset + advance })

/-- `update_offset`. -/
def updateOffset (p : Printbuffer) : Outcome (Bool × Printbuffer) :=
  match p.buffer with
  | none => .ok (true, p)
  | some buffer =>
      (strlen buffer p.offset).bind fun length =>
        .ok (true, { p with offset := p.offset + length })

/-- `print_number`, which prints to a `number_buffer` of 26 bytes first. -/
def printNumber (memory : Allocator) (valueint : Int) (valuedouble : Double) (p : Printbuffer) :
    Outcome (Bool × Printbuffer) :=
  let text := numberBuffer valueint valuedouble
  if 26 < text.length + 1 then .fault
  else emit memory (text.length + 1) (text ++ [0]) text.length p

/-- The additional characters for one byte. -/
def escapeCharacters (c : UInt8) : Nat :=
  if c ∈ [34, 92, 8, 12, 10, 13, 9] then 1 else if c.toNat < 32 then 5 else 0

/-- The loop of `print_string_ptr`; the `sprintf` of an escape ends it with a zero. -/
def escapeLoop : List UInt8 → Nat → Printbuffer → Outcome Printbuffer
  | [], _, p => .ok p
  | c :: input, pointer, p =>
      (p.store pointer (escape c ++ if escapeCharacters c = 5 then [0] else [])).bind fun p =>
        escapeLoop input (pointer + (escape c).length) p

/-- `print_string_ptr`. -/
def printStringPtr (memory : Allocator) (input : List UInt8) (p : Printbuffer) :
    Outcome (Bool × Printbuffer) :=
  let input := cString input
  let escapes := (input.map escapeCharacters).sum
  let outputLength := input.length + escapes
  match p.ensure memory (outputLength + 3) with
  | (false, p) => .ok (false, p)
  | (true, p) =>
      (p.store p.offset [34]).bind fun p =>
      (if escapes = 0 then p.store (p.offset + 1) input
        else escapeLoop input (p.offset + 1) p).bind fun p =>
      (p.store (p.offset + (outputLength + 1)) [34, 0]).bind fun p => .ok (true, p)

mutual

def printValue (memory : Allocator) : CJson → Printbuffer → Outcome (Bool × Printbuffer)
  | .null, p => emit memory 5 (nullText ++ [0]) 0 p
  | .bool false, p => emit memory 6 (boolText false ++ [0]) 0 p
  | .bool true, p => emit memory 5 (boolText true ++ [0]) 0 p
  | .number valueint valuedouble, p => printNumber memory valueint valuedouble p
  | .string valuestring, p => printStringPtr memory valuestring p
  | .array child, p =>
      -- `print_array`
      andThen (emit memory 1 [91] 1 p) fun p =>
      andThen (printElements memory child { p with depth := p.depth + 1 }) fun p =>
      andThen (emit memory 2 [93, 0] 0 p) fun p => .ok (true, { p with depth := p.depth - 1 })
  | .object child, p =>
      -- `print_object`
      let length := if p.format then 2 else 1
      andThen (emit memory (length + 1) (123 :: if p.format then [10] else []) length p) fun p =>
      andThen (printMembers memory child { p with depth := p.depth + 1 }) fun p =>
      andThen (emit memory (if p.format then p.depth + 1 else 2)
        ((if p.format then List.replicate (p.depth - 1) 9 else []) ++ [125, 0]) 0 p) fun p =>
        .ok (true, { p with depth := p.depth - 1 })

/-- The loop of `print_array`. -/
def printElements (memory : Allocator) : List CJson → Printbuffer → Outcome (Bool × Printbuffer)
  | [], p => .ok (true, p)
  | item :: next, p =>
      andThen (printValue memory item p) fun p =>
      andThen p.updateOffset fun p =>
      andThen
        (if next.isEmpty then .ok (true, p)
          else
            let length := if p.format then 2 else 1
            emit memory (length + 1) (44 :: (if p.format then [32] else []) ++ [0]) length p)
        fun p => printElements memory next p

/-- The loop of `print_object`. -/
def printMembers (memory : Allocator) :
    List (List UInt8 × CJson) → Printbuffer → Outcome (Bool × Printbuffer)
  | [], p => .ok (true, p)
  | (name, item) :: next, p =>
      andThen
        (if p.format then emit memory p.depth (List.replicate p.depth 9) p.depth p
          else .ok (true, p)) fun p =>
      andThen (printStringPtr memory name p) fun p =>
      andThen p.updateOffset fun p =>
      let length := if p.format then 2 else 1
      andThen (emit memory length (58 :: if p.format then [9] else []) length p) fun p =>
      andThen (printValue memory item p) fun p =>
      andThen p.updateOffset fun p =>
      let length := (if p.format then 1 else 0) + if next.isEmpty then 0 else 1
      andThen (emit memory (length + 1)
        ((if next.isEmpty then [] else [44]) ++ (if p.format then [10] else []) ++ [0]) length p)
        fun p => printMembers memory next p

end

/-- The end of `print`: the block is cut to the text, or freed. -/
def finish (memory : Allocator) (done : Bool) (p : Printbuffer) :
    Outcome (Option (List UInt8) × Nat) :=
  match p.buffer with
  | none => if done then .fault else .ok (none, p.live)
  | some buffer =>
      if done then
        match realloc memory p.allocs buffer (p.offset + 1) with
        | some printed => .ok (some printed, p.live)
        | none => .ok (none, p.live - 1)
      else .ok (none, p.live - 1)

/-- `print`: the text, or nothing, and the number of blocks that are left. -/
def print (memory : Allocator) (item : CJson) (format : Bool) :
    Outcome (Option (List UInt8) × Nat) :=
  match malloc memory 0 256 with
  | none => .ok (none, 0)
  | some buffer =>
      (andThen (printValue memory item ⟨some buffer, 256, 0, 0, format, 1, 1⟩)
        updateOffset).bind fun (done, p) => finish memory done p

end Printbuffer

end CJson
