import SgMuni.C.Outcome
import SgMuni.Json.Print
import Mathlib.Logic.Function.Basic

/-!
# The items on the heap

The functions of `cJSON.c` that create, link, find and delete items: structs with pointers to
their neighbours and to their first child, and to the blocks with their strings. The `prev` of
a first child points to the last one.

## Implementation notes

The null pointer is `none`. An access to an address without an item, and a `free` of an address
without a block, are faults. The bits `cJSON_IsReference` and `cJSON_StringIsConst` of the
`type` are fields of their own.
-/

namespace CJson

open C

/-- The type of an item; `invalid` is that of the zeros of `memset`. -/
inductive NodeType
  | invalid
  | bool (value : Bool)
  | null
  | number
  | string
  | array
  | object
  | raw
deriving DecidableEq

/-- The struct `cJSON`. -/
structure Node where
  next : Option Nat
  prev : Option Nat
  child : Option Nat
  type : NodeType
  isReference : Bool
  stringIsConst : Bool
  valuestring : Option Nat
  valueint : Int
  valuedouble : Double
  string : Option Nat

/-- A block with an item, or with a string without its terminator. -/
inductive Cell
  | item (node : Node)
  | chars (bytes : List UInt8)

/-- An allocator refuses a call, or gives an address that is not in use. -/
structure Malloc where
  choose : Nat → (Nat → Option Cell) → Option Nat
  unused : ∀ call cells a, choose call cells = some a → cells a = none

/-- The blocks in use, and the calls of the allocator so far. -/
structure Memory where
  cells : Nat → Option Cell
  calls : Nat

/-- The item that `memset` leaves. -/
def Node.zero : Node where
  next := none
  prev := none
  child := none
  type := .invalid
  isReference := false
  stringIsConst := false
  valuestring := none
  valueint := 0
  valuedouble := toDouble 0
  string := none

namespace Memory

def load (m : Memory) (item : Nat) : Outcome Node :=
  match m.cells item with
  | some (.item node) => .ok node
  | _ => .fault

/-- Stores to fields of an item. -/
def store (m : Memory) (item : Nat) (f : Node → Node) : Outcome Memory :=
  (m.load item).bind fun node =>
    .ok { m with cells := Function.update m.cells item (some (.item (f node))) }

def free (m : Memory) (a : Nat) : Outcome Memory :=
  match m.cells a with
  | some _ => .ok { m with cells := Function.update m.cells a none }
  | none => .fault

def allocate (m : Memory) (malloc : Malloc) (cell : Cell) : Option Nat × Memory :=
  match malloc.choose m.calls m.cells with
  | some a => (some a, { cells := Function.update m.cells a (some cell), calls := m.calls + 1 })
  | none => (none, { m with calls := m.calls + 1 })

variable {m : Memory} {item a : Nat} {node : Node} {cell : Cell}

theorem load_eq (h : m.cells item = some (.item node)) : m.load item = .ok node := by
  rw [load, h]

theorem store_eq (h : m.cells item = some (.item node)) (f : Node → Node) : m.store item f =
    .ok { m with cells := Function.update m.cells item (some (.item (f node))) } := by
  rw [store, load_eq h, Outcome.ok_bind]

theorem free_eq (h : m.cells a = some cell) :
    m.free a = .ok { m with cells := Function.update m.cells a none } := by
  rw [free, h]

/-- A string of an item is freed, if there is one and the bit `kept` is not set. -/
def freeString (m : Memory) (item : Nat) (kept : Node → Bool) (field : Node → Option Nat)
    (clear : Node → Node) : Outcome Memory :=
  (m.load item).bind fun node =>
    match field node with
    | none => .ok m
    | some text =>
        if kept node then .ok m else (m.free text).bind fun m => m.store item clear

end Memory

def cJsonNewItem (malloc : Malloc) (m : Memory) : Option Nat × Memory :=
  m.allocate malloc (.item .zero)

def cJsonStrdup (malloc : Malloc) (string : List UInt8) (m : Memory) : Option Nat × Memory :=
  m.allocate malloc (.chars (cString string))

/-- `cJSON_Delete`, with at most `fuel` calls and turns of the loop inside of each other. -/
def cJsonDelete : Nat → Option Nat → Memory → Outcome Memory
  | _, none, m => .ok m
  | 0, some _, _ => .fault
  | fuel + 1, some item, m =>
      (m.load item).bind fun node =>
      (if node.isReference then .ok m else cJsonDelete fuel node.child m).bind fun m =>
      (m.freeString item Node.isReference Node.valuestring
        fun node => { node with valuestring := none }).bind fun m =>
      (m.freeString item Node.stringIsConst Node.string
        fun node => { node with string := none }).bind fun m =>
      (m.free item).bind fun m => cJsonDelete fuel node.next m

/-- An item of a type without other fields. -/
def create (malloc : Malloc) (f : Node → Node) (m : Memory) : Outcome (Option Nat × Memory) :=
  match cJsonNewItem malloc m with
  | (none, m) => .ok (none, m)
  | (some item, m) => (m.store item f).bind fun m => .ok (some item, m)

def cJsonCreateObject (malloc : Malloc) (m : Memory) : Outcome (Option Nat × Memory) :=
  create malloc (fun node => { node with type := .object }) m

def cJsonCreateArray (malloc : Malloc) (m : Memory) : Outcome (Option Nat × Memory) :=
  create malloc (fun node => { node with type := .array }) m

def cJsonCreateNumber (malloc : Malloc) (num : Double) (m : Memory) :
    Outcome (Option Nat × Memory) :=
  create malloc
    (fun node => { node with type := .number, valuedouble := num, valueint := saturate num }) m

def cJsonCreateString (malloc : Malloc) (string : List UInt8) (m : Memory) :
    Outcome (Option Nat × Memory) :=
  match cJsonNewItem malloc m with
  | (none, m) => .ok (none, m)
  | (some item, m) =>
      (m.store item fun node => { node with type := .string }).bind fun m =>
      match cJsonStrdup malloc string m with
      | (valuestring, m) =>
          (m.store item fun node => { node with valuestring }).bind fun m =>
          if valuestring = none then (cJsonDelete 1 (some item) m).bind fun m => .ok (none, m)
          else .ok (some item, m)

def suffixObject (prev item : Nat) (m : Memory) : Outcome Memory :=
  (m.store prev fun node => { node with next := some item }).bind fun m =>
    m.store item fun node => { node with prev := some prev }

def addItemToArray (array item : Option Nat) (m : Memory) : Outcome (Bool × Memory) :=
  match item, array with
  | none, _ | _, none => .ok (false, m)
  | some item, some array =>
      if array = item then .ok (false, m)
      else
        (m.load array).bind fun node =>
        match node.child with
        | none =>
            (m.store array fun node => { node with child := some item }).bind fun m =>
            (m.store item fun node => { node with prev := some item, next := none }).bind fun m =>
              .ok (true, m)
        | some child =>
            (m.load child).bind fun first =>
            match first.prev with
            | none => .ok (true, m)
            | some last =>
                (suffixObject last item m).bind fun m =>
                (m.load array).bind fun node =>
                match node.child with
                | none => .fault
                | some child =>
                    (m.store child fun first => { first with prev := some item }).bind fun m =>
                      .ok (true, m)

/-- `add_item_to_object` with a key that is copied. -/
def addItemToObject (malloc : Malloc) (object : Option Nat) (string : List UInt8)
    (item : Option Nat) (m : Memory) : Outcome (Bool × Memory) :=
  match object, item with
  | none, _ | _, none => .ok (false, m)
  | some object, some item =>
      if object = item then .ok (false, m)
      else
        match cJsonStrdup malloc string m with
        | (none, m) => .ok (false, m)
        | (some newKey, m) =>
            (m.freeString item Node.stringIsConst Node.string id).bind fun m =>
            (m.store item
              fun node => { node with string := some newKey, stringIsConst := false }).bind fun m =>
              addItemToArray (some object) (some item) m

/-- The end of the functions that add a new item: an item that was not added is deleted. -/
def addOrDelete (malloc : Malloc) (object : Option Nat) (name : List UInt8) (item : Option Nat)
    (m : Memory) : Outcome (Option Nat × Memory) :=
  (addItemToObject malloc object name item m).bind fun (added, m) =>
    if added then .ok (item, m) else (cJsonDelete 1 item m).bind fun m => .ok (none, m)

def cJsonAddNumberToObject (malloc : Malloc) (object : Option Nat) (name : List UInt8)
    (number : Double) (m : Memory) : Outcome (Option Nat × Memory) :=
  (cJsonCreateNumber malloc number m).bind fun (item, m) => addOrDelete malloc object name item m

def cJsonAddStringToObject (malloc : Malloc) (object : Option Nat) (name string : List UInt8)
    (m : Memory) : Outcome (Option Nat × Memory) :=
  (cJsonCreateString malloc string m).bind fun (item, m) => addOrDelete malloc object name item m

end CJson
