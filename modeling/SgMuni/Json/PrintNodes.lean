import SgMuni.Json.PrintRefinement
import SgMuni.Json.Trees

/-!
# Printing from the heap

The printer follows the pointers of the structs. On a tree that the heap holds it does what it
does on the value of the tree.
-/

namespace CJson

open C

/-- The string that a pointer leads to. `print_string_ptr` prints the null pointer as it prints
the empty string. -/
def Memory.chars (m : Memory) (text : Option Nat) : Outcome (List UInt8) :=
  match text with
  | none => .ok []
  | some a =>
      match m.cells a with
      | some (.chars bytes) => .ok bytes
      | _ => .fault

namespace Printbuffer

mutual

/-- `print_value`, with at most `fuel` calls and turns of the loops inside of each other. -/
def printNode (memory : Allocator) (m : Memory) :
    Nat → Option Nat → Printbuffer → Outcome (Bool × Printbuffer)
  | _, none, p => .ok (false, p)
  | 0, some _, _ => .fault
  | fuel + 1, some item, p =>
      (m.load item).bind fun node =>
      match node.type with
      | .invalid => .ok (false, p)
      | .null => emit memory 5 (nullText ++ [0]) 0 p
      | .bool false => emit memory 6 (boolText false ++ [0]) 0 p
      | .bool true => emit memory 5 (boolText true ++ [0]) 0 p
      | .number => printNumber memory node.valueint node.valuedouble p
      | .raw =>
          if node.valuestring = none then .ok (false, p)
          else
            (m.chars node.valuestring).bind fun text =>
              emit memory ((cString text).length + 1) (cString text ++ [0]) 0 p
      | .string => (m.chars node.valuestring).bind fun text => printStringPtr memory text p
      | .array =>
          -- `print_array`
          andThen (emit memory 1 [91] 1 p) fun p =>
          andThen (printArrayNodes memory m fuel node.child { p with depth := p.depth + 1 })
            fun p =>
          andThen (emit memory 2 [93, 0] 0 p) fun p => .ok (true, { p with depth := p.depth - 1 })
      | .object =>
          -- `print_object`
          let length := if p.format then 2 else 1
          andThen (emit memory (length + 1) (123 :: if p.format then [10] else []) length p)
            fun p =>
          andThen (printObjectNodes memory m fuel node.child { p with depth := p.depth + 1 })
            fun p =>
          andThen (emit memory (if p.format then p.depth + 1 else 2)
            ((if p.format then List.replicate (p.depth - 1) 9 else []) ++ [125, 0]) 0 p) fun p =>
            .ok (true, { p with depth := p.depth - 1 })

/-- The loop of `print_array`. -/
def printArrayNodes (memory : Allocator) (m : Memory) :
    Nat → Option Nat → Printbuffer → Outcome (Bool × Printbuffer)
  | _, none, p => .ok (true, p)
  | 0, some _, _ => .fault
  | fuel + 1, some current, p =>
      andThen (printNode memory m fuel (some current) p) fun p =>
      andThen p.updateOffset fun p =>
      (m.load current).bind fun node =>
      andThen
        (if node.next.isNone then .ok (true, p)
          else
            let length := if p.format then 2 else 1
            emit memory (length + 1) (44 :: (if p.format then [32] else []) ++ [0]) length p)
        fun p => printArrayNodes memory m fuel node.next p

/-- The loop of `print_object`. -/
def printObjectNodes (memory : Allocator) (m : Memory) :
    Nat → Option Nat → Printbuffer → Outcome (Bool × Printbuffer)
  | _, none, p => .ok (true, p)
  | 0, some _, _ => .fault
  | fuel + 1, some current, p =>
      andThen
        (if p.format then emit memory p.depth (List.replicate p.depth 9) p.depth p
          else .ok (true, p)) fun p =>
      (m.load current).bind fun node =>
      (m.chars node.string).bind fun name =>
      andThen (printStringPtr memory name p) fun p =>
      andThen p.updateOffset fun p =>
      let length := if p.format then 2 else 1
      andThen (emit memory length (58 :: if p.format then [9] else []) length p) fun p =>
      andThen (printNode memory m fuel (some current) p) fun p =>
      andThen p.updateOffset fun p =>
      let length := (if p.format then 1 else 0) + if node.next.isNone then 0 else 1
      andThen (emit memory (length + 1)
        ((if node.next.isNone then [] else [44]) ++ (if p.format then [10] else []) ++ [0])
        length p)
        fun p => printObjectNodes memory m fuel node.next p

end

/-- `print` of the item at an address, or of the null pointer. -/
def printHeap (memory : Allocator) (m : Memory) (fuel : Nat) (item : Option Nat) (format : Bool) :
    Outcome (Option (List UInt8) × Nat) :=
  match malloc memory 0 256 with
  | none => .ok (none, 0)
  | some buffer =>
      (andThen (printNode memory m fuel item ⟨some buffer, 256, 0, 0, format, 1, 1⟩)
        updateOffset).bind fun (done, p) => finish memory done p

end Printbuffer

namespace Tree

def nameText : Tree → List UInt8
  | .mk _ name _ _ _ _ _ => (name.map Prod.snd).getD []

mutual

/-- What an item says, if it and the items below it have types other than `cJSON_Raw`. -/
def value : Tree → Option CJson
  | .mk _ _ type valueint valuedouble text children =>
      match type with
      | .invalid | .raw => none
      | .null => some .null
      | .bool value => some (.bool value)
      | .number => some (.number valueint valuedouble)
      | .string => some (.string ((text.map Prod.snd).getD []))
      | .array => (elements children).map .array
      | .object => (members children).map .object

def elements : List Tree → Option (List CJson)
  | [] => some []
  | t :: ts => (value t).bind fun item => (elements ts).map (item :: ·)

def members : List Tree → Option (List (List UInt8 × CJson))
  | [] => some []
  | t :: ts => (value t).bind fun item => (members ts).map ((t.nameText, item) :: ·)

end

section Simulation

open Printbuffer

variable {memory : Allocator} {m : Memory} {prev next : Option Nat} {ts : List Tree}

theorem chars_eq {s : Option (Nat × List UInt8)} (h : HoldsString m.cells s) :
    m.chars (s.map Prod.fst) = .ok ((s.map Prod.snd).getD []) := by
  cases s with
  | none => rfl
  | some s => simp [Memory.chars, h s.1 s.2 rfl]

theorem elements_eq_cons {t : Tree} {child : List CJson} (h : elements (t :: ts) = some child) :
    ∃ item rest, value t = some item ∧ elements ts = some rest ∧ child = item :: rest := by
  rw [elements, Option.bind_eq_some_iff] at h
  obtain ⟨item, hitem, h⟩ := h
  obtain ⟨rest, hrest, rfl⟩ := Option.map_eq_some_iff.mp h
  exact ⟨item, rest, hitem, hrest, rfl⟩

theorem members_eq_cons {t : Tree} {child : List (List UInt8 × CJson)}
    (h : members (t :: ts) = some child) : ∃ item rest, value t = some item ∧
      members ts = some rest ∧ child = (t.nameText, item) :: rest := by
  rw [members, Option.bind_eq_some_iff] at h
  obtain ⟨item, hitem, h⟩ := h
  obtain ⟨rest, hrest, rfl⟩ := Option.map_eq_some_iff.mp h
  exact ⟨item, rest, hitem, hrest, rfl⟩

theorem elements_isEmpty {child : List CJson} (h : elements ts = some child) :
    child.isEmpty = ((headAddr ts).or none).isNone := by
  cases ts with
  | nil =>
      cases h
      rfl
  | cons t ts =>
      obtain ⟨item, rest, -, -, rfl⟩ := elements_eq_cons h
      rfl

theorem members_isEmpty {child : List (List UInt8 × CJson)} (h : members ts = some child) :
    child.isEmpty = ((headAddr ts).or none).isNone := by
  cases ts with
  | nil =>
      cases h
      rfl
  | cons t ts =>
      obtain ⟨item, rest, -, -, rfl⟩ := members_eq_cons h
      rfl

theorem size_pos (t : Tree) : 0 < size t := by
  cases t
  exact Nat.succ_pos _

/-- The name and the pointer to the next item, as the printer reads them. -/
theorem Holds.load {t : Tree} (h : Holds m.cells t prev next) : ∃ node, m.load t.addr = .ok node ∧
    node.next = next ∧ m.chars node.string = .ok t.nameText := by
  obtain ⟨addr, name, type, valueint, valuedouble, text, children⟩ := t
  rw [Holds] at h
  exact ⟨_, Memory.load_eq h.1, rfl, chars_eq h.2.1⟩

mutual

/-- The item that the heap holds is printed as its value. -/
theorem printNode_eq (t : Tree) {prev next : Option Nat} {item : CJson} (fuel : Nat)
    (hfuel : 2 * size t ≤ fuel) (h : Holds m.cells t prev next) (hvalue : value t = some item)
    (p : Printbuffer) : printNode memory m fuel (some t.addr) p = printValue memory item p := by
  cases t with
  | mk addr name type valueint valuedouble text children =>
      obtain ⟨fuel, rfl⟩ : ∃ n, fuel = n + 1 :=
        Nat.exists_eq_succ_of_ne_zero (by rw [size] at hfuel; omega)
      rw [size] at hfuel
      rw [Holds] at h
      obtain ⟨hitem, -, htext, hchildren⟩ := h
      rw [Tree.addr, printNode, Memory.load_eq hitem, Outcome.ok_bind]
      dsimp only [Tree.node]
      unfold value at hvalue
      cases type with
      | invalid => cases hvalue
      | raw => cases hvalue
      | null =>
          cases hvalue
          rw [printValue]
      | bool value =>
          cases hvalue
          cases value <;> rw [printValue]
      | number =>
          cases hvalue
          rw [printValue]
      | string =>
          cases hvalue
          dsimp only
          rw [chars_eq htext, Outcome.ok_bind, printValue]
      | array =>
          obtain ⟨child, hchild, rfl⟩ := Option.map_eq_some_iff.mp hvalue
          have hloop := printArrayNodes_eq children fuel (by omega) hchildren hchild
          simp only [hloop]
          rw [printValue]
      | object =>
          obtain ⟨child, hchild, rfl⟩ := Option.map_eq_some_iff.mp hvalue
          have hloop := printObjectNodes_eq children fuel (by omega) hchildren hchild
          simp only [hloop]
          rw [printValue]

theorem printArrayNodes_eq (ts : List Tree) {prev : Option Nat} {child : List CJson} (fuel : Nat)
    (hfuel : 2 * sizeList ts + 1 ≤ fuel) (h : HoldsList m.cells ts prev none)
    (hvalue : elements ts = some child) (p : Printbuffer) :
    printArrayNodes memory m fuel (headAddr ts) p = printElements memory child p := by
  cases ts with
  | nil =>
      cases hvalue
      rw [headAddr, List.head?_nil, Option.map_none, printArrayNodes, printElements]
  | cons t ts =>
      obtain ⟨item, rest, hitem, hrest, rfl⟩ := elements_eq_cons hvalue
      obtain ⟨fuel, rfl⟩ : ∃ n, fuel = n + 1 := Nat.exists_eq_succ_of_ne_zero (by omega)
      have hpos := size_pos t
      rw [sizeList] at hfuel
      rw [HoldsList] at h
      obtain ⟨node, hload, hnext, -⟩ := Holds.load h.1
      have hvalue := printNode_eq t fuel (by omega) h.1 hitem
      have hloop := printArrayNodes_eq ts fuel (by omega) h.2 hrest
      rw [headAddr, List.head?_cons, Option.map_some, printArrayNodes, printElements]
      simp only [hvalue, hload, Outcome.ok_bind, hnext, Option.or_none, hloop,
        elements_isEmpty hrest]

theorem printObjectNodes_eq (ts : List Tree) {prev : Option Nat}
    {child : List (List UInt8 × CJson)} (fuel : Nat) (hfuel : 2 * sizeList ts + 1 ≤ fuel)
    (h : HoldsList m.cells ts prev none) (hvalue : members ts = some child) (p : Printbuffer) :
    printObjectNodes memory m fuel (headAddr ts) p = printMembers memory child p := by
  cases ts with
  | nil =>
      cases hvalue
      rw [headAddr, List.head?_nil, Option.map_none, printObjectNodes, printMembers]
  | cons t ts =>
      obtain ⟨item, rest, hitem, hrest, rfl⟩ := members_eq_cons hvalue
      obtain ⟨fuel, rfl⟩ : ∃ n, fuel = n + 1 := Nat.exists_eq_succ_of_ne_zero (by omega)
      have hpos := size_pos t
      rw [sizeList] at hfuel
      rw [HoldsList] at h
      obtain ⟨node, hload, hnext, hname⟩ := Holds.load h.1
      have hvalue := printNode_eq t fuel (by omega) h.1 hitem
      have hloop := printObjectNodes_eq ts fuel (by omega) h.2 hrest
      rw [headAddr, List.head?_cons, Option.map_some, printObjectNodes, printMembers]
      simp only [hvalue, hload, Outcome.ok_bind, hnext, hname, Option.or_none, hloop,
        members_isEmpty hrest]

end

theorem printHeap_eq {t : Tree} {item : CJson} {fuel : Nat} (hfuel : 2 * size t ≤ fuel)
    (h : Holds m.cells t prev next) (hvalue : value t = some item) (format : Bool) :
    printHeap memory m fuel (some t.addr) format = Printbuffer.print memory item format := by
  unfold printHeap Printbuffer.print
  cases malloc memory 0 256 with
  | none => rfl
  | some buffer =>
      exact congrArg (fun x => (andThen x updateOffset).bind fun y => finish memory y.1 y.2)
        (printNode_eq t fuel hfuel h hvalue _)

/-- The printer over the structs ends with the text of the value that they hold, or with
nothing and no block. -/
theorem printHeap_refines (memory : Allocator) (m : Memory) (t : Tree) (item : CJson) (fuel : Nat)
    (format : Bool) (hfuel : 2 * size t ≤ fuel) (hholds : Holds m.cells t none none)
    (hvalue : value t = some item) (hitem : Ints item) :
    printHeap memory m fuel (some t.addr) format =
        .ok (some ((if format then cJsonPrint item else CJson.print item) ++ [0]), 1) ∨
      printHeap memory m fuel (some t.addr) format = .ok (none, 0) ∧
        (Refuses memory ∨
          maxSize < (if format then cJsonPrint item else CJson.print item).length + 2) := by
  rw [← textOf_zero, printHeap_eq hfuel hholds hvalue]
  exact print_spec memory item format hitem

/-- An object with one number, by an allocator that refuses nothing. -/
theorem printHeap_refines_number :
    printHeap (fun _ => some fun _ => 0) ⟨numberCells, 3⟩ 4 (some 0) false =
      .ok (some [123, 34, 97, 34, 58, 53, 125, 0], 1) := by
  have hnumber : numberBuffer 5 (toDouble 5) = formatInt 5 :=
    numberBuffer_int (n := 5) (by decide) (by decide)
  have htext : CJson.print (.object [([97], .number 5 (toDouble 5))]) =
      [123, 34, 97, 34, 58, 53, 125] := by
    simp [CJson.print, printObject, printField, printString, cString, escape, hnumber,
      formatInt, decimal]
  have hitem : Ints (.object [([97], .number 5 (toDouble 5))]) := by
    simp [Ints, IntsObject, intMin, intMax]
  have h := printHeap_refines (fun _ => some fun _ => 0) ⟨numberCells, 3⟩ numberTree
    (.object [([97], .number 5 (toDouble 5))]) 4 false (by decide) holds_numberTree rfl hitem
  rw [if_neg Bool.false_ne_true, htext] at h
  rcases h with htext | ⟨-, ⟨call, hcall⟩ | hlong⟩
  · exact htext
  · cases hcall
  · exact absurd hlong (by decide)

end Simulation

end Tree

end CJson
