import SgMuni.Json.Nodes
import Mathlib.Data.List.Nodup

/-!
# Trees of items

A tree of items is held at addresses of the heap: each item points to its neighbours, to its
first child and to its strings, and none is marked as a reference or its name as constant.
`cJSON_Delete` frees exactly the blocks of a tree.
-/

namespace CJson

open C

/-- An item with the addresses of its blocks. -/
inductive Tree
  | mk (addr : Nat) (name : Option (Nat × List UInt8)) (type : NodeType) (valueint : Int)
      (valuedouble : Double) (text : Option (Nat × List UInt8)) (children : List Tree)

namespace Tree

def addr : Tree → Nat
  | .mk addr _ _ _ _ _ _ => addr

/-- The address of the first item of a list. -/
def headAddr (ts : List Tree) : Option Nat := ts.head?.map addr

def lastAddr (ts : List Tree) : Option Nat := ts.getLast?.map addr

def stringAddr (s : Option (Nat × List UInt8)) : List Nat := (s.map Prod.fst).toList

mutual

/-- The blocks of an item and of all that is below it. -/
def foot : Tree → List Nat
  | .mk addr name _ _ _ text children =>
      addr :: (stringAddr name ++ (stringAddr text ++ footList children))

def footList : List Tree → List Nat
  | [] => []
  | t :: ts => foot t ++ footList ts

end

mutual

/-- The number of items. -/
def size : Tree → Nat
  | .mk _ _ _ _ _ _ children => sizeList children + 1

def sizeList : List Tree → Nat
  | [] => 0
  | t :: ts => size t + sizeList ts

end

/-- A string stands at its address. -/
def HoldsString (cells : Nat → Option Cell) (s : Option (Nat × List UInt8)) : Prop :=
  ∀ a v, s = some (a, v) → cells a = some (.chars v)

/-- The struct of an item. -/
def node : Tree → Option Nat → Option Nat → Node
  | .mk _ name type valueint valuedouble text children, prev, next =>
      { next
        prev
        child := headAddr children
        type
        isReference := false
        stringIsConst := false
        valuestring := text.map Prod.fst
        valueint
        valuedouble
        string := name.map Prod.fst }

mutual

/-- The heap has an item, with the pointers `prev` and `next`, and all that is below it. -/
def Holds (cells : Nat → Option Cell) : Tree → Option Nat → Option Nat → Prop
  | .mk addr name type valueint valuedouble text children, prev, next =>
      cells addr = some (.item
        ((mk addr name type valueint valuedouble text children).node prev next)) ∧
      HoldsString cells name ∧ HoldsString cells text ∧
      HoldsList cells children (lastAddr children) none

/-- The heap has items one behind the other, `prev` in front of them and `next` behind them. -/
def HoldsList (cells : Nat → Option Cell) : List Tree → Option Nat → Option Nat → Prop
  | [], _, _ => True
  | t :: ts, prev, next =>
      Holds cells t prev ((headAddr ts).or next) ∧ HoldsList cells ts (some t.addr) next

end

/-- The heap without some blocks. -/
def erase (cells : Nat → Option Cell) (blocks : List Nat) : Nat → Option Cell := fun a =>
  if a ∈ blocks then none else cells a

theorem footList_singleton (t : Tree) : footList [t] = foot t := by
  rw [footList, footList, List.append_nil]

section Frame

variable {cells cells' : Nat → Option Cell} {s : Option (Nat × List UInt8)}

theorem mem_stringAddr {a : Nat} : a ∈ stringAddr s ↔ ∃ v, s = some (a, v) := by
  cases s with
  | none => simp [stringAddr]
  | some s =>
      simp only [stringAddr, Option.map_some, Option.mem_toList, Option.some.injEq]
      exact ⟨fun h => ⟨s.2, by rw [← h]⟩, fun ⟨v, hv⟩ => by rw [hv]⟩

theorem HoldsString.congr (h : HoldsString cells s) (heq : ∀ a ∈ stringAddr s, cells' a = cells a) :
    HoldsString cells' s := fun a v hs =>
  (heq a (mem_stringAddr.mpr ⟨v, hs⟩)).trans (h a v hs)

mutual

/-- A tree is held as long as its own blocks stay. -/
theorem Holds.congr (t : Tree) {prev next : Option Nat} (h : Holds cells t prev next)
    (heq : ∀ a ∈ foot t, cells' a = cells a) : Holds cells' t prev next := by
  cases t with
  | mk addr name type valueint valuedouble text children =>
      simp only [foot, List.mem_cons, List.mem_append] at heq
      rw [Holds] at h ⊢
      obtain ⟨hitem, hname, htext, hchildren⟩ := h
      refine ⟨(heq addr (.inl rfl)).trans hitem, ?_, ?_, ?_⟩
      · exact hname.congr fun a ha => heq a (.inr (.inl ha))
      · exact htext.congr fun a ha => heq a (.inr (.inr (.inl ha)))
      · exact HoldsList.congr children hchildren fun a ha => heq a (.inr (.inr (.inr ha)))

theorem HoldsList.congr (ts : List Tree) {prev next : Option Nat}
    (h : HoldsList cells ts prev next) (heq : ∀ a ∈ footList ts, cells' a = cells a) :
    HoldsList cells' ts prev next := by
  cases ts with
  | nil => exact trivial
  | cons t ts =>
      simp only [footList, List.mem_append] at heq
      rw [HoldsList] at h ⊢
      exact ⟨Holds.congr t h.1 fun a ha => heq a (.inl ha),
        HoldsList.congr ts h.2 fun a ha => heq a (.inr ha)⟩

end

end Frame

section Deletion

variable {m : Memory}

theorem erase_nil (cells : Nat → Option Cell) : erase cells [] = cells := by
  funext a
  simp [erase]

theorem erase_of_notMem {cells : Nat → Option Cell} {blocks : List Nat} {a : Nat}
    (ha : a ∉ blocks) : erase cells blocks a = cells a := if_neg ha

theorem erase_append (cells : Nat → Option Cell) (blocks blocks' : List Nat) :
    erase cells (blocks ++ blocks') = erase (erase cells blocks) blocks' := by
  funext a
  by_cases ha : a ∈ blocks <;> simp [erase, ha]

theorem freeString_spec {item : Nat} {node : Node} (kept : Node → Bool)
    (field : Node → Option Nat) (clear : Node → Node)
    (hitem : m.cells item = some (.item node)) (hkept : kept node = false)
    (hclear : field node = none → clear node = node)
    (hlive : ∀ a, field node = some a → a ≠ item ∧ m.cells a ≠ none) :
    ∃ m', m.freeString item kept field clear = .ok m' ∧ m'.calls = m.calls ∧
      m'.cells item = some (.item (clear node)) ∧
      ∀ b, b ≠ item → m'.cells b = erase m.cells (field node).toList b := by
  unfold Memory.freeString
  rw [Memory.load_eq hitem, Outcome.ok_bind]
  cases hfield : field node with
  | none =>
      rw [hclear hfield]
      exact ⟨m, rfl, rfl, hitem, fun b _ => by rw [Option.toList_none, erase_nil]⟩
  | some a =>
      obtain ⟨hne, hcell⟩ := hlive a hfield
      obtain ⟨cell, hcell⟩ := Option.ne_none_iff_exists'.mp hcell
      have hkeep : (Function.update m.cells a none) item = some (.item node) := by
        rw [Function.update_of_ne (Ne.symm hne), hitem]
      refine ⟨⟨Function.update (Function.update m.cells a none) item (some (.item (clear node))),
        m.calls⟩, ?_, rfl, by simp, fun b hb => ?_⟩
      · dsimp only
        rw [hkept, if_neg Bool.false_ne_true, Memory.free_eq hcell, Outcome.ok_bind,
          Memory.store_eq hkeep]
      · simp only [Function.update_of_ne hb, erase, Option.toList_some, List.mem_singleton]
        by_cases hba : b = a
        · rw [if_pos hba, hba, Function.update_self]
        · rw [if_neg hba, Function.update_of_ne hba]

/-- The strings of an item whose children are gone, and the item itself, are freed. -/
theorem free_item {addr : Nat} {name text : Option (Nat × List UInt8)} {node : Node}
    {blocks : List Nat} {cells : Nat → Option Cell}
    (hitem : cells addr = some (.item node)) (hm : m.cells = erase cells blocks)
    (hreference : node.isReference = false) (hconst : node.stringIsConst = false)
    (hvaluestring : node.valuestring = text.map Prod.fst)
    (hstring : node.string = name.map Prod.fst)
    (hname : HoldsString cells name) (htext : HoldsString cells text)
    (hnodup : (addr :: (stringAddr name ++ (stringAddr text ++ blocks))).Nodup) :
    ((m.freeString addr Node.isReference Node.valuestring
      fun node => { node with valuestring := none }).bind fun m =>
      (m.freeString addr Node.stringIsConst Node.string
        fun node => { node with string := none }).bind fun m => m.free addr) =
    .ok { m with
      cells := erase cells (addr :: (stringAddr name ++ (stringAddr text ++ blocks))) } := by
  simp only [List.nodup_cons, List.mem_append, not_or, List.nodup_append] at hnodup
  obtain ⟨⟨haddrName, haddrText, haddrBlocks⟩, -, ⟨-, -, htextBlocks⟩, hnameRest⟩ := hnodup
  have hitem₀ : m.cells addr = some (.item node) := by
    rw [hm, erase_of_notMem haddrBlocks, hitem]
  obtain ⟨m₁, hfree₁, hcalls₁, hitem₁, hcells₁⟩ := freeString_spec Node.isReference
    Node.valuestring (fun node => { node with valuestring := none }) hitem₀ hreference
    (fun h => by rw [← h]) fun a ha => by
      rw [hvaluestring] at ha
      obtain ⟨⟨a, v⟩, hs, rfl⟩ := Option.map_eq_some_iff.mp ha
      have hmem := mem_stringAddr.mpr ⟨v, hs⟩
      refine ⟨fun h => haddrText (h ▸ hmem), ?_⟩
      rw [hm, erase_of_notMem fun hb => htextBlocks a hmem a hb rfl, htext a v hs]
      exact Option.some_ne_none _
  obtain ⟨m₂, hfree₂, hcalls₂, hitem₂, hcells₂⟩ := freeString_spec Node.stringIsConst
    Node.string (fun node => { node with string := none }) hitem₁ hconst
    (fun h => by rw [← h]) fun a ha => by
      have ha : node.string = some a := ha
      rw [hstring] at ha
      obtain ⟨⟨a, v⟩, hs, rfl⟩ := Option.map_eq_some_iff.mp ha
      have hmem := mem_stringAddr.mpr ⟨v, hs⟩
      have hne : a ≠ addr := fun h => haddrName (h ▸ hmem)
      refine ⟨hne, ?_⟩
      have hfirst : a ∉ node.valuestring.toList := by
        rw [hvaluestring]
        exact fun hb => hnameRest a hmem a (.inl hb) rfl
      rw [hcells₁ a hne, erase_of_notMem hfirst, hm,
        erase_of_notMem fun hb => hnameRest a hmem a (.inr hb) rfl, hname a v hs]
      exact Option.some_ne_none _
  rw [hfree₁, Outcome.ok_bind, hfree₂, Outcome.ok_bind, Memory.free_eq hitem₂]
  congr 1
  rw [hcalls₂, hcalls₁]
  congr 1
  funext b
  by_cases hb : b = addr
  · simp [hb, erase]
  · rw [Function.update_of_ne hb, hcells₂ b hb]
    simp only [erase, hcells₁ b hb, hm, hstring, hvaluestring, List.mem_cons, hb,
      List.mem_append, false_or, stringAddr]
    by_cases hn : b ∈ (name.map Prod.fst).toList
    · simp only [hn, true_or, if_true]
    · by_cases ht : b ∈ (text.map Prod.fst).toList
      · simp only [ht, true_or, or_true, if_true, ite_self]
      · simp only [hn, ht, false_or, if_false]

/-- The items of a list, and all that is below them, are freed, each block once, and no other
block is touched. -/
theorem cJsonDelete_list (fuel : Nat) (ts : List Tree) {prev : Option Nat} {m : Memory}
    (hfuel : sizeList ts ≤ fuel) (hholds : HoldsList m.cells ts prev none)
    (hnodup : (footList ts).Nodup) :
    cJsonDelete fuel (headAddr ts) m = .ok { m with cells := erase m.cells (footList ts) } := by
  induction fuel generalizing ts prev m with
  | zero =>
      cases ts with
      | nil =>
          rw [footList, erase_nil]
          rfl
      | cons t ts =>
          cases t
          simp [sizeList, size] at hfuel
  | succ fuel ih =>
      cases ts with
      | nil =>
          rw [footList, erase_nil]
          rfl
      | cons t rest =>
          obtain ⟨addr, name, type, valueint, valuedouble, text, children⟩ := t
          rw [HoldsList, Holds] at hholds
          obtain ⟨⟨hitem, hname, htext, hchildren⟩, hrest⟩ := hholds
          rw [sizeList, size] at hfuel
          rw [footList, List.nodup_append] at hnodup
          obtain ⟨hfirst, hnodupRest, hdisjoint⟩ := hnodup
          rw [foot] at hfirst hdisjoint
          have hnodupChildren : (footList children).Nodup :=
            (List.nodup_append.mp (List.nodup_append.mp (List.nodup_cons.mp hfirst).2).2.1).2.1
          have hbelow := ih children (by omega) hchildren hnodupChildren
          have hown := free_item (m := ⟨erase m.cells (footList children), m.calls⟩) hitem rfl rfl
            rfl rfl rfl hname htext hfirst
          have hkeep : HoldsList (erase m.cells (foot (.mk addr name type valueint valuedouble
            text children)))
              rest (some addr) none := by
            refine hrest.congr rest fun a ha => erase_of_notMem fun hmem => ?_
            rw [foot] at hmem
            exact hdisjoint a hmem a ha rfl
          have hnext := ih rest (m := ⟨erase m.cells (foot (.mk addr name type valueint
            valuedouble text children)), m.calls⟩) (by omega) hkeep hnodupRest
          have hloop := congrArg (fun x : Outcome Memory =>
            x.bind fun m => cJsonDelete fuel (headAddr rest) m) hown
          simp only [Outcome.bind_assoc, Outcome.ok_bind] at hloop
          rw [← foot, hnext] at hloop
          simp only [headAddr, List.head?_cons, Option.map_some, Tree.addr, cJsonDelete]
          rw [Memory.load_eq hitem, Outcome.ok_bind, Tree.node, if_neg Bool.false_ne_true, hbelow,
            Outcome.ok_bind, Option.or_none]
          rw [footList, erase_append]
          exact hloop

/-- `cJSON_Delete` of a tree that stands alone. -/
theorem cJsonDelete_tree (t : Tree) (m : Memory) (fuel : Nat) (hfuel : size t ≤ fuel)
    (hholds : Holds m.cells t none none) (hnodup : (foot t).Nodup) :
    cJsonDelete fuel (some t.addr) m = .ok { m with cells := erase m.cells (foot t) } := by
  rw [← footList_singleton] at hnodup ⊢
  exact cJsonDelete_list fuel [t] (by simpa [sizeList] using hfuel) ⟨hholds, trivial⟩ hnodup

/-- An object with one number, which has a name. -/
def numberTree : Tree :=
  .mk 0 none .object 0 (toDouble 0) none [.mk 1 (some (2, [97])) .number 5 (toDouble 5) none []]

/-- The blocks of the object at 0, of the number at 1 and of its name at 2. -/
def numberCells : Nat → Option Cell
  | 0 => some (.item { Node.zero with child := some 1, type := .object })
  | 1 => some (.item { Node.zero with
      prev := some 1, type := .number, valueint := 5, valuedouble := toDouble 5, string := some 2 })
  | 2 => some (.chars [97])
  | _ => none

theorem holds_numberTree : Holds numberCells numberTree none none := by
  rw [numberTree, Holds, HoldsList, HoldsList, Holds, HoldsList]
  refine ⟨rfl, nofun, nofun, ⟨rfl, fun a v h => ?_, nofun, trivial⟩, trivial⟩
  cases h
  rfl

theorem cJsonDelete_tree_number :
    cJsonDelete 2 (some 0) ⟨numberCells, 3⟩ = .ok ⟨erase numberCells [0, 1, 2], 3⟩ :=
  cJsonDelete_tree numberTree ⟨numberCells, 3⟩ 2 (by decide) holds_numberTree (by decide)

end Deletion

end Tree

end CJson
