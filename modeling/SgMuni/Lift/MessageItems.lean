import SgMuni.Config.SerialNumber
import SgMuni.Json.Building
import SgMuni.Lift.Downstream

/-!
# The items of a BINLIFT message

`assemble_binlift_message` with its items on the heap, where each call of the allocator may be
refused. The program tests none of the results.
-/

namespace SgMuni

open C CJson CJson.Tree

/-- The `sprintf` to `esn_str`. -/
def sprintfEsn (esn : List UInt8) : Outcome (List UInt8) :=
  if 0 ∈ esn ∧ (esnStr esn).length + 1 ≤ esnStrSize then .ok (esnStr esn) else .fault

/-- The items that `assemble_binlift_message` builds. -/
def binliftItems (malloc : Malloc) (binCount : Int) (esn : List UInt8) (m : Memory) :
    Outcome (Option Nat × Memory) :=
  (cJsonCreateObject malloc m).bind fun (root, m) =>
  (cJsonAddNumberToObject malloc root (ascii ['r', 'e', 'f', 'i', 'd'])
    (toDouble binCount) m).bind fun (_, m) =>
  (sprintfEsn esn).bind fun esnStr =>
  (cJsonAddStringToObject malloc root (ascii ['i', 'd']) esnStr m).bind fun (_, m) =>
  (cJsonAddStringToObject malloc root
    (ascii ['m', 'e', 's', 's', 'a', 'g', 'e', 't', 'y', 'p', 'e'])
    (ascii ['B', 'I', 'N', 'L', 'I', 'F', 'T']) m).bind fun (_, m) =>
  (cJsonCreateObject malloc m).bind fun (lift, m) =>
  (cJsonAddNumberToObject malloc lift (ascii ['l', 'i', 'f', 't', 'i', 'd'])
    (toDouble binCount) m).bind fun (_, m) =>
  (cJsonCreateArray malloc m).bind fun (tags, m) =>
  (addItemToObject malloc lift (ascii ['t', 'a', 'g', 's']) tags m).bind fun (_, m) =>
  (addItemToObject malloc root (ascii ['l', 'i', 'f', 't']) lift m).bind fun (_, m) =>
    .ok (root, m)

/-- `assemble_binlift_message`: the text, the blocks of the printer that are left, and the heap
with the items. -/
def assembleBinliftItems (memory : Allocator) (malloc : Malloc) (fuel : Nat) (binCount : Int)
    (esn : List UInt8) (m : Memory) : Outcome (Option (List UInt8) × Nat × Memory) :=
  (binliftItems malloc binCount esn m).bind fun (root, m) =>
    printAndDelete memory fuel root false m

section Items

variable {m : Memory} {esn : List UInt8}

/-- The members of the root. -/
def binliftMembers (binCount : Int) (esn : List UInt8) : List (List UInt8 × CJson) :=
  [(ascii ['r', 'e', 'f', 'i', 'd'], .ofInt binCount),
    (ascii ['i', 'd'], .string (esnStr esn)),
    (ascii ['m', 'e', 's', 's', 'a', 'g', 'e', 't', 'y', 'p', 'e'],
      .string (ascii ['B', 'I', 'N', 'L', 'I', 'F', 'T'])),
    (ascii ['l', 'i', 'f', 't'], .object [
      (ascii ['l', 'i', 'f', 't', 'i', 'd'], .ofInt binCount),
      (ascii ['t', 'a', 'g', 's'], .array [])])]

/-- The root is built. An item that was not added is left over. -/
theorem binliftItems_has (malloc : Malloc) (binCount : CInt)
    (hfinite : {a | m.cells a ≠ none}.Finite) (hesn : sprintfEsn esn = .ok (esnStr esn)) :
    ∃ T root left m',
    binliftItems malloc binCount.val esn m = .ok (root, m') ∧
      Has malloc m.cells left (IsObject malloc (binliftMembers binCount.val esn)) T root m' ∧
      (left = [] ∨ malloc.Refuses) := by
  obtain ⟨_, root, m₁, hroot, hR⟩ := cJsonCreateObject_has malloc (Grown.start hfinite)
  obtain ⟨_, _, m₂, hrefid, hR⟩ := cJsonAddNumberToObject_has hR
    (ascii ['r', 'e', 'f', 'i', 'd']) (toDouble binCount.val)
  obtain ⟨_, _, m₃, hstring, hR⟩ := cJsonAddStringToObject_has hR (ascii ['i', 'd']) (esnStr esn)
  obtain ⟨R, _, m₄, htype, hR⟩ := cJsonAddStringToObject_has hR
    (ascii ['m', 'e', 's', 's', 'a', 'g', 'e', 't', 'y', 'p', 'e'])
    (ascii ['B', 'I', 'N', 'L', 'I', 'F', 'T'])
  -- The object for the lift is built beside the root, and the array beside both.
  obtain ⟨_, lift, m₅, hlift, hL⟩ := cJsonCreateObject_has malloc hR.grown
  obtain ⟨_, _, m₆, hliftid, hL⟩ := cJsonAddNumberToObject_has hL
    (ascii ['l', 'i', 'f', 't', 'i', 'd']) (toDouble binCount.val)
  obtain ⟨_, tags, m₇, htags, hA⟩ := cJsonCreateArray_has malloc hL.grown
  obtain ⟨_, left, _, m₈, haddTags, hL, hleft, -⟩ := addItemToObject_has
    (hL.among hA.grown (List.perm_append_comm_assoc _ _ _)) hA.pointer hA.meets hA.refused
    (ascii ['t', 'a', 'g', 's'])
  have hperm (L : List CJson.Tree) :
      (L ++ (left ++ (R.toList ++ []))).Perm (R.toList ++ (L ++ left)) := by
    rw [List.append_nil, ← List.append_assoc]
    exact List.perm_append_comm
  obtain ⟨T, left', _, m₉, haddLift, hR, hleft', -⟩ := addItemToObject_has
    (hR.among hL.grown (hperm _)) hL.pointer (fun u hu => (hL.meets u hu).toSays) hL.refused
    (ascii ['l', 'i', 'f', 't'])
  have hid : 0 ∉ esnStr esn := by
    rw [esnStr, List.mem_append, not_or]
    refine ⟨by decide, fun h => ?_⟩
    have hne : (0 : UInt8) != 0 := List.mem_takeWhile_imp (p := (· != 0)) h
    exact absurd hne (by decide)
  rw [cString_of_not_mem hid] at hR
  refine ⟨T, root, left' ++ left, m₉, ?_, hR, ?_⟩
  · simp only [binliftItems, hroot, hrefid, hesn, hstring, htype, hlift, hliftid, htags, haddTags,
      haddLift, Outcome.ok_bind]
  · exact append_left hleft hleft'

theorem length_printString_le (s : List UInt8) : (printString s).length ≤ 6 * s.length + 2 := by
  have hone : ∀ c : UInt8, Printbuffer.escapeCharacters c ≤ 5 := by
    intro c
    unfold Printbuffer.escapeCharacters
    split_ifs <;> decide
  have hsum (s : List UInt8) : (s.map Printbuffer.escapeCharacters).sum ≤ 5 * s.length := by
    induction s with
    | nil => exact le_rfl
    | cons c s ih =>
        have hc := hone c
        rw [List.map_cons, List.sum_cons, List.length_cons]
        omega
  have hcut : (cString s).length ≤ s.length := (List.takeWhile_prefix _).length_le
  have hescapes := hsum (cString s)
  rw [printString, List.length_append, List.length_cons, List.length_singleton,
    Printbuffer.length_flatMap_escape]
  omega

/-- The serial number is short, so that its string and the text fit. -/
theorem sprintfEsn_eq (binCount : CInt) (hzero : 0 ∈ esn) (hlen : esn.length ≤ maxEsnLen.toNat) :
    sprintfEsn esn = .ok (esnStr esn) ∧
      (assembleBinliftMessage binCount.val (cString esn)).length + 2 ≤ maxSize := by
  have hshort : (cString esn).length < 24 := by
    obtain ⟨a, b, rfl, ha⟩ := List.eq_append_cons_of_mem hzero
    rw [cString_terminated ha]
    rw [List.length_append, List.length_cons] at hlen
    have : maxEsnLen.toNat = 24 := rfl
    omega
  have hstr : (esnStr esn).length = 7 + (cString esn).length := List.length_append
  constructor
  · exact if_pos ⟨hzero, by rw [hstr, esnStrSize]; omega⟩
  · have hnumber := length_formatInt_le binCount.2.1 binCount.2.2
    have hid := length_printString_le (esnStr esn)
    have hconstant : (printString (ascii ['r', 'e', 'f', 'i', 'd'])).length = 7 ∧
        (printString (ascii ['i', 'd'])).length = 4 ∧
        (printString (ascii ['m', 'e', 's', 's', 'a', 'g', 'e', 't', 'y', 'p', 'e'])).length = 13 ∧
        (printString (ascii ['B', 'I', 'N', 'L', 'I', 'F', 'T'])).length = 9 ∧
        (printString (ascii ['l', 'i', 'f', 't'])).length = 6 ∧
        (printString (ascii ['l', 'i', 'f', 't', 'i', 'd'])).length = 8 ∧
        (printString (ascii ['t', 'a', 'g', 's'])).length = 6 := by decide
    obtain ⟨h₁, h₂, h₃, h₄, h₅, h₆, h₇⟩ := hconstant
    rw [esnStr] at hid hstr
    have hmax : maxSize = 2147483647 := rfl
    rw [← print_ofInt binCount.2.1 binCount.2.2] at hnumber
    simp only [assembleBinliftMessage, print, printObject, printField, printArray,
      List.length_append, List.length_cons, List.length_nil, h₁, h₂, h₃, h₄, h₅, h₆, h₇]
      at hid hstr hnumber ⊢
    omega

/-- Whatever the allocators do, the function ends, and the blocks of before stay as they are. If
no item is refused, nothing of the items stays, and the text is that of the message. -/
theorem assembleBinliftItems_outcome (memory : Allocator) (malloc : Malloc) (m : Memory)
    (binCount : CInt) (esn : List UInt8) (hfinite : {a | m.cells a ≠ none}.Finite)
    (hzero : 0 ∈ esn) (hlen : esn.length ≤ maxEsnLen.toNat) :
    ∃ n text blocks m',
      (∀ fuel, n ≤ fuel → assembleBinliftItems memory malloc fuel binCount.val esn m =
        .ok (text, blocks, m')) ∧
      (∀ a, m.cells a ≠ none → m'.cells a = m.cells a) ∧
      blocks = (if text.isSome then 1 else 0) ∧
      (malloc.Refuses ∨ m'.cells = m.cells ∧
        (text = some (assembleBinliftMessage binCount.val (cString esn) ++ [0]) ∨
          text = none ∧ Printbuffer.Refuses memory)) := by
  obtain ⟨hesn, hshort⟩ := sprintfEsn_eq binCount hzero hlen
  obtain ⟨T, root, left, m₁, hitems, hT, hleft⟩ :=
    binliftItems_has malloc binCount hfinite hesn
  obtain ⟨n, text, blocks, m', hprint, hgrown, htext⟩ := printAndDelete_has hT memory false
  refine ⟨n, text, blocks, m', fun fuel hfuel => ?_, fun a ha => ?_, ?_, ?_⟩
  · rw [assembleBinliftItems, hitems, Outcome.ok_bind]
    exact hprint fuel hfuel
  · exact hgrown.same_of_live ha
  · rcases htext with ⟨rfl, rfl, -⟩ | ⟨child, rfl, rfl, -⟩ <;> rfl
  · by_cases hrefuses : malloc.Refuses
    · exact .inl hrefuses
    · refine .inr ⟨?_, ?_⟩
      · obtain rfl := hleft.resolve_right hrefuses
        exact hgrown.cells_eq
      · rcases htext with ⟨rfl, -, hreason⟩ | ⟨child, rfl, -, hchild⟩
        · refine .inr ⟨rfl, (hreason.resolve_left hrefuses).resolve_right ?_⟩
          exact Nat.not_lt.mpr hshort
        · rw [hchild.resolve_right hrefuses]
          exact .inl rfl

/-- A message for the count 7 and the serial number `S1`, by allocators that refuse nothing. -/
theorem assembleBinliftItems_outcome_seven : ∃ malloc : Malloc, ¬malloc.Refuses ∧
    ∃ n m', (∀ fuel, n ≤ fuel →
      assembleBinliftItems (fun _ => some fun _ => 0) malloc fuel 7 [83, 49, 0] ⟨fun _ => none, 0⟩ =
        .ok (some (assembleBinliftMessage 7 [83, 49] ++ [0]), 1, m')) ∧
      m'.cells = fun _ => none := by
  obtain ⟨malloc, hmalloc⟩ := Malloc.exists_not_refuses
  obtain ⟨n, text, blocks, m', hrun, -, hblocks, hcase⟩ := assembleBinliftItems_outcome
    (fun _ => some fun _ => 0) malloc ⟨fun _ => none, 0⟩ ⟨7, by decide⟩ [83, 49, 0] (by simp)
    (by decide) (by decide)
  obtain ⟨hcells, htext⟩ := hcase.resolve_left hmalloc
  rcases htext with rfl | ⟨-, call, hcall⟩
  · subst hblocks
    exact ⟨malloc, hmalloc, n, m', hrun, hcells⟩
  · cases hcall

end Items

end SgMuni
