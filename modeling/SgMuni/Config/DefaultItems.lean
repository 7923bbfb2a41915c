import SgMuni.Config.Boot
import SgMuni.Json.Parser
import SgMuni.Json.Building

/-!
# The items of the default settings

The branch of `main` that writes `config.json`, with its items on the heap, where each call of
the allocator may be refused.
-/

namespace SgMuni

open C CJson CJson.Tree

/-- The turns of the loop over the inputs. -/
def addDevices (malloc : Malloc) (root : Option Nat) : List Input → Memory → Outcome Memory
  | [], m => .ok m
  | i :: rest, m =>
      (cJsonCreateObject malloc m).bind fun (device, m) =>
      (cJsonAddStringToObject malloc device biasKey low m).bind fun (_, m) =>
      (cJsonAddStringToObject malloc device enableKey high m).bind fun (_, m) =>
      (addItemToObject malloc root (channelName i) device m).bind fun (_, m) =>
        addDevices malloc root rest m

/-- What the branch leaves: the file, the arguments of `log_error`, the blocks of the printer,
and the heap with the items. -/
structure DefaultsLeft where
  file : Option (List UInt8)
  errors : List String
  blocks : Nat
  memory : Memory

/-- The branch of `main` for a file that cannot be read. -/
def writeDefaults (memory : Allocator) (malloc : Malloc) (write : JsonWrite) (fuel : Nat)
    (file : Option (List UInt8)) (m : Memory) : Outcome DefaultsLeft :=
  (cJsonCreateObject malloc m).bind fun (root, m) =>
  (addDevices malloc root (List.finRange maxInputs) m).bind fun m =>
  (printAndDelete memory fuel root true m).bind fun (jsonStr, blocks, m) =>
    let written := writeJsonToFile file jsonStr write
    .ok {
      file := written.2
      errors := writeErrors written.1
      blocks := if jsonStr.isSome then blocks - 1 else blocks
      memory := m }

/-- The member of one input. -/
def defaultDevice (i : Input) : List UInt8 × CJson :=
  (channelName i, .object [(biasKey, .string low), (enableKey, .string high)])

section Items

variable {base : Nat → Option Cell} {built : List Tree} {m : Memory}

theorem addDevices_has (malloc : Malloc) (inputs : List Input) {R : Option Tree}
    {root : Option Nat} {child : List (List UInt8 × CJson)}
    (hR : Has malloc base built (IsObject malloc child) R root m) :
    ∃ R' left m', addDevices malloc root inputs m = .ok m' ∧
      Has malloc base (left ++ built) (IsObject malloc (child ++ inputs.map defaultDevice)) R' root
        m' ∧
      (left = [] ∨ malloc.Refuses) := by
  induction inputs generalizing built R child m with
  | nil =>
      rw [List.map_nil, List.append_nil]
      exact ⟨R, [], m, rfl, hR, .inl rfl⟩
  | cons i inputs ih =>
      obtain ⟨_, device, m₁, hdevice, hD⟩ := cJsonCreateObject_has malloc hR.grown
      obtain ⟨_, _, m₂, hbias, hD⟩ := cJsonAddStringToObject_has hD biasKey low
      obtain ⟨_, _, m₃, henable, hD⟩ := cJsonAddStringToObject_has hD enableKey high
      obtain ⟨R₁, left, _, m₄, hadd, hR, hleft, -⟩ := addItemToObject_has
        (hR.among hD.grown (List.perm_append_comm_assoc _ _ _)) hD.pointer
        (fun u hu => (hD.meets u hu).toSays) hD.refused (channelName i)
      obtain ⟨R', left', m', hrest, hR, hleft'⟩ := ih hR
      refine ⟨R', left' ++ left, m', ?_, ?_, ?_⟩
      · simp only [addDevices, hdevice, hbias, henable, hadd, hrest, Outcome.ok_bind]
      · have hname : ∀ i : Input, cString (channelName i) = channelName i := by decide
        rw [List.append_assoc, hname] at hR
        rw [List.append_assoc]
        exact hR
      · exact append_left hleft hleft'

/-- Whatever the allocators and the operations on the file do, the branch ends without a block
of the printer, and the blocks of before stay as they are. If no item is refused, nothing of the
items stays, and the file and the errors are the ones of the configuration phase, or, where the
printer was refused memory, the file is as before. -/
theorem writeDefaults_outcome (memory : Allocator) (malloc : Malloc) (write : JsonWrite)
    (file : Option (List UInt8)) (m : Memory) (hfinite : {a | m.cells a ≠ none}.Finite)
    (hread : readJsonFromFile file configSize = none) :
    ∃ n left, (∀ fuel, n ≤ fuel → writeDefaults memory malloc write fuel file m = .ok left) ∧
      left.blocks = 0 ∧
      (∀ a, m.cells a ≠ none → left.memory.cells a = m.cells a) ∧
      (malloc.Refuses ∨ left.memory.cells = m.cells ∧
        ((∃ boot, configure cJsonParse write file = .ok boot ∧
          left.file = boot.file ∧ left.errors = boot.errors) ∨
        left.file = file ∧ Printbuffer.Refuses memory)) := by
  obtain ⟨_, root, m₁, hroot, hR⟩ := cJsonCreateObject_has malloc (Grown.start hfinite)
  obtain ⟨R, left, m₂, hdevices, hR, hleft⟩ := addDevices_has malloc (List.finRange maxInputs) hR
  obtain ⟨n, text, blocks, m', hprint, hgrown, htext⟩ := printAndDelete_has hR memory true
  have hkeep (a : Nat) (ha : m.cells a ≠ none) : m'.cells a = m.cells a := hgrown.same_of_live ha
  have hcells (hrefuses : ¬malloc.Refuses) : m'.cells = m.cells := by
    obtain rfl := hleft.resolve_right hrefuses
    exact hgrown.cells_eq
  have hshort : defaultConfig.cJsonPrint.length < 512 :=
    (readJsonFromFile_eq_some.mp readJsonFromFile_defaults).2
  have hrun (fuel : Nat) (hfuel : n ≤ fuel) : writeDefaults memory malloc write fuel file m =
      .ok {
        file := (writeJsonToFile file text write).2
        errors := writeErrors (writeJsonToFile file text write).1
        blocks := if text.isSome then blocks - 1 else blocks
        memory := m' } := by
    simp only [writeDefaults, hroot, hdevices, hprint fuel hfuel, Outcome.ok_bind]
  rcases htext with ⟨rfl, rfl, hreason⟩ | ⟨child, rfl, rfl, hchild⟩
  · refine ⟨n, _, hrun, rfl, hkeep, or_iff_not_imp_left.mpr fun hrefuses =>
      ⟨hcells hrefuses, .inr ⟨rfl, (hreason.resolve_left hrefuses).resolve_right ?_⟩⟩⟩
    have htext : textOf true 0 (.object ([] ++ (List.finRange maxInputs).map
      defaultDevice)) = defaultConfig.cJsonPrint := rfl
    rw [htext, maxSize]
    omega
  · refine ⟨n, _, hrun, rfl, hkeep, or_iff_not_imp_left.mpr fun hrefuses =>
      ⟨hcells hrefuses, .inl ⟨_, configure_of_unread hread write, ?_⟩⟩⟩
    have htext : textOf true 0 (.object child) = defaultConfig.cJsonPrint := by
      rw [hchild.resolve_right hrefuses]
      rfl
    have hwritten : writeJsonToFile file (some (defaultConfig.cJsonPrint ++ [0])) write =
        writeJsonToFile file (some defaultConfig.cJsonPrint) write := by
      simp only [writeJsonToFile, cString_terminated zero_notMem_defaults,
        cString_of_not_mem zero_notMem_defaults]
    rw [htext, hwritten]
    exact ⟨rfl, rfl⟩

/-- A first boot, where the allocator refuses nothing, the printer gets all of its memory and the
file all of the text. -/
theorem writeDefaults_outcome_first : ∃ malloc : Malloc, ¬malloc.Refuses ∧
    ∃ n left, (∀ fuel, n ≤ fuel →
      writeDefaults (fun _ => some fun _ => 0) malloc writeAll fuel none ⟨fun _ => none, 0⟩ =
        .ok left) ∧
      left.blocks = 0 ∧ left.memory.cells = (fun _ => none) ∧
      left.file = some defaultConfig.cJsonPrint ∧ left.errors = ["Failed to read config.json"] := by
  obtain ⟨malloc, hmalloc⟩ := Malloc.exists_not_refuses
  obtain ⟨n, left, hrun, hblocks, -, hcase⟩ := writeDefaults_outcome (fun _ => some fun _ => 0)
    malloc writeAll none ⟨fun _ => none, 0⟩ (by simp) rfl
  obtain ⟨hcells, hfile⟩ := hcase.resolve_left hmalloc
  rcases hfile with ⟨boot, hboot, hfile, herrors⟩ | ⟨-, call, hcall⟩
  · rw [configure_of_unread_complete rfl complete_writeAll] at hboot
    cases hboot
    exact ⟨malloc, hmalloc, n, left, hrun, hblocks, hcells, hfile, herrors⟩
  · cases hcall

end Items

end SgMuni
