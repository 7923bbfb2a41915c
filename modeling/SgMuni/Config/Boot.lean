import SgMuni.C.Lines
import SgMuni.C.Outcome
import SgMuni.Json.Print
import SgMuni.Gpio.Monitor

/-!
# The configuration phase of a boot

`main` from the declaration of `config_json` to the start of the server, with
the files that it reads and writes. A file that exists can be read; what becomes
of a write is an argument.

## Implementation notes

`cJSON_Parse` is a parameter. The theorems ask of it only that it reads back
what `cJSON_Print` makes of the tree of the defaults.
-/

namespace SgMuni

/-- The names of the inputs in `config.json`. -/
def channelName (i : Input) : List UInt8 :=
  match i.val with
  | 0 => ascii ['i', 'g', 'n', 'i', 't', 'i', 'o', 'n']
  | 1 => ascii ['b', 'i', 'n', 'l', 'i', 'f', 't']
  | 2 => ascii ['r', 'e', 'v', 'e', 'r', 's', 'e']
  | 3 => ascii ['w', 'a', 't', 'e', 'r', 'j', 'e', 't']
  | 4 => ascii ['s', 'w', 'e', 'e', 'p', 'e', 'r']
  | 5 => ascii ['r', 'e', 's', 'e', 'r', 'v', 'e', '1']
  | _ => ascii ['r', 'e', 's', 'e', 'r', 'v', 'e', '2']

def biasKey : List UInt8 := ascii ['b', 'i', 'a', 's']

def enableKey : List UInt8 := ascii ['e', 'n', 'a', 'b', 'l', 'e']

def high : List UInt8 := ascii ['h', 'i', 'g', 'h']

def low : List UInt8 := ascii ['l', 'o', 'w']

/-- The size of `config_json`. -/
def configSize : Nat := 512

/-- `gpio_bias_mask`, which no path changes. -/
def gpioBiasMask : UInt32 := 0xFE

/-- `read_json_from_file`: what it leaves in the buffer before the terminator,
or `none` when it returns 0. -/
def readJsonFromFile (file : Option (List UInt8)) (bufferSize : Nat) : Option (List UInt8) :=
  match file with
  | none => none
  | some bytes => if bufferSize ≤ bytes.length then none else some bytes

/-- The outcome of the calls of `write_json_to_file`: whether `fopen` opens the file, the number
that `fwrite` returns, and the number of bytes in the file behind `fclose`, the result of which
is ignored. -/
structure JsonWrite where
  opened : Bool
  written : Nat
  stored : Nat

/-- `write_json_to_file`: its result and the file behind it, which `fopen` has emptied. -/
def writeJsonToFile (file jsonStr : Option (List UInt8)) (write : JsonWrite) :
    Int × Option (List UInt8) :=
  match jsonStr with
  | none => (-1, file)
  | some text =>
      if write.opened then
        (if write.written < (C.cString text).length then -1 else 0,
          some ((C.cString text).take write.stored))
      else (-1, file)

/-- All operations of a write succeed, and the text arrives in the file. -/
structure JsonWrite.Complete (write : JsonWrite) (text : List UInt8) : Prop where
  opened : write.opened = true
  written : text.length ≤ write.written
  stored : text.length ≤ write.stored

/-- The variables that the loop over the inputs assigns. -/
structure BiasState where
  gpioBias : Input → GpioBias
  gpioBiasState : UInt32

/-- Static storage and the initial value of `gpio_bias_state`. -/
def BiasState.start : BiasState where
  gpioBias _ := ⟨0, 0⟩
  gpioBiasState := 0

/-- The test `strcmp(item->valuestring, "high") == 0`. -/
def isHigh (valuestring : List UInt8) : Bool := C.cString valuestring == high

/-- The assignments for one input. -/
def BiasState.assign (s : BiasState) (i : Input) (bias enable : List UInt8) : BiasState where
  gpioBias := Function.update s.gpioBias i {
    bias := if isHigh bias then 1 else 0
    enable := if isHigh enable then 1 else 0 }
  gpioBiasState :=
    if isHigh bias then s.gpioBiasState ||| (1 <<< UInt32.ofNat i.val)
    else s.gpioBiasState &&& ~~~(1 <<< UInt32.ofNat i.val)

/-- The body of the loop over the inputs. -/
def readChannel (root : CJson) (s : BiasState) (i : Input) : BiasState :=
  match root.getObjectItem (channelName i) with
  | some (.object child) =>
      match (CJson.object child).getObjectItem biasKey,
          (CJson.object child).getObjectItem enableKey with
      | some (.string bias), some (.string enable) => s.assign i bias enable
      | _, _ => s
  | _ => s

def readChannels (root : CJson) : BiasState :=
  (List.finRange maxInputs).foldl (readChannel root) .start

/-- The tree of the defaults. -/
def defaultConfig : CJson :=
  .object ((List.finRange maxInputs).map fun i =>
    (channelName i, .object [(biasKey, .string low), (enableKey, .string high)]))

/-- What the phase leaves behind; `inputBias` is the argument pair of
`gpio_set_inputbias` when it is called, and `errors` are the arguments of `log_error`. -/
structure Boot where
  gpioBias : Input → GpioBias
  inputBias : Option (UInt32 × UInt32)
  file : Option (List UInt8)
  errors : List String
deriving DecidableEq

/-- The errors of the branch that writes the defaults, with the result of the write. -/
def writeErrors (result : Int) : List String :=
  if result ≠ 0 then ["Failed to read config.json", "Can not write to JSON File"]
  else ["Failed to read config.json"]

/-- The configuration phase with the given `config.json`. -/
def configure (cJsonParse : List UInt8 → Option CJson) (write : JsonWrite)
    (file : Option (List UInt8)) : C.Outcome Boot :=
  match readJsonFromFile file configSize with
  | some text =>
      match cJsonParse (C.cString text) with
      -- The format of the call of `log_error` has a `%s`, and no argument follows.
      | none => .fault
      | some root => .ok {
          gpioBias := (readChannels root).gpioBias
          inputBias := some (gpioBiasMask, (readChannels root).gpioBiasState)
          file := file
          errors := [] }
  | none =>
      let written := writeJsonToFile file (some defaultConfig.cJsonPrint) write
      .ok {
        gpioBias := BiasState.start.gpioBias
        inputBias := none
        file := written.2
        errors := writeErrors written.1 }

section Flags

/-- Both members are flags. -/
structure GpioBias.Flags (b : GpioBias) : Prop where
  bias : b.bias = 0 ∨ b.bias = 1
  enable : b.enable = 0 ∨ b.enable = 1

variable {s : BiasState}

theorem flags_assign (h : ∀ i, (s.gpioBias i).Flags) (i : Input) (bias enable : List UInt8)
    (j : Input) : ((s.assign i bias enable).gpioBias j).Flags := by
  by_cases hj : j = i
  · subst hj
    simp only [BiasState.assign, Function.update_self]
    constructor
    · exact (ite_eq_or_eq _ 1 0).symm
    · exact (ite_eq_or_eq _ 1 0).symm
  · simp only [BiasState.assign, Function.update_of_ne hj]
    exact h j

theorem flags_readChannel (root : CJson) (h : ∀ i, (s.gpioBias i).Flags) (i : Input) :
    ∀ j, ((readChannel root s i).gpioBias j).Flags := by
  unfold readChannel
  split
  · split
    · exact flags_assign h i _ _
    · exact h
  · exact h

theorem flags_readChannels (root : CJson) (i : Input) : ((readChannels root).gpioBias i).Flags := by
  have hfold : ∀ (channels : List Input) (s : BiasState), (∀ i, (s.gpioBias i).Flags) →
      ∀ i, ((channels.foldl (readChannel root) s).gpioBias i).Flags := by
    intro channels
    induction channels with
    | nil => exact fun s hs => hs
    | cons c channels ih => exact fun s hs => ih _ (flags_readChannel root hs c)
  exact hfold _ _ (fun _ => ⟨.inl rfl, .inl rfl⟩) i

/-- Whatever the file holds, the lift input counts the rising or the falling edge. -/
theorem flags_configure {cJsonParse : List UInt8 → Option CJson} {write : JsonWrite}
    {file : Option (List UInt8)} {boot : Boot} (h : configure cJsonParse write file = .ok boot)
    (i : Input) : (boot.gpioBias i).Flags := by
  unfold configure at h
  split at h
  · split at h
    · cases h
    · cases h
      exact flags_readChannels _ i
  · cases h
    exact ⟨.inl rfl, .inl rfl⟩

end Flags

section Branches

/-- What a boot reads is a file that fits into the buffer. -/
theorem readJsonFromFile_eq_some {file : Option (List UInt8)} {n : Nat} {text : List UInt8} :
    readJsonFromFile file n = some text ↔ file = some text ∧ text.length < n := by
  cases file with
  | none => simp [readJsonFromFile]
  | some bytes =>
      simp only [readJsonFromFile, Option.some.injEq]
      constructor
      · intro h
        split at h
        · cases h
        · next hlt =>
            cases h
            exact ⟨rfl, Nat.lt_of_not_le hlt⟩
      · rintro ⟨rfl, hlt⟩
        rw [if_neg (Nat.not_le.mpr hlt)]

/-- A text without a zero is the file behind a complete write of it. -/
theorem writeJsonToFile_complete {write : JsonWrite} {text : List UInt8} (hz : 0 ∉ text)
    (h : write.Complete text) (file : Option (List UInt8)) :
    writeJsonToFile file (some text) write = (0, some text) := by
  simp only [writeJsonToFile, C.cString_of_not_mem hz]
  rw [if_pos h.opened, if_neg (Nat.not_lt.mpr h.written), List.take_of_length_le h.stored]

variable {cJsonParse : List UInt8 → Option CJson} {file : Option (List UInt8)}

/-- The phase comes to an end unless it has read a text that the parser rejects. -/
theorem configure_eq_fault {write : JsonWrite} :
    configure cJsonParse write file = .fault ↔
      ∃ text, readJsonFromFile file configSize = some text ∧
        cJsonParse (C.cString text) = none := by
  unfold configure
  cases hread : readJsonFromFile file configSize with
  | none => simp
  | some text => cases hparse : cJsonParse (C.cString text) <;> simp [hparse]

theorem configure_of_parsed {text : List UInt8} {root : CJson}
    (hread : readJsonFromFile file configSize = some text)
    (hparse : cJsonParse (C.cString text) = some root) (write : JsonWrite) :
    configure cJsonParse write file = .ok {
      gpioBias := (readChannels root).gpioBias
      inputBias := some (gpioBiasMask, (readChannels root).gpioBiasState)
      file := file
      errors := [] } := by
  simp only [configure, hread, hparse]

theorem configure_of_unread (h : readJsonFromFile file configSize = none) (write : JsonWrite) :
    configure cJsonParse write file = .ok {
      gpioBias := fun _ => ⟨0, 0⟩
      inputBias := none
      file := (writeJsonToFile file (some defaultConfig.cJsonPrint) write).2
      errors := writeErrors (writeJsonToFile file (some defaultConfig.cJsonPrint) write).1 } := by
  simp only [configure, h]
  rfl

/-- A boot that has read a file keeps it, and what comes of a write does not matter to it. -/
theorem configure_of_read {text : List UInt8} {boot : Boot} {write : JsonWrite}
    (hread : readJsonFromFile file configSize = some text)
    (h : configure cJsonParse write file = .ok boot) :
    boot.file = file ∧ ∀ write', configure cJsonParse write' file = .ok boot := by
  cases hparse : cJsonParse (C.cString text) with
  | none => rw [configure_eq_fault.mpr ⟨text, hread, hparse⟩] at h; cases h
  | some root =>
      rw [configure_of_parsed hread hparse] at h
      cases h
      exact ⟨rfl, configure_of_parsed hread hparse⟩

end Branches

section Defaults

/-- The default file ends before the buffer does. -/
theorem readJsonFromFile_defaults :
    readJsonFromFile (some defaultConfig.cJsonPrint) configSize =
      some defaultConfig.cJsonPrint := by
  decide +kernel

theorem zero_notMem_defaults : 0 ∉ defaultConfig.cJsonPrint := by
  decide +kernel

theorem gpioBias_defaults : (readChannels defaultConfig).gpioBias = fun _ => ⟨0, 1⟩ := by
  funext i
  revert i
  decide +kernel

variable {cJsonParse : List UInt8 → Option CJson} {file : Option (List UInt8)}
  {write : JsonWrite}

/-- A boot that cannot read the file leaves the defaults, when it can write them. -/
theorem configure_of_unread_complete (h : readJsonFromFile file configSize = none)
    (hwrite : write.Complete defaultConfig.cJsonPrint) :
    configure cJsonParse write file = .ok {
      gpioBias := fun _ => ⟨0, 0⟩
      inputBias := none
      file := some defaultConfig.cJsonPrint
      errors := ["Failed to read config.json"] } := by
  rw [configure_of_unread h, writeJsonToFile_complete zero_notMem_defaults hwrite]
  rfl

/-- A boot that finds the defaults counts rising edges. -/
theorem configure_defaults
    (hparse : cJsonParse defaultConfig.cJsonPrint = some defaultConfig) (write : JsonWrite) :
    configure cJsonParse write (some defaultConfig.cJsonPrint) = .ok {
      gpioBias := fun _ => ⟨0, 1⟩
      inputBias := some (gpioBiasMask, (readChannels defaultConfig).gpioBiasState)
      file := some defaultConfig.cJsonPrint
      errors := [] } := by
  rw [configure_of_parsed readJsonFromFile_defaults
    ((congrArg cJsonParse (C.cString_of_not_mem zero_notMem_defaults)).trans hparse) write,
    gpioBias_defaults]

end Defaults

/-- The next boot finds the set-up that this one used: both come to an end, with the same
settings in memory and the same file. -/
def Stable (cJsonParse : List UInt8 → Option CJson) (write write' : JsonWrite)
    (file : Option (List UInt8)) : Prop :=
  ∃ first second, configure cJsonParse write file = .ok first ∧
    configure cJsonParse write' first.file = .ok second ∧
    second.gpioBias = first.gpioBias ∧ second.file = first.file

section Stability

variable {cJsonParse : List UInt8 → Option CJson} {write write' : JsonWrite}
  {file : Option (List UInt8)}

theorem not_stable_of_unread
    (hparse : cJsonParse defaultConfig.cJsonPrint = some defaultConfig)
    (hwrite : write.Complete defaultConfig.cJsonPrint)
    (h : readJsonFromFile file configSize = none) : ¬Stable cJsonParse write write' file := by
  rintro ⟨first, second, hfirst, hsecond, hbias, -⟩
  rw [configure_of_unread_complete h hwrite] at hfirst
  cases hfirst
  rw [configure_defaults hparse] at hsecond
  cases hsecond
  exact absurd (congrFun hbias binliftPortNum) (by decide)

theorem stable_of_parsed {text : List UInt8} {root : CJson}
    (hread : readJsonFromFile file configSize = some text)
    (hparse : cJsonParse (C.cString text) = some root) :
    Stable cJsonParse write write' file :=
  ⟨_, _, configure_of_parsed hread hparse write, configure_of_parsed hread hparse write',
    rfl, rfl⟩

/-- Two boots, the first of which can write, agree exactly when the file exists, fits into the
buffer and is parsed. -/
theorem configure_stable_iff
    (hparse : cJsonParse defaultConfig.cJsonPrint = some defaultConfig)
    (hwrite : write.Complete defaultConfig.cJsonPrint) (file : Option (List UInt8)) :
    Stable cJsonParse write write' file ↔
      ∃ text, file = some text ∧ text.length < configSize ∧
        (cJsonParse (C.cString text)).isSome := by
  constructor
  · intro hstable
    cases hread : readJsonFromFile file configSize with
    | none => exact absurd hstable (not_stable_of_unread hparse hwrite hread)
    | some text =>
        obtain ⟨hfile, hlength⟩ := readJsonFromFile_eq_some.mp hread
        refine ⟨text, hfile, hlength, Option.isSome_iff_ne_none.mpr fun hrejected => ?_⟩
        obtain ⟨first, _, hfirst, -⟩ := hstable
        rw [configure_eq_fault.mpr ⟨text, hread, hrejected⟩] at hfirst
        cases hfirst
  · rintro ⟨text, hfile, hlength, hparsed⟩
    obtain ⟨root, hroot⟩ := Option.isSome_iff_exists.mp hparsed
    exact stable_of_parsed (readJsonFromFile_eq_some.mpr ⟨hfile, hlength⟩) hroot

/-- The parser as far as the defaults need it. -/
def parseDefaults (text : List UInt8) : Option CJson :=
  if text = defaultConfig.cJsonPrint then some defaultConfig else none

/-- A write without an error. -/
def writeAll : JsonWrite where
  opened := true
  written := 511
  stored := 511

theorem complete_writeAll : writeAll.Complete defaultConfig.cJsonPrint := by
  have hlength := (readJsonFromFile_eq_some.mp readJsonFromFile_defaults).2
  exact ⟨rfl, Nat.le_of_lt_succ hlength, Nat.le_of_lt_succ hlength⟩

/-- With the default file both boots count rising edges. -/
theorem configure_stable_iff_defaults :
    Stable parseDefaults writeAll writeAll (some defaultConfig.cJsonPrint) := by
  refine (configure_stable_iff (if_pos rfl) complete_writeAll _).mpr
    ⟨_, rfl, (readJsonFromFile_eq_some.mp readJsonFromFile_defaults).2, ?_⟩
  rw [C.cString_of_not_mem zero_notMem_defaults, parseDefaults, if_pos rfl]
  rfl

/-- Without a file the lift input counts falling edges, and rising edges from
the next boot on. -/
theorem configure_missing_file :
    parseDefaults defaultConfig.cJsonPrint = some defaultConfig ∧
      writeAll.Complete defaultConfig.cJsonPrint ∧
      (∃ first second, configure parseDefaults writeAll none = .ok first ∧
        configure parseDefaults writeAll first.file = .ok second ∧
        first.gpioBias binliftPortNum = ⟨0, 0⟩ ∧ second.gpioBias binliftPortNum = ⟨0, 1⟩) ∧
      ¬Stable parseDefaults writeAll writeAll none := by
  have hparse : parseDefaults defaultConfig.cJsonPrint = some defaultConfig := if_pos rfl
  have hmissing : readJsonFromFile none configSize = none := rfl
  refine ⟨hparse, complete_writeAll, ?_, not_stable_of_unread hparse complete_writeAll hmissing⟩
  exact ⟨_, _, configure_of_unread_complete hmissing complete_writeAll,
    configure_defaults hparse writeAll, rfl, rfl⟩

end Stability

end SgMuni
