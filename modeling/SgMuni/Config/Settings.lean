import SgMuni.Config.Boot
import SgMuni.Json.RoundTrip

/-!
# Settings and boots

The configuration phase with the parser of the program: the word that it sends for the
inputs, the settings that it reads from a file, and the boots that follow one another.
-/

namespace SgMuni

open C

section BiasWord

/-- Bit `j` of a word. -/
def wordBit (word : UInt32) (j : Nat) : Bool := word.toBitVec.getLsbD j

/-- The word has the bit of each input whose edge is the falling one, and no other bit. -/
def BiasState.Agrees (s : BiasState) : Prop :=
  (∀ i : Input, wordBit s.gpioBiasState i = decide ((s.gpioBias i).bias = 1)) ∧
    ∀ j < 32, maxInputs ≤ j → wordBit s.gpioBiasState j = false

theorem wordBit_shift (i : Input) : ∀ j < 32,
    wordBit (1 <<< UInt32.ofNat i.val) j = decide (i.val = j) := by
  revert i
  decide

theorem wordBit_set (word : UInt32) (i : Input) {j : Nat} (hj : j < 32) :
    wordBit (word ||| (1 <<< UInt32.ofNat i.val)) j = (wordBit word j || decide (i.val = j)) := by
  rw [← wordBit_shift i j hj]
  simp only [wordBit, UInt32.toBitVec_or, BitVec.getLsbD_or]

theorem wordBit_clear (word : UInt32) (i : Input) {j : Nat} (hj : j < 32) :
    wordBit (word &&& ~~~(1 <<< UInt32.ofNat i.val)) j =
      (wordBit word j && !decide (i.val = j)) := by
  rw [← wordBit_shift i j hj]
  simp only [wordBit, UInt32.toBitVec_and, UInt32.toBitVec_not, BitVec.getLsbD_and,
    BitVec.getLsbD_not, hj, decide_true, Bool.true_and]

variable {s : BiasState}

theorem agrees_start : BiasState.start.Agrees := by
  constructor
  · decide
  · intro j hj hge
    simp [BiasState.start, wordBit]

theorem agrees_assign (h : s.Agrees) (i : Input) (bias enable : List UInt8) :
    (s.assign i bias enable).Agrees := by
  have hword : ∀ j < 32, wordBit (s.assign i bias enable).gpioBiasState j =
      if i.val = j then isHigh bias else wordBit s.gpioBiasState j := by
    intro j hj
    simp only [BiasState.assign]
    by_cases hhigh : isHigh bias = true
    · rw [if_pos hhigh, wordBit_set _ _ hj, hhigh]
      by_cases hij : i.val = j <;> simp [hij]
    · rw [if_neg hhigh, wordBit_clear _ _ hj, eq_false_of_ne_true hhigh]
      by_cases hij : i.val = j <;> simp [hij]
  constructor
  · intro k
    rw [hword k (k.isLt.trans (by decide))]
    by_cases hik : i = k
    · subst hik
      rw [if_pos rfl]
      simp only [BiasState.assign, Function.update_self]
      cases isHigh bias <;> rfl
    · rw [if_neg fun hval => hik (Fin.ext hval), h.1 k]
      simp only [BiasState.assign, Function.update_of_ne (Ne.symm hik)]
  · intro j hj hge
    rw [hword j hj, if_neg (by have := i.isLt; omega)]
    exact h.2 j hj hge

theorem agrees_readChannel (root : CJson) (h : s.Agrees) (i : Input) :
    (readChannel root s i).Agrees := by
  unfold readChannel
  split
  · split
    · exact agrees_assign h i _ _
    · exact h
  · exact h

theorem agrees_readChannels (root : CJson) : (readChannels root).Agrees := by
  have hfold (channels : List Input) (s : BiasState) (hs : s.Agrees) :
      (channels.foldl (readChannel root) s).Agrees := by
    induction channels generalizing s with
    | nil => exact hs
    | cons i channels ih => exact ih _ (agrees_readChannel root hs i)
  exact hfold _ _ agrees_start

/-- Whatever the file holds, the bit of an input in the word for the hardware is its `bias`
in memory, and the word has no other bit. -/
theorem inputBias_configure {cJsonParse : List UInt8 → Option CJson} {write : JsonWrite}
    {file : Option (List UInt8)} {boot : Boot} (h : configure cJsonParse write file = .ok boot) :
    ∀ call ∈ boot.inputBias, call.1 = gpioBiasMask ∧
      (∀ i : Input, wordBit call.2 i = decide ((boot.gpioBias i).bias = 1)) ∧
      ∀ j < 32, maxInputs ≤ j → wordBit call.2 j = false := by
  intro call hcall
  cases hread : readJsonFromFile file configSize with
  | none =>
      rw [configure_of_unread hread] at h
      cases h
      cases hcall
  | some text =>
      cases hparse : cJsonParse (cString text) with
      | none =>
          rw [configure_eq_fault.mpr ⟨text, hread, hparse⟩] at h
          cases h
      | some root =>
          rw [configure_of_parsed hread hparse] at h
          cases h
          cases hcall
          have hagrees := agrees_readChannels root
          exact ⟨rfl, hagrees.1, hagrees.2⟩

/-- The falling edge on the first input only. -/
def fallingIgnition : CJson :=
  .object [(channelName ⟨0, by decide⟩,
    .object [(biasKey, .string high), (enableKey, .string low)])]

/-- The word has the bit of the first input. -/
theorem inputBias_configure_ignition : ∃ boot,
    configure CJson.cJsonParse writeAll (some fallingIgnition.cJsonPrint) = .ok boot ∧
      boot.inputBias = some (gpioBiasMask, 1) ∧
      (∀ i : Input, wordBit 1 i = decide ((boot.gpioBias i).bias = 1)) ∧
      ∀ j < 32, maxInputs ≤ j → wordBit 1 j = false := by
  have hz : 0 ∉ fallingIgnition.cJsonPrint := CJson.zero_notMem_printFormatted _ 0
  have hparse : CJson.cJsonParse (cString fallingIgnition.cJsonPrint) = some fallingIgnition := by
    rw [cString_of_not_mem hz]
    have hitem : CJson.Recoverable fallingIgnition :=
      ⟨by decide, ⟨by decide, (by decide : 0 ∉ high), by decide, (by decide : 0 ∉ low), trivial⟩,
        trivial⟩
    exact (hitem.parse_print (by decide)).2
  have hread : readJsonFromFile (some fallingIgnition.cJsonPrint) configSize =
      some fallingIgnition.cJsonPrint := by decide +kernel
  have hword : (readChannels fallingIgnition).gpioBiasState = 1 := by decide +kernel
  have hboot := configure_of_parsed hread hparse writeAll
  rw [hword] at hboot
  have hcall := inputBias_configure hboot (gpioBiasMask, 1) rfl
  exact ⟨_, hboot, rfl, hcall.2⟩

end BiasWord

section RoundTrip

/-- The text of a flag in `config.json`. -/
def levelText (flag : UInt8) : List UInt8 := if flag = 1 then high else low

/-- The members of one input. -/
def deviceTree (bias : GpioBias) : CJson :=
  .object [(biasKey, .string (levelText bias.bias)), (enableKey, .string (levelText bias.enable))]

/-- The tree of some settings, with the members that the defaults have. -/
def settingsTree (settings : Input → GpioBias) : CJson :=
  .object ((List.finRange maxInputs).map fun i => (channelName i, deviceTree (settings i)))

/-- The file that holds some settings. -/
def settingsFile (settings : Input → GpioBias) : Option (List UInt8) :=
  some (settingsTree settings).cJsonPrint

variable (settings : Input → GpioBias)

theorem length_printString_levelText (flag : UInt8) :
    (CJson.printString (levelText flag)).length ≤ 6 := by
  unfold levelText
  split_ifs <;> decide

theorem isHigh_levelText (flag : UInt8) : isHigh (levelText flag) = decide (flag = 1) := by
  unfold levelText
  by_cases h : flag = 1
  · rw [if_pos h, decide_eq_true h]
    decide
  · rw [if_neg h, decide_eq_false h]
    decide

/-- The name of an input finds its own member. -/
theorem getObjectItem_settingsTree (i : Input) :
    (settingsTree settings).getObjectItem (channelName i) = some (deviceTree (settings i)) := by
  have hnames : ∀ i : Input, (List.finRange maxInputs).find?
      (fun k => CJson.sameName (channelName i) (channelName k)) = some i := by
    decide +kernel
  simp only [settingsTree, CJson.getObjectItem, List.find?_map, Function.comp_def, hnames i]
  rfl

theorem depth_settingsTree : (settingsTree settings).depth = 2 := rfl

theorem zero_notMem_levelText (flag : UInt8) : 0 ∉ levelText flag := by
  unfold levelText
  split_ifs <;> decide

theorem recoverable_settingsTree : (settingsTree settings).Recoverable := by
  have hname : ∀ i : Input, 0 ∉ channelName i := by decide
  have hall (channels : List Input) : CJson.RecoverableObject (channels.map fun i =>
      (channelName i, deviceTree (settings i))) := by
    induction channels with
    | nil => trivial
    | cons i channels ih =>
        have hdevice : CJson.Recoverable (deviceTree (settings i)) :=
          ⟨by decide, zero_notMem_levelText _, by decide, zero_notMem_levelText _, trivial⟩
        exact ⟨hname i, hdevice, ih⟩
  exact hall _

theorem parse_settingsTree :
    CJson.cJsonParse (settingsTree settings).cJsonPrint = some (settingsTree settings) :=
  ((recoverable_settingsTree settings).parse_print (by rw [depth_settingsTree]; decide)).2

theorem length_deviceText (bias : GpioBias) :
    (CJson.printFormatted 1 (deviceTree bias)).length ≤ 50 := by
  have hbias := length_printString_levelText bias.bias
  have henable := length_printString_levelText bias.enable
  have hkeys : (CJson.printString biasKey).length = 6 ∧
      (CJson.printString enableKey).length = 8 := by decide
  simp only [deviceTree, CJson.printFormatted, CJson.printFormattedObject,
    CJson.printFormattedField, List.length_append, List.length_cons, List.length_nil,
    List.length_replicate, hkeys]
  omega

/-- The members of the inputs, one line after the other. -/
theorem length_settingsText (channels : List Input) :
    (CJson.printFormattedObject 1 (channels.map fun i =>
      (channelName i, deviceTree (settings i)))).length ≤ channels.length * 70 := by
  have hname : ∀ i : Input, (CJson.printString (channelName i)).length ≤ 11 := by decide
  induction channels with
  | nil => exact Nat.zero_le _
  | cons i channels ih =>
      have hi := hname i
      have hdevice := length_deviceText (settings i)
      cases channels with
      | nil =>
          simp only [List.map_cons, List.map_nil, CJson.printFormattedObject,
            CJson.printFormattedField, List.length_append, List.length_cons, List.length_nil,
            List.length_replicate]
          omega
      | cons j channels =>
          simp only [List.map_cons, List.length_cons] at ih
          simp only [List.map_cons, CJson.printFormattedObject, CJson.printFormattedField,
            List.length_append, List.length_cons, List.length_nil, List.length_replicate]
          omega

/-- Every file of settings fits into the buffer. -/
theorem length_settingsFile : (settingsTree settings).cJsonPrint.length < configSize := by
  have hmembers := length_settingsText settings (List.finRange maxInputs)
  rw [List.length_finRange] at hmembers
  rw [settingsTree, CJson.cJsonPrint, CJson.printFormatted]
  simp only [List.length_append, List.length_cons, List.length_nil, List.length_replicate,
    Nat.zero_add]
  have hsize : maxInputs * 70 + 4 < configSize := by decide
  omega

theorem readJsonFromFile_settings :
    readJsonFromFile (settingsFile settings) configSize =
      some (settingsTree settings).cJsonPrint :=
  readJsonFromFile_eq_some.mpr ⟨rfl, length_settingsFile settings⟩

variable {settings}

theorem readChannel_settingsTree (s : BiasState) (i : Input) :
    readChannel (settingsTree settings) s i =
      s.assign i (levelText (settings i).bias) (levelText (settings i).enable) := by
  have hbias : (deviceTree (settings i)).getObjectItem biasKey =
      some (.string (levelText (settings i).bias)) := rfl
  have henable : (deviceTree (settings i)).getObjectItem enableKey =
      some (.string (levelText (settings i).enable)) := rfl
  rw [readChannel, getObjectItem_settingsTree]
  simp only [deviceTree] at hbias henable ⊢
  rw [hbias, henable]

theorem assign_settings (hflags : ∀ i, (settings i).Flags) (s : BiasState) (i : Input) :
    (s.assign i (levelText (settings i).bias) (levelText (settings i).enable)).gpioBias i =
      settings i := by
  obtain ⟨hbias, henable⟩ := hflags i
  have hflag {flag : UInt8} (h : flag = 0 ∨ flag = 1) :
      (if decide (flag = 1) = true then 1 else 0) = flag := by
    rcases h with rfl | rfl <;> rfl
  simp only [BiasState.assign, Function.update_self, isHigh_levelText]
  rw [hflag hbias, hflag henable]

/-- The loop over the inputs leaves the settings of the tree. -/
theorem gpioBias_settingsTree (hflags : ∀ i, (settings i).Flags) :
    (readChannels (settingsTree settings)).gpioBias = settings := by
  have hfold (channels : List Input) (s : BiasState) (j : Input)
      (h : j ∈ channels ∨ s.gpioBias j = settings j) :
      (channels.foldl (readChannel (settingsTree settings)) s).gpioBias j = settings j := by
    induction channels generalizing s with
    | nil => exact h.resolve_left List.not_mem_nil
    | cons i channels ih =>
        rw [List.foldl_cons]
        refine ih _ ?_
        rw [readChannel_settingsTree]
        by_cases hij : j = i
        · subst hij
          exact .inr (assign_settings hflags s j)
        · rcases h with hmem | hs
          · exact .inl ((List.mem_cons.mp hmem).resolve_left hij)
          · refine .inr ?_
            simp only [BiasState.assign, Function.update_of_ne hij]
            exact hs
  funext j
  exact hfold _ _ j (.inl (List.mem_finRange j))

/-- A boot takes the settings that the file holds, to memory and to the hardware. -/
theorem configure_settingsFile (hflags : ∀ i, (settings i).Flags) (write : JsonWrite) :
    ∃ boot, configure CJson.cJsonParse write (settingsFile settings) = .ok boot ∧
      boot.gpioBias = settings ∧ boot.file = settingsFile settings ∧
      ∃ word, boot.inputBias = some (gpioBiasMask, word) ∧
        ∀ i : Input, wordBit word i = decide ((settings i).bias = 1) := by
  have hz : 0 ∉ (settingsTree settings).cJsonPrint := CJson.zero_notMem_printFormatted _ 0
  have hparse : CJson.cJsonParse (cString (settingsTree settings).cJsonPrint) =
      some (settingsTree settings) := by
    rw [cString_of_not_mem hz]
    exact parse_settingsTree settings
  have hagrees := agrees_readChannels (settingsTree settings)
  rw [BiasState.Agrees, gpioBias_settingsTree hflags] at hagrees
  exact ⟨_, configure_of_parsed (readJsonFromFile_settings settings) hparse write,
    gpioBias_settingsTree hflags, rfl, _, rfl, hagrees.1⟩

/-- The falling edge on all inputs, with the low level active. -/
theorem configure_settingsFile_low : ∃ boot,
    configure CJson.cJsonParse writeAll (settingsFile fun _ => ⟨1, 0⟩) = .ok boot ∧
      boot.gpioBias = (fun _ => ⟨1, 0⟩) ∧ boot.file = settingsFile (fun _ => ⟨1, 0⟩) ∧
      ∃ word, boot.inputBias = some (gpioBiasMask, word) ∧
        ∀ i : Input, wordBit word i = true := by
  have hflags : ∀ i : Input, ((fun _ => ⟨1, 0⟩ : Input → GpioBias) i).Flags :=
    fun _ => ⟨.inr rfl, .inl rfl⟩
  exact configure_settingsFile hflags writeAll

end RoundTrip

section Boots

/-- The boots that follow one another: each finds the file that the one before has left. -/
def boots (writes : Nat → JsonWrite) (file : Option (List UInt8)) : Nat → Outcome Boot
  | 0 => configure CJson.cJsonParse (writes 0) file
  | n + 1 => (boots writes file n).bind fun boot =>
      configure CJson.cJsonParse (writes (n + 1)) boot.file

/-- The program cannot get beyond the file. -/
def Rejected (file : Option (List UInt8)) : Prop :=
  ∃ text, file = some text ∧ text.length < configSize ∧ CJson.cJsonParse (cString text) = none

variable {writes : Nat → JsonWrite} {file : Option (List UInt8)} {boot : Boot}

theorem configure_eq_fault_iff_rejected {write : JsonWrite} :
    configure CJson.cJsonParse write file = .fault ↔ Rejected file := by
  simp only [configure_eq_fault, Rejected, readJsonFromFile_eq_some, and_assoc]

theorem configure_safe (hfile : ¬Rejected file) (write : JsonWrite) :
    ∃ boot, configure CJson.cJsonParse write file = .ok boot := by
  cases hread : readJsonFromFile file configSize with
  | none => exact ⟨_, configure_of_unread hread write⟩
  | some text =>
      obtain ⟨hsome, hlength⟩ := readJsonFromFile_eq_some.mp hread
      cases hparse : CJson.cJsonParse (cString text) with
      | none => exact absurd ⟨text, hsome, hlength, hparse⟩ hfile
      | some root => exact ⟨_, configure_of_parsed hread hparse write⟩

/-- Behind a boot that has come to an end, all boots come to the same. -/
theorem configure_next {write : JsonWrite} (hwrite : write.Complete defaultConfig.cJsonPrint)
    (h : configure CJson.cJsonParse write file = .ok boot) :
    ∃ next, next.file = boot.file ∧
      ∀ write', configure CJson.cJsonParse write' boot.file = .ok next := by
  cases hread : readJsonFromFile file configSize with
  | none =>
      have hparse : CJson.cJsonParse defaultConfig.cJsonPrint = some defaultConfig :=
        parse_settingsTree fun _ => ⟨0, 1⟩
      rw [configure_of_unread_complete hread hwrite] at h
      cases h
      refine ⟨_, ?_, configure_defaults hparse⟩
      rfl
  | some text =>
      obtain ⟨hfile, hsame⟩ := configure_of_read hread h
      rw [hfile]
      exact ⟨boot, hfile, hsame⟩

theorem boots_of_rejected (hfile : Rejected file) (n : Nat) : boots writes file n = .fault := by
  induction n with
  | zero => exact configure_eq_fault_iff_rejected.mpr hfile
  | succ n ih =>
      rw [boots, ih]
      rfl

/-- A file that the parser rejects stops every boot. Behind any other one, all boots from the
second on leave the same settings, the same word for the hardware, the same file and the same
errors. -/
theorem boots_agree (hwrite : (writes 0).Complete defaultConfig.cJsonPrint)
    (file : Option (List UInt8)) :
    (Rejected file → ∀ n, boots writes file n = .fault) ∧
      (¬Rejected file → ∃ boot, ∀ n, boots writes file (n + 1) = .ok boot) := by
  refine ⟨boots_of_rejected, fun hfile => ?_⟩
  obtain ⟨first, hfirst⟩ := configure_safe hfile (writes 0)
  obtain ⟨next, hkeep, hnext⟩ := configure_next hwrite hfirst
  refine ⟨next, fun n => ?_⟩
  induction n with
  | zero =>
      rw [boots, boots, hfirst]
      exact hnext _
  | succ n ih =>
      rw [boots, ih, Outcome.ok_bind, hkeep]
      exact hnext _

/-- The first boot writes the defaults. -/
theorem boots_agree_missing :
    ∃ boot, ∀ n, boots (fun _ => writeAll) none (n + 1) = .ok boot := by
  refine (boots_agree complete_writeAll none).2 ?_
  rintro ⟨text, htext, -⟩
  cases htext

end Boots

end SgMuni
