import SgMuni.Lift.Message
import Mathlib.Logic.Function.Basic

/-!
# From input words to lifts

`gpio_monitor_task` of `sg-gpio-monitor.c` with `gpio_change_callback` of
`sg-comm.c` as its callback, over any sequence of polls.

## Implementation notes

A `GPIOChangeInfo` is a fresh local of each poll. Its `changed` flags start as
the loop behind the callback leaves them, at false; the `rising_edge` flags that
a poll does not write hold any value, which is part of the poll here. The
entries that the callback adds to the pending list are left to `Lift.Handlers`.
-/

namespace SgMuni

/-- The mask `ALL_INPUT`. -/
def allInput : BitVec 32 := 0xFF

abbrev maxInputs : Nat := 7

abbrev Input := Fin maxInputs

def binliftPortNum : Input := 1

def reversePortNum : Input := 2

structure GpioBias where
  bias : UInt8
  enable : UInt8
deriving DecidableEq

structure InputChange where
  changed : Bool
  risingEdge : Bool

structure GpioChangeInfo where
  inputs : Input → InputChange
  currentState : BitVec 32

/-- One turn of the polling loop: the word in shared memory, or `none` when it
cannot be read, and the `rising_edge` flags that the stack holds. -/
structure Poll where
  word : Option (BitVec 32)
  stale : Input → Bool

def gpioReadInputs (mask : BitVec 32) (word : Option (BitVec 32)) : Option (BitVec 32) :=
  word.map (· &&& mask)

/-- The test `word & (1 << i)`. -/
def bitSet (word : BitVec 32) (i : Input) : Bool := word &&& (1#32 <<< i.val) != 0

/-- The loop that fills in the flags of the changed inputs. -/
def fillInputs (changed currentState : BitVec 32) (inputs : Input → InputChange) (i : Input) :
    InputChange :=
  if bitSet changed i then
    { changed := true
      risingEdge := bitSet currentState i }
  else inputs i

/-- The body of the polling loop: the call of the callback, if any, and the new
`last_input_state`. -/
def pollInputs (last : BitVec 32) (p : Poll) : Option GpioChangeInfo × BitVec 32 :=
  match gpioReadInputs allInput p.word with
  | none => (none, last)
  | some current =>
      let changed := (last ^^^ current) &&& 0x7F#32
      if changed ≠ 0#32 then
        (some {
          inputs := fillInputs changed current fun i => { changed := false, risingEdge := p.stale i }
          currentState := current }, current)
      else (none, last)

/-- The polling loop with the callback as a function of some state. -/
def pollLoop {σ : Type*} (callback : GpioChangeInfo → σ → σ) : BitVec 32 → σ → List Poll → σ
  | _, s, [] => s
  | last, s, p :: polls =>
      match pollInputs last p with
      | (some info, last') => pollLoop callback last' (callback info s) polls
      | (none, last') => pollLoop callback last' s polls

/-- The monitor thread; it ends at once when its first read fails. -/
def gpioMonitorTask {σ : Type*} (callback : GpioChangeInfo → σ → σ) (s : σ) : List Poll → σ
  | [] => s
  | first :: polls =>
      match gpioReadInputs allInput first.word with
      | none => s
      | some last => pollLoop callback last s polls

/-- What the callback does, in order. -/
inductive Effect
  | increment
  | writeBincount (value : Int)
  | broadcastBinlift (refid : Int) (text : List UInt8)
  | broadcastReverse (text : List UInt8)

/-- The count and what was done since the thread started. -/
structure Station where
  bincount : Int
  effects : List Effect

/-- The text `{REVERSE=%d;}`. -/
def assembleReverseMessage (bias : Input → GpioBias) (state : Bool) : List UInt8 :=
  let shown : Int := if state && (bias reversePortNum).enable != 0 then 1 else 0
  ascii ['{', 'R', 'E', 'V', 'E', 'R', 'S', 'E', '='] ++ C.formatInt shown ++ cmdEnd

/-- The comparison `rising_edge == enable` of a `bool` and a `uint8_t`. -/
def edgeEnabled (c : InputChange) (b : GpioBias) : Bool := c.risingEdge.toNat == b.enable.toNat

/-- The lift part of `gpio_change_callback`. -/
def Station.lift (esn : List UInt8) (s : Station) : Station :=
  let number := C.wrap (s.bincount + 1)
  { bincount := number
    effects := s.effects ++ [.increment, .writeBincount number,
      .broadcastBinlift number (assembleBinliftMessage number esn)] }

/-- The reverse part of `gpio_change_callback`. -/
def Station.reverse (bias : Input → GpioBias) (c : InputChange) (s : Station) : Station :=
  { s with
    effects := s.effects ++
      [.broadcastReverse (assembleReverseMessage bias (edgeEnabled c (bias reversePortNum)))] }

def gpioChangeCallback (bias : Input → GpioBias) (esn : List UInt8) (info : GpioChangeInfo)
    (s : Station) : Station :=
  let lifted :=
    if (info.inputs binliftPortNum).changed &&
        edgeEnabled (info.inputs binliftPortNum) (bias binliftPortNum) then s.lift esn
    else s
  if (info.inputs reversePortNum).changed then lifted.reverse bias (info.inputs reversePortNum)
  else lifted

/-- The words that the task reads: all that can be read, unless the first read fails. -/
def sampled : List Poll → List (BitVec 32)
  | [] => []
  | first :: polls => if first.word.isSome then (first :: polls).filterMap (·.word) else []

/-- The number of consecutive samples in which a signal changes to the level. -/
def edgesTo (level : Bool) : List Bool → Nat
  | a :: b :: samples => (if a ≠ b ∧ b = level then 1 else 0) + edgesTo level (b :: samples)
  | _ => 0

/-- The edges of an input to its enabled level. -/
def enabledEdges (bias : Input → GpioBias) (i : Input) (words : List (BitVec 32)) : Nat :=
  edgesTo ((bias i).enable == 1) (words.map (·.getLsbD i))

namespace Station

def increments (s : Station) : Nat :=
  s.effects.countP fun
    | .increment => true
    | _ => false

/-- The numbers and texts of the BINLIFT broadcasts. -/
def binlifts (s : Station) : List (Int × List UInt8) :=
  s.effects.filterMap fun
    | .broadcastBinlift refid text => some (refid, text)
    | _ => none

end Station

/-- The BINLIFT broadcast of the lift number `k` behind the count `b`. -/
def announcement (esn : List UInt8) (b : Int) (k : Nat) : Int × List UInt8 :=
  (b + 1 + k, assembleBinliftMessage (b + 1 + k) esn)

/-- From `s` to `t` the count went up by one `n` times, and each new value was
announced once, in order. -/
structure Counted (esn : List UInt8) (n : Nat) (s t : Station) : Prop where
  bincount : t.bincount = s.bincount + n
  increments : t.increments = s.increments + n
  binlifts : t.binlifts = s.binlifts ++ (List.range n).map (announcement esn s.bincount)

section Counting

variable {esn : List UInt8} {m n : Nat} {s t u : Station}

theorem Counted.refl (s : Station) : Counted esn 0 s s where
  bincount := by simp
  increments := rfl
  binlifts := by simp

theorem Counted.trans (hst : Counted esn m s t) (htu : Counted esn n t u) :
    Counted esn (m + n) s u where
  bincount := by
    rw [htu.bincount, hst.bincount]
    omega
  increments := by rw [htu.increments, hst.increments, Nat.add_assoc]
  binlifts := by
    have hshift : announcement esn t.bincount = announcement esn s.bincount ∘ (m + ·) := by
      funext k
      have hnumber : t.bincount + 1 + k = s.bincount + 1 + ((m + k : Nat) : Int) := by
        rw [hst.bincount]
        omega
      simp only [announcement, Function.comp_apply, hnumber]
    rw [htu.binlifts, hst.binlifts, List.append_assoc, List.range_add, List.map_append,
      List.map_map, hshift]

theorem counted_lift (hmin : C.intMin ≤ s.bincount) (hmax : s.bincount + 1 ≤ C.intMax) :
    Counted esn 1 s (s.lift esn) := by
  have hwrap : C.wrap (s.bincount + 1) = s.bincount + 1 :=
    C.wrap_of_int (by omega) hmax
  constructor
  · exact hwrap
  · simp [Station.lift, Station.increments]
  · simp [Station.lift, Station.binlifts, hwrap, announcement]

theorem counted_reverse (bias : Input → GpioBias) (c : InputChange) (s : Station) :
    Counted esn 0 s (s.reverse bias c) := by
  constructor
  · simp [Station.reverse]
  · simp [Station.reverse, Station.increments]
  · simp [Station.reverse, Station.binlifts]

/-- The callback counts a lift exactly when the lift input changed to its enabled level. -/
theorem counted_callback (bias : Input → GpioBias) (info : GpioChangeInfo)
    (hn : n = if (info.inputs binliftPortNum).changed = true ∧
      edgeEnabled (info.inputs binliftPortNum) (bias binliftPortNum) = true then 1 else 0)
    (hmin : C.intMin ≤ s.bincount) (hmax : s.bincount + n ≤ C.intMax) :
    Counted esn n s (gpioChangeCallback bias esn info s) := by
  have hreverse : ∀ t, Counted esn n s t → Counted esn n s
      (if (info.inputs reversePortNum).changed then t.reverse bias (info.inputs reversePortNum)
        else t) := by
    intro t ht
    split
    · exact ht.trans (counted_reverse bias _ t)
    · exact ht
  apply hreverse
  simp only [← Bool.and_eq_true] at hn
  split at hn
  · next hlift =>
      subst hn
      rw [if_pos hlift]
      exact counted_lift hmin hmax
  · next hlift =>
      subst hn
      rw [if_neg hlift]
      exact .refl s

end Counting

section Words

theorem bitSet_eq (word : BitVec 32) (i : Input) : bitSet word i = word.getLsbD i := by
  have hpos : (BitVec.twoPow 32 i.val != 0#32) = true := by
    revert i
    decide
  unfold bitSet
  rw [← BitVec.twoPow_eq, BitVec.and_twoPow]
  cases word.getLsbD i with
  | true => exact hpos
  | false => rfl

theorem getLsbD_allInput (word : BitVec 32) (i : Input) :
    (word &&& allInput).getLsbD i = word.getLsbD i := by
  have hmask : allInput.getLsbD i = true := by
    revert i
    decide
  rw [BitVec.getLsbD_and, hmask, Bool.and_true]

/-- The monitored bits of the difference of the last state and a reading. -/
theorem getLsbD_changed (last word : BitVec 32) (i : Input) :
    ((last ^^^ (word &&& allInput)) &&& 0x7F#32).getLsbD i =
      (last.getLsbD i ^^ word.getLsbD i) := by
  have hmask : (0x7F#32).getLsbD i = true := by
    revert i
    decide
  rw [BitVec.getLsbD_and, BitVec.getLsbD_xor, hmask, Bool.and_true, getLsbD_allInput]

theorem changed_eq_zero_iff (last word : BitVec 32) :
    (last ^^^ (word &&& allInput)) &&& 0x7F#32 = 0#32 ↔
      ∀ i : Input, last.getLsbD i = word.getLsbD i := by
  constructor
  · intro h i
    have hbit := getLsbD_changed last word i
    rw [h, BitVec.getLsbD_zero] at hbit
    simpa using hbit.symm
  · intro h
    apply BitVec.eq_of_getLsbD_eq
    intro k hk
    rw [BitVec.getLsbD_zero]
    by_cases hinput : k < maxInputs
    · have hbit := getLsbD_changed last word ⟨k, hinput⟩
      rw [h ⟨k, hinput⟩, Bool.xor_self] at hbit
      exact hbit
    · -- The mask leaves out the bits that are no inputs.
      have hmask : (0x7F#32).getLsbD k = false := by
        have hle : maxInputs ≤ k := not_lt.mp hinput
        interval_cases k <;> rfl
      rw [BitVec.getLsbD_and, hmask, Bool.and_false]

theorem fillInputs_eq (last word : BitVec 32) (inputs : Input → InputChange) (i : Input) :
    fillInputs ((last ^^^ (word &&& allInput)) &&& 0x7F#32) (word &&& allInput) inputs i =
      if last.getLsbD i = word.getLsbD i then inputs i
      else { changed := true, risingEdge := word.getLsbD i } := by
  rw [fillInputs, bitSet_eq, bitSet_eq, getLsbD_changed, getLsbD_allInput]
  by_cases h : last.getLsbD i = word.getLsbD i
  · rw [if_pos h, h, Bool.xor_self]
    rfl
  · rw [if_neg h, if_pos (by simpa using h)]

end Words

/-- A poll that reads a word leaves the word's monitored bits behind, and the
callback, if any, sees which of them changed and how. -/
theorem pollInputs_spec (last word : BitVec 32) (stale : Input → Bool) :
    (∀ i : Input, (pollInputs last ⟨some word, stale⟩).2.getLsbD i = word.getLsbD i) ∧
    match (pollInputs last ⟨some word, stale⟩).1 with
    | none => ∀ i : Input, last.getLsbD i = word.getLsbD i
    | some info => ∀ i : Input,
        (info.inputs i).changed = (last.getLsbD i ^^ word.getLsbD i) ∧
        ((info.inputs i).changed = true → (info.inputs i).risingEdge = word.getLsbD i) := by
  simp only [pollInputs, gpioReadInputs, Option.map_some]
  by_cases h : (last ^^^ (word &&& allInput)) &&& 0x7F#32 = 0#32
  · have hsame := (changed_eq_zero_iff last word).mp h
    rw [if_neg (not_not.mpr h)]
    exact ⟨hsame, hsame⟩
  · rw [if_pos h]
    refine ⟨getLsbD_allInput word, fun i => ?_⟩
    simp only [fillInputs_eq]
    by_cases hbit : last.getLsbD i = word.getLsbD i
    · simp [hbit]
    · simp [hbit]

/-- The comparison of the callback for an input whose `enable` is a flag. -/
theorem edgeEnabled_iff {c : InputChange} {b : GpioBias} (hb : b.enable = 0 ∨ b.enable = 1) :
    edgeEnabled c b = true ↔ c.risingEdge = (b.enable == 1) := by
  unfold edgeEnabled
  rcases hb with hb | hb <;> rw [hb] <;> cases c.risingEdge <;> decide

section Edges

variable (bias : Input → GpioBias) (i : Input)

theorem enabledEdges_cons (v w : BitVec 32) (words : List (BitVec 32)) :
    enabledEdges bias i (v :: w :: words) =
      (if v.getLsbD i ≠ w.getLsbD i ∧ w.getLsbD i = ((bias i).enable == 1) then 1 else 0) +
        enabledEdges bias i (w :: words) := rfl

/-- Only the input itself matters. -/
theorem enabledEdges_congr {v w : BitVec 32} (h : v.getLsbD i = w.getLsbD i)
    (words : List (BitVec 32)) :
    enabledEdges bias i (v :: words) = enabledEdges bias i (w :: words) := by
  simp only [enabledEdges, List.map_cons, h]

end Edges

/-- One poll counts the edge, if any, between the last word and the one it reads. -/
theorem counted_poll {bias : Input → GpioBias} (esn : List UInt8)
    (henable : (bias binliftPortNum).enable = 0 ∨ (bias binliftPortNum).enable = 1)
    {last word last' : BitVec 32} {stale : Input → Bool} {result : Option GpioChangeInfo}
    (hpoll : pollInputs last ⟨some word, stale⟩ = (result, last')) {n : Nat}
    (hn : n = if last.getLsbD binliftPortNum ≠ word.getLsbD binliftPortNum ∧
      word.getLsbD binliftPortNum = ((bias binliftPortNum).enable == 1) then 1 else 0)
    {s : Station} (hmin : C.intMin ≤ s.bincount) (hmax : s.bincount + n ≤ C.intMax) :
    last'.getLsbD binliftPortNum = word.getLsbD binliftPortNum ∧
    Counted esn n s (result.elim s fun info => gpioChangeCallback bias esn info s) := by
  have hspec := pollInputs_spec last word stale
  rw [hpoll] at hspec
  refine ⟨hspec.1 binliftPortNum, ?_⟩
  cases result with
  | none =>
      have hsame : last.getLsbD binliftPortNum = word.getLsbD binliftPortNum := hspec.2 _
      rw [if_neg fun h => h.1 hsame] at hn
      subst hn
      exact .refl s
  | some info =>
      obtain ⟨hchanged, hrising⟩ := hspec.2 binliftPortNum
      apply counted_callback bias info _ hmin hmax
      rw [hn]
      by_cases hx : (info.inputs binliftPortNum).changed = true
      · have hdiffer : last.getLsbD binliftPortNum ≠ word.getLsbD binliftPortNum := by
          rw [hchanged] at hx
          simpa using hx
        simp only [hx, hdiffer, edgeEnabled_iff henable, hrising hx, true_and, ne_eq,
          not_false_eq_true]
      · have hsame : last.getLsbD binliftPortNum = word.getLsbD binliftPortNum := by
          rw [hchanged] at hx
          simpa using hx
        rw [if_neg fun h => h.1 hsame, if_neg fun h => hx h.1]

/-- The loop counts the edges behind its last word. -/
theorem counted_pollLoop {bias : Input → GpioBias} {esn : List UInt8}
    (henable : (bias binliftPortNum).enable = 0 ∨ (bias binliftPortNum).enable = 1)
    (last : BitVec 32) (polls : List Poll) {n : Nat}
    (hn : n = enabledEdges bias binliftPortNum (last :: polls.filterMap (·.word)))
    {s : Station} (hmin : C.intMin ≤ s.bincount) (hmax : s.bincount + n ≤ C.intMax) :
    Counted esn n s (pollLoop (gpioChangeCallback bias esn) last s polls) := by
  induction polls generalizing last n s with
  | nil =>
      subst hn
      exact .refl s
  | cons p polls ih =>
      obtain ⟨word, stale⟩ := p
      cases word with
      | none => exact ih last hn hmin hmax
      | some word =>
          have hwords : List.filterMap (·.word) (⟨some word, stale⟩ :: polls) =
              word :: polls.filterMap (·.word) := rfl
          rw [hwords, enabledEdges_cons] at hn
          generalize hpoll : pollInputs last ⟨some word, stale⟩ = next
          obtain ⟨result, last'⟩ := next
          set k := if last.getLsbD binliftPortNum ≠ word.getLsbD binliftPortNum ∧
            word.getLsbD binliftPortNum = ((bias binliftPortNum).enable == 1) then 1 else 0 with hk
          obtain ⟨hlast, hstep⟩ := counted_poll esn henable hpoll hk hmin (by omega)
          rw [← enabledEdges_congr bias binliftPortNum hlast] at hn
          have hloop : pollLoop (gpioChangeCallback bias esn) last s (⟨some word, stale⟩ :: polls) =
              pollLoop (gpioChangeCallback bias esn) last'
                (result.elim s fun info => gpioChangeCallback bias esn info s) polls := by
            rw [pollLoop, hpoll]
            cases result <;> rfl
          rw [hloop, hn]
          apply hstep.trans
          apply ih last' rfl
          · rw [hstep.bincount]
            omega
          · rw [hstep.bincount]
            omega

/-- Every edge of the lift input to its enabled level is counted and announced
once, and nothing else is: the announcements carry the numbers that follow the
count with which the thread starts. -/
theorem lifts_counted_once (bias : Input → GpioBias)
    (henable : (bias binliftPortNum).enable = 0 ∨ (bias binliftPortNum).enable = 1)
    (esn : List UInt8) (polls : List Poll) (bincount : Int) (hmin : C.intMin ≤ bincount)
    (hmax : bincount + enabledEdges bias binliftPortNum (sampled polls) ≤ C.intMax) :
    let lifts := enabledEdges bias binliftPortNum (sampled polls)
    let s := gpioMonitorTask (gpioChangeCallback bias esn) ⟨bincount, []⟩ polls
    s.bincount = bincount + lifts ∧ s.increments = lifts ∧
      s.binlifts = (List.range lifts).map (announcement esn bincount) := by
  intro lifts s
  have hcounted : Counted esn lifts ⟨bincount, []⟩ s := by
    cases polls with
    | nil => exact .refl _
    | cons first polls =>
        obtain ⟨word, stale⟩ := first
        cases word with
        | none => exact .refl _
        | some word =>
            have hmask : lifts = enabledEdges bias binliftPortNum
                ((word &&& allInput) :: polls.filterMap (·.word)) :=
              enabledEdges_congr bias binliftPortNum
                (getLsbD_allInput word binliftPortNum).symm _
            exact counted_pollLoop henable (word &&& allInput) polls hmask hmin hmax
  refine ⟨hcounted.bincount, ?_, hcounted.binlifts⟩
  rw [hcounted.increments]
  exact Nat.zero_add lifts

/-- Two lifts at the rising level, with a change of another input, a failed read
and a change of an input that is not monitored in between. -/
theorem lifts_counted_once_run :
    let bias : Input → GpioBias := fun _ => ⟨0, 1⟩
    let polls : List Poll := [⟨some 0, fun _ => false⟩, ⟨some 0x06, fun _ => true⟩,
      ⟨none, fun _ => false⟩, ⟨some 0x84, fun _ => true⟩, ⟨some 0x82, fun _ => true⟩]
    enabledEdges bias binliftPortNum (sampled polls) = 2 ∧
      (gpioMonitorTask (gpioChangeCallback bias []) ⟨41, []⟩ polls).binlifts =
        [announcement [] 41 0, announcement [] 41 1] := by
  refine ⟨by decide, ?_⟩
  exact (lifts_counted_once (fun _ => ⟨0, 1⟩) (.inr rfl) [] [⟨some 0, fun _ => false⟩,
    ⟨some 0x06, fun _ => true⟩, ⟨none, fun _ => false⟩, ⟨some 0x84, fun _ => true⟩,
    ⟨some 0x82, fun _ => true⟩] 41 (by decide) (by decide)).2.2

end SgMuni
