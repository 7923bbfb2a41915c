import SgMuni.Gpio.Reverse

/-!
# What a change report contains

The record that `gpio_monitor_task` passes to its callback is not initialised:
the loop in front of the call writes the inputs that changed, the others hold
what the stack holds. The polls of `Monitor` are those with cleared flags.
-/

namespace SgMuni

/-- One turn of the polling loop: the word in shared memory, if it can be read,
and what the stack holds where the record is placed. -/
structure StackPoll where
  word : Option (BitVec 32)
  stack : Input → InputChange

/-- The body of the polling loop for any content of the stack. -/
def reportInputs (last : BitVec 32) (p : StackPoll) : Option GpioChangeInfo × BitVec 32 :=
  match gpioReadInputs allInput p.word with
  | none => (none, last)
  | some current =>
      let changed := (last ^^^ current) &&& 0x7F#32
      if changed ≠ 0#32 then
        (some { inputs := fillInputs changed current p.stack, currentState := current }, current)
      else (none, last)

/-- The polling loop with the callback as a function of some state. -/
def reportLoop {σ : Type*} (callback : GpioChangeInfo → σ → σ) :
    BitVec 32 → σ → List StackPoll → σ
  | _, s, [] => s
  | last, s, p :: polls =>
      match reportInputs last p with
      | (some info, last') => reportLoop callback last' (callback info s) polls
      | (none, last') => reportLoop callback last' s polls

/-- The monitor thread; it ends at once when its first read fails. -/
def reportTask {σ : Type*} (callback : GpioChangeInfo → σ → σ) (s : σ) : List StackPoll → σ
  | [] => s
  | first :: polls =>
      match gpioReadInputs allInput first.word with
      | none => s
      | some last => reportLoop callback last s polls

/-- A poll whose record starts with cleared `changed` flags. -/
def Poll.cleared (p : Poll) : StackPoll where
  word := p.word
  stack i := { changed := false, risingEdge := p.stale i }

/-- One call of the callback, with the readings that it compares. -/
structure Call where
  previous : BitVec 32
  current : BitVec 32
  info : GpioChangeInfo

/-- The calls behind the reading `previous`, which left `last` as the last state. -/
def callsFrom (previous last : BitVec 32) : List StackPoll → List Call
  | [] => []
  | p :: polls =>
      match p.word, reportInputs last p with
      | some current, (some info, last') =>
          { previous, current, info } :: callsFrom current last' polls
      | some current, (none, last') => callsFrom current last' polls
      | none, (_, last') => callsFrom previous last' polls

/-- The calls of the callback, in order. -/
def calls : List StackPoll → List Call
  | [] => []
  | first :: polls =>
      match first.word with
      | none => []
      | some word => callsFrom word (word &&& allInput) polls

/-- The input has the same level in both readings. -/
def Unchanged (previous current : BitVec 32) (i : Input) : Prop :=
  previous.getLsbD i = current.getLsbD i

instance (previous current : BitVec 32) (i : Input) : Decidable (Unchanged previous current i) :=
  inferInstanceAs (Decidable (previous.getLsbD i = current.getLsbD i))

/-- The report contains the changes and nothing else, and the callback takes the
actions of the inputs that changed at most. -/
structure Faithful (c : Call) : Prop where
  changed : ∀ i, (c.info.inputs i).changed = true ↔ ¬Unchanged c.previous c.current i
  risingEdge : ∀ i, (c.info.inputs i).changed = true →
    (c.info.inputs i).risingEdge = c.current.getLsbD i
  lift : Unchanged c.previous c.current binliftPortNum → ∀ bias esn s,
    (gpioChangeCallback bias esn c.info s).increments = s.increments
  reverse : Unchanged c.previous c.current reversePortNum → ∀ bias esn s,
    (gpioChangeCallback bias esn c.info s).reverses = s.reverses

/-- Behind the reading `previous`, each reading with a change finds cleared
`changed` flags of the inputs that did not change on the stack. -/
def SettledFrom (previous : BitVec 32) : List StackPoll → Prop
  | [] => True
  | p :: polls =>
      match p.word with
      | none => SettledFrom previous polls
      | some current =>
          ((∃ i, ¬Unchanged previous current i) →
            ∀ i, Unchanged previous current i → (p.stack i).changed = false) ∧
          SettledFrom current polls

/-- The stack holds no `changed` flag of an input that did not change, whenever
another one did. -/
def Settled : List StackPoll → Prop
  | [] => True
  | first :: polls =>
      match first.word with
      | none => True
      | some word => SettledFrom word polls

section Loop

variable {σ : Type*} (callback : GpioChangeInfo → σ → σ)

/-- The polls of `Monitor` are those whose record is cleared. -/
theorem reportInputs_cleared (last : BitVec 32) (p : Poll) :
    reportInputs last p.cleared = pollInputs last p := rfl

theorem reportTask_cleared (s : σ) (polls : List Poll) :
    reportTask callback s (polls.map Poll.cleared) = gpioMonitorTask callback s polls := by
  have hloop (last : BitVec 32) (s : σ) (polls : List Poll) :
      reportLoop callback last s (polls.map Poll.cleared) = pollLoop callback last s polls := by
    induction polls generalizing last s with
    | nil => rfl
    | cons p polls ih =>
        rw [List.map_cons, reportLoop, pollLoop, reportInputs_cleared]
        cases pollInputs last p with
        | mk result last' =>
            cases result with
            | none => exact ih last' s
            | some info => exact ih last' (callback info s)
  cases polls with
  | nil => rfl
  | cons first polls =>
      rw [List.map_cons, reportTask, gpioMonitorTask]
      simp only [hloop]
      rfl

/-- The calls are all that the callback sees of the polls. -/
theorem reportTask_eq_foldl (s : σ) (polls : List StackPoll) :
    reportTask callback s polls = (calls polls).foldl (fun s c => callback c.info s) s := by
  have hloop (previous last : BitVec 32) (s : σ) (polls : List StackPoll) :
      reportLoop callback last s polls =
        (callsFrom previous last polls).foldl (fun s c => callback c.info s) s := by
    induction polls generalizing previous last s with
    | nil => rfl
    | cons p polls ih =>
        obtain ⟨word, stack⟩ := p
        rw [reportLoop, callsFrom]
        cases word with
        | none => exact ih previous last s
        | some current =>
            cases reportInputs last ⟨some current, stack⟩ with
            | mk result last' =>
                cases result with
                | none => exact ih current last' s
                | some info => exact ih current last' (callback info s)
  cases polls with
  | nil => rfl
  | cons first polls =>
      obtain ⟨word, stack⟩ := first
      cases word with
      | none => rfl
      | some word => exact hloop word (word &&& allInput) s polls

end Loop

/-- A poll that reads a word: the inputs that changed are written, the others
are left as the stack holds them. -/
theorem reportInputs_some (last word : BitVec 32) (stack : Input → InputChange) :
    reportInputs last ⟨some word, stack⟩ =
      if ∀ i : Input, last.getLsbD i = word.getLsbD i then (none, last)
      else (some {
        inputs := fun i => if last.getLsbD i = word.getLsbD i then stack i
          else { changed := true, risingEdge := word.getLsbD i }
        currentState := word &&& allInput }, word &&& allInput) := by
  have hinputs := funext (fillInputs_eq last word stack)
  simp only [reportInputs, gpioReadInputs, Option.map_some]
  simp only [ne_eq, changed_eq_zero_iff, hinputs, ite_not]

section Reports

variable {previous last current : BitVec 32} {stack : Input → InputChange}

theorem increments_callback (info : GpioChangeInfo) (bias : Input → GpioBias) (esn : List UInt8)
    (s : Station) (h : (info.inputs binliftPortNum).changed = false) :
    (gpioChangeCallback bias esn info s).increments = s.increments := by
  unfold gpioChangeCallback
  rw [h]
  simp only [Bool.false_and, Bool.false_eq_true, if_false]
  split
  · simp [Station.reverse, Station.increments]
  · rfl

theorem reverses_callback_of_unchanged (info : GpioChangeInfo) (bias : Input → GpioBias)
    (esn : List UInt8) (s : Station) (h : (info.inputs reversePortNum).changed = false) :
    (gpioChangeCallback bias esn info s).reverses = s.reverses := by
  unfold gpioChangeCallback
  rw [h]
  simp only [Bool.false_eq_true, if_false]
  split
  · exact reverses_lift s
  · rfl

/-- The report of a poll is faithful exactly when the flags that it leaves are cleared. -/
theorem faithful_iff (hlast : ∀ i : Input, last.getLsbD i = previous.getLsbD i)
    {info : GpioChangeInfo} {last' : BitVec 32}
    (hpoll : reportInputs last ⟨some current, stack⟩ = (some info, last')) :
    Faithful { previous, current, info } ↔
      ∀ i, Unchanged previous current i → (stack i).changed = false := by
  have hinputs (i : Input) : info.inputs i = if Unchanged previous current i then stack i
      else { changed := true, risingEdge := current.getLsbD i } := by
    rw [reportInputs_some] at hpoll
    split at hpoll
    · cases hpoll
    · obtain ⟨hinfo, -⟩ := Prod.mk.inj hpoll
      rw [← Option.some.inj hinfo]
      simp only [Unchanged, hlast]
      rfl
  constructor
  · intro h i hsame
    have hchanged := (h.changed i).not.mpr (not_not.mpr hsame)
    rw [hinputs i, if_pos hsame] at hchanged
    exact Bool.eq_false_iff.mpr hchanged
  · intro h
    have hclear (i : Input) (hsame : Unchanged previous current i) :
        (info.inputs i).changed = false := by
      rw [hinputs i, if_pos hsame]
      exact h i hsame
    have hwritten (i : Input) (hdiffer : ¬Unchanged previous current i) :
        info.inputs i = { changed := true, risingEdge := current.getLsbD i } := by
      rw [hinputs i, if_neg hdiffer]
    constructor
    · intro i
      by_cases hsame : Unchanged previous current i
      · simp [hclear i hsame, hsame]
      · simp [hwritten i hsame, hsame]
    · intro i hi
      by_cases hsame : Unchanged previous current i
      · rw [hclear i hsame] at hi
        cases hi
      · rw [hwritten i hsame]
    · intro hsame bias esn s
      exact increments_callback info bias esn s (hclear _ hsame)
    · intro hsame bias esn s
      exact reverses_callback_of_unchanged info bias esn s (hclear _ hsame)

/-- One poll has a call exactly when an input changed, and keeps the last state
in step with the last reading. -/
theorem reportInputs_step (hlast : ∀ i : Input, last.getLsbD i = previous.getLsbD i)
    (current : BitVec 32) (stack : Input → InputChange) :
    (∀ i : Input, (reportInputs last ⟨some current, stack⟩).2.getLsbD i = current.getLsbD i) ∧
    ((reportInputs last ⟨some current, stack⟩).1 = none ↔ ∀ i, Unchanged previous current i) := by
  have hsame : (∀ i : Input, last.getLsbD i = current.getLsbD i) ↔
      ∀ i, Unchanged previous current i :=
    forall_congr' fun i => by rw [hlast i, Unchanged]
  rw [reportInputs_some]
  split
  · next h => exact ⟨h, iff_of_true rfl (hsame.mp h)⟩
  · next h => exact ⟨getLsbD_allInput current, iff_of_false nofun (mt hsame.mpr h)⟩

theorem faithful_callsFrom (hlast : ∀ i : Input, last.getLsbD i = previous.getLsbD i)
    (polls : List StackPoll) :
    (∀ c ∈ callsFrom previous last polls, Faithful c) ↔ SettledFrom previous polls := by
  induction polls generalizing previous last with
  | nil => simp [callsFrom, SettledFrom]
  | cons p polls ih =>
      obtain ⟨word, stack⟩ := p
      cases word with
      | none => exact ih hlast
      | some current =>
          obtain ⟨hbits, hcall⟩ := reportInputs_step hlast current stack
          simp only [callsFrom, SettledFrom]
          generalize hpoll : reportInputs last ⟨some current, stack⟩ = next at hbits hcall
          obtain ⟨result, last'⟩ := next
          cases result with
          | none =>
              have hsame : ¬∃ i, ¬Unchanged previous current i := by
                simpa using hcall.mp rfl
              simp only [hsame, false_imp_iff, true_and]
              exact ih hbits
          | some info =>
              have hdiffer : ∃ i, ¬Unchanged previous current i := by
                by_contra hnone
                exact absurd (hcall.mpr (by simpa using hnone)) nofun
              simp only [List.forall_mem_cons, hdiffer, true_imp_iff, faithful_iff hlast hpoll,
                ih hbits]

end Reports

/-- All reports are faithful exactly when the record holds no `changed` flag of
an input that did not change where a report is made. -/
theorem reports_faithful_iff (polls : List StackPoll) :
    (∀ c ∈ calls polls, Faithful c) ↔ Settled polls := by
  cases polls with
  | nil => simp [calls, Settled]
  | cons first polls =>
      obtain ⟨word, stack⟩ := first
      cases word with
      | none => simp [calls, Settled]
      | some word => exact faithful_callsFrom (getLsbD_allInput word) polls

/-- The reverse input changes while the stack holds a flag of the lift input: a
lift is counted although no lift was sampled. -/
theorem phantom_lift :
    let bias : Input → GpioBias := fun _ => ⟨0, 1⟩
    let polls : List StackPoll := [⟨some 0, fun _ => ⟨false, false⟩⟩,
      ⟨some 0x04, fun i => ⟨decide (i = binliftPortNum), true⟩⟩]
    let s := reportTask (gpioChangeCallback bias []) ⟨41, []⟩ polls
    s.bincount = 42 ∧ s.increments = 1 ∧ enabledEdges bias binliftPortNum [0, 0x04] = 0 ∧
      ¬∀ c ∈ calls polls, Faithful c := by
  intro bias polls s
  refine ⟨by decide, by decide, by decide, fun h => ?_⟩
  have hflag := ((h _ List.mem_cons_self).changed binliftPortNum).mp (by decide)
  exact hflag (by decide)

end SgMuni
