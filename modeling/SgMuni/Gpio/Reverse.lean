import SgMuni.Gpio.Monitor

/-!
# The reverse signal

Each change of the reverse input is broadcast once. The text shows whether the
input has its configured active level as long as that level is high; with a low
active level `assemble_reverse_message` can only show 0.
-/

namespace SgMuni

/-- The text that shows `x`. -/
def reverseText (x : Bool) : List UInt8 :=
  ascii ['{', 'R', 'E', 'V', 'E', 'R', 'S', 'E', '='] ++ C.formatInt (if x then 1 else 0) ++ cmdEnd

/-- The texts of the REVERSE broadcasts. -/
def Station.reverses (s : Station) : List (List UInt8) :=
  s.effects.filterMap fun
    | .broadcastReverse text => some text
    | _ => none

/-- The levels to which a signal changes, in order. -/
def changes : List Bool → List Bool
  | a :: b :: samples => if a = b then changes (b :: samples) else b :: changes (b :: samples)
  | _ => []

/-- The sampled levels of an input. -/
def levels (i : Input) (polls : List Poll) : List Bool := (sampled polls).map (·.getLsbD i)

/-- The text that the callback broadcasts when the reverse input changes to `level`. -/
def shown (bias : Input → GpioBias) (level : Bool) : List UInt8 :=
  assembleReverseMessage bias (level == ((bias reversePortNum).enable == 1))

/-- Behind the last poll, each change of the reverse input has been broadcast,
and the last text shows whether the input has its active level. -/
structure ReverseTracked (bias : Input → GpioBias) (s : Station) (polls : List Poll) : Prop where
  once : s.reverses.length = (changes (levels reversePortNum polls)).length
  last : changes (levels reversePortNum polls) ≠ [] →
    ∀ level, (levels reversePortNum polls).getLast? = some level →
      s.reverses.getLast? = some (reverseText (level == ((bias reversePortNum).enable == 1)))

section Changes

variable {samples : List Bool} {level : Bool}

theorem changes_cons (a b : Bool) (samples : List Bool) :
    changes (a :: b :: samples) = (if a = b then [] else [b]) ++ changes (b :: samples) := by
  rw [changes]
  split <;> rfl

theorem getLast?_cons_changes (a : Bool) (samples : List Bool) :
    (a :: changes (a :: samples)).getLast? = (a :: samples).getLast? := by
  induction samples generalizing a with
  | nil => rfl
  | cons b samples ih =>
      rw [changes_cons, List.getLast?_cons_cons, ← ih b]
      by_cases hab : a = b
      · rw [if_pos hab, List.nil_append, hab]
      · rw [if_neg hab, List.singleton_append, List.getLast?_cons_cons]

/-- The last change is to the last level. -/
theorem getLast?_changes (h : changes samples ≠ []) :
    (changes samples).getLast? = samples.getLast? := by
  cases samples with
  | nil => exact absurd rfl h
  | cons a samples =>
      rw [← getLast?_cons_changes]
      exact (List.getLast?_append_of_ne_nil [a] h).symm

theorem mem_changes_of_prefix {start : List Bool} (h : start <+: samples)
    (hmem : level ∈ changes start) : level ∈ changes samples := by
  induction start generalizing samples with
  | nil => cases hmem
  | cons a start ih =>
      cases start with
      | nil => cases hmem
      | cons b start =>
          obtain ⟨rest, rfl⟩ := h
          rw [List.cons_append, List.cons_append, changes_cons]
          rw [changes_cons] at hmem
          rcases List.mem_append.mp hmem with hmem | hmem
          · exact List.mem_append_left _ hmem
          · exact List.mem_append_right _ (ih (List.prefix_append (b :: start) rest) hmem)

/-- A change is the last one of some beginning. -/
theorem exists_prefix_of_mem_changes (h : level ∈ changes samples) :
    ∃ start, start <+: samples ∧ changes start ≠ [] ∧ start.getLast? = some level := by
  induction samples with
  | nil => cases h
  | cons a samples ih =>
      cases samples with
      | nil => cases h
      | cons b samples =>
          rw [changes_cons] at h
          rcases List.mem_append.mp h with h | h
          · by_cases hab : a = b
            · simp [hab] at h
            · simp only [hab, if_false, List.mem_singleton] at h
              refine ⟨[a, b], ⟨samples, rfl⟩, ?_, h ▸ rfl⟩
              simp [changes, hab]
          · obtain ⟨start, hpre, hne, hlast⟩ := ih h
            cases start with
            | nil => exact absurd rfl hne
            | cons c start =>
                obtain ⟨rfl, -⟩ := List.cons_prefix_cons.mp hpre
                refine ⟨a :: c :: start, List.cons_prefix_cons.mpr ⟨rfl, hpre⟩, ?_, hlast⟩
                rw [changes_cons]
                exact List.append_ne_nil_of_right_ne_nil _ hne

end Changes

section Samples

variable {polls start : List Poll}

theorem sampled_mono (h : start <+: polls) : sampled start <+: sampled polls := by
  cases start with
  | nil => exact List.nil_prefix
  | cons first start =>
      obtain ⟨rest, rfl⟩ := h
      rw [List.cons_append, sampled, sampled]
      split
      · exact (List.prefix_append (first :: start) rest).filterMap _
      · exact List.nil_prefix

/-- The beginnings of the samples are those of the beginnings of the polls. -/
theorem exists_prefix_of_sampled {words : List (BitVec 32)} (h : words <+: sampled polls) :
    ∃ start, start <+: polls ∧ sampled start = words := by
  cases polls with
  | nil => exact ⟨[], List.nil_prefix, (List.prefix_nil.mp h).symm⟩
  | cons first polls =>
      rw [sampled] at h
      split at h
      · next hfirst =>
          obtain ⟨start, hstart, rfl⟩ := List.prefix_filterMap_iff.mp h
          refine ⟨start, hstart, ?_⟩
          cases start with
          | nil => rfl
          | cons p start =>
              obtain ⟨rfl, -⟩ := List.cons_prefix_cons.mp hstart
              rw [sampled, if_pos hfirst]
      · exact ⟨[], List.nil_prefix, (List.prefix_nil.mp h).symm⟩

end Samples

section Broadcasts

variable {bias : Input → GpioBias} {esn : List UInt8} {s : Station}

theorem reverses_lift (s : Station) : (s.lift esn).reverses = s.reverses := by
  simp [Station.lift, Station.reverses]

/-- The callback broadcasts exactly when the reverse input changed. -/
theorem reverses_callback (henable : (bias reversePortNum).enable = 0 ∨
    (bias reversePortNum).enable = 1) (info : GpioChangeInfo) (s : Station) :
    (gpioChangeCallback bias esn info s).reverses = s.reverses ++
      if (info.inputs reversePortNum).changed then
        [shown bias (info.inputs reversePortNum).risingEdge] else [] := by
  have hedge : edgeEnabled (info.inputs reversePortNum) (bias reversePortNum) =
      ((info.inputs reversePortNum).risingEdge == ((bias reversePortNum).enable == 1)) := by
    rw [Bool.eq_iff_iff, edgeEnabled_iff henable, beq_iff_eq]
  have hreverse (t : Station) : (if (info.inputs reversePortNum).changed then
      t.reverse bias (info.inputs reversePortNum) else t).reverses = t.reverses ++
        if (info.inputs reversePortNum).changed then
          [shown bias (info.inputs reversePortNum).risingEdge] else [] := by
    split
    · simp [Station.reverse, Station.reverses, shown, hedge]
    · rw [List.append_nil]
  unfold gpioChangeCallback
  rw [hreverse]
  split
  · rw [reverses_lift]
  · rfl

theorem reverses_pollLoop (henable : (bias reversePortNum).enable = 0 ∨
    (bias reversePortNum).enable = 1) (last : BitVec 32) (polls : List Poll) (s : Station) :
    (pollLoop (gpioChangeCallback bias esn) last s polls).reverses = s.reverses ++
      (changes (last.getLsbD reversePortNum ::
        (polls.filterMap (·.word)).map (·.getLsbD reversePortNum))).map (shown bias) := by
  induction polls generalizing last s with
  | nil => simp [pollLoop, changes]
  | cons p polls ih =>
      obtain ⟨word, stale⟩ := p
      cases word with
      | none => exact ih last s
      | some word =>
          have hspec := pollInputs_spec last word stale
          have hwords : List.filterMap (·.word) (⟨some word, stale⟩ :: polls) =
              word :: polls.filterMap (·.word) := rfl
          generalize hpoll : pollInputs last ⟨some word, stale⟩ = next at hspec
          obtain ⟨result, last'⟩ := next
          have hbit : last'.getLsbD reversePortNum = word.getLsbD reversePortNum := hspec.1 _
          rw [hwords, List.map_cons, changes_cons, ← hbit, List.map_append, ← List.append_assoc,
            pollLoop, hpoll]
          cases result with
          | none =>
              have hsame : last.getLsbD reversePortNum = word.getLsbD reversePortNum := hspec.2 _
              rw [if_pos (hsame.trans hbit.symm), List.map_nil, List.append_nil]
              exact ih last' s
          | some info =>
              obtain ⟨hchanged, hrising⟩ := hspec.2 reversePortNum
              dsimp only
              rw [ih, reverses_callback henable, hchanged, hbit]
              by_cases hsame : last.getLsbD reversePortNum = word.getLsbD reversePortNum
              · simp [hsame]
              · have hx : (info.inputs reversePortNum).changed = true := by
                  rw [hchanged]
                  simpa using hsame
                simp [hsame, hrising hx]

/-- The broadcasts are those of the changes of the reverse input, in order. -/
theorem reverses_gpioMonitorTask (henable : (bias reversePortNum).enable = 0 ∨
    (bias reversePortNum).enable = 1) (bincount : Int) (polls : List Poll) :
    (gpioMonitorTask (gpioChangeCallback bias esn) ⟨bincount, []⟩ polls).reverses =
      (changes (levels reversePortNum polls)).map (shown bias) := by
  cases polls with
  | nil => rfl
  | cons first polls =>
      obtain ⟨word, stale⟩ := first
      cases word with
      | none => rfl
      | some word =>
          have hwords : levels reversePortNum (⟨some word, stale⟩ :: polls) =
              (word &&& allInput).getLsbD reversePortNum ::
                (polls.filterMap (·.word)).map (·.getLsbD reversePortNum) := by
            rw [getLsbD_allInput]
            rfl
          rw [hwords]
          exact reverses_pollLoop henable (word &&& allInput) polls ⟨bincount, []⟩

end Broadcasts

/-- A text with an active level that is high shows the level, any other shows 0. -/
theorem shown_eq_iff {bias : Input → GpioBias} (henable : (bias reversePortNum).enable = 0 ∨
    (bias reversePortNum).enable = 1) (level : Bool) :
    shown bias level = reverseText (level == ((bias reversePortNum).enable == 1)) ↔
      (bias reversePortNum).enable = 1 ∨ level = true := by
  unfold shown assembleReverseMessage reverseText
  rcases henable with h | h <;> rw [h] <;> cases level <;> decide

/-- The broadcasts track the reverse input behind every poll exactly when its
active level is high or it never changes to low. -/
theorem reverse_tracked_iff (bias : Input → GpioBias)
    (henable : (bias reversePortNum).enable = 0 ∨ (bias reversePortNum).enable = 1)
    (esn : List UInt8) (bincount : Int) (polls : List Poll) :
    (∀ start, start <+: polls → ReverseTracked bias
      (gpioMonitorTask (gpioChangeCallback bias esn) ⟨bincount, []⟩ start) start) ↔
      (bias reversePortNum).enable = 1 ∨ false ∉ changes (levels reversePortNum polls) := by
  constructor
  · intro h
    by_contra hnot
    obtain ⟨hlow, hchange⟩ := not_or.mp hnot
    obtain ⟨samples, hsamples, hne, hlast⟩ :=
      exists_prefix_of_mem_changes (not_not.mp hchange)
    obtain ⟨words, hwords, rfl⟩ := List.prefix_map_iff.mp hsamples
    obtain ⟨start, hstart, rfl⟩ := exists_prefix_of_sampled hwords
    have htext := (h start hstart).last hne false hlast
    have hshown : (changes (levels reversePortNum start)).getLast? = some false :=
      (getLast?_changes hne).trans hlast
    rw [reverses_gpioMonitorTask henable, List.getLast?_map, hshown] at htext
    have hfalse := (shown_eq_iff henable false).mp (Option.some.inj htext)
    exact hnot (.inl (hfalse.resolve_right Bool.false_ne_true))
  · intro hcond start hstart
    have hlevels : levels reversePortNum start <+: levels reversePortNum polls :=
      (sampled_mono hstart).map _
    constructor
    · rw [reverses_gpioMonitorTask henable, List.length_map]
    · intro hne level hlevel
      have hlast : (changes (levels reversePortNum start)).getLast? = some level :=
        (getLast?_changes hne).trans hlevel
      rw [reverses_gpioMonitorTask henable, List.getLast?_map, hlast]
      apply congrArg some
      apply (shown_eq_iff henable level).mpr
      apply hcond.imp_right
      intro hfalse
      have hmem : level ∈ changes (levels reversePortNum polls) :=
        mem_changes_of_prefix hlevels (List.mem_of_getLast? hlast)
      cases level with
      | true => rfl
      | false => exact absurd hmem hfalse

/-- An input that is active low: a change to high alone is shown as it should be. -/
theorem reverse_tracked_iff_low :
    ReverseTracked (fun _ => ⟨0, 0⟩)
      (gpioMonitorTask (gpioChangeCallback (fun _ => ⟨0, 0⟩) []) ⟨0, []⟩
        [⟨some 0, fun _ => false⟩, ⟨some 0x04, fun _ => false⟩])
      [⟨some 0, fun _ => false⟩, ⟨some 0x04, fun _ => false⟩] :=
  (reverse_tracked_iff (fun _ => ⟨0, 0⟩) (.inl rfl) [] 0 _).mpr (.inr (by decide)) _
    List.prefix_rfl

/-- An input that is active low and changes to low is shown as not active. -/
theorem low_reverse_hidden :
    let bias : Input → GpioBias := fun _ => ⟨0, 0⟩
    let polls : List Poll := [⟨some 0x04, fun _ => false⟩, ⟨some 0, fun _ => false⟩]
    let s := gpioMonitorTask (gpioChangeCallback bias []) ⟨0, []⟩ polls
    levels reversePortNum polls = [true, false] ∧ s.reverses = [reverseText false] ∧
      ¬ReverseTracked bias s polls := by
  intro bias polls s
  have hreverses : s.reverses = [reverseText false] := by decide
  refine ⟨by decide, hreverses, fun h => ?_⟩
  have hlast := h.last (by decide) false (by decide)
  rw [hreverses] at hlast
  exact absurd hlast (by decide)

end SgMuni
