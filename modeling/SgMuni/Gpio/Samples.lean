import SgMuni.Gpio.Outputs

/-!
# The cached inputs and analog values

`gpio_read_inputs` combines the sample with the cache by `&=`, so that an input that
was low stays low. `gpio_get_status` copies its variables whether the reads that
should set them succeeded or not.
-/

namespace SgMuni

open Transition

namespace Gpio

variable {s t : Gpio} {log : List Report} {r : Report}

@[simp] theorem sampledInput_concat {i : Nat} :
    sampledInput (log ++ [r]) i = (r.input i).getD (sampledInput log i) := by
  simp [sampledInput]

@[simp] theorem sampledAdc_concat {i : Channel} :
    sampledAdc (log ++ [r]) i = (r.channel i).getD (sampledAdc log i) := by
  simp [sampledAdc]

def InputsSampled (word : BitVec 32) (log : List Report) : Prop :=
  ∀ i, word.getLsbD i = sampledInput log i

def AdcSampled (values : Channel → BitVec 32) (log : List Report) : Prop :=
  ∀ i, values i = sampledAdc log i

/-- Every input and every channel has the value last sampled for it. -/
def StatusSampled (s : Gpio) (log : List Report) : Prop :=
  InputsSampled s.status.inputState log ∧ AdcSampled s.status.adcValues log

/-- The values that the call stores, if any, are the ones sampled last after it. -/
def KeepsSamples (s : Gpio) : Call → Prop
  | .readInputs curr mask true =>
      match s.shmInfo with
      | .null => True
      | .failed => False
      | .attached => s.status.inputState &&& ~~~mask = 0 ∧
          (curr &&& mask) &&& ~~~s.status.inputState = 0
  | .readAdc _ _ mask true => s.shmInfo = .failed → ¬Selects mask
  | .getStatus _ first second inputState adcReadings =>
      match s.shmInfo with
      | .null => inputState = s.status.inputState ∧ adcReadings = s.status.adcValues
      | .failed => False
      | .attached => s.status.inputState &&& ~~~allInput = 0 ∧ first = second
  | _ => True

/-- No read in the call succeeds. -/
def ReadsFail (s : Gpio) : Call → Prop
  | .readInputs _ _ state => s.shmInfo = .null ∨ state = false
  | .readAdc _ _ _ adcValues => s.shmInfo = .null ∨ adcValues = false
  | .getStatus _ _ _ _ _ => s.shmInfo = .null
  | _ => False

def FailedReadsLaw (s : Gpio) (c : Call) : Prop :=
  s.ReadsFail c → ∀ t, s.next c = some t → t.status = s.status

section Inputs

variable {curr mask word : BitVec 32}

theorem InputsSampled.eq (hword : InputsSampled word log) {word' : BitVec 32} :
    InputsSampled word' log ↔ word' = word := by
  constructor
  · intro h
    apply BitVec.eq_of_getLsbD_eq
    intro i _
    exact (h i).trans (hword i).symm
  · rintro rfl
    exact hword

/-- A sample that is combined with the cache by `&=`. -/
theorem InputsSampled.and_iff (hword : InputsSampled word log) :
    InputsSampled (word &&& (curr &&& mask)) (log ++ [.inputs mask curr]) ↔
      word &&& ~~~mask = 0 ∧ (curr &&& mask) &&& ~~~word = 0 := by
  rw [and_not_eq_zero_iff, and_not_eq_zero_iff, ← forall_and]
  refine forall_congr' fun i => ?_
  rw [sampledInput_concat, ← hword i]
  cases hmask : mask.getLsbD i <;> cases hbit : word.getLsbD i <;>
    simp [Report.input, hmask, hbit]

/-- A sample that is stored as it is. -/
theorem InputsSampled.store_iff (hword : InputsSampled word log) :
    InputsSampled (curr &&& mask) (log ++ [.inputs mask curr]) ↔ word &&& ~~~mask = 0 := by
  rw [and_not_eq_zero_iff]
  refine forall_congr' fun i => ?_
  rw [sampledInput_concat, ← hword i]
  cases hmask : mask.getLsbD i with
  | true => simp [Report.input, hmask]
  | false => simp [Report.input, hmask]

theorem inputsSampled_adc {values : Channel → BitVec 32} :
    InputsSampled word (log ++ [.adc mask values]) ↔ InputsSampled word log := by
  simp [InputsSampled, Report.input]

end Inputs

section Adc

variable {mask word : BitVec 32} {values second : Channel → BitVec 32}

theorem AdcSampled.eq (hvalues : AdcSampled values log) {values' : Channel → BitVec 32} :
    AdcSampled values' log ↔ values' = values := by
  constructor
  · intro h
    funext i
    exact (h i).trans (hvalues i).symm
  · rintro rfl
    exact hvalues

theorem AdcSampled.update (hvalues : AdcSampled values log) :
    AdcSampled (fun i => if mask.getLsbD i then second i else values i)
      (log ++ [.adc mask second]) := by
  intro i
  rw [sampledAdc_concat, ← hvalues i]
  cases hmask : mask.getLsbD i <;> simp [Report.channel, hmask]

theorem adcSampled_all {first : Channel → BitVec 32} :
    AdcSampled first (log ++ [.adc allAdc second]) ↔ first = second := by
  simp [AdcSampled, Report.channel, getLsbD_allAdc, funext_iff]

theorem adcSampled_inputs {curr : BitVec 32} :
    AdcSampled values (log ++ [.inputs mask curr]) ↔ AdcSampled values log := by
  simp [AdcSampled, Report.channel]

end Adc

/-- One call keeps the last samples exactly when it meets the condition. -/
theorem StatusSampled.next_iff {c : Call} (hs : s.StatusSampled log) (h : s.next c = some t) :
    t.StatusSampled (log ++ s.report c) ↔ s.KeepsSamples c := by
  obtain ⟨hinputs, hadc⟩ := hs
  have hmove := next_move h
  generalize s.report c = reports at hmove ⊢
  cases hmove with
  | @inputs curr mask attached =>
      simp only [StatusSampled, KeepsSamples, attached, hinputs.and_iff, adcSampled_inputs, hadc,
        and_true]
  | @adc first second mask attached =>
      refine iff_of_true ⟨inputsSampled_adc.mpr hinputs, hadc.update⟩ ?_
      simp [KeepsSamples, attached]
  | @getStatus curr inputState first second adcReadings attached =>
      rw [show log ++ [.inputs allInput curr, .adc allAdc second] =
        (log ++ [.inputs allInput curr]) ++ [.adc allAdc second] by simp]
      simp only [StatusSampled, KeepsSamples, attached, inputsSampled_adc, hinputs.store_iff,
        adcSampled_all]
  | stackStatus null =>
      simp only [StatusSampled, KeepsSamples, null, List.append_nil, hinputs.eq, hadc.eq]
  | @noInputs curr mask state fails =>
      rw [List.append_nil]
      refine iff_of_true ⟨hinputs, hadc⟩ ?_
      cases state <;> simp_all [KeepsSamples]
  | @noAdc first second mask adcValues unread =>
      rw [List.append_nil]
      refine iff_of_true ⟨hinputs, hadc⟩ ?_
      cases adcValues with
      | false => trivial
      | true =>
          intro hfailed
          rcases unread with (hnull | hfalse) | ⟨-, hmask⟩
          · cases hnull.symm.trans hfailed
          · cases hfalse
          · exact hmask
  | @init c =>
      have hstatus : (s.gpioInit c).1.status = s.status := by
        unfold gpioInit
        split_ifs <;> rfl
      rw [List.append_nil, StatusSampled, hstatus]
      exact iff_of_true ⟨hinputs, hadc⟩ trivial
  | outputs queue =>
      refine iff_of_true ⟨fun i => ?_, fun i => ?_⟩ trivial
      · rw [sampledInput_concat]
        exact hinputs i
      · rw [sampledAdc_concat]
        exact hadc i
  | _ =>
      rw [List.append_nil]
      exact iff_of_true ⟨hinputs, hadc⟩ trivial

/-- A call that meets the condition returns. -/
theorem next_ne_none_of_keepsSamples {c : Call} (h : s.KeepsSamples c) : s.next c ≠ none := by
  cases c with
  | readInputs curr mask state =>
      cases hshm : s.shmInfo <;> cases state <;>
        simp_all [KeepsSamples, next, gpioReadInputs]
  | readAdc first second mask adcValues =>
      cases hshm : s.shmInfo <;> cases adcValues <;>
        simp_all [KeepsSamples, next, gpioReadAdc]
  | getStatus curr first second inputState adcReadings =>
      cases hshm : s.shmInfo with
      | null => simp [next, gpioGetStatus_null hshm]
      | attached => simp [next, gpioGetStatus_attached hshm]
      | failed => simp [KeepsSamples, hshm] at h
  | _ => exact Option.some_ne_none _

/-- Between states with the last samples a call whose reads fail leaves the status alone. -/
theorem StatusSampled.failedReadsLaw {c : Call} (hs : s.StatusSampled log)
    (h : s.next c = some t) (ht : t.StatusSampled (log ++ s.report c)) : s.FailedReadsLaw c := by
  intro hfail t' ht'
  cases h.symm.trans ht'
  have hmove := next_move h
  generalize s.report c = reports at hmove ht
  cases hmove with
  | stackStatus null =>
      rw [List.append_nil] at ht
      have hinputs := hs.1.eq.mp ht.1
      have hadc := hs.2.eq.mp ht.2
      simp only at hinputs hadc
      rw [hinputs, hadc]
  | inputs attached => simp [ReadsFail, attached] at hfail
  | adc attached => simp [ReadsFail, attached] at hfail
  | getStatus attached => simp [ReadsFail, attached] at hfail
  | noInputs fails => rfl
  | noAdc unread => rfl
  | _ => cases hfail

/-- The calls of a run all return, the cache has the last samples throughout and failed
reads change nothing, exactly when every call meets the condition. -/
theorem status_sampled_iff {p : Gpio × List Report} (calls : List Call)
    (hinit : (system.recording report).init p) :
    (system.recording report).StepsMeet (System.recorded KeepsSamples) p calls ↔
      (∃ q, (system.recording report).exec p calls = some q) ∧
        (system.recording report).StatesMeet (fun p => p.1.StatusSampled p.2) p calls ∧
        (system.recording report).StepsMeet (System.recorded FailedReadsLaw) p calls := by
  have hstart : p.1.StatusSampled p.2 := by
    rw [hinit.2, StatusSampled, show p.1.status = _ from hinit.1]
    exact ⟨fun i => BitVec.getLsbD_zero, fun i => rfl⟩
  have hiff : (system.recording report).StepsMeet (System.recorded KeepsSamples) p calls ↔
      (∃ q, (system.recording report).exec p calls = some q) ∧
        (system.recording report).StatesMeet (fun p => p.1.StatusSampled p.2) p calls := by
    refine System.stepsMeet_iff_executes (I := fun _ => True) (fun _ _ _ _ _ => trivial) ?_ ?_
      calls trivial hstart
    · intro p c q hn _ hp
      obtain ⟨hstep, hlog⟩ := System.recording_next hn
      rw [hlog]
      exact hp.next_iff hstep
    · intro p c hc
      exact mt Option.map_eq_none_iff.mp (next_ne_none_of_keepsSamples hc)
  rw [hiff]
  constructor
  · rintro ⟨⟨q, hrun⟩, hstates⟩
    refine ⟨⟨q, hrun⟩, hstates, hstates.stepsMeet hrun ?_⟩
    intro p c q hn hp hq
    obtain ⟨hstep, hlog⟩ := System.recording_next hn
    rw [hlog] at hq
    exact hp.failedReadsLaw hstep hq
  · rintro ⟨hrun, hstates, -⟩
    exact ⟨hrun, hstates⟩

/-- All inputs are read with the first analog values, then one input again. -/
def sampling : List Call :=
  [attaches, .getStatus 5 (fun _ => 7) (fun _ => 7) 0 (fun _ => 0), .readInputs 5 0xFF true,
    .readAdc (fun _ => 8) (fun _ => 9) 3 true]

theorem status_sampled_iff_sampling :
    (system.recording report).StatesMeet (fun p => p.1.StatusSampled p.2) (boot, []) sampling := by
  refine ((status_sampled_iff sampling init_boot).mp ?_).2.1
  refine ⟨trivial, fun p hp => ?_⟩
  cases hp
  refine ⟨⟨rfl, rfl⟩, fun p hp => ?_⟩
  cases hp
  refine ⟨⟨rfl, rfl⟩, fun p hp => ?_⟩
  cases hp
  refine ⟨?_, fun _ _ => trivial⟩
  exact fun h => by cases h

/-- An input that is high is sampled as high and cached as low. After `gpio_deinit` the
status becomes what the stack holds. -/
theorem samples_lost :
    (∃ p, (system.recording report).exec (boot, []) [attaches, .readInputs 1 1 true] = some p ∧
      p.1.status.inputState = 0 ∧ sampledInput p.2 0 = true ∧ ¬p.1.StatusSampled p.2) ∧
    ∃ p, (system.recording report).exec (boot, []) [attaches, .deinit,
        .getStatus 0 (fun _ => 0) (fun _ => 0) 1 (fun _ => 3)] = some p ∧
      p.1.status.inputState = 1 ∧ p.2 = [] ∧ ¬p.1.StatusSampled p.2 := by
  refine ⟨⟨_, rfl, rfl, rfl, fun h => ?_⟩, ⟨_, rfl, rfl, rfl, fun h => ?_⟩⟩
  · exact Bool.false_ne_true (h.1 0)
  · exact Bool.false_ne_true (h.1 0).symm

end Gpio

end SgMuni
