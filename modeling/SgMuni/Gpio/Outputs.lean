import SgMuni.Gpio.Status

/-!
# The cached outputs

Both commands store `value & mask` in `output_state`. A set of outputs forgets the
outputs outside of its mask, and a bias command is stored as if it were one.
-/

namespace SgMuni

theorem and_not_eq_zero_iff {word mask : BitVec 32} :
    word &&& ~~~mask = 0 ↔ ∀ i, mask.getLsbD i = false → word.getLsbD i = false := by
  constructor
  · intro h i hi
    by_cases hlt : i < 32
    · have hbit : (word &&& ~~~mask).getLsbD i = false := by
        rw [h]
        exact BitVec.getLsbD_zero
      rwa [BitVec.getLsbD_and, BitVec.getLsbD_not, hi, decide_eq_true hlt, Bool.not_false,
        Bool.and_true, Bool.and_true] at hbit
    · exact BitVec.getLsbD_of_ge word i (not_lt.mp hlt)
  · intro h
    apply BitVec.eq_of_getLsbD_eq
    intro i hlt
    cases hi : mask.getLsbD i with
    | true => simp [hi]
    | false => simp [h i hi]

open Transition

namespace Gpio

variable {s t : Gpio} {log : List Report} {r : Report} {mask value word : BitVec 32} {i : Nat}

@[simp] theorem commanded_concat :
    commanded (log ++ [r]) i = (r.output i).getD (commanded log i) := by
  simp [commanded]

/-- Every output has the value last requested for it. -/
def OutputsCommanded (s : Gpio) (log : List Report) : Prop :=
  ∀ i, s.status.outputState.getLsbD i = commanded log i

/-- The word that the call stores, if any, is the one commanded after it. -/
def KeepsOutputs (s : Gpio) : Call → Prop
  | .setOutputs mask _ msgsnd =>
      s.msgQueueId ≠ -1 ∧ msgsnd = true → s.status.outputState &&& ~~~mask = 0
  | .setInputbias mask value msgsnd =>
      s.msgQueueId ≠ -1 ∧ msgsnd = true → value &&& mask = s.status.outputState
  | _ => True

/-- The effect that the commands should have on the outputs. -/
def OutputLaw (s : Gpio) : Call → Prop
  | .setOutputs mask value msgsnd =>
      let (t, sent) := s.gpioSetOutputs mask value msgsnd
      (sent = none → t = s) ∧
        ∀ i, mask.getLsbD i = false →
          t.status.outputState.getLsbD i = s.status.outputState.getLsbD i
  | .setInputbias mask value msgsnd =>
      let (t, sent) := s.gpioSetInputbias mask value msgsnd
      (sent = none → t = s) ∧ t.status.outputState = s.status.outputState
  | _ => True

/-- The history of one call does not change what is commanded, unless it is a request. -/
theorem OutputsCommanded.append {reports : List Report} (hs : s.OutputsCommanded log)
    (hreports : ∀ r ∈ reports, ∀ i, r.output i = none)
    (ht : t.status.outputState = s.status.outputState) : t.OutputsCommanded (log ++ reports) := by
  induction reports using List.reverseRecOn with
  | nil =>
      rw [List.append_nil]
      exact fun i => ht ▸ hs i
  | append_singleton reports r ih =>
      intro i
      have hrest := ih (fun r hr => hreports r (List.mem_append_left _ hr)) i
      rw [← List.append_assoc, commanded_concat, hreports r (by simp) i]
      exact hrest

theorem OutputsCommanded.requested_iff (hs : s.OutputsCommanded log) :
    OutputsCommanded { s with status.outputState := value &&& mask }
        (log ++ [.requested mask value]) ↔ s.status.outputState &&& ~~~mask = 0 := by
  rw [and_not_eq_zero_iff]
  refine forall_congr' fun i => ?_
  rw [commanded_concat, ← hs i]
  cases hi : mask.getLsbD i with
  | true => simp [Report.output, hi]
  | false => simp [Report.output, hi]

theorem OutputsCommanded.stored_iff (hs : s.OutputsCommanded log) :
    OutputsCommanded { s with status.outputState := word } log ↔ word = s.status.outputState := by
  constructor
  · intro h
    apply BitVec.eq_of_getLsbD_eq
    intro i _
    exact (h i).trans (hs i).symm
  · rintro rfl
    exact hs

/-- One call keeps the commanded outputs exactly when it meets the condition. -/
theorem OutputsCommanded.next_iff {c : Call} (hs : s.OutputsCommanded log)
    (h : s.next c = some t) :
    t.OutputsCommanded (log ++ s.report c) ↔ s.KeepsOutputs c := by
  have hmove := next_move h
  generalize s.report c = reports at hmove ⊢
  cases hmove with
  | @outputs mask value queue =>
      rw [hs.requested_iff]
      exact ⟨fun h _ => h, fun h => h ⟨queue, rfl⟩⟩
  | @bias mask value queue =>
      rw [List.append_nil, hs.stored_iff]
      exact ⟨fun h _ => h, fun h => h ⟨queue, rfl⟩⟩
  | noOutputs fails => exact iff_of_true (hs.append (by simp) rfl) fun hsent => absurd hsent fails
  | noBias fails => exact iff_of_true (hs.append (by simp) rfl) fun hsent => absurd hsent fails
  | @init c =>
      refine iff_of_true (hs.append (by simp) ?_) trivial
      unfold gpioInit
      split_ifs <;> rfl
  | _ => exact iff_of_true (hs.append (by simp [Report.output]) rfl) trivial

/-- Between states with the commanded outputs the commands have the effect that
they should have. -/
theorem OutputsCommanded.outputLaw {c : Call} (hs : s.OutputsCommanded log)
    (h : s.next c = some t) (ht : t.OutputsCommanded (log ++ s.report c)) : s.OutputLaw c := by
  have hkeeps := (hs.next_iff h).mp ht
  cases c with
  | setOutputs mask value msgsnd =>
      by_cases hsent : s.msgQueueId ≠ -1 ∧ msgsnd = true
      · have hrest := and_not_eq_zero_iff.mp (hkeeps hsent)
        obtain ⟨hqueue, rfl⟩ := hsent
        simp +contextual [OutputLaw, gpioSetOutputs, setCommand, hqueue, hrest]
      · simp [OutputLaw, gpioSetOutputs, setCommand_fails hsent]
  | setInputbias mask value msgsnd =>
      by_cases hsent : s.msgQueueId ≠ -1 ∧ msgsnd = true
      · have hsame := hkeeps hsent
        obtain ⟨hqueue, rfl⟩ := hsent
        simp [OutputLaw, gpioSetInputbias, setCommand, hqueue, hsame]
      · simp [OutputLaw, gpioSetInputbias, setCommand_fails hsent]
  | _ => trivial

/-- The cached outputs are the commanded ones throughout a run, and every command has
the effect that it should have, exactly when every call meets the condition. -/
theorem outputs_commanded_iff {p q : Gpio × List Report} {calls : List Call}
    (hinit : (system.recording report).init p)
    (hrun : (system.recording report).exec p calls = some q) :
    (system.recording report).StepsMeet (System.recorded KeepsOutputs) p calls ↔
      (system.recording report).StatesMeet (fun p => p.1.OutputsCommanded p.2) p calls ∧
        (system.recording report).StepsMeet (System.recorded OutputLaw) p calls := by
  have hstart : p.1.OutputsCommanded p.2 := by
    rw [hinit.2]
    intro i
    rw [show p.1.status = _ from hinit.1]
    exact BitVec.getLsbD_zero
  have hiff : (system.recording report).StepsMeet (System.recorded KeepsOutputs) p calls ↔
      (system.recording report).StatesMeet (fun p => p.1.OutputsCommanded p.2) p calls := by
    refine System.stepsMeet_iff_statesMeet (I := fun _ => True) (fun _ _ _ _ _ => trivial) ?_
      trivial hstart hrun
    intro p c q hn _ hp
    obtain ⟨hstep, hlog⟩ := System.recording_next hn
    rw [hlog]
    exact hp.next_iff hstep
  rw [hiff]
  refine ⟨fun h => ⟨h, h.stepsMeet hrun ?_⟩, And.left⟩
  intro p c q hn hp hq
  obtain ⟨hstep, hlog⟩ := System.recording_next hn
  rw [hlog] at hq
  exact hp.outputLaw hstep hq

theorem outputs_commanded_iff_full :
    ∃ p, (system.recording report).exec (boot, [])
        [attaches, .setOutputs 0xF 5 true, .setInputbias 0xF 5 true, .setOutputs 0xF 2 true] =
          some p ∧
      (system.recording report).StatesMeet (fun p => p.1.OutputsCommanded p.2) (boot, [])
        [attaches, .setOutputs 0xF 5 true, .setInputbias 0xF 5 true, .setOutputs 0xF 2 true] := by
  refine ⟨_, rfl, ((outputs_commanded_iff init_boot rfl).mp ?_).1⟩
  refine ⟨trivial, fun p hp => ?_⟩
  cases hp
  refine ⟨fun _ => rfl, fun p hp => ?_⟩
  cases hp
  refine ⟨fun _ => rfl, fun p hp => ?_⟩
  cases hp
  exact ⟨fun _ => rfl, fun _ _ => trivial⟩

/-- The second request forgets the output of the first one, and a bias command is taken
for a request. -/
theorem output_forgotten :
    (∃ p, (system.recording report).exec (boot, [])
        [attaches, .setOutputs 1 1 true, .setOutputs 2 2 true] = some p ∧
      p.1.status.outputState = 2 ∧ commanded p.2 0 = true ∧ ¬p.1.OutputsCommanded p.2) ∧
    ∃ p, (system.recording report).exec (boot, []) [attaches, .setInputbias 1 1 true] = some p ∧
      p.1.status.outputState = 1 ∧ commanded p.2 0 = false ∧ ¬p.1.OutputsCommanded p.2 := by
  refine ⟨⟨_, rfl, rfl, rfl, fun h => ?_⟩, ⟨_, rfl, rfl, rfl, fun h => ?_⟩⟩
  · exact Bool.false_ne_true (h 0)
  · exact Bool.false_ne_true (h 0).symm

end Gpio

end SgMuni
