import SgMuni.C.Bytes
import SgMuni.Cache.Latest
import SgMuni.Gpio.Monitor
import SgMuni.Transition.History

/-!
# The functions of `sg-gpio.c`

The cached `gpio_status`, with the shared memory that is read and the messages
that are sent to the STM manager.

## Implementation notes

A call carries what it finds: the results of the system calls, the values in
shared memory, and what the stack holds where a function has a variable without
an initialiser. `gpio_read_adc` reads each value twice, and the memory may change
in between. A read through the pointer that a failed `shmat` leaves has no result.
-/

namespace SgMuni

/-- The mask `ALL_ADC`. -/
def allAdc : BitVec 32 := 0xFF

abbrev Channel := Fin 8

structure GpioStatus where
  inputState : BitVec 32
  outputState : BitVec 32
  adcValues : Channel → BitVec 32

/-- The values of `shm_info`: `NULL`, a mapping, and the `(void *)-1` of `shmat`. -/
inductive ShmInfo
  | null
  | attached
  | failed
deriving DecidableEq

inductive StmOpcode
  | setOutput
  | setInputBias
deriving DecidableEq

/-- The members of a `stm_mgr_msg` that tell the commands apart. -/
structure StmMgrMsg where
  opcode : StmOpcode
  payload : List UInt8
deriving DecidableEq

/-- The static variables. -/
structure Gpio where
  status : GpioStatus
  shmInfo : ShmInfo
  msgQueueId : Int

namespace Gpio

/-- The results of the system calls in `gpio_init`: whether `ftok`, `shmget` and
`shmat` succeed, and the result of `msgget`. -/
structure InitCalls where
  shmKey : Bool
  shmId : Bool
  shmat : Bool
  msgKey : Bool
  msgget : Int

def gpioInit (s : Gpio) (c : InitCalls) : Gpio × Bool :=
  if !c.shmKey || !c.shmId then (s, false)
  else if !c.shmat then ({ s with shmInfo := .failed }, false)
  else if !c.msgKey then ({ s with shmInfo := .attached }, false)
  else ({ s with shmInfo := .attached, msgQueueId := c.msgget }, c.msgget != -1)

/-- `shm_info` becomes `NULL` whatever `shmdt` returns. -/
def gpioDeinit (s : Gpio) : Gpio := { s with shmInfo := .null, msgQueueId := -1 }

/-- `gpio_read_inputs`, with whether `state` is not `NULL`: the value stored in
`*state` if the function returns true. -/
def gpioReadInputs (s : Gpio) (currInputState mask : BitVec 32) (state : Bool) :
    Option (Gpio × Option (BitVec 32)) :=
  match s.shmInfo, state with
  | .null, _ | _, false => some (s, none)
  | .failed, true => none
  | .attached, true =>
      let value := currInputState &&& mask
      some ({ s with status.inputState := s.status.inputState &&& value }, some value)

/-- The mask has a bit of some channel. -/
def Selects (mask : BitVec 32) : Prop := ∃ i : Channel, mask.getLsbD i = true

instance (mask : BitVec 32) : Decidable (Selects mask) := inferInstanceAs (Decidable (∃ _, _))

/-- `gpio_read_adc`, where the two reads of a channel find `first` and `second`:
the values stored in the caller's array. -/
def gpioReadAdc (s : Gpio) (first second : Channel → BitVec 32) (mask : BitVec 32)
    (adcValues : Bool) : Option (Gpio × (Channel → Option (BitVec 32))) :=
  match s.shmInfo, adcValues with
  | .null, _ | _, false => some (s, fun _ => none)
  -- The loop reads through the pointer for the bits of the mask only.
  | .failed, true => if Selects mask then none else some (s, fun _ => none)
  | .attached, true =>
      some ({ s with
        status.adcValues := fun i =>
          if mask.getLsbD i then second i else s.status.adcValues i },
        fun i => if mask.getLsbD i then some (first i) else none)

/-- `gpio_get_status`, where the stack holds `inputState` and `adcReadings`. -/
def gpioGetStatus (s : Gpio) (currInputState : BitVec 32) (first second : Channel → BitVec 32)
    (inputState : BitVec 32) (adcReadings : Channel → BitVec 32) : Option Gpio :=
  match s.gpioReadInputs currInputState allInput true with
  | none => none
  | some (s, state) =>
      let s := { s with status.inputState := state.getD inputState }
      match s.gpioReadAdc first second allAdc true with
      | none => none
      | some (s, readings) =>
          some { s with status.adcValues := fun i => (readings i).getD (adcReadings i) }

/-- The body of `gpio_set_outputs` and `gpio_set_inputbias`, which differ in the
opcode: the message that was sent if the function returns true. -/
def setCommand (s : Gpio) (opcode : StmOpcode) (mask value : BitVec 32) (msgsnd : Bool) :
    Gpio × Option StmMgrMsg :=
  if s.msgQueueId = -1 then (s, none)
  else if msgsnd then
    ({ s with status.outputState := value &&& mask },
      some { opcode, payload := C.leBytes 4 mask.toNat ++ C.leBytes 4 value.toNat })
  else (s, none)

def gpioSetOutputs (s : Gpio) (mask value : BitVec 32) (msgsnd : Bool) : Gpio × Option StmMgrMsg :=
  s.setCommand .setOutput mask value msgsnd

def gpioSetInputbias (s : Gpio) (mask value : BitVec 32) (msgsnd : Bool) :
    Gpio × Option StmMgrMsg :=
  s.setCommand .setInputBias mask value msgsnd

theorem getLsbD_allAdc (i : Channel) : allAdc.getLsbD i = true := by
  revert i
  decide

section Reads

variable {s : Gpio} {currInputState inputState mask : BitVec 32}
  {first second adcReadings : Channel → BitVec 32}

theorem gpioReadInputs_fails {state : Bool} (h : s.shmInfo = .null ∨ state = false) :
    s.gpioReadInputs currInputState mask state = some (s, none) := by
  unfold gpioReadInputs
  cases hshm : s.shmInfo <;> cases state <;> simp [hshm] at h ⊢

theorem gpioReadInputs_attached (h : s.shmInfo = .attached) :
    s.gpioReadInputs currInputState mask true =
      some ({ s with
        status.inputState := s.status.inputState &&& (currInputState &&& mask) },
        some (currInputState &&& mask)) := by
  simp [gpioReadInputs, h]

theorem gpioReadAdc_fails {adcValues : Bool} (h : s.shmInfo = .null ∨ adcValues = false) :
    s.gpioReadAdc first second mask adcValues = some (s, fun _ => none) := by
  unfold gpioReadAdc
  cases hshm : s.shmInfo <;> cases adcValues <;> simp [hshm] at h ⊢

theorem gpioReadAdc_unselected {adcValues : Bool} (h : s.shmInfo = .failed)
    (hmask : ¬Selects mask) :
    s.gpioReadAdc first second mask adcValues = some (s, fun _ => none) := by
  cases adcValues <;> simp [gpioReadAdc, h, hmask]

theorem gpioReadAdc_attached (h : s.shmInfo = .attached) :
    s.gpioReadAdc first second mask true =
      some ({ s with
        status.adcValues := fun i =>
          if mask.getLsbD i then second i else s.status.adcValues i },
        fun i : Channel => if mask.getLsbD i then some (first i) else none) := by
  simp [gpioReadAdc, h]

/-- Without a mapping the status becomes what the stack holds. -/
theorem gpioGetStatus_null (h : s.shmInfo = .null) :
    s.gpioGetStatus currInputState first second inputState adcReadings =
      some { s with
        status.inputState := inputState
        status.adcValues := adcReadings } := by
  simp [gpioGetStatus, gpioReadInputs, gpioReadAdc, h]

theorem gpioGetStatus_failed (h : s.shmInfo = .failed) :
    s.gpioGetStatus currInputState first second inputState adcReadings = none := by
  simp [gpioGetStatus, gpioReadInputs, h]

/-- The first of the two reads of a channel is the one that the status keeps. -/
theorem gpioGetStatus_attached (h : s.shmInfo = .attached) :
    s.gpioGetStatus currInputState first second inputState adcReadings =
      some { s with
        status.inputState := currInputState &&& allInput
        status.adcValues := first } := by
  simp [gpioGetStatus, gpioReadInputs, gpioReadAdc, h, getLsbD_allAdc]

end Reads

/-- A call of one of the functions, with what it finds. -/
inductive Call
  | init (c : InitCalls)
  | deinit
  | readInputs (currInputState mask : BitVec 32) (state : Bool)
  | readAdc (first second : Channel → BitVec 32) (mask : BitVec 32) (adcValues : Bool)
  | getStatus (currInputState : BitVec 32) (first second : Channel → BitVec 32)
      (inputState : BitVec 32) (adcReadings : Channel → BitVec 32)
  | setOutputs (mask value : BitVec 32) (msgsnd : Bool)
  | setInputbias (mask value : BitVec 32) (msgsnd : Bool)

def next (s : Gpio) : Call → Option Gpio
  | .init c => some (s.gpioInit c).1
  | .deinit => some s.gpioDeinit
  | .readInputs curr mask state => (s.gpioReadInputs curr mask state).map Prod.fst
  | .readAdc first second mask adcValues => (s.gpioReadAdc first second mask adcValues).map Prod.fst
  | .getStatus curr first second inputState adcReadings =>
      s.gpioGetStatus curr first second inputState adcReadings
  | .setOutputs mask value msgsnd => some (s.gpioSetOutputs mask value msgsnd).1
  | .setInputbias mask value msgsnd => some (s.gpioSetInputbias mask value msgsnd).1

/-- Static storage starts with zeros. -/
def system : Transition.System Gpio Call where
  init s := s.status = { inputState := 0, outputState := 0, adcValues := fun _ => 0 }
  next := next

/-- What a successful call asks for or has read. -/
inductive Report
  | requested (mask value : BitVec 32)
  | inputs (mask word : BitVec 32)
  | adc (mask : BitVec 32) (values : Channel → BitVec 32)

def report (s : Gpio) : Call → List Report
  | .readInputs curr mask true => if s.shmInfo = .attached then [.inputs mask curr] else []
  | .readAdc _ second mask true => if s.shmInfo = .attached then [.adc mask second] else []
  | .getStatus curr _ second _ _ =>
      if s.shmInfo = .attached then [.inputs allInput curr, .adc allAdc second] else []
  | .setOutputs mask value msgsnd =>
      if (s.gpioSetOutputs mask value msgsnd).2.isSome then [.requested mask value] else []
  | _ => []

/-- What a call that returns does. -/
inductive Move (s : Gpio) : Call → Gpio → List Report → Prop
  | init {c : InitCalls} : Move s (.init c) (s.gpioInit c).1 []
  | deinit : Move s .deinit s.gpioDeinit []
  | noInputs {curr mask : BitVec 32} {state : Bool} (fails : s.shmInfo = .null ∨ state = false) :
      Move s (.readInputs curr mask state) s []
  | inputs {curr mask : BitVec 32} (attached : s.shmInfo = .attached) :
      Move s (.readInputs curr mask true)
        { s with status.inputState := s.status.inputState &&& (curr &&& mask) }
        [.inputs mask curr]
  | noAdc {first second : Channel → BitVec 32} {mask : BitVec 32} {adcValues : Bool}
      (unread : (s.shmInfo = .null ∨ adcValues = false) ∨ (s.shmInfo = .failed ∧ ¬Selects mask)) :
      Move s (.readAdc first second mask adcValues) s []
  | adc {first second : Channel → BitVec 32} {mask : BitVec 32} (attached : s.shmInfo = .attached) :
      Move s (.readAdc first second mask true)
        { s with
          status.adcValues := fun i =>
            if mask.getLsbD i then second i else s.status.adcValues i }
        [.adc mask second]
  | stackStatus {curr inputState : BitVec 32} {first second adcReadings : Channel → BitVec 32}
      (null : s.shmInfo = .null) :
      Move s (.getStatus curr first second inputState adcReadings)
        { s with
          status.inputState := inputState
          status.adcValues := adcReadings } []
  | getStatus {curr inputState : BitVec 32} {first second adcReadings : Channel → BitVec 32}
      (attached : s.shmInfo = .attached) :
      Move s (.getStatus curr first second inputState adcReadings)
        { s with
          status.inputState := curr &&& allInput
          status.adcValues := first }
        [.inputs allInput curr, .adc allAdc second]
  | noOutputs {mask value : BitVec 32} {msgsnd : Bool}
      (fails : ¬(s.msgQueueId ≠ -1 ∧ msgsnd = true)) :
      Move s (.setOutputs mask value msgsnd) s []
  | outputs {mask value : BitVec 32} (queue : s.msgQueueId ≠ -1) :
      Move s (.setOutputs mask value true)
        { s with status.outputState := value &&& mask } [.requested mask value]
  | noBias {mask value : BitVec 32} {msgsnd : Bool}
      (fails : ¬(s.msgQueueId ≠ -1 ∧ msgsnd = true)) :
      Move s (.setInputbias mask value msgsnd) s []
  | bias {mask value : BitVec 32} (queue : s.msgQueueId ≠ -1) :
      Move s (.setInputbias mask value true)
        { s with status.outputState := value &&& mask } []

theorem setCommand_fails {s : Gpio} {opcode : StmOpcode} {mask value : BitVec 32} {msgsnd : Bool}
    (h : ¬(s.msgQueueId ≠ -1 ∧ msgsnd = true)) :
    s.setCommand opcode mask value msgsnd = (s, none) := by
  unfold setCommand
  by_cases hqueue : s.msgQueueId = -1
  · rw [if_pos hqueue]
  · rw [if_neg hqueue, if_neg fun hsnd => h ⟨hqueue, hsnd⟩]

theorem next_move {s t : Gpio} {c : Call} (h : s.next c = some t) : Move s c t (s.report c) := by
  cases c with
  | init c =>
      cases h
      exact .init
  | deinit =>
      cases h
      exact .deinit
  | readInputs curr mask state =>
      by_cases hfail : s.shmInfo = .null ∨ state = false
      · rw [next, gpioReadInputs_fails hfail] at h
        cases h
        rw [show s.report (.readInputs curr mask state) = [] by
          rcases hfail with hshm | rfl
          · cases state <;> simp [report, hshm]
          · rfl]
        exact .noInputs hfail
      · obtain ⟨hnull, rfl⟩ := by simpa using hfail
        cases hshm : s.shmInfo with
        | null => exact absurd hshm hnull
        | failed => simp [next, gpioReadInputs, hshm] at h
        | attached =>
            rw [next, gpioReadInputs_attached hshm] at h
            cases h
            rw [show s.report (.readInputs curr mask true) = [.inputs mask curr] from if_pos hshm]
            exact .inputs hshm
  | readAdc first second mask adcValues =>
      by_cases hfail : s.shmInfo = .null ∨ adcValues = false
      · rw [next, gpioReadAdc_fails hfail] at h
        cases h
        rw [show s.report (.readAdc first second mask adcValues) = [] by
          rcases hfail with hshm | rfl
          · cases adcValues <;> simp [report, hshm]
          · rfl]
        exact .noAdc (.inl hfail)
      · obtain ⟨hnull, rfl⟩ := by simpa using hfail
        cases hshm : s.shmInfo with
        | null => exact absurd hshm hnull
        | failed =>
            by_cases hmask : Selects mask
            · simp [next, gpioReadAdc, hshm, hmask] at h
            · rw [next, gpioReadAdc_unselected hshm hmask] at h
              cases h
              rw [show s.report (.readAdc first second mask true) = [] by simp [report, hshm]]
              exact .noAdc (.inr ⟨hshm, hmask⟩)
        | attached =>
            rw [next, gpioReadAdc_attached hshm] at h
            cases h
            rw [show s.report (.readAdc first second mask true) = [.adc mask second] from
              if_pos hshm]
            exact .adc hshm
  | getStatus curr first second inputState adcReadings =>
      cases hshm : s.shmInfo with
      | null =>
          rw [next, gpioGetStatus_null hshm] at h
          cases h
          rw [show s.report (.getStatus curr first second inputState adcReadings) = [] by
            simp [report, hshm]]
          exact .stackStatus hshm
      | attached =>
          rw [next, gpioGetStatus_attached hshm] at h
          cases h
          rw [show s.report (.getStatus curr first second inputState adcReadings) =
            [.inputs allInput curr, .adc allAdc second] from if_pos hshm]
          exact .getStatus hshm
      | failed =>
          rw [next, gpioGetStatus_failed hshm] at h
          cases h
  | setOutputs mask value msgsnd =>
      cases h
      by_cases hsent : s.msgQueueId ≠ -1 ∧ msgsnd = true
      · obtain ⟨hqueue, rfl⟩ := hsent
        simpa [report, gpioSetOutputs, setCommand, hqueue] using .outputs hqueue
      · simpa [report, gpioSetOutputs, setCommand_fails hsent] using .noOutputs hsent
  | setInputbias mask value msgsnd =>
      cases h
      by_cases hsent : s.msgQueueId ≠ -1 ∧ msgsnd = true
      · obtain ⟨hqueue, rfl⟩ := hsent
        simpa [report, gpioSetInputbias, setCommand, hqueue] using .bias hqueue
      · simpa [report, gpioSetInputbias, setCommand_fails hsent] using .noBias hsent

/-- The static variables when the program starts. -/
def boot : Gpio where
  status := { inputState := 0, outputState := 0, adcValues := fun _ => 0 }
  shmInfo := .null
  msgQueueId := -1

theorem init_boot : (system.recording report).init (boot, []) := ⟨rfl, rfl⟩

/-- All system calls of `gpio_init` succeed. -/
def attaches : Call :=
  .init { shmKey := true, shmId := true, shmat := true, msgKey := true, msgget := 0 }

/-- The value that a request has for an output. -/
def Report.output : Report → Nat → Option Bool
  | .requested mask value, i => if mask.getLsbD i then some (value.getLsbD i) else none
  | _, _ => none

/-- The value that a sample has for an input. -/
def Report.input : Report → Nat → Option Bool
  | .inputs mask word, i => if mask.getLsbD i then some (word.getLsbD i) else none
  | _, _ => none

/-- The value that a sample has for a channel. -/
def Report.channel : Report → Channel → Option (BitVec 32)
  | .adc mask values, i => if mask.getLsbD i then some (values i) else none
  | _, _ => none

/-- The value last requested for an output. -/
def commanded (log : List Report) (i : Nat) : Bool :=
  Cache.latest (fun _ => false) (log.map Report.output) i

/-- The value last sampled for an input. -/
def sampledInput (log : List Report) (i : Nat) : Bool :=
  Cache.latest (fun _ => false) (log.map Report.input) i

/-- The value last sampled for a channel. -/
def sampledAdc (log : List Report) (i : Channel) : BitVec 32 :=
  Cache.latest (fun _ => 0) (log.map Report.channel) i

end Gpio

end SgMuni
