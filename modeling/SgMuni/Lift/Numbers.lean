import SgMuni.Lift.Sections
import SgMuni.Transition.History

/-!
# The number of a pending entry

`gpio_change_callback` writes the count into the message under `bincount_mutex`,
but evaluates the argument `bincount` of `add_pending` for each client after it
has unlocked. In between only `bin_clr_handler` assigns to `bincount`, so the
entry carries the number in its message exactly when the clear handler assigned
nothing in between, or that number again. The manager and the acknowledgements
keep both.
-/

namespace SgMuni

/-- The call of `add_pending` whose arguments are evaluated. -/
def GpioPc.addCall : GpioPc → Option AddCall
  | .pendingLock _ call _ | .pendingHeld _ call _ => some call
  | _ => none

namespace Comm

open Transition

/-- What `bin_clr_handler` last assigned to `bincount` after the callback left its
section: up to now, and up to the last time that the callback read the argument of
`add_pending`. -/
structure ClrWrites where
  since : Option Int
  read : Option Int

/-- Remember what `bin_clr_handler` assigns to `bincount`, an `int`. -/
def clrWrites (s : Comm) : Action → ClrWrites → ClrWrites
  | .gpio (.count _), _ => { since := none, read := none }
  | .gpio (.call _), w => { w with read := w.since }
  | .clr .zero, w => { w with since := some 0 }
  | .clr (.read ok), w => { w with since := some (C.wrap (s.readBincountFromFile ok)) }
  | _, w => w

/-- The handlers with what the clear handler assigned. -/
def assigning (cfg : Config) : System (Comm × ClrWrites) Action :=
  (system cfg).auxiliary clrWrites { since := none, read := none }

/-- When `add_pending` inserts an entry, the clear handler had assigned nothing to
`bincount` between the section of the lift and the reading of the argument, or had
last assigned the number of the lift. -/
def ReadsLift (p : Comm × ClrWrites) : Action → Prop
  | .gpio .add => ∀ a v, p.1.gpio.announcement = some a → p.2.read = some v → v = a.number
  | _ => True

/-- Every entry carries the number in its message. -/
def NumbersCarried (cfg : Config) (s : Comm) : Prop :=
  ∀ p ∈ s.pending, p.msg = assembleBinliftMessage p.bincount cfg.esn

/-- `bincount`, and the argument that was read from it, is the number in the
message unless the clear handler has assigned to it. -/
structure NumberInv (cfg : Config) (s : Comm) (w : ClrWrites) : Prop where
  current : ∀ a, s.gpio.announcement = some a → C.wrap s.bincount = w.since.getD a.number
  int : ∀ a, s.gpio.announcement = some a → C.wrap a.number = a.number
  text : ∀ a, s.gpio.announcement = some a → a.text = assembleBinliftMessage a.number cfg.esn
  call : ∀ a call, s.gpio.announcement = some a → s.gpio.addCall = some call →
    C.wrap call.bincount = w.read.getD a.number

variable {cfg : Config} {s s' : Comm} {w : ClrWrites}

theorem numberInv_start (bincount : Int) (file : Option Int) :
    NumberInv cfg (start bincount file) w := by
  constructor <;> simp [start, GpioPc.announcement]

/-- A step that leaves the count alone and begins nothing new. -/
theorem NumberInv.of_gpio (hinv : NumberInv cfg s w) (hbincount : s'.bincount = s.bincount)
    (hannounce : ∀ a, s'.gpio.announcement = some a → s.gpio.announcement = some a)
    (hcall : ∀ call, s'.gpio.addCall = some call → s.gpio.addCall = some call) :
    NumberInv cfg s' w where
  current a ha := by
    rw [hbincount]
    exact hinv.current a (hannounce a ha)
  int a ha := hinv.int a (hannounce a ha)
  text a ha := hinv.text a (hannounce a ha)
  call a call ha hc := hinv.call a call (hannounce a ha) (hcall call hc)

/-- A step under which the callback stays where it is. -/
theorem NumberInv.of_frame (hinv : NumberInv cfg s w) (hbincount : s'.bincount = s.bincount)
    (hgpio : s'.gpio = s.gpio) : NumberInv cfg s' w := by
  apply hinv.of_gpio hbincount <;> simp [hgpio]

theorem GpioMove.numberInv {a : GpioAct} (hinv : NumberInv cfg s w) (h : GpioMove cfg s a s') :
    NumberInv cfg s' (s.clrWrites (.gpio a) w) := by
  cases h with
  | @count written number gpio counted =>
      refine ⟨?_, ?_, ?_, ?_⟩
      · rintro _ ⟨⟩
        simp only [clrWrites, counted, Option.getD_none]
        exact C.wrap_wrap _
      · rintro _ ⟨⟩
        exact counted ▸ C.wrap_wrap _
      · rintro _ ⟨⟩
        rfl
      · rintro _ _ - ⟨⟩
  | @call a fd clist now gpio =>
      have hannounce : s.gpio.announcement = some a := by simp only [gpio, GpioPc.announcement]
      refine ⟨?_, ?_, ?_, ?_⟩
      · rintro _ ⟨⟩
        exact hinv.current a hannounce
      · rintro _ ⟨⟩
        exact hinv.int a hannounce
      · rintro _ ⟨⟩
        exact hinv.text a hannounce
      · rintro _ _ ⟨⟩ ⟨⟩
        exact hinv.current a hannounce
  | _ =>
      refine hinv.of_gpio rfl ?_ ?_ <;> simp_all [GpioPc.announcement, GpioPc.addCall]

theorem ClrMove.numberInv {a : ClrAct} (hinv : NumberInv cfg s w) (h : ClrMove cfg s a s') :
    NumberInv cfg s' (s.clrWrites (.clr a) w) := by
  cases h with
  | zero clr => exact ⟨fun _ _ => rfl, hinv.int, hinv.text, hinv.call⟩
  | read clr readBack =>
      refine ⟨fun _ _ => ?_, hinv.int, hinv.text, hinv.call⟩
      simp only [clrWrites, readBack, Option.getD_some]
  | _ => exact hinv.of_frame rfl rfl

/-- No step makes the count, or an argument read from it, another number without
the clear handler. -/
theorem NumberInv.next {a : Action} (hinv : NumberInv cfg s w) (h : next cfg s a = some s') :
    NumberInv cfg s' (s.clrWrites a w) := by
  cases a with
  | gpio a => exact (gpioNext_move h).numberInv hinv
  | clr a => exact (clrNext_move h).numberInv hinv
  | query a => cases queryNext_move h <;> exact hinv.of_frame rfl rfl
  | ack a => cases ackNext_move h <;> exact hinv.of_frame rfl rfl
  | manager a => cases managerNext_move h <;> exact hinv.of_frame rfl rfl
  | tcp a => cases tcpNext_move h <;> exact hinv.of_frame rfl rfl

/-- Entries that only evolve keep what they carry. -/
theorem NumbersCarried.evolve (h : NumbersCarried cfg s)
    (hpending : ∀ q ∈ s'.pending, ∃ p ∈ s.pending, p.Evolves q) : NumbersCarried cfg s' := by
  intro q hq
  obtain ⟨p, hp, hev⟩ := hpending q hq
  rw [hev.msg, hev.bincount, h p hp]

/-- `add_pending` keeps the entries right exactly when the argument it was called
with is the number in the message. -/
theorem numbersCarried_add_iff {a : Announcement} {call : AddCall} {clist : List Fd}
    (hinv : NumberInv cfg s w) (h : NumbersCarried cfg s)
    (hgpio : s.gpio = .pendingHeld a call clist)
    (hpending : s'.pending = addPending
      (newPending s.fresh call.fd a.text (toUnsigned call.bincount) call.now) s.pending) :
    NumbersCarried cfg s' ↔ ReadsLift (s, w) (.gpio .add) := by
  have hannounce : s.gpio.announcement = some a := by simp only [hgpio, GpioPc.announcement]
  have hread : C.wrap call.bincount = w.read.getD a.number :=
    hinv.call a call hannounce (by simp only [hgpio, GpioPc.addCall])
  constructor
  · intro hcarried b v hb hv
    cases hannounce.symm.trans hb
    have hentry : a.text = assembleBinliftMessage (C.wrap (toUnsigned call.bincount)) cfg.esn := by
      apply hcarried (newPending s.fresh call.fd a.text (toUnsigned call.bincount) call.now)
      rw [hpending]
      exact List.mem_cons_self
    rw [hv, Option.getD_some] at hread
    rw [hinv.text a hannounce, wrap_toUnsigned, hread] at hentry
    have hint : C.wrap v = v := hread ▸ C.wrap_wrap call.bincount
    exact (assembleBinliftMessage_inj (hinv.int a hannounce) hint hentry).symm
  · intro hlift q hq
    rw [hpending] at hq
    rcases mem_of_mem_addPending hq with rfl | hold
    · have hnumber : w.read.getD a.number = a.number := by
        cases hv : w.read with
        | none => rfl
        | some v => exact hlift a v hannounce hv
      simp only [newPending, wrap_toUnsigned, hread, hnumber, hinv.text a hannounce]
    · exact h q hold

/-- A step keeps the entries right exactly when it meets the condition. -/
theorem numbersCarried_next_iff {a : Action} (hinv : NumberInv cfg s w)
    (h : NumbersCarried cfg s) (hn : next cfg s a = some s') :
    NumbersCarried cfg s' ↔ ReadsLift (s, w) a := by
  cases a with
  | gpio a =>
      cases gpioNext_move hn with
      | add gpio => exact numbersCarried_add_iff hinv h gpio rfl
      | _ => exact iff_of_true h trivial
  | clr a => cases clrNext_move hn <;> exact iff_of_true h trivial
  | query a => cases queryNext_move hn <;> exact iff_of_true h trivial
  | ack a => exact iff_of_true (h.evolve fun q hq => (ackNext_move hn).mem_pending hq) trivial
  | manager a =>
      exact iff_of_true (h.evolve fun q hq => (managerNext_move hn).mem_pending hq) trivial
  | tcp a => cases tcpNext_move hn <;> exact iff_of_true h trivial

/-- In a run every pending entry carries the number in its message, in all states,
exactly when `add_pending` never inserts a count that the clear handler has changed
since the lift. -/
theorem pending_carries_number_iff {bincount : Int} {file : Option Int} {as : List Action}
    (hrun : (system cfg).exec (start bincount file) as = some s) :
    (assigning cfg).StepsMeet ReadsLift (start bincount file, { since := none, read := none }) as ↔
      (system cfg).StatesMeet (NumbersCarried cfg) (start bincount file) as := by
  obtain ⟨w, hw⟩ : ∃ w, (assigning cfg).exec
      (start bincount file, { since := none, read := none }) as = some (s, w) :=
    System.auxiliary_exec hrun
  have hstates : (assigning cfg).StatesMeet (fun p => NumbersCarried cfg p.1)
      (start bincount file, { since := none, read := none }) as ↔
        (system cfg).StatesMeet (NumbersCarried cfg) (start bincount file) as :=
    System.statesMeet_auxiliary
  rw [← hstates]
  apply System.stepsMeet_iff_statesMeet (I := fun p => NumberInv cfg p.1 p.2) _ _ _ _ hw
  · intro p a q hn hinv
    obtain ⟨hnext, hq⟩ := System.auxiliary_next hn
    rw [hq]
    exact hinv.next hnext
  · intro p a q hn hinv hp
    exact numbersCarried_next_iff hinv hp (System.auxiliary_next hn).1
  · exact numberInv_start bincount file
  · intro p hp
    cases hp

/-- A clear falls between the broadcast of the first lift and its call of
`add_pending`, but its write fails and it reads the lift's number back. -/
def restoredLift : List Action :=
  firstLift.take 6 ++
    [.clr .task, .clr .zero, .clr (.write false), .clr (.read true)] ++ firstLift.drop 6

theorem pending_carries_number_iff_restoredLift :
    ∃ s, (system unit4711).exec (start 0 none) restoredLift = some s ∧
      s.pending.map (·.bincount) = [1] ∧
      (system unit4711).StatesMeet (NumbersCarried unit4711) (start 0 none) restoredLift := by
  have hmeet : (assigning unit4711).StepsMeet ReadsLift
      (start 0 none, { since := none, read := none })
      (restoredLift.take 14 ++ [.gpio .add]) := by
    refine System.stepsMeet_append (System.stepsMeet_of_forall ?_ _) fun p hp => ?_
    · simp [restoredLift, firstLift, ReadsLift]
    · cases hp
      refine ⟨?_, fun _ _ => trivial⟩
      -- What the clear handler read back is the number of the lift.
      rintro a v ⟨⟩ ⟨⟩
      rfl
  exact ⟨_, rfl, rfl, (pending_carries_number_iff rfl).mp hmeet⟩

/-- A clear falls between the broadcast of the first lift and its call of
`add_pending`. -/
def clearedLift : List Action :=
  firstLift.take 6 ++ [.clr .task, .clr .zero] ++ firstLift.drop 6

/-- The entry has the number 0 and the message of lift 1. -/
theorem pending_number_differs :
    ∃ s p, (system unit4711).Reachable s ∧ p ∈ s.pending ∧ p.bincount = 0 ∧
      p.msg = assembleBinliftMessage 1 unit4711.esn ∧
      p.msg ≠ assembleBinliftMessage p.bincount unit4711.esn := by
  refine ⟨_, _, System.reachable_of_exec clearedLift ⟨0, none, rfl⟩ rfl,
    List.mem_cons_self, rfl, rfl, fun h => ?_⟩
  exact absurd (assembleBinliftMessage_inj (m := 1) (n := 0) rfl rfl h) (by decide)

end Comm

end SgMuni
