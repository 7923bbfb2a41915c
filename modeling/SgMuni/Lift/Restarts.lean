import SgMuni.Lift.Sections

/-!
# The count across restarts

The unit loses power between any two steps and starts again: `main` reads the
count from the file, or writes 0 when there is no file, and the handlers run.
Only the file outlives the power. Every file operation succeeds.

## Implementation notes

A crash between two assignments of the section of `gpio_change_callback` leaves
what a crash before the section or after it leaves, so that the section is one
step here too. `lifts` counts the lifts written since the last clear, `refids`
lists the refids broadcast since then, and `cleared` is the number of sections
before it; no step of the code reads them.
-/

namespace SgMuni

/-- No file operation of the step fails. -/
def Comm.Action.filesWork : Comm.Action → Bool
  | .gpio (.count written) => written
  | .clr (.write ok) | .clr (.read ok) => ok
  | _ => true

/-- Where the process is: not started, in `main` at the read of the file or at
the write of 0, or with its threads running. -/
inductive Power
  | off
  | reading
  | creating
  | running
deriving DecidableEq

structure Device where
  power : Power
  comm : Comm
  lifts : Nat
  refids : List Int
  cleared : Nat

namespace Device

open Transition

def liftsAfter (d : Device) : Comm.Action → Nat
  | .gpio (.count _) => d.lifts + 1
  | .clr (.write _) => 0
  | _ => d.lifts

def refidsAfter (d : Device) : Comm.Action → List Int
  | .gpio .lockClients =>
      match d.comm.gpio with
      | .broadcastLock a => d.refids ++ [a.number]
      | _ => d.refids
  | .clr (.write _) => []
  | _ => d.refids

def clearedAfter (d : Device) : Comm.Action → Nat
  | .clr (.write _) => d.comm.sections
  | _ => d.cleared

inductive Act
  | boot
  | read
  | create
  | comm (a : Comm.Action)
  | crash

def next (cfg : Comm.Config) (d : Device) : Act → Option Device
  | .boot =>
      match d.power with
      | .off => some { d with power := .reading }
      | _ => none
  | .read =>
      match d.power with
      | .reading =>
          some { d with
            power := if d.comm.file = none then .creating else .running
            comm := { d.comm with bincount := d.comm.readBincountFromFile true } }
      | _ => none
  | .create =>
      match d.power with
      | .creating =>
          some { d with
            power := .running
            comm := { d.comm with file := d.comm.writeBincountToFile 0 true } }
      | _ => none
  | .comm a =>
      match d.power with
      | .running =>
          if a.filesWork then
            (d.comm.next cfg a).map fun t =>
              { d with
                comm := t
                lifts := d.liftsAfter a
                refids := d.refidsAfter a
                cleared := d.clearedAfter a }
          else none
      | _ => none
  | .crash =>
      some { d with
        power := .off
        comm := Comm.start 0 d.comm.file
        cleared := 0 }

/-- A unit that was never switched on. -/
def new : Device where
  power := .off
  comm := Comm.start 0 none
  lifts := 0
  refids := []
  cleared := 0

def system (cfg : Comm.Config) : System Device Act where
  init d := d = new
  next := next cfg

/-- The counter does not overflow. -/
def Fits (d : Device) : Act → Prop
  | .comm (.gpio (.count _)) => (d.lifts : Int) < C.intMax
  | _ => True

/-- What is broadcast was counted after the last clear. -/
def Fresh (d : Device) : Act → Prop
  | .comm (.gpio .lockClients) => ∀ a, d.comm.gpio = .broadcastLock a → d.cleared ≤ a.seq
  | _ => True

end Device

namespace Comm

variable {cfg : Config} {s t : Comm}

/-- What a step does with the count and its file when no file operation fails. -/
inductive CountMove (s t : Comm) : Action → Prop
  | count (gpio : s.gpio = .counting) (bincount : t.bincount = C.wrap (s.bincount + 1))
      (file : t.file = some t.bincount) (clr : t.clr = s.clr) :
      CountMove s t (.gpio (.count true))
  | zero (bincount : t.bincount = 0) (file : t.file = s.file) (clr : t.clr = .writing) :
      CountMove s t (.clr .zero)
  | write (clr : s.clr = .writing) (bincount : t.bincount = s.bincount)
      (file : t.file = some s.bincount) (left : t.clr ≠ .writing) :
      CountMove s t (.clr (.write true))
  | read (clr : s.clr = .reading) (bincount : t.bincount = s.readBincountFromFile true)
      (file : t.file = s.file) (left : t.clr ≠ .writing) : CountMove s t (.clr (.read true))
  | other {a : Action} (count : ∀ written, a ≠ .gpio (.count written))
      (write : ∀ ok, a ≠ .clr (.write ok)) (bincount : t.bincount = s.bincount)
      (file : t.file = s.file) (clr : t.clr = .writing ↔ s.clr = .writing) : CountMove s t a

theorem GpioMove.countMove {a : GpioAct} (h : GpioMove cfg s a t)
    (hfiles : (Action.gpio a).filesWork = true) : CountMove s t (.gpio a) := by
  cases h with
  | count gpio counted =>
      cases hfiles
      exact .count gpio counted rfl rfl
  | _ => exact .other (by simp) (by simp) rfl rfl .rfl

theorem ClrMove.countMove {a : ClrAct} (h : ClrMove cfg s a t)
    (hfiles : (Action.clr a).filesWork = true) : CountMove s t (.clr a) := by
  cases h with
  | zero clr => exact .zero rfl rfl rfl
  | write clr =>
      cases hfiles
      exact .write clr rfl rfl (by simp)
  | read clr readBack =>
      cases hfiles
      exact .read clr readBack rfl (by simp)
  | _ => exact .other (by simp) (by simp) rfl rfl (by simp [*])

theorem next_countMove {a : Action} (h : next cfg s a = some t) (hfiles : a.filesWork = true) :
    CountMove s t a := by
  cases a with
  | gpio a => exact (gpioNext_move h).countMove hfiles
  | clr a => exact (clrNext_move h).countMove hfiles
  | query a => cases queryNext_move h <;> exact .other (by simp) (by simp) rfl rfl .rfl
  | ack a => cases ackNext_move h <;> exact .other (by simp) (by simp) rfl rfl .rfl
  | manager a => cases managerNext_move h <;> exact .other (by simp) (by simp) rfl rfl .rfl
  | tcp a => cases tcpNext_move h <;> exact .other (by simp) (by simp) rfl rfl .rfl

end Comm

namespace Device

open Transition

variable {cfg : Comm.Config} {d d' : Device} {a : Act}

/-- What a step does to the unit. -/
inductive Move (cfg : Comm.Config) (d : Device) : Act → Device → Prop
  | boot (off : d.power = .off) : Move cfg d .boot { d with power := .reading }
  | read (reading : d.power = .reading) :
      Move cfg d .read
        { d with
          power := if d.comm.file = none then .creating else .running
          comm := { d.comm with bincount := d.comm.readBincountFromFile true } }
  | create (creating : d.power = .creating) :
      Move cfg d .create
        { d with
          power := .running
          comm := { d.comm with file := d.comm.writeBincountToFile 0 true } }
  | comm {a : Comm.Action} {t : Comm} (running : d.power = .running) (files : a.filesWork = true)
      (next : d.comm.next cfg a = some t) :
      Move cfg d (.comm a)
        { d with
          comm := t
          lifts := d.liftsAfter a
          refids := d.refidsAfter a
          cleared := d.clearedAfter a }
  | crash :
      Move cfg d .crash
        { d with
          power := .off
          comm := Comm.start 0 d.comm.file
          cleared := 0 }

theorem next_move (hn : next cfg d a = some d') : Move cfg d a d' := by
  cases a with
  | comm a =>
      simp only [next] at hn
      split at hn <;> try cases hn
      case h_1 hrunning =>
          split at hn <;> try cases hn
          case isTrue hfiles =>
              obtain ⟨t, ht, rfl⟩ := Option.map_eq_some_iff.mp hn
              exact .comm hrunning hfiles ht
  | crash =>
      cases hn
      exact .crash
  | _ =>
      simp only [next] at hn
      split at hn <;> cases hn
      case h_1 hpower => constructor; exact hpower

/-- What every run keeps. -/
structure Counted (d : Device) : Prop where
  sections : Comm.SectionInv d.comm
  issued : Comm.Issued d.comm
  booting : d.power ≠ .running → d.comm = Comm.start 0 d.comm.file
  creating : d.power = .creating → d.comm.file = none
  file : ∀ value, d.comm.file = some value → value = d.lifts
  noFile : d.comm.file = none → d.lifts = 0 ∧ d.power ≠ .running
  bincount : d.power = .running →
    d.comm.bincount = if d.comm.clr = .writing then 0 else (d.lifts : Int)

theorem counted_new : Counted new := by
  constructor
  case sections => exact Comm.sectionInv_start 0 none
  case issued => exact Comm.issued_start 0 none
  all_goals simp [new, Comm.start]

theorem Counted.boot (h : d.Counted) (hoff : d.power = .off) :
    Counted { d with power := .reading } := by
  constructor
  case sections => exact h.sections
  case issued => exact h.issued
  case booting =>
    intro _
    exact h.booting (by simp [hoff])
  case creating => simp
  case file => exact h.file
  case noFile =>
    intro hfile
    exact ⟨(h.noFile hfile).1, by simp⟩
  case bincount => simp

theorem Counted.clr_idle (h : d.Counted) (hpower : d.power ≠ .running) : d.comm.clr = .idle := by
  rw [h.booting hpower]
  rfl

theorem Counted.bincount_zero (h : d.Counted) (hpower : d.power ≠ .running) :
    d.comm.bincount = 0 := by
  rw [h.booting hpower]
  rfl

/-- `main` reads what the last run has left. -/
theorem Counted.read (h : d.Counted) (hreading : d.power = .reading) :
    Counted { d with
      power := if d.comm.file = none then .creating else .running
      comm := { d.comm with bincount := d.comm.readBincountFromFile true } } := by
  have hpower : d.power ≠ .running := by simp [hreading]
  constructor
  case sections => exact ⟨h.sections.bincount, h.sections.clients⟩
  case issued => exact ⟨h.issued.gpio, h.issued.clr, h.issued.query, h.issued.announced⟩
  case booting =>
    intro hnot
    have hfile : d.comm.file = none := by
      by_contra hne
      simp [hne] at hnot
    have hsame : d.comm.readBincountFromFile true = d.comm.bincount := by
      simp [Comm.readBincountFromFile, hfile]
    rw [hsame]
    exact h.booting hpower
  case creating =>
    intro hcreating
    by_contra hne
    simp [hne] at hcreating
  case file => exact h.file
  case noFile =>
    intro hfile
    refine ⟨(h.noFile hfile).1, ?_⟩
    have hnone : d.comm.file = none := hfile
    simp [hnone]
  case bincount =>
    intro hrunning
    have hfile : d.comm.file ≠ none := by
      intro hnone
      simp [hnone] at hrunning
    obtain ⟨value, hvalue⟩ := Option.ne_none_iff_exists'.mp hfile
    simp [Comm.readBincountFromFile, hvalue, h.clr_idle hpower, h.file value hvalue]

/-- `main` starts a new file. -/
theorem Counted.create (h : d.Counted) (hcreating : d.power = .creating) :
    Counted { d with
      power := .running
      comm := { d.comm with file := d.comm.writeBincountToFile 0 true } } := by
  have hpower : d.power ≠ .running := by simp [hcreating]
  have hlifts : d.lifts = 0 := (h.noFile (h.creating hcreating)).1
  constructor
  case sections => exact ⟨h.sections.bincount, h.sections.clients⟩
  case issued => exact ⟨h.issued.gpio, h.issued.clr, h.issued.query, h.issued.announced⟩
  case bincount =>
    intro _
    simp [h.clr_idle hpower, h.bincount_zero hpower, hlifts]
  all_goals simp [Comm.writeBincountToFile, hlifts]

/-- The file outlives the power. -/
theorem Counted.crash (h : d.Counted) :
    Counted { d with power := .off, comm := Comm.start 0 d.comm.file, cleared := 0 } := by
  constructor
  case sections => exact Comm.sectionInv_start 0 _
  case issued => exact Comm.issued_start 0 _
  case file => exact h.file
  case noFile =>
    intro hfile
    exact ⟨(h.noFile hfile).1, by simp⟩
  all_goals simp [Comm.start]

theorem liftsAfter_of_ne {a : Comm.Action} (hcount : ∀ written, a ≠ .gpio (.count written))
    (hwrite : ∀ ok, a ≠ .clr (.write ok)) : d.liftsAfter a = d.lifts := by
  unfold liftsAfter
  split
  case h_1 written => exact absurd rfl (hcount written)
  case h_2 ok => exact absurd rfl (hwrite ok)
  case h_3 => rfl

/-- While the callback counts, the clear handler is outside of its section. -/
theorem Counted.clr_ne_writing (h : d.Counted) (hgpio : d.comm.gpio = .counting) :
    d.comm.clr ≠ .writing := by
  intro hclr
  have hsame : Handler.gpio = Handler.clr := by
    apply h.sections.bincount.unique
    · simp [Comm.inBincount, hgpio]
    · simp [Comm.inBincount, hclr]
  cases hsame

/-- The file holds the lifts counted since the last clear, and the count agrees
with it unless the clear handler is about to write. -/
theorem Counted.countMove {a : Comm.Action} {t : Comm} (h : d.Counted)
    (hrunning : d.power = .running) (hfits : d.Fits (.comm a)) (hmove : Comm.CountMove d.comm t a) :
    t.file = some (d.liftsAfter a : Int) ∧
      t.bincount = if t.clr = .writing then 0 else (d.liftsAfter a : Int) := by
  have hbincount := h.bincount hrunning
  have hfile : d.comm.file = some (d.lifts : Int) := by
    obtain ⟨value, hvalue⟩ := Option.ne_none_iff_exists'.mp
      fun hnone => (h.noFile hnone).2 hrunning
    rw [hvalue, h.file value hvalue]
  cases hmove with
  | count gpio bincount file clr =>
      have hclr := h.clr_ne_writing gpio
      rw [if_neg hclr] at hbincount
      have hlt : (d.lifts : Int) < C.intMax := hfits
      have hnext : t.bincount = (d.lifts : Int) + 1 := by
        rw [bincount, hbincount]
        exact C.wrap_of_range (by omega) (by omega)
      rw [clr, if_neg hclr, file, hnext]
      simp [liftsAfter]
  | zero bincount file clr =>
      rw [clr, if_pos rfl, file, hfile]
      exact ⟨rfl, bincount⟩
  | write clr bincount file left =>
      rw [if_pos clr] at hbincount
      rw [if_neg left, bincount, file, hbincount]
      simp [liftsAfter]
  | read clr bincount file left =>
      rw [if_neg left, file, hfile, bincount]
      simp [Comm.readBincountFromFile, hfile, liftsAfter]
  | other count write bincount file clr =>
      rw [liftsAfter_of_ne count write, file, bincount, hbincount]
      exact ⟨hfile, by simp only [clr]⟩

/-- The handlers keep the file and the count equal outside of their sections. -/
theorem Counted.comm {a : Comm.Action} {t : Comm} (h : d.Counted) (hrunning : d.power = .running)
    (hfiles : a.filesWork = true) (hfits : d.Fits (.comm a)) (hn : d.comm.next cfg a = some t) :
    Counted { d with
      comm := t
      lifts := d.liftsAfter a
      refids := d.refidsAfter a
      cleared := d.clearedAfter a } := by
  obtain ⟨hfile, hbincount⟩ := h.countMove hrunning hfits (Comm.next_countMove hn hfiles)
  constructor
  case sections => exact h.sections.next hn
  case issued => exact h.issued.next hn
  case bincount =>
    intro _
    exact hbincount
  case file =>
    intro value hvalue
    exact Option.some.inj (hvalue.symm.trans hfile)
  all_goals simp [hrunning, hfile]

theorem Counted.next (h : d.Counted) (hfits : d.Fits a) (hn : next cfg d a = some d') :
    d'.Counted := by
  cases next_move hn with
  | boot off => exact h.boot off
  | read reading => exact h.read reading
  | create creating => exact h.create creating
  | comm running files next => exact h.comm running files hfits next
  | crash => exact h.crash

theorem counted_of_reachableUnder (h : (system cfg).ReachableUnder Fits d) : d.Counted := by
  apply h.invariant
  · rintro _ rfl
    exact counted_new
  · intro d a d' hfits hn hd
    exact hd.next hfits hn

/-- What runs keep in which only lifts counted after the last clear are broadcast. -/
structure Increasing (d : Device) : Prop where
  refids : d.refids.Pairwise (· < ·)
  le : ∀ r ∈ d.refids, r ≤ d.lifts
  /-- The lift to be broadcast is the last one, or was counted before the last clear. -/
  announcing : ∀ a, d.comm.gpio = .broadcastLock a →
    a.seq < d.cleared ∨ a.number = d.lifts ∧ ∀ r ∈ d.refids, r < a.number

theorem increasing_new : Increasing new := by
  constructor <;> simp [new, Comm.start]

/-- Nothing is counted, cleared or broadcast. -/
theorem Increasing.quiet (h : d.Increasing) (hrefids : d'.refids = d.refids)
    (hlifts : d'.lifts = d.lifts)
    (hgpio : ∀ a, d'.comm.gpio = .broadcastLock a →
      d.comm.gpio = .broadcastLock a ∧ d'.cleared = d.cleared) : d'.Increasing := by
  constructor
  · rw [hrefids]
    exact h.refids
  · rw [hrefids, hlifts]
    exact h.le
  · intro a ha
    obtain ⟨hold, hcleared⟩ := hgpio a ha
    rw [hrefids, hlifts, hcleared]
    exact h.announcing a hold

theorem Increasing.gpio {a : Comm.GpioAct} {t : Comm} (h : d.Increasing) (hcounted : d.Counted)
    (hrunning : d.power = .running) (hfiles : (Comm.Action.gpio a).filesWork = true)
    (hfits : d.Fits (.comm (.gpio a))) (hfresh : d.Fresh (.comm (.gpio a)))
    (hmove : Comm.GpioMove cfg d.comm a t) :
    Increasing { d with
      comm := t
      lifts := d.liftsAfter (.gpio a)
      refids := d.refidsAfter (.gpio a)
      cleared := d.clearedAfter (.gpio a) } := by
  have hcount := (hcounted.countMove hrunning hfits (hmove.countMove hfiles)).2
  cases hmove with
  | @count written number gpio counted =>
      have hclr : d.comm.clr ≠ .writing := hcounted.clr_ne_writing gpio
      have hnumber : number = (d.lifts : Int) + 1 := by
        simpa [hclr, liftsAfter] using hcount
      have hlt : ∀ r ∈ d.refids, r < (d.lifts : Int) + 1 := by
        intro r hr
        exact Int.lt_add_one_of_le (h.le r hr)
      constructor
      · exact h.refids
      · intro r hr
        exact_mod_cast (hlt r hr).le
      · rintro _ ⟨⟩
        refine .inr ⟨by simpa [liftsAfter] using hnumber, ?_⟩
        intro r hr
        exact hnumber ▸ hlt r hr
  | @lockBroadcast a gpio free =>
      have hrefids : d.refidsAfter (.gpio .lockClients) = d.refids ++ [a.number] := by
        simp [refidsAfter, gpio]
      obtain ⟨hlast, hlt⟩ := (h.announcing a gpio).resolve_left (hfresh a gpio).not_gt
      rw [hrefids]
      constructor
      · apply List.pairwise_append.mpr
        refine ⟨h.refids, List.pairwise_singleton _ _, ?_⟩
        intro r hr n hn
        cases List.mem_singleton.mp hn
        exact hlt r hr
      · intro r hr
        rcases List.mem_append.mp hr with hold | hnew
        · exact h.le r hold
        · cases List.mem_singleton.mp hnew
          exact hlast.le
      · simp
  | lockList gpio free =>
      apply h.quiet
      · simp [refidsAfter, gpio]
      · rfl
      · simp
  | _ =>
      apply h.quiet
      · rfl
      · rfl
      · simp

theorem Increasing.clr {a : Comm.ClrAct} {t : Comm} (h : d.Increasing) (hcounted : d.Counted)
    (hmove : Comm.ClrMove cfg d.comm a t) :
    Increasing { d with
      comm := t
      lifts := d.liftsAfter (.clr a)
      refids := d.refidsAfter (.clr a)
      cleared := d.clearedAfter (.clr a) } := by
  cases hmove with
  | write clr =>
      constructor
      · exact List.Pairwise.nil
      · simp [refidsAfter]
      · intro b hb
        have hgpio : d.comm.gpio = .broadcastLock b := hb
        apply Or.inl
        exact hcounted.issued.gpio b (by simp [hgpio, GpioPc.announcement])
  | _ => exact h.quiet rfl rfl fun _ ha => ⟨ha, rfl⟩

theorem Increasing.comm {a : Comm.Action} {t : Comm} (h : d.Increasing) (hcounted : d.Counted)
    (hrunning : d.power = .running) (hfiles : a.filesWork = true) (hfits : d.Fits (.comm a))
    (hfresh : d.Fresh (.comm a)) (hn : d.comm.next cfg a = some t) :
    Increasing { d with
      comm := t
      lifts := d.liftsAfter a
      refids := d.refidsAfter a
      cleared := d.clearedAfter a } := by
  cases a with
  | gpio a => exact h.gpio hcounted hrunning hfiles hfits hfresh (Comm.gpioNext_move hn)
  | clr a => exact h.clr hcounted (Comm.clrNext_move hn)
  | query a =>
      refine h.quiet rfl rfl fun b hb => ?_
      cases Comm.queryNext_move hn <;> exact ⟨hb, rfl⟩
  | ack a =>
      refine h.quiet rfl rfl fun b hb => ?_
      exact ⟨(Comm.ackNext_move hn).outside.gpio ▸ hb, rfl⟩
  | manager a =>
      refine h.quiet rfl rfl fun b hb => ?_
      exact ⟨(Comm.managerNext_move hn).outside.gpio ▸ hb, rfl⟩
  | tcp a =>
      refine h.quiet rfl rfl fun b hb => ?_
      exact ⟨(Comm.tcpNext_move hn).outside.gpio ▸ hb, rfl⟩

theorem Increasing.next (h : d.Increasing) (hcounted : d.Counted) (hfits : d.Fits a)
    (hfresh : d.Fresh a) (hn : Device.next cfg d a = some d') : d'.Increasing := by
  cases next_move hn with
  | comm running files next => exact h.comm hcounted running files hfits hfresh next
  | crash => exact h.quiet rfl rfl (by simp [Comm.start])
  | _ => exact h.quiet rfl rfl fun _ ha => ⟨ha, rfl⟩

/-- Whenever `bincount_mutex` is free the file holds the count, which is the
number of lifts since the last clear. If moreover nothing is broadcast that was
counted before the last clear, the refids broadcast since then strictly increase. -/
theorem lift_count_survives (h : (system cfg).ReachableUnder Fits d) :
    (d.power = .running → d.comm.bincountMtx = none →
      d.comm.file = some d.comm.bincount ∧ d.comm.bincount = d.lifts) ∧
    ((system cfg).ReachableUnder (fun d a => d.Fits a ∧ d.Fresh a) d →
      d.refids.Pairwise (· < ·)) := by
  constructor
  · intro hrunning hfree
    have hcounted : d.Counted := counted_of_reachableUnder h
    have hclr : d.comm.clr ≠ .writing := by
      intro hclr
      have hout := hcounted.sections.bincount.outside_of_free hfree .clr
      simp [Comm.inBincount, hclr] at hout
    have hbincount : d.comm.bincount = d.lifts := by
      rw [hcounted.bincount hrunning, if_neg hclr]
    obtain ⟨value, hvalue⟩ := Option.ne_none_iff_exists'.mp
      fun hnone => (hcounted.noFile hnone).2 hrunning
    exact ⟨by rw [hvalue, hcounted.file value hvalue, hbincount], hbincount⟩
  · intro h
    have hinv : d.Increasing := by
      apply h.invariant_using (Q := Counted)
      · intro d hd
        exact counted_of_reachableUnder (hd.mono fun _ _ hc => hc.1)
      · rintro _ rfl
        exact increasing_new
      · intro d a d' hcounted hc hn hd
        exact hd.next hcounted hc.1 hc.2 hn
    exact hinv.refids

/-- The first lift, a restart, and the second lift, with no client connected. -/
def liftRestartLift : List Act :=
  [.boot, .read, .create, .comm (.gpio .lift), .comm (.gpio (.count true)),
    .comm (.gpio .lockClients), .crash, .boot, .read, .comm (.gpio .lift),
    .comm (.gpio (.count true)), .comm (.gpio .lockClients)]

theorem liftRestartLift_meets :
    (system Comm.unit4711).StepsMeet (fun d a => d.Fits a ∧ d.Fresh a) new liftRestartLift := by
  have hcut : liftRestartLift = liftRestartLift.take 4 ++
      (liftRestartLift.take 10).drop 4 ++ liftRestartLift.drop 10 := rfl
  rw [hcut]
  apply System.stepsMeet_append
  · apply System.stepsMeet_append
    · apply System.stepsMeet_of_forall
      simp [liftRestartLift, Fits, Fresh]
    · intro d hd
      cases hd
      have hfits : ((0 : Nat) : Int) < C.intMax := by decide
      refine ⟨⟨hfits, trivial⟩, fun d hd => ?_⟩
      cases hd
      refine ⟨⟨trivial, fun a _ => Nat.zero_le a.seq⟩, fun d _ => ?_⟩
      apply System.stepsMeet_of_forall
      simp [Fits, Fresh]
  · intro d hd
    cases hd
    have hfits : ((1 : Nat) : Int) < C.intMax := by decide
    refine ⟨⟨hfits, trivial⟩, fun d hd => ?_⟩
    cases hd
    exact ⟨⟨trivial, fun a _ => Nat.zero_le a.seq⟩, fun _ _ => trivial⟩

theorem lift_count_survives_liftRestartLift :
    ∃ d, (system Comm.unit4711).exec new liftRestartLift = some d ∧
      d.comm.file = some 2 ∧ d.refids = [1, 2] ∧
      (d.comm.file = some d.comm.bincount ∧ d.comm.bincount = d.lifts) ∧
      d.refids.Pairwise (· < ·) := by
  have hleads := System.leadsUnder_of_stepsMeet liftRestartLift liftRestartLift_meets rfl
  have hboth : (system Comm.unit4711).ReachableUnder (fun d a => d.Fits a ∧ d.Fresh a) _ :=
    ⟨new, rfl, hleads⟩
  have hresult := lift_count_survives (hboth.mono fun _ _ h => h.1)
  exact ⟨_, rfl, rfl, rfl, hresult.1 rfl rfl, hresult.2 hboth⟩

/-- A client is connected. The first lift is counted, the clear handler runs to
its end, and then the lift is broadcast; then comes the second lift. -/
def clearedBeforeBroadcast : List Act :=
  [.boot, .read, .create, .comm (.tcp (.register 6)), .comm (.gpio .lift),
    .comm (.gpio (.count true)), .comm (.clr .task), .comm (.clr .zero),
    .comm (.clr (.write true)), .comm (.clr (.read true)), .comm (.clr .lockClients),
    .comm (.clr .push), .comm (.clr .broadcastEnd), .comm (.gpio .lockClients),
    .comm (.gpio .push), .comm (.gpio .broadcastEnd), .comm (.gpio .lockClients),
    .comm (.gpio (.list true)), .comm (.gpio (.call 0)), .comm (.gpio .lockPending),
    .comm (.gpio .add), .comm (.gpio .done), .comm (.gpio .lift), .comm (.gpio (.count true)),
    .comm (.gpio .lockClients)]

/-- The refid 1 is broadcast twice after the clear. -/
theorem refid_repeated_after_clear :
    ∃ d, (system Comm.unit4711).Reachable d ∧ d.refids = [1, 1] ∧
      ¬ d.refids.Pairwise (· < ·) :=
  ⟨_, System.reachable_of_exec clearedBeforeBroadcast rfl rfl, rfl, by decide⟩

end Device

end SgMuni
