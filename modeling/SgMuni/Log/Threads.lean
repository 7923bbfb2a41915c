import SgMuni.C.Stdio
import SgMuni.Request.Parser
import SgMuni.Transition.Mutex
import SgMuni.Transition.System
import Mathlib.Logic.Function.Basic

/-!
# Threads that write the log

`log_write` and `log_close` run by any number of threads, at the granularity of one
call of the C library.

## Implementation notes

`log_fp` is the only pointer to a stream, so that the stream is kept with the pointer.
A call with a pointer to no open stream, and a lock of the destroyed mutex, have no
result. The outcome of a call of the library is part of the label of the step.
-/

namespace SgMuni

open C

inductive LogLevel
  | debug
  | info
  | error
deriving DecidableEq

/-- `level_str`. -/
def LogLevel.str : LogLevel → List UInt8
  | .debug => ascii ['D', 'E', 'B', 'U', 'G']
  | .info => ascii ['I', 'N', 'F', 'O']
  | .error => ascii ['E', 'R', 'R', 'O', 'R']

/-- The arguments of `log_write`, with the text that the format and `args` denote. -/
structure Entry where
  level : LogLevel
  message : List UInt8

/-- What the first `fprintf` prints. -/
def Entry.header (e : Entry) (timebuf : List UInt8) : List UInt8 :=
  ascii ['['] ++ timebuf ++ ascii [']', ' ', '['] ++ e.level.str ++ ascii [']', ' ']

/-- What a call of `log_write` prints. -/
def Entry.record (e : Entry) (timebuf : List UInt8) : List UInt8 :=
  e.header timebuf ++ e.message ++ [10]

/-- Where a thread is in `log_write` or `log_close`, before its next call of the
library. -/
inductive LogPosition
  | idle
  | tested (e : Entry)
  | locked (e : Entry)
  | closing (e : Entry)
  | reopening (e : Entry)
  | rotated (e : Entry)
  | header (e : Entry) (timebuf : List UInt8)
  | message (e : Entry) (timebuf : List UInt8)
  | newline (e : Entry) (timebuf : List UInt8)
  | flushing (e : Entry) (timebuf : List UInt8)
  | unlocking (e : Entry) (timebuf : List UInt8)
  | closeLocked
  | closeStream
  | clearing
  | closeUnlocking
  | destroying

/-- The values of `log_fp`: `NULL`, a pointer to a stream that has been closed, and an
open stream. -/
inductive LogFp
  | null
  | closed
  | opened (st : Stream)

/-- The test `!log_fp`. -/
def LogFp.isNull : LogFp → Bool
  | .null => true
  | _ => false

/-- The log file, the static variables and the threads. -/
structure Logger (T : Type*) where
  file : List UInt8
  logFp : LogFp
  logMutex : Option T
  destroyed : Bool
  pos : T → LogPosition

/-- One call of the library, or one access to `log_fp`, with its outcome. -/
inductive LogAction
  | logWrite (e : Entry)
  | lock
  | stat (succeeds : Bool)
  | fclose (flushed : Nat)
  | fopen (succeeds : Bool)
  | time (timebuf : List UInt8)
  | print (w : Written)
  | fflush (flushed : Nat)
  | unlock
  | logClose
  | test
  | clear
  | destroy

def logDebug (message : List UInt8) : LogAction := .logWrite { level := .debug, message }

def logInfo (message : List UInt8) : LogAction := .logWrite { level := .info, message }

def logError (message : List UInt8) : LogAction := .logWrite { level := .error, message }

namespace Logger

variable {T : Type*}

/-- The static variables when the program starts, with the file that is there. -/
def statics (file : List UInt8) : Logger T where
  file := file
  logFp := .null
  logMutex := none
  destroyed := false
  pos _ := .idle

/-- `log_init` with a file name, and whether `fopen` succeeds. -/
def logInit (s : Logger T) (fopen : Bool) : Logger T × Int :=
  if fopen then ({ s with logFp := .opened (.fresh .append) }, 0)
  else ({ s with logFp := .null }, -1)

section Steps

variable [DecidableEq T]

def goto (s : Logger T) (t : T) (p : LogPosition) : Logger T :=
  { s with pos := Function.update s.pos t p }

/-- A call with `log_fp`. -/
def onStream (s : Logger T) (call : Stream → Logger T) : Option (Logger T) :=
  match s.logFp with
  | .opened st => some (call st)
  | _ => none

def print (s : Logger T) (text : List UInt8) (w : Written) : Option (Logger T) :=
  s.onStream fun st =>
    { s with
      file := (st.print s.file text w).2
      logFp := .opened (st.print s.file text w).1 }

def fflush (s : Logger T) (flushed : Nat) : Option (Logger T) :=
  s.onStream fun st =>
    { s with
      file := (st.commit s.file flushed).2
      logFp := .opened (st.commit s.file flushed).1 }

def fclose (s : Logger T) (flushed : Nat) : Option (Logger T) :=
  s.onStream fun st =>
    { s with
      file := (st.commit s.file flushed).2
      logFp := .closed }

/-- `fopen` with the mode `"w"`, which empties the file. -/
def reopen (s : Logger T) (succeeds : Bool) : Logger T :=
  if succeeds then
    { s with
      file := []
      logFp := .opened (.fresh .write) }
  else { s with logFp := .null }

def lock (s : Logger T) (t : T) : Option (Logger T) :=
  if s.logMutex = none ∧ s.destroyed = false then some { s with logMutex := some t } else none

def next (maxSize : Nat) (s : Logger T) : T × LogAction → Option (Logger T)
  | (t, a) =>
    match s.pos t, a with
    | .idle, .logWrite e => some (if s.logFp.isNull then s else s.goto t (.tested e))
    | .tested e, .lock => (s.lock t).map (·.goto t (.locked e))
    | .locked e, .stat succeeds =>
        some (s.goto t
          (if succeeds && decide (maxSize ≤ s.file.length) then .closing e else .rotated e))
    | .closing e, .fclose flushed => (s.fclose flushed).map (·.goto t (.reopening e))
    | .reopening e, .fopen succeeds => some ((s.reopen succeeds).goto t (.rotated e))
    | .rotated e, .time timebuf => some (s.goto t (.header e timebuf))
    | .header e timebuf, .print w =>
        (s.print (e.header timebuf) w).map (·.goto t (.message e timebuf))
    | .message e timebuf, .print w => (s.print e.message w).map (·.goto t (.newline e timebuf))
    | .newline e timebuf, .print w => (s.print [10] w).map (·.goto t (.flushing e timebuf))
    | .flushing e timebuf, .fflush flushed =>
        (s.fflush flushed).map (·.goto t (.unlocking e timebuf))
    | .unlocking _ _, .unlock => some ({ s with logMutex := none }.goto t .idle)
    | .idle, .logClose => (s.lock t).map (·.goto t .closeLocked)
    | .closeLocked, .test =>
        some (s.goto t (if s.logFp.isNull then .closeUnlocking else .closeStream))
    | .closeStream, .fclose flushed => (s.fclose flushed).map (·.goto t .clearing)
    | .clearing, .clear => some ({ s with logFp := .null }.goto t .closeUnlocking)
    | .closeUnlocking, .unlock => some ({ s with logMutex := none }.goto t .destroying)
    | .destroying, .destroy => some ({ s with destroyed := true }.goto t .idle)
    | _, _ => none

/-- The program behind a `log_init` that succeeds. -/
def system (T : Type*) [DecidableEq T] (maxSize : Nat) :
    Transition.System (Logger T) (T × LogAction) where
  init s := ∃ file, logInit (statics file) true = (s, 0)
  next := next maxSize

end Steps

end Logger

/-- What a thread prints next, and where it goes on behind that. -/
def LogPosition.prints : LogPosition → Option (List UInt8 × LogPosition)
  | .header e timebuf => some (e.header timebuf, .message e timebuf)
  | .message e timebuf => some (e.message, .newline e timebuf)
  | .newline e timebuf => some ([10], .flushing e timebuf)
  | _ => none

/-- Between taking the mutex and giving it back. -/
def LogPosition.inside : LogPosition → Bool
  | .idle | .tested _ | .destroying => false
  | _ => true

theorem inside_of_prints {p p' : LogPosition} {text : List UInt8}
    (h : p.prints = some (text, p')) : p.inside = true := by
  cases p <;> first | rfl | cases h

namespace Logger

variable {T : Type*} {s s' : Logger T}

theorem isNull_iff {fp : LogFp} : fp.isNull = true ↔ fp = .null := by
  cases fp <;> simp [LogFp.isNull]

theorem lock_eq_some {t : T} (h : s.lock t = some s') :
    s.logMutex = none ∧ s' = { s with logMutex := some t } := by
  unfold lock at h
  split at h
  · next hfree =>
      cases h
      exact ⟨hfree.1, rfl⟩
  · cases h

theorem onStream_eq_some {call : Stream → Logger T} (h : s.onStream call = some s') :
    ∃ st, s.logFp = .opened st ∧ s' = call st := by
  unfold onStream at h
  split at h
  · next st hst =>
      cases h
      exact ⟨st, hst, rfl⟩
  · cases h

section Moves

variable [DecidableEq T] {maxSize : Nat} {t u : T} {a : LogAction}

@[simp] theorem goto_pos (s : Logger T) (t : T) (p : LogPosition) : (s.goto t p).pos t = p :=
  Function.update_self ..

theorem goto_pos_of_ne (h : u ≠ t) (p : LogPosition) : (s.goto t p).pos u = s.pos u :=
  Function.update_of_ne h ..

/-- The moves of a thread. -/
inductive Move (maxSize : Nat) (s : Logger T) (t : T) : LogAction → Logger T → Prop
  | refuse {e : Entry} (pos : s.pos t = .idle) (null : s.logFp = .null) :
      Move maxSize s t (.logWrite e) s
  | enter {e : Entry} (pos : s.pos t = .idle) (found : s.logFp ≠ .null) :
      Move maxSize s t (.logWrite e) (s.goto t (.tested e))
  | lock {e : Entry} (pos : s.pos t = .tested e) (free : s.logMutex = none) :
      Move maxSize s t .lock ({ s with logMutex := some t }.goto t (.locked e))
  | fits {e : Entry} {succeeds : Bool} (pos : s.pos t = .locked e)
      (small : succeeds = true → s.file.length < maxSize) :
      Move maxSize s t (.stat succeeds) (s.goto t (.rotated e))
  | exceeds {e : Entry} (pos : s.pos t = .locked e) (large : maxSize ≤ s.file.length) :
      Move maxSize s t (.stat true) (s.goto t (.closing e))
  | close {e : Entry} {flushed : Nat} {st : Stream} (pos : s.pos t = .closing e)
      (stream : s.logFp = .opened st) :
      Move maxSize s t (.fclose flushed)
        ({ s with
          file := (st.commit s.file flushed).2
          logFp := .closed }.goto t (.reopening e))
  | reopen {e : Entry} (pos : s.pos t = .reopening e) :
      Move maxSize s t (.fopen true)
        ({ s with
          file := []
          logFp := .opened (.fresh .write) }.goto t (.rotated e))
  | lose {e : Entry} (pos : s.pos t = .reopening e) :
      Move maxSize s t (.fopen false) ({ s with logFp := .null }.goto t (.rotated e))
  | time {e : Entry} {timebuf : List UInt8} (pos : s.pos t = .rotated e) :
      Move maxSize s t (.time timebuf) (s.goto t (.header e timebuf))
  | print {text : List UInt8} {p : LogPosition} {w : Written} {st : Stream}
      (pos : (s.pos t).prints = some (text, p)) (stream : s.logFp = .opened st) :
      Move maxSize s t (.print w)
        ({ s with
          file := (st.print s.file text w).2
          logFp := .opened (st.print s.file text w).1 }.goto t p)
  | flush {e : Entry} {timebuf : List UInt8} {flushed : Nat} {st : Stream}
      (pos : s.pos t = .flushing e timebuf) (stream : s.logFp = .opened st) :
      Move maxSize s t (.fflush flushed)
        ({ s with
          file := (st.commit s.file flushed).2
          logFp := .opened (st.commit s.file flushed).1 }.goto t (.unlocking e timebuf))
  | unlock {e : Entry} {timebuf : List UInt8} (pos : s.pos t = .unlocking e timebuf) :
      Move maxSize s t .unlock ({ s with logMutex := none }.goto t .idle)
  | closeLock (pos : s.pos t = .idle) (free : s.logMutex = none) :
      Move maxSize s t .logClose ({ s with logMutex := some t }.goto t .closeLocked)
  | closeNull (pos : s.pos t = .closeLocked) (null : s.logFp = .null) :
      Move maxSize s t .test (s.goto t .closeUnlocking)
  | closeFound (pos : s.pos t = .closeLocked) (found : s.logFp ≠ .null) :
      Move maxSize s t .test (s.goto t .closeStream)
  | closeFile {flushed : Nat} {st : Stream} (pos : s.pos t = .closeStream)
      (stream : s.logFp = .opened st) :
      Move maxSize s t (.fclose flushed)
        ({ s with
          file := (st.commit s.file flushed).2
          logFp := .closed }.goto t .clearing)
  | clear (pos : s.pos t = .clearing) :
      Move maxSize s t .clear ({ s with logFp := .null }.goto t .closeUnlocking)
  | closeUnlock (pos : s.pos t = .closeUnlocking) :
      Move maxSize s t .unlock ({ s with logMutex := none }.goto t .destroying)
  | destroy (pos : s.pos t = .destroying) :
      Move maxSize s t .destroy ({ s with destroyed := true }.goto t .idle)

theorem next_move (h : s.next maxSize (t, a) = some s') : Move maxSize s t a s' := by
  simp only [next] at h
  split at h
  case h_1 e hpos =>
      cases h
      split
      · next hnull => exact .refuse hpos (isNull_iff.mp hnull)
      · next hfound => exact .enter hpos (mt isNull_iff.mpr hfound)
  case h_2 e hpos =>
      obtain ⟨s₁, hs₁, rfl⟩ := Option.map_eq_some_iff.mp h
      obtain ⟨hfree, rfl⟩ := lock_eq_some hs₁
      exact .lock hpos hfree
  case h_3 e succeeds hpos =>
      cases h
      split
      · next hlarge =>
          rw [Bool.and_eq_true, decide_eq_true_eq] at hlarge
          obtain ⟨rfl, hlarge⟩ := hlarge
          exact .exceeds hpos hlarge
      · next hsmall =>
          refine .fits hpos fun hstat => ?_
          simpa [hstat] using hsmall
  case h_4 e flushed hpos =>
      obtain ⟨s₁, hs₁, rfl⟩ := Option.map_eq_some_iff.mp h
      obtain ⟨st, hst, rfl⟩ := onStream_eq_some hs₁
      exact .close hpos hst
  case h_5 e succeeds hpos =>
      cases h
      cases succeeds with
      | true => exact .reopen hpos
      | false => exact .lose hpos
  case h_6 e timebuf hpos =>
      cases h
      exact .time hpos
  case h_7 e timebuf w hpos =>
      obtain ⟨s₁, hs₁, rfl⟩ := Option.map_eq_some_iff.mp h
      obtain ⟨st, hst, rfl⟩ := onStream_eq_some hs₁
      exact .print (by rw [hpos]; rfl) hst
  case h_8 e timebuf w hpos =>
      obtain ⟨s₁, hs₁, rfl⟩ := Option.map_eq_some_iff.mp h
      obtain ⟨st, hst, rfl⟩ := onStream_eq_some hs₁
      exact .print (by rw [hpos]; rfl) hst
  case h_9 e timebuf w hpos =>
      obtain ⟨s₁, hs₁, rfl⟩ := Option.map_eq_some_iff.mp h
      obtain ⟨st, hst, rfl⟩ := onStream_eq_some hs₁
      exact .print (by rw [hpos]; rfl) hst
  case h_10 e timebuf flushed hpos =>
      obtain ⟨s₁, hs₁, rfl⟩ := Option.map_eq_some_iff.mp h
      obtain ⟨st, hst, rfl⟩ := onStream_eq_some hs₁
      exact .flush hpos hst
  case h_11 e timebuf hpos =>
      cases h
      exact .unlock hpos
  case h_12 hpos =>
      obtain ⟨s₁, hs₁, rfl⟩ := Option.map_eq_some_iff.mp h
      obtain ⟨hfree, rfl⟩ := lock_eq_some hs₁
      exact .closeLock hpos hfree
  case h_13 hpos =>
      cases h
      split
      · next hnull => exact .closeNull hpos (isNull_iff.mp hnull)
      · next hfound => exact .closeFound hpos (mt isNull_iff.mpr hfound)
  case h_14 flushed hpos =>
      obtain ⟨s₁, hs₁, rfl⟩ := Option.map_eq_some_iff.mp h
      obtain ⟨st, hst, rfl⟩ := onStream_eq_some hs₁
      exact .closeFile hpos hst
  case h_15 hpos =>
      cases h
      exact .clear hpos
  case h_16 hpos =>
      cases h
      exact .closeUnlock hpos
  case h_17 hpos =>
      cases h
      exact .destroy hpos
  case h_18 => cases h

theorem Move.others (h : Move maxSize s t a s') (hu : u ≠ t) : s'.pos u = s.pos u := by
  cases h with
  | refuse => rfl
  | _ => exact goto_pos_of_ne hu _

/-- The threads keep to the mutex. -/
theorem Move.mutexStep (h : Move maxSize s t a s') :
    Transition.MutexStep t s.logMutex s'.logMutex (s.pos t).inside (s'.pos t).inside := by
  cases h with
  | refuse => exact .keep rfl rfl
  | lock pos free => exact .take free rfl (by rw [goto_pos]; rfl)
  | closeLock pos free => exact .take free rfl (by rw [goto_pos]; rfl)
  | unlock pos => exact .leave (by rw [pos]; rfl) rfl (by rw [goto_pos]; rfl)
  | closeUnlock pos => exact .leave (by rw [pos]; rfl) rfl (by rw [goto_pos]; rfl)
  | print pos stream =>
      refine .keep rfl ?_
      rw [goto_pos]
      cases hpos : s.pos t <;> rw [hpos] at pos <;> cases pos <;> rfl
  | _ pos =>
      refine .keep rfl ?_
      rw [goto_pos, pos]
      rfl

/-- A thread between lock and unlock owns the mutex. -/
def Exclusive (s : Logger T) : Prop :=
  Transition.Guarded s.logMutex fun t => (s.pos t).inside

theorem Exclusive.move (h : s.Exclusive) (hmove : Move maxSize s t a s') : s'.Exclusive :=
  Transition.Guarded.step h hmove.mutexStep fun _ hu => congrArg _ (hmove.others hu)

end Moves

end Logger

end SgMuni
