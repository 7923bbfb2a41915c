import SgMuni.Log.Threads
import SgMuni.Transition.History

/-!
# The size of the log

A call of `log_write` adds its record to the file, or replaces the file by it when the
file has reached `log_max_size`. Between the calls nothing is left in the buffer, so that
`stat` sees all that has been printed.
-/

namespace SgMuni

open C Transition

/-- A call of `log_write`: what it printed, and the file that it left. -/
structure LogCall where
  record : List UInt8
  after : List UInt8

/-- The file that the last call has left. -/
def latestFile (file₀ : List UInt8) (log : List LogCall) : List UInt8 :=
  (log.getLast?.map LogCall.after).getD file₀

@[simp] theorem latestFile_nil (file₀ : List UInt8) : latestFile file₀ [] = file₀ := rfl

@[simp] theorem latestFile_concat (file₀ : List UInt8) (log : List LogCall) (c : LogCall) :
    latestFile file₀ (log ++ [c]) = c.after := by
  simp [latestFile]

/-- The call has added its record to the file, or has replaced a file that had reached the
size, and the file is bounded. -/
def KeepsNewest (maxSize L : Nat) (file₀ : List UInt8) (before : List LogCall) (c : LogCall) :
    Prop :=
  let old := latestFile file₀ before
  (old.length < maxSize ∧ c.after = old ++ c.record ∨ maxSize ≤ old.length ∧ c.after = c.record) ∧
    c.after.length ≤ maxSize - 1 + L

/-- What is left of the file when the record is printed. -/
def rotated (maxSize : Nat) (old : List UInt8) : List UInt8 :=
  if maxSize ≤ old.length then [] else old

/-- All of the content is in the file, and the next write goes to its end. -/
def Whole (file : List UInt8) (fp : LogFp) (content : List UInt8) : Prop :=
  ∃ st, fp = .opened st ∧ st.buffer = [] ∧ st.AtEnd file ∧ file = content

/-- The content is in the file and the buffer. -/
def Printed (file : List UInt8) (fp : LogFp) (content : List UInt8) : Prop :=
  ∃ st, fp = .opened st ∧ st.AtEnd file ∧ file ++ st.buffer = content

/-- What a thread at the position has done to the file that the last call left. -/
def LogStage (maxSize L : Nat) (old file : List UInt8) (fp : LogFp) : LogPosition → Prop
  | .idle | .tested _ => True
  | .locked _ => Whole file fp old
  | .closing _ => Whole file fp old ∧ maxSize ≤ old.length
  | .reopening _ => maxSize ≤ old.length
  | .rotated _ => Whole file fp (rotated maxSize old)
  | .header e timebuf =>
      Printed file fp (rotated maxSize old) ∧ (e.record timebuf).length ≤ L
  | .message e timebuf =>
      Printed file fp (rotated maxSize old ++ e.header timebuf) ∧ (e.record timebuf).length ≤ L
  | .newline e timebuf =>
      Printed file fp (rotated maxSize old ++ (e.header timebuf ++ e.message)) ∧
        (e.record timebuf).length ≤ L
  | .flushing e timebuf =>
      Printed file fp (rotated maxSize old ++ e.record timebuf) ∧ (e.record timebuf).length ≤ L
  | .unlocking e timebuf =>
      Whole file fp (rotated maxSize old ++ e.record timebuf) ∧ (e.record timebuf).length ≤ L
  | .closeLocked | .closeStream | .clearing | .closeUnlocking | .destroying => False

section Streams

variable {maxSize L : Nat} {old old' file file' content text : List UInt8} {fp fp' : LogFp}
  {st : Stream} {p : LogPosition}

theorem Whole.printed (h : Whole file fp content) : Printed file fp content := by
  obtain ⟨st, hst, hbuffer, hend, rfl⟩ := h
  exact ⟨st, hst, hend, by rw [hbuffer, List.append_nil]⟩

/-- A thread outside of the mutex does not rely on the file. -/
theorem LogStage.outside (h : LogStage maxSize L old file fp p) (hp : p.inside = false) :
    LogStage maxSize L old' file' fp' p := by
  cases p with
  | idle => trivial
  | tested e => trivial
  | destroying => exact h.elim
  | _ => cases hp

theorem Printed.print (h : Printed file (.opened st) content) {w : Written}
    (hw : text.length ≤ w.taken) :
    Printed (st.print file text w).2 (.opened (st.print file text w).1) (content ++ text) := by
  obtain ⟨st, ⟨⟩, hend, rfl⟩ := h
  obtain ⟨hend', hcontent⟩ := Stream.print_spec hend hw
  exact ⟨_, rfl, hend', hcontent⟩

theorem Printed.flush (h : Printed file (.opened st) content) {n : Nat}
    (hn : st.buffer.length ≤ n) :
    Whole (st.commit file n).2 (.opened (st.commit file n).1) content := by
  obtain ⟨st, ⟨⟩, hend, rfl⟩ := h
  obtain ⟨hend', hbuffer, hcontent⟩ := Stream.flush_spec hend hn
  exact ⟨_, rfl, hbuffer, hend', hcontent⟩

/-- The next print of a call. -/
theorem LogStage.print (h : LogStage maxSize L old file (.opened st) p) {p' : LogPosition}
    (hprints : p.prints = some (text, p')) {w : Written} (hw : text.length ≤ w.taken) :
    LogStage maxSize L old (st.print file text w).2 (.opened (st.print file text w).1) p' := by
  cases p with
  | header e timebuf =>
      cases hprints
      exact ⟨h.1.print hw, h.2⟩
  | message e timebuf =>
      cases hprints
      have hprinted := h.1.print hw
      rw [List.append_assoc] at hprinted
      exact ⟨hprinted, h.2⟩
  | newline e timebuf =>
      cases hprints
      have hprinted := h.1.print hw
      rw [List.append_assoc] at hprinted
      exact ⟨hprinted, h.2⟩
  | _ => cases hprints

end Streams

namespace Logger

variable {T : Type*} {maxSize L : Nat} {s s' : Logger T} {t u : T} {a : LogAction}
  {file₀ : List UInt8} {log : List LogCall}

/-- A call of `log_write` ends when it gives the mutex back. -/
def report (s : Logger T) : T × LogAction → List LogCall
  | (t, .unlock) =>
      match s.pos t with
      | .unlocking e timebuf => [{ record := e.record timebuf, after := s.file }]
      | _ => []
  | _ => []

theorem report_eq_nil (h : a ≠ .unlock) : s.report (t, a) = [] := by
  cases a with
  | unlock => exact absurd rfl h
  | _ => rfl

/-- The calls of the library succeed, records have at most `L` bytes and nobody closes
the log. -/
def Succeeds (L : Nat) (s : Logger T) : T × LogAction → Prop
  | (_, .stat succeeds) => succeeds = true
  | (_, .fopen succeeds) => succeeds = true
  | (t, .time timebuf) => ∀ e, s.pos t = .rotated e → (e.record timebuf).length ≤ L
  | (t, .print w) => ∀ text p, (s.pos t).prints = some (text, p) → text.length ≤ w.taken
  | (_, .fflush flushed) => ∀ st, s.logFp = .opened st → st.buffer.length ≤ flushed
  | (_, .logClose) => False
  | _ => True

/-- Every thread has done to the file what its position says, and the file is whole while
the mutex is free. -/
structure Kept (maxSize L : Nat) (file₀ : List UInt8) (s : Logger T) (log : List LogCall) :
    Prop where
  exclusive : s.Exclusive
  calls : System.EachEvent (KeepsNewest maxSize L file₀) log
  free : s.logMutex = none → Whole s.file s.logFp (latestFile file₀ log)
  stage : ∀ t, LogStage maxSize L (latestFile file₀ log) s.file s.logFp (s.pos t)

/-- The record of a call that ends, on the file that the call before it has left. -/
theorem keepsNewest_of_unlocking {e : Entry} {timebuf : List UInt8}
    (h : LogStage maxSize L (latestFile file₀ log) s.file s.logFp (.unlocking e timebuf)) :
    KeepsNewest maxSize L file₀ log { record := e.record timebuf, after := s.file } := by
  obtain ⟨⟨st, -, -, -, hfile⟩, hlen⟩ := h
  unfold KeepsNewest
  rw [hfile]
  by_cases hlarge : maxSize ≤ (latestFile file₀ log).length
  · have hrotated : rotated maxSize (latestFile file₀ log) = [] := if_pos hlarge
    rw [hrotated, List.nil_append]
    exact ⟨.inr ⟨hlarge, rfl⟩, Nat.le_add_left_of_le hlen⟩
  · have hrotated : rotated maxSize (latestFile file₀ log) = latestFile file₀ log := if_neg hlarge
    rw [hrotated]
    refine ⟨.inl ⟨not_le.mp hlarge, rfl⟩, ?_⟩
    rw [List.length_append]
    omega

variable [DecidableEq T]

/-- A move inside of the mutex, which only one thread makes. -/
theorem Kept.inside (h : Kept maxSize L file₀ s log) (hmove : Move maxSize s t a s')
    (hpos : (s.pos t).inside = true) (hmutex : s'.logMutex = s.logMutex)
    (hstage : LogStage maxSize L (latestFile file₀ log) s'.file s'.logFp (s'.pos t)) :
    Kept maxSize L file₀ s' log := by
  constructor
  case exclusive => exact h.exclusive.move hmove
  case calls => exact h.calls
  case free =>
    intro hfree
    have hheld : s.logMutex = some t := (h.exclusive t).mp hpos
    rw [hmutex, hheld] at hfree
    cases hfree
  case stage =>
    intro u
    by_cases hu : u = t
    · rw [hu]
      exact hstage
    · rw [hmove.others hu]
      exact (h.stage u).outside (h.exclusive.outside hpos hu)

/-- A move outside of the mutex, or one that takes it. -/
theorem Kept.outside (h : Kept maxSize L file₀ s log) (hmove : Move maxSize s t a s')
    (hfile : s'.file = s.file) (hfp : s'.logFp = s.logFp)
    (hmutex : s'.logMutex = none → s.logMutex = none)
    (hstage : LogStage maxSize L (latestFile file₀ log) s.file s.logFp (s'.pos t)) :
    Kept maxSize L file₀ s' log := by
  constructor
  case exclusive => exact h.exclusive.move hmove
  case calls => exact h.calls
  case free =>
    intro hfree
    rw [hfile, hfp]
    exact h.free (hmutex hfree)
  case stage =>
    intro u
    rw [hfile, hfp]
    by_cases hu : u = t
    · rw [hu]
      exact hstage
    · rw [hmove.others hu]
      exact h.stage u

theorem Kept.unlock (h : Kept maxSize L file₀ s log) {e : Entry} {timebuf : List UInt8}
    (hpos : s.pos t = .unlocking e timebuf)
    (hmove : Move maxSize s t .unlock ({ s with logMutex := none }.goto t .idle)) :
    Kept maxSize L file₀ ({ s with logMutex := none }.goto t .idle)
      (log ++ [{ record := e.record timebuf, after := s.file }]) := by
  have hstage := h.stage t
  rw [hpos] at hstage
  have hinside : (s.pos t).inside = true := by
    rw [hpos]
    rfl
  constructor
  case exclusive => exact h.exclusive.move hmove
  case calls => exact h.calls.snoc (keepsNewest_of_unlocking hstage)
  case free =>
    intro _
    rw [latestFile_concat]
    obtain ⟨⟨st, hst, hbuffer, hend, -⟩, -⟩ := hstage
    exact ⟨st, hst, hbuffer, hend, rfl⟩
  case stage =>
    intro u
    by_cases hu : u = t
    · rw [hu, goto_pos]
      trivial
    · rw [hmove.others hu]
      exact (h.stage u).outside (h.exclusive.outside hinside hu)

/-- A move that does not end a call. -/
theorem Kept.stay (h : Kept maxSize L file₀ s log) (hmove : Move maxSize s t a s')
    (hsucceeds : s.Succeeds L (t, a)) (hstays : a ≠ .unlock) : Kept maxSize L file₀ s' log := by
  have hmove' := hmove
  have hstage := h.stage t
  cases hmove with
  | refuse pos null => exact h
  | enter pos found =>
      refine h.outside hmove' rfl rfl id ?_
      rw [goto_pos]
      trivial
  | lock pos free =>
      refine h.outside hmove' rfl rfl (fun hfree => by cases hfree) ?_
      rw [goto_pos]
      exact h.free free
  | fits pos small =>
      rw [pos] at hstage
      obtain ⟨st, hst, hbuffer, hend, hfile⟩ := hstage
      have hsmall := small hsucceeds
      rw [hfile] at hsmall
      have hrotated : rotated maxSize (latestFile file₀ log) = latestFile file₀ log :=
        if_neg (not_le.mpr hsmall)
      refine h.inside hmove' (by rw [pos]; rfl) rfl ?_
      rw [goto_pos]
      exact ⟨st, hst, hbuffer, hend, hfile.trans hrotated.symm⟩
  | exceeds pos large =>
      rw [pos] at hstage
      obtain ⟨st, -, -, -, hfile⟩ := id hstage
      refine h.inside hmove' (by rw [pos]; rfl) rfl ?_
      rw [goto_pos]
      exact ⟨hstage, hfile ▸ large⟩
  | close pos stream =>
      rw [pos] at hstage
      refine h.inside hmove' (by rw [pos]; rfl) rfl ?_
      rw [goto_pos]
      exact hstage.2
  | reopen pos =>
      rw [pos] at hstage
      have hrotated : rotated maxSize (latestFile file₀ log) = [] := if_pos hstage
      refine h.inside hmove' (by rw [pos]; rfl) rfl ?_
      rw [goto_pos]
      exact ⟨_, rfl, rfl, Stream.atEnd_write, hrotated.symm⟩
  | lose pos => cases hsucceeds
  | @time e timebuf pos =>
      rw [pos] at hstage
      refine h.inside hmove' (by rw [pos]; rfl) rfl ?_
      rw [goto_pos]
      exact ⟨Whole.printed hstage, hsucceeds e pos⟩
  | @print text p w st pos stream =>
      rw [stream] at hstage
      refine h.inside hmove' (inside_of_prints pos) rfl ?_
      rw [goto_pos]
      exact hstage.print pos (hsucceeds text p pos)
  | @flush e timebuf flushed st pos stream =>
      rw [pos, stream] at hstage
      refine h.inside hmove' (by rw [pos]; rfl) rfl ?_
      rw [goto_pos]
      exact ⟨hstage.1.flush (hsucceeds st stream), hstage.2⟩
  | unlock pos => exact absurd rfl hstays
  | closeLock pos free => exact hsucceeds.elim
  | _ pos =>
      -- nobody is in `log_close`
      rw [pos] at hstage
      exact hstage.elim

theorem Kept.move (h : Kept maxSize L file₀ s log) (hmove : Move maxSize s t a s')
    (hsucceeds : s.Succeeds L (t, a)) : Kept maxSize L file₀ s' (log ++ s.report (t, a)) := by
  by_cases hends : a = .unlock
  · subst hends
    have hmove' := hmove
    cases hmove with
    | @unlock e timebuf pos =>
        have hreport : s.report (t, .unlock) =
            [{ record := e.record timebuf, after := s.file }] := by
          simp only [report, pos]
        rw [hreport]
        exact h.unlock pos hmove'
    | closeUnlock pos =>
        -- nobody is in `log_close`
        have hstage := h.stage t
        rw [pos] at hstage
        exact hstage.elim
  · rw [report_eq_nil hends, List.append_nil]
    exact h.stay hmove hsucceeds hends

/-- In a run from a log file of any size, every call leaves the old file with its record, or
its record alone exactly when the old file had reached the size; and this is what the file
holds between the calls. -/
theorem log_newest_kept {p₀ p : Logger T × List LogCall}
    (hinit : ((system T maxSize).recording report).init p₀)
    (hrun : ((system T maxSize).recording report).LeadsUnder (System.recorded (Succeeds L)) p₀ p) :
    System.EachEvent (KeepsNewest maxSize L p₀.1.file) p.2 ∧
      (p.1.logMutex = none → p.1.file = latestFile p₀.1.file p.2) := by
  have hkept : Kept maxSize L p₀.1.file p.1 p.2 := by
    apply hrun.invariant (P := fun p => Kept maxSize L p₀.1.file p.1 p.2)
    · obtain ⟨⟨file, hstart⟩, hlog⟩ := hinit
      obtain ⟨hstate, -⟩ := Prod.mk.inj hstart
      rw [hlog, ← hstate]
      refine ⟨fun t => iff_of_false nofun nofun, System.eachEvent_nil, fun _ => ?_,
        fun _ => trivial⟩
      exact ⟨_, rfl, rfl, Stream.atEnd_append, rfl⟩
    · rintro p ⟨t, a⟩ q hsucceeds hn hp
      obtain ⟨hstep, hlog⟩ := System.recording_next hn
      rw [hlog]
      exact hp.move (next_move hstep) hsucceeds
  refine ⟨hkept.calls, fun hfree => ?_⟩
  obtain ⟨st, -, -, -, hfile⟩ := hkept.free hfree
  exact hfile

/-- The program with a log file of forty bytes. -/
def fortyBytes : Logger Nat := (logInit (statics (List.replicate 40 65)) true).1

/-- A successful print that writes three bytes early. -/
def early : LogAction := .print { taken := 64, flushed := 3 }

/-- A call that replaces the file, while another thread waits for the mutex. -/
def replacing : List (Nat × LogAction) :=
  [(0, logInfo [97]), (1, logError [98]), (0, .lock), (0, .stat true), (0, .fclose 0),
    (0, .fopen true)]

def printing : List (Nat × LogAction) :=
  [(0, .time [49]), (0, early), (0, early), (0, early), (0, .fflush 64), (0, .unlock)]

theorem replacing_succeeds :
    ((system Nat 30).recording report).StepsMeet (System.recorded (Succeeds 20))
      (fortyBytes, []) (replacing ++ printing) := by
  apply System.stepsMeet_append
  · apply System.stepsMeet_of_forall
    simp [replacing, System.recorded, Succeeds, logInfo, logError]
  · intro p hp
    cases hp
    refine ⟨fun e he => by cases he; decide, fun p hp => ?_⟩
    cases hp
    refine ⟨fun text q hq => by cases hq; decide, fun p hp => ?_⟩
    cases hp
    refine ⟨fun text q hq => by cases hq; decide, fun p hp => ?_⟩
    cases hp
    refine ⟨fun text q hq => by cases hq; decide, fun p hp => ?_⟩
    cases hp
    refine ⟨fun st hst => by cases hst; decide, fun p hp => ?_⟩
    cases hp
    exact ⟨trivial, fun _ _ => trivial⟩

theorem log_newest_kept_replacing :
    ∃ p, ((system Nat 30).recording report).exec (fortyBytes, []) (replacing ++ printing) =
        some p ∧
      System.EachEvent (KeepsNewest 30 20 (List.replicate 40 65)) p.2 ∧
      p.1.file = [91, 49, 93, 32, 91, 73, 78, 70, 79, 93, 32, 97, 10] := by
  obtain ⟨p, hrun⟩ : ∃ p, ((system Nat 30).recording report).exec (fortyBytes, [])
      (replacing ++ printing) = some p := ⟨_, rfl⟩
  obtain ⟨hcalls, hfile⟩ := log_newest_kept ⟨⟨List.replicate 40 65, rfl⟩, rfl⟩
    (System.leadsUnder_of_stepsMeet _ replacing_succeeds hrun)
  refine ⟨p, hrun, hcalls, ?_⟩
  cases hrun
  exact hfile rfl

end Logger

end SgMuni
