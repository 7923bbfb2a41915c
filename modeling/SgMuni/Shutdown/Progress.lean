import SgMuni.Shutdown.Moves
import SgMuni.Tcp.Server
import Mathlib.Data.List.Infix

/-!
# The progress of a shutdown

Which threads have returned at each statement of `stop_sg_server`. The callers of
the server are joined before `send_loop` is told to stop, unless
`SgTcpServer_stop` is called by `handle_sigint`; `worker_loop` can return while
`io_loop` still has requests to push.
-/

namespace SgMuni

namespace Process

open Transition

/-- The thread's name in the model of the sending side. -/
def tid : Thread → Option Tid
  | .monitor => some (.caller 0)
  | .query => some (.caller 1)
  | .clr => some (.caller 2)
  | .ack => some (.caller 3)
  | .resend => some .ack
  | .io | .worker | .send => none

/-- The threads that a shutdown has still to join. -/
def joins : List StopStep → List Thread
  | [] => []
  | .join t :: todo => t :: joins todo
  | _ :: todo => joins todo

/-- `worker_loop` does not return over a full `recv_q` to which `io_loop` is
about to push, and afterwards `io_loop` reads when there is room only. The
shutdown is not begun by `handle_sigint`. -/
def Orderly (cfg : Config) (s : Process) : Action → Prop
  | .test .worker => s.stopped = true → ∀ m evs, s.server.io = .pushing m evs →
      s.server.recvQ.length < cfg.cap
  | .server (.io (.read _)) | .readEvent => s.loop .worker = .exited →
      s.server.recvQ.length < cfg.cap
  | .sigint => False
  | _ => True

/-- The progress of a shutdown through `stop_sg_server`. -/
structure ScriptInv (s : Process) : Prop where
  begun : s.todo = none → s.stopped = false ∧ s.joined = []
  suffix : ∀ todo, s.todo = some todo → todo ∈ stopSgServer.tails
  joins : ∀ todo, s.todo = some todo → s.joined ++ joins todo = joins stopSgServer
  stopped : ∀ todo, s.todo = some todo → .setStopped ∈ todo → s.stopped = false
  joined : ∀ t ∈ s.joined, s.loop t = .exited

/-- A thread outside of its body is in no call, and what the threads that have
returned leave behind. -/
structure ExitInv (cfg : Config) (s : Process) : Prop where
  rest : ∀ t, s.loop t ≠ .body → AtRest s.server t
  send : s.loop .send = .exited → s.stopped = true
  room : s.loop .worker = .exited → ∀ m evs, s.server.io = .pushing m evs →
    s.server.recvQ.length < cfg.cap

variable {cfg : Config} {s s' : Process}

theorem joins_cons (x : StopStep) (todo : List StopStep) :
    joins (x :: todo) = joins [x] ++ joins todo := by
  cases x <;> rfl

theorem perform_joined (s : Process) (x : StopStep) :
    (s.perform x).joined = s.joined ++ joins [x] := by
  cases x with
  | join t => rfl
  | _ => exact (List.append_nil s.joined).symm

theorem perform_stopped (s : Process) {x : StopStep} (hx : x ≠ .setStopped) :
    (s.perform x).stopped = s.stopped := by
  cases x with
  | setStopped => exact absurd rfl hx
  | _ => rfl

theorem nodup_stopSgServer : stopSgServer.Nodup := by decide

theorem nodup_joins_stopSgServer : (joins stopSgServer).Nodup := by decide

/-- `stop_sg_server` joins the callers before `SgTcpServer_free`. -/
theorem not_mem_joins_of_setStopped {todo : List StopStep} (h : todo ∈ stopSgServer.tails)
    (hset : .setStopped ∉ todo) {t : Thread} (ht : (tid t).isSome = true) : t ∉ joins todo := by
  have hall : ∀ todo ∈ stopSgServer.tails, .setStopped ∉ todo →
      ∀ t ∈ joins todo, (tid t).isSome = false := by decide
  intro hmem
  simp [hall todo h hset t hmem] at ht

theorem mem_joins_stopSgServer (t : Thread) : t ∈ joins stopSgServer := by
  cases t <;> decide

/-- When `send_loop` has been told to stop, the callers have returned. -/
theorem ScriptInv.exited_of_stopped (h : ScriptInv s) (hstopped : s.stopped = true) {t : Thread}
    (ht : (tid t).isSome = true) : s.loop t = .exited := by
  cases htodo : s.todo with
  | none => simp [(h.begun htodo).1] at hstopped
  | some todo =>
      have hset : .setStopped ∉ todo := fun hmem => by simp [h.stopped todo htodo hmem] at hstopped
      have hnot := not_mem_joins_of_setStopped (h.suffix todo htodo) hset ht
      have hmem : t ∈ s.joined ++ Process.joins todo := by
        rw [h.joins todo htodo]
        exact mem_joins_stopSgServer t
      exact h.joined t ((List.mem_append.mp hmem).resolve_right hnot)

/-- A loop that has returned stays so. -/
theorem Move.exited {a : Action} (h : Move cfg s a s') {t : Thread} (ht : s.loop t = .exited) :
    s'.loop t = .exited := by
  have hother : ∀ {u : Thread} (l : Loop), s.loop u ≠ .exited →
      Function.update s.loop u l t = .exited := by
    intro u l hu
    have htu : t ≠ u := fun heq => hu (heq ▸ ht)
    rw [Function.update_of_ne htu, ht]
  cases h with
  | test loop => exact hother _ (by simp [loop])
  | pass loop rest => exact hother _ (by simp [loop])
  | serve actor loop step => exact hother _ (by simp [loop])
  | breakBatch loop stopped io => exact hother _ (by simp [loop])
  | stop head ready => exact (congrFun (perform_loop s _) t).trans ht
  | _ => exact ht

theorem scriptInv_start (table : Fd → Option Owner) (monitor : Loop) :
    ScriptInv (start table monitor) := by
  constructor <;> simp [start]

theorem ScriptInv.next {a : Action} (hinv : ScriptInv s) (hsigint : a ≠ .sigint)
    (h : Move cfg s a s') : ScriptInv s' := by
  have hjoined : s'.joined = s.joined → ∀ t ∈ s'.joined, s'.loop t = .exited :=
    fun heq t ht => h.exited (hinv.joined t (heq ▸ ht))
  cases h with
  | sigint todo => exact absurd rfl hsigint
  | stopSgServer todo =>
      obtain ⟨hstopped, hnil⟩ := hinv.begun todo
      exact
        { begun := nofun
          suffix := by
            rintro _ ⟨⟩
            exact (List.mem_tails _ _).mpr List.suffix_rfl
          joins := by
            rintro _ ⟨⟩
            simp [hnil]
          stopped := fun _ _ _ => hstopped
          joined := hjoined rfl }
  | @stop x todo head ready =>
      have hsuffix := (List.mem_tails _ _).mp (hinv.suffix _ head)
      refine
        { begun := nofun
          suffix := ?_
          joins := ?_
          stopped := ?_
          joined := ?_ }
      · rintro _ ⟨⟩
        exact (List.mem_tails _ _).mpr ((List.suffix_cons x todo).trans hsuffix)
      · rintro _ ⟨⟩
        have hjoins := hinv.joins _ head
        rw [joins_cons, ← List.append_assoc] at hjoins
        exact (congrArg (· ++ Process.joins todo) (perform_joined s x)).trans hjoins
      · rintro _ ⟨⟩ hmem
        have hx : x ≠ .setStopped := by
          rintro rfl
          exact (List.nodup_cons.mp (hsuffix.sublist.nodup nodup_stopSgServer)).1 hmem
        exact (perform_stopped s hx).trans (hinv.stopped _ head (List.mem_cons_of_mem x hmem))
      · intro t ht
        rw [perform_joined] at ht
        refine (congrFun (perform_loop s x) t).trans ?_
        rcases List.mem_append.mp ht with ht | ht
        · exact hinv.joined t ht
        · cases x with
          | join u => exact List.mem_singleton.mp ht ▸ ready
          | _ => cases ht
  | _ => exact ⟨hinv.begun, hinv.suffix, hinv.joins, hinv.stopped, hjoined rfl⟩

theorem exitInv_start (table : Fd → Option Owner) {monitor : Loop} :
    ExitInv cfg (start table monitor) where
  rest t _ := by cases t <;> trivial
  send h := by simp [start] at h
  room h := by simp [start] at h

theorem loopAfter_ne_exited (server : Server) (t : Thread) : loopAfter server t ≠ .exited := by
  cases t with
  | monitor | query | clr | ack => simp [loopAfter]
  | _ =>
      simp only [loopAfter]
      split <;> simp

theorem atRest_of_loopAfter {server : Server} {t : Thread} (h : loopAfter server t ≠ .body) :
    AtRest server t := by
  by_contra hrest
  cases t <;> simp [loopAfter, hrest] at h

/-- A thread returns at the test of its loop only. -/
theorem Move.exited_or {a : Action} (h : Move cfg s a s') {t : Thread} (ht : s'.loop t = .exited) :
    s.loop t = .exited ∨ a = .test t ∧ s.stopFlag t = true := by
  have hother : ∀ (u : Thread) (l : Loop), l ≠ .exited → Function.update s.loop u l t = .exited →
      s.loop t = .exited := by
    intro u l hl hupdate
    by_cases htu : t = u
    · subst htu
      exact absurd (Function.update_self t l s.loop ▸ hupdate) hl
    · rwa [Function.update_of_ne htu] at hupdate
  cases h with
  | @test u loop =>
      by_cases hflag : s.stopFlag u = true
      · by_cases htu : t = u
        · exact .inr ⟨htu ▸ rfl, htu ▸ hflag⟩
        · exact .inl (by simpa [Function.update_of_ne htu] using ht)
      · exact .inl (hother u _ (by simp [hflag]) ht)
  | @pass u loop rest => exact .inl (hother u .test (by simp) ht)
  | serve actor loop step => exact .inl (hother _ _ (loopAfter_ne_exited _ _) ht)
  | breakBatch loop stopped io => exact .inl (hother .io .test (by simp) ht)
  | stop head ready => exact .inl ((congrFun (perform_loop s _) t).symm.trans ht)
  | _ => exact .inl ht

theorem Move.stopped {a : Action} (h : Move cfg s a s') (hstopped : s.stopped = true) :
    s'.stopped = true := by
  cases h with
  | @stop x todo head ready =>
      by_cases hx : x = .setStopped
      · subst hx
        rfl
      · exact (perform_stopped s hx).trans hstopped
  | _ => exact hstopped

/-- A thread that goes on outside of its body has left its calls. -/
theorem ExitInv.rest_next {a : Action} (hinv : ExitInv cfg s) (h : Move cfg s a s') {t : Thread}
    (ht : s'.loop t ≠ .body) : AtRest s'.server t := by
  cases h with
  | @test u loop =>
      by_cases htu : t = u
      · exact hinv.rest t (by simp [htu, loop])
      · exact hinv.rest t (by simpa [Function.update_of_ne htu] using ht)
  | @pass u loop rest =>
      by_cases htu : t = u
      · exact htu ▸ rest
      · exact hinv.rest t (by simpa [Function.update_of_ne htu] using ht)
  | @serve a u server actor loop step =>
      by_cases htu : t = u
      · subst htu
        exact atRest_of_loopAfter (by simpa using ht)
      · refine atRest_next step ?_ (hinv.rest t (by simpa [Function.update_of_ne htu] using ht))
        exact fun heq => htu (Option.some.inj (heq.symm.trans actor))
  | environment actor step =>
      exact atRest_next step (by simp [actor]) (hinv.rest t ht)
  | wake loop io =>
      cases t with
      | io => exact absurd loop ht
      | _ => exact hinv.rest _ ht
  | readEvent loop step =>
      refine atRest_next step ?_ (hinv.rest t ht)
      rintro ⟨⟩
      exact ht loop
  | breakBatch loop stopped io =>
      cases t with
      | io => rfl
      | _ => exact hinv.rest _ ht
  | stop head ready =>
      rw [show ({ s.perform _ with todo := some _ } : Process).server = _ from perform_server s _]
      exact hinv.rest t ((congrFun (perform_loop s _) t) ▸ ht)
  | _ => exact hinv.rest t ht

/-- `io_loop` finds room after `worker_loop` has returned. -/
theorem ExitInv.room_next {a : Action} (hinv : ExitInv cfg s) (horder : s.Orderly cfg a)
    (h : Move cfg s a s') (hworker : s'.loop .worker = .exited) {m : Msg} {evs : List Event}
    (hpush : s'.server.io = .pushing m evs) : s'.server.recvQ.length < cfg.cap := by
  have hstep : ∀ {b : Server.Action} {server : Server},
      s.server.next cfg.toConfig b = some server → server.io = .pushing m evs →
      b ≠ .env .takeRequest → s.loop .worker = .exited →
      (∀ bytes, b = .io (.read bytes) → s.server.recvQ.length < cfg.cap) →
      server.recvQ.length < cfg.cap := by
    intro b server hnext hio htake hexited hread
    rcases Server.pushing_next hnext hio with ⟨bytes, hb, hrecvQ⟩ | ⟨hold, hb | hrecvQ⟩
    · exact hrecvQ ▸ hread bytes hb
    · exact absurd hb htake
    · exact hrecvQ ▸ hinv.room hexited m evs hold
  rcases h.exited_or hworker with hexited | ⟨rfl, hflag⟩
  · cases h with
    | @serve b u server actor loop step =>
        refine hstep step hpush ?_ hexited ?_
        · rintro rfl
          cases actor
          simp [hexited] at loop
        · rintro bytes rfl
          exact horder hexited
    | environment actor step =>
        refine hstep step hpush ?_ hexited nofun
        rintro ⟨⟩
        cases actor
    | wake loop io => cases hpush
    | readEvent loop step => exact hstep step hpush nofun hexited fun _ _ => horder hexited
    | breakBatch loop stopped io => cases hpush
    | stop head ready =>
        rw [show ({ s.perform _ with todo := some _ } : Process).server = _ from
          perform_server s _] at hpush ⊢
        exact hinv.room hexited m evs hpush
    | _ => exact hinv.room hexited m evs hpush
  · cases h
    exact horder hflag m evs hpush

theorem ExitInv.next {a : Action} (hinv : ExitInv cfg s) (horder : s.Orderly cfg a)
    (h : Move cfg s a s') : ExitInv cfg s' where
  rest _ ht := hinv.rest_next h ht
  send hsend := by
    rcases h.exited_or hsend with hexited | ⟨-, hflag⟩
    · exact h.stopped (hinv.send hexited)
    · exact h.stopped hflag
  room hworker _ _ hpush := hinv.room_next horder h hworker hpush

theorem inv_of_reachableUnder (h : (system cfg).ReachableUnder (Orderly cfg) s) :
    ScriptInv s ∧ ExitInv cfg s := by
  refine h.invariant (P := fun s => ScriptInv s ∧ ExitInv cfg s) ?_ ?_
  · rintro _ ⟨table, monitor, -, -, -, -, rfl⟩
    exact ⟨scriptInv_start table monitor, exitInv_start table⟩
  · rintro s a t horder ht ⟨hscript, hexit⟩
    have hmove := next_move ht
    refine ⟨hscript.next ?_ hmove, hexit.next horder hmove⟩
    rintro rfl
    exact horder

end Process

end SgMuni
