import SgMuni.Shutdown.Progress
import SgMuni.Tcp.Deadlock

/-!
# Waiting for the threads

`SgTcpServer_stop` sets `stopped` before it waits for `io_loop`, and wakes no
thread that waits for room. A shutdown can therefore wait for ever for a thread
in `rb_push` whose consumer has returned, and a shutdown after `handle_sigint`
joins the threads of the server twice.
-/

namespace SgMuni

namespace Process

open Transition

/-- The thread is blocked in `rb_push` on a full queue whose only consumer has
returned. -/
def Starved (cfg : Config) (s : Process) (t : Thread) : Prop :=
  (t = .io ∧ (∃ m evs, s.server.io = .pushing m evs) ∧ cfg.cap ≤ s.server.recvQ.length ∧
    s.loop .worker = .exited) ∨
  ∃ u, tid t = some u ∧ s.server.wantsRoom u = true ∧ cfg.cap ≤ s.server.sendQ.length ∧
    s.loop .send = .exited

/-- The shutdown waits for a thread that can never return. -/
def Hangs (cfg : Config) (s : Process) : Prop :=
  ∃ t todo, s.todo = some (.join t :: todo) ∧ s.Starved cfg t

variable {cfg : Config} {s s' : Process}

/-- A thread at rest does not push. -/
theorem wantsRoom_of_atRest {server : Server} {t : Thread} {u : Tid} (ht : tid t = some u)
    (hrest : AtRest server t) : server.wantsRoom u = false := by
  cases t <;> cases ht
  case resend =>
    have hack : server.ack = .sleeping := hrest
    simp [Server.wantsRoom, hack]
  all_goals
    have hcaller : server.caller _ = .idle := hrest
    simp [Server.wantsRoom, hcaller]

/-- Under the condition, a shutdown never waits for a thread that is blocked for
good, and joins no thread twice. -/
theorem shutdown_orderly (h : (system cfg).ReachableUnder (Orderly cfg) s) :
    ¬s.Hangs cfg ∧ s.joined.Nodup := by
  obtain ⟨hscript, hexit⟩ := inv_of_reachableUnder h
  constructor
  · rintro ⟨t, todo, htodo, ⟨rfl, ⟨m, evs, hpush⟩, hfull, hworker⟩ | ⟨u, hu, hwants, hfull, hsend⟩⟩
    · exact absurd (hexit.room hworker m evs hpush) (Nat.not_lt.mpr hfull)
    · have hexited := hscript.exited_of_stopped (hexit.send hsend) (t := t) (by simp [hu])
      have hrest := hexit.rest t (by simp [hexited])
      simp [wantsRoom_of_atRest hu hrest] at hwants
  · cases htodo : s.todo with
    | none => simp [(hscript.begun htodo).2]
    | some todo =>
        have hnodup := nodup_joins_stopSgServer
        rw [← hscript.joins todo htodo] at hnodup
        exact (List.nodup_append.mp hnodup).1

/-- The unit's server with its listening socket and its event descriptor. -/
def unit128 : Config := { cap := 128, listenFd := 3, eventFd := 5 }

theorem init_openFiles (monitor : Loop) (hmonitor : monitor ≠ .body) :
    (system unit128).init (start (Server.openFiles 6) monitor) := by
  refine ⟨_, monitor, fun fd c => ?_, rfl, by decide, hmonitor, rfl⟩
  unfold Server.openFiles
  split <;> simp

/-- A shutdown up to the event of the event descriptor. -/
def untilEvent : List Action :=
  [.test .io, .stopSgServer, .stop, .stop, .test .monitor, .test .query, .test .clr, .test .ack,
    .test .resend, .stop, .stop, .stop, .stop, .stop, .stop, .stop, .wake [eventReady unit128]]

/-- The threads of the server return, `worker_loop` after `io_loop`. -/
def lastJoins : List Action :=
  [.readEvent, .server (.io .push), .server (.io .endBatch), .test .io, .stop, .test .worker,
    .stop, .test .send, .stop]

theorem lastJoins_orderly :
    (system unit128).StepsMeet (Orderly unit128) (start (Server.openFiles 6) .test)
      (untilEvent ++ lastJoins) := by
  refine System.stepsMeet_append (System.stepsMeet_of_forall ?_ _) fun s hs => ?_
  · simp [untilEvent, Orderly]
  · cases hs
    refine ⟨nofun, fun t ht => ?_⟩
    cases ht
    refine ⟨trivial, fun t ht => ⟨trivial, fun u hu => ⟨trivial, fun v hv => ⟨trivial,
      fun w hw => ⟨fun _ m evs hpush => ?_, fun _ _ => ⟨trivial, fun _ _ => ⟨trivial,
      fun _ _ => ⟨trivial, fun _ _ => trivial⟩⟩⟩⟩⟩⟩⟩⟩
    cases ht
    cases hu
    cases hv
    cases hw
    cases hpush

theorem shutdown_orderly_lastJoins :
    ∃ s, (system unit128).exec (start (Server.openFiles 6) .test) (untilEvent ++ lastJoins) = some s ∧
      s.todo = some [] ∧ s.joined = joins stopSgServer ∧ ¬s.Hangs unit128 ∧ s.joined.Nodup :=
  ⟨_, rfl, rfl, rfl, shutdown_orderly ⟨_, init_openFiles .test (by decide),
    System.leadsUnder_of_stepsMeet _ lastJoins_orderly rfl⟩⟩

/-- The shutdown waits for `io_loop`, which waits for room in `recv_q` after
`worker_loop` has returned. -/
structure Stuck (cfg : Config) (s : Process) : Prop where
  todo : ∃ todo, s.todo = some (.join .io :: todo)
  loop : s.loop .io = .body
  push : ∃ m evs, s.server.io = .pushing m evs
  full : cfg.cap ≤ s.server.recvQ.length
  worker : s.loop .worker = .exited

theorem Stuck.hangs (h : Stuck cfg s) : s.Hangs cfg := by
  obtain ⟨todo, htodo⟩ := h.todo
  exact ⟨.io, todo, htodo, .inl ⟨rfl, h.push, h.full, h.worker⟩⟩

/-- Only `worker_loop` can end the wait of `io_loop` for room. -/
theorem blocked_push_next {server server' : Server} {a : Server.Action} {m : Msg}
    {evs : List Event} (h : server.next cfg.toConfig a = some server')
    (hpush : server.io = .pushing m evs) (hfull : cfg.cap ≤ server.recvQ.length)
    (htake : a ≠ .env .takeRequest) :
    (∀ b, a ≠ .io b) ∧ server'.io = server.io ∧ server'.recvQ = server.recvQ := by
  cases a with
  | io a =>
      have hmove := Server.ioNext_move h
      cases hmove with
      | push io room => exact absurd room (Nat.not_lt.mpr hfull)
      | cleanup io move => cases hpush.symm.trans io
      | _ => simp_all
  | send a =>
      have hframe := (Server.sendNext_move h).frame
      exact ⟨nofun, hframe.io, hframe.recvQ⟩
  | call k a =>
      have hframe := (Server.callNext_move h).frame
      exact ⟨nofun, hframe.io, hframe.recvQ⟩
  | ack a =>
      have hframe := (Server.ackNext_move h).frame
      exact ⟨nofun, hframe.io, hframe.recvQ⟩
  | env a =>
      have hmove := Server.envNext_move h
      cases hmove with
      | takeRequest => exact absurd rfl htake
      | _ => exact ⟨nofun, rfl, rfl⟩

theorem exists_io_of_actor {a : Server.Action} (h : actor a = some .io) : ∃ b, a = .io b := by
  unfold actor at h
  split at h <;> first | exact ⟨_, rfl⟩ | cases h

theorem Stuck.next {a : Action} (hs : Stuck cfg s) (h : Move cfg s a s') : Stuck cfg s' := by
  obtain ⟨⟨todo, htodo⟩, hloop, ⟨m, evs, hpush⟩, hfull, hworker⟩ := hs
  have hworker' := h.exited hworker
  cases h with
  | @test t loop =>
      have ht : Thread.io ≠ t := by
        rintro rfl
        simp [hloop] at loop
      exact ⟨⟨todo, htodo⟩, (Function.update_of_ne ht _ _).trans hloop, ⟨m, evs, hpush⟩, hfull,
        hworker'⟩
  | @pass t loop rest =>
      have ht : Thread.io ≠ t := by
        rintro rfl
        cases hpush.symm.trans rest
      exact ⟨⟨todo, htodo⟩, (Function.update_of_ne ht _ _).trans hloop, ⟨m, evs, hpush⟩, hfull,
        hworker'⟩
  | @serve a t server actor loop step =>
      have htake : a ≠ .env .takeRequest := by
        rintro rfl
        cases actor
        simp [hworker] at loop
      obtain ⟨hio, hsame, hrecvQ⟩ := blocked_push_next step hpush hfull htake
      have ht : Thread.io ≠ t := by
        rintro rfl
        obtain ⟨b, hb⟩ := exists_io_of_actor actor
        exact hio b hb
      exact ⟨⟨todo, htodo⟩, (Function.update_of_ne ht _ _).trans hloop,
        ⟨m, evs, hsame.trans hpush⟩, hrecvQ ▸ hfull, hworker'⟩
  | environment actor step =>
      obtain ⟨-, hsame, hrecvQ⟩ := blocked_push_next step hpush hfull (by rintro ⟨⟩; cases actor)
      exact ⟨⟨todo, htodo⟩, hloop, ⟨m, evs, hsame.trans hpush⟩, hrecvQ ▸ hfull, hworker'⟩
  | wake loop io => cases hpush.symm.trans io
  | readEvent loop step =>
      exact absurd rfl ((blocked_push_next step hpush hfull nofun).1 _)
  | breakBatch loop stopped io => cases hpush.symm.trans io
  | stopSgServer none => cases htodo.symm.trans none
  | sigint none => cases htodo.symm.trans none
  | stop head ready =>
      cases htodo.symm.trans head
      cases hloop.symm.trans ready

theorem Stuck.leads {t : Process} (hs : Stuck cfg s) (h : (system cfg).Leads s t) : Stuck cfg t :=
  h.invariant hs fun _ _ _ _ hn hstuck => hstuck.next (next_move hn)

/-- The client with the number 6 has sent `n` requests, and all threads are at
the test of their loops. -/
structure Filled (n : Nat) (s : Process) : Prop where
  loop : ∀ t, s.loop t = .test
  todo : s.todo = none
  stopped : s.stopped = false
  io : s.server.io = .waiting
  table : s.server.table 6 = some (.conn 0)
  event : s.server.table 5 = some .other
  watched : s.server.watched 6 = true
  recvQ : s.server.recvQ.length = n

/-- The event of a request of the client. -/
def request : Event where
  peer := { fd := 6, conn := some 0 }
  hup := false
  readable := true

/-- `io_loop` takes one more request while `worker_loop` is kept in `on_message`. -/
theorem Filled.more {n : Nat} (hs : Filled n s) (hn : n < 128) :
    ∃ t, (system unit128).Leads s t ∧ Filled (n + 1) t := by
  have hroom : s.server.recvQ.length < 128 := hs.recvQ ▸ hn
  refine ⟨_, System.leads_of_exec [.test .io, .server (.io (.epollWait [request])),
    .server (.io (.read [0x7b])), .server (.io .push), .server (.io .endBatch)]
    (by
      simp [system, next, testNext, serverNext, actor, AtEvent, Server.next, Server.ioNext,
        Server.Reports, Server.ownerConn, loopAfter, AtRest, stopFlag, unit128, request, eventReady,
        maxMessage, hs.loop, hs.stopped, hs.io, hs.table, hs.watched, hroom]
      rfl), ?_⟩
  exact
    { loop := fun t => by simp [Function.update_apply, hs.loop]
      todo := hs.todo
      stopped := rfl
      io := rfl
      table := hs.table
      event := hs.event
      watched := hs.watched
      recvQ := by simp [hs.recvQ] }

theorem Filled.fill (hs : Filled 0 s) {n : Nat} (hn : n ≤ 128) :
    ∃ t, (system unit128).Leads s t ∧ Filled n t := by
  induction n with
  | zero => exact ⟨s, .refl, hs⟩
  | succ n ih =>
      obtain ⟨t, ht, hfilled⟩ := ih (by omega)
      obtain ⟨u, hu, hmore⟩ := hfilled.more (by omega)
      exact ⟨u, ht.trans hu, hmore⟩

/-- The process is stopped while `io_loop` sleeps in `epoll_wait` and `worker_loop`
is in `on_message`; then `worker_loop` sees `stopped`. -/
theorem Filled.stop {n : Nat} (hs : Filled n s) :
    ∃ t todo, (system unit128).Leads s t ∧ t.server = s.server ∧ t.todo = some (.join .io :: todo) ∧
      t.loop .io = .body ∧ t.loop .worker = .exited ∧ t.signalled = true := by
  obtain ⟨server, loop, stopped, threadStop, stopThread, signalled, todo, joined⟩ := s
  obtain rfl : loop = fun _ => .test := funext hs.loop
  obtain rfl : stopped = false := hs.stopped
  obtain rfl : todo = none := hs.todo
  exact ⟨_, _, System.leads_of_exec
    [.test .io, .stopSgServer, .stop, .stop, .test .monitor, .test .query, .test .clr, .test .ack,
      .test .resend, .stop, .stop, .stop, .stop, .stop, .stop, .stop, .test .worker] rfl,
    rfl, rfl, rfl, rfl, rfl⟩

/-- When `recv_q` is full, `io_loop` reads the event descriptor and waits for room. -/
theorem Filled.stuck (hs : Filled 128 s) :
    ∃ t, (system unit128).Leads s t ∧ Stuck unit128 t := by
  obtain ⟨t, todo, ht, hserver, htodo, hio, hworker, hsignalled⟩ := hs.stop
  have hwaiting : t.server.io = .waiting := hserver ▸ hs.io
  have hevent : t.server.table 5 = some .other := hserver ▸ hs.event
  refine ⟨_, ht.trans (System.leads_of_exec [.wake [eventReady unit128], .readEvent]
    (by
      simp [system, next, wakeNext, readEventNext, AtEvent, Server.ioNext, unit128, eventReady,
        eventBytes, maxMessage, hio, hwaiting, hsignalled, hevent]
      rfl)), ?_⟩
  exact
    { todo := ⟨todo, htodo⟩
      loop := hio
      push := ⟨_, _, rfl⟩
      full := by simp [hserver, hs.recvQ, unit128]
      worker := hworker }

/-- The first client is accepted. -/
def accepted : List Action :=
  [.test .io, .server (.io (.epollWait [{
      peer := { fd := 3, conn := none }
      hup := false
      readable := true }])),
    .server (.io (.accept 6)), .server (.io .watch), .server (.io .lock), .server (.io .append),
    .server (.io .endBatch)]

theorem accepted_filled :
    ∃ s, (system unit128).exec (start (Server.openFiles 6) .test) accepted = some s ∧
      Filled 0 s := by
  refine ⟨_, rfl, ?_⟩
  exact
    { loop := by intro t; cases t <;> rfl
      todo := rfl
      stopped := rfl
      io := rfl
      table := rfl
      event := rfl
      watched := rfl
      recvQ := rfl }

/-- Every shutdown runs one of the two scripts. -/
theorem joined_of_reachable (h : (system cfg).Reachable s) :
    (s.todo = none → s.joined = []) ∧ ∀ todo, s.todo = some todo →
      s.joined ++ joins todo = joins stopSgServer ∨ s.joined ++ joins todo = joins handleSigint := by
  refine h.invariant (P := fun s => (s.todo = none → s.joined = []) ∧ ∀ todo, s.todo = some todo →
    s.joined ++ joins todo = joins stopSgServer ∨ s.joined ++ joins todo = joins handleSigint) ?_ ?_
  · rintro _ ⟨table, monitor, -, -, -, -, rfl⟩
    exact ⟨fun _ => rfl, nofun⟩
  · rintro s a t - ht ⟨hnone, hsome⟩
    have hmove := next_move ht
    cases hmove with
    | stopSgServer todo =>
        refine ⟨nofun, ?_⟩
        rintro _ ⟨⟩
        exact .inl (by simp [hnone todo])
    | sigint todo =>
        refine ⟨nofun, ?_⟩
        rintro _ ⟨⟩
        exact .inr (by simp [hnone todo])
    | @stop x todo head ready =>
        refine ⟨nofun, ?_⟩
        rintro _ ⟨⟩
        have hjoins := hsome _ head
        rwa [joins_cons, ← List.append_assoc, ← perform_joined] at hjoins
    | _ => exact ⟨hnone, hsome⟩

/-- A shutdown that has come to its end has joined every thread once, or has
begun with `handle_sigint` and joined threads twice. -/
theorem joined_of_finished (h : (system cfg).Reachable s) (hend : s.todo = some []) :
    s.joined = joins stopSgServer ∨ s.joined = joins handleSigint ∧ ¬s.joined.Nodup := by
  have htwice : ¬(joins handleSigint).Nodup := by decide
  rcases (joined_of_reachable h).2 [] hend with hjoined | hjoined <;>
    rw [joins, List.append_nil] at hjoined
  · exact .inl hjoined
  · exact .inr ⟨hjoined, hjoined ▸ htwice⟩

/-- A shutdown that `handle_sigint` begins, up to the second call of
`SgTcpServer_stop`. -/
def interrupted : List Action :=
  [.sigint, .stop, .stop, .test .io, .stop, .test .worker, .stop, .test .send, .stop,
    .stop, .stop, .test .monitor, .test .query, .test .clr, .test .ack, .test .resend,
    .stop, .stop, .stop, .stop, .stop, .stop, .stop, .stop]

/-- `stop_sg_server` can wait for `io_loop` for ever, and after `handle_sigint`
the first thread is joined twice. -/
theorem shutdown_hangs_or_joins_twice :
    (∃ s, (system unit128).Reachable s ∧ ∀ t, (system unit128).Leads s t → t.Hangs unit128) ∧
    ∃ s, (system unit128).Reachable s ∧ ¬s.joined.Nodup := by
  have hinit := init_openFiles .test (by decide)
  constructor
  · obtain ⟨s, hexec, hfilled⟩ := accepted_filled
    obtain ⟨t, ht, hfull⟩ := hfilled.fill le_rfl
    obtain ⟨u, hu, hstuck⟩ := hfull.stuck
    exact ⟨u, ((System.reachable_of_exec accepted hinit hexec).leads ht).leads hu,
      fun v hv => (hstuck.leads hv).hangs⟩
  · refine ⟨_, System.reachable_of_exec interrupted hinit rfl, ?_⟩
    have htwice : ¬([.io, .worker, .send, .monitor, .query, .clr, .ack, .resend, .io] :
      List Thread).Nodup := by decide
    exact htwice

end Process

end SgMuni
