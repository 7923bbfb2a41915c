import SgMuni.Shutdown.Joins
import SgMuni.Tcp.Connections
import SgMuni.Transition.History

/-!
# What reaches the message callback

`io_loop` takes every descriptor that is not the listening socket for a client.
The event descriptor is registered with `epoll` as well, and a client's number
can denote a file of the process when an event of the batch is old.

## Implementation notes

The history lists the connections that `accept` returned, the bytes read from
them, and the messages pushed on `recv_q` and given to the callback.
-/

namespace SgMuni

/-- What a step of the server adds to the history. -/
inductive Report
  | accepted (p : Peer)
  | read (p : Peer) (bytes : List UInt8)
  | pushed (m : Msg)
  | delivered (m : Msg)

/-- The message carries the number of a connection that was accepted, and bytes
that were read from it. -/
def FromClient (log : List Report) (m : Msg) : Prop :=
  ∃ c, m.peer.conn = some c ∧ .accepted m.peer ∈ log ∧ .read m.peer m.data ∈ log

theorem FromClient.append {log : List Report} {m : Msg} (h : FromClient log m)
    (more : List Report) : FromClient (log ++ more) m := by
  obtain ⟨c, hc, haccepted, hread⟩ := h
  exact ⟨c, hc, List.mem_append_left _ haccepted, List.mem_append_left _ hread⟩

namespace Server

open Transition

def report (s : Server) : Action → List Report
  | .io (.accept fd) => [.accepted { fd := fd, conn := some s.nextConn }]
  | .io (.read bytes) =>
      match s.io with
      | .batch (e :: _) =>
          match s.ownerConn e.peer.fd with
          | some c => [.read { fd := e.peer.fd, conn := some c } bytes]
          | none => []
      | _ => []
  | .io .push =>
      match s.io with
      | .pushing m _ => [.pushed m]
      | _ => []
  | .env .takeRequest => s.recvQ.head?.toList.map .delivered
  | _ => []

/-- When `io_loop` reads, the descriptor is a client's. -/
def ReadsClient (s : Server) : Action → Prop
  | .io (.read _) =>
      match s.io with
      | .batch (e :: _) => s.ownerConn e.peer.fd ≠ none
      | _ => True
  | _ => True

/-- The connections in the table were accepted. -/
def Accepted (s : Server) (log : List Report) : Prop :=
  ∀ fd c, s.table fd = some (.conn c) → .accepted { fd := fd, conn := some c } ∈ log

/-- All messages on their way to the callback, and all that reached it, are
from clients. -/
structure FromClients (s : Server) (log : List Report) : Prop where
  pushing : ∀ m evs, s.io = .pushing m evs → FromClient log m
  queued : ∀ m ∈ s.recvQ, FromClient log m
  logged : ∀ m, .pushed m ∈ log ∨ .delivered m ∈ log → FromClient log m

variable {cfg : SgMuni.Config} {s s' : Server} {log : List Report} {m : Msg}

theorem pushing_of_mem_report {a : Action} (h : .pushed m ∈ s.report a) :
    ∃ evs, s.io = .pushing m evs := by
  unfold report at h
  split at h
  case h_3 =>
      split at h
      case h_1 m' evs hio =>
          cases List.mem_singleton.mp h
          exact ⟨evs, hio⟩
      case h_2 => cases h
  case h_2 =>
      split at h
      case h_1 => split at h <;> simp at h
      case h_2 => cases h
  all_goals simp at h

theorem queued_of_mem_report {a : Action} (h : .delivered m ∈ s.report a) : m ∈ s.recvQ := by
  unfold report at h
  split at h
  case h_4 =>
      obtain ⟨m', hm', heq⟩ := List.mem_map.mp h
      cases heq
      exact List.mem_of_mem_head? (Option.mem_toList.mp hm')
  case h_2 =>
      split at h
      case h_1 => split at h <;> simp at h
      case h_2 => cases h
  case h_3 => split at h <;> simp at h
  all_goals simp at h

theorem Accepted.next {a : Action} (h : s.Accepted log) (hn : s.next cfg a = some s') :
    s'.Accepted (log ++ s.report a) := by
  intro fd c hc
  rcases table_next hn hc with hold | ⟨rfl, -, rfl⟩
  · exact List.mem_append_left _ (h fd c hold)
  · exact List.mem_append_right _ (List.mem_singleton.mpr rfl)

/-- A message in `recv_q` was there before, or `io_loop` has pushed it. -/
theorem mem_recvQ_next {a : Action} (hn : s.next cfg a = some s') (hm : m ∈ s'.recvQ) :
    m ∈ s.recvQ ∨ ∃ evs, s.io = .pushing m evs := by
  cases a with
  | io a =>
      have hmove := ioNext_move hn
      cases hmove with
      | @push m' evs io room =>
          rcases List.mem_append.mp hm with hmem | hmem
          · exact .inl hmem
          · cases List.mem_singleton.mp hmem
            exact .inr ⟨evs, io⟩
      | cleanup io move => cases move <;> exact .inl hm
      | _ => exact .inl hm
  | send a => exact .inl ((sendNext_move hn).frame.recvQ ▸ hm)
  | call k a => exact .inl ((callNext_move hn).frame.recvQ ▸ hm)
  | ack a => exact .inl ((ackNext_move hn).frame.recvQ ▸ hm)
  | env a =>
      have hmove := envNext_move hn
      cases hmove with
      | takeRequest recvQ => exact .inl (recvQ ▸ List.mem_cons_of_mem _ hm)
      | _ => exact .inl hm

/-- What `io_loop` reads from a client's descriptor is from that client. -/
theorem fromClient_read {e : Event} {evs : List Event} {bytes : List UInt8}
    (haccepted : s.Accepted log) (hio : s.io = .batch (e :: evs))
    (hclient : s.ownerConn e.peer.fd ≠ none) :
    FromClient (log ++ s.report (.io (.read bytes)))
      { peer := { fd := e.peer.fd, conn := s.ownerConn e.peer.fd }, data := bytes } := by
  obtain ⟨c, hc⟩ := Option.ne_none_iff_exists'.mp hclient
  have htable : s.table e.peer.fd = some (.conn c) := by
    unfold ownerConn at hc
    split at hc <;> cases hc
    assumption
  refine ⟨c, hc, ?_, ?_⟩
  · rw [hc]
    exact List.mem_append_left _ (haccepted _ c htable)
  · rw [hc]
    exact List.mem_append_right _ (by simp [report, hio, hc])

/-- A step keeps all messages the clients' exactly when `io_loop` reads from
clients only. -/
theorem fromClients_next_iff {a : Action} (haccepted : s.Accepted log)
    (h : s.FromClients log) (hn : s.next cfg a = some s') :
    s'.FromClients (log ++ s.report a) ↔ s.ReadsClient a := by
  constructor
  · intro h'
    cases a with
    | io a =>
        have hmove := ioNext_move hn
        cases hmove with
        | @read e evs bytes io guard isOpen nonempty fits =>
            obtain ⟨c, hc, -⟩ := h'.pushing _ evs rfl
            have hclient : s.ownerConn e.peer.fd ≠ none := Option.ne_none_iff_exists'.mpr ⟨c, hc⟩
            simpa only [ReadsClient, io] using hclient
        | _ => trivial
    | _ => trivial
  · intro hreads
    constructor
    · intro m evs hpush
      rcases pushing_next hn hpush with ⟨bytes, rfl, -⟩ | ⟨hbefore, -⟩
      · have hmove : IoMove cfg s (.read bytes) s' := ioNext_move hn
        cases hmove with
        | @read e evs' bytes io guard isOpen nonempty fits =>
            cases hpush
            simp only [ReadsClient, io] at hreads
            exact fromClient_read haccepted io hreads
      · exact (h.pushing m evs hbefore).append _
    · intro m hm
      rcases mem_recvQ_next hn hm with hmem | ⟨evs, hio⟩
      · exact (h.queued m hmem).append _
      · exact (h.pushing m evs hio).append _
    · intro m hm
      have hcases : (.pushed m ∈ log ∨ .delivered m ∈ log) ∨
          (.pushed m ∈ s.report a ∨ .delivered m ∈ s.report a) := by
        simp only [List.mem_append] at hm
        tauto
      rcases hcases with hold | hpushed | hdelivered
      · exact (h.logged m hold).append _
      · obtain ⟨evs, hio⟩ := pushing_of_mem_report hpushed
        exact (h.pushing m evs hio).append _
      · exact (h.queued m (queued_of_mem_report hdelivered)).append _

theorem FromClients.congr (h : s.FromClients log)
    (hio : ∀ m evs, s'.io = .pushing m evs → s.io = .pushing m evs)
    (hrecvQ : s'.recvQ = s.recvQ) : s'.FromClients log where
  pushing m evs hpush := h.pushing m evs (hio m evs hpush)
  queued m hm := h.queued m (hrecvQ ▸ hm)
  logged := h.logged

end Server

namespace Process

open Transition

/-- The server's part of a step; the event descriptor is read like a client. -/
def serverAction : Action → Option Server.Action
  | .server a => some a
  | .readEvent => some (.io (.read eventBytes))
  | _ => none

def report (s : Process) (a : Action) : List Report :=
  (serverAction a).elim [] s.server.report

/-- Whenever `io_loop` reads a descriptor, it is a client's: neither the event
descriptor nor a number that by now denotes a file. -/
def ReadsClients (s : Process) (a : Action) : Prop :=
  ∀ b, serverAction a = some b → s.server.ReadsClient b

variable {cfg : Config} {s s' : Process} {log : List Report}

/-- A step takes a step of the server, or leaves the messages as they are. -/
theorem serverAction_next {a : Action} (h : next cfg s a = some s') :
    (∃ b, serverAction a = some b ∧ s.server.next cfg.toConfig b = some s'.server) ∨
    (serverAction a = none ∧ s'.server.table = s.server.table ∧
      s'.server.recvQ = s.server.recvQ ∧
      ∀ m evs, s'.server.io = .pushing m evs → s.server.io = .pushing m evs) := by
  have hmove := next_move h
  cases hmove with
  | serve actor loop step => exact .inl ⟨_, rfl, step⟩
  | environment actor step => exact .inl ⟨_, rfl, step⟩
  | readEvent loop step => exact .inl ⟨_, rfl, step⟩
  | wake loop io => exact .inr ⟨rfl, rfl, rfl, nofun⟩
  | breakBatch loop stopped io => exact .inr ⟨rfl, rfl, rfl, nofun⟩
  | @stop x todo head ready =>
      have hserver : (s.perform x).server = s.server := perform_server s x
      refine .inr ⟨rfl, congrArg Server.table hserver, congrArg Server.recvQ hserver, ?_⟩
      exact fun m evs hpush => hserver ▸ hpush
  | _ => exact .inr ⟨rfl, rfl, rfl, fun _ _ => id⟩

theorem accepted_next {a : Action} (haccepted : s.server.Accepted log)
    (h : next cfg s a = some s') : s'.server.Accepted (log ++ s.report a) := by
  rcases serverAction_next h with ⟨b, hb, hstep⟩ | ⟨hb, htable, -, -⟩
  · simp only [report, hb, Option.elim_some]
    exact haccepted.next hstep
  · simp only [report, hb, Option.elim_none, List.append_nil]
    exact fun fd c hc => haccepted fd c (htable ▸ hc)

theorem fromClients_next_iff {a : Action} (haccepted : s.server.Accepted log)
    (hfrom : s.server.FromClients log) (h : next cfg s a = some s') :
    s'.server.FromClients (log ++ s.report a) ↔ s.ReadsClients a := by
  rcases serverAction_next h with ⟨b, hb, hstep⟩ | ⟨hb, -, hrecvQ, hio⟩
  · simp only [report, ReadsClients, hb, Option.elim_some, Option.some.injEq, forall_eq']
    exact Server.fromClients_next_iff haccepted hfrom hstep
  · simp only [report, ReadsClients, hb, Option.elim_none, List.append_nil]
    exact iff_of_true (hfrom.congr hio hrecvQ) nofun

/-- Every message that `io_loop` pushes, and every message given to the
callback, is from a client, exactly when `io_loop` reads from clients only. -/
theorem requests_from_clients_iff {p₀ p : Process × List Report} {as : List Action}
    (hinit : ((system cfg).recording report).init p₀)
    (hrun : ((system cfg).recording report).exec p₀ as = some p) :
    ((system cfg).recording report).StepsMeet (System.recorded ReadsClients) p₀ as ↔
      ((system cfg).recording report).StatesMeet (fun p => p.1.server.FromClients p.2) p₀ as := by
  obtain ⟨⟨table, monitor, htable, -, -, -, hstart⟩, hlog⟩ := hinit
  refine System.stepsMeet_iff_statesMeet (I := fun p => p.1.server.Accepted p.2) ?_ ?_ ?_ ?_ hrun
  · intro p a q hn haccepted
    obtain ⟨hstep, hmore⟩ := System.recording_next hn
    rw [hmore]
    exact accepted_next haccepted hstep
  · intro p a q hn haccepted hfrom
    obtain ⟨hstep, hmore⟩ := System.recording_next hn
    rw [hmore]
    exact fromClients_next_iff haccepted hfrom hstep
  · rw [hstart]
    exact fun fd c hc => absurd hc (htable fd c)
  · rw [hstart, hlog]
    exact ⟨nofun, nofun, by simp⟩

/-- The first client has sent a request. -/
def requested : List Action :=
  accepted ++ [.test .io, .test .worker, .server (.io (.epollWait [request]))]

/-- `io_loop` reads the request and `worker_loop` takes it. -/
def handled : List Action :=
  [.server (.io (.read [0x7b])), .server (.io .push), .server (.env .takeRequest)]

theorem handled_readsClients :
    ((system unit128).recording report).StepsMeet (System.recorded ReadsClients)
      (start (Server.openFiles 6) .test, []) (requested ++ handled) := by
  apply System.stepsMeet_append
  · apply System.stepsMeet_of_forall
    simp [requested, accepted, System.recorded, ReadsClients, serverAction, Server.ReadsClient]
  · intro p hp
    cases hp
    refine ⟨?_, fun q _ => ?_⟩
    · rintro b ⟨⟩
      exact Option.some_ne_none 0
    · apply System.stepsMeet_of_forall
      simp [System.recorded, ReadsClients, serverAction, Server.ReadsClient]

theorem requests_from_clients_iff_handled :
    ∃ p, ((system unit128).recording report).exec (start (Server.openFiles 6) .test, [])
        (requested ++ handled) = some p ∧
      ((system unit128).recording report).StatesMeet (fun p => p.1.server.FromClients p.2)
        (start (Server.openFiles 6) .test, []) (requested ++ handled) :=
  ⟨_, rfl, (requests_from_clients_iff ⟨init_openFiles .test (by decide), rfl⟩ rfl).mp
    handled_readsClients⟩

/-- `SgTcpServer_stop` writes the event descriptor while `io_loop` sleeps, and
`worker_loop` is about to wait for a message. -/
def eventDelivered : List Action :=
  [.test .io, .test .worker, .stopSgServer, .stop, .stop, .test .monitor, .test .query,
    .test .clr, .test .ack, .test .resend, .stop, .stop, .stop, .stop, .stop, .stop, .stop,
    .wake [eventReady unit128], .readEvent, .server (.io .push), .server (.env .takeRequest)]

/-- The eight bytes of the event descriptor reach the callback. -/
theorem event_delivered_as_request :
    ∃ p, ((system unit128).recording report).exec (start (Server.openFiles 6) .test, [])
        eventDelivered = some p ∧
      .delivered { peer := { fd := unit128.eventFd, conn := none }, data := eventBytes } ∈ p.2 ∧
      ¬p.1.server.FromClients p.2 := by
  refine ⟨_, rfl, ?_, fun h => ?_⟩
  · exact List.mem_cons_of_mem _ List.mem_cons_self
  · obtain ⟨c, hc, -⟩ := h.logged { peer := { fd := unit128.eventFd, conn := none }, data := eventBytes }
      (.inr (List.mem_cons_of_mem _ List.mem_cons_self))
    cases hc

end Process

end SgMuni
