import SgMuni.Tcp.Server

/-!
# The process around the server

The loops of the server's threads with their tests of `stopped`, `thread_stop`
and `stop_thread`, and the thread that shuts the process down: `stop_sg_server`,
`SgTcpServer_free` and `SgTcpServer_stop`, and `handle_sigint`, which calls
`SgTcpServer_stop` before. Inside of their loops the threads take the steps of
`Server`.

## Implementation notes

A thread that sleeps in `rb_timed_pop` can give up at any time, so the broadcasts
of `not_empty` make no step of their own. `rb_push` waits without a time limit,
and no step wakes it unless there is room. `joined` lists the calls of
`pthread_join` that have returned.
-/

namespace SgMuni

/-- The threads that `start_sg_server` creates. -/
inductive Thread
  | io
  | worker
  | send
  | monitor
  | query
  | clr
  | ack
  | resend
deriving DecidableEq

/-- A thread is at the test of its `while` loop, in the body, or has returned. -/
inductive Loop
  | test
  | body
  | exited
deriving DecidableEq

/-- The statements of a shutdown. -/
inductive StopStep
  | setThreadStop
  | setStopThread
  | setStopped
  | notify
  | join (t : Thread)
deriving DecidableEq

/-- `SgTcpServer_stop`. -/
def sgTcpServerStop : List StopStep :=
  [.setStopped, .notify, .join .io, .join .worker, .join .send]

/-- `SgTcpServer_free` as far as it waits for threads. -/
def sgTcpServerFree : List StopStep :=
  sgTcpServerStop

/-- `stop_sg_server` with `stop_gpio_monitor`. -/
def stopSgServer : List StopStep :=
  [.setThreadStop, .setStopThread, .join .monitor, .join .query, .join .clr, .join .ack,
    .join .resend] ++ sgTcpServerFree

/-- `handle_sigint`, and what `main` does after its loop. -/
def handleSigint : List StopStep :=
  sgTcpServerStop ++ stopSgServer

structure Process where
  server : Server
  loop : Thread → Loop
  stopped : Bool
  threadStop : Bool
  stopThread : Bool
  signalled : Bool
  todo : Option (List StopStep)
  joined : List Thread

namespace Process

/-- The server's configuration with the number of the event descriptor. -/
structure Config extends SgMuni.Config where
  eventFd : Fd

/-- The variable that the loop of a thread tests. -/
def stopFlag (s : Process) : Thread → Bool
  | .io | .worker | .send => s.stopped
  | .monitor => s.stopThread
  | .query | .clr | .ack | .resend => s.threadStop

/-- The thread that takes a step of the server. -/
def actor : Server.Action → Option Thread
  | .io _ => some .io
  | .send _ => some .send
  | .call 0 _ => some .monitor
  | .call 1 _ => some .query
  | .call 2 _ => some .clr
  | .call 3 _ => some .ack
  | .call _ _ => none
  | .ack _ => some .resend
  | .env .takeRequest => some .worker
  | .env _ => none

/-- The thread is between two passes of its loop, as far as the server knows. -/
def AtRest (s : Server) : Thread → Prop
  | .io => s.io = .waiting
  | .worker => True
  | .send => s.send = .popping
  | .monitor => s.caller 0 = .idle
  | .query => s.caller 1 = .idle
  | .clr => s.caller 2 = .idle
  | .ack => s.caller 3 = .idle
  | .resend => s.ack = .sleeping

instance (s : Server) (t : Thread) : Decidable (AtRest s t) := by
  cases t <;> unfold AtRest <;> infer_instance

/-- Where a step in the body leaves a thread. A handler can make several calls
in one pass. -/
def loopAfter (s : Server) (t : Thread) : Loop :=
  match t with
  | .monitor | .query | .clr | .ack => .body
  | t => if AtRest s t then .test else .body

/-- What `read` returns from the event descriptor. -/
def eventBytes : List UInt8 :=
  [1, 0, 0, 0, 0, 0, 0, 0]

/-- `epoll_wait` reports the event descriptor. -/
def eventReady (cfg : Config) : Event where
  peer := { fd := cfg.eventFd, conn := none }
  hup := false
  readable := true

/-- `io_loop` has come to the event of the event descriptor. -/
def AtEvent (cfg : Config) (s : Process) : Prop :=
  match s.server.io with
  | .batch (e :: _) => e = eventReady cfg
  | _ => False

instance (cfg : Config) (s : Process) : Decidable (s.AtEvent cfg) := by
  unfold AtEvent
  split <;> infer_instance

inductive Action
  | test (t : Thread)
  | pass (t : Thread)
  | server (a : Server.Action)
  | wake (evs : List Event)
  | readEvent
  | breakBatch
  | stopSgServer
  | sigint
  | stop

/-- A thread evaluates the condition of its `while` loop. -/
def testNext (s : Process) (t : Thread) : Option Process :=
  if s.loop t = .test then
    some { s with
      loop := Function.update s.loop t (if s.stopFlag t then .exited else .body) }
  else none

/-- A pass of a loop ends: a timeout, an interrupted `epoll_wait`, or the last
call of a handler has returned. -/
def passNext (s : Process) (t : Thread) : Option Process :=
  if s.loop t = .body ∧ AtRest s.server t then
    some { s with loop := Function.update s.loop t .test }
  else none

/-- A thread in the body of its loop takes a step of the server. -/
def serverNext (cfg : Config) (s : Process) (a : Server.Action) : Option Process :=
  match actor a with
  | some t =>
      if s.loop t = .body ∧ ¬(t = .io ∧ s.AtEvent cfg) then
        (s.server.next cfg.toConfig a).map fun server =>
          { s with
            server := server
            loop := Function.update s.loop t (loopAfter server t) }
      else none
  | none =>
      match a with
      | .env (.closeFile fd) =>
          if fd = cfg.eventFd then none
          else (s.server.next cfg.toConfig a).map fun server => { s with server := server }
      | .env _ => (s.server.next cfg.toConfig a).map fun server => { s with server := server }
      | _ => none

/-- `epoll_wait` returns after `SgTcpServer_stop` has written to the event
descriptor. -/
def wakeNext (cfg : Config) (s : Process) (evs : List Event) : Option Process :=
  if s.loop .io = .body ∧ s.server.io = .waiting ∧ s.signalled = true ∧
      (∀ e ∈ evs, e = eventReady cfg ∨ s.server.Reports cfg.toConfig e) ∧
      (evs.map (·.peer.fd)).Nodup ∧ evs.length ≤ 64 then
    some { s with server := { s.server with io := .batch evs } }
  else none

/-- `io_loop` looks for the event descriptor under `fd == srv->listen_fd` only,
so it reads the event like the bytes of a client. -/
def readEventNext (cfg : Config) (s : Process) : Option Process :=
  if s.loop .io = .body ∧ s.AtEvent cfg ∧ s.signalled = true then
    (s.server.ioNext cfg.toConfig (.read eventBytes)).map fun server =>
      { s with
        server := server
        signalled := false }
  else none

/-- `io_loop` sees `stopped` when it comes to the listening socket, and leaves
the rest of the batch. It can also have seen it unset before. -/
def breakNext (cfg : Config) (s : Process) : Option Process :=
  match s.server.io with
  | .batch (e :: _) =>
      if s.loop .io = .body ∧ s.stopped = true ∧ e.peer.fd = cfg.listenFd then
        some { s with
          server := { s.server with io := .waiting }
          loop := Function.update s.loop .io .test }
      else none
  | _ => none

/-- `pthread_join` waits for its thread. -/
def Ready (s : Process) : StopStep → Prop
  | .join t => s.loop t = .exited
  | _ => True

instance (s : Process) (x : StopStep) : Decidable (s.Ready x) := by
  cases x <;> unfold Ready <;> infer_instance

def perform (s : Process) : StopStep → Process
  | .setThreadStop => { s with threadStop := true }
  | .setStopThread => { s with stopThread := true }
  | .setStopped => { s with stopped := true }
  | .notify => { s with signalled := true }
  | .join t => { s with joined := s.joined ++ [t] }

/-- The next statement of the shutdown. -/
def stopNext (s : Process) : Option Process :=
  match s.todo with
  | some (x :: todo) => if s.Ready x then some { s.perform x with todo := some todo } else none
  | _ => none

def next (cfg : Config) (s : Process) : Action → Option Process
  | .test t => s.testNext t
  | .pass t => s.passNext t
  | .server a => s.serverNext cfg a
  | .wake evs => s.wakeNext cfg evs
  | .readEvent => s.readEventNext cfg
  | .breakBatch => s.breakNext cfg
  | .stopSgServer => if s.todo = none then some { s with todo := some SgMuni.stopSgServer } else none
  | .sigint => if s.todo = none then some { s with todo := some handleSigint } else none
  | .stop => s.stopNext

/-- The process after `start_sg_server`; the monitor has returned when it could
not read the inputs. -/
def start (table : Fd → Option Owner) (monitor : Loop) : Process where
  server := .start table
  loop := Function.update (fun _ => .test) .monitor monitor
  stopped := false
  threadStop := false
  stopThread := false
  signalled := false
  todo := none
  joined := []

def system (cfg : Config) : Transition.System Process Action where
  init s := ∃ table monitor, (∀ fd c, table fd ≠ some (.conn c)) ∧
    table cfg.eventFd = some .other ∧ cfg.eventFd ≠ cfg.listenFd ∧
    monitor ≠ .body ∧ s = start table monitor
  next := next cfg

end Process

end SgMuni
