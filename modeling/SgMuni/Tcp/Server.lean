import SgMuni.Pending.List
import SgMuni.Tcp.Registry
import SgMuni.Transition.System
import Mathlib.Logic.Function.Basic

/-!
# The server's threads, queues and mutexes

`sg-tcp.c` while the server runs, together with the users of `pending_mtx` in
`sg-comm.c`: `io_loop`, `worker_loop` and `send_loop`, any number of threads
that call the server, `ack_manager`, and the kernel's descriptor table. A step
is a system call, a lock, an unlock or a queue operation with the assignments
up to the next one. `rb_push` is one step that needs room.

## Implementation notes

The program knows a client by its descriptor number alone. A `Peer` adds the
connection for which the number was obtained, and `origin` does so for the
nodes of the pending list; both are history that no step reads. While the
server runs the event descriptor is never ready, so `io_loop` sees events of
the listening socket and of clients only.
-/

namespace SgMuni

/-- The connections in the order of the successful `accept` calls. -/
abbrev Conn := Nat

/-- What a descriptor number denotes: a connection, or any other open file. -/
inductive Owner
  | conn (c : Conn)
  | other
deriving DecidableEq

/-- A stored descriptor number with the connection it was obtained for. -/
structure Peer where
  fd : Fd
  conn : Option Conn
deriving DecidableEq

/-- An `SgTcpMessage` for or from a peer; its `len` is the length of `data`. -/
structure Msg where
  peer : Peer
  data : List UInt8
deriving DecidableEq

/-- The threads that use `send_q`, `clients_mtx` or `pending_mtx`. -/
inductive Tid
  | io
  | send
  | ack
  | caller (k : Nat)
deriving DecidableEq

/-- Positions in `cleanup_connection`. -/
inductive Stage
  | detach
  | close
  | lock
  | remove
deriving DecidableEq

/-- A call of `cleanup_connection`, and the connection that caused it. -/
structure Cleanup where
  stage : Stage
  fd : Fd
  cause : Option Conn
deriving DecidableEq

/-- An event of an `epoll_wait` batch; `hup` is `EPOLLHUP|EPOLLERR`. -/
structure Event where
  peer : Peer
  hup : Bool
  readable : Bool
deriving DecidableEq

/-- Positions in `io_loop`; `evs` is the rest of the batch. -/
inductive IoPc
  | waiting
  | batch (evs : List Event)
  | accepted (p : Peer) (evs : List Event)
  | registering (p : Peer) (evs : List Event)
  | appending (p : Peer) (evs : List Event)
  | pushing (m : Msg) (evs : List Event)
  | cleanup (c : Cleanup) (evs : List Event)
deriving DecidableEq

/-- Positions in `send_loop`. -/
inductive SendPc
  | popping
  | sending (m : Msg)
  | cleanup (c : Cleanup)
deriving DecidableEq

/-- A critical section under `pending_mtx`. -/
inductive PendingOp
  | add (p : Peer) (str : List UInt8) (bincount now : Int)
  | ack (fd : Fd) (bincount : Int)
deriving DecidableEq

/-- Positions in `SgTcpServer_send`, `SgTcpServer_broadcast`,
`SgTcpServer_get_clients`, and in the users of the pending list. -/
inductive CallerPc
  | idle
  | pushing (m : Msg)
  | broadcastLock (data : List UInt8)
  | broadcasting (data : List UInt8) (i : Nat)
  | listLock
  | listing
  | pendingLock (op : PendingOp)
  | pendingHeld (op : PendingOp)
deriving DecidableEq

/-- Positions in `ack_manager`; `pos` counts the nodes before `*pp`. -/
inductive AckPc
  | sleeping
  | locking (now : Int)
  | sweeping (now : Int) (pos : Nat)
deriving DecidableEq

structure Server where
  table : Fd → Option Owner
  watched : Fd → Bool
  nextConn : Conn
  clients : List Peer
  clientsMtx : Option Tid
  pending : List PendingAck
  pendingMtx : Option Tid
  fresh : Nat
  origin : Nat → Option Conn
  sendQ : List Msg
  recvQ : List Msg
  handles : List Peer
  io : IoPc
  send : SendPc
  ack : AckPc
  caller : Nat → CallerPc

/-- The capacity of the queues and the number of the listening socket. -/
structure Config where
  cap : Nat
  listenFd : Fd

namespace Server

/-- The connection that a number denotes now. -/
def ownerConn (s : Server) (fd : Fd) : Option Conn :=
  match s.table fd with
  | some (.conn c) => some c
  | _ => none

/-- The next step of `cleanup_connection`, and where it leaves the call. -/
def cleanupNext (s : Server) (me : Tid) (c : Cleanup) : Option (Server × Option Cleanup) :=
  match c.stage with
  | .detach =>
      some ({ s with watched := Function.update s.watched c.fd false },
        some { c with stage := .close })
  | .close =>
      some ({ s with
        table := Function.update s.table c.fd none
        watched := Function.update s.watched c.fd false },
        some { c with stage := .lock })
  | .lock =>
      if s.clientsMtx = none then
        some ({ s with clientsMtx := some me }, some { c with stage := .remove })
      else none
  | .remove =>
      some ({ s with
        clients := removeClient (·.fd = c.fd) s.clients
        clientsMtx := none }, none)

inductive IoAct
  | epollWait (evs : List Event)
  | accept (fd : Fd)
  | acceptFail
  | watch
  | lock
  | append
  | hup
  | read (bytes : List UInt8)
  | eof
  | skip
  | push
  | cleanup
  | endBatch

/-- An event that `epoll_wait` can report. -/
def Reports (s : Server) (cfg : Config) (e : Event) : Prop :=
  e.peer.fd = cfg.listenFd ∨
    (s.watched e.peer.fd = true ∧ e.peer.conn ≠ none ∧ e.peer.conn = s.ownerConn e.peer.fd)

instance (s : Server) (cfg : Config) (e : Event) : Decidable (s.Reports cfg e) := by
  unfold Reports
  infer_instance

def ioNext (cfg : Config) (s : Server) : IoAct → Option Server
  | .epollWait evs =>
      match s.io with
      | .waiting =>
          if (∀ e ∈ evs, s.Reports cfg e) ∧ (evs.map (·.peer.fd)).Nodup ∧ evs.length ≤ 64 then
            some { s with io := .batch evs }
          else none
      | _ => none
  | .accept fd =>
      match s.io with
      | .batch (e :: evs) =>
          if e.peer.fd = cfg.listenFd ∧ 0 ≤ fd ∧ s.table fd = none then
            some { s with
              table := Function.update s.table fd (some (.conn s.nextConn))
              nextConn := s.nextConn + 1
              io := .accepted { fd := fd, conn := some s.nextConn } evs }
          else none
      | _ => none
  | .acceptFail =>
      match s.io with
      | .batch (e :: evs) =>
          if e.peer.fd = cfg.listenFd then
            some { s with io := .accepted { fd := -1, conn := none } evs }
          else none
      | _ => none
  | .watch =>
      match s.io with
      | .accepted p evs =>
          some { s with
            watched := if s.table p.fd = none then s.watched
              else Function.update s.watched p.fd true
            io := .registering p evs }
      | _ => none
  | .lock =>
      match s.io with
      | .registering p evs =>
          if s.clientsMtx = none then
            some { s with
              clientsMtx := some .io
              io := .appending p evs }
          else none
      | _ => none
  | .append =>
      match s.io with
      | .appending p evs =>
          some { s with
            clients := s.clients ++ [p]
            clientsMtx := none
            io := .batch evs }
      | _ => none
  | .hup =>
      match s.io with
      | .batch (e :: evs) =>
          if e.peer.fd ≠ cfg.listenFd ∧ e.hup = true then
            some { s with
              io := .cleanup { stage := .detach, fd := e.peer.fd, cause := e.peer.conn } evs }
          else none
      | _ => none
  | .read bytes =>
      match s.io with
      | .batch (e :: evs) =>
          if e.peer.fd ≠ cfg.listenFd ∧ e.hup = false ∧ e.readable = true ∧
              s.table e.peer.fd ≠ none ∧ bytes ≠ [] ∧ bytes.length ≤ maxMessage then
            some { s with
              io := .pushing {
                peer := { fd := e.peer.fd, conn := s.ownerConn e.peer.fd }
                data := bytes } evs }
          else none
      | _ => none
  | .eof =>
      match s.io with
      | .batch (e :: evs) =>
          if e.peer.fd ≠ cfg.listenFd ∧ e.hup = false ∧ e.readable = true then
            some { s with
              io := .cleanup {
                stage := .detach
                fd := e.peer.fd
                cause := s.ownerConn e.peer.fd } evs }
          else none
      | _ => none
  | .skip =>
      match s.io with
      | .batch (e :: evs) =>
          if e.peer.fd ≠ cfg.listenFd ∧ e.hup = false ∧ e.readable = false then
            some { s with io := .batch evs }
          else none
      | _ => none
  | .push =>
      match s.io with
      | .pushing m evs =>
          if s.recvQ.length < cfg.cap then
            some { s with
              recvQ := s.recvQ ++ [m]
              io := .batch evs }
          else none
      | _ => none
  | .cleanup =>
      match s.io with
      | .cleanup c evs =>
          (s.cleanupNext .io c).map fun r =>
            match r.2 with
            | some c' => { r.1 with io := .cleanup c' evs }
            | none => { r.1 with io := .batch evs }
      | _ => none
  | .endBatch =>
      match s.io with
      | .batch [] => some { s with io := .waiting }
      | _ => none

inductive SendAct
  | pop
  | sendOk (n : Nat)
  | sendFail
  | cleanup

def sendNext (s : Server) : SendAct → Option Server
  | .pop =>
      match s.send, s.sendQ with
      | .popping, m :: rest =>
          some { s with
            sendQ := rest
            send := .sending m }
      | _, _ => none
  | .sendOk n =>
      match s.send with
      | .sending m =>
          if s.ownerConn m.peer.fd ≠ none ∧ 0 < n ∧ n ≤ m.data.length then
            some { s with send := .popping }
          else none
      | _ => none
  | .sendFail =>
      match s.send with
      | .sending m =>
          some { s with
            send := .cleanup {
              stage := .detach
              fd := m.peer.fd
              cause := s.ownerConn m.peer.fd } }
      | _ => none
  | .cleanup =>
      match s.send with
      | .cleanup c =>
          (s.cleanupNext .send c).map fun r =>
            match r.2 with
            | some c' => { r.1 with send := .cleanup c' }
            | none => { r.1 with send := .popping }
      | _ => none

inductive CallAct
  | send (p : Peer) (data : List UInt8)
  | broadcast (data : List UInt8)
  | getClients
  | pendingOp (op : PendingOp)
  | push
  | lockClients
  | broadcastPush
  | broadcastEnd
  | listEnd
  | lockPending
  | runPending

/-- Caller `k` moves to `p`. -/
def callerAt (s : Server) (k : Nat) (p : CallerPc) : Server :=
  { s with caller := Function.update s.caller k p }

@[simp] theorem callerAt_caller (s : Server) (k : Nat) (p : CallerPc) :
    (s.callerAt k p).caller k = p := by
  simp only [callerAt, Function.update_self]

@[simp] theorem callerAt_sendQ (s : Server) (k : Nat) (p : CallerPc) :
    (s.callerAt k p).sendQ = s.sendQ := rfl

/-- The numbers that a pending operation is given are held by its caller. -/
def Allowed (s : Server) : PendingOp → Prop
  | .add p _ _ _ => p ∈ s.handles
  | .ack _ _ => True

instance (s : Server) (op : PendingOp) : Decidable (s.Allowed op) := by
  cases op <;> unfold Allowed <;> infer_instance

/-- The critical section of a pending operation. -/
def runOp (s : Server) : PendingOp → Server
  | .add p str bincount now =>
      { s with
        pending :=
          addPending (newPending s.fresh p.fd str (toUnsigned bincount) now) s.pending
        fresh := s.fresh + 1
        origin := Function.update s.origin s.fresh p.conn }
  | .ack fd bincount => { s with pending := ackFirst fd bincount s.pending }

def callNext (cfg : Config) (s : Server) (k : Nat) : CallAct → Option Server
  | .send p data =>
      match s.caller k with
      | .idle =>
          if p ∈ s.handles then some (s.callerAt k (.pushing { peer := p, data := data }))
          else none
      | _ => none
  | .broadcast data =>
      match s.caller k with
      | .idle => some (s.callerAt k (.broadcastLock data))
      | _ => none
  | .getClients =>
      match s.caller k with
      | .idle => some (s.callerAt k .listLock)
      | _ => none
  | .pendingOp op =>
      match s.caller k with
      | .idle => if s.Allowed op then some (s.callerAt k (.pendingLock op)) else none
      | _ => none
  | .push =>
      match s.caller k with
      | .pushing m =>
          if s.sendQ.length < cfg.cap then
            some { s.callerAt k .idle with sendQ := s.sendQ ++ [m] }
          else none
      | _ => none
  | .lockClients =>
      match s.caller k with
      | .broadcastLock data =>
          if s.clientsMtx = none then
            some { s.callerAt k (.broadcasting data 0) with clientsMtx := some (.caller k) }
          else none
      | .listLock =>
          if s.clientsMtx = none then
            some { s.callerAt k .listing with clientsMtx := some (.caller k) }
          else none
      | _ => none
  | .broadcastPush =>
      match s.caller k with
      | .broadcasting data i =>
          match s.clients[i]? with
          | some p =>
              if s.sendQ.length < cfg.cap then
                some { s.callerAt k (.broadcasting data (i + 1)) with
                  sendQ := s.sendQ ++ [{ peer := p, data := data }] }
              else none
          | none => none
      | _ => none
  | .broadcastEnd =>
      match s.caller k with
      | .broadcasting _ i =>
          if s.clients.length ≤ i then some { s.callerAt k .idle with clientsMtx := none }
          else none
      | _ => none
  | .listEnd =>
      match s.caller k with
      | .listing =>
          some { s.callerAt k .idle with
            handles := s.handles ++ s.clients
            clientsMtx := none }
      | _ => none
  | .lockPending =>
      match s.caller k with
      | .pendingLock op =>
          if s.pendingMtx = none then
            some { s.callerAt k (.pendingHeld op) with pendingMtx := some (.caller k) }
          else none
      | _ => none
  | .runPending =>
      match s.caller k with
      | .pendingHeld op => some { (s.runOp op).callerAt k .idle with pendingMtx := none }
      | _ => none

inductive AckAct
  | start (now : Int)
  | lock
  | visit
  | finish

/-- The message that `ack_manager` sends for a node. -/
def resendMsg (s : Server) (p : PendingAck) : Msg where
  peer := { fd := p.clientFd, conn := s.origin p.node }
  data := p.msg

def ackNext (cfg : Config) (s : Server) : AckAct → Option Server
  | .start now =>
      match s.ack with
      | .sleeping => some { s with ack := .locking now }
      | _ => none
  | .lock =>
      match s.ack with
      | .locking now =>
          if s.pendingMtx = none then
            some { s with
              pendingMtx := some .ack
              ack := .sweeping now 0 }
          else none
      | _ => none
  | .visit =>
      match s.ack with
      | .sweeping now pos =>
          match s.pending[pos]? with
          | some p =>
              if p.closed then some { s with pending := s.pending.eraseIdx pos }
              else if p.due now then
                if s.sendQ.length < cfg.cap then
                  some { s with
                    sendQ := s.sendQ ++ [s.resendMsg p]
                    pending := s.pending.set pos (p.resent now)
                    ack := .sweeping now (pos + 1) }
                else none
              else some { s with ack := .sweeping now (pos + 1) }
          | none => none
      | _ => none
  | .finish =>
      match s.ack with
      | .sweeping _ pos =>
          if s.pending.length ≤ pos then
            some { s with
              pendingMtx := none
              ack := .sleeping }
          else none
      | _ => none

inductive EnvAct
  | takeRequest
  | forget (p : Peer)
  | openFile (fd : Fd)
  | closeFile (fd : Fd)

/-- `worker_loop` takes a message and keeps its client's number for the
handlers; a holder of a number drops it; the process opens and closes files. -/
def envNext (cfg : Config) (s : Server) : EnvAct → Option Server
  | .takeRequest =>
      match s.recvQ with
      | m :: rest =>
          some { s with
            recvQ := rest
            handles := s.handles ++ [m.peer] }
      | [] => none
  | .forget p => some { s with handles := s.handles.erase p }
  | .openFile fd =>
      if 0 ≤ fd ∧ s.table fd = none then
        some { s with table := Function.update s.table fd (some .other) }
      else none
  | .closeFile fd =>
      if fd ≠ cfg.listenFd ∧ s.table fd = some .other then
        some { s with table := Function.update s.table fd none }
      else none

inductive Action
  | io (a : IoAct)
  | send (a : SendAct)
  | call (k : Nat) (a : CallAct)
  | ack (a : AckAct)
  | env (a : EnvAct)

def next (cfg : Config) (s : Server) : Action → Option Server
  | .io a => s.ioNext cfg a
  | .send a => s.sendNext a
  | .call k a => s.callNext cfg k a
  | .ack a => s.ackNext cfg a
  | .env a => s.envNext cfg a

/-- The server that `SgTcpServer_start` leaves, with the files open so far. -/
def start (table : Fd → Option Owner) : Server where
  table := table
  watched _ := false
  nextConn := 0
  clients := []
  clientsMtx := none
  pending := []
  pendingMtx := none
  fresh := 0
  origin _ := none
  sendQ := []
  recvQ := []
  handles := []
  io := .waiting
  send := .popping
  ack := .sleeping
  caller _ := .idle

def system (cfg : Config) : Transition.System Server Action where
  init s := ∃ table : Fd → Option Owner, (∀ fd c, table fd ≠ some (.conn c)) ∧ s = start table
  next := next cfg

/-- The table of a process whose open files have the numbers below `n`. -/
def openFiles (n : Int) (fd : Fd) : Option Owner :=
  if 0 ≤ fd ∧ fd < n then some .other else none

theorem init_openFiles (cfg : Config) (n : Int) : (system cfg).init (start (openFiles n)) := by
  refine ⟨openFiles n, fun fd c => ?_, rfl⟩
  unfold openFiles
  split <;> simp

/-- The first connection is accepted and listed by caller 0. -/
def listedClient : List Action :=
  [.io (.epollWait [{ peer := { fd := 3, conn := none }, hup := false, readable := true }]),
    .io (.accept 6), .io .watch, .io .lock, .io .append,
    .call 0 .getClients, .call 0 .lockClients, .call 0 .listEnd]

/-- A second connection is accepted. -/
def twoClients : List Action :=
  listedClient ++
    [.io .endBatch,
      .io (.epollWait [{ peer := { fd := 3, conn := none }, hup := false, readable := true }]),
      .io (.accept 7), .io .watch, .io .lock, .io .append]

end Server

end SgMuni
