import SgMuni.Lift.Message
import SgMuni.Pending.List
import SgMuni.Tcp.Registry
import SgMuni.Transition.System
import Mathlib.Logic.Function.Basic

/-!
# The threads that announce and acknowledge counts

`sg-comm.c` while the server runs: `gpio_change_callback` on a bin lift,
`bin_query_handler`, `bin_clr_handler`, `bin_ack_handler` and `ack_manager`,
each a thread of its own, over the shared `bincount`, its file, the registry,
`send_q` and the pending list. A step is a lock, an unlock or a queue operation
with the assignments up to the next one; what a thread does to `bincount`
outside of `bincount_mutex` is a step of its own.

## Implementation notes

`sections` counts the critical sections under `bincount_mutex`, and the number
of its section identifies an announcement; `number` is what it announces. The
first transmissions are listed in `announced` in the order in which they entered
`send_q`, the others in `resent`; `event` maps a node of the pending list to its
announcement, and `answered` lists the announcements whose acknowledgement was
processed. All of these are history that no step of the code reads.
-/

namespace SgMuni

/-- The threads that lock the mutexes. -/
inductive Handler
  | gpio
  | clr
  | query
  | ack
  | manager
deriving DecidableEq

/-- A text that announces a count; `seq` numbers the sections under
`bincount_mutex`. -/
structure Announcement where
  seq : Nat
  number : Int
  text : List UInt8
deriving DecidableEq

/-- The arguments and the clock reading of one call of `add_pending`. -/
structure AddCall where
  fd : Fd
  bincount : Int
  now : Int
deriving DecidableEq

/-- Positions in `gpio_change_callback`; `clist` is the rest of the client list. -/
inductive GpioPc
  | idle
  | counting
  | broadcastLock (a : Announcement)
  | broadcasting (a : Announcement) (i : Nat)
  | listLock (a : Announcement)
  | listing (a : Announcement)
  | adding (a : Announcement) (clist : List Fd)
  | pendingLock (a : Announcement) (call : AddCall) (clist : List Fd)
  | pendingHeld (a : Announcement) (call : AddCall) (clist : List Fd)
deriving DecidableEq

/-- Positions in `bin_clr_handler`. -/
inductive ClrPc
  | idle
  | zeroing
  | writing
  | reading
  | broadcastLock (a : Announcement)
  | broadcasting (a : Announcement) (i : Nat)
deriving DecidableEq

/-- Positions in `bin_query_handler`. -/
inductive QueryPc
  | idle
  | reading (fd : Fd)
  | pushing (a : Announcement) (fd : Fd)
deriving DecidableEq

/-- A task of `bin_ack_handler`, with the announcement that the client answers. -/
structure AckTask where
  fd : Fd
  bincount : Int
  answers : Option Nat
deriving DecidableEq

/-- Positions in `bin_ack_handler`. -/
inductive AckHandlerPc
  | idle
  | locking (task : AckTask)
  | searching (task : AckTask)
deriving DecidableEq

/-- Positions in `ack_manager`; `pos` counts the nodes before `*pp`. -/
inductive ManagerPc
  | sleeping
  | locking (now : Int)
  | sweeping (now : Int) (pos : Nat)
deriving DecidableEq

structure Comm where
  bincount : Int
  file : Option Int
  bincountMtx : Option Handler
  sections : Nat
  number : Nat → Int
  clients : List Fd
  clientsMtx : Option Handler
  sendQ : List (Fd × List UInt8)
  announced : List (Fd × Announcement)
  resent : List (Fd × Nat)
  pending : List PendingAck
  pendingMtx : Option Handler
  fresh : Nat
  event : Nat → Nat
  answered : List (Fd × Nat)
  gpio : GpioPc
  clr : ClrPc
  query : QueryPc
  ack : AckHandlerPc
  manager : ManagerPc

namespace Comm

/-- The capacity of `send_q` and the serial number of the unit. -/
structure Config where
  cap : Nat
  esn : List UInt8

/-- `write_bincount_to_file`: a failed call leaves the file as it is. -/
def writeBincountToFile (s : Comm) (value : Int) (ok : Bool) : Option Int :=
  if ok then some value else s.file

/-- `read_bincount_from_file` with `&bincount`: a failed call leaves it as it is. -/
def readBincountFromFile (s : Comm) (ok : Bool) : Int :=
  match s.file with
  | some value => if ok then value else s.bincount
  | none => s.bincount

/-- `SgTcpServer_send` of an announcement. -/
def announce (s : Comm) (fd : Fd) (a : Announcement) : Comm :=
  { s with
    sendQ := s.sendQ ++ [(fd, a.text)]
    announced := s.announced ++ [(fd, a)] }

inductive GpioAct
  | lift
  | count (written : Bool)
  | lockClients
  | push
  | broadcastEnd
  | list (ok : Bool)
  | call (now : Int)
  | lockPending
  | add
  | done

def gpioNext (cfg : Config) (s : Comm) : GpioAct → Option Comm
  | .lift =>
      match s.gpio with
      | .idle =>
          if s.bincountMtx = none then
            some { s with
              bincountMtx := some .gpio
              gpio := .counting }
          else none
      | _ => none
  | .count written =>
      match s.gpio with
      | .counting =>
          let number := C.wrap (s.bincount + 1)
          some { s with
            bincount := number
            file := s.writeBincountToFile number written
            bincountMtx := none
            sections := s.sections + 1
            number := Function.update s.number s.sections number
            gpio := .broadcastLock {
              seq := s.sections
              number := number
              text := assembleBinliftMessage number cfg.esn } }
      | _ => none
  | .lockClients =>
      match s.gpio with
      | .broadcastLock a =>
          if s.clientsMtx = none then
            some { s with
              clientsMtx := some .gpio
              gpio := .broadcasting a 0 }
          else none
      | .listLock a =>
          if s.clientsMtx = none then
            some { s with
              clientsMtx := some .gpio
              gpio := .listing a }
          else none
      | _ => none
  | .push =>
      match s.gpio with
      | .broadcasting a i =>
          match s.clients[i]? with
          | some fd =>
              if s.sendQ.length < cfg.cap then
                some { s.announce fd a with gpio := .broadcasting a (i + 1) }
              else none
          | none => none
      | _ => none
  | .broadcastEnd =>
      match s.gpio with
      | .broadcasting a i =>
          if s.clients.length ≤ i then
            some { s with
              clientsMtx := none
              gpio := .listLock a }
          else none
      | _ => none
  | .list ok =>
      match s.gpio with
      | .listing a =>
          some { s with
            clientsMtx := none
            gpio := if ok then .adding a s.clients else .idle }
      | _ => none
  | .call now =>
      match s.gpio with
      | .adding a (fd :: clist) =>
          some { s with
            gpio := .pendingLock a { fd := fd, bincount := s.bincount, now := now } clist }
      | _ => none
  | .lockPending =>
      match s.gpio with
      | .pendingLock a call clist =>
          if s.pendingMtx = none then
            some { s with
              pendingMtx := some .gpio
              gpio := .pendingHeld a call clist }
          else none
      | _ => none
  | .add =>
      match s.gpio with
      | .pendingHeld a call clist =>
          some { s with
            pending :=
              addPending
                (newPending s.fresh call.fd a.text (toUnsigned call.bincount) call.now) s.pending
            fresh := s.fresh + 1
            event := Function.update s.event s.fresh a.seq
            pendingMtx := none
            gpio := .adding a clist }
      | _ => none
  | .done =>
      match s.gpio with
      | .adding _ [] => some { s with gpio := .idle }
      | _ => none

inductive ClrAct
  | task
  | zero
  | write (ok : Bool)
  | read (ok : Bool)
  | lockClients
  | push
  | broadcastEnd

def clrNext (cfg : Config) (s : Comm) : ClrAct → Option Comm
  | .task =>
      match s.clr with
      | .idle =>
          if s.bincountMtx = none then
            some { s with
              bincountMtx := some .clr
              clr := .zeroing }
          else none
      | _ => none
  | .zero =>
      match s.clr with
      | .zeroing =>
          some { s with
            bincount := 0
            clr := .writing }
      | _ => none
  | .write ok =>
      match s.clr with
      | .writing =>
          some { s with
            file := s.writeBincountToFile s.bincount ok
            clr := .reading }
      | _ => none
  | .read ok =>
      match s.clr with
      | .reading =>
          let number := s.readBincountFromFile ok
          some { s with
            bincount := number
            bincountMtx := none
            sections := s.sections + 1
            number := Function.update s.number s.sections number
            clr := .broadcastLock {
              seq := s.sections
              number := number
              text := binText number } }
      | _ => none
  | .lockClients =>
      match s.clr with
      | .broadcastLock a =>
          if s.clientsMtx = none then
            some { s with
              clientsMtx := some .clr
              clr := .broadcasting a 0 }
          else none
      | _ => none
  | .push =>
      match s.clr with
      | .broadcasting a i =>
          match s.clients[i]? with
          | some fd =>
              if s.sendQ.length < cfg.cap then
                some { s.announce fd a with clr := .broadcasting a (i + 1) }
              else none
          | none => none
      | _ => none
  | .broadcastEnd =>
      match s.clr with
      | .broadcasting _ i =>
          if s.clients.length ≤ i then
            some { s with
              clientsMtx := none
              clr := .idle }
          else none
      | _ => none

inductive QueryAct
  | task (fd : Fd)
  | read
  | push

def queryNext (cfg : Config) (s : Comm) : QueryAct → Option Comm
  | .task fd =>
      match s.query with
      | .idle =>
          if s.bincountMtx = none then
            some { s with
              bincountMtx := some .query
              query := .reading fd }
          else none
      | _ => none
  | .read =>
      match s.query with
      | .reading fd =>
          some { s with
            bincountMtx := none
            sections := s.sections + 1
            number := Function.update s.number s.sections s.bincount
            query := .pushing {
              seq := s.sections
              number := s.bincount
              text := binText s.bincount } fd }
      | _ => none
  | .push =>
      match s.query with
      | .pushing a fd =>
          if s.sendQ.length < cfg.cap then some { s.announce fd a with query := .idle }
          else none
      | _ => none

inductive AckAct
  | task (task : AckTask)
  | lock
  | search

/-- A client answers what was sent to it, with the number in the text. -/
def Answers (s : Comm) (task : AckTask) : Prop :=
  ∀ seq ∈ task.answers, s.number seq = task.bincount ∧
    ((task.fd, seq) ∈ s.announced.map (fun x => (x.1, x.2.seq)) ∨ (task.fd, seq) ∈ s.resent)

instance (s : Comm) (task : AckTask) : Decidable (s.Answers task) := by
  unfold Answers
  infer_instance

def ackNext (s : Comm) : AckAct → Option Comm
  | .task task =>
      match s.ack with
      | .idle => if s.Answers task then some { s with ack := .locking task } else none
      | _ => none
  | .lock =>
      match s.ack with
      | .locking task =>
          if s.pendingMtx = none then
            some { s with
              pendingMtx := some .ack
              ack := .searching task }
          else none
      | _ => none
  | .search =>
      match s.ack with
      | .searching task =>
          some { s with
            pending := ackFirst task.fd task.bincount s.pending
            pendingMtx := none
            answered := s.answered ++ (task.answers.map fun seq => (task.fd, seq)).toList
            ack := .idle }
      | _ => none

inductive ManagerAct
  | start (now : Int)
  | lock
  | visit
  | finish

def managerNext (cfg : Config) (s : Comm) : ManagerAct → Option Comm
  | .start now =>
      match s.manager with
      | .sleeping => some { s with manager := .locking now }
      | _ => none
  | .lock =>
      match s.manager with
      | .locking now =>
          if s.pendingMtx = none then
            some { s with
              pendingMtx := some .manager
              manager := .sweeping now 0 }
          else none
      | _ => none
  | .visit =>
      match s.manager with
      | .sweeping now pos =>
          match s.pending[pos]? with
          | some p =>
              if p.closed then some { s with pending := s.pending.eraseIdx pos }
              else if p.due now then
                if s.sendQ.length < cfg.cap then
                  some { s with
                    sendQ := s.sendQ ++ [(p.clientFd, p.msg)]
                    resent := s.resent ++ [(p.clientFd, s.event p.node)]
                    pending := s.pending.set pos (p.resent now)
                    manager := .sweeping now (pos + 1) }
                else none
              else some { s with manager := .sweeping now (pos + 1) }
          | none => none
      | _ => none
  | .finish =>
      match s.manager with
      | .sweeping _ pos =>
          if s.pending.length ≤ pos then
            some { s with
              pendingMtx := none
              manager := .sleeping }
          else none
      | _ => none

/-- The TCP threads: `send_loop` takes a message, `io_loop` registers a client,
`cleanup_connection` removes one. -/
inductive TcpAct
  | pop
  | register (fd : Fd)
  | remove (fd : Fd)

def tcpNext (s : Comm) : TcpAct → Option Comm
  | .pop =>
      match s.sendQ with
      | _ :: rest => some { s with sendQ := rest }
      | [] => none
  | .register fd =>
      if s.clientsMtx = none then some { s with clients := s.clients ++ [fd] } else none
  | .remove fd =>
      if s.clientsMtx = none then some { s with clients := removeClient (· = fd) s.clients }
      else none

inductive Action
  | gpio (a : GpioAct)
  | clr (a : ClrAct)
  | query (a : QueryAct)
  | ack (a : AckAct)
  | manager (a : ManagerAct)
  | tcp (a : TcpAct)

def next (cfg : Config) (s : Comm) : Action → Option Comm
  | .gpio a => s.gpioNext cfg a
  | .clr a => s.clrNext cfg a
  | .query a => s.queryNext cfg a
  | .ack a => s.ackNext a
  | .manager a => s.managerNext cfg a
  | .tcp a => s.tcpNext a

/-- The state that `start_sg_server` leaves. -/
def start (bincount : Int) (file : Option Int) : Comm where
  bincount := bincount
  file := file
  bincountMtx := none
  sections := 0
  number _ := 0
  clients := []
  clientsMtx := none
  sendQ := []
  announced := []
  resent := []
  pending := []
  pendingMtx := none
  fresh := 0
  event _ := 0
  answered := []
  gpio := .idle
  clr := .idle
  query := .idle
  ack := .idle
  manager := .sleeping

def system (cfg : Config) : Transition.System Comm Action where
  init s := ∃ bincount file, s = start bincount file
  next := next cfg

/-- The unit has the serial number 4711 and its queue the capacity 128. -/
def unit4711 : Config := { cap := 128, esn := ascii ['4', '7', '1', '1'] }

/-- The first lift with one client, up to its entry in the pending list. -/
def firstLift : List Action :=
  [.tcp (.register 6), .gpio .lift, .gpio (.count true), .gpio .lockClients, .gpio .push,
    .gpio .broadcastEnd, .gpio .lockClients, .gpio (.list true), .gpio (.call 0),
    .gpio .lockPending, .gpio .add]

end Comm

end SgMuni
