import SgMuni.Tcp.Server

/-!
# The moves of the server's threads

What each thread can do from where it is, read off its step function once, and
the part of the state that its moves leave alone.
-/

namespace SgMuni

/-- Where `io_loop` goes on after a step of `cleanup_connection`. -/
def IoPc.resume (evs : List Event) : Option Cleanup → IoPc
  | some c => .cleanup c evs
  | none => .batch evs

/-- Where `send_loop` goes on after a step of `cleanup_connection`. -/
def SendPc.resume : Option Cleanup → SendPc
  | some c => .cleanup c
  | none => .popping

namespace Server

variable {cfg : Config} {s s' : Server}

/-- The moves of `cleanup_connection`. -/
inductive CleanupMove (s : Server) (me : Tid) (c : Cleanup) : Server → Option Cleanup → Prop
  | detach (stage : c.stage = .detach) : CleanupMove s me c
      { s with watched := Function.update s.watched c.fd false }
      (some { c with stage := .close })
  | close (stage : c.stage = .close) : CleanupMove s me c
      { s with
        table := Function.update s.table c.fd none
        watched := Function.update s.watched c.fd false }
      (some { c with stage := .lock })
  | lock (stage : c.stage = .lock) (free : s.clientsMtx = none) : CleanupMove s me c
      { s with clientsMtx := some me }
      (some { c with stage := .remove })
  | remove (stage : c.stage = .remove) : CleanupMove s me c
      { s with
        clients := removeClient (·.fd = c.fd) s.clients
        clientsMtx := none }
      none

theorem cleanupNext_move {me : Tid} {c : Cleanup} {t : Server} {c' : Option Cleanup}
    (h : s.cleanupNext me c = some (t, c')) : CleanupMove s me c t c' := by
  simp only [cleanupNext] at h
  split at h
  case h_1 hstage =>
      cases h
      exact .detach hstage
  case h_2 hstage =>
      cases h
      exact .close hstage
  case h_3 hstage =>
      simp only [Option.ite_none_right_eq_some, Option.some.injEq, Prod.mk.injEq] at h
      obtain ⟨hfree, rfl, rfl⟩ := h
      exact .lock hstage hfree
  case h_4 hstage =>
      cases h
      exact .remove hstage

/-- The moves of `io_loop`. -/
inductive IoMove (cfg : Config) (s : Server) : IoAct → Server → Prop
  | epollWait {evs : List Event} (io : s.io = .waiting) (reports : ∀ e ∈ evs, s.Reports cfg e)
      (distinct : (evs.map (·.peer.fd)).Nodup) (size : evs.length ≤ 64) :
      IoMove cfg s (.epollWait evs) { s with io := .batch evs }
  | accept {e : Event} {evs : List Event} {fd : Fd} (io : s.io = .batch (e :: evs))
      (listen : e.peer.fd = cfg.listenFd) (pos : 0 ≤ fd) (free : s.table fd = none) :
      IoMove cfg s (.accept fd)
        { s with
          table := Function.update s.table fd (some (.conn s.nextConn))
          nextConn := s.nextConn + 1
          io := .accepted { fd := fd, conn := some s.nextConn } evs }
  | acceptFail {e : Event} {evs : List Event} (io : s.io = .batch (e :: evs))
      (listen : e.peer.fd = cfg.listenFd) :
      IoMove cfg s .acceptFail { s with io := .accepted { fd := -1, conn := none } evs }
  | watch {p : Peer} {evs : List Event} (io : s.io = .accepted p evs) :
      IoMove cfg s .watch
        { s with
          watched := if s.table p.fd = none then s.watched
            else Function.update s.watched p.fd true
          io := .registering p evs }
  | lock {p : Peer} {evs : List Event} (io : s.io = .registering p evs)
      (free : s.clientsMtx = none) :
      IoMove cfg s .lock
        { s with
          clientsMtx := some .io
          io := .appending p evs }
  | append {p : Peer} {evs : List Event} (io : s.io = .appending p evs) :
      IoMove cfg s .append
        { s with
          clients := s.clients ++ [p]
          clientsMtx := none
          io := .batch evs }
  | hup {e : Event} {evs : List Event} (io : s.io = .batch (e :: evs))
      (guard : e.peer.fd ≠ cfg.listenFd ∧ e.hup = true) :
      IoMove cfg s .hup
        { s with
          io := .cleanup { stage := .detach, fd := e.peer.fd, cause := e.peer.conn } evs }
  | read {e : Event} {evs : List Event} {bytes : List UInt8} (io : s.io = .batch (e :: evs))
      (guard : e.peer.fd ≠ cfg.listenFd ∧ e.hup = false ∧ e.readable = true)
      (isOpen : s.table e.peer.fd ≠ none) (nonempty : bytes ≠ [])
      (fits : bytes.length ≤ maxMessage) :
      IoMove cfg s (.read bytes)
        { s with
          io := .pushing {
            peer := { fd := e.peer.fd, conn := s.ownerConn e.peer.fd }
            data := bytes } evs }
  | eof {e : Event} {evs : List Event} (io : s.io = .batch (e :: evs))
      (guard : e.peer.fd ≠ cfg.listenFd ∧ e.hup = false ∧ e.readable = true) :
      IoMove cfg s .eof
        { s with
          io := .cleanup {
            stage := .detach
            fd := e.peer.fd
            cause := s.ownerConn e.peer.fd } evs }
  | skip {e : Event} {evs : List Event} (io : s.io = .batch (e :: evs))
      (guard : e.peer.fd ≠ cfg.listenFd ∧ e.hup = false ∧ e.readable = false) :
      IoMove cfg s .skip { s with io := .batch evs }
  | push {m : Msg} {evs : List Event} (io : s.io = .pushing m evs)
      (room : s.recvQ.length < cfg.cap) :
      IoMove cfg s .push
        { s with
          recvQ := s.recvQ ++ [m]
          io := .batch evs }
  | cleanup {c : Cleanup} {evs : List Event} {t : Server} {c' : Option Cleanup}
      (io : s.io = .cleanup c evs) (move : CleanupMove s .io c t c') :
      IoMove cfg s .cleanup { t with io := .resume evs c' }
  | endBatch (io : s.io = .batch []) : IoMove cfg s .endBatch { s with io := .waiting }

/-- The moves of `send_loop`. -/
inductive SendMove (s : Server) : SendAct → Server → Prop
  | pop {m : Msg} {rest : List Msg} (send : s.send = .popping) (sendQ : s.sendQ = m :: rest) :
      SendMove s .pop
        { s with
          sendQ := rest
          send := .sending m }
  | sendOk {m : Msg} {n : Nat} (send : s.send = .sending m)
      (owner : s.ownerConn m.peer.fd ≠ none) (pos : 0 < n) (le : n ≤ m.data.length) :
      SendMove s (.sendOk n) { s with send := .popping }
  | sendFail {m : Msg} (send : s.send = .sending m) :
      SendMove s .sendFail
        { s with
          send := .cleanup {
            stage := .detach
            fd := m.peer.fd
            cause := s.ownerConn m.peer.fd } }
  | cleanup {c : Cleanup} {t : Server} {c' : Option Cleanup} (send : s.send = .cleanup c)
      (move : CleanupMove s .send c t c') :
      SendMove s .cleanup { t with send := .resume c' }

/-- The moves of caller `k`. -/
inductive CallMove (cfg : Config) (s : Server) (k : Nat) : CallAct → Server → Prop
  | send {p : Peer} {data : List UInt8} (caller : s.caller k = .idle) (handle : p ∈ s.handles) :
      CallMove cfg s k (.send p data) (s.callerAt k (.pushing { peer := p, data := data }))
  | broadcast {data : List UInt8} (caller : s.caller k = .idle) :
      CallMove cfg s k (.broadcast data) (s.callerAt k (.broadcastLock data))
  | getClients (caller : s.caller k = .idle) :
      CallMove cfg s k .getClients (s.callerAt k .listLock)
  | pendingOp {op : PendingOp} (caller : s.caller k = .idle) (allowed : s.Allowed op) :
      CallMove cfg s k (.pendingOp op) (s.callerAt k (.pendingLock op))
  | push {m : Msg} (caller : s.caller k = .pushing m) (room : s.sendQ.length < cfg.cap) :
      CallMove cfg s k .push { s.callerAt k .idle with sendQ := s.sendQ ++ [m] }
  | lockBroadcast {data : List UInt8} (caller : s.caller k = .broadcastLock data)
      (free : s.clientsMtx = none) :
      CallMove cfg s k .lockClients
        { s.callerAt k (.broadcasting data 0) with clientsMtx := some (.caller k) }
  | lockList (caller : s.caller k = .listLock) (free : s.clientsMtx = none) :
      CallMove cfg s k .lockClients
        { s.callerAt k .listing with clientsMtx := some (.caller k) }
  | broadcastPush {data : List UInt8} {i : Nat} {p : Peer}
      (caller : s.caller k = .broadcasting data i) (client : s.clients[i]? = some p)
      (room : s.sendQ.length < cfg.cap) :
      CallMove cfg s k .broadcastPush
        { s.callerAt k (.broadcasting data (i + 1)) with
          sendQ := s.sendQ ++ [{ peer := p, data := data }] }
  | broadcastEnd {data : List UInt8} {i : Nat} (caller : s.caller k = .broadcasting data i)
      (last : s.clients.length ≤ i) :
      CallMove cfg s k .broadcastEnd { s.callerAt k .idle with clientsMtx := none }
  | listEnd (caller : s.caller k = .listing) :
      CallMove cfg s k .listEnd
        { s.callerAt k .idle with
          handles := s.handles ++ s.clients
          clientsMtx := none }
  | lockPending {op : PendingOp} (caller : s.caller k = .pendingLock op)
      (free : s.pendingMtx = none) :
      CallMove cfg s k .lockPending
        { s.callerAt k (.pendingHeld op) with pendingMtx := some (.caller k) }
  | runAdd {p : Peer} {str : List UInt8} {bincount now : Int}
      (caller : s.caller k = .pendingHeld (.add p str bincount now)) :
      CallMove cfg s k .runPending
        { s.callerAt k .idle with
          pending :=
            addPending (newPending s.fresh p.fd str (toUnsigned bincount) now) s.pending
          fresh := s.fresh + 1
          origin := Function.update s.origin s.fresh p.conn
          pendingMtx := none }
  | runAck {fd : Fd} {bincount : Int} (caller : s.caller k = .pendingHeld (.ack fd bincount)) :
      CallMove cfg s k .runPending
        { s.callerAt k .idle with
          pending := ackFirst fd bincount s.pending
          pendingMtx := none }

/-- The moves of `ack_manager`. -/
inductive AckMove (cfg : Config) (s : Server) : AckAct → Server → Prop
  | start {now : Int} (ack : s.ack = .sleeping) :
      AckMove cfg s (.start now) { s with ack := .locking now }
  | lock {now : Int} (ack : s.ack = .locking now) (free : s.pendingMtx = none) :
      AckMove cfg s .lock
        { s with
          pendingMtx := some .ack
          ack := .sweeping now 0 }
  | delete {now : Int} {pos : Nat} {p : PendingAck} (ack : s.ack = .sweeping now pos)
      (node : s.pending[pos]? = some p) (closed : p.closed = true) :
      AckMove cfg s .visit { s with pending := s.pending.eraseIdx pos }
  | resend {now : Int} {pos : Nat} {p : PendingAck} (ack : s.ack = .sweeping now pos)
      (node : s.pending[pos]? = some p) (isOpen : p.closed = false) (due : p.due now = true)
      (room : s.sendQ.length < cfg.cap) :
      AckMove cfg s .visit
        { s with
          sendQ := s.sendQ ++ [s.resendMsg p]
          pending := s.pending.set pos (p.resent now)
          ack := .sweeping now (pos + 1) }
  | pass {now : Int} {pos : Nat} {p : PendingAck} (ack : s.ack = .sweeping now pos)
      (node : s.pending[pos]? = some p) (isOpen : p.closed = false) (due : p.due now = false) :
      AckMove cfg s .visit { s with ack := .sweeping now (pos + 1) }
  | finish {now : Int} {pos : Nat} (ack : s.ack = .sweeping now pos)
      (last : s.pending.length ≤ pos) :
      AckMove cfg s .finish
        { s with
          pendingMtx := none
          ack := .sleeping }

/-- The moves of the environment. -/
inductive EnvMove (cfg : Config) (s : Server) : EnvAct → Server → Prop
  | takeRequest {m : Msg} {rest : List Msg} (recvQ : s.recvQ = m :: rest) :
      EnvMove cfg s .takeRequest
        { s with
          recvQ := rest
          handles := s.handles ++ [m.peer] }
  | forget {p : Peer} : EnvMove cfg s (.forget p) { s with handles := s.handles.erase p }
  | openFile {fd : Fd} (pos : 0 ≤ fd) (free : s.table fd = none) :
      EnvMove cfg s (.openFile fd)
        { s with table := Function.update s.table fd (some .other) }
  | closeFile {fd : Fd} (socket : fd ≠ cfg.listenFd) (other : s.table fd = some .other) :
      EnvMove cfg s (.closeFile fd) { s with table := Function.update s.table fd none }

theorem ioNext_move {a : IoAct} (h : s.ioNext cfg a = some s') : IoMove cfg s a s' := by
  cases a with
  | epollWait evs =>
      simp only [ioNext] at h
      split at h <;>
        simp only [Option.ite_none_right_eq_some, Option.some.injEq, reduceCtorEq] at h
      case h_1 hio =>
          obtain ⟨⟨hreports, hdistinct, hsize⟩, rfl⟩ := h
          exact .epollWait hio hreports hdistinct hsize
  | accept fd =>
      simp only [ioNext] at h
      split at h <;>
        simp only [Option.ite_none_right_eq_some, Option.some.injEq, reduceCtorEq] at h
      case h_1 hio =>
          obtain ⟨⟨hlisten, hpos, hfree⟩, rfl⟩ := h
          exact .accept hio hlisten hpos hfree
  | acceptFail =>
      simp only [ioNext] at h
      split at h <;>
        simp only [Option.ite_none_right_eq_some, Option.some.injEq, reduceCtorEq] at h
      case h_1 hio =>
          obtain ⟨hlisten, rfl⟩ := h
          exact .acceptFail hio hlisten
  | watch =>
      simp only [ioNext] at h
      split at h <;> cases h
      case h_1 hio => exact .watch hio
  | lock =>
      simp only [ioNext] at h
      split at h <;>
        simp only [Option.ite_none_right_eq_some, Option.some.injEq, reduceCtorEq] at h
      case h_1 hio =>
          obtain ⟨hfree, rfl⟩ := h
          exact .lock hio hfree
  | append =>
      simp only [ioNext] at h
      split at h <;> cases h
      case h_1 hio => exact .append hio
  | hup =>
      simp only [ioNext] at h
      split at h <;>
        simp only [Option.ite_none_right_eq_some, Option.some.injEq, reduceCtorEq] at h
      case h_1 hio =>
          obtain ⟨hguard, rfl⟩ := h
          exact .hup hio hguard
  | read bytes =>
      simp only [ioNext] at h
      split at h <;>
        simp only [Option.ite_none_right_eq_some, Option.some.injEq, reduceCtorEq] at h
      case h_1 hio =>
          obtain ⟨⟨hfd, hhup, hin, hopen, hne, hle⟩, rfl⟩ := h
          exact .read hio ⟨hfd, hhup, hin⟩ hopen hne hle
  | eof =>
      simp only [ioNext] at h
      split at h <;>
        simp only [Option.ite_none_right_eq_some, Option.some.injEq, reduceCtorEq] at h
      case h_1 hio =>
          obtain ⟨hguard, rfl⟩ := h
          exact .eof hio hguard
  | skip =>
      simp only [ioNext] at h
      split at h <;>
        simp only [Option.ite_none_right_eq_some, Option.some.injEq, reduceCtorEq] at h
      case h_1 hio =>
          obtain ⟨hguard, rfl⟩ := h
          exact .skip hio hguard
  | push =>
      simp only [ioNext] at h
      split at h <;>
        simp only [Option.ite_none_right_eq_some, Option.some.injEq, reduceCtorEq] at h
      case h_1 hio =>
          obtain ⟨hroom, rfl⟩ := h
          exact .push hio hroom
  | cleanup =>
      simp only [ioNext] at h
      split at h <;> try cases h
      case h_1 hio =>
          obtain ⟨⟨t, c'⟩, hr, rfl⟩ := Option.map_eq_some_iff.mp h
          cases c' <;> exact .cleanup hio (cleanupNext_move hr)
  | endBatch =>
      simp only [ioNext] at h
      split at h <;> cases h
      case h_1 hio => exact .endBatch hio

theorem sendNext_move {a : SendAct} (h : s.sendNext a = some s') : SendMove s a s' := by
  cases a with
  | pop =>
      simp only [sendNext] at h
      split at h <;> cases h
      case h_1 hsend hq => exact .pop hsend hq
  | sendOk n =>
      simp only [sendNext] at h
      split at h <;>
        simp only [Option.ite_none_right_eq_some, Option.some.injEq, reduceCtorEq] at h
      case h_1 hsend =>
          obtain ⟨⟨howner, hpos, hle⟩, rfl⟩ := h
          exact .sendOk hsend howner hpos hle
  | sendFail =>
      simp only [sendNext] at h
      split at h <;> cases h
      case h_1 hsend => exact .sendFail hsend
  | cleanup =>
      simp only [sendNext] at h
      split at h <;> try cases h
      case h_1 hsend =>
          obtain ⟨⟨t, c'⟩, hr, rfl⟩ := Option.map_eq_some_iff.mp h
          cases c' <;> exact .cleanup hsend (cleanupNext_move hr)

theorem callNext_move {k : Nat} {a : CallAct} (h : s.callNext cfg k a = some s') :
    CallMove cfg s k a s' := by
  cases a with
  | send p data =>
      simp only [callNext] at h
      split at h <;>
        simp only [Option.ite_none_right_eq_some, Option.some.injEq, reduceCtorEq] at h
      case h_1 hk =>
          obtain ⟨hhandle, rfl⟩ := h
          exact .send hk hhandle
  | broadcast data =>
      simp only [callNext] at h
      split at h <;> cases h
      case h_1 hk => exact .broadcast hk
  | getClients =>
      simp only [callNext] at h
      split at h <;> cases h
      case h_1 hk => exact .getClients hk
  | pendingOp op =>
      simp only [callNext] at h
      split at h <;>
        simp only [Option.ite_none_right_eq_some, Option.some.injEq, reduceCtorEq] at h
      case h_1 hk =>
          obtain ⟨hallowed, rfl⟩ := h
          exact .pendingOp hk hallowed
  | push =>
      simp only [callNext] at h
      split at h <;>
        simp only [Option.ite_none_right_eq_some, Option.some.injEq, reduceCtorEq] at h
      case h_1 hk =>
          obtain ⟨hroom, rfl⟩ := h
          exact .push hk hroom
  | lockClients =>
      simp only [callNext] at h
      split at h <;>
        simp only [Option.ite_none_right_eq_some, Option.some.injEq, reduceCtorEq] at h
      case h_1 hk =>
          obtain ⟨hfree, rfl⟩ := h
          exact .lockBroadcast hk hfree
      case h_2 hk =>
          obtain ⟨hfree, rfl⟩ := h
          exact .lockList hk hfree
  | broadcastPush =>
      simp only [callNext] at h
      split at h <;> try cases h
      case h_1 hk =>
          split at h <;>
            simp only [Option.ite_none_right_eq_some, Option.some.injEq, reduceCtorEq] at h
          case h_1 hclient =>
              obtain ⟨hroom, rfl⟩ := h
              exact .broadcastPush hk hclient hroom
  | broadcastEnd =>
      simp only [callNext] at h
      split at h <;>
        simp only [Option.ite_none_right_eq_some, Option.some.injEq, reduceCtorEq] at h
      case h_1 hk =>
          obtain ⟨hlast, rfl⟩ := h
          exact .broadcastEnd hk hlast
  | listEnd =>
      simp only [callNext] at h
      split at h <;> cases h
      case h_1 hk => exact .listEnd hk
  | lockPending =>
      simp only [callNext] at h
      split at h <;>
        simp only [Option.ite_none_right_eq_some, Option.some.injEq, reduceCtorEq] at h
      case h_1 hk =>
          obtain ⟨hfree, rfl⟩ := h
          exact .lockPending hk hfree
  | runPending =>
      simp only [callNext] at h
      split at h <;> cases h
      case h_1 op hk =>
          cases op with
          | add p str bincount now => exact .runAdd hk
          | ack fd bincount => exact .runAck hk

theorem ackNext_move {a : AckAct} (h : s.ackNext cfg a = some s') : AckMove cfg s a s' := by
  cases a with
  | start now =>
      simp only [ackNext] at h
      split at h <;> cases h
      case h_1 hack => exact .start hack
  | lock =>
      simp only [ackNext] at h
      split at h <;>
        simp only [Option.ite_none_right_eq_some, Option.some.injEq, reduceCtorEq] at h
      case h_1 hack =>
          obtain ⟨hfree, rfl⟩ := h
          exact .lock hack hfree
  | visit =>
      simp only [ackNext] at h
      split at h <;> try cases h
      case h_1 hack =>
          split at h
          case h_1 p hp =>
              split_ifs at h with hclosed hdue hroom <;> cases h
              · exact .delete hack hp hclosed
              · exact .resend hack hp (by simpa using hclosed) hdue hroom
              · exact .pass hack hp (by simpa using hclosed) (by simpa using hdue)
          case h_2 => cases h
  | finish =>
      simp only [ackNext] at h
      split at h <;>
        simp only [Option.ite_none_right_eq_some, Option.some.injEq, reduceCtorEq] at h
      case h_1 hack =>
          obtain ⟨hlast, rfl⟩ := h
          exact .finish hack hlast

theorem envNext_move {a : EnvAct} (h : s.envNext cfg a = some s') : EnvMove cfg s a s' := by
  cases a with
  | takeRequest =>
      simp only [envNext] at h
      split at h <;> cases h
      case h_1 hq => exact .takeRequest hq
  | forget p =>
      cases h
      exact .forget
  | openFile fd =>
      simp only [envNext, Option.ite_none_right_eq_some, Option.some.injEq] at h
      obtain ⟨⟨hpos, hfree⟩, rfl⟩ := h
      exact .openFile hpos hfree
  | closeFile fd =>
      simp only [envNext, Option.ite_none_right_eq_some, Option.some.injEq] at h
      obtain ⟨⟨hsocket, hother⟩, rfl⟩ := h
      exact .closeFile hsocket hother

/-- What a step of `io_loop` leaves alone. -/
structure IoFrame (s s' : Server) : Prop where
  send : s'.send = s.send
  ack : s'.ack = s.ack
  caller : s'.caller = s.caller
  sendQ : s'.sendQ = s.sendQ
  handles : s'.handles = s.handles
  pending : s'.pending = s.pending
  pendingMtx : s'.pendingMtx = s.pendingMtx
  origin : s'.origin = s.origin
  fresh : s'.fresh = s.fresh

/-- What a step of `send_loop` leaves alone. -/
structure SendFrame (s s' : Server) : Prop where
  io : s'.io = s.io
  ack : s'.ack = s.ack
  caller : s'.caller = s.caller
  recvQ : s'.recvQ = s.recvQ
  handles : s'.handles = s.handles
  pending : s'.pending = s.pending
  pendingMtx : s'.pendingMtx = s.pendingMtx
  origin : s'.origin = s.origin
  fresh : s'.fresh = s.fresh

/-- What a step of caller `k` leaves alone. -/
structure CallFrame (k : Nat) (s s' : Server) : Prop where
  io : s'.io = s.io
  send : s'.send = s.send
  ack : s'.ack = s.ack
  caller : ∀ j, j ≠ k → s'.caller j = s.caller j
  table : s'.table = s.table
  clients : s'.clients = s.clients
  recvQ : s'.recvQ = s.recvQ

/-- What a step of `ack_manager` leaves alone. -/
structure AckFrame (s s' : Server) : Prop where
  io : s'.io = s.io
  send : s'.send = s.send
  caller : s'.caller = s.caller
  table : s'.table = s.table
  clients : s'.clients = s.clients
  clientsMtx : s'.clientsMtx = s.clientsMtx
  recvQ : s'.recvQ = s.recvQ
  handles : s'.handles = s.handles
  origin : s'.origin = s.origin
  fresh : s'.fresh = s.fresh

/-- What a step of the environment leaves alone. -/
structure EnvFrame (s s' : Server) : Prop where
  io : s'.io = s.io
  send : s'.send = s.send
  ack : s'.ack = s.ack
  caller : s'.caller = s.caller
  clients : s'.clients = s.clients
  clientsMtx : s'.clientsMtx = s.clientsMtx
  sendQ : s'.sendQ = s.sendQ
  pending : s'.pending = s.pending
  pendingMtx : s'.pendingMtx = s.pendingMtx
  origin : s'.origin = s.origin
  fresh : s'.fresh = s.fresh

theorem IoMove.frame {a : IoAct} (h : IoMove cfg s a s') : IoFrame s s' := by
  cases h with
  | cleanup io move => cases move <;> exact ⟨rfl, rfl, rfl, rfl, rfl, rfl, rfl, rfl, rfl⟩
  | _ => exact ⟨rfl, rfl, rfl, rfl, rfl, rfl, rfl, rfl, rfl⟩

theorem SendMove.frame {a : SendAct} (h : SendMove s a s') : SendFrame s s' := by
  cases h with
  | cleanup send move => cases move <;> exact ⟨rfl, rfl, rfl, rfl, rfl, rfl, rfl, rfl, rfl⟩
  | _ => exact ⟨rfl, rfl, rfl, rfl, rfl, rfl, rfl, rfl, rfl⟩

theorem CallMove.frame {k : Nat} {a : CallAct} (h : CallMove cfg s k a s') :
    CallFrame k s s' := by
  cases h <;> exact ⟨rfl, rfl, rfl, fun j hj => Function.update_of_ne hj _ _, rfl, rfl, rfl⟩

theorem AckMove.frame {a : AckAct} (h : AckMove cfg s a s') : AckFrame s s' := by
  cases h <;> exact ⟨rfl, rfl, rfl, rfl, rfl, rfl, rfl, rfl, rfl, rfl⟩

theorem EnvMove.frame {a : EnvAct} (h : EnvMove cfg s a s') : EnvFrame s s' := by
  cases h <;> exact ⟨rfl, rfl, rfl, rfl, rfl, rfl, rfl, rfl, rfl, rfl, rfl⟩

end Server

end SgMuni
