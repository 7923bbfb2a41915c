import SgMuni.Tcp.Moves

/-!
# Descriptor numbers and connections

`send_q`, the pending list and the handlers keep a client's number after its
connection is closed: `cleanup_connection` clears the registry only, and no
callback is registered with `SgTcpServer_set_on_disconnect`. What is written
reaches the right connection as long as `accept` never returns a number that
the process still holds.
-/

namespace SgMuni

/-- The numbers that `io_loop` works with. -/
def IoPc.peers : IoPc → List Peer
  | .accepted p _ | .registering p _ | .appending p _ => [p]
  | .pushing m _ => [m.peer]
  | _ => []

/-- The number that `send_loop` writes to. -/
def SendPc.peers : SendPc → List Peer
  | .sending m => [m.peer]
  | _ => []

def PendingOp.peers : PendingOp → List Peer
  | .add p _ _ _ => [p]
  | .ack _ _ => []

/-- The numbers that a caller's current call was given. -/
def CallerPc.peers : CallerPc → List Peer
  | .pushing m => [m.peer]
  | .pendingLock op | .pendingHeld op => op.peers
  | _ => []

namespace Server

open Transition

/-- The client for which a node of the pending list was recorded. -/
def recorded (s : Server) (q : PendingAck) : Peer where
  fd := q.clientFd
  conn := s.origin q.node

/-- The process may still use the number of `p` to address a client. -/
inductive Holds (s : Server) (p : Peer) : Prop
  | client (mem : p ∈ s.clients)
  | handle (mem : p ∈ s.handles)
  | queued (m : Msg) (mem : m ∈ s.sendQ) (peer : m.peer = p)
  | received (m : Msg) (mem : m ∈ s.recvQ) (peer : m.peer = p)
  | io (mem : p ∈ s.io.peers)
  | sending (mem : p ∈ s.send.peers)
  | caller (k : Nat) (mem : p ∈ (s.caller k).peers)
  | pending (q : PendingAck) (mem : q ∈ s.pending) (isOpen : q.closed = false)
      (peer : s.recorded q = p)

/-- The number of `p` denotes no other connection than the one of `p`. -/
def Own (s : Server) (p : Peer) : Prop :=
  ∀ c, s.table p.fd = some (.conn c) → p.conn = some c

/-- `accept` returns a number that the process does not hold. -/
def NoReuse (s : Server) : Action → Prop
  | .io (.accept fd) => ∀ p, s.Holds p → p.fd ≠ fd
  | _ => True

/-- What every run keeps: the nodes in the list are older than the next node,
and only proper numbers denote connections. -/
structure Numbered (s : Server) : Prop where
  node : ∀ q ∈ s.pending, q.node < s.fresh
  fd : ∀ fd c, s.table fd = some (.conn c) → 0 ≤ fd

variable {cfg : Config} {s s' : Server} {p : Peer}

theorem table_of_ownerConn {fd : Fd} {c : Conn} (h : s.ownerConn fd = some c) :
    s.table fd = some (.conn c) := by
  unfold ownerConn at h
  split at h <;> cases h
  assumption

theorem own_of_eq_ownerConn (h : p.conn = s.ownerConn p.fd) : s.Own p := by
  intro c hc
  rw [h]
  simp [ownerConn, hc]

theorem CleanupMove.table {me : Tid} {c : Cleanup} {t : Server} {c' : Option Cleanup}
    (h : CleanupMove s me c t c') {fd : Fd} {d : Conn} (hd : t.table fd = some (.conn d)) :
    s.table fd = some (.conn d) := by
  cases h with
  | close stage =>
      by_cases hfd : fd = c.fd
      · simp [hfd] at hd
      · simpa [hfd] using hd
  | _ => exact hd

theorem IoMove.table {a : IoAct} (h : IoMove cfg s a s') {fd : Fd} {c : Conn}
    (hc : s'.table fd = some (.conn c)) :
    s.table fd = some (.conn c) ∨ a = .accept fd ∧ 0 ≤ fd ∧ c = s.nextConn := by
  cases h with
  | @accept e evs new io listen pos free =>
      by_cases hfd : fd = new
      · subst hfd
        have hconn : s.nextConn = c := by simpa using hc
        exact .inr ⟨rfl, pos, hconn.symm⟩
      · exact .inl (by simpa [hfd] using hc)
  | cleanup io move => exact .inl (move.table hc)
  | _ => exact .inl hc

theorem SendMove.table {a : SendAct} (h : SendMove s a s') {fd : Fd} {c : Conn}
    (hc : s'.table fd = some (.conn c)) : s.table fd = some (.conn c) := by
  cases h with
  | cleanup send move => exact move.table hc
  | _ => exact hc

theorem EnvMove.table {a : EnvAct} (h : EnvMove cfg s a s') {fd : Fd} {c : Conn}
    (hc : s'.table fd = some (.conn c)) : s.table fd = some (.conn c) := by
  cases h with
  | @openFile new pos free =>
      by_cases hfd : fd = new
      · simp [hfd] at hc
      · simpa [hfd] using hc
  | @closeFile old socket other =>
      by_cases hfd : fd = old
      · simp [hfd] at hc
      · simpa [hfd] using hc
  | _ => exact hc

/-- A connection that a number denotes after a step was there before, or the
step accepted it as the next one. -/
theorem table_next {a : Action} (h : next cfg s a = some s') {fd : Fd} {c : Conn}
    (hc : s'.table fd = some (.conn c)) :
    s.table fd = some (.conn c) ∨ a = .io (.accept fd) ∧ 0 ≤ fd ∧ c = s.nextConn := by
  cases a with
  | io a =>
      rcases (ioNext_move h).table hc with hold | ⟨rfl, hnew⟩
      · exact .inl hold
      · exact .inr ⟨rfl, hnew⟩
  | send a => exact .inl ((sendNext_move h).table hc)
  | call k a => exact .inl ((callNext_move h).frame.table ▸ hc)
  | ack a => exact .inl ((ackNext_move h).frame.table ▸ hc)
  | env a => exact .inl ((envNext_move h).table hc)

theorem CleanupMove.mem_clients {me : Tid} {c : Cleanup} {t : Server} {c' : Option Cleanup}
    (h : CleanupMove s me c t c') (hp : p ∈ t.clients) : p ∈ s.clients := by
  cases h with
  | remove stage => exact mem_of_mem_removeClient hp
  | _ => exact hp

theorem IoMove.mem_clients {a : IoAct} (h : IoMove cfg s a s') (hp : p ∈ s'.clients) :
    p ∈ s.clients ∨ p ∈ s.io.peers := by
  cases h with
  | append io => simpa [io, IoPc.peers] using hp
  | cleanup io move => exact .inl (move.mem_clients hp)
  | _ => exact .inl hp

theorem IoMove.mem_recvQ {a : IoAct} (h : IoMove cfg s a s') {m : Msg} (hm : m ∈ s'.recvQ) :
    m ∈ s.recvQ ∨ m.peer ∈ s.io.peers := by
  cases h with
  | push io room =>
      rcases List.mem_append.mp hm with hmem | hmem
      · exact .inl hmem
      · cases List.mem_singleton.mp hmem
        exact .inr (by simp [io, IoPc.peers])
  | cleanup io move => cases move <;> exact .inl hm
  | _ => exact .inl hm

/-- The numbers that `accept` and `read` bring into `io_loop` denote their
connection. -/
theorem IoMove.mem_peers {a : IoAct} (hnum : Numbered s) (h : IoMove cfg s a s')
    (hp : p ∈ s'.io.peers) : p ∈ s.io.peers ∨ p.conn = s'.ownerConn p.fd := by
  cases h with
  | accept io listen pos free =>
      cases List.mem_singleton.mp hp
      exact .inr (by simp [ownerConn])
  | acceptFail io listen =>
      cases List.mem_singleton.mp hp
      refine .inr ?_
      cases howner : s.ownerConn (-1) with
      | none => exact howner.symm
      | some c => exact absurd (hnum.fd (-1) c (table_of_ownerConn howner)) (by decide)
  | read io guard isOpen nonempty fits =>
      cases List.mem_singleton.mp hp
      exact .inr rfl
  | @cleanup c evs t c' io move => cases c' <;> simp [IoPc.peers, IoPc.resume] at hp
  | _ => simp_all [IoPc.peers]

/-- `io_loop` moves numbers between its stores and obtains those that denote
their connection. -/
theorem IoMove.holds {a : IoAct} (hnum : Numbered s) (h : IoMove cfg s a s')
    (hp : s'.Holds p) : s.Holds p ∨ p.conn = s'.ownerConn p.fd := by
  cases hp with
  | client mem =>
      rcases h.mem_clients mem with hmem | hmem
      · exact .inl (.client hmem)
      · exact .inl (.io hmem)
  | handle mem => exact .inl (.handle (h.frame.handles ▸ mem))
  | queued m mem peer => exact .inl (.queued m (h.frame.sendQ ▸ mem) peer)
  | received m mem peer =>
      rcases h.mem_recvQ mem with hmem | hmem
      · exact .inl (.received m hmem peer)
      · exact .inl (.io (peer ▸ hmem))
  | io mem =>
      rcases h.mem_peers hnum mem with hmem | hconn
      · exact .inl (.io hmem)
      · exact .inr hconn
  | sending mem => exact .inl (.sending (h.frame.send ▸ mem))
  | caller k mem => exact .inl (.caller k (h.frame.caller ▸ mem))
  | pending q mem isOpen peer =>
      refine .inl (.pending q (h.frame.pending ▸ mem) isOpen ?_)
      rwa [recorded, h.frame.origin] at peer

theorem SendMove.mem_clients {a : SendAct} (h : SendMove s a s') (hp : p ∈ s'.clients) :
    p ∈ s.clients := by
  cases h with
  | cleanup send move => exact move.mem_clients hp
  | _ => exact hp

theorem SendMove.mem_sendQ {a : SendAct} (h : SendMove s a s') {m : Msg} (hm : m ∈ s'.sendQ) :
    m ∈ s.sendQ := by
  cases h with
  | pop send sendQ => exact sendQ ▸ List.mem_cons_of_mem _ hm
  | cleanup send move => cases move <;> exact hm
  | _ => exact hm

/-- `send_loop` takes its messages from `send_q`. -/
theorem SendMove.mem_peers {a : SendAct} (h : SendMove s a s') (hp : p ∈ s'.send.peers) :
    ∃ m ∈ s.sendQ, m.peer = p := by
  cases h with
  | @pop m rest send sendQ =>
      cases List.mem_singleton.mp hp
      exact ⟨m, by simp [sendQ], rfl⟩
  | @cleanup c t c' send move => cases c' <;> simp [SendPc.peers, SendPc.resume] at hp
  | _ => simp [SendPc.peers] at hp

theorem SendMove.holds {a : SendAct} (h : SendMove s a s') (hp : s'.Holds p) : s.Holds p := by
  cases hp with
  | client mem => exact .client (h.mem_clients mem)
  | handle mem => exact .handle (h.frame.handles ▸ mem)
  | queued m mem peer => exact .queued m (h.mem_sendQ mem) peer
  | received m mem peer => exact .received m (h.frame.recvQ ▸ mem) peer
  | io mem => exact .io (h.frame.io ▸ mem)
  | sending mem =>
      obtain ⟨m, hm, hpeer⟩ := h.mem_peers mem
      exact .queued m hm hpeer
  | caller k mem => exact .caller k (h.frame.caller ▸ mem)
  | pending q mem isOpen peer =>
      refine .pending q (h.frame.pending ▸ mem) isOpen ?_
      rwa [recorded, h.frame.origin] at peer

theorem CallMove.mem_handles {k : Nat} {a : CallAct} (h : CallMove cfg s k a s')
    (hp : p ∈ s'.handles) : p ∈ s.handles ∨ p ∈ s.clients := by
  cases h with
  | listEnd caller => exact List.mem_append.mp hp
  | _ => exact .inl hp

theorem CallMove.mem_sendQ {k : Nat} {a : CallAct} (h : CallMove cfg s k a s') {m : Msg}
    (hm : m ∈ s'.sendQ) :
    m ∈ s.sendQ ∨ m.peer ∈ (s.caller k).peers ∨ m.peer ∈ s.clients := by
  cases h with
  | push caller room =>
      rcases List.mem_append.mp hm with hmem | hmem
      · exact .inl hmem
      · cases List.mem_singleton.mp hmem
        exact .inr (.inl (by simp [caller, CallerPc.peers]))
  | broadcastPush caller client room =>
      rcases List.mem_append.mp hm with hmem | hmem
      · exact .inl hmem
      · cases List.mem_singleton.mp hmem
        exact .inr (.inr (List.mem_of_getElem? client))
  | _ => exact .inl hm

/-- A caller works with numbers that it was given. -/
theorem CallMove.mem_peers {k : Nat} {a : CallAct} (h : CallMove cfg s k a s')
    (hp : p ∈ (s'.caller k).peers) : p ∈ (s.caller k).peers ∨ p ∈ s.handles := by
  cases h with
  | send caller handle =>
      simp only [callerAt_caller, CallerPc.peers, List.mem_singleton] at hp
      exact .inr (hp ▸ handle)
  | @pendingOp op caller allowed =>
      rw [callerAt_caller] at hp
      cases op with
      | add q str bincount now =>
          cases List.mem_singleton.mp hp
          exact .inr allowed
      | ack fd bincount => simp [CallerPc.peers, PendingOp.peers] at hp
  | lockPending caller free =>
      simp only [callerAt_caller] at hp
      exact .inl (by simpa only [caller, CallerPc.peers] using hp)
  | _ => simp [CallerPc.peers] at hp

/-- A new node of the list is recorded for the client that its caller was given;
the other nodes stay recorded as they are. -/
theorem CallMove.mem_pending {k : Nat} {a : CallAct} (hnum : Numbered s)
    (h : CallMove cfg s k a s') {q : PendingAck} (hq : q ∈ s'.pending) :
    (∃ r ∈ s.pending, r.Evolves q ∧ s'.recorded q = s.recorded r) ∨
      s'.recorded q ∈ (s.caller k).peers := by
  cases h with
  | @runAdd p str bincount now caller =>
      rcases mem_of_mem_addPending hq with rfl | hold
      · exact .inr (by simp [recorded, newPending, caller, CallerPc.peers, PendingOp.peers])
      · have hne : q.node ≠ s.fresh := (hnum.node q hold).ne
        exact .inl ⟨q, hold, .refl q, by simp [recorded, hne]⟩
  | @runAck fd bincount caller =>
      obtain ⟨r, hr, hev⟩ := evolves_of_mem_ackFirst hq
      exact .inl ⟨r, hr, hev, by simp [recorded, callerAt, hev.clientFd, hev.node]⟩
  | _ => exact .inl ⟨q, hq, .refl q, rfl⟩

theorem CallMove.holds {k : Nat} {a : CallAct} (hnum : Numbered s) (h : CallMove cfg s k a s')
    (hp : s'.Holds p) : s.Holds p := by
  cases hp with
  | client mem => exact .client (h.frame.clients ▸ mem)
  | handle mem =>
      rcases h.mem_handles mem with hmem | hmem
      · exact .handle hmem
      · exact .client hmem
  | queued m mem peer =>
      rcases h.mem_sendQ mem with hmem | hmem | hmem
      · exact .queued m hmem peer
      · exact .caller k (peer ▸ hmem)
      · exact .client (peer ▸ hmem)
  | received m mem peer => exact .received m (h.frame.recvQ ▸ mem) peer
  | io mem => exact .io (h.frame.io ▸ mem)
  | sending mem => exact .sending (h.frame.send ▸ mem)
  | caller j mem =>
      by_cases hj : j = k
      · subst hj
        rcases h.mem_peers mem with hmem | hmem
        · exact .caller j hmem
        · exact .handle hmem
      · exact .caller j (h.frame.caller j hj ▸ mem)
  | pending q mem isOpen peer =>
      rcases h.mem_pending hnum mem with ⟨r, hr, hev, hrec⟩ | hmem
      · exact .pending r hr (hev.isOpen isOpen) (hrec.symm.trans peer)
      · exact .caller k (peer ▸ hmem)

theorem AckMove.mem_pending {a : AckAct} (h : AckMove cfg s a s') {q : PendingAck}
    (hq : q ∈ s'.pending) : ∃ r ∈ s.pending, r.Evolves q := by
  cases h with
  | delete ack node closed => exact ⟨q, List.mem_of_mem_eraseIdx hq, .refl q⟩
  | resend ack node isOpen due room => exact evolves_of_mem_set_resent node isOpen _ hq
  | _ => exact ⟨q, hq, .refl q⟩

/-- `ack_manager` sends to the clients of open nodes. -/
theorem AckMove.mem_sendQ {a : AckAct} (h : AckMove cfg s a s') {m : Msg} (hm : m ∈ s'.sendQ) :
    m ∈ s.sendQ ∨ ∃ q ∈ s.pending, q.closed = false ∧ s.recorded q = m.peer := by
  cases h with
  | @resend now pos q ack node isOpen due room =>
      rcases List.mem_append.mp hm with hmem | hmem
      · exact .inl hmem
      · cases List.mem_singleton.mp hmem
        exact .inr ⟨q, List.mem_of_getElem? node, isOpen, rfl⟩
  | _ => exact .inl hm

theorem AckMove.holds {a : AckAct} (h : AckMove cfg s a s') (hp : s'.Holds p) : s.Holds p := by
  cases hp with
  | client mem => exact .client (h.frame.clients ▸ mem)
  | handle mem => exact .handle (h.frame.handles ▸ mem)
  | queued m mem peer =>
      rcases h.mem_sendQ mem with hmem | ⟨q, hq, hopen, hrec⟩
      · exact .queued m hmem peer
      · exact .pending q hq hopen (hrec.trans peer)
  | received m mem peer => exact .received m (h.frame.recvQ ▸ mem) peer
  | io mem => exact .io (h.frame.io ▸ mem)
  | sending mem => exact .sending (h.frame.send ▸ mem)
  | caller k mem => exact .caller k (h.frame.caller ▸ mem)
  | pending q mem isOpen peer =>
      obtain ⟨r, hr, hev⟩ := h.mem_pending mem
      refine .pending r hr (hev.isOpen isOpen) (Eq.trans ?_ peer)
      simp only [recorded, h.frame.origin, hev.clientFd, hev.node]

theorem EnvMove.holds {a : EnvAct} (h : EnvMove cfg s a s') (hp : s'.Holds p) : s.Holds p := by
  cases hp with
  | client mem => exact .client (h.frame.clients ▸ mem)
  | handle mem =>
      cases h with
      | @takeRequest m rest recvQ =>
          rcases List.mem_append.mp mem with hmem | hmem
          · exact .handle hmem
          · exact .received m (by simp [recvQ]) (List.mem_singleton.mp hmem).symm
      | forget => exact .handle (List.mem_of_mem_erase mem)
      | _ => exact .handle mem
  | queued m mem peer => exact .queued m (h.frame.sendQ ▸ mem) peer
  | received m mem peer =>
      cases h with
      | takeRequest recvQ => exact .received m (recvQ ▸ List.mem_cons_of_mem _ mem) peer
      | _ => exact .received m mem peer
  | io mem => exact .io (h.frame.io ▸ mem)
  | sending mem => exact .sending (h.frame.send ▸ mem)
  | caller k mem => exact .caller k (h.frame.caller ▸ mem)
  | pending q mem isOpen peer =>
      refine .pending q (h.frame.pending ▸ mem) isOpen ?_
      rwa [recorded, h.frame.origin] at peer

/-- The process holds after a step what it held before, and numbers that denote
their connection. -/
theorem holds_next {a : Action} (hnum : Numbered s) (h : next cfg s a = some s')
    (hp : s'.Holds p) : s.Holds p ∨ p.conn = s'.ownerConn p.fd := by
  cases a with
  | io a => exact (ioNext_move h).holds hnum hp
  | send a => exact .inl ((sendNext_move h).holds hp)
  | call k a => exact .inl ((callNext_move h).holds hnum hp)
  | ack a => exact .inl ((ackNext_move h).holds hp)
  | env a => exact .inl ((envNext_move h).holds hp)

theorem numbered_start {table : Fd → Option Owner} (htable : ∀ fd c, table fd ≠ some (.conn c)) :
    Numbered (start table) where
  node q hq := absurd hq (by simp [start])
  fd fd c hc := absurd hc (htable fd c)

theorem CallMove.node_lt_fresh {k : Nat} {a : CallAct} (hnum : Numbered s)
    (h : CallMove cfg s k a s') {q : PendingAck} (hq : q ∈ s'.pending) : q.node < s'.fresh := by
  cases h with
  | runAdd caller =>
      rcases mem_of_mem_addPending hq with rfl | hold
      · exact Nat.lt_succ_self s.fresh
      · exact Nat.lt_succ_of_lt (hnum.node q hold)
  | runAck caller =>
      obtain ⟨r, hr, hev⟩ := evolves_of_mem_ackFirst hq
      exact hev.node ▸ hnum.node r hr
  | _ => exact hnum.node q hq

theorem Numbered.next {a : Action} (hnum : Numbered s) (h : next cfg s a = some s') :
    Numbered s' := by
  refine ⟨fun q hq => ?_, fun fd c hc => ?_⟩
  · cases a with
    | io a =>
        have hframe := (ioNext_move h).frame
        exact hframe.fresh ▸ hnum.node q (hframe.pending ▸ hq)
    | send a =>
        have hframe := (sendNext_move h).frame
        exact hframe.fresh ▸ hnum.node q (hframe.pending ▸ hq)
    | call k a => exact (callNext_move h).node_lt_fresh hnum hq
    | ack a =>
        obtain ⟨r, hr, hev⟩ := (ackNext_move h).mem_pending hq
        rw [hev.node, (ackNext_move h).frame.fresh]
        exact hnum.node r hr
    | env a =>
        have hframe := (envNext_move h).frame
        exact hframe.fresh ▸ hnum.node q (hframe.pending ▸ hq)
  · rcases table_next h hc with hold | ⟨-, hpos, -⟩
    · exact hnum.fd fd c hold
    · exact hpos

/-- No number that the process holds denotes a foreign connection. -/
def OwnsHeld (s : Server) : Prop :=
  ∀ p, s.Holds p → s.Own p

theorem ownsHeld_start (table : Fd → Option Owner)
    (htable : ∀ fd c, table fd ≠ some (.conn c)) : OwnsHeld (start table) :=
  fun p _ c hc => absurd hc (htable p.fd c)

/-- `accept` alone can make a held number denote a foreign connection. -/
theorem OwnsHeld.next {a : Action} (hown : OwnsHeld s) (hnum : Numbered s)
    (hfresh : s.NoReuse a) (h : next cfg s a = some s') : OwnsHeld s' := by
  intro p hp
  rcases holds_next hnum h hp with hheld | hnew
  · intro c hc
    rcases table_next h hc with hold | ⟨rfl, -⟩
    · exact hown p hheld c hold
    · exact absurd rfl (hfresh p hheld)
  · exact own_of_eq_ownerConn hnew

theorem numbered_of_reachable (h : (system cfg).Reachable s) : Numbered s := by
  apply h.invariant
  · rintro _ ⟨table, htable, rfl⟩
    exact numbered_start htable
  · intro s a t _ ht hnum
    exact hnum.next ht

theorem ownsHeld_of_reachableUnder (h : (system cfg).ReachableUnder NoReuse s) : OwnsHeld s := by
  apply h.invariant_using (fun _ hs => numbered_of_reachable hs.reachable)
  · rintro _ ⟨table, htable, rfl⟩
    exact ownsHeld_start table htable
  · intro s a t hnum hfresh ht hown
    exact hown.next hnum hfresh ht

theorem conn_eq_ownerConn_of_own {fd : Fd} {c : Option Conn}
    (h : s.Own { fd := fd, conn := c }) {d : Conn} (hd : s.ownerConn fd = some d) : c = some d :=
  h d (table_of_ownerConn hd)

/-- As long as no `accept` returns a number that the process still holds,
whatever `send_loop` writes reaches the connection it was enqueued for, and the
open nodes of the pending list are resent to nobody else. -/
theorem writes_reach_own_connection (h : (system cfg).ReachableUnder NoReuse s) :
    (∀ m n s', s.send = .sending m → next cfg s (.send (.sendOk n)) = some s' →
      s.ownerConn m.peer.fd = m.peer.conn) ∧
    (∀ q ∈ s.pending, q.closed = false → ∀ c, s.ownerConn q.clientFd = some c →
      s.origin q.node = some c) := by
  have hown := ownsHeld_of_reachableUnder h
  refine ⟨fun m n s' hsend hwrite => ?_, fun q hq hopen c hc => ?_⟩
  · have hmove : SendMove s (.sendOk n) s' := sendNext_move hwrite
    cases hmove with
    | sendOk hsend' owner pos le =>
        cases hsend.symm.trans hsend'
        obtain ⟨c, hc⟩ := Option.ne_none_iff_exists'.mp owner
        have hheld : s.Holds m.peer := .sending (by simp [hsend, SendPc.peers])
        rw [hc, conn_eq_ownerConn_of_own (hown m.peer hheld) hc]
  · exact conn_eq_ownerConn_of_own (hown _ (.pending q hq hopen rfl)) hc

/-- A BINLIFT is recorded for the first client, and the client disconnects. -/
def recordedClientLeaves : List Action :=
  listedClient ++
    [.call 0 (.pendingOp (.add { fd := 6, conn := some 0 } [0x7b] 1 0)),
      .call 0 .lockPending, .call 0 .runPending, .io .endBatch,
      .io (.epollWait [{ peer := { fd := 6, conn := some 0 }, hup := false, readable := true }]),
      .io .eof, .io .cleanup, .io .cleanup, .io .cleanup, .io .cleanup, .io .endBatch,
      .io (.epollWait [{ peer := { fd := 3, conn := none }, hup := false, readable := true }])]

/-- The next client gets another number and a BINLIFT of its own, which
`ack_manager` sends again. -/
def otherNumber : List Action :=
  recordedClientLeaves ++ (.io (.accept 7) ::
    [.io .watch, .io .lock, .io .append, .call 0 .getClients, .call 0 .lockClients,
      .call 0 .listEnd, .call 0 (.pendingOp (.add { fd := 7, conn := some 1 } [0x7b] 2 0)),
      .call 0 .lockPending, .call 0 .runPending, .ack (.start 5), .ack .lock, .ack .visit,
      .send .pop])

theorem otherNumber_noReuse :
    (system { cap := 128, listenFd := 3 }).StepsMeet NoReuse (start (openFiles 6))
      otherNumber := by
  refine System.stepsMeet_append ?_ fun s hs => ?_
  · refine ⟨trivial, ?_⟩
    rintro _ ⟨⟩
    refine ⟨?_, ?_⟩
    · rintro p (h | h | ⟨m, h, -⟩ | ⟨m, h, -⟩ | h | h | ⟨k, h⟩ | ⟨q, h, -, -⟩) <;>
        simp [start, IoPc.peers, SendPc.peers, CallerPc.peers] at h
    · intro t _
      exact System.stepsMeet_of_forall (by simp [NoReuse]) t
  · cases hs
    refine ⟨?_, fun t _ => System.stepsMeet_of_forall (by simp [NoReuse]) t⟩
    -- The process still holds the number 6, and no other.
    rintro p (h | h | ⟨m, h, -⟩ | ⟨m, h, -⟩ | h | h | ⟨k, h⟩ | ⟨q, h, -, hrec⟩)
    · cases h
    · cases List.mem_singleton.mp h
      decide
    · cases h
    · cases h
    · cases h
    · cases h
    · cases k <;> cases h
    · cases List.mem_singleton.mp h
      cases hrec
      decide

theorem writes_reach_own_connection_otherNumber :
    ∃ s, (system { cap := 128, listenFd := 3 }).exec (start (openFiles 6)) otherNumber = some s ∧
      next { cap := 128, listenFd := 3 } s (.send (.sendOk 1)) ≠ none ∧
      s.pending.map (·.clientFd) = [7, 6] ∧
      (∀ m n s', s.send = .sending m →
        next { cap := 128, listenFd := 3 } s (.send (.sendOk n)) = some s' →
        s.ownerConn m.peer.fd = m.peer.conn) ∧
      (∀ q ∈ s.pending, q.closed = false → ∀ c, s.ownerConn q.clientFd = some c →
        s.origin q.node = some c) :=
  ⟨_, rfl, Option.some_ne_none _, rfl, writes_reach_own_connection
    ⟨_, init_openFiles _ 6, System.leadsUnder_of_stepsMeet _ otherNumber_noReuse rfl⟩⟩

/-- The next client is given the number of the first one before `ack_manager` wakes. -/
def reusedNumber : List Action :=
  recordedClientLeaves ++
    [.io (.accept 6), .io .watch, .io .lock, .io .append,
      .ack (.start 5), .ack .lock, .ack .visit, .send .pop]

/-- The message recorded for the first connection is written to the second. -/
theorem pending_binlift_reaches_next_client :
    ∃ s s' m, (system { cap := 128, listenFd := 3 }).Reachable s ∧
      s.send = .sending m ∧ m.peer.conn = some 0 ∧ s.ownerConn m.peer.fd = some 1 ∧
      next { cap := 128, listenFd := 3 } s (.send (.sendOk 1)) = some s' :=
  ⟨_, _, _, System.reachable_of_exec reusedNumber (init_openFiles _ 6) rfl,
    rfl, rfl, rfl, rfl⟩

end Server

end SgMuni
