import SgMuni.Stream.Writes
import SgMuni.Tcp.Connections
import SgMuni.Transition.History

/-!
# What a client receives

`send_loop` gives each message to one call of `send` on a non-blocking socket.
It compares the result with zero only, so the tail behind a short count is
dropped while the connection stays open. An error closes the connection. The
calls are made in the order of `send_q`, and the result of the call for a message
is recorded at the place of the message.
-/

namespace SgMuni

/-- The message that `send_loop` has taken from `send_q`. -/
def SendPc.msgs : SendPc → List Msg
  | .sending m => [m]
  | _ => []

/-- The messages that entered `send_q`, and for those that were given to `send` the
connection that took bytes and their number, or `none` for an error. -/
structure SendHistory where
  queued : List Msg
  results : List (Option (Conn × Nat))

namespace SendHistory

/-- The bytes that a call of `send` takes on a connection. -/
def count (c : Conn) : Option (Conn × Nat) → Nat
  | some (d, n) => if d = c then n else 0
  | none => 0

/-- The bytes that a message has for a connection. -/
def dataFor (c : Conn) (m : Msg) : List UInt8 :=
  if m.peer.conn = some c then m.data else []

/-- The bytes that `send` accepts on a connection, each with the place of its message
among the queued ones. -/
def accepted (w : SendHistory) (c : Conn) : List (Nat × Nat) :=
  Stream.parts 0 (w.results.map (count c))

/-- What the client of a connection receives. -/
def received (w : SendHistory) (c : Conn) : List UInt8 :=
  (w.queued.zip w.results).flatMap fun x => x.1.data.take (count c x.2)

/-- The concatenation of the messages queued for a connection. -/
def stream (w : SendHistory) (c : Conn) : List UInt8 :=
  w.queued.flatMap (dataFor c)

end SendHistory

namespace Server

open Transition

/-- The messages that enter `send_q` with a step. -/
def enqueues (cfg : Config) (s : Server) (a : Action) : List Msg :=
  match s.next cfg a with
  | some t => t.sendQ.drop s.sendQ.length
  | none => []

/-- The result of the call of `send` that a step is. -/
def sendResult (s : Server) : Action → List (Option (Conn × Nat))
  | .send (.sendOk n) =>
      match s.send with
      | .sending m => [(s.ownerConn m.peer.fd).map fun c => (c, n)]
      | _ => []
  | .send .sendFail =>
      match s.send with
      | .sending _ => [none]
      | _ => []
  | _ => []

/-- The messages for which `send` was not called yet. -/
def unsent (s : Server) : List Msg :=
  s.send.msgs ++ s.sendQ

variable {cfg : Config} {s s' : Server} {w : SendHistory} {c : Conn}

/-- The connections in the table are older than the next one, and each has one
number. -/
structure Distinct (s : Server) : Prop where
  lt : ∀ fd c, s.table fd = some (.conn c) → c < s.nextConn
  inj : ∀ fd fd' c, s.table fd = some (.conn c) → s.table fd' = some (.conn c) → fd = fd'

theorem nextConn_next {a : Action} (h : next cfg s a = some s') :
    s'.nextConn = s.nextConn ∨
      s'.nextConn = s.nextConn + 1 := by
  cases a with
  | io a =>
      have hmove := ioNext_move h
      cases hmove with
      | accept => exact .inr rfl
      | cleanup io move => cases move <;> exact .inl rfl
      | _ => exact .inl rfl
  | send a =>
      have hmove := sendNext_move h
      cases hmove with
      | cleanup send move => cases move <;> exact .inl rfl
      | _ => exact .inl rfl
  | call k a => cases callNext_move h <;> exact .inl rfl
  | ack a => cases ackNext_move h <;> exact .inl rfl
  | env a => cases envNext_move h <;> exact .inl rfl

theorem nextConn_le {a : Action} (h : next cfg s a = some s') : s.nextConn ≤ s'.nextConn := by
  rcases nextConn_next h with heq | heq
  · exact heq.ge
  · exact heq ▸ Nat.le_succ s.nextConn

theorem Distinct.next {a : Action} (hs : Distinct s) (h : next cfg s a = some s') :
    Distinct s' := by
  have haccept : ∀ fd, a = .io (.accept fd) → s'.nextConn = s.nextConn + 1 := by
    rintro fd rfl
    have hmove : IoMove cfg s (.accept fd) s' := ioNext_move h
    cases hmove
    rfl
  refine ⟨fun fd c hc => ?_, fun fd fd' c hc hc' => ?_⟩
  · rcases table_next h hc with hold | ⟨ha, -, rfl⟩
    · exact (hs.lt fd c hold).trans_le (nextConn_le h)
    · exact haccept fd ha ▸ Nat.lt_succ_self s.nextConn
  · rcases table_next h hc with hold | ⟨ha, -, hnew⟩ <;>
      rcases table_next h hc' with hold' | ⟨ha', -, hnew'⟩
    · exact hs.inj fd fd' c hold hold'
    · exact absurd hnew' (hs.lt fd c hold).ne
    · exact absurd hnew (hs.lt fd' c hold').ne
    · cases ha.symm.trans ha'
      rfl

/-- A connection that is closed, or that `send_loop` is about to close. -/
structure Lost (s : Server) (c : Conn) : Prop where
  old : c < s.nextConn
  closing : ∀ fd, s.table fd = some (.conn c) →
    ∃ d, s.send = .cleanup d ∧ d.fd = fd ∧ (d.stage = .detach ∨ d.stage = .close)

theorem SendMove.closing {a : SendAct} (h : SendMove s a s') {d : Cleanup}
    (hsend : s.send = .cleanup d) (hstage : d.stage = .detach ∨ d.stage = .close)
    (hopen : s'.table d.fd ≠ none) :
    ∃ e, s'.send = .cleanup e ∧ e.fd = d.fd ∧ (e.stage = .detach ∨ e.stage = .close) := by
  cases h with
  | cleanup send move =>
      cases hsend.symm.trans send
      cases move with
      | detach stage => exact ⟨{ d with stage := .close }, rfl, rfl, .inr rfl⟩
      | close stage => simp at hopen
      | lock stage => simp [stage] at hstage
      | remove stage => simp [stage] at hstage
  | pop send => cases hsend.symm.trans send
  | sendOk send => cases hsend.symm.trans send
  | sendFail send => cases hsend.symm.trans send

theorem Lost.next {a : Action} (hlost : Lost s c) (h : next cfg s a = some s') : Lost s' c := by
  refine ⟨hlost.old.trans_le (nextConn_le h), fun fd hc => ?_⟩
  rcases table_next h hc with hold | ⟨-, -, hnew⟩
  · obtain ⟨d, hsend, rfl, hstage⟩ := hlost.closing fd hold
    have hframe : s'.send = s.send → ∃ e, s'.send = .cleanup e ∧ e.fd = d.fd ∧
        (e.stage = .detach ∨ e.stage = .close) := fun heq => ⟨d, heq.trans hsend, rfl, hstage⟩
    cases a with
    | io a => exact hframe (ioNext_move h).frame.send
    | send a => exact (sendNext_move h).closing hsend hstage (by simp [hc])
    | call k a => exact hframe (callNext_move h).frame.send
    | ack a => exact hframe (ackNext_move h).frame.send
    | env a => exact hframe (envNext_move h).frame.send
  · exact absurd hnew hlost.old.ne

/-- The number that the process holds for a connection is the one that denotes it. -/
def Placed (s : Server) : Prop :=
  ∀ p, s.Holds p → ∀ c, p.conn = some c →
    c < s.nextConn ∧ ∀ fd, s.table fd = some (.conn c) → fd = p.fd

theorem Placed.next {a : Action} (hplaced : Placed s) (hnum : Numbered s) (hs : Distinct s)
    (h : next cfg s a = some s') : Placed s' := by
  intro p hp c hc
  have hs' := hs.next h
  rcases holds_next hnum h hp with hheld | hnew
  · obtain ⟨hlt, hfd⟩ := hplaced p hheld c hc
    refine ⟨hlt.trans_le (nextConn_le h), fun fd hfd' => ?_⟩
    rcases table_next h hfd' with hold | ⟨-, -, rfl⟩
    · exact hfd fd hold
    · exact absurd hlt (lt_irrefl _)
  · have htable := table_of_ownerConn (hnew.symm.trans hc)
    exact ⟨hs'.lt p.fd c htable, fun fd hfd => hs'.inj fd p.fd c hfd htable⟩

/-- Nothing is sent on a lost connection. -/
theorem Lost.ownerConn_ne (hlost : Lost s c) {m : Msg} (hsend : s.send = .sending m) :
    s.ownerConn m.peer.fd ≠ some c := by
  intro howner
  obtain ⟨d, hcleanup, -⟩ := hlost.closing _ (table_of_ownerConn howner)
  cases hsend.symm.trans hcleanup

/-- A connection whose message was not written to it is lost. -/
theorem lost_of_other (hplaced : Placed s) {m : Msg} (hsend : s.send = .sending m)
    (hm : m.peer.conn = some c) (howner : s.ownerConn m.peer.fd ≠ some c) : Lost s c := by
  obtain ⟨hlt, hfd⟩ := hplaced m.peer (.sending (by simp [hsend, SendPc.peers])) c hm
  refine ⟨hlt, fun fd hc => absurd ?_ howner⟩
  rw [← hfd fd hc]
  simp [ownerConn, hc]

/-- What a step does to the unsent messages: it appends to them, or calls `send` for the
first one. -/
inductive SendStep (s s' : Server) (enqueued : List Msg) :
    List (Option (Conn × Nat)) → Prop
  | quiet (queue : s.unsent ++ enqueued = s'.unsent) : SendStep s s' enqueued []
  | accept {m : Msg} {d : Conn} {n : Nat} (queue : s.unsent ++ enqueued = m :: s'.unsent)
      (send : s.send = .sending m) (owner : s.ownerConn m.peer.fd = some d) (pos : 0 < n)
      (le : n ≤ m.data.length) : SendStep s s' enqueued [some (d, n)]
  | fail {m : Msg} (queue : s.unsent ++ enqueued = m :: s'.unsent) (send : s.send = .sending m)
      (lost : ∀ c, s.ownerConn m.peer.fd = some c → Lost s' c) : SendStep s s' enqueued [none]

theorem sendStep_next {a : Action} (hs : Distinct s) (h : next cfg s a = some s') :
    SendStep s s' (s.enqueues cfg a) (s.sendResult a) := by
  have henq : s.enqueues cfg a = s'.sendQ.drop s.sendQ.length := by simp only [enqueues, h]
  rw [henq]
  have hkeep : s'.send = s.send → s'.sendQ = s.sendQ →
      s.unsent ++ s'.sendQ.drop s.sendQ.length = s'.unsent := by
    intro hsend hq
    simp [unsent, hsend, hq]
  have hadd : ∀ m, s'.send = s.send → s'.sendQ = s.sendQ ++ [m] →
      s.unsent ++ s'.sendQ.drop s.sendQ.length = s'.unsent := by
    intro m hsend hq
    simp [unsent, hsend, hq]
  cases a with
  | io a =>
      have hframe := (ioNext_move h).frame
      exact .quiet (hkeep hframe.send hframe.sendQ)
  | send a =>
      have hmove := sendNext_move h
      cases hmove with
      | @pop m rest send sendQ =>
          exact .quiet (by simp [unsent, SendPc.msgs, send, sendQ])
      | @sendOk m n send owner pos le =>
          obtain ⟨d, hd⟩ := Option.ne_none_iff_exists'.mp owner
          have hresult : s.sendResult (.send (.sendOk n)) = [some (d, n)] := by
            simp [sendResult, send, hd]
          rw [hresult]
          exact .accept (by simp [unsent, SendPc.msgs, send]) send hd pos le
      | @sendFail m send =>
          have hresult : s.sendResult (.send .sendFail) = [none] := by simp [sendResult, send]
          rw [hresult]
          refine .fail (by simp [unsent, SendPc.msgs, send]) send fun c howner => ?_
          have htable := table_of_ownerConn howner
          exact ⟨hs.lt _ c htable, fun fd hc => ⟨_, rfl, hs.inj _ fd c htable hc, .inl rfl⟩⟩
      | @cleanup d t d' send move =>
          refine .quiet ?_
          cases move <;> simp [unsent, SendPc.msgs, SendPc.resume, send]
  | call k a =>
      have hmove := callNext_move h
      cases hmove with
      | push => exact .quiet (hadd _ rfl rfl)
      | broadcastPush => exact .quiet (hadd _ rfl rfl)
      | _ => exact .quiet (hkeep rfl rfl)
  | ack a =>
      have hmove := ackNext_move h
      cases hmove with
      | resend => exact .quiet (hadd _ rfl rfl)
      | _ => exact .quiet (hkeep rfl rfl)
  | env a =>
      have hframe := (envNext_move h).frame
      exact .quiet (hkeep hframe.send hframe.sendQ)

/-- `send` is called once for each message in the order of `send_q`; a connection that
did not take its message is lost, and takes nothing afterwards. -/
structure SendInv (s : Server) (w : SendHistory) : Prop where
  le : w.results.length ≤ w.queued.length
  fifo : w.queued.drop w.results.length = s.unsent
  range : ∀ (i : Nat) m d n, w.queued[i]? = some m → w.results[i]? = some (some (d, n)) →
    0 < n ∧ n ≤ m.data.length
  lost : ∀ (i : Nat) m r c, w.queued[i]? = some m → w.results[i]? = some r →
    m.peer.conn = some c → SendHistory.count c r = 0 → Lost s c
  after : ∀ (i j : Nat) m r c n, i < j → w.queued[i]? = some m → w.results[i]? = some r →
    m.peer.conn = some c → SendHistory.count c r = 0 → w.results[j]? ≠ some (some (c, n))

/-- The place of a result is the place of a message that was queued before. -/
theorem SendInv.getElem?_queued (hinv : SendInv s w) {i : Nat} {r : Option (Conn × Nat)}
    (hr : w.results[i]? = some r) (enqueued : List Msg) :
    (w.queued ++ enqueued)[i]? = w.queued[i]? := by
  obtain ⟨hi, -⟩ := List.getElem?_eq_some_iff.mp hr
  exact List.getElem?_append_left (hi.trans_le hinv.le)

/-- No message was given to `send`. -/
theorem SendInv.enqueue (hinv : SendInv s w) (hlost : ∀ c, Lost s c → Lost s' c)
    {enqueued : List Msg} (hqueue : s.unsent ++ enqueued = s'.unsent) :
    SendInv s' { queued := w.queued ++ enqueued, results := w.results } where
  le := by
    rw [List.length_append]
    exact hinv.le.trans (Nat.le_add_right _ _)
  fifo := by rw [List.drop_append_of_le_length hinv.le, hinv.fifo, hqueue]
  range i m d n hm hr := hinv.range i m d n (hinv.getElem?_queued hr enqueued ▸ hm) hr
  lost i m r c hm hr hconn hzero :=
    hlost c (hinv.lost i m r c (hinv.getElem?_queued hr enqueued ▸ hm) hr hconn hzero)
  after i j m r c n hij hm hr :=
    hinv.after i j m r c n hij (hinv.getElem?_queued hr enqueued ▸ hm) hr

/-- The first of the unsent messages was given to `send`. -/
theorem SendInv.call (hinv : SendInv s w) (hlost : ∀ c, Lost s c → Lost s' c)
    {enqueued : List Msg} {m : Msg} {r : Option (Conn × Nat)}
    (hqueue : s.unsent ++ enqueued = m :: s'.unsent)
    (hrange : ∀ d n, r = some (d, n) → 0 < n ∧ n ≤ m.data.length ∧ ¬Lost s d)
    (hother : ∀ c, m.peer.conn = some c → SendHistory.count c r = 0 → Lost s' c) :
    SendInv s' { queued := w.queued ++ enqueued, results := w.results ++ [r] } := by
  have hdrop : (w.queued ++ enqueued).drop w.results.length = m :: s'.unsent := by
    rw [List.drop_append_of_le_length hinv.le, hinv.fifo, hqueue]
  have hm : (w.queued ++ enqueued)[w.results.length]? = some m := by
    have hhead := congrArg (·[0]?) hdrop
    simpa using hhead
  -- A result is an older one, or the new one, of the message `m`.
  have hresult : ∀ (i : Nat) x, (w.results ++ [r])[i]? = some x →
      w.results[i]? = some x ∨ (i = w.results.length ∧ x = r) := by
    intro i x hx
    rcases lt_trichotomy i w.results.length with hlt | heq | hgt
    · exact .inl (by rwa [List.getElem?_append_left hlt] at hx)
    · rw [heq, List.getElem?_concat_length] at hx
      exact .inr ⟨heq, (Option.some.inj hx).symm⟩
    · have hlen := (List.getElem?_eq_some_iff.mp hx).1
      simp only [List.length_append, List.length_singleton] at hlen
      omega
  refine ⟨?_, ?_, ?_, ?_, ?_⟩
  · have hlen := (List.getElem?_eq_some_iff.mp hm).1
    simpa using hlen
  · rw [List.length_append, List.length_singleton, ← List.tail_drop, hdrop, List.tail_cons]
  · intro i m' d n hm' hr
    rcases hresult i _ hr with hold | ⟨rfl, hnew⟩
    · exact hinv.range i m' d n (hinv.getElem?_queued hold enqueued ▸ hm') hold
    · cases hm.symm.trans hm'
      exact ⟨(hrange d n hnew.symm).1, (hrange d n hnew.symm).2.1⟩
  · intro i m' x c hm' hr hconn hzero
    rcases hresult i _ hr with hold | ⟨rfl, rfl⟩
    · exact hlost c (hinv.lost i m' x c (hinv.getElem?_queued hold enqueued ▸ hm') hold hconn hzero)
    · cases hm.symm.trans hm'
      exact hother c hconn hzero
  · intro i j m' x c n hij hm' hr hconn hzero hj
    rcases hresult j _ hj with hjold | ⟨rfl, hnew⟩
    · have hi : i < w.results.length := hij.trans (List.getElem?_eq_some_iff.mp hjold).1
      have hold : w.results[i]? = some x := by rwa [List.getElem?_append_left hi] at hr
      exact hinv.after i j m' x c n hij (hinv.getElem?_queued hold enqueued ▸ hm') hold hconn hzero
        hjold
    · have hold : w.results[i]? = some x := by rwa [List.getElem?_append_left hij] at hr
      exact (hrange c n hnew.symm).2.2
        (hinv.lost i m' x c (hinv.getElem?_queued hold enqueued ▸ hm') hold hconn hzero)

theorem SendInv.next {a : Action} (hinv : SendInv s w) (hs : Distinct s) (hplaced : Placed s)
    (h : next cfg s a = some s') :
    SendInv s'
      { queued := w.queued ++ s.enqueues cfg a
        results := w.results ++ s.sendResult a } := by
  have hlost : ∀ c, Lost s c → Lost s' c := fun c hc => hc.next h
  have hstep := sendStep_next hs h
  revert hstep
  generalize s.sendResult a = rs
  intro hstep
  cases hstep with
  | quiet queue =>
      rw [List.append_nil]
      exact hinv.enqueue hlost queue
  | @accept m d n queue send owner pos le =>
      refine hinv.call hlost queue ?_ ?_
      · rintro _ _ ⟨⟩
        exact ⟨pos, le, fun hd => hd.ownerConn_ne send owner⟩
      · intro c hconn hzero
        have hne : d ≠ c := by
          rintro rfl
          simp [SendHistory.count, pos.ne'] at hzero
        refine hlost c (lost_of_other hplaced send hconn fun howner => hne ?_)
        exact Option.some.inj (owner.symm.trans howner)
  | @fail m queue send lost =>
      refine hinv.call hlost queue (fun d n hr => by cases hr) fun c hconn _ => ?_
      by_cases howner : s.ownerConn m.peer.fd = some c
      · exact lost c howner
      · exact hlost c (lost_of_other hplaced send hconn howner)

end Server

end SgMuni
