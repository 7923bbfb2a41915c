import SgMuni.Tcp.Locks
import SgMuni.Transition.WaitGraph

/-!
# When the sending side deadlocks

`SgTcpServer_broadcast` pushes while it holds `clients_mtx`, and `send_loop`,
the only consumer of `send_q`, takes `clients_mtx` after a failed `send`. The
threads deadlock exactly in the states where these two meet over a full queue.
`SgTcpServer_get_clients` copies the registry and unlocks first, and no such
state involves it.
-/

namespace SgMuni

namespace Server

open Transition

/-- What a thread of the sending side can wait for. -/
inductive Resource
  | clients
  | pending
  | room
deriving DecidableEq

/-- The thread is about to lock `clients_mtx`. -/
def wantsClients (s : Server) : Tid → Bool
  | .io =>
      match s.io with
      | .registering _ _ => true
      | .cleanup c _ => c.stage = .lock
      | _ => false
  | .send =>
      match s.send with
      | .cleanup c => c.stage = .lock
      | _ => false
  | .ack => false
  | .caller k =>
      match s.caller k with
      | .broadcastLock _ | .listLock => true
      | _ => false

/-- The thread is about to lock `pending_mtx`. -/
def wantsPending (s : Server) : Tid → Bool
  | .io | .send => false
  | .ack =>
      match s.ack with
      | .locking _ => true
      | _ => false
  | .caller k =>
      match s.caller k with
      | .pendingLock _ => true
      | _ => false

/-- The thread is about to push to `send_q`. -/
def wantsRoom (s : Server) : Tid → Bool
  | .io | .send => false
  | .ack =>
      match s.ack with
      | .sweeping now pos => (s.pending[pos]?).any fun p => !p.closed && p.due now
      | _ => false
  | .caller k =>
      match s.caller k with
      | .pushing _ => true
      | .broadcasting _ i => i < s.clients.length
      | _ => false

/-- Who waits for what. Only `send_loop` makes room in `send_q`. -/
def waitGraph (cfg : Config) (s : Server) : WaitGraph Tid Resource where
  waits t
    | .clients => s.wantsClients t = true ∧ s.clientsMtx ≠ none
    | .pending => s.wantsPending t = true ∧ s.pendingMtx ≠ none
    | .room => s.wantsRoom t = true ∧ cfg.cap ≤ s.sendQ.length
  frees
    | .clients, t => s.clientsMtx = some t
    | .pending, t => s.pendingMtx = some t
    | .room, t => t = .send

/-- A broadcast has clients left. -/
def Broadcasting (s : Server) : Prop :=
  ∃ k data i, s.caller k = .broadcasting data i ∧ i < s.clients.length

/-- A broadcaster is blocked on the full `send_q` while `send_loop` is about to
lock the mutex that the broadcaster holds. -/
def Jammed (cfg : Config) (s : Server) : Prop :=
  s.wantsClients .send = true ∧ s.Broadcasting ∧ cfg.cap ≤ s.sendQ.length

variable {cfg : Config} {s s' : Server}

theorem wants_eq_false_of_holdsClients {t : Tid} (h : s.holdsClients t = true) :
    s.wantsClients t = false ∧ s.wantsPending t = false := by
  cases t with
  | io => cases hio : s.io <;> simp_all [holdsClients, wantsClients, wantsPending]
  | send => cases hsend : s.send <;> simp_all [holdsClients, wantsClients, wantsPending]
  | ack => cases h
  | caller k => cases hk : s.caller k <;> simp_all [holdsClients, wantsClients, wantsPending]

theorem wants_eq_false_of_holdsPending {t : Tid} (h : s.holdsPending t = true) :
    s.wantsClients t = false ∧ s.wantsPending t = false := by
  cases t with
  | io => cases h
  | send => cases h
  | ack => cases hack : s.ack <;> simp_all [holdsPending, wantsClients, wantsPending]
  | caller k => cases hk : s.caller k <;> simp_all [holdsPending, wantsClients, wantsPending]

theorem wants_eq_false_of_wantsRoom {t : Tid} (h : s.wantsRoom t = true) :
    s.wantsClients t = false ∧ s.wantsPending t = false := by
  cases t with
  | io => cases h
  | send => cases h
  | ack => cases hack : s.ack <;> simp_all [wantsRoom, wantsClients, wantsPending]
  | caller k => cases hk : s.caller k <;> simp_all [wantsRoom, wantsClients, wantsPending]

/-- The owner of `clients_mtx` that pushes is a broadcaster. -/
theorem broadcasting_of_holdsClients {t : Tid} (h : s.holdsClients t = true)
    (hroom : s.wantsRoom t = true) : s.Broadcasting := by
  cases t with
  | io => cases hroom
  | send => cases hroom
  | ack => cases h
  | caller k =>
      cases hk : s.caller k with
      | broadcasting data i =>
          refine ⟨k, data, i, hk, ?_⟩
          simpa [wantsRoom, hk] using hroom
      | _ => simp_all [holdsClients, wantsRoom]

theorem Jammed.deadlocked (hinv : MutexInv s) (h : s.Jammed cfg) :
    (s.waitGraph cfg).Deadlocked := by
  obtain ⟨hsend, ⟨k, data, i, hk, hi⟩, hfull⟩ := h
  have hheld : s.clientsMtx = some (.caller k) :=
    (hinv.clients (.caller k)).mp (by simp [holdsClients, hk])
  refine WaitGraph.deadlocked_of_pair (t := .send) (u := .caller k) (r := .clients) (q := .room)
    ⟨hsend, by simp [hheld]⟩ ⟨by simp [wantsRoom, hk, hi], hfull⟩ ?_ ?_
  · intro v hv
    exact Option.some.inj (hv.symm.trans hheld)
  · intro v hv
    exact hv

/-- Without the jam, everyone waits for a thread that does not wait, or that
waits for something lower in the order mutexes, room, `send_loop`. -/
theorem not_deadlocked_of_not_jammed (hinv : MutexInv s) (h : ¬ s.Jammed cfg) :
    ¬ (s.waitGraph cfg).Deadlocked := by
  refine WaitGraph.not_deadlocked_of_rank
    (fun t => if t = .send then 0 else if s.wantsRoom t then 1 else 2) ?_
  rintro t r hwaits
  cases r with
  | room =>
      have hne : t ≠ .send := by
        rintro rfl
        exact absurd hwaits.1 (by simp [wantsRoom])
      refine ⟨.send, rfl, .inr ?_⟩
      simp [hne, hwaits.1]
  | clients =>
      obtain ⟨hwants, hheld⟩ := hwaits
      obtain ⟨u, hu⟩ := Option.ne_none_iff_exists'.mp hheld
      have hinside : s.holdsClients u = true := (hinv.clients u).mpr hu
      obtain ⟨hnotClients, hnotPending⟩ := wants_eq_false_of_holdsClients hinside
      refine ⟨u, hu, ?_⟩
      by_cases hroom : s.wantsRoom u = true ∧ cfg.cap ≤ s.sendQ.length
      · right
        have hne : t ≠ .send := by
          rintro rfl
          exact h ⟨hwants, broadcasting_of_holdsClients hinside hroom.1, hroom.2⟩
        have hnot : s.wantsRoom t ≠ true := fun ht =>
          absurd (wants_eq_false_of_wantsRoom ht).1 (by simp [hwants])
        simp only [hne, hnot, hroom.1, if_true, if_false]
        split <;> decide
      · left
        rintro (_ | _ | _) hq
        · simp [waitGraph, hnotClients] at hq
        · simp [waitGraph, hnotPending] at hq
        · exact hroom hq
  | pending =>
      obtain ⟨hwants, hheld⟩ := hwaits
      obtain ⟨u, hu⟩ := Option.ne_none_iff_exists'.mp hheld
      have hinside : s.holdsPending u = true := (hinv.pending u).mpr hu
      obtain ⟨hnotClients, hnotPending⟩ := wants_eq_false_of_holdsPending hinside
      refine ⟨u, hu, ?_⟩
      by_cases hroom : s.wantsRoom u = true
      · right
        have hne : t ≠ .send := by
          rintro rfl
          exact absurd hwants (by simp [wantsPending])
        have hnot : s.wantsRoom t ≠ true := fun ht =>
          absurd (wants_eq_false_of_wantsRoom ht).2 (by simp [hwants])
        simp only [hne, hnot, hroom, if_true, if_false]
        split <;> decide
      · left
        rintro (_ | _ | _) hq
        · simp [waitGraph, hnotClients] at hq
        · simp [waitGraph, hnotPending] at hq
        · exact hroom hq.1

theorem deadlocked_iff_jammed (hinv : MutexInv s) :
    (s.waitGraph cfg).Deadlocked ↔ s.Jammed cfg :=
  ⟨fun h => not_not.mp fun hn => not_deadlocked_of_not_jammed hinv hn h,
    fun h => h.deadlocked hinv⟩

/-- A step that does not bring about the jam: of the three things that make it
up, a thread does not establish the last one. -/
def Safe (cfg : Config) (s : Server) : Action → Prop
  | .send .cleanup => ∀ c, s.send = .cleanup c → c.stage = .close →
      s.Broadcasting → s.sendQ.length < cfg.cap
  | .call k .lockClients => ∀ data, s.caller k = .broadcastLock data → s.clients ≠ [] →
      cfg.cap ≤ s.sendQ.length → s.wantsClients .send = false
  | .call k .broadcastPush => ∀ data i, s.caller k = .broadcasting data i →
      i + 1 < s.clients.length → s.sendQ.length + 1 = cfg.cap → s.wantsClients .send = false
  | .call _ .push => s.Broadcasting → s.sendQ.length + 1 = cfg.cap →
      s.wantsClients .send = false
  | .ack .visit => s.wantsRoom .ack = true → s.Broadcasting → s.sendQ.length + 1 = cfg.cap →
      s.wantsClients .send = false
  | _ => True

theorem not_jammed_of_wantsClients (h : s.wantsClients .send = false) : ¬ s.Jammed cfg :=
  fun hj => absurd hj.1 (by simp [h])

theorem IoMove.not_jammed {a : IoAct} (h : IoMove cfg s a s') (hinv : MutexInv s)
    (hs : ¬ s.Jammed cfg) : ¬ s'.Jammed cfg := by
  rintro ⟨hwants, ⟨k, data, i, hk, hi⟩, hfull⟩
  rw [h.frame.caller] at hk
  rcases h.clients_eq with hclients | hheld
  · refine hs ⟨?_, ⟨k, data, i, hk, ?_⟩, ?_⟩
    · simpa only [wantsClients, h.frame.send] using hwants
    · rwa [hclients] at hi
    · rwa [h.frame.sendQ] at hfull
  · exact Tid.noConfusion (hinv.clients.unique hheld (u := .caller k) (by simp [holdsClients, hk]))

/-- `send_loop` brings about the jam only when it has closed the descriptor. -/
theorem SendMove.not_jammed_iff {a : SendAct} (h : SendMove s a s') :
    ¬ s'.Jammed cfg ↔ s.Safe cfg (.send a) := by
  cases h with
  | cleanup send move =>
      cases move with
      | close stage =>
          simp [Jammed, Safe, wantsClients, SendPc.resume, send, stage, Broadcasting]
      | detach stage => simp [Jammed, Safe, wantsClients, SendPc.resume, send, stage]
      | lock stage free => simp [Jammed, Safe, wantsClients, SendPc.resume, send, stage]
      | remove stage => simp [Jammed, Safe, wantsClients, SendPc.resume, send, stage]
  | _ => simp [Jammed, Safe, wantsClients]

/-- The broadcasts that a step of caller `k` leaves in progress. -/
theorem CallFrame.broadcasting_iff {k : Nat} (hframe : CallFrame k s s') :
    s'.Broadcasting ↔ (∃ data i, s'.caller k = .broadcasting data i ∧ i < s.clients.length) ∨
      ∃ j, j ≠ k ∧ ∃ data i, s.caller j = .broadcasting data i ∧ i < s.clients.length := by
  unfold Broadcasting
  rw [hframe.clients]
  constructor
  · rintro ⟨j, data, i, hj, hi⟩
    by_cases hjk : j = k
    · subst hjk
      exact .inl ⟨data, i, hj, hi⟩
    · exact .inr ⟨j, hjk, data, i, hframe.caller j hjk ▸ hj, hi⟩
  · rintro (⟨data, i, hk, hi⟩ | ⟨j, hjk, data, i, hj, hi⟩)
    · exact ⟨k, data, i, hk, hi⟩
    · exact ⟨j, data, i, (hframe.caller j hjk).trans hj, hi⟩

theorem CallFrame.broadcasting_iff_of_quiet {k : Nat} (hframe : CallFrame k s s')
    (hk : ∀ data i, s.caller k ≠ .broadcasting data i)
    (hk' : ∀ data i, s'.caller k ≠ .broadcasting data i) : s'.Broadcasting ↔ s.Broadcasting := by
  rw [hframe.broadcasting_iff]
  constructor
  · rintro (⟨data, i, hb, -⟩ | ⟨j, -, data, i, hj, hi⟩)
    · exact absurd hb (hk' data i)
    · exact ⟨j, data, i, hj, hi⟩
  · rintro ⟨j, data, i, hj, hi⟩
    refine .inr ⟨j, ?_, data, i, hj, hi⟩
    rintro rfl
    exact hk data i hj

theorem CallFrame.wantsClients_send {k : Nat} (hframe : CallFrame k s s') :
    s'.wantsClients .send = s.wantsClients .send := by
  simp only [wantsClients, hframe.send]

/-- A caller that neither broadcasts nor pushes brings about no jam. -/
theorem CallFrame.not_jammed {k : Nat} (hframe : CallFrame k s s')
    (hk' : ∀ data i, s'.caller k ≠ .broadcasting data i) (hq : s'.sendQ = s.sendQ)
    (hs : ¬ s.Jammed cfg) : ¬ s'.Jammed cfg := by
  rintro ⟨hwants, hb, hfull⟩
  rw [hframe.broadcasting_iff] at hb
  obtain ⟨data, i, hk, -⟩ | ⟨j, -, data, i, hj, hi⟩ := hb
  · exact hk' data i hk
  · exact hs ⟨hframe.wantsClients_send ▸ hwants, ⟨j, data, i, hj, hi⟩, hq ▸ hfull⟩

/-- While caller `k` holds or takes `clients_mtx`, no other caller broadcasts. -/
theorem CallFrame.broadcasting_iff_of_alone {k : Nat} (hframe : CallFrame k s s')
    (halone : ∀ j, j ≠ k → s.holdsClients (.caller j) = false) :
    s'.Broadcasting ↔ ∃ data i, s'.caller k = .broadcasting data i ∧ i < s.clients.length := by
  rw [hframe.broadcasting_iff]
  refine or_iff_left ?_
  rintro ⟨j, hjk, data, i, hj, -⟩
  exact absurd (halone j hjk) (by simp [holdsClients, hj])

theorem CallMove.not_jammed_iff {k : Nat} {a : CallAct} (h : CallMove cfg s k a s')
    (hinv : MutexInv s) (hs : ¬ s.Jammed cfg) :
    ¬ s'.Jammed cfg ↔ s.Safe cfg (.call k a) := by
  have hframe := h.frame
  have hsend := hframe.wantsClients_send
  have hlast : s.sendQ.length < cfg.cap →
      (cfg.cap ≤ s.sendQ.length + 1 ↔ s.sendQ.length + 1 = cfg.cap) := by omega
  cases h with
  | push caller room =>
      have hb := hframe.broadcasting_iff_of_quiet (by simp [caller]) (by simp)
      simp only [Jammed, Safe, hb, hsend, List.length_append, List.length_singleton, hlast room]
      grind
  | @lockBroadcast data caller free =>
      have hb := hframe.broadcasting_iff_of_alone fun j _ =>
        hinv.clients.outside_of_free free (.caller j)
      have hleft : (∃ data' i, CallerPc.broadcasting data 0 = .broadcasting data' i ∧
          i < s.clients.length) ↔ s.clients ≠ [] := by simp [List.length_pos_iff]
      rw [callerAt_caller] at hb
      simp only [Jammed, Safe, hb, hleft, hsend, caller, CallerPc.broadcastLock.injEq, forall_eq',
        not_and]
      rw [callerAt_sendQ]
      grind
  | lockList caller free =>
      simpa [Safe, caller] using hframe.not_jammed (by simp) rfl hs
  | @broadcastPush data i p caller client room =>
      have hheld : s.holdsClients (.caller k) = true := by simp [holdsClients, caller]
      have hb := hframe.broadcasting_iff_of_alone fun j hj =>
        hinv.clients.outside hheld fun heq => hj (Tid.caller.inj heq)
      simp only [callerAt_caller] at hb
      simp only [Jammed, Safe, hb, hsend, caller, List.length_append, List.length_singleton, hlast room,
        CallerPc.broadcasting.injEq, and_imp, not_and]
      grind
  | _ => simpa only [Safe, iff_true] using hframe.not_jammed (by simp) rfl hs

theorem AckFrame.wantsClients_send (hframe : AckFrame s s') :
    s'.wantsClients .send = s.wantsClients .send := by
  simp only [wantsClients, hframe.send]

theorem AckFrame.broadcasting_iff (hframe : AckFrame s s') :
    s'.Broadcasting ↔ s.Broadcasting := by
  simp only [Broadcasting, hframe.caller, hframe.clients]

theorem AckFrame.jammed_iff (hframe : AckFrame s s') (hq : s'.sendQ = s.sendQ) :
    s'.Jammed cfg ↔ s.Jammed cfg := by
  simp only [Jammed, hframe.wantsClients_send, hframe.broadcasting_iff, hq]

theorem AckMove.not_jammed_iff {a : AckAct} (h : AckMove cfg s a s') (hs : ¬ s.Jammed cfg) :
    ¬ s'.Jammed cfg ↔ s.Safe cfg (.ack a) := by
  have hframe := h.frame
  cases h with
  | @delete now pos p ack node closed =>
      have hroom : s.wantsRoom .ack = false := by simp [wantsRoom, ack, node, closed]
      simpa [hframe.jammed_iff, Safe, hroom] using hs
  | @resend now pos p ack node isOpen due room =>
      have hroom : s.wantsRoom .ack = true := by simp [wantsRoom, ack, node, isOpen, due]
      have hlast : cfg.cap ≤ s.sendQ.length + 1 ↔ s.sendQ.length + 1 = cfg.cap := by omega
      simp only [Jammed, Safe, hframe.wantsClients_send, hframe.broadcasting_iff,
        List.length_append, List.length_singleton, hlast, hroom, not_and]
      grind
  | @pass now pos p ack node isOpen due =>
      have hroom : s.wantsRoom .ack = false := by simp [wantsRoom, ack, node, due]
      simpa [hframe.jammed_iff, Safe, hroom] using hs
  | _ => simpa [hframe.jammed_iff, Safe] using hs

theorem EnvFrame.jammed_iff (hframe : EnvFrame s s') : s'.Jammed cfg ↔ s.Jammed cfg := by
  simp only [Jammed, Broadcasting, wantsClients, hframe.send, hframe.caller, hframe.clients,
    hframe.sendQ]

/-- From a state without the jam, exactly the unsafe steps lead to it. -/
theorem not_jammed_next_iff {a : Action} (hinv : MutexInv s) (hs : ¬ s.Jammed cfg)
    (h : next cfg s a = some s') : ¬ s'.Jammed cfg ↔ s.Safe cfg a := by
  cases a with
  | io a => simpa only [Safe, iff_true] using (ioNext_move h).not_jammed hinv hs
  | send a => exact (sendNext_move h).not_jammed_iff
  | call k a => exact (callNext_move h).not_jammed_iff hinv hs
  | ack a => exact (ackNext_move h).not_jammed_iff hs
  | env a => simpa only [Safe, iff_true, (envNext_move h).frame.jammed_iff] using hs

/-- A run never deadlocks, and never has a broadcaster blocked on the full
`send_q` while `send_loop` waits for `clients_mtx`, exactly when all of its
steps are safe. -/
theorem deadlockFree_iff_safe {s₀ : Server} {as : List Action} (hinit : (system cfg).init s₀)
    (hrun : (system cfg).exec s₀ as = some s) :
    (system cfg).StepsMeet (Safe cfg) s₀ as ↔
      (system cfg).StatesMeet
        (fun s => ¬ (s.waitGraph cfg).Deadlocked ∧ ¬ s.Jammed cfg) s₀ as := by
  obtain ⟨table, -, rfl⟩ := hinit
  refine System.stepsMeet_iff_statesMeet (I := MutexInv) (fun s a t ht hs => hs.next ht) ?_
    (mutexInv_start table) ?_ hrun
  · rintro s a t ht hinv ⟨-, hs⟩
    rw [deadlocked_iff_jammed (hinv.next ht), and_self]
    exact not_jammed_next_iff hinv hs ht
  · rw [deadlocked_iff_jammed (mutexInv_start table), and_self]
    exact not_jammed_of_wantsClients rfl

theorem safe_of_room (h : s.sendQ.length + 1 < cfg.cap) (a : Action) : s.Safe cfg a := by
  unfold Safe
  split
  · exact fun _ _ _ _ => by omega
  · exact fun _ _ _ hfull => absurd hfull (by omega)
  · exact fun _ _ _ _ hlast => absurd hlast (by omega)
  · exact fun _ hlast => absurd hlast (by omega)
  · exact fun _ _ hlast => absurd hlast (by omega)
  · trivial

/-- A message to the first client fails while caller 1 broadcasts to both clients. -/
def failedSend : List Action :=
  twoClients ++
    [.call 0 (.send { fd := 6, conn := some 0 } [0x7b]), .call 0 .push, .send .pop,
      .call 1 (.broadcast [0x31]), .call 1 .lockClients, .call 1 .broadcastPush, .send .sendFail,
      .send .cleanup, .send .cleanup, .call 1 .broadcastPush, .call 1 .broadcastEnd,
      .send .cleanup, .send .cleanup]

theorem deadlockFree_iff_safe_failedSend :
    ∃ s, (system { cap := 128, listenFd := 3 }).exec (start (openFiles 6)) failedSend = some s ∧
      s.clients = [{ fd := 7, conn := some 1 }] ∧
      (system { cap := 128, listenFd := 3 }).StatesMeet
        (fun s => ¬ (s.waitGraph { cap := 128, listenFd := 3 }).Deadlocked ∧
          ¬ s.Jammed { cap := 128, listenFd := 3 }) (start (openFiles 6)) failedSend := by
  have hroom : ∀ n < failedSend.length,
      ((system { cap := 128, listenFd := 3 }).exec (start (openFiles 6))
        (failedSend.take n)).all (fun s => decide (s.sendQ.length + 1 < 128)) = true := by
    decide +kernel
  have hsafe : (system { cap := 128, listenFd := 3 }).StepsMeet
      (Safe { cap := 128, listenFd := 3 }) (start (openFiles 6)) failedSend := by
    refine System.stepsMeet_of_exec_take fun n hn t ht a => safe_of_room ?_ a
    have hn := hroom n hn
    rw [ht, Option.all_some, decide_eq_true_eq] at hn
    exact hn
  exact ⟨_, rfl, rfl, (deadlockFree_iff_safe (init_openFiles _ 6) rfl).mp hsafe⟩

section Jam

/-- One client `p` is registered, caller 0 has its number, the threads are idle
and `n` messages are queued. -/
structure Queued (p : Peer) (n : Nat) (s : Server) : Prop where
  caller : ∀ k, s.caller k = .idle
  handles : p ∈ s.handles
  clients : s.clients = [p]
  free : s.clientsMtx = none
  send : s.send = .popping
  sendQ : s.sendQ = List.replicate n { peer := p, data := [] }

theorem Queued.more {p : Peer} {n : Nat} (hs : Queued p n s) (cfg : Config) (hn : n < cfg.cap) :
    ∃ t, (system cfg).Leads s t ∧ Queued p (n + 1) t := by
  have hroom : s.sendQ.length < cfg.cap := by simpa [hs.sendQ] using hn
  refine ⟨_, System.leads_of_exec [.call 0 (.send p []), .call 0 .push]
    (by simp [system, next, callNext, hs.caller, hs.handles, callerAt, hroom]; rfl), ?_⟩
  refine ⟨fun k => ?_, hs.handles, hs.clients, hs.free, hs.send, ?_⟩
  · simp [Function.update_apply, hs.caller]
  · simp [hs.sendQ, List.replicate_succ']

/-- Direct messages to one client fill `send_q`. -/
theorem Queued.fill {p : Peer} (hs : Queued p 0 s) (cfg : Config) {n : Nat} (hn : n ≤ cfg.cap) :
    ∃ t, (system cfg).Leads s t ∧ Queued p n t := by
  induction n with
  | zero => exact ⟨s, .refl, hs⟩
  | succ n ih =>
      obtain ⟨t, ht, hqueued⟩ := ih (by omega)
      obtain ⟨u, hu, hmore⟩ := hqueued.more cfg (by omega)
      exact ⟨u, ht.trans hu, hmore⟩

/-- The first `send` fails while a broadcast begins with `send_q` full again. -/
theorem Queued.jam {p : Peer} (hs : Queued p cfg.cap s) (hcap : 0 < cfg.cap) :
    ∃ t, (system cfg).Leads s t ∧ t.Jammed cfg := by
  obtain ⟨n, hn⟩ : ∃ n, cfg.cap = n + 1 := ⟨cfg.cap - 1, by omega⟩
  have hq : s.sendQ = { peer := p, data := [] } :: List.replicate n { peer := p, data := [] } := by
    rw [hs.sendQ, hn, List.replicate_succ]
  refine ⟨_, System.leads_of_exec
    [.send .pop, .call 0 (.send p []), .call 0 .push, .call 0 (.broadcast []),
      .call 0 .lockClients, .send .sendFail, .send .cleanup, .send .cleanup]
    (by simp [system, next, callNext, sendNext, cleanupNext, hs.caller, hs.handles, hs.free,
      hs.send, hq, callerAt, hn]; rfl), ?_⟩
  refine ⟨rfl, ⟨0, [], 0, ?_, ?_⟩, ?_⟩
  · simp
  · simp [hs.clients]
  · simp [hn]

/-- With any capacity the jam is reachable, with a single client. -/
theorem jammed_reachable (cap : Nat) (hcap : 0 < cap) :
    ∃ s, (system { cap := cap, listenFd := 3 }).Reachable s ∧
      s.Jammed { cap := cap, listenFd := 3 } := by
  have hlisted : ∃ s, (system { cap := cap, listenFd := 3 }).exec (start (openFiles 6))
      listedClient = some s ∧ Queued { fd := 6, conn := some 0 } 0 s := by
    refine ⟨_, rfl, fun k => ?_, ?_, rfl, rfl, rfl, rfl⟩
    · simp [callerAt, start]
    · exact List.mem_singleton.mpr rfl
  obtain ⟨s, hexec, hs⟩ := hlisted
  obtain ⟨t, ht, hfull⟩ := hs.fill { cap := cap, listenFd := 3 } le_rfl
  obtain ⟨u, hu, hjam⟩ := hfull.jam hcap
  exact ⟨u, ((System.reachable_of_exec _ (init_openFiles _ 6) hexec).leads ht).leads hu, hjam⟩

/-- With the capacity of the program, 128, the sending side can deadlock. -/
theorem sendingSide_deadlocks :
    ∃ s, (system { cap := 128, listenFd := 3 }).Reachable s ∧
      (s.waitGraph { cap := 128, listenFd := 3 }).Deadlocked ∧
      s.Jammed { cap := 128, listenFd := 3 } := by
  obtain ⟨s, hreach, hjam⟩ := jammed_reachable 128 (by decide)
  exact ⟨s, hreach, hjam.deadlocked (mutexInv_of_reachable hreach), hjam⟩

end Jam

end Server

end SgMuni
