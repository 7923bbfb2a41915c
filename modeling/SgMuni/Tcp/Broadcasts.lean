import SgMuni.Tcp.Locks
import SgMuni.Transition.History

/-!
# The order of broadcasts

`SgTcpServer_broadcast` holds `clients_mtx` while it pushes a copy for every
entry of the registry, also while a push waits for room. A ledger of what enters
`send_q` and leaves it numbers the broadcasts in the order in which they take
the mutex and marks each copy with the number of its broadcast. The numbers in
the ledger never decrease, and `send_q` is a FIFO queue, so that every client
receives the broadcasts in the order of their numbers.
-/

namespace SgMuni

/-- A call of `SgTcpServer_broadcast`: its payload, and the registry when it took
`clients_mtx`. -/
structure Broadcast where
  data : List UInt8
  addressed : List Peer
deriving DecidableEq

def Broadcast.copies (b : Broadcast) : List Msg :=
  b.addressed.map fun p => { peer := p, data := b.data }

inductive QueueEvent
  | locked (k : Nat) (b : Broadcast)
  | copied (k : Nat) (m : Msg)
  | finished (k : Nat)
  | sent (m : Msg)
  | popped (m : Msg)
deriving DecidableEq

/-- The broadcasts by their numbers, the one that each caller is in, the messages
that entered `send_q` with the number of their broadcast, and those that left. -/
structure Ledger where
  broadcasts : List Broadcast
  current : Nat → Option Nat
  enqueued : List (Option Nat × Msg)
  popped : List Msg

namespace Ledger

def add (l : Ledger) : QueueEvent → Ledger
  | .locked k b =>
      { l with
        broadcasts := l.broadcasts ++ [b]
        current := Function.update l.current k (some l.broadcasts.length) }
  | .copied k m => { l with enqueued := l.enqueued ++ [(l.current k, m)] }
  | .finished k => { l with current := Function.update l.current k none }
  | .sent m => { l with enqueued := l.enqueued ++ [(none, m)] }
  | .popped m => { l with popped := l.popped ++ [m] }

/-- The copies of broadcast `i` in a list of messages. -/
def copiesIn (i : Nat) (es : List (Option Nat × Msg)) : List Msg :=
  (es.filter (·.1 = some i)).map (·.2)

theorem copiesIn_append (i : Nat) (es es' : List (Option Nat × Msg)) :
    copiesIn i (es ++ es') = copiesIn i es ++ copiesIn i es' := by
  simp [copiesIn]

@[simp] theorem copiesIn_concat_none (i : Nat) (es : List (Option Nat × Msg)) (m : Msg) :
    copiesIn i (es ++ [(none, m)]) = copiesIn i es := by
  simp [copiesIn]

theorem copiesIn_concat_some (i j : Nat) (es : List (Option Nat × Msg)) (m : Msg) :
    copiesIn i (es ++ [(some j, m)]) = copiesIn i es ++ if j = i then [m] else [] := by
  by_cases hj : j = i <;> simp [copiesIn, hj]

theorem copiesIn_eq_nil {i : Nat} {es : List (Option Nat × Msg)}
    (h : i ∉ es.filterMap (·.1)) : copiesIn i es = [] := by
  have hnone : es.filter (·.1 = some i) = [] := by
    apply List.filter_eq_nil_iff.mpr
    intro e he
    simpa using fun hi => h (List.mem_filterMap.mpr ⟨e, he, hi⟩)
  simp [copiesIn, hnone]

/-- What `send_loop` popped, with the numbers of the broadcasts. -/
def taken (l : Ledger) : List (Option Nat × Msg) := l.enqueued.take l.popped.length

/-- When a copy of broadcast `j` for a client is popped, every copy of broadcast
`i` for that client was popped before. -/
def Precedes (l : Ledger) (i j : Nat) (p : Peer) : Prop :=
  ∀ y m, l.taken[y]? = some (some j, m) → m.peer = p →
    ∀ b, l.broadcasts[i]? = some b →
      ((copiesIn i (l.taken.take y)).map (·.peer)).count p = b.addressed.count p

end Ledger

/-- The ledger of a history. -/
def ledger (log : List QueueEvent) : Ledger :=
  log.foldl Ledger.add { broadcasts := [], current := fun _ => none, enqueued := [], popped := [] }

@[simp] theorem ledger_concat (log : List QueueEvent) (e : QueueEvent) :
    ledger (log ++ [e]) = (ledger log).add e := by
  simp [ledger]

namespace Server

open Transition

/-- What a step of the server does with `send_q` and broadcasts. -/
def queueEvents (s : Server) : Action → List QueueEvent
  | .call k .lockClients =>
      match s.caller k with
      | .broadcastLock data => [.locked k { data := data, addressed := s.clients }]
      | _ => []
  | .call k .broadcastPush =>
      match s.caller k with
      | .broadcasting data i =>
          (s.clients[i]?).toList.map fun p => .copied k { peer := p, data := data }
      | _ => []
  | .call k .broadcastEnd => [.finished k]
  | .call k .push =>
      match s.caller k with
      | .pushing m => [.sent m]
      | _ => []
  | .ack .visit =>
      match s.ack with
      | .sweeping now pos =>
          match s.pending[pos]? with
          | some p => if p.closed = false ∧ p.due now = true then [.sent (s.resendMsg p)] else []
          | none => []
      | _ => []
  | .send .pop => (s.sendQ.head?).toList.map .popped
  | _ => []

/-- What every run keeps of its ledger. -/
structure Booked (s : Server) (l : Ledger) : Prop where
  fifo : l.enqueued.map (·.2) = l.popped ++ s.sendQ
  sorted : (l.enqueued.filterMap (·.1)).Pairwise (· ≤ ·)
  number_lt : ∀ i ∈ l.enqueued.filterMap (·.1), i < l.broadcasts.length
  idle : ∀ k, (∀ data i, s.caller k ≠ .broadcasting data i) → l.current k = none
  running : ∀ k data i, s.caller k = .broadcasting data i →
    ∃ j, l.current k = some j ∧ l.broadcasts.length = j + 1 ∧
      l.broadcasts[j]? = some { data := data, addressed := s.clients } ∧
      Ledger.copiesIn j l.enqueued = (Broadcast.copies { data := data, addressed := s.clients }).take i
  complete : ∀ j b, l.broadcasts[j]? = some b → (∀ k, l.current k ≠ some j) →
    Ledger.copiesIn j l.enqueued = b.copies

variable {cfg : Config} {s s' : Server} {l : Ledger}

theorem Booked.quiet (h : s.Booked l) (hq : s'.sendQ = s.sendQ)
    (hcaller : ∀ k data i, s'.caller k = .broadcasting data i ↔ s.caller k = .broadcasting data i)
    (hclients : ∀ k data i, s.caller k = .broadcasting data i → s'.clients = s.clients) :
    s'.Booked l where
  fifo := by rw [hq]; exact h.fifo
  sorted := h.sorted
  number_lt := h.number_lt
  idle k hk := h.idle k fun data i hb => hk data i ((hcaller k data i).mpr hb)
  running k data i hb := by
    have hb' := (hcaller k data i).mp hb
    rw [hclients k data i hb']
    exact h.running k data i hb'
  complete := h.complete

/-- A message that is no copy of a broadcast enters `send_q`. -/
theorem Booked.sent {m : Msg} (h : s.Booked l) (hq : s'.sendQ = s.sendQ ++ [m])
    (hcaller : ∀ k data i, s'.caller k = .broadcasting data i ↔ s.caller k = .broadcasting data i)
    (hclients : s'.clients = s.clients) : s'.Booked (l.add (.sent m)) where
  fifo := by simp [Ledger.add, hq, h.fifo]
  sorted := by simpa [Ledger.add] using h.sorted
  number_lt := by simpa [Ledger.add] using h.number_lt
  idle k hk := h.idle k fun data i hb => hk data i ((hcaller k data i).mpr hb)
  running k data i hb := by
    rw [hclients]
    simpa [Ledger.add] using h.running k data i ((hcaller k data i).mp hb)
  complete j b hb hcurrent := by
    simpa [Ledger.add] using h.complete j b hb hcurrent

theorem Booked.popped {m : Msg} {rest : List Msg} (h : s.Booked l) (hq : s.sendQ = m :: rest) :
    Booked { s with sendQ := rest, send := .sending m } (l.add (.popped m)) where
  fifo := by simp [Ledger.add, h.fifo, hq]
  sorted := h.sorted
  number_lt := h.number_lt
  idle := h.idle
  running := h.running
  complete := h.complete

/-- A caller takes `clients_mtx` for a broadcast while nobody is in one. -/
theorem Booked.locked {k : Nat} {data : List UInt8} (h : s.Booked l)
    (hfree : ∀ j data i, s.caller j ≠ .broadcasting data i) :
    Booked { s.callerAt k (.broadcasting data 0) with clientsMtx := some (.caller k) }
      (l.add (.locked k { data := data, addressed := s.clients })) where
  fifo := h.fifo
  sorted := h.sorted
  number_lt i hi := by
    have hlt := h.number_lt i hi
    simp only [Ledger.add, List.length_append, List.length_singleton]
    exact Nat.lt_succ_of_lt hlt
  idle j hj := by
    have hne : j ≠ k := by
      rintro rfl
      exact hj data 0 (callerAt_caller s j _)
    simpa [Ledger.add, hne] using h.idle j (hfree j)
  running j data' i hb := by
    have hj : j = k := by
      by_contra hne
      have hold : s.caller j = .broadcasting data' i := by
        simpa [callerAt, hne] using hb
      exact hfree j data' i hold
    subst hj
    cases (callerAt_caller s j _).symm.trans hb
    have hnone : Ledger.copiesIn l.broadcasts.length l.enqueued = [] := by
      apply Ledger.copiesIn_eq_nil
      intro hmem
      exact (h.number_lt _ hmem).false
    refine ⟨l.broadcasts.length, ?_, ?_, ?_, ?_⟩
    · simp [Ledger.add]
    · simp [Ledger.add]
    · simp [Ledger.add, callerAt]
    · simpa [Ledger.add] using hnone
  complete j b hb hcurrent := by
    have hj : j ≠ l.broadcasts.length := by
      rintro rfl
      exact hcurrent k (by simp [Ledger.add])
    have hlt : j < l.broadcasts.length := by
      have hle : j < (l.broadcasts ++ [_]).length := (List.getElem?_eq_some_iff.mp hb).1
      simp only [List.length_append, List.length_singleton] at hle
      omega
    apply h.complete j b
    · simpa [Ledger.add, List.getElem?_append_left hlt] using hb
    · intro k'
      rw [h.idle k' (hfree k')]
      simp

/-- Nobody but caller `k` is in a broadcast. -/
def OnlyBroadcaster (s : Server) (k : Nat) : Prop :=
  ∀ j, j ≠ k → ∀ data i, s.caller j ≠ .broadcasting data i

/-- The caller in a broadcast pushes the copy for the next entry. -/
theorem Booked.copied {k i : Nat} {data : List UInt8} {p : Peer} (h : s.Booked l)
    (honly : s.OnlyBroadcaster k) (hk : s.caller k = .broadcasting data i)
    (hp : s.clients[i]? = some p) :
    Booked
      { s.callerAt k (.broadcasting data (i + 1)) with
        sendQ := s.sendQ ++ [{ peer := p, data := data }] }
      (l.add (.copied k { peer := p, data := data })) := by
  obtain ⟨j, hcurrent, hlen, hb, hcopies⟩ := h.running k data i hk
  have henq : (l.add (.copied k { peer := p, data := data })).enqueued =
      l.enqueued ++ [(some j, { peer := p, data := data })] := by
    simp [Ledger.add, hcurrent]
  constructor
  case fifo =>
    rw [henq]
    simp [Ledger.add, h.fifo]
  case sorted =>
    rw [henq]
    simp only [List.filterMap_append, List.filterMap_cons, List.filterMap_nil]
    apply List.pairwise_append.mpr
    refine ⟨h.sorted, List.pairwise_singleton _ _, ?_⟩
    intro a ha b hb
    have hlt := h.number_lt a ha
    cases List.mem_singleton.mp hb
    omega
  case number_lt =>
    rw [henq]
    intro a ha
    rw [List.filterMap_append] at ha
    rcases List.mem_append.mp ha with hold | hnew
    · exact h.number_lt a hold
    · cases List.mem_singleton.mp hnew
      exact hlen ▸ Nat.lt_succ_self j
  case idle =>
    intro k' hk'
    have hne : k' ≠ k := by
      rintro rfl
      exact hk' data (i + 1) (callerAt_caller s k' _)
    exact h.idle k' (honly k' hne)
  case running =>
    intro k' data' i' hb'
    have hk' : k' = k := by
      by_contra hne
      have hold : s.caller k' = .broadcasting data' i' := by
        simpa [callerAt, hne] using hb'
      exact honly k' hne data' i' hold
    subst hk'
    cases (callerAt_caller s k' _).symm.trans hb'
    refine ⟨j, hcurrent, hlen, hb, ?_⟩
    have hnext : (Broadcast.copies { data := data, addressed := s.clients })[i]? =
        some { peer := p, data := data } := by
      simp [Broadcast.copies, hp]
    calc
      Ledger.copiesIn j (l.add (.copied k' { peer := p, data := data })).enqueued
        = Ledger.copiesIn j l.enqueued ++ [{ peer := p, data := data }] := by
          rw [henq, Ledger.copiesIn_concat_some, if_pos rfl]
      _ = (Broadcast.copies { data := data, addressed := s.clients }).take (i + 1) := by
          rw [hcopies, List.take_add_one, hnext, Option.toList_some]
  case complete =>
    intro j' b' hb' hcurrent'
    have hne : j ≠ j' := by
      rintro rfl
      exact hcurrent' k hcurrent
    rw [henq, Ledger.copiesIn_concat_some, if_neg hne, List.append_nil]
    exact h.complete j' b' hb' hcurrent'

/-- A broadcast ends behind the last entry. -/
theorem Booked.finished {k i : Nat} {data : List UInt8} (h : s.Booked l)
    (honly : s.OnlyBroadcaster k) (hk : s.caller k = .broadcasting data i)
    (hlast : s.clients.length ≤ i) :
    Booked { s.callerAt k .idle with clientsMtx := none } (l.add (.finished k)) := by
  obtain ⟨j, hcurrent, hlen, hb, hcopies⟩ := h.running k data i hk
  constructor
  case fifo => exact h.fifo
  case sorted => exact h.sorted
  case number_lt => exact h.number_lt
  case idle =>
    intro k' hk'
    by_cases hne : k' = k
    · simp [Ledger.add, hne]
    · simpa [Ledger.add, hne] using h.idle k' (honly k' hne)
  case running =>
    intro k' data' i' hb'
    by_cases hne : k' = k
    · simp [callerAt, hne] at hb'
    · have hold : s.caller k' = .broadcasting data' i' := by simpa [callerAt, hne] using hb'
      exact absurd hold (honly k' hne data' i')
  case complete =>
    intro j' b' hb' hcurrent'
    by_cases hj : j' = j
    · subst hj
      cases hb.symm.trans hb'
      rw [show (l.add (.finished k)).enqueued = l.enqueued from rfl, hcopies]
      apply List.take_of_length_le
      simpa [Broadcast.copies] using hlast
    · apply h.complete j' b' hb'
      intro k' hk'
      by_cases hne : k' = k
      · subst hne
        exact hj (Option.some.inj (hk'.symm.trans hcurrent))
      · exact hcurrent' k' (by simpa [Ledger.add, hne] using hk')

theorem holdsClients_of_broadcasting {k i : Nat} {data : List UInt8}
    (hk : s.caller k = .broadcasting data i) : s.holdsClients (.caller k) = true := by
  simp [holdsClients, hk]

theorem onlyBroadcaster_of_broadcasting (hinv : MutexInv s) {k i : Nat} {data : List UInt8}
    (hk : s.caller k = .broadcasting data i) : s.OnlyBroadcaster k := by
  intro j hj data' i' hb
  have hsame := hinv.clients.unique (holdsClients_of_broadcasting hk)
    (holdsClients_of_broadcasting hb)
  exact hj (Tid.caller.inj hsame).symm

theorem not_broadcasting_of_free (hinv : MutexInv s) (hfree : s.clientsMtx = none) (k : Nat)
    (data : List UInt8) (i : Nat) : s.caller k ≠ .broadcasting data i := by
  intro hk
  have hout := hinv.clients.outside_of_free hfree (.caller k)
  simp [holdsClients_of_broadcasting hk] at hout

theorem callerAt_broadcasting {k : Nat} {q : CallerPc}
    (hk : ∀ data i, s.caller k ≠ .broadcasting data i) (hq : ∀ data i, q ≠ .broadcasting data i)
    (j : Nat) (data : List UInt8) (i : Nat) :
    (s.callerAt k q).caller j = .broadcasting data i ↔ s.caller j = .broadcasting data i := by
  by_cases hj : j = k
  · subst hj
    rw [callerAt_caller]
    exact ⟨fun h => absurd h (hq data i), fun h => absurd h (hk data i)⟩
  · simp [callerAt, hj]

theorem Booked.io {log : List QueueEvent} {a : IoAct} (h : s.Booked (ledger log))
    (hinv : MutexInv s) (hmove : IoMove cfg s a s') :
    s'.Booked (ledger (log ++ s.queueEvents (.io a))) := by
  rw [show s.queueEvents (.io a) = [] from rfl, List.append_nil]
  apply h.quiet hmove.frame.sendQ
  · simp [hmove.frame.caller]
  · intro k data i hb
    apply hmove.clients_eq.resolve_right
    intro hin
    exact Tid.noConfusion (hinv.clients.unique hin (holdsClients_of_broadcasting hb))

theorem Booked.send {log : List QueueEvent} {a : SendAct} (h : s.Booked (ledger log))
    (hinv : MutexInv s) (hmove : SendMove s a s') :
    s'.Booked (ledger (log ++ s.queueEvents (.send a))) := by
  have hclients : ∀ k data i, s.caller k = .broadcasting data i → s'.clients = s.clients := by
    intro k data i hb
    apply hmove.clients_eq.resolve_right
    intro hin
    exact Tid.noConfusion (hinv.clients.unique hin (holdsClients_of_broadcasting hb))
  have hframe := hmove.frame
  cases hmove with
  | @pop m rest send sendQ =>
      have hevents : s.queueEvents (.send .pop) = [.popped m] := by simp [queueEvents, sendQ]
      rw [hevents, ledger_concat]
      exact h.popped sendQ
  | sendOk send owner pos le =>
      rw [show s.queueEvents (.send (.sendOk _)) = [] from rfl, List.append_nil]
      exact h.quiet rfl (fun _ _ _ => .rfl) hclients
  | sendFail send =>
      rw [show s.queueEvents (.send .sendFail) = [] from rfl, List.append_nil]
      exact h.quiet rfl (fun _ _ _ => .rfl) hclients
  | cleanup send move =>
      rw [show s.queueEvents (.send .cleanup) = [] from rfl, List.append_nil]
      refine h.quiet ?_ (fun k data i => ?_) hclients
      · cases move <;> rfl
      · rw [hframe.caller]

theorem Booked.call {log : List QueueEvent} {k : Nat} {a : CallAct} (h : s.Booked (ledger log))
    (hinv : MutexInv s) (hmove : CallMove cfg s k a s') :
    s'.Booked (ledger (log ++ s.queueEvents (.call k a))) := by
  cases hmove with
  | @push m caller room =>
      have hevents : s.queueEvents (.call k .push) = [.sent m] := by simp [queueEvents, caller]
      rw [hevents, ledger_concat]
      refine h.sent rfl ?_ rfl
      exact callerAt_broadcasting (by simp [caller]) (by simp)
  | @lockBroadcast data caller free =>
      have hevents : s.queueEvents (.call k .lockClients) =
          [.locked k { data := data, addressed := s.clients }] := by
        simp [queueEvents, caller]
      rw [hevents, ledger_concat]
      exact h.locked (not_broadcasting_of_free hinv free)
  | lockList caller free =>
      have hevents : s.queueEvents (.call k .lockClients) = [] := by simp [queueEvents, caller]
      rw [hevents, List.append_nil]
      refine h.quiet rfl ?_ fun _ _ _ _ => rfl
      exact callerAt_broadcasting (by simp [caller]) (by simp)
  | @broadcastPush data i p caller client room =>
      have hevents : s.queueEvents (.call k .broadcastPush) =
          [.copied k { peer := p, data := data }] := by
        simp [queueEvents, caller, client]
      rw [hevents, ledger_concat]
      exact h.copied (onlyBroadcaster_of_broadcasting hinv caller) caller client
  | broadcastEnd caller last =>
      rw [show s.queueEvents (.call k .broadcastEnd) = [.finished k] from rfl, ledger_concat]
      exact h.finished (onlyBroadcaster_of_broadcasting hinv caller) caller last
  | _ =>
      rw [show s.queueEvents (.call k _) = [] from rfl, List.append_nil]
      refine h.quiet rfl ?_ fun _ _ _ _ => rfl
      exact callerAt_broadcasting (by simp [*]) (by simp)

theorem Booked.ack {log : List QueueEvent} {a : AckAct} (h : s.Booked (ledger log))
    (hmove : AckMove cfg s a s') : s'.Booked (ledger (log ++ s.queueEvents (.ack a))) := by
  cases hmove with
  | @resend now pos p ack node isOpen due room =>
      have hevents : s.queueEvents (.ack .visit) = [.sent (s.resendMsg p)] := by
        simp [queueEvents, ack, node, isOpen, due]
      rw [hevents, ledger_concat]
      exact h.sent rfl (fun _ _ _ => .rfl) rfl
  | delete ack node closed =>
      have hevents : s.queueEvents (.ack .visit) = [] := by
        simp [queueEvents, ack, node, closed]
      rw [hevents, List.append_nil]
      exact h.quiet rfl (fun _ _ _ => .rfl) fun _ _ _ _ => rfl
  | pass ack node isOpen due =>
      have hevents : s.queueEvents (.ack .visit) = [] := by
        simp [queueEvents, ack, node, due]
      rw [hevents, List.append_nil]
      exact h.quiet rfl (fun _ _ _ => .rfl) fun _ _ _ _ => rfl
  | _ =>
      rw [show s.queueEvents (.ack _) = [] from rfl, List.append_nil]
      exact h.quiet rfl (fun _ _ _ => .rfl) fun _ _ _ _ => rfl

theorem Booked.next {log : List QueueEvent} {a : Action} (h : s.Booked (ledger log))
    (hinv : MutexInv s) (hn : next cfg s a = some s') :
    s'.Booked (ledger (log ++ s.queueEvents a)) := by
  cases a with
  | io a => exact h.io hinv (ioNext_move hn)
  | send a => exact h.send hinv (sendNext_move hn)
  | call k a => exact h.call hinv (callNext_move hn)
  | ack a => exact h.ack (ackNext_move hn)
  | env a =>
      have hframe := (envNext_move hn).frame
      rw [show s.queueEvents (.env a) = [] from rfl, List.append_nil]
      apply h.quiet hframe.sendQ
      · simp [hframe.caller]
      · intro _ _ _ _
        exact hframe.clients

theorem booked_of_reachable {log : List QueueEvent}
    (h : ((system cfg).recording queueEvents).Reachable (s, log)) : s.Booked (ledger log) := by
  apply System.recording_invariant (C := fun _ _ => True) (p := (s, log))
    (P := fun s log => s.Booked (ledger log)) h
  · rintro _ ⟨table, -, rfl⟩
    constructor <;> simp [ledger, start, Ledger.copiesIn]
  · intro s log a t hreach _ hn hs
    exact hs.next (mutexInv_of_reachable hreach) hn

/-- A broadcast that some caller is in is the last one. -/
theorem Booked.not_current {i j : Nat} (h : s.Booked l) (hij : i < j)
    (hj : j < l.broadcasts.length) (k : Nat) : l.current k ≠ some i := by
  intro hk
  by_cases hb : ∀ data n, s.caller k ≠ .broadcasting data n
  · simp [h.idle k hb] at hk
  · push Not at hb
    obtain ⟨data, n, hb⟩ := hb
    obtain ⟨i', hi', hlen, -⟩ := h.running k data n hb
    cases hk.symm.trans hi'
    omega

theorem Booked.number_of_enqueued {i : Nat} {m : Msg} (h : s.Booked l)
    (hm : (some i, m) ∈ l.enqueued) : i < l.broadcasts.length :=
  h.number_lt i (List.mem_filterMap.mpr ⟨_, hm, rfl⟩)

/-- The copies of a broadcast all enter `send_q` before any of a later one. -/
theorem Booked.precedes {i j : Nat} (h : s.Booked l) (hij : i < j) (p : Peer) :
    l.Precedes i j p := by
  intro y m hy _ b hb
  obtain ⟨hylt, hyq⟩ : y < l.popped.length ∧ l.enqueued[y]? = some (some j, m) := by
    simpa [Ledger.taken, List.getElem?_take] using hy
  have hfront : l.taken.take y = l.enqueued.take y := by
    rw [Ledger.taken, List.take_take, min_eq_left hylt.le]
  have hsplit : l.enqueued = l.enqueued.take y ++ l.enqueued.drop y :=
    (List.take_append_drop y l.enqueued).symm
  have hdrop : l.enqueued.drop y = (some j, m) :: l.enqueued.drop (y + 1) := by
    rw [List.drop_eq_getElem?_toList_append, hyq, Option.toList_some, List.singleton_append]
  have hlater : Ledger.copiesIn i (l.enqueued.drop y) = [] := by
    apply Ledger.copiesIn_eq_nil
    have hsorted := h.sorted
    rw [hsplit, List.filterMap_append] at hsorted
    have htail := (List.pairwise_append.mp hsorted).2.1
    rw [hdrop] at htail ⊢
    intro hi
    rcases List.mem_cons.mp hi with rfl | hi
    · exact hij.false
    · exact absurd ((List.pairwise_cons.mp htail).1 i hi) (by simpa using hij)
  have hj : j < l.broadcasts.length := h.number_of_enqueued (List.mem_of_getElem? hyq)
  have hcopies : Ledger.copiesIn i (l.enqueued.take y) = b.copies :=
    calc
      Ledger.copiesIn i (l.enqueued.take y)
        = Ledger.copiesIn i (l.enqueued.take y ++ l.enqueued.drop y) := by
          rw [Ledger.copiesIn_append, hlater, List.append_nil]
      _ = Ledger.copiesIn i l.enqueued := by rw [← hsplit]
      _ = b.copies := h.complete i b hb (h.not_current hij hj)
  rw [hfront, hcopies]
  simp [Broadcast.copies, Function.comp_def]

theorem Booked.copies_prefix {i : Nat} {b : Broadcast} (h : s.Booked l)
    (hb : l.broadcasts[i]? = some b) : Ledger.copiesIn i l.enqueued <+: b.copies := by
  by_cases hcurrent : ∀ k, l.current k ≠ some i
  · rw [h.complete i b hb hcurrent]
  · push Not at hcurrent
    obtain ⟨k, hk⟩ := hcurrent
    by_cases hidle : ∀ data n, s.caller k ≠ .broadcasting data n
    · simp [h.idle k hidle] at hk
    · push Not at hidle
      obtain ⟨data, n, hcall⟩ := hidle
      obtain ⟨j, hj, -, hbj, hcopies⟩ := h.running k data n hcall
      cases hk.symm.trans hj
      cases hb.symm.trans hbj
      rw [hcopies]
      exact List.take_prefix n _

/-- `send_loop` pops the messages in the order in which they entered `send_q`. A
broadcast enqueues one copy for each entry of the registry as it took
`clients_mtx`, in that order, and has enqueued them all when it returns. Of two
broadcasts one is before the other for every client. -/
theorem broadcasts_totally_ordered {log : List QueueEvent}
    (h : ((system cfg).recording queueEvents).Reachable (s, log)) :
    (ledger log).enqueued.map (·.2) = (ledger log).popped ++ s.sendQ ∧
    (∀ i b, (ledger log).broadcasts[i]? = some b →
      Ledger.copiesIn i (ledger log).enqueued <+: b.copies ∧
      ((∀ k, (ledger log).current k ≠ some i) →
        Ledger.copiesIn i (ledger log).enqueued = b.copies)) ∧
    ∀ i j, i ≠ j →
      (∀ p, (ledger log).Precedes i j p) ∨ ∀ p, (ledger log).Precedes j i p := by
  have hbooked : s.Booked (ledger log) := booked_of_reachable h
  refine ⟨hbooked.fifo, ?_, ?_⟩
  · intro i b hb
    exact ⟨hbooked.copies_prefix hb, hbooked.complete i b hb⟩
  · intro i j hij
    rcases Nat.lt_or_gt_of_ne hij with hlt | hgt
    · exact .inl (hbooked.precedes hlt)
    · exact .inr (hbooked.precedes hgt)

/-- Callers 2 and 1 broadcast to both clients, with a direct message to the first one between
the copies. -/
def twoBroadcasts : List Action :=
  twoClients ++
    [.call 1 (.broadcast [0x31]), .call 2 (.broadcast [0x32]), .call 2 .lockClients,
      .call 2 .broadcastPush, .call 0 (.send { fd := 6, conn := some 0 } [0x30]), .call 0 .push,
      .call 2 .broadcastPush, .call 2 .broadcastEnd, .call 1 .lockClients, .call 1 .broadcastPush,
      .send .pop, .send (.sendOk 1), .send .pop, .call 1 .broadcastPush, .call 1 .broadcastEnd,
      .send (.sendOk 1), .send .pop]

theorem broadcasts_totally_ordered_twoBroadcasts :
    ∃ s log, ((system { cap := 128, listenFd := 3 }).recording queueEvents).exec
        (start (openFiles 6), []) twoBroadcasts = some (s, log) ∧
      (ledger log).enqueued.map (·.1) = [some 0, none, some 0, some 1, some 1] ∧
      (ledger log).enqueued.map (·.2) = (ledger log).popped ++ s.sendQ ∧
      (∀ i b, (ledger log).broadcasts[i]? = some b →
        Ledger.copiesIn i (ledger log).enqueued <+: b.copies ∧
        ((∀ k, (ledger log).current k ≠ some i) →
          Ledger.copiesIn i (ledger log).enqueued = b.copies)) ∧
      ∀ i j, i ≠ j →
        (∀ p, (ledger log).Precedes i j p) ∨ ∀ p, (ledger log).Precedes j i p :=
  ⟨_, _, rfl, rfl, broadcasts_totally_ordered
    (System.reachable_of_exec (s := (start (openFiles 6), [])) twoBroadcasts
      ⟨init_openFiles { cap := 128, listenFd := 3 } 6, rfl⟩ rfl)⟩

end Server

end SgMuni
