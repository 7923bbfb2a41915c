import SgMuni.Request.Lines
import SgMuni.Request.Ownership
import SgMuni.Lift.Clearing

/-!
# When requests take effect

A message that `io_loop` has read passes `recv_q`, `worker_loop` and the queue
of its type before a handler runs the critical section that it asks for. Every
queue keeps the order of the messages, but the three handlers are threads of
their own, and only the mutexes order what they do.

## Implementation notes

The history lists the messages as they were read, and the critical sections as
they were run, with the number of the message that asked for them. A section is
one step, as its mutex makes it, and so is the `read` of a message with its push
on `recv_q`, which waits for room. What else the handlers do is no effect.
-/

namespace SgMuni

structure Requests where
  recvQ : List SgTcpMessage
  tasks : Tasks
  count : Count

namespace Requests

open Transition

inductive Action
  | read (msg : SgTcpMessage)
  | deliver
  | worker (a : Tasks.WorkerAct)
  | handler (q : TaskQueue) (a : Tasks.HandlerAct) (w : WriteCalls) (r : ReadCalls)
  | lift (w : WriteCalls)

/-- What a statement of a handler does to the count. -/
def countNext (c : Count) (w : WriteCalls) (r : ReadCalls) : Option (Nat × HandlerStep) → Count
  | some (_, .clearCount) => (binClrHandler c w r).count
  | _ => c

/-- `cap` is the capacity of `recv_q`. A lift may come at any time. -/
def next (cap : Nat) (s : Requests) : Action → Option Requests
  | .read msg => if s.recvQ.length < cap then some { s with recvQ := s.recvQ ++ [msg] } else none
  | .deliver =>
      match s.recvQ with
      | msg :: rest =>
          (s.tasks.workerNext (.receive msg)).map fun tasks => { s with recvQ := rest, tasks }
      | [] => none
  | .worker (.receive _) => none
  | .worker a => (s.tasks.workerNext a).map fun tasks => { s with tasks }
  | .handler q a w r =>
      (s.tasks.handlerNext q a).map fun tasks =>
        { s with tasks, count := countNext s.count w r (s.tasks.statement q a) }
  | .lift w =>
      let bincount := C.wrap (s.count.bincount + 1)
      some { s with count := { bincount, file := (s.count.file.writeBincountToFile bincount w).1 } }

/-- Nothing was read, and the count is the one that was loaded. -/
def start (heap : Nat → TaskObject) (count : Count) : Requests where
  recvQ := []
  tasks := Tasks.start heap
  count := count

def system (cap : Nat) : System Requests Action where
  init s := ∃ heap count, s = start heap count
  next := next cap

/-- What the history tells of: messages that were read, lifts, counts that were
sampled for a reply, clears, and whether their 0 arrives in the file, and searches
of the pending list. -/
inductive Event
  | sent (msg : SgTcpMessage)
  | lifted
  | sampled (t : Nat) (value : Int)
  | cleared (t : Nat) (arrived : Bool)
  | searched (t : Nat)
deriving DecidableEq

def report (s : Requests) : Action → List Event
  | .read msg => [.sent msg]
  | .handler q a w _ =>
      match s.tasks.statement q a with
      | some (t, .formatCount) => [.sampled t s.count.bincount]
      | some (t, .clearCount) => [.cleared t (s.count.file.arrives w)]
      | some (t, .searchPending) => [.searched t]
      | _ => []
  | .lift _ => [.lifted]
  | _ => []

def Event.message : Event → Option SgTcpMessage
  | .sent msg => some msg
  | _ => none

/-- The kind and the number of the request that takes effect. -/
def Event.effect : Event → Option (TaskQueue × Nat)
  | .sampled t _ => some (.binQuery, t)
  | .cleared t _ => some (.binClear, t)
  | .searched t => some (.binAck, t)
  | _ => none

/-- The messages in the order of sending. -/
def messages (log : List Event) : List SgTcpMessage := log.filterMap Event.message

/-- The requests in the order in which they took effect. -/
def effects (log : List Event) : List (TaskQueue × Nat) := log.filterMap Event.effect

/-- The effects of one kind. -/
def effectsOf (q : TaskQueue) (log : List Event) : List Nat :=
  ((effects log).filter (·.1 = q)).map Prod.snd

/-- A message with this number was sent, and it is a request of this kind. -/
def IsRequest (ms : List SgTcpMessage) (q : TaskQueue) (t : Nat) : Prop :=
  ∃ msg type request,
    ms[t]? = some msg ∧ onMessageTask msg = some (type, request) ∧ type.queue = some q

/-- The count was cleared in the file, and no lift was counted since. -/
def ClearedSince (log : List Event) : Prop :=
  ∃ pre t mid, log = pre ++ .cleared t true :: mid ∧ .lifted ∉ mid

/-- Requests of one kind take effect in the order in which they were sent, none
before it was sent; a count sampled after a clear is 0. -/
structure InOrder (log : List Event) : Prop where
  sent : System.EachEvent (fun pre e =>
    ∀ q t, e.effect = some (q, t) → IsRequest (messages pre) q t) log
  ordered : ∀ q, (effectsOf q log).Pairwise (· < ·)
  zero : System.EachEvent (fun pre e =>
    ∀ t value, e = .sampled t value → ClearedSince pre → value = 0) log

section Histories

variable {log log' : List Event} {q : TaskQueue} {t : Nat} {e : Event}

@[simp] theorem messages_append : messages (log ++ log') = messages log ++ messages log' :=
  List.filterMap_append

@[simp] theorem effectsOf_append :
    effectsOf q (log ++ log') = effectsOf q log ++ effectsOf q log' := by
  simp [effectsOf, effects]

theorem IsRequest.append {ms : List SgTcpMessage} (h : IsRequest ms q t)
    (ms' : List SgTcpMessage) : IsRequest (ms ++ ms') q t := by
  obtain ⟨msg, type, request, hmsg, hparsed, htype⟩ := h
  have hlt : t < ms.length := (List.getElem?_eq_some_iff.mp hmsg).1
  exact ⟨msg, type, request, (List.getElem?_append_left hlt).trans hmsg, hparsed, htype⟩

/-- An effect is no message. -/
theorem messages_of_effect (h : e.effect = some (q, t)) : messages [e] = [] := by
  cases e <;> first | rfl | cases h

theorem mem_effectsOf (h : e.effect = some (q, t)) : t ∈ effectsOf q [e] := by
  simp [effectsOf, effects, h]

/-- The count was cleared by one of the last events, or before them and none is
a lift. -/
theorem ClearedSince.of_append (h : ClearedSince (log ++ log')) :
    (∃ t, .cleared t true ∈ log') ∨ (ClearedSince log ∧ .lifted ∉ log') := by
  obtain ⟨pre, t, mid, hlog, hmid⟩ := h
  rcases List.append_eq_append_iff.mp hlog with ⟨as, -, hevents⟩ | ⟨bs, hbefore, hbehind⟩
  · exact .inl ⟨t, by simp [hevents]⟩
  · cases bs with
    | nil => exact .inl ⟨t, by rw [List.nil_append] at hbehind; simp [← hbehind]⟩
    | cons b bs =>
        obtain ⟨rfl, rfl⟩ := List.cons.inj hbehind
        exact .inr ⟨⟨pre, t, bs, hbefore, fun h => hmid (List.mem_append_left _ h)⟩,
          fun h => hmid (List.mem_append_right _ h)⟩

/-- What is sent after an effect takes effect after it. -/
theorem InOrder.mem_after {pre post : List Event} (h : InOrder (pre ++ e :: post)) {e' : Event}
    (hmem : e' ∈ pre ++ e :: post) (heffect : e'.effect = some (q, t))
    (hsent : (messages pre).length ≤ t) : e' ∈ e :: post := by
  rcases List.mem_append.mp hmem with hbefore | hbehind
  · obtain ⟨as, bs, rfl⟩ := List.append_of_mem hbefore
    obtain ⟨msg, -, -, hmsg, -⟩ := h.sent as e' (bs ++ e :: post) (by simp) q t heffect
    have hlt : t < (messages as).length := (List.getElem?_eq_some_iff.mp hmsg).1
    rw [messages_append, List.length_append] at hsent
    omega
  · exact hbehind

theorem not_clearedSince_nil : ¬ClearedSince [] := by
  rintro ⟨pre, t, mid, hlog, -⟩
  simp at hlog

end Histories

section Order

variable {s s' : Requests} {log : List Event} {cap : Nat}

/-- The requests of each kind that took effect, and behind them the tasks in
line, are in the order of their messages. -/
structure Ordered (s : Requests) (log : List Event) : Prop where
  scripted : s.tasks.Scripted
  waiting : (messages log).drop s.tasks.fresh = s.recvQ
  taken : s.tasks.fresh ≤ (messages log).length
  sorted : ∀ q, (effectsOf q log ++ s.tasks.line q).Pairwise (· < ·)
  genuine : ∀ q, ∀ t ∈ effectsOf q log ++ s.tasks.line q,
    t < s.tasks.fresh ∧ IsRequest (messages log) q t

theorem ordered_start (heap : Nat → TaskObject) (count : Count) :
    Ordered (start heap count) [] where
  scripted := nofun
  waiting := rfl
  taken := le_rfl
  sorted _ := .nil
  genuine _ _ := nofun

/-- Messages come in, tasks take effect in line or leave it. -/
theorem Ordered.carried {events : List Event} (h : Ordered s log)
    (hscripted : s'.tasks.Scripted) (hfresh : s'.tasks.fresh = s.tasks.fresh)
    (hrecvQ : s'.recvQ = s.recvQ ++ messages events)
    (hline : ∀ q, (effectsOf q events ++ s'.tasks.line q).Sublist (s.tasks.line q)) :
    Ordered s' (log ++ events) := by
  have hsub (q : TaskQueue) : (effectsOf q (log ++ events) ++ s'.tasks.line q).Sublist
      (effectsOf q log ++ s.tasks.line q) := by
    rw [effectsOf_append, List.append_assoc]
    exact (hline q).append_left _
  constructor
  · exact hscripted
  · rw [hfresh, hrecvQ, messages_append, List.drop_append_of_le_length h.taken, h.waiting]
  · rw [hfresh, messages_append, List.length_append]
    exact h.taken.trans (Nat.le_add_right _ _)
  · intro q
    exact (h.sorted q).sublist (hsub q)
  · intro q t ht
    obtain ⟨hlt, hrequest⟩ := h.genuine q t ((hsub q).subset ht)
    rw [hfresh, messages_append]
    exact ⟨hlt, hrequest.append _⟩

/-- The next message in `recv_q` has the number of the task that it becomes. -/
theorem Ordered.deliver {msg : SgTcpMessage} {rest : List SgTcpMessage} {tasks : Tasks}
    (h : Ordered s log) (hrecvQ : s.recvQ = msg :: rest)
    (htasks : s.tasks.workerNext (.receive msg) = some tasks) :
    Ordered { s with recvQ := rest, tasks } log := by
  obtain ⟨hfresh, hhandler, type, request, hparsed, hline⟩ := Tasks.line_receive htasks
  have hdrop : (messages log).drop s.tasks.fresh = msg :: rest := h.waiting.trans hrecvQ
  have hmsg : (messages log)[s.tasks.fresh]? = some msg := by
    rw [← List.head?_drop, hdrop, List.head?_cons]
  have hlt : s.tasks.fresh < (messages log).length := (List.getElem?_eq_some_iff.mp hmsg).1
  have hmem (q : TaskQueue) (t : Nat) (ht : t ∈ effectsOf q log ++ tasks.line q) :
      t ∈ effectsOf q log ++ s.tasks.line q ∨ (type.queue = some q ∧ t = s.tasks.fresh) := by
    rw [hline, ← List.append_assoc] at ht
    rcases List.mem_append.mp ht with hold | hnew
    · exact .inl hold
    · exact .inr (by simpa using hnew)
  constructor
  · intro q t todo hq
    exact h.scripted q t todo (hhandler ▸ hq)
  · rw [hfresh, ← List.drop_drop, hdrop]
    rfl
  · rw [hfresh]
    exact hlt
  · intro q
    rw [hline, ← List.append_assoc, List.pairwise_append]
    refine ⟨h.sorted q, ?_, fun t ht u hu => ?_⟩
    · split
      · exact List.pairwise_singleton _ _
      · exact .nil
    · have hu' : u = s.tasks.fresh := by
        split at hu
        · exact List.mem_singleton.mp hu
        · cases hu
      exact hu' ▸ (h.genuine q t ht).1
  · intro q t ht
    rw [hfresh]
    rcases hmem q t ht with hold | ⟨htype, rfl⟩
    · obtain ⟨hlt, hrequest⟩ := h.genuine q t hold
      exact ⟨Nat.lt_succ_of_lt hlt, hrequest⟩
    · exact ⟨Nat.lt_succ_self _, msg, type, request, hmsg, hparsed, htype⟩

/-- A handler reports the effect of its statement, and no message. -/
theorem effects_report_handler (q : TaskQueue) (a : Tasks.HandlerAct) (w : WriteCalls)
    (r : ReadCalls) :
    effects (s.report (.handler q a w r)) = (s.tasks.effect q a).toList ∧
      messages (s.report (.handler q a w r)) = [] := by
  simp only [report, Tasks.effect]
  cases s.tasks.statement q a with
  | none => exact ⟨rfl, rfl⟩
  | some x =>
      obtain ⟨t, x⟩ := x
      cases x <;> exact ⟨rfl, rfl⟩

theorem deliver_next (hn : next cap s .deliver = some s') :
    ∃ msg rest tasks, s.recvQ = msg :: rest ∧
      s.tasks.workerNext (.receive msg) = some tasks ∧ s' = { s with recvQ := rest, tasks } := by
  simp only [next] at hn
  split at hn
  · next msg rest hrecvQ =>
      obtain ⟨tasks, htasks, hs⟩ := Option.map_eq_some_iff.mp hn
      exact ⟨msg, rest, tasks, hrecvQ, htasks, hs.symm⟩
  · cases hn

/-- `worker_loop` takes messages by `deliver` only. -/
theorem worker_next {a : Tasks.WorkerAct} (hn : next cap s (.worker a) = some s') :
    (∀ msg, a ≠ .receive msg) ∧
      ∃ tasks, s.tasks.workerNext a = some tasks ∧ { s with tasks } = s' := by
  cases a with
  | receive msg => cases hn
  | _ => exact ⟨nofun, Option.map_eq_some_iff.mp hn⟩

theorem Ordered.next {a : Action} (h : Ordered s log) (hn : next cap s a = some s') :
    Ordered s' (log ++ s.report a) := by
  cases a with
  | read msg =>
      obtain ⟨-, hs⟩ := Option.ite_none_right_eq_some.mp hn
      cases hs
      exact h.carried h.scripted rfl rfl fun _ => .refl _
  | deliver =>
      obtain ⟨msg, rest, tasks, hrecvQ, htasks, rfl⟩ := deliver_next hn
      have hreport : s.report .deliver = [] := rfl
      rw [hreport, List.append_nil]
      exact h.deliver hrecvQ htasks
  | worker a =>
      obtain ⟨ha, tasks, htasks, rfl⟩ := worker_next hn
      obtain ⟨hfresh, hhandler, hline⟩ := Tasks.line_worker htasks ha
      have hscripted : tasks.Scripted := fun q t todo hq => h.scripted q t todo (hhandler ▸ hq)
      exact h.carried hscripted hfresh (List.append_nil _).symm hline
  | handler q a w r =>
      obtain ⟨tasks, htasks, rfl⟩ := Option.map_eq_some_iff.mp hn
      obtain ⟨hfresh, hscripted, hline⟩ := Tasks.line_handler h.scripted htasks
      obtain ⟨heffects, hmessages⟩ := effects_report_handler (s := s) q a w r
      apply h.carried hscripted hfresh
      · rw [hmessages, List.append_nil]
      · intro u
        rw [effectsOf, heffects, hline]
  | lift w =>
      cases hn
      exact h.carried h.scripted rfl (List.append_nil _).symm fun _ => .refl _

end Order

section Zero

variable {s s' : Requests} {log : List Event} {cap : Nat}

/-- What a step does to the count. -/
inductive CountStep (s s' : Requests) : List Event → Prop
  | kept {events : List Event} (count : s'.count = s.count)
      (sampled : ∀ t value, .sampled t value ∈ events → value = s.count.bincount)
      (uncleared : ∀ t arrived, .cleared t arrived ∉ events) : CountStep s s' events
  | clear (t : Nat) (w : WriteCalls) (r : ReadCalls)
      (count : s'.count = (binClrHandler s.count w r).count) :
      CountStep s s' [.cleared t (s.count.file.arrives w)]
  | lift : CountStep s s' [.lifted]

theorem countStep_next {a : Action} (hn : next cap s a = some s') :
    CountStep s s' (s.report a) := by
  cases a with
  | read msg =>
      obtain ⟨-, hs⟩ := Option.ite_none_right_eq_some.mp hn
      cases hs
      exact .kept rfl (by simp [report]) (by simp [report])
  | deliver =>
      obtain ⟨msg, rest, tasks, -, -, rfl⟩ := deliver_next hn
      exact .kept rfl (by simp [report]) (by simp [report])
  | worker a =>
      obtain ⟨-, tasks, -, rfl⟩ := worker_next hn
      exact .kept rfl nofun nofun
  | handler q a w r =>
      obtain ⟨tasks, -, rfl⟩ := Option.map_eq_some_iff.mp hn
      simp only [report]
      cases hstatement : s.tasks.statement q a with
      | none => exact .kept rfl nofun nofun
      | some x =>
          obtain ⟨t, x⟩ := x
          cases x with
          | clearCount => exact .clear t w r rfl
          | formatCount => exact .kept rfl (by simp) (by simp)
          | _ => exact .kept rfl (by simp) (by simp)
  | lift w => exact .lift

/-- While no lift was counted since a clear, memory and file stay 0. -/
theorem CountStep.allZero {events : List Event} (h : CountStep s s' events)
    (hzero : ClearedSince log → s.count.AllZero) (hcleared : ClearedSince (log ++ events)) :
    s'.count.AllZero := by
  cases h with
  | kept count sampled uncleared =>
      rcases hcleared.of_append with ⟨t, ht⟩ | ⟨hold, -⟩
      · exact absurd ht (uncleared t true)
      · rw [count]
        exact hzero hold
  | clear t w r count =>
      rw [count]
      rcases hcleared.of_append with ⟨u, hu⟩ | ⟨hold, -⟩
      · have harrives : s.count.file.arrives w = true :=
          (Event.cleared.inj (List.mem_singleton.mp hu)).2.symm
        exact allZero_binClrHandler (.inr harrives) r
      · exact allZero_binClrHandler (.inl (hzero hold)) r
  | lift =>
      rcases hcleared.of_append with ⟨t, ht⟩ | ⟨-, hlift⟩
      · simp at ht
      · simp at hlift

end Zero

/-- What holds of the state and the history of every run. -/
structure Inv (s : Requests) (log : List Event) : Prop where
  ordered : Ordered s log
  zero : ClearedSince log → s.count.AllZero
  inOrder : InOrder log

section Runs

variable {s s' : Requests} {log : List Event} {cap : Nat}

theorem inv_start (heap : Nat → TaskObject) (count : Count) : Inv (start heap count) [] where
  ordered := ordered_start heap count
  zero h := absurd h not_clearedSince_nil
  inOrder := ⟨System.eachEvent_nil, fun _ => .nil, System.eachEvent_nil⟩

/-- A step reports at most one event. -/
theorem report_cases (s : Requests) (a : Action) :
    s.report a = [] ∨ ∃ e, s.report a = [e] := by
  cases a with
  | handler q a w r =>
      simp only [report]
      split
      all_goals first | exact .inl rfl | exact .inr ⟨_, rfl⟩
  | read msg => exact .inr ⟨_, rfl⟩
  | lift w => exact .inr ⟨_, rfl⟩
  | _ => exact .inl rfl

theorem Inv.next {a : Action} (h : Inv s log) (hn : next cap s a = some s') :
    Inv s' (log ++ s.report a) := by
  have hordered : Ordered s' (log ++ s.report a) := h.ordered.next hn
  have hcount : CountStep s s' (s.report a) := countStep_next hn
  refine ⟨hordered, hcount.allZero h.zero, ?_, fun q => ?_, ?_⟩
  · rcases report_cases s a with hreport | ⟨e, hreport⟩
    · rw [hreport, List.append_nil]
      exact h.inOrder.sent
    · rw [hreport] at hordered ⊢
      apply h.inOrder.sent.snoc
      intro q t he
      have hmem : t ∈ effectsOf q (log ++ [e]) := by
        rw [effectsOf_append]
        exact List.mem_append_right _ (mem_effectsOf he)
      have hrequest := (hordered.genuine q t (List.mem_append_left _ hmem)).2
      rwa [messages_append, messages_of_effect he, List.append_nil] at hrequest
  · exact (List.pairwise_append.mp (hordered.sorted q)).1
  · rcases report_cases s a with hreport | ⟨e, hreport⟩
    · rw [hreport, List.append_nil]
      exact h.inOrder.zero
    · rw [hreport] at hcount ⊢
      apply h.inOrder.zero.snoc
      rintro t value rfl hcleared
      cases hcount with
      | kept count sampled uncleared =>
          rw [sampled t value List.mem_cons_self]
          exact (h.zero hcleared).bincount

/-- In every run the requests of one kind take effect in the order of sending,
and a count sampled after a clear, with no lift between, is 0. -/
theorem requests_in_order {p : Requests × List Event}
    (h : ((system cap).recording report).Reachable p) : InOrder p.2 := by
  have hinv : Inv p.1 p.2 := by
    apply System.recording_invariant (C := fun _ _ => True) h
    · rintro _ ⟨heap, count, rfl⟩
      exact inv_start heap count
    · intro s log a t _ _ hn hinv
      exact hinv.next hn
  exact hinv.inOrder

end Runs

/-- A command of client 6 in a block of its own. -/
def ofClient (c : Command) : SgTcpMessage where
  clientFd := 6
  data := c.encode ++ List.replicate (maxMessage - c.encode.length) 0
  len := c.encode.length

/-- The count is 5, in memory and in the file. -/
def five : Requests :=
  start Tasks.emptyHeap { bincount := 5, file := some [5, 0, 0, 0] }

/-- `on_message` pushes the next message. -/
def pushNext : List Action := [.deliver, .worker .log, .worker .log, .worker .push, .worker .log]

/-- A handler takes a task and runs the critical section behind its first
statement. -/
def handle (q : TaskQueue) : List Action :=
  [.handler q .pop .success .success, .handler q .run .success .success,
    .handler q .run .success .success]

/-- The client sends a clear and then a query; nothing fails and nothing is lifted. -/
def clearThenQuery : List Action :=
  [.read (ofClient .clear), .read (ofClient .query)] ++ pushNext ++ pushNext

theorem requests_in_order_clearThenQuery :
    ∃ p, ((system 128).recording report).Reachable p ∧
      p.2 = [.sent (ofClient .clear), .sent (ofClient .query), .cleared 0 true, .sampled 1 0] ∧
      InOrder p.2 := by
  have hrun : ∃ p, ((system 128).recording report).exec (five, [])
      (clearThenQuery ++ handle .binClear ++ handle .binQuery) = some p ∧
      p.2 = [.sent (ofClient .clear), .sent (ofClient .query), .cleared 0 true,
        .sampled 1 (binClrHandler five.count .success .success).count.bincount] :=
    ⟨_, rfl, rfl⟩
  obtain ⟨p, hexec, hlog⟩ := hrun
  have hzero : (binClrHandler five.count .success .success).count.bincount = 0 := by decide
  rw [hzero] at hlog
  have hreach : ((system 128).recording report).Reachable p :=
    System.reachable_of_exec _ ⟨⟨_, _, rfl⟩, rfl⟩ hexec
  exact ⟨p, hreach, hlog, requests_in_order hreach⟩

/-- The handler of the queries is faster than the one of the clears: the later
command takes effect first, and is answered from 5. -/
theorem query_overtakes_clear :
    ∃ p, ((system 128).recording report).exec (five, [])
        (clearThenQuery ++ handle .binQuery ++ handle .binClear) = some p ∧
      p.2 = [.sent (ofClient .clear), .sent (ofClient .query), .sampled 1 5, .cleared 0 true] ∧
      ¬((effects p.2).map Prod.snd).Pairwise (· < ·) := by
  have hrun : ∃ p, ((system 128).recording report).exec (five, [])
      (clearThenQuery ++ handle .binQuery ++ handle .binClear) = some p ∧
      p.2 = [.sent (ofClient .clear), .sent (ofClient .query), .sampled 1 5, .cleared 0 true] :=
    ⟨_, rfl, rfl⟩
  obtain ⟨p, hexec, hlog⟩ := hrun
  have heffects : effects p.2 = [(.binQuery, 1), (.binClear, 0)] := by rw [hlog]; rfl
  refine ⟨p, hexec, hlog, ?_⟩
  rw [heffects]
  decide

end Requests

end SgMuni
