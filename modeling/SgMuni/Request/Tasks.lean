import SgMuni.Request.Parser
import SgMuni.Transition.History
import Mathlib.Logic.Function.Basic

/-!
# Who owns a task

`on_message` allocates a `ClientRequest` for every message and pushes it on one
of three queues; the handler of the queue pops, uses and frees it. A push that
times out leaves the task with `on_message`.

## Implementation notes

A push and a pop are single steps, as the mutex of the ring buffer makes them.
A timed push waits only after it found the queue full, but a timeout can come
when the queue has room again. What the handlers do without the task is one
step for each statement; its effect is modelled in `Lift.Handlers`. A message on
which the parser reads behind its block allocates nothing here.
-/

namespace SgMuni

/-- The queues of `TaskQueueSet`. -/
inductive TaskQueue
  | binQuery
  | binClear
  | binAck
deriving DecidableEq

/-- The queue for a type of request. -/
def MsgType.queue : MsgType → Option TaskQueue
  | .binQuery => some .binQuery
  | .clrQuery => some .binClear
  | .binAck => some .binAck
  | .unknown => none

/-- The statements of the handlers between the pop and the `free`. -/
inductive HandlerStep
  | logTask
  | formatCount
  | sendCount
  | clearCount
  | broadcastCount
  | logCleared
  | searchPending
  | logAck
deriving DecidableEq

/-- The statement reads fields of the task. -/
def HandlerStep.reads : HandlerStep → Bool
  | .logTask | .sendCount | .searchPending | .logAck => true
  | _ => false

/-- The body of the loop of each handler. -/
def TaskQueue.script : TaskQueue → List HandlerStep
  | .binQuery => [.logTask, .formatCount, .sendCount]
  | .binClear => [.logTask, .clearCount, .broadcastCount, .logCleared]
  | .binAck => [.logTask, .searchPending, .logAck]

/-- A task as an object of the heap. -/
structure TaskObject where
  request : ClientRequest
  live : Bool

/-- Positions in `on_message`. -/
inductive OnMessagePc
  | idle
  | logType (t : Nat) (type : MsgType)
  | logPush (t : Nat) (q : TaskQueue)
  | pushing (t : Nat) (q : TaskQueue)
  | waiting (t : Nat) (q : TaskQueue)
  | logFailed (t : Nat)
  | freeing (t : Nat)
  | logPushed (t : Nat)
deriving DecidableEq

/-- Positions in a handler. -/
inductive HandlerPc
  | idle
  | running (t : Nat) (todo : List HandlerStep)
deriving DecidableEq

structure Tasks where
  heap : Nat → TaskObject
  fresh : Nat
  queue : TaskQueue → List Nat
  worker : OnMessagePc
  handler : TaskQueue → HandlerPc

namespace Tasks

/-- The capacity of the queues. -/
def queueCap : Nat := 128

inductive WorkerAct
  | receive (msg : SgTcpMessage)
  | log
  | push
  | wait
  | timeout
  | free

inductive HandlerAct
  | pop
  | run
  | free

inductive Action
  | worker (a : WorkerAct)
  | handler (q : TaskQueue) (a : HandlerAct)

/-- `free(task)`. -/
def release (s : Tasks) (t : Nat) : Tasks :=
  { s with heap := Function.update s.heap t { s.heap t with live := false } }

def workerNext (s : Tasks) : WorkerAct → Option Tasks
  | .receive msg =>
      match s.worker, onMessageTask msg with
      | .idle, some (type, request) =>
          some { s with
            heap := Function.update s.heap s.fresh { request := request, live := true }
            fresh := s.fresh + 1
            worker := .logType s.fresh type }
      | _, _ => none
  | .log =>
      match s.worker with
      | .logType t type =>
          match type.queue with
          | some q => some { s with worker := .logPush t q }
          | none => some { s with worker := .logFailed t }
      | .logPush t q => some { s with worker := .pushing t q }
      | .logFailed t => some { s with worker := .freeing t }
      | .logPushed _ => some { s with worker := .idle }
      | _ => none
  | .push =>
      match s.worker with
      | .pushing t q | .waiting t q =>
          if (s.queue q).length < queueCap then
            some { s with
              queue := Function.update s.queue q (s.queue q ++ [t])
              worker := .logPushed t }
          else none
      | _ => none
  | .wait =>
      match s.worker with
      | .pushing t q =>
          if queueCap ≤ (s.queue q).length then some { s with worker := .waiting t q } else none
      | _ => none
  | .timeout =>
      match s.worker with
      | .waiting t _ => some { s with worker := .logFailed t }
      | _ => none
  | .free =>
      match s.worker with
      | .freeing t => some { s.release t with worker := .idle }
      | _ => none

def handlerNext (s : Tasks) (q : TaskQueue) : HandlerAct → Option Tasks
  | .pop =>
      match s.handler q, s.queue q with
      | .idle, t :: rest =>
          some { s with
            queue := Function.update s.queue q rest
            handler := Function.update s.handler q (.running t q.script) }
      | _, _ => none
  | .run =>
      match s.handler q with
      | .running t (_ :: todo) =>
          some { s with handler := Function.update s.handler q (.running t todo) }
      | _ => none
  | .free =>
      match s.handler q with
      | .running t [] =>
          some { s.release t with handler := Function.update s.handler q .idle }
      | _ => none

def next (s : Tasks) : Action → Option Tasks
  | .worker a => s.workerNext a
  | .handler q a => s.handlerNext q a

/-- The queues are empty and the threads wait. -/
def start (heap : Nat → TaskObject) : Tasks where
  heap := heap
  fresh := 0
  queue _ := []
  worker := .idle
  handler _ := .idle

def system : Transition.System Tasks Action where
  init s := ∃ heap, s = start heap
  next := next

/-- The threads that read and free tasks. -/
inductive Party
  | worker
  | handler (q : TaskQueue)
deriving DecidableEq

/-- What a step does with a task; a read finds the object live or not. -/
inductive Use
  | read (party : Party) (t : Nat) (live : Bool)
  | pushed (q : TaskQueue) (t : Nat)
  | popped (q : TaskQueue) (t : Nat)
  | freed (party : Party) (t : Nat)
deriving DecidableEq

/-- The task whose fields `on_message` reads in its next `log` statement. -/
def logged : OnMessagePc → Option Nat
  | .logType t _ | .logPush t _ | .logFailed t | .logPushed t => some t
  | _ => none

def report (s : Tasks) : Action → List Use
  | .worker .log => (logged s.worker).toList.map fun t => .read .worker t (s.heap t).live
  | .worker .push =>
      match s.worker with
      | .pushing t q | .waiting t q => [.pushed q t]
      | _ => []
  | .worker .free =>
      match s.worker with
      | .freeing t => [.freed .worker t]
      | _ => []
  | .handler q .pop => (s.queue q).head?.toList.map (.popped q)
  | .handler q .run =>
      match s.handler q with
      | .running t (x :: _) => if x.reads then [.read (.handler q) t (s.heap t).live] else []
      | _ => []
  | .handler q .free =>
      match s.handler q with
      | .running t _ => [.freed (.handler q) t]
      | _ => []
  | _ => []

/-- The task that `on_message` has not given away. -/
def owned : OnMessagePc → Option Nat
  | .logType t _ | .logPush t _ | .pushing t _ | .waiting t _ | .logFailed t | .freeing t => some t
  | _ => none

/-- The task that a handler works on. -/
def handled : HandlerPc → Option Nat
  | .running t _ => some t
  | .idle => none

/-- What a step can do: a statement of `on_message` or of a handler that leaves
the task where it is, or one that allocates, passes on or frees a task. -/
inductive Move (s : Tasks) : Action → Tasks → Prop
  | receive {msg : SgTcpMessage} {type : MsgType} {request : ClientRequest}
      (worker : s.worker = .idle) :
      Move s (.worker (.receive msg))
        { s with
          heap := Function.update s.heap s.fresh { request := request, live := true }
          fresh := s.fresh + 1
          worker := .logType s.fresh type }
  | stay {a : WorkerAct} {pc : OnMessagePc} (own : owned pc = owned s.worker)
      (unpushed : ∀ t, pc ≠ .logPushed t) (quiet : a = .log ∨ s.report (.worker a) = []) :
      Move s (.worker a) { s with worker := pc }
  | push {t : Nat} {q : TaskQueue} (worker : s.worker = .pushing t q ∨ s.worker = .waiting t q) :
      Move s (.worker .push)
        { s with
          queue := Function.update s.queue q (s.queue q ++ [t])
          worker := .logPushed t }
  | freeTask {t : Nat} (worker : s.worker = .freeing t) :
      Move s (.worker .free) { s.release t with worker := .idle }
  | pop {q : TaskQueue} {t : Nat} {rest : List Nat} (handler : s.handler q = .idle)
      (queue : s.queue q = t :: rest) :
      Move s (.handler q .pop)
        { s with
          queue := Function.update s.queue q rest
          handler := Function.update s.handler q (.running t q.script) }
  | run {q : TaskQueue} {t : Nat} {x : HandlerStep} {todo : List HandlerStep}
      (handler : s.handler q = .running t (x :: todo)) :
      Move s (.handler q .run) { s with handler := Function.update s.handler q (.running t todo) }
  | freeHandled {q : TaskQueue} {t : Nat} (handler : s.handler q = .running t []) :
      Move s (.handler q .free)
        { s.release t with handler := Function.update s.handler q .idle }

variable {s s' : Tasks}

/-- A push, at once or after waiting for room. -/
theorem workerNext_push (h : s.workerNext .push = some s') :
    ∃ t q, (s.worker = .pushing t q ∨ s.worker = .waiting t q) ∧
      s' = { s with
        queue := Function.update s.queue q (s.queue q ++ [t])
        worker := .logPushed t } := by
  simp only [workerNext] at h
  split at h
  case h_1 t q hworker =>
      obtain ⟨-, h⟩ := Option.ite_none_right_eq_some.mp h
      exact ⟨t, q, .inl hworker, (Option.some.inj h).symm⟩
  case h_2 t q hworker =>
      obtain ⟨-, h⟩ := Option.ite_none_right_eq_some.mp h
      exact ⟨t, q, .inr hworker, (Option.some.inj h).symm⟩
  case h_3 => cases h

theorem workerNext_move {a : WorkerAct} (h : s.workerNext a = some s') :
    Move s (.worker a) s' := by
  cases a with
  | receive msg =>
      simp only [workerNext] at h
      split at h <;> cases h
      case h_1 hworker hparsed => exact .receive hworker
  | log =>
      simp only [workerNext] at h
      split at h
      case h_1 hworker =>
          split at h <;> cases h <;> exact .stay (by rw [hworker]; rfl) nofun (.inl rfl)
      case h_5 => cases h
      all_goals
        next hworker =>
          cases h
          exact .stay (by rw [hworker]; rfl) nofun (.inl rfl)
  | push =>
      obtain ⟨t, q, hworker, rfl⟩ := workerNext_push h
      exact .push hworker
  | wait =>
      simp only [workerNext] at h
      split at h
      case h_1 hworker =>
          obtain ⟨-, h⟩ := Option.ite_none_right_eq_some.mp h
          cases h
          exact .stay (by rw [hworker]; rfl) nofun (.inr rfl)
      case h_2 => cases h
  | timeout =>
      simp only [workerNext] at h
      split at h <;> cases h
      case h_1 hworker => exact .stay (by rw [hworker]; rfl) nofun (.inr rfl)
  | free =>
      simp only [workerNext] at h
      split at h <;> cases h
      case h_1 hworker => exact .freeTask hworker

theorem next_move {a : Action} (h : s.next a = some s') : Move s a s' := by
  cases a with
  | worker a => exact workerNext_move h
  | handler q a =>
      cases a with
      | pop =>
          simp only [next, handlerNext] at h
          split at h <;> cases h
          case h_1 hhandler hqueue => exact .pop hhandler hqueue
      | run =>
          simp only [next, handlerNext] at h
          split at h <;> cases h
          case h_1 hhandler => exact .run hhandler
      | free =>
          simp only [next, handlerNext] at h
          split at h <;> cases h
          case h_1 hhandler => exact .freeHandled hhandler

end Tasks

end SgMuni
