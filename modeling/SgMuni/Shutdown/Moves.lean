import SgMuni.Shutdown.Process
import SgMuni.Tcp.Moves
import SgMuni.Transition.System

/-!
# The moves of a process that shuts down

What each step can do, once for all invariants, and what a step of the server
does to a thread that takes no part in it.
-/

namespace SgMuni

namespace Process

open Transition

inductive Move (cfg : Config) (s : Process) : Action → Process → Prop
  | test {t : Thread} (loop : s.loop t = .test) :
      Move cfg s (.test t)
        { s with loop := Function.update s.loop t (if s.stopFlag t then .exited else .body) }
  | pass {t : Thread} (loop : s.loop t = .body) (rest : AtRest s.server t) :
      Move cfg s (.pass t) { s with loop := Function.update s.loop t .test }
  | serve {a : Server.Action} {t : Thread} {server : Server} (actor : actor a = some t)
      (loop : s.loop t = .body) (step : s.server.next cfg.toConfig a = some server) :
      Move cfg s (.server a)
        { s with
          server := server
          loop := Function.update s.loop t (loopAfter server t) }
  | environment {a : Server.EnvAct} {server : Server} (actor : actor (.env a) = none)
      (step : s.server.next cfg.toConfig (.env a) = some server) :
      Move cfg s (.server (.env a)) { s with server := server }
  | wake {evs : List Event} (loop : s.loop .io = .body) (io : s.server.io = .waiting) :
      Move cfg s (.wake evs) { s with server := { s.server with io := .batch evs } }
  | readEvent {server : Server} (loop : s.loop .io = .body)
      (step : s.server.next cfg.toConfig (.io (.read eventBytes)) = some server) :
      Move cfg s .readEvent
        { s with
          server := server
          signalled := false }
  | breakBatch {e : Event} {evs : List Event} (loop : s.loop .io = .body)
      (stopped : s.stopped = true) (io : s.server.io = .batch (e :: evs)) :
      Move cfg s .breakBatch
        { s with
          server := { s.server with io := .waiting }
          loop := Function.update s.loop .io .test }
  | stopSgServer (todo : s.todo = none) :
      Move cfg s .stopSgServer { s with todo := some SgMuni.stopSgServer }
  | sigint (todo : s.todo = none) : Move cfg s .sigint { s with todo := some handleSigint }
  | stop {x : StopStep} {todo : List StopStep} (head : s.todo = some (x :: todo))
      (ready : s.Ready x) : Move cfg s .stop { s.perform x with todo := some todo }

variable {cfg : Config} {s s' : Process}

theorem serverNext_move {a : Server.Action} (h : s.serverNext cfg a = some s') :
    Move cfg s (.server a) s' := by
  unfold serverNext at h
  split at h
  case h_1 t hactor =>
    split at h
    case isTrue hguard =>
      obtain ⟨server, hstep, rfl⟩ := Option.map_eq_some_iff.mp h
      exact .serve hactor hguard.1 hstep
    case isFalse => cases h
  case h_2 hactor =>
    split at h
    case h_1 fd =>
      split at h
      case isTrue => cases h
      case isFalse =>
        obtain ⟨server, hstep, rfl⟩ := Option.map_eq_some_iff.mp h
        exact .environment hactor hstep
    case h_2 =>
      obtain ⟨server, hstep, rfl⟩ := Option.map_eq_some_iff.mp h
      exact .environment hactor hstep
    case h_3 => cases h

theorem next_move {a : Action} (h : next cfg s a = some s') : Move cfg s a s' := by
  cases a with
  | test t =>
      obtain ⟨hloop, h⟩ := Option.ite_none_right_eq_some.mp h
      cases h
      exact .test hloop
  | pass t =>
      obtain ⟨⟨hloop, hrest⟩, h⟩ := Option.ite_none_right_eq_some.mp h
      cases h
      exact .pass hloop hrest
  | server a => exact serverNext_move h
  | wake evs =>
      obtain ⟨⟨hloop, hio, -⟩, h⟩ := Option.ite_none_right_eq_some.mp h
      cases h
      exact .wake hloop hio
  | readEvent =>
      obtain ⟨⟨hloop, -⟩, h⟩ := Option.ite_none_right_eq_some.mp h
      obtain ⟨server, hstep, rfl⟩ := Option.map_eq_some_iff.mp h
      exact .readEvent hloop hstep
  | breakBatch =>
      simp only [next, breakNext] at h
      split at h
      case h_1 e evs hio =>
        obtain ⟨⟨hloop, hstopped, -⟩, h⟩ := Option.ite_none_right_eq_some.mp h
        cases h
        exact .breakBatch hloop hstopped hio
      case h_2 => cases h
  | stopSgServer =>
      obtain ⟨htodo, h⟩ := Option.ite_none_right_eq_some.mp h
      cases h
      exact .stopSgServer htodo
  | sigint =>
      obtain ⟨htodo, h⟩ := Option.ite_none_right_eq_some.mp h
      cases h
      exact .sigint htodo
  | stop =>
      simp only [next, stopNext] at h
      split at h
      case h_1 x todo htodo =>
        obtain ⟨hready, h⟩ := Option.ite_none_right_eq_some.mp h
        cases h
        exact .stop htodo hready
      case h_2 => cases h

theorem perform_server (s : Process) (x : StopStep) : (s.perform x).server = s.server := by
  cases x <;> rfl

theorem perform_loop (s : Process) (x : StopStep) : (s.perform x).loop = s.loop := by
  cases x <;> rfl

/-- Which thread makes a call does not depend on the call. -/
theorem actor_call (k : Nat) (a b : Server.CallAct) : actor (.call k a) = actor (.call k b) := by
  unfold actor
  split <;> simp_all

section Rest

variable {server server' : Server} {t : Thread}

theorem AtRest.congr (h : AtRest server t) (hio : t = .io → server'.io = server.io)
    (hsend : t = .send → server'.send = server.send)
    (hack : t = .resend → server'.ack = server.ack)
    (hcaller : ∀ k a, actor (.call k a) = some t → server'.caller k = server.caller k) :
    AtRest server' t := by
  cases t with
  | io => exact (hio rfl).trans h
  | worker => trivial
  | send => exact (hsend rfl).trans h
  | resend => exact (hack rfl).trans h
  | _ => exact (hcaller _ .push rfl).trans h

/-- A step of the server leaves a thread at rest that does not take it. -/
theorem atRest_next {cfg : SgMuni.Config} {a : Server.Action}
    (h : server.next cfg a = some server') (ht : actor a ≠ some t) (hrest : AtRest server t) :
    AtRest server' t := by
  cases a with
  | io a =>
      have hframe := (Server.ioNext_move h).frame
      have hio : t ≠ .io := fun heq => ht (heq ▸ rfl)
      exact hrest.congr (absurd · hio) (fun _ => hframe.send) (fun _ => hframe.ack)
        fun k _ _ => congrFun hframe.caller k
  | send a =>
      have hframe := (Server.sendNext_move h).frame
      have hsend : t ≠ .send := fun heq => ht (heq ▸ rfl)
      exact hrest.congr (fun _ => hframe.io) (absurd · hsend) (fun _ => hframe.ack)
        fun k _ _ => congrFun hframe.caller k
  | call k a =>
      have hframe := (Server.callNext_move h).frame
      refine hrest.congr (fun _ => hframe.io) (fun _ => hframe.send) (fun _ => hframe.ack)
        fun j b hj => hframe.caller j ?_
      rintro rfl
      exact ht (actor_call j a b ▸ hj)
  | ack a =>
      have hframe := (Server.ackNext_move h).frame
      have hresend : t ≠ .resend := fun heq => ht (heq ▸ rfl)
      exact hrest.congr (fun _ => hframe.io) (fun _ => hframe.send) (absurd · hresend)
        fun k _ _ => congrFun hframe.caller k
  | env a =>
      have hframe := (Server.envNext_move h).frame
      exact hrest.congr (fun _ => hframe.io) (fun _ => hframe.send) (fun _ => hframe.ack)
        fun k _ _ => congrFun hframe.caller k

end Rest

end Process

namespace Server

variable {cfg : SgMuni.Config} {s s' : Server}

/-- `io_loop` comes to a push by a read. No step adds to `recv_q` while it is
about to push, and `worker_loop` alone takes from it. -/
theorem pushing_next {a : Action} {m : Msg} {evs : List Event} (h : s.next cfg a = some s')
    (hpush : s'.io = .pushing m evs) :
    (∃ bytes, a = .io (.read bytes) ∧ s'.recvQ = s.recvQ) ∨
    (s.io = .pushing m evs ∧ (a = .env .takeRequest ∨ s'.recvQ = s.recvQ)) := by
  cases a with
  | io a =>
      have hmove := ioNext_move h
      cases hmove with
      | read => exact .inl ⟨_, rfl, rfl⟩
      | @cleanup c rest t c' io move => cases c' <;> cases hpush
      | _ => cases hpush
  | send a =>
      have hframe := (sendNext_move h).frame
      exact .inr ⟨hframe.io ▸ hpush, .inr hframe.recvQ⟩
  | call k a =>
      have hframe := (callNext_move h).frame
      exact .inr ⟨hframe.io ▸ hpush, .inr hframe.recvQ⟩
  | ack a =>
      have hframe := (ackNext_move h).frame
      exact .inr ⟨hframe.io ▸ hpush, .inr hframe.recvQ⟩
  | env a =>
      have hmove := envNext_move h
      cases hmove with
      | takeRequest => exact .inr ⟨hpush, .inl rfl⟩
      | _ => exact .inr ⟨hpush, .inr rfl⟩

end Server

end SgMuni
