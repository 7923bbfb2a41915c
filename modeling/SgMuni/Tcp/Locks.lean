import SgMuni.Tcp.Moves
import SgMuni.Transition.Mutex

/-!
# The mutexes of the server

Which positions are inside of a critical section under `clients_mtx` or
`pending_mtx`, and that every step takes and leaves a mutex together with its
section, so that at most one thread is inside.
-/

namespace SgMuni

namespace Server

open Transition

/-- The thread is inside of a section under `clients_mtx`. -/
def holdsClients (s : Server) : Tid → Bool
  | .io =>
      match s.io with
      | .appending _ _ => true
      | .cleanup c _ => c.stage = .remove
      | _ => false
  | .send =>
      match s.send with
      | .cleanup c => c.stage = .remove
      | _ => false
  | .ack => false
  | .caller k =>
      match s.caller k with
      | .broadcasting _ _ | .listing => true
      | _ => false

/-- The thread is inside of a section under `pending_mtx`. -/
def holdsPending (s : Server) : Tid → Bool
  | .io | .send => false
  | .ack =>
      match s.ack with
      | .sweeping _ _ => true
      | _ => false
  | .caller k =>
      match s.caller k with
      | .pendingHeld _ => true
      | _ => false

variable {cfg : Config} {s s' : Server}

theorem holdsClients_of_ne_io (hsend : s'.send = s.send) (hcaller : s'.caller = s.caller)
    {u : Tid} (hu : u ≠ .io) : s'.holdsClients u = s.holdsClients u := by
  cases u with
  | io => exact absurd rfl hu
  | send => simp only [holdsClients, hsend]
  | ack => rfl
  | caller k => simp only [holdsClients, hcaller]

theorem holdsClients_of_ne_send (hio : s'.io = s.io) (hcaller : s'.caller = s.caller)
    {u : Tid} (hu : u ≠ .send) : s'.holdsClients u = s.holdsClients u := by
  cases u with
  | io => simp only [holdsClients, hio]
  | send => exact absurd rfl hu
  | ack => rfl
  | caller k => simp only [holdsClients, hcaller]

theorem CallFrame.holdsClients_eq {k : Nat} (h : CallFrame k s s') {u : Tid} (hu : u ≠ .caller k) :
    s'.holdsClients u = s.holdsClients u := by
  cases u with
  | io => simp only [holdsClients, h.io]
  | send => simp only [holdsClients, h.send]
  | ack => rfl
  | caller j =>
      have hj : j ≠ k := fun hj => hu (congrArg Tid.caller hj)
      simp only [holdsClients, h.caller j hj]

theorem CallFrame.holdsPending_eq {k : Nat} (h : CallFrame k s s') {u : Tid} (hu : u ≠ .caller k) :
    s'.holdsPending u = s.holdsPending u := by
  cases u with
  | io => rfl
  | send => rfl
  | ack => simp only [holdsPending, h.ack]
  | caller j =>
      have hj : j ≠ k := fun hj => hu (congrArg Tid.caller hj)
      simp only [holdsPending, h.caller j hj]

theorem holdsPending_of_ne_ack (hcaller : s'.caller = s.caller) {u : Tid} (hu : u ≠ .ack) :
    s'.holdsPending u = s.holdsPending u := by
  cases u with
  | io => rfl
  | send => rfl
  | ack => exact absurd rfl hu
  | caller k => simp only [holdsPending, hcaller]

theorem holdsClients_congr (hio : s'.io = s.io) (hsend : s'.send = s.send)
    (hcaller : s'.caller = s.caller) : s'.holdsClients = s.holdsClients := by
  funext u
  cases u <;> simp only [holdsClients, hio, hsend, hcaller]

theorem holdsPending_congr (hack : s'.ack = s.ack) (hcaller : s'.caller = s.caller) :
    s'.holdsPending = s.holdsPending := by
  funext u
  cases u <;> simp only [holdsPending, hack, hcaller]

/-- Only the thread inside of its section under `clients_mtx` changes the registry. -/
theorem IoMove.clients_eq {a : IoAct} (h : IoMove cfg s a s') :
    s'.clients = s.clients ∨ s.holdsClients .io = true := by
  cases h with
  | append io => exact .inr (by simp only [holdsClients, io])
  | cleanup io move =>
      cases move with
      | remove stage => exact .inr (by simp [holdsClients, io, stage])
      | _ => exact .inl rfl
  | _ => exact .inl rfl

theorem SendMove.clients_eq {a : SendAct} (h : SendMove s a s') :
    s'.clients = s.clients ∨ s.holdsClients .send = true := by
  cases h with
  | cleanup send move =>
      cases move with
      | remove stage => exact .inr (by simp [holdsClients, send, stage])
      | _ => exact .inl rfl
  | _ => exact .inl rfl

theorem IoMove.clientsMtx {a : IoAct} (h : IoMove cfg s a s') :
    MutexStep .io s.clientsMtx s'.clientsMtx (s.holdsClients .io) (s'.holdsClients .io) := by
  cases h with
  | cleanup io move =>
      cases move with
      | detach stage => exact .keep rfl (by simp [holdsClients, IoPc.resume, io, stage])
      | close stage => exact .keep rfl (by simp [holdsClients, IoPc.resume, io, stage])
      | lock stage free => exact .take free rfl (by simp [holdsClients, IoPc.resume])
      | remove stage => exact .leave (by simp [holdsClients, io, stage]) rfl rfl
  | lock io free => exact .take free rfl rfl
  | append io => exact .leave (by simp only [holdsClients, io]) rfl rfl
  | _ => exact .keep rfl (by simp [holdsClients, *])

theorem SendMove.clientsMtx {a : SendAct} (h : SendMove s a s') :
    MutexStep .send s.clientsMtx s'.clientsMtx (s.holdsClients .send) (s'.holdsClients .send) := by
  cases h with
  | cleanup send move =>
      cases move with
      | detach stage => exact .keep rfl (by simp [holdsClients, SendPc.resume, send, stage])
      | close stage => exact .keep rfl (by simp [holdsClients, SendPc.resume, send, stage])
      | lock stage free => exact .take free rfl (by simp [holdsClients, SendPc.resume])
      | remove stage => exact .leave (by simp [holdsClients, send, stage]) rfl rfl
  | _ => exact .keep rfl (by simp [holdsClients, *])

theorem CallMove.clientsMtx {k : Nat} {a : CallAct} (h : CallMove cfg s k a s') :
    MutexStep (.caller k) s.clientsMtx s'.clientsMtx
      (s.holdsClients (.caller k)) (s'.holdsClients (.caller k)) := by
  cases h with
  | lockBroadcast caller free => exact .take free rfl (by simp [holdsClients])
  | lockList caller free => exact .take free rfl (by simp [holdsClients])
  | broadcastEnd caller last =>
      exact .leave (by simp [holdsClients, caller]) rfl (by simp [holdsClients])
  | listEnd caller => exact .leave (by simp [holdsClients, caller]) rfl (by simp [holdsClients])
  | _ => exact .keep rfl (by simp [holdsClients, *])

theorem CallMove.pendingMtx {k : Nat} {a : CallAct} (h : CallMove cfg s k a s') :
    MutexStep (.caller k) s.pendingMtx s'.pendingMtx
      (s.holdsPending (.caller k)) (s'.holdsPending (.caller k)) := by
  cases h with
  | lockPending caller free => exact .take free rfl (by simp [holdsPending])
  | runAdd caller => exact .leave (by simp [holdsPending, caller]) rfl (by simp [holdsPending])
  | runAck caller => exact .leave (by simp [holdsPending, caller]) rfl (by simp [holdsPending])
  | _ => exact .keep rfl (by simp [holdsPending, *])

theorem AckMove.pendingMtx {a : AckAct} (h : AckMove cfg s a s') :
    MutexStep .ack s.pendingMtx s'.pendingMtx (s.holdsPending .ack) (s'.holdsPending .ack) := by
  cases h with
  | lock ack free => exact .take free rfl rfl
  | finish ack last => exact .leave (by simp [holdsPending, ack]) rfl rfl
  | _ => exact .keep rfl (by simp [holdsPending, *])

/-- Each mutex is owned by the thread inside of its critical section. -/
structure MutexInv (s : Server) : Prop where
  clients : Guarded s.clientsMtx s.holdsClients
  pending : Guarded s.pendingMtx s.holdsPending

theorem mutexInv_start (table : Fd → Option Owner) : MutexInv (start table) where
  clients u := by cases u <;> simp [start, holdsClients]
  pending u := by cases u <;> simp [start, holdsPending]

/-- Every step keeps the mutexes guarding their sections. -/
theorem MutexInv.next {a : Action} (hinv : MutexInv s) (h : next cfg s a = some s') :
    MutexInv s' := by
  cases a with
  | io a =>
      have hmove := ioNext_move h
      refine ⟨hinv.clients.step hmove.clientsMtx fun u hu =>
        holdsClients_of_ne_io hmove.frame.send hmove.frame.caller hu, ?_⟩
      rw [hmove.frame.pendingMtx, holdsPending_congr hmove.frame.ack hmove.frame.caller]
      exact hinv.pending
  | send a =>
      have hmove := sendNext_move h
      refine ⟨hinv.clients.step hmove.clientsMtx fun u hu =>
        holdsClients_of_ne_send hmove.frame.io hmove.frame.caller hu, ?_⟩
      rw [hmove.frame.pendingMtx, holdsPending_congr hmove.frame.ack hmove.frame.caller]
      exact hinv.pending
  | call k a =>
      have hmove := callNext_move h
      exact ⟨hinv.clients.step hmove.clientsMtx fun u hu => hmove.frame.holdsClients_eq hu,
        hinv.pending.step hmove.pendingMtx fun u hu => hmove.frame.holdsPending_eq hu⟩
  | ack a =>
      have hmove := ackNext_move h
      refine ⟨?_, hinv.pending.step hmove.pendingMtx fun u hu =>
        holdsPending_of_ne_ack hmove.frame.caller hu⟩
      rw [hmove.frame.clientsMtx,
        holdsClients_congr hmove.frame.io hmove.frame.send hmove.frame.caller]
      exact hinv.clients
  | env a =>
      have hframe := (envNext_move h).frame
      refine ⟨?_, ?_⟩
      · rw [hframe.clientsMtx, holdsClients_congr hframe.io hframe.send hframe.caller]
        exact hinv.clients
      · rw [hframe.pendingMtx, holdsPending_congr hframe.ack hframe.caller]
        exact hinv.pending

theorem mutexInv_of_reachable (h : (system cfg).Reachable s) : MutexInv s := by
  refine h.invariant ?_ fun s a t _ ht hinv => hinv.next ht
  rintro _ ⟨table, -, rfl⟩
  exact mutexInv_start table

end Server

end SgMuni
