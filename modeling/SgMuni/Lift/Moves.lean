import SgMuni.Lift.Handlers
import SgMuni.Transition.Mutex

/-!
# The moves of the handlers

What each handler can do from where it is, read off its step function once, and
the mutual exclusion of the sections under `bincount_mutex` and `clients_mtx`.
-/

namespace SgMuni

namespace Comm

open Transition

variable {cfg : Config} {s s' : Comm}

/-- The moves of `gpio_change_callback`. -/
inductive GpioMove (cfg : Config) (s : Comm) : GpioAct → Comm → Prop
  | lift (gpio : s.gpio = .idle) (free : s.bincountMtx = none) :
      GpioMove cfg s .lift
        { s with
          bincountMtx := some .gpio
          gpio := .counting }
  | count {written : Bool} {number : Int} (gpio : s.gpio = .counting)
      (counted : number = C.wrap (s.bincount + 1)) :
      GpioMove cfg s (.count written)
        { s with
          bincount := number
          file := s.writeBincountToFile number written
          bincountMtx := none
          sections := s.sections + 1
          number := Function.update s.number s.sections number
          gpio := .broadcastLock {
            seq := s.sections
            number := number
            text := assembleBinliftMessage number cfg.esn } }
  | lockBroadcast {a : Announcement} (gpio : s.gpio = .broadcastLock a)
      (free : s.clientsMtx = none) :
      GpioMove cfg s .lockClients
        { s with
          clientsMtx := some .gpio
          gpio := .broadcasting a 0 }
  | lockList {a : Announcement} (gpio : s.gpio = .listLock a) (free : s.clientsMtx = none) :
      GpioMove cfg s .lockClients
        { s with
          clientsMtx := some .gpio
          gpio := .listing a }
  | push {a : Announcement} {i : Nat} {fd : Fd} (gpio : s.gpio = .broadcasting a i)
      (client : s.clients[i]? = some fd) (room : s.sendQ.length < cfg.cap) :
      GpioMove cfg s .push { s.announce fd a with gpio := .broadcasting a (i + 1) }
  | broadcastEnd {a : Announcement} {i : Nat} (gpio : s.gpio = .broadcasting a i)
      (last : s.clients.length ≤ i) :
      GpioMove cfg s .broadcastEnd
        { s with
          clientsMtx := none
          gpio := .listLock a }
  | list {a : Announcement} (gpio : s.gpio = .listing a) :
      GpioMove cfg s (.list true)
        { s with
          clientsMtx := none
          gpio := .adding a s.clients }
  | listFail {a : Announcement} (gpio : s.gpio = .listing a) :
      GpioMove cfg s (.list false)
        { s with
          clientsMtx := none
          gpio := .idle }
  | call {a : Announcement} {fd : Fd} {clist : List Fd} {now : Int}
      (gpio : s.gpio = .adding a (fd :: clist)) :
      GpioMove cfg s (.call now)
        { s with
          gpio := .pendingLock a { fd := fd, bincount := s.bincount, now := now } clist }
  | lockPending {a : Announcement} {call : AddCall} {clist : List Fd}
      (gpio : s.gpio = .pendingLock a call clist) (free : s.pendingMtx = none) :
      GpioMove cfg s .lockPending
        { s with
          pendingMtx := some .gpio
          gpio := .pendingHeld a call clist }
  | add {a : Announcement} {call : AddCall} {clist : List Fd}
      (gpio : s.gpio = .pendingHeld a call clist) :
      GpioMove cfg s .add
        { s with
          pending :=
            addPending
              (newPending s.fresh call.fd a.text (toUnsigned call.bincount) call.now) s.pending
          fresh := s.fresh + 1
          event := Function.update s.event s.fresh a.seq
          pendingMtx := none
          gpio := .adding a clist }
  | done {a : Announcement} (gpio : s.gpio = .adding a []) :
      GpioMove cfg s .done { s with gpio := .idle }

/-- The moves of `bin_clr_handler`. -/
inductive ClrMove (cfg : Config) (s : Comm) : ClrAct → Comm → Prop
  | task (clr : s.clr = .idle) (free : s.bincountMtx = none) :
      ClrMove cfg s .task
        { s with
          bincountMtx := some .clr
          clr := .zeroing }
  | zero (clr : s.clr = .zeroing) :
      ClrMove cfg s .zero
        { s with
          bincount := 0
          clr := .writing }
  | write {ok : Bool} (clr : s.clr = .writing) :
      ClrMove cfg s (.write ok)
        { s with
          file := s.writeBincountToFile s.bincount ok
          clr := .reading }
  | read {ok : Bool} {number : Int} (clr : s.clr = .reading)
      (readBack : number = s.readBincountFromFile ok) :
      ClrMove cfg s (.read ok)
        { s with
          bincount := number
          bincountMtx := none
          sections := s.sections + 1
          number := Function.update s.number s.sections number
          clr := .broadcastLock {
            seq := s.sections
            number := number
            text := binText number } }
  | lockBroadcast {a : Announcement} (clr : s.clr = .broadcastLock a)
      (free : s.clientsMtx = none) :
      ClrMove cfg s .lockClients
        { s with
          clientsMtx := some .clr
          clr := .broadcasting a 0 }
  | push {a : Announcement} {i : Nat} {fd : Fd} (clr : s.clr = .broadcasting a i)
      (client : s.clients[i]? = some fd) (room : s.sendQ.length < cfg.cap) :
      ClrMove cfg s .push { s.announce fd a with clr := .broadcasting a (i + 1) }
  | broadcastEnd {a : Announcement} {i : Nat} (clr : s.clr = .broadcasting a i)
      (last : s.clients.length ≤ i) :
      ClrMove cfg s .broadcastEnd
        { s with
          clientsMtx := none
          clr := .idle }

/-- The moves of `bin_query_handler`. -/
inductive QueryMove (cfg : Config) (s : Comm) : QueryAct → Comm → Prop
  | task {fd : Fd} (query : s.query = .idle) (free : s.bincountMtx = none) :
      QueryMove cfg s (.task fd)
        { s with
          bincountMtx := some .query
          query := .reading fd }
  | read {fd : Fd} (query : s.query = .reading fd) :
      QueryMove cfg s .read
        { s with
          bincountMtx := none
          sections := s.sections + 1
          number := Function.update s.number s.sections s.bincount
          query := .pushing {
            seq := s.sections
            number := s.bincount
            text := binText s.bincount } fd }
  | push {a : Announcement} {fd : Fd} (query : s.query = .pushing a fd)
      (room : s.sendQ.length < cfg.cap) :
      QueryMove cfg s .push { s.announce fd a with query := .idle }

/-- The moves of `bin_ack_handler`. -/
inductive AckMove (s : Comm) : AckAct → Comm → Prop
  | task {task : AckTask} (ack : s.ack = .idle) (answers : s.Answers task) :
      AckMove s (.task task) { s with ack := .locking task }
  | lock {task : AckTask} (ack : s.ack = .locking task) (free : s.pendingMtx = none) :
      AckMove s .lock
        { s with
          pendingMtx := some .ack
          ack := .searching task }
  | search {task : AckTask} (ack : s.ack = .searching task) :
      AckMove s .search
        { s with
          pending := ackFirst task.fd task.bincount s.pending
          pendingMtx := none
          answered := s.answered ++ (task.answers.map fun seq => (task.fd, seq)).toList
          ack := .idle }

/-- The moves of `ack_manager`. -/
inductive ManagerMove (cfg : Config) (s : Comm) : ManagerAct → Comm → Prop
  | start {now : Int} (manager : s.manager = .sleeping) :
      ManagerMove cfg s (.start now) { s with manager := .locking now }
  | lock {now : Int} (manager : s.manager = .locking now) (free : s.pendingMtx = none) :
      ManagerMove cfg s .lock
        { s with
          pendingMtx := some .manager
          manager := .sweeping now 0 }
  | delete {now : Int} {pos : Nat} {p : PendingAck} (manager : s.manager = .sweeping now pos)
      (node : s.pending[pos]? = some p) (closed : p.closed = true) :
      ManagerMove cfg s .visit { s with pending := s.pending.eraseIdx pos }
  | resend {now : Int} {pos : Nat} {p : PendingAck} (manager : s.manager = .sweeping now pos)
      (node : s.pending[pos]? = some p) (isOpen : p.closed = false) (due : p.due now = true)
      (room : s.sendQ.length < cfg.cap) :
      ManagerMove cfg s .visit
        { s with
          sendQ := s.sendQ ++ [(p.clientFd, p.msg)]
          resent := s.resent ++ [(p.clientFd, s.event p.node)]
          pending := s.pending.set pos (p.resent now)
          manager := .sweeping now (pos + 1) }
  | pass {now : Int} {pos : Nat} {p : PendingAck} (manager : s.manager = .sweeping now pos)
      (node : s.pending[pos]? = some p) (isOpen : p.closed = false) (due : p.due now = false) :
      ManagerMove cfg s .visit { s with manager := .sweeping now (pos + 1) }
  | finish {now : Int} {pos : Nat} (manager : s.manager = .sweeping now pos)
      (last : s.pending.length ≤ pos) :
      ManagerMove cfg s .finish
        { s with
          pendingMtx := none
          manager := .sleeping }

/-- The moves of the TCP threads. -/
inductive TcpMove (s : Comm) : TcpAct → Comm → Prop
  | pop {x : Fd × List UInt8} {rest : List (Fd × List UInt8)} (sendQ : s.sendQ = x :: rest) :
      TcpMove s .pop { s with sendQ := rest }
  | register {fd : Fd} (free : s.clientsMtx = none) :
      TcpMove s (.register fd) { s with clients := s.clients ++ [fd] }
  | remove {fd : Fd} (free : s.clientsMtx = none) :
      TcpMove s (.remove fd) { s with clients := removeClient (· = fd) s.clients }

theorem gpioNext_move {a : GpioAct} (h : s.gpioNext cfg a = some s') : GpioMove cfg s a s' := by
  cases a with
  | lift =>
      simp only [gpioNext] at h
      split at h <;>
        simp only [Option.ite_none_right_eq_some, Option.some.injEq, reduceCtorEq] at h
      case h_1 hgpio =>
          obtain ⟨hfree, rfl⟩ := h
          exact .lift hgpio hfree
  | count written =>
      simp only [gpioNext] at h
      split at h <;> cases h
      case h_1 hgpio => exact .count hgpio rfl
  | lockClients =>
      simp only [gpioNext] at h
      split at h <;>
        simp only [Option.ite_none_right_eq_some, Option.some.injEq, reduceCtorEq] at h
      case h_1 hgpio =>
          obtain ⟨hfree, rfl⟩ := h
          exact .lockBroadcast hgpio hfree
      case h_2 hgpio =>
          obtain ⟨hfree, rfl⟩ := h
          exact .lockList hgpio hfree
  | push =>
      simp only [gpioNext] at h
      split at h <;> try cases h
      case h_1 hgpio =>
          split at h <;>
            simp only [Option.ite_none_right_eq_some, Option.some.injEq, reduceCtorEq] at h
          case h_1 hclient =>
              obtain ⟨hroom, rfl⟩ := h
              exact .push hgpio hclient hroom
  | broadcastEnd =>
      simp only [gpioNext] at h
      split at h <;>
        simp only [Option.ite_none_right_eq_some, Option.some.injEq, reduceCtorEq] at h
      case h_1 hgpio =>
          obtain ⟨hlast, rfl⟩ := h
          exact .broadcastEnd hgpio hlast
  | list ok =>
      simp only [gpioNext] at h
      split at h <;> cases h
      case h_1 hgpio =>
          cases ok with
          | true => exact .list hgpio
          | false => exact .listFail hgpio
  | call now =>
      simp only [gpioNext] at h
      split at h <;> cases h
      case h_1 hgpio => exact .call hgpio
  | lockPending =>
      simp only [gpioNext] at h
      split at h <;>
        simp only [Option.ite_none_right_eq_some, Option.some.injEq, reduceCtorEq] at h
      case h_1 hgpio =>
          obtain ⟨hfree, rfl⟩ := h
          exact .lockPending hgpio hfree
  | add =>
      simp only [gpioNext] at h
      split at h <;> cases h
      case h_1 hgpio => exact .add hgpio
  | done =>
      simp only [gpioNext] at h
      split at h <;> cases h
      case h_1 hgpio => exact .done hgpio

theorem clrNext_move {a : ClrAct} (h : s.clrNext cfg a = some s') : ClrMove cfg s a s' := by
  cases a with
  | task =>
      simp only [clrNext] at h
      split at h <;>
        simp only [Option.ite_none_right_eq_some, Option.some.injEq, reduceCtorEq] at h
      case h_1 hclr =>
          obtain ⟨hfree, rfl⟩ := h
          exact .task hclr hfree
  | zero =>
      simp only [clrNext] at h
      split at h <;> cases h
      case h_1 hclr => exact .zero hclr
  | write ok =>
      simp only [clrNext] at h
      split at h <;> cases h
      case h_1 hclr => exact .write hclr
  | read ok =>
      simp only [clrNext] at h
      split at h <;> cases h
      case h_1 hclr => exact .read hclr rfl
  | lockClients =>
      simp only [clrNext] at h
      split at h <;>
        simp only [Option.ite_none_right_eq_some, Option.some.injEq, reduceCtorEq] at h
      case h_1 hclr =>
          obtain ⟨hfree, rfl⟩ := h
          exact .lockBroadcast hclr hfree
  | push =>
      simp only [clrNext] at h
      split at h <;> try cases h
      case h_1 hclr =>
          split at h <;>
            simp only [Option.ite_none_right_eq_some, Option.some.injEq, reduceCtorEq] at h
          case h_1 hclient =>
              obtain ⟨hroom, rfl⟩ := h
              exact .push hclr hclient hroom
  | broadcastEnd =>
      simp only [clrNext] at h
      split at h <;>
        simp only [Option.ite_none_right_eq_some, Option.some.injEq, reduceCtorEq] at h
      case h_1 hclr =>
          obtain ⟨hlast, rfl⟩ := h
          exact .broadcastEnd hclr hlast

theorem queryNext_move {a : QueryAct} (h : s.queryNext cfg a = some s') :
    QueryMove cfg s a s' := by
  cases a with
  | task fd =>
      simp only [queryNext] at h
      split at h <;>
        simp only [Option.ite_none_right_eq_some, Option.some.injEq, reduceCtorEq] at h
      case h_1 hquery =>
          obtain ⟨hfree, rfl⟩ := h
          exact .task hquery hfree
  | read =>
      simp only [queryNext] at h
      split at h <;> cases h
      case h_1 hquery => exact .read hquery
  | push =>
      simp only [queryNext] at h
      split at h <;>
        simp only [Option.ite_none_right_eq_some, Option.some.injEq, reduceCtorEq] at h
      case h_1 hquery =>
          obtain ⟨hroom, rfl⟩ := h
          exact .push hquery hroom

theorem ackNext_move {a : AckAct} (h : s.ackNext a = some s') : AckMove s a s' := by
  cases a with
  | task task =>
      simp only [ackNext] at h
      split at h <;>
        simp only [Option.ite_none_right_eq_some, Option.some.injEq, reduceCtorEq] at h
      case h_1 hack =>
          obtain ⟨hanswers, rfl⟩ := h
          exact .task hack hanswers
  | lock =>
      simp only [ackNext] at h
      split at h <;>
        simp only [Option.ite_none_right_eq_some, Option.some.injEq, reduceCtorEq] at h
      case h_1 hack =>
          obtain ⟨hfree, rfl⟩ := h
          exact .lock hack hfree
  | search =>
      simp only [ackNext] at h
      split at h <;> cases h
      case h_1 hack => exact .search hack

theorem managerNext_move {a : ManagerAct} (h : s.managerNext cfg a = some s') :
    ManagerMove cfg s a s' := by
  cases a with
  | start now =>
      simp only [managerNext] at h
      split at h <;> cases h
      case h_1 hmanager => exact .start hmanager
  | lock =>
      simp only [managerNext] at h
      split at h <;>
        simp only [Option.ite_none_right_eq_some, Option.some.injEq, reduceCtorEq] at h
      case h_1 hmanager =>
          obtain ⟨hfree, rfl⟩ := h
          exact .lock hmanager hfree
  | visit =>
      simp only [managerNext] at h
      split at h <;> try cases h
      case h_1 hmanager =>
          split at h
          case h_1 p hp =>
              split_ifs at h with hclosed hdue hroom <;> cases h
              · exact .delete hmanager hp hclosed
              · exact .resend hmanager hp (by simpa using hclosed) hdue hroom
              · exact .pass hmanager hp (by simpa using hclosed) (by simpa using hdue)
          case h_2 => cases h
  | finish =>
      simp only [managerNext] at h
      split at h <;>
        simp only [Option.ite_none_right_eq_some, Option.some.injEq, reduceCtorEq] at h
      case h_1 hmanager =>
          obtain ⟨hlast, rfl⟩ := h
          exact .finish hmanager hlast

theorem tcpNext_move {a : TcpAct} (h : s.tcpNext a = some s') : TcpMove s a s' := by
  cases a with
  | pop =>
      simp only [tcpNext] at h
      split at h <;> cases h
      case h_1 hq => exact .pop hq
  | register fd =>
      simp only [tcpNext, Option.ite_none_right_eq_some, Option.some.injEq] at h
      obtain ⟨hfree, rfl⟩ := h
      exact .register hfree
  | remove fd =>
      simp only [tcpNext, Option.ite_none_right_eq_some, Option.some.injEq] at h
      obtain ⟨hfree, rfl⟩ := h
      exact .remove hfree

theorem AckMove.mem_pending {a : AckAct} (h : AckMove s a s') {q : PendingAck}
    (hq : q ∈ s'.pending) : ∃ p ∈ s.pending, p.Evolves q := by
  cases h with
  | search ack => exact evolves_of_mem_ackFirst hq
  | _ => exact ⟨q, hq, .refl q⟩

theorem ManagerMove.mem_pending {a : ManagerAct} (h : ManagerMove cfg s a s') {q : PendingAck}
    (hq : q ∈ s'.pending) : ∃ p ∈ s.pending, p.Evolves q := by
  cases h with
  | delete manager node closed => exact ⟨q, List.mem_of_mem_eraseIdx hq, .refl q⟩
  | resend manager node isOpen due room => exact evolves_of_mem_set_resent node isOpen _ hq
  | _ => exact ⟨q, hq, .refl q⟩

end Comm

end SgMuni
