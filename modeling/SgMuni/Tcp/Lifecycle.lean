import SgMuni.Tcp.Moves
import SgMuni.Tcp.Teardown

/-!
# Clients of the server from `accept` to `cleanup_connection`

The server is mapped to the system of descriptors: every step of `io_loop` and
`send_loop` that accepts, registers or tears down a client is a step there, and
all other steps but the opening and closing of files are quiet. What holds of
the registry and of the teardowns of the server is read off that system.
-/

namespace SgMuni

/-- The descriptor that `io_loop` has still to register. -/
def IoPc.accepting : IoPc → Option Peer
  | .accepted p _ | .registering p _ | .appending p _ => some p
  | _ => none

def IoPc.cleaning : IoPc → Option Cleanup
  | .cleanup c _ => some c
  | _ => none

def SendPc.cleaning : SendPc → Option Cleanup
  | .cleanup c => some c
  | _ => none

@[simp] theorem IoPc.accepting_resume (evs : List Event) (c : Option Cleanup) :
    (IoPc.resume evs c).accepting = none := by
  cases c <;> rfl

@[simp] theorem IoPc.cleaning_resume (evs : List Event) (c : Option Cleanup) :
    (IoPc.resume evs c).cleaning = c := by
  cases c <;> rfl

@[simp] theorem SendPc.cleaning_resume (c : Option Cleanup) : (SendPc.resume c).cleaning = c := by
  cases c <;> rfl

namespace Server

open Transition

def cleanupOf (s : Server) : Cleaner → Option Cleanup
  | .io => s.io.cleaning
  | .send => s.send.cleaning

/-- The descriptors of the server. -/
def descriptors (s : Server) : Descriptors where
  table := s.table
  nextConn := s.nextConn
  clients := s.clients
  registering := s.io.accepting
  cleanup := s.cleanupOf

/-- What a step of the server does with descriptors. A teardown is triggered by
the connection of the event, or by the one that `send` fails on. -/
def descriptorStep (s : Server) : Action → Descriptors.Step
  | .io (.accept fd) => .accept fd
  | .io .acceptFail => .acceptFail
  | .io .append => .append
  | .io .hup =>
      match s.io with
      | .batch (e :: _) => .start .io e.peer.fd e.peer.conn e.peer.conn
      | _ => .quiet
  | .io .eof =>
      match s.io with
      | .batch (e :: _) => .start .io e.peer.fd e.peer.conn (s.ownerConn e.peer.fd)
      | _ => .quiet
  | .io .cleanup => .cleanup .io
  | .send .sendFail =>
      match s.send with
      | .sending m => .start .send m.peer.fd (s.ownerConn m.peer.fd) (s.ownerConn m.peer.fd)
      | _ => .quiet
  | .send .cleanup => .cleanup .send
  | .env (.openFile fd) => .openFile fd
  | .env (.closeFile fd) => .closeFile fd
  | _ => .quiet

variable {cfg : Config} {s s' : Server}

theorem eq_descriptors {d : Descriptors} (htable : d.table = s.table)
    (hconn : d.nextConn = s.nextConn) (hclients : d.clients = s.clients)
    (haccepting : d.registering = s.io.accepting) (hio : d.cleanup .io = s.io.cleaning)
    (hsend : d.cleanup .send = s.send.cleaning) : d = s.descriptors := by
  have hcleanup : d.cleanup = s.cleanupOf := by
    funext w
    cases w
    · exact hio
    · exact hsend
  cases d
  simp_all [descriptors]

/-- The system of descriptors makes the steps of `cleanup_connection`. -/
theorem CleanupMove.advance {me : Tid} {w : Cleaner} {c : Cleanup} {t : Server}
    {c' : Option Cleanup} (h : CleanupMove s me c t c') :
    s.descriptors.advance w c =
      { s.descriptors with
        table := t.table
        clients := t.clients
        cleanup := Function.update s.cleanupOf w c' } := by
  cases h <;> simp only [Descriptors.advance, descriptors, *]

theorem next_start_io {fd : Fd} {trigger cause : Option Conn} {evs : List Event}
    (hidle : s.io.cleaning = none) (haccepting : s.io.accepting = none)
    (horigin : cause = trigger ∨ cause = s.ownerConn fd) :
    s.descriptors.next (.start .io fd trigger cause) =
      some (descriptors
        { s with io := .cleanup { stage := .detach, fd := fd, cause := cause } evs }) := by
  have hguard : s.descriptors.cleanup .io = none ∧
      (cause = trigger ∨ cause = s.descriptors.ownerConn fd) := ⟨hidle, horigin⟩
  simp only [Descriptors.next, hguard, and_self, if_true]
  apply congrArg some
  apply eq_descriptors
  case haccepting => exact haccepting
  all_goals simp [descriptors, cleanupOf, IoPc.cleaning]

theorem IoMove.descriptorStep {a : IoAct} (h : IoMove cfg s a s') :
    s.descriptors.next (s.descriptorStep (.io a)) = some s'.descriptors := by
  cases h with
  | accept io listen pos free =>
      have hguard : s.descriptors.table _ = none ∧ s.descriptors.registering = none :=
        ⟨free, by simp [descriptors, io, IoPc.accepting]⟩
      simp only [Server.descriptorStep, Descriptors.next, hguard, and_self, if_true]
      apply congrArg some
      apply eq_descriptors <;> simp [descriptors, cleanupOf, io, IoPc.accepting, IoPc.cleaning]
  | acceptFail io listen =>
      have hidle : s.descriptors.registering = none := by simp [descriptors, io, IoPc.accepting]
      simp only [Server.descriptorStep, Descriptors.next, hidle, if_true]
      apply congrArg some
      apply eq_descriptors <;> simp [descriptors, cleanupOf, io, IoPc.accepting, IoPc.cleaning]
  | @append p evs io =>
      have hp : s.descriptors.registering = some p := by simp [descriptors, io, IoPc.accepting]
      simp only [Server.descriptorStep, Descriptors.next, hp]
      apply congrArg some
      apply eq_descriptors <;> simp [descriptors, cleanupOf, io, IoPc.accepting, IoPc.cleaning]
  | hup io guard =>
      simp only [Server.descriptorStep, io]
      apply next_start_io
      · simp [io, IoPc.cleaning]
      · simp [io, IoPc.accepting]
      · exact .inl rfl
  | eof io guard =>
      simp only [Server.descriptorStep, io]
      apply next_start_io
      · simp [io, IoPc.cleaning]
      · simp [io, IoPc.accepting]
      · exact .inr rfl
  | @cleanup c evs t c' io move =>
      have hc : s.descriptors.cleanup .io = some c := by
        simp [descriptors, cleanupOf, io, IoPc.cleaning]
      have haccepting : s.io.accepting = none := by simp [io, IoPc.accepting]
      have hsend : t.send = s.send := by cases move <;> rfl
      have hconn : t.nextConn = s.nextConn := by cases move <;> rfl
      simp only [Server.descriptorStep, Descriptors.next, hc, Option.map_some, move.advance]
      apply congrArg some
      apply eq_descriptors <;> simp [descriptors, cleanupOf, haccepting, hsend, hconn]
  | _ =>
      apply congrArg some
      apply eq_descriptors <;> simp [descriptors, cleanupOf, IoPc.accepting, IoPc.cleaning, *]

theorem SendMove.descriptorStep {a : SendAct} (h : SendMove s a s') :
    s.descriptors.next (s.descriptorStep (.send a)) = some s'.descriptors := by
  cases h with
  | sendFail send =>
      have hidle : s.descriptors.cleanup .send = none := by
        simp [descriptors, cleanupOf, send, SendPc.cleaning]
      simp only [Server.descriptorStep, send, Descriptors.next, hidle, true_and, true_or, if_true]
      apply congrArg some
      apply eq_descriptors <;> simp [descriptors, cleanupOf, SendPc.cleaning]
  | @cleanup c t c' send move =>
      have hc : s.descriptors.cleanup .send = some c := by
        simp [descriptors, cleanupOf, send, SendPc.cleaning]
      have hio : t.io = s.io := by cases move <;> rfl
      have hconn : t.nextConn = s.nextConn := by cases move <;> rfl
      simp only [Server.descriptorStep, Descriptors.next, hc, Option.map_some, move.advance]
      apply congrArg some
      apply eq_descriptors <;> simp [descriptors, cleanupOf, hio, hconn]
  | _ =>
      apply congrArg some
      apply eq_descriptors <;> simp [descriptors, cleanupOf, SendPc.cleaning, *]

theorem EnvMove.descriptorStep {a : EnvAct} (h : EnvMove cfg s a s') :
    s.descriptors.next (s.descriptorStep (.env a)) = some s'.descriptors := by
  cases h with
  | openFile pos free =>
      have hfree : s.descriptors.table _ = none := free
      simp only [Server.descriptorStep, Descriptors.next, hfree, if_true]
      exact congrArg some (eq_descriptors rfl rfl rfl rfl rfl rfl)
  | closeFile socket other =>
      have hother : s.descriptors.table _ = some .other := other
      simp only [Server.descriptorStep, Descriptors.next, hother, if_true]
      exact congrArg some (eq_descriptors rfl rfl rfl rfl rfl rfl)
  | _ => exact congrArg some (eq_descriptors rfl rfl rfl rfl rfl rfl)

theorem descriptorStep_next {a : Action} (h : next cfg s a = some s') :
    s.descriptors.next (s.descriptorStep a) = some s'.descriptors := by
  cases a with
  | io a => exact (ioNext_move h).descriptorStep
  | send a => exact (sendNext_move h).descriptorStep
  | call k a =>
      have hmove : CallMove cfg s k a s' := callNext_move h
      cases hmove <;> exact congrArg some (eq_descriptors rfl rfl rfl rfl rfl rfl)
  | ack a =>
      have hmove : AckMove cfg s a s' := ackNext_move h
      cases hmove <;> exact congrArg some (eq_descriptors rfl rfl rfl rfl rfl rfl)
  | env a => exact (envNext_move h).descriptorStep

/-- The server as a system of descriptors. -/
def lifecycle (cfg : Config) : System.Mapping (system cfg) Descriptors.system where
  state := descriptors
  label := descriptorStep
  init := by
    rintro _ ⟨table, htable, rfl⟩
    refine ⟨htable, rfl, rfl, fun w => ?_⟩
    cases w <;> rfl
  next _ _ _ h := descriptorStep_next h

/-- As long as only live descriptors are registered and `cleanup_connection`
meets none in the registry, the registry names every live client once and nobody
else; the steps that leave it so are exactly these. -/
theorem registry_lists_live
    (h : (system cfg).ReachableUnder ((lifecycle cfg).pullback Descriptors.KeepsListed) s) :
    s.descriptors.ListsLive ∧
      ∀ a t, next cfg s a = some t →
        (t.descriptors.ListsLive ↔ (lifecycle cfg).pullback Descriptors.KeepsListed s a) := by
  obtain ⟨hlive, hiff⟩ :=
    Descriptors.listsLive_of_reachableUnder (System.Mapping.reachableUnder h)
  exact ⟨hlive, fun a t hn => hiff _ _ (descriptorStep_next hn)⟩

theorem twoClients_keepsListed :
    (system { cap := 128, listenFd := 3 }).StepsMeet
      ((lifecycle { cap := 128, listenFd := 3 }).pullback Descriptors.KeepsListed)
      (start (openFiles 6)) twoClients := by
  have hcut : twoClients = twoClients.take 4 ++
      .io .append :: ((twoClients.drop 5).take 8 ++ [.io .append]) := rfl
  rw [hcut]
  apply System.stepsMeet_append
  · apply System.stepsMeet_of_forall
    simp [twoClients, listedClient, System.Mapping.pullback, lifecycle, descriptorStep,
      Descriptors.KeepsListed]
  · intro t ht
    cases ht
    refine ⟨?_, fun u hu => ?_⟩
    · rintro p ⟨⟩
      exact ⟨0, rfl, rfl⟩
    · apply System.stepsMeet_append
      · apply System.stepsMeet_of_forall
        simp [twoClients, listedClient, System.Mapping.pullback, lifecycle, descriptorStep,
          Descriptors.KeepsListed]
      · intro v hv
        cases hu
        cases hv
        refine ⟨?_, fun _ _ => trivial⟩
        rintro p ⟨⟩
        exact ⟨1, rfl, rfl⟩

theorem registry_lists_live_twoClients :
    ∃ s, (system { cap := 128, listenFd := 3 }).exec (start (openFiles 6)) twoClients = some s ∧
      s.clients = [{ fd := 6, conn := some 0 }, { fd := 7, conn := some 1 }] ∧
      s.descriptors.ListsLive :=
  ⟨_, rfl, rfl, (registry_lists_live
    ⟨_, init_openFiles _ 6, System.leadsUnder_of_stepsMeet _ twoClients_keepsListed rfl⟩).1⟩

/-- `accept` fails and its result is registered. -/
def failedAccept : List Action :=
  [.io (.epollWait [{ peer := { fd := 3, conn := none }, hup := false, readable := true }]),
    .io .acceptFail, .io .watch, .io .lock, .io .append]

/-- `send_loop` closes the first client, and the next client gets its number. -/
def acceptedBeforeRemoval : List Action :=
  listedClient ++
    [.call 0 (.send { fd := 6, conn := some 0 } [0x7b]), .call 0 .push, .send .pop,
      .send .sendFail, .send .cleanup, .send .cleanup, .io .endBatch,
      .io (.epollWait [{ peer := { fd := 3, conn := none }, hup := false, readable := true }]),
      .io (.accept 6), .io .watch, .io .lock, .io .append]

/-- While `clients_mtx` is free the registry can name a failed `accept`, a closed
number, and a number twice. -/
theorem registry_lists_dead_numbers :
    (∃ s, (system { cap := 128, listenFd := 3 }).Reachable s ∧ s.clientsMtx = none ∧
      { fd := -1, conn := none } ∈ s.clients) ∧
    (∃ s, (system { cap := 128, listenFd := 3 }).Reachable s ∧ s.clientsMtx = none ∧
      ∃ p ∈ s.clients, s.table p.fd = none) ∧
    ∃ s, (system { cap := 128, listenFd := 3 }).Reachable s ∧ s.clientsMtx = none ∧
      s.clients.map (·.fd) = [6, 6] := by
  refine ⟨⟨_, System.reachable_of_exec failedAccept (init_openFiles _ 6) rfl, rfl, ?_⟩,
    ⟨_, System.reachable_of_exec (acceptedBeforeRemoval.take 14) (init_openFiles _ 6) rfl, rfl,
      { fd := 6, conn := some 0 }, ?_, rfl⟩,
    ⟨_, System.reachable_of_exec acceptedBeforeRemoval (init_openFiles _ 6) rfl, rfl, rfl⟩⟩
  · exact List.mem_singleton_self _
  · exact List.mem_singleton_self _

/-- The teardowns that a step of the server reports. -/
abbrev teardowns (cfg : Config) (s : Server) (a : Action) : List Teardown :=
  (lifecycle cfg).reports Descriptors.report s a

/-- As long as every call of `cleanup_connection` begins on the open connection
that triggered it, while the other thread does not tear it down, and finds it
registered, no connection is torn down twice and `close` and the removal hit the
connection of the call; the steps that leave it so are exactly these. -/
theorem teardowns_own {log : List Teardown}
    (h : ((system cfg).recording (teardowns cfg)).ReachableUnder
      (System.recorded ((lifecycle cfg).pullback Descriptors.Tidy)) (s, log)) :
    s.descriptors.OwnTeardowns log ∧
      ∀ a t, next cfg s a = some t →
        (t.descriptors.OwnTeardowns (log ++ teardowns cfg s a) ↔
          (lifecycle cfg).pullback Descriptors.Tidy s a) := by
  obtain ⟨hown, hiff⟩ :=
    Descriptors.ownTeardowns_of_reachableUnder (System.Mapping.recording_reachableUnder h)
  exact ⟨hown, fun a t hn => hiff _ _ (descriptorStep_next hn)⟩

/-- The first client disconnects. -/
def disconnect : List Action :=
  [.io .endBatch,
    .io (.epollWait [{ peer := { fd := 6, conn := some 0 }, hup := false, readable := true }]),
    .io .eof, .io .cleanup, .io .cleanup, .io .cleanup, .io .cleanup]

/-- `io_loop` registers nothing while it is in `cleanup_connection`. -/
theorem tidy_ioCleanup (s : Server) :
    (lifecycle cfg).pullback Descriptors.Tidy s (.io .cleanup) := by
  intro c hc _
  have hio : s.io.cleaning = some c := hc
  have hidle : s.io.accepting = none := by
    unfold IoPc.cleaning at hio
    split at hio <;> simp_all [IoPc.accepting]
  simp [lifecycle, descriptors, hidle]

theorem disconnect_tidy :
    ((system { cap := 128, listenFd := 3 }).recording
      (teardowns { cap := 128, listenFd := 3 })).StepsMeet
      (System.recorded ((lifecycle { cap := 128, listenFd := 3 }).pullback Descriptors.Tidy))
      (start (openFiles 6), []) (listedClient ++ disconnect) := by
  have hcut : listedClient ++ disconnect =
      (listedClient ++ disconnect).take 10 ++ (listedClient ++ disconnect).drop 10 := rfl
  rw [hcut]
  apply System.stepsMeet_append
  · apply System.stepsMeet_of_forall
    intro a ha _
    simp only [listedClient, disconnect, List.cons_append, List.nil_append, List.take_succ_cons,
      List.take_zero, List.mem_cons, List.not_mem_nil, or_false] at ha
    -- none of these steps is in `cleanup_connection`
    rcases ha with rfl | rfl | rfl | rfl | rfl | rfl | rfl | rfl | rfl | rfl <;> trivial
  · intro p hp
    cases hp
    refine ⟨⟨by decide, rfl, ?_⟩, ?_⟩
    · intro w hw c hc
      cases w
      · exact absurd rfl hw
      · cases hc
    · intro q _
      apply System.stepsMeet_of_forall
      simp [System.recorded, tidy_ioCleanup]

theorem teardowns_own_disconnect :
    ∃ s log, ((system { cap := 128, listenFd := 3 }).recording
        (teardowns { cap := 128, listenFd := 3 })).exec (start (openFiles 6), [])
          (listedClient ++ disconnect) = some (s, log) ∧
      log = [.registered { fd := 6, conn := some 0 }, .started (some 0) (some 0),
        .closed (some 0) (some (.conn 0)), .removed { fd := 6, conn := some 0 }] ∧
      s.descriptors.OwnTeardowns log :=
  ⟨_, _, rfl, rfl, (teardowns_own
    ⟨_, ⟨init_openFiles _ 6, rfl⟩, System.leadsUnder_of_stepsMeet _ disconnect_tidy rfl⟩).1⟩

/-- Two messages are queued for a client that does not take the first, and the
process opens a file before `send_loop` comes to the second. -/
def backlog : List Action :=
  listedClient ++
    [.call 0 (.send { fd := 6, conn := some 0 } [0x7b]), .call 0 .push,
      .call 0 (.send { fd := 6, conn := some 0 } [0x7d]), .call 0 .push,
      .send .pop, .send .sendFail, .send .cleanup, .send .cleanup, .send .cleanup, .send .cleanup,
      .env (.openFile 6), .send .pop, .send .sendFail, .send .cleanup, .send .cleanup]

/-- The second call closes the file. -/
theorem backlog_closes_file :
    ∃ s log, ((system { cap := 128, listenFd := 3 }).recording
        (teardowns { cap := 128, listenFd := 3 })).Reachable (s, log) ∧
      .closed none (some .other) ∈ log ∧ ¬ s.descriptors.OwnTeardowns log := by
  have hmem : Teardown.closed none (some .other) ∈
      [Teardown.registered { fd := 6, conn := some 0 }, .started (some 0) (some 0),
        .closed (some 0) (some (.conn 0)), .removed { fd := 6, conn := some 0 },
        .started none none, .closed none (some .other)] := by decide
  refine ⟨_, _, System.reachable_of_exec (s := (start (openFiles 6), [])) backlog
    ⟨init_openFiles _ 6, rfl⟩ rfl, hmem, ?_⟩
  intro hown
  obtain ⟨k, hk, -⟩ := hown.closes _ _ hmem
  cases hk

end Server

end SgMuni
