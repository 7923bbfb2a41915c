import SgMuni.Tcp.Server
import SgMuni.Transition.Mapping

/-!
# The life of a client's descriptor

What is left of the server when only accepting, registering and tearing down
clients is kept: the descriptor table, the registry, the descriptor that
`io_loop` is registering, and the calls of `cleanup_connection` of the two
threads that make them. The registry lists the live clients as long as no
listed client is torn down and every accepted descriptor is live when it is
registered.
-/

namespace SgMuni

open Transition

/-- The threads that call `cleanup_connection`. -/
inductive Cleaner
  | io
  | send
deriving DecidableEq

structure Descriptors where
  table : Fd → Option Owner
  nextConn : Conn
  clients : List Peer
  registering : Option Peer
  cleanup : Cleaner → Option Cleanup

namespace Descriptors

/-- The connection that a number denotes now. -/
def ownerConn (d : Descriptors) (fd : Fd) : Option Conn :=
  match d.table fd with
  | some (.conn k) => some k
  | _ => none

theorem ownerConn_eq_some {d : Descriptors} {fd : Fd} {k : Conn} :
    d.ownerConn fd = some k ↔ d.table fd = some (.conn k) := by
  unfold ownerConn
  split <;> simp_all

/-- The steps; a teardown of a number starts for the connection that triggered
it or for the one that the number denotes. -/
inductive Step
  | quiet
  | openFile (fd : Fd)
  | closeFile (fd : Fd)
  | accept (fd : Fd)
  | acceptFail
  | append
  | start (w : Cleaner) (fd : Fd) (trigger cause : Option Conn)
  | cleanup (w : Cleaner)

/-- The next step of a call of `cleanup_connection`. -/
def advance (d : Descriptors) (w : Cleaner) (c : Cleanup) : Descriptors :=
  match c.stage with
  | .detach => { d with cleanup := Function.update d.cleanup w (some { c with stage := .close }) }
  | .close =>
      { d with
        table := Function.update d.table c.fd none
        cleanup := Function.update d.cleanup w (some { c with stage := .lock }) }
  | .lock => { d with cleanup := Function.update d.cleanup w (some { c with stage := .remove }) }
  | .remove =>
      { d with
        clients := removeClient (·.fd = c.fd) d.clients
        cleanup := Function.update d.cleanup w none }

def next (d : Descriptors) : Step → Option Descriptors
  | .quiet => some d
  | .openFile fd =>
      if d.table fd = none then
        some { d with table := Function.update d.table fd (some .other) }
      else none
  | .closeFile fd =>
      if d.table fd = some .other then
        some { d with table := Function.update d.table fd none }
      else none
  | .accept fd =>
      if d.table fd = none ∧ d.registering = none then
        some { d with
          table := Function.update d.table fd (some (.conn d.nextConn))
          nextConn := d.nextConn + 1
          registering := some { fd := fd, conn := some d.nextConn } }
      else none
  | .acceptFail =>
      if d.registering = none then
        some { d with registering := some { fd := -1, conn := none } }
      else none
  | .append =>
      match d.registering with
      | some p => some { d with clients := d.clients ++ [p], registering := none }
      | none => none
  | .start w fd trigger cause =>
      if d.cleanup w = none ∧ (cause = trigger ∨ cause = d.ownerConn fd) then
        some { d with
          cleanup := Function.update d.cleanup w
            (some { stage := .detach, fd := fd, cause := cause }) }
      else none
  | .cleanup w => (d.cleanup w).map (d.advance w)

def system : System Descriptors Step where
  init d := (∀ fd k, d.table fd ≠ some (.conn k)) ∧ d.clients = [] ∧ d.registering = none ∧
    ∀ w, d.cleanup w = none
  next := next

/-- The moves of the system. -/
inductive Move (d : Descriptors) : Step → Descriptors → Prop
  | quiet : Move d .quiet d
  | openFile {fd : Fd} (free : d.table fd = none) :
      Move d (.openFile fd) { d with table := Function.update d.table fd (some .other) }
  | closeFile {fd : Fd} (other : d.table fd = some .other) :
      Move d (.closeFile fd) { d with table := Function.update d.table fd none }
  | accept {fd : Fd} (free : d.table fd = none) (idle : d.registering = none) :
      Move d (.accept fd)
        { d with
          table := Function.update d.table fd (some (.conn d.nextConn))
          nextConn := d.nextConn + 1
          registering := some { fd := fd, conn := some d.nextConn } }
  | acceptFail (idle : d.registering = none) :
      Move d .acceptFail { d with registering := some { fd := -1, conn := none } }
  | append {p : Peer} (registering : d.registering = some p) :
      Move d .append { d with clients := d.clients ++ [p], registering := none }
  | start {w : Cleaner} {fd : Fd} {trigger cause : Option Conn} (idle : d.cleanup w = none)
      (origin : cause = trigger ∨ cause = d.ownerConn fd) :
      Move d (.start w fd trigger cause)
        { d with
          cleanup := Function.update d.cleanup w
            (some { stage := .detach, fd := fd, cause := cause }) }
  | detach {w : Cleaner} {c : Cleanup} (cleanup : d.cleanup w = some c)
      (stage : c.stage = .detach) :
      Move d (.cleanup w)
        { d with cleanup := Function.update d.cleanup w (some { c with stage := .close }) }
  | close {w : Cleaner} {c : Cleanup} (cleanup : d.cleanup w = some c) (stage : c.stage = .close) :
      Move d (.cleanup w)
        { d with
          table := Function.update d.table c.fd none
          cleanup := Function.update d.cleanup w (some { c with stage := .lock }) }
  | lock {w : Cleaner} {c : Cleanup} (cleanup : d.cleanup w = some c) (stage : c.stage = .lock) :
      Move d (.cleanup w)
        { d with cleanup := Function.update d.cleanup w (some { c with stage := .remove }) }
  | remove {w : Cleaner} {c : Cleanup} (cleanup : d.cleanup w = some c)
      (stage : c.stage = .remove) :
      Move d (.cleanup w)
        { d with
          clients := removeClient (·.fd = c.fd) d.clients
          cleanup := Function.update d.cleanup w none }

theorem next_move {d d' : Descriptors} {a : Step} (h : d.next a = some d') : Move d a d' := by
  cases a with
  | quiet =>
      cases h
      exact .quiet
  | openFile fd =>
      obtain ⟨hfree, rfl⟩ := by simpa [next] using h
      exact .openFile hfree
  | closeFile fd =>
      obtain ⟨hother, rfl⟩ := by simpa [next] using h
      exact .closeFile hother
  | accept fd =>
      obtain ⟨⟨hfree, hidle⟩, rfl⟩ := by simpa [next] using h
      exact .accept hfree hidle
  | acceptFail =>
      obtain ⟨hidle, rfl⟩ := by simpa [next] using h
      exact .acceptFail hidle
  | append =>
      simp only [next] at h
      split at h <;> cases h
      case h_1 hregistering => exact .append hregistering
  | start w fd trigger cause =>
      obtain ⟨⟨hidle, horigin⟩, rfl⟩ := by simpa [next] using h
      exact .start hidle horigin
  | cleanup w =>
      obtain ⟨c, hc, rfl⟩ := Option.map_eq_some_iff.mp h
      unfold advance
      split
      case h_1 hstage => exact .detach hc hstage
      case h_2 hstage => exact .close hc hstage
      case h_3 hstage => exact .lock hc hstage
      case h_4 hstage => exact .remove hc hstage

/-- The registry names every open connection but the one being registered, each
once, and nothing else. -/
structure ListsLive (d : Descriptors) : Prop where
  distinct : (d.clients.map (·.fd)).Nodup
  live : ∀ p ∈ d.clients, ∃ k, p.conn = some k ∧ d.table p.fd = some (.conn k)
  complete : ∀ fd k, d.table fd = some (.conn k) →
    { fd := fd, conn := some k } ∈ d.clients ∨
      d.registering = some { fd := fd, conn := some k }

/-- What is registered is an open connection, and no number in the registry is
closed or looked up by `cleanup_connection`. -/
def KeepsListed (d : Descriptors) : Step → Prop
  | .append => ∀ p, d.registering = some p → ∃ k, p.conn = some k ∧ d.table p.fd = some (.conn k)
  | .cleanup w => ∀ c, d.cleanup w = some c → c.stage = .close ∨ c.stage = .remove →
      ∀ p ∈ d.clients, p.fd ≠ c.fd
  | _ => True

/-- The number that is being registered is not yet in the registry. -/
def NewNumber (d : Descriptors) : Prop :=
  ∀ p, d.registering = some p → p.conn ≠ none → ∀ q ∈ d.clients, q.fd ≠ p.fd

variable {d d' : Descriptors} {a : Step}

theorem ListsLive.fd_ne (hlive : d.ListsLive) (fd : Fd) (hfd : ∀ k, d.table fd ≠ some (.conn k)) :
    ∀ p ∈ d.clients, p.fd ≠ fd := by
  rintro p hp rfl
  obtain ⟨k, -, hk⟩ := hlive.live p hp
  exact hfd k hk

/-- A number outside the registry changes to what is no connection. -/
theorem ListsLive.update {fd : Fd} {owner : Option Owner} (hlive : d.ListsLive)
    (hfd : ∀ p ∈ d.clients, p.fd ≠ fd) (howner : ∀ k, owner ≠ some (.conn k))
    (htable : d'.table = Function.update d.table fd owner) (hclients : d'.clients = d.clients)
    (hregistering : d'.registering = d.registering) : d'.ListsLive := by
  constructor
  · rw [hclients]
    exact hlive.distinct
  · intro p hp
    rw [hclients] at hp
    obtain ⟨k, hconn, hk⟩ := hlive.live p hp
    exact ⟨k, hconn, by rw [htable, Function.update_of_ne (hfd p hp), hk]⟩
  · intro fd' k hk
    rw [hclients, hregistering]
    by_cases hfd' : fd' = fd
    · subst hfd'
      exact absurd (by simpa [htable] using hk) (howner k)
    · apply hlive.complete
      simpa [htable, hfd'] using hk

theorem ListsLive.next (hlive : d.ListsLive) (hnew : d.NewNumber) (hkeep : d.KeepsListed a)
    (h : d.next a = some d') : d'.ListsLive ∧ d'.NewNumber := by
  have hmove : Move d a d' := next_move h
  cases hmove with
  | quiet => exact ⟨hlive, hnew⟩
  | @openFile fd free =>
      have hfd := hlive.fd_ne fd (by simp [free])
      exact ⟨hlive.update hfd (by simp) rfl rfl rfl, hnew⟩
  | @closeFile fd other =>
      have hfd := hlive.fd_ne fd (by simp [other])
      exact ⟨hlive.update hfd (by simp) rfl rfl rfl, hnew⟩
  | @accept fd free idle =>
      have hfd := hlive.fd_ne fd (by simp [free])
      refine ⟨⟨hlive.distinct, ?_, ?_⟩, ?_⟩
      · intro p hp
        obtain ⟨k, hconn, hk⟩ := hlive.live p hp
        exact ⟨k, hconn, by simpa [hfd p hp] using hk⟩
      · intro fd' k hk
        by_cases hfd' : fd' = fd
        · subst hfd'
          exact .inr (by simpa using hk)
        · have hold : d.table fd' = some (.conn k) := by simpa [hfd'] using hk
          exact .inl ((hlive.complete fd' k hold).resolve_right (by simp [idle]))
      · intro p hp _ q hq
        cases Option.some.inj hp
        exact hfd q hq
  | acceptFail idle =>
      refine ⟨⟨hlive.distinct, hlive.live, ?_⟩, ?_⟩
      · intro fd k hk
        exact .inl ((hlive.complete fd k hk).resolve_right (by simp [idle]))
      · intro p hp hconn
        cases Option.some.inj hp
        exact absurd rfl hconn
  | @append p registering =>
      obtain ⟨k, hconn, hk⟩ := hkeep p registering
      have hfresh : ∀ q ∈ d.clients, q.fd ≠ p.fd := hnew p registering (by simp [hconn])
      refine ⟨⟨?_, ?_, ?_⟩, by simp [NewNumber]⟩
      · simpa [List.nodup_append, hlive.distinct] using hfresh
      · intro q hq
        rcases List.mem_append.mp hq with hold | hlast
        · exact hlive.live q hold
        · cases List.mem_singleton.mp hlast
          exact ⟨k, hconn, hk⟩
      · intro fd k hk
        apply Or.inl
        rw [List.mem_append, List.mem_singleton]
        apply (hlive.complete fd k hk).imp_right
        intro h
        exact (Option.some.inj (registering.symm.trans h)).symm
  | close cleanup stage =>
      have hfd := hkeep _ cleanup (.inl stage)
      exact ⟨hlive.update hfd (by simp) rfl rfl rfl, hnew⟩
  | @remove w c cleanup stage =>
      have hfd := hkeep c cleanup (.inr stage)
      have hsame : removeClient (·.fd = c.fd) d.clients = d.clients :=
        removeClient_eq_self (by simpa using hfd)
      rw [hsame]
      exact ⟨⟨hlive.distinct, hlive.live, hlive.complete⟩, hnew⟩
  | _ => exact ⟨⟨hlive.distinct, hlive.live, hlive.complete⟩, hnew⟩

/-- No entry is left for a number that `cleanup_connection` has removed. -/
theorem ListsLive.fd_ne_of_mem_removeClient {fd : Fd} (hlive : d.ListsLive) {p : Peer}
    (hp : p ∈ removeClient (·.fd = fd) d.clients) : p.fd ≠ fd := by
  have hmem : p.fd ∈ (d.clients.map (·.fd)).erase fd :=
    (map_removeClient_perm (·.fd) fd d.clients).mem_iff.mp (List.mem_map_of_mem hp)
  exact (hlive.distinct.mem_erase_iff.mp hmem).1

/-- A step that does not keep what is listed breaks the registry. -/
theorem ListsLive.keepsListed_of_next (hlive : d.ListsLive) (hnew : d.NewNumber)
    (h : d.next a = some d') (hlive' : d'.ListsLive) : d.KeepsListed a := by
  have hmove : Move d a d' := next_move h
  cases hmove with
  | @append p registering =>
      intro q hq
      cases registering.symm.trans hq
      exact hlive'.live p (by simp)
  | @close w c cleanup stage =>
      intro c' hc' _ p hp hfd
      cases cleanup.symm.trans hc'
      obtain ⟨k, -, hk⟩ := hlive'.live p hp
      simp [hfd] at hk
  | @remove w c cleanup stage =>
      intro c' hc' _ p hp hfd
      cases cleanup.symm.trans hc'
      obtain ⟨k, hconn, hk⟩ := hlive.live p hp
      rcases hlive'.complete p.fd k hk with hmem | hregistering
      · exact hlive.fd_ne_of_mem_removeClient hmem hfd
      · exact hnew _ hregistering (by simp) p hp rfl
  | detach cleanup stage | lock cleanup stage =>
      intro c hc hstage
      cases cleanup.symm.trans hc
      simp [stage] at hstage
  | _ => trivial

/-- As long as what is listed is kept, the registry lists the live clients, and
it goes on to do so after exactly the steps that keep what is listed. -/
theorem listsLive_of_reachableUnder (h : system.ReachableUnder KeepsListed d) :
    d.ListsLive ∧ ∀ a d', d.next a = some d' → (d'.ListsLive ↔ d.KeepsListed a) := by
  have hinv : d.ListsLive ∧ d.NewNumber := by
    refine h.invariant (P := fun d => d.ListsLive ∧ d.NewNumber) ?_ ?_
    · rintro d ⟨htable, hclients, hregistering, -⟩
      refine ⟨⟨by simp [hclients], by simp [hclients], ?_⟩, ?_⟩
      · intro fd k hk
        exact absurd hk (htable fd k)
      · intro p hp
        simp [hregistering] at hp
    · intro d a d' hkeep hn hd
      exact hd.1.next hd.2 hkeep hn
  obtain ⟨hlive, hnew⟩ := hinv
  refine ⟨hlive, fun a d' hn => ⟨?_, ?_⟩⟩
  · exact hlive.keepsListed_of_next hnew hn
  · intro hkeep
    exact (hlive.next hnew hkeep hn).1

end Descriptors

end SgMuni
