import SgMuni.Tcp.Descriptors

/-!
# Tearing down a connection

A history of the registrations and of the calls of `cleanup_connection`: what
triggered each call, what its number denoted when the call began and when
`close` ran, and the entries that were removed. The history is that of a server
that tears down each connection once and for its own sake exactly as long as
every call begins on an open connection that triggered it, that the other thread
is not tearing down, and that is in the registry when the call looks it up.
-/

namespace SgMuni

open Transition

inductive Teardown
  | registered (p : Peer)
  | started (trigger current : Option Conn)
  | closed (cause : Option Conn) (owner : Option Owner)
  | removed (p : Peer)
deriving DecidableEq

/-- The connection that triggered a call that begins. -/
def Teardown.begins : Teardown → Option Conn
  | .started trigger _ => trigger
  | _ => none

/-- The connections whose teardown has begun. -/
def begun (log : List Teardown) : List Conn := log.filterMap Teardown.begins

/-- A registry kept by connections: an entry is removed for its own connection. -/
def Teardown.enter (listed : List Peer) : Teardown → Option (List Peer)
  | .registered p => some (listed ++ [p])
  | .removed p => if p ∈ listed then some (listed.erase p) else none
  | _ => some listed

/-- The entries left by a history; `none` when an entry was removed that was not
in the registry. -/
def entries (log : List Teardown) : Option (List Peer) := log.foldlM Teardown.enter []

namespace Descriptors

def report (d : Descriptors) : Step → List Teardown
  | .append =>
      match d.registering with
      | some p => [.registered p]
      | none => []
  | .start _ fd trigger _ => [.started trigger (d.ownerConn fd)]
  | .cleanup w =>
      match d.cleanup w with
      | some { stage := .close, fd, cause } => [.closed cause (d.table fd)]
      | some { stage := .remove, fd, cause } => [.removed { fd := fd, conn := cause }]
      | _ => []
  | _ => []

/-- Every call began for the connection that its number denoted, no connection
twice; every `close` hit that connection; and up to order the registry holds the
numbers of the entries that are left when each call removes the entry of its own
connection. -/
structure OwnTeardowns (d : Descriptors) (log : List Teardown) : Prop where
  begins : ∀ trigger current, .started trigger current ∈ log →
    ∃ k, trigger = some k ∧ current = some k
  once : (begun log).Nodup
  closes : ∀ cause owner, .closed cause owner ∈ log →
    ∃ k, cause = some k ∧ owner = some (.conn k)
  removes : ∃ listed, entries log = some listed ∧
    (d.clients.map (·.fd)).Perm (listed.map (·.fd))

/-- A call begins on the open connection that triggered it while the other
thread does not tear down that connection, and does not look up the entry that
`io_loop` has still to register. -/
def Tidy (d : Descriptors) : Step → Prop
  | .start w fd trigger _ =>
      trigger ≠ none ∧ trigger = d.ownerConn fd ∧
        ∀ w', w' ≠ w → ∀ c, d.cleanup w' = some c → c.cause ≠ trigger
  | .cleanup w => ∀ c, d.cleanup w = some c → c.stage = .remove →
      d.registering ≠ some { fd := c.fd, conn := c.cause }
  | _ => True

/-- What every run of tidy steps keeps, of the descriptors, the entries left by
its history and the connections whose teardown has begun. -/
structure Tracked (d : Descriptors) (listed : List Peer) (begun : List Conn) : Prop where
  conn_lt : ∀ fd k, d.table fd = some (.conn k) → k < d.nextConn
  conn_unique : ∀ fd fd' k, d.table fd = some (.conn k) → d.table fd' = some (.conn k) → fd = fd'
  listed_lt : ∀ p ∈ listed, ∀ k, p.conn = some k → k < d.nextConn
  new_lt : ∀ p, d.registering = some p → ∀ k, p.conn = some k → k < d.nextConn
  new_not_mem : ∀ p, d.registering = some p → p.conn ≠ none → p ∉ listed
  entered : ∀ fd k, d.table fd = some (.conn k) →
    { fd := fd, conn := some k } ∈ listed ∨ d.registering = some { fd := fd, conn := some k }
  cause : ∀ w c, d.cleanup w = some c → ∃ k ∈ begun, c.cause = some k
  cause_entered : ∀ w c, d.cleanup w = some c →
    { fd := c.fd, conn := c.cause } ∈ listed ∨ d.registering = some { fd := c.fd, conn := c.cause }
  cause_ne : ∀ w w' c c', w ≠ w' → d.cleanup w = some c → d.cleanup w' = some c' →
    c.cause ≠ c'.cause
  isOpen : ∀ w c k, d.cleanup w = some c → c.stage = .detach ∨ c.stage = .close →
    c.cause = some k → d.table c.fd = some (.conn k)
  isClosed : ∀ w c k, d.cleanup w = some c → c.stage = .lock ∨ c.stage = .remove →
    c.cause = some k → ∀ fd, d.table fd ≠ some (.conn k)
  begun_lt : ∀ k ∈ begun, k < d.nextConn
  begun_busy : ∀ k ∈ begun, ∀ fd, d.table fd = some (.conn k) →
    ∃ w c, d.cleanup w = some c ∧ c.cause = some k

variable {d d' : Descriptors} {a : Step} {listed : List Peer} {begun : List Conn}

/-- The new connection is none that has an entry or is being torn down. -/
theorem Tracked.accept {fd : Fd} (h : d.Tracked listed begun) (free : d.table fd = none)
    (idle : d.registering = none) :
    Tracked
      { d with
        table := Function.update d.table fd (some (.conn d.nextConn))
        nextConn := d.nextConn + 1
        registering := some { fd := fd, conn := some d.nextConn } } listed begun := by
  cases h
  constructor <;> first | assumption | grind [Function.update]

/-- Files that are no connections come and go. -/
theorem Tracked.files {table : Fd → Option Owner} (h : d.Tracked listed begun)
    (htable : ∀ fd k, table fd = some (.conn k) ↔ d.table fd = some (.conn k)) :
    Tracked { d with table := table } listed begun := by
  cases h
  constructor <;> simp only [htable, ne_eq] <;> assumption

theorem Tracked.acceptFail (h : d.Tracked listed begun) (idle : d.registering = none) :
    Tracked { d with registering := some { fd := -1, conn := none } } listed begun := by
  cases h
  constructor <;> first | assumption | grind

/-- The entry moves from `io_loop` to the registry. -/
theorem Tracked.append {p : Peer} (h : d.Tracked listed begun) (hp : d.registering = some p) :
    Tracked { d with clients := d.clients ++ [p], registering := none } (listed ++ [p]) begun := by
  cases h
  constructor <;> first | assumption | grind

/-- An open connection that the other thread does not tear down has not been
torn down before. -/
theorem Tracked.not_mem_begun {w : Cleaner} {fd : Fd} {k : Conn} (h : d.Tracked listed begun)
    (idle : d.cleanup w = none) (hk : d.table fd = some (.conn k))
    (hother : ∀ w', w' ≠ w → ∀ c, d.cleanup w' = some c → c.cause ≠ some k) : k ∉ begun := by
  intro hbegun
  obtain ⟨w', c, hc, hcause⟩ := h.begun_busy k hbegun fd hk
  by_cases hw : w' = w
  · simp [← hw, hc] at idle
  · exact hother w' hw c hc hcause

theorem Tracked.start {w : Cleaner} {fd : Fd} {k : Conn} (h : d.Tracked listed begun)
    (idle : d.cleanup w = none) (hk : d.table fd = some (.conn k))
    (hother : ∀ w', w' ≠ w → ∀ c, d.cleanup w' = some c → c.cause ≠ some k) :
    Tracked
      { d with
        cleanup := Function.update d.cleanup w
          (some { stage := .detach, fd := fd, cause := some k }) } listed (begun ++ [k]) := by
  have hbusy := h.begun_busy
  cases h
  constructor
  case begun_busy =>
    intro k' hk' fd' hfd'
    rcases List.mem_append.mp hk' with hold | hnew
    · obtain ⟨w', c, hc, hcause⟩ := hbusy k' hold fd' hfd'
      have hw : w' ≠ w := by
        rintro rfl
        simp [hc] at idle
      exact ⟨w', c, by simp [hw, hc], hcause⟩
    · exact ⟨w, _, Function.update_self _ _ _, by simp [List.mem_singleton.mp hnew]⟩
  all_goals first | assumption | grind [Function.update]

/-- Who tears down a connection goes on to do so in the next stage. -/
theorem busy_update {w : Cleaner} {c : Cleanup} {stage : Stage} {k : Conn}
    (hc : d.cleanup w = some c) (h : ∃ w c, d.cleanup w = some c ∧ c.cause = some k) :
    ∃ w' c', Function.update d.cleanup w (some { c with stage := stage }) w' = some c' ∧
      c'.cause = some k := by
  obtain ⟨w', c', hc', hcause⟩ := h
  by_cases hw : w' = w
  · subst hw
    cases hc.symm.trans hc'
    exact ⟨w', _, Function.update_self _ _ _, hcause⟩
  · exact ⟨w', c', by simp [hw, hc'], hcause⟩

/-- A call goes on to a stage before which the connection is as open as before the
last one. -/
theorem Tracked.advance {w : Cleaner} {c : Cleanup} {stage : Stage}
    (h : d.Tracked listed begun) (hc : d.cleanup w = some c)
    (hstage : c.stage = .detach ∧ stage = .close ∨ c.stage = .lock ∧ stage = .remove) :
    Tracked { d with cleanup := Function.update d.cleanup w (some { c with stage := stage }) }
      listed begun := by
  have hbusy := h.begun_busy
  cases h
  constructor
  case begun_busy =>
    intro k hk fd hfd
    exact busy_update hc (hbusy k hk fd hfd)
  all_goals first | assumption | grind [Function.update]

/-- The number denotes the connection of the call, which is open nowhere else. -/
theorem Tracked.close {w : Cleaner} {c : Cleanup} (h : d.Tracked listed begun)
    (hc : d.cleanup w = some c) (stage : c.stage = .close) :
    Tracked
      { d with
        table := Function.update d.table c.fd none
        cleanup := Function.update d.cleanup w (some { c with stage := .lock }) }
      listed begun := by
  have hbusy := h.begun_busy
  cases h
  constructor
  case begun_busy =>
    intro k hk fd hfd
    have hold : d.table fd = some (.conn k) := by grind [Function.update]
    exact busy_update hc (hbusy k hk fd hold)
  all_goals first | assumption | grind [Function.update]

/-- The connection of the call is closed, so that no other needs its entry. -/
theorem Tracked.remove {w : Cleaner} {c : Cleanup} (h : d.Tracked listed begun)
    (hc : d.cleanup w = some c) (stage : c.stage = .remove) :
    Tracked
      { d with
        clients := removeClient (·.fd = c.fd) d.clients
        cleanup := Function.update d.cleanup w none }
      (listed.erase { fd := c.fd, conn := c.cause }) begun := by
  have hbusy := h.begun_busy
  have hclosed := h.isClosed
  cases h
  constructor
  case begun_busy =>
    intro k hk fd hfd
    obtain ⟨w', c', hc', hcause⟩ := hbusy k hk fd hfd
    have hw : w' ≠ w := by
      rintro rfl
      cases hc.symm.trans hc'
      exact hclosed w' c k hc (.inr stage) hcause fd hfd
    exact ⟨w', c', by simp [hw, hc'], hcause⟩
  all_goals first | assumption | grind [Function.update]

@[simp] theorem begun_concat (log : List Teardown) (e : Teardown) :
    SgMuni.begun (log ++ [e]) = SgMuni.begun log ++ e.begins.toList := by
  cases h : e.begins <;> simp [SgMuni.begun, h]

@[simp] theorem entries_concat (log : List Teardown) (e : Teardown) :
    entries (log ++ [e]) = (entries log).bind (Teardown.enter · e) := by
  simp [entries, List.foldlM_append]

theorem OwnTeardowns.perm {log : List Teardown} (h : d.OwnTeardowns log)
    (hlisted : entries log = some listed) :
    (d.clients.map (·.fd)).Perm (listed.map (·.fd)) := by
  obtain ⟨l, hl, hperm⟩ := h.removes
  cases hlisted.symm.trans hl
  exact hperm

section Events

variable {log : List Teardown} (h : d.OwnTeardowns log) (hlisted : entries log = some listed)

include h hlisted

theorem OwnTeardowns.registered {p : Peer} (hclients : d'.clients = d.clients ++ [p]) :
    d'.OwnTeardowns (log ++ [.registered p]) where
  begins := by simpa using h.begins
  once := by simpa [Teardown.begins] using h.once
  closes := by simpa using h.closes
  removes := by
    refine ⟨listed ++ [p], by simp [hlisted, Teardown.enter], ?_⟩
    rw [hclients, List.map_append, List.map_append]
    exact (h.perm hlisted).append_right _

theorem OwnTeardowns.started_iff {trigger current : Option Conn}
    (hclients : d'.clients = d.clients) :
    d'.OwnTeardowns (log ++ [.started trigger current]) ↔
      ∃ k, trigger = some k ∧ current = some k ∧ k ∉ SgMuni.begun log := by
  constructor
  · intro h'
    obtain ⟨k, rfl, rfl⟩ := h'.begins trigger current (by simp)
    have honce := h'.once
    simp only [begun_concat, Teardown.begins, Option.toList_some, List.nodup_append,
      List.mem_singleton] at honce
    exact ⟨k, rfl, rfl, fun hk => honce.2.2 k hk k rfl rfl⟩
  · rintro ⟨k, rfl, rfl, hk⟩
    constructor
    · intro trigger current hmem
      rcases List.mem_append.mp hmem with hold | hnew
      · exact h.begins trigger current hold
      · cases List.mem_singleton.mp hnew
        exact ⟨k, rfl, rfl⟩
    · simpa [Teardown.begins, List.nodup_append, h.once] using fun j hj => ne_of_mem_of_not_mem hj hk
    · simpa using h.closes
    · refine ⟨listed, by simp [hlisted, Teardown.enter], ?_⟩
      rw [hclients]
      exact h.perm hlisted

theorem OwnTeardowns.closed {k : Conn} (hclients : d'.clients = d.clients) :
    d'.OwnTeardowns (log ++ [.closed (some k) (some (.conn k))]) where
  begins := by simpa using h.begins
  once := by simpa [Teardown.begins] using h.once
  closes cause owner hmem := by
    rcases List.mem_append.mp hmem with hold | hnew
    · exact h.closes cause owner hold
    · cases List.mem_singleton.mp hnew
      exact ⟨k, rfl, rfl⟩
  removes := by
    refine ⟨listed, by simp [hlisted, Teardown.enter], ?_⟩
    rw [hclients]
    exact h.perm hlisted

theorem OwnTeardowns.removed_iff {p : Peer}
    (hclients : d'.clients = removeClient (·.fd = p.fd) d.clients) :
    d'.OwnTeardowns (log ++ [.removed p]) ↔ p ∈ listed := by
  constructor
  · intro h'
    obtain ⟨l, hl, -⟩ := h'.removes
    by_contra hp
    simp [hlisted, Teardown.enter, hp] at hl
  · intro hp
    refine ⟨by simpa using h.begins, by simpa [Teardown.begins] using h.once,
      by simpa using h.closes, listed.erase p, by simp [hlisted, Teardown.enter, hp], ?_⟩
    have herase : (listed.map (·.fd)).Perm (p.fd :: (listed.erase p).map (·.fd)) :=
      (List.perm_cons_erase hp).map (·.fd)
    have hnumbers : ((listed.map (·.fd)).erase p.fd).Perm ((listed.erase p).map (·.fd)) := by
      simpa using herase.erase p.fd
    rw [hclients]
    exact ((map_removeClient_perm (·.fd) p.fd d.clients).trans
      ((h.perm hlisted).erase p.fd)).trans hnumbers

end Events

/-- What the tidy steps keep. -/
def Orderly (d : Descriptors) (log : List Teardown) : Prop :=
  d.OwnTeardowns log ∧ ∃ listed, entries log = some listed ∧ d.Tracked listed (SgMuni.begun log)

theorem Orderly.silent {log : List Teardown} (h : d.Orderly log) (hreport : d.report a = [])
    (hclients : d'.clients = d.clients)
    (htracked : ∀ listed begun, d.Tracked listed begun → d'.Tracked listed begun) :
    d'.Orderly (log ++ d.report a) := by
  obtain ⟨hown, listed, hlisted, htrack⟩ := h
  rw [hreport, List.append_nil]
  refine ⟨⟨hown.begins, hown.once, hown.closes, ?_⟩, listed, hlisted, htracked _ _ htrack⟩
  rw [hclients]
  exact hown.removes

/-- A call keeps the history in order if and only if it begins in order. -/
theorem Orderly.start {log : List Teardown} {w : Cleaner} {fd : Fd} {trigger cause : Option Conn}
    (h : d.Orderly log) (idle : d.cleanup w = none)
    (origin : cause = trigger ∨ cause = d.ownerConn fd)
    (hd' : d' = { d with
      cleanup := Function.update d.cleanup w
        (some { stage := .detach, fd := fd, cause := cause }) }) :
    (d.Tidy (.start w fd trigger cause) →
        d'.Orderly (log ++ d.report (.start w fd trigger cause))) ∧
      (d'.OwnTeardowns (log ++ d.report (.start w fd trigger cause)) →
        d.Tidy (.start w fd trigger cause)) := by
  obtain ⟨hown, listed, hlisted, htracked⟩ := h
  have hclients : d'.clients = d.clients := by rw [hd']
  constructor
  · rintro ⟨htrigger, howner, hother⟩
    obtain ⟨k, rfl⟩ := Option.ne_none_iff_exists'.mp htrigger
    have hk : d.table fd = some (.conn k) := ownerConn_eq_some.mp howner.symm
    have hcause : cause = some k := by
      rcases origin with rfl | rfl
      · rfl
      · exact howner.symm
    have hnew : k ∉ SgMuni.begun log := htracked.not_mem_begun idle hk hother
    refine ⟨(hown.started_iff hlisted hclients).mpr ⟨k, rfl, howner.symm, hnew⟩,
      listed, by simp [report, hlisted, Teardown.enter], ?_⟩
    rw [hd', hcause]
    simpa [report, Teardown.begins] using htracked.start idle hk hother
  · intro h'
    obtain ⟨k, rfl, howner, hnew⟩ := (hown.started_iff hlisted hclients).mp h'
    refine ⟨by simp, howner.symm, fun w' _ c hc hcause => ?_⟩
    obtain ⟨j, hj, hcj⟩ := htracked.cause w' c hc
    cases hcause.symm.trans hcj
    exact hnew hj

theorem Orderly.append {log : List Teardown} {p : Peer} (h : d.Orderly log)
    (hp : d.registering = some p) :
    Orderly { d with clients := d.clients ++ [p], registering := none }
      (log ++ d.report .append) := by
  obtain ⟨hown, listed, hlisted, htracked⟩ := h
  have hreport : d.report .append = [.registered p] := by simp [report, hp]
  rw [hreport]
  refine ⟨hown.registered hlisted rfl, listed ++ [p], by simp [hlisted, Teardown.enter], ?_⟩
  simpa [Teardown.begins] using htracked.append hp

theorem Orderly.close {log : List Teardown} {w : Cleaner} {c : Cleanup} (h : d.Orderly log)
    (hc : d.cleanup w = some c) (hstage : c.stage = .close) :
    Orderly
      { d with
        table := Function.update d.table c.fd none
        cleanup := Function.update d.cleanup w (some { c with stage := .lock }) }
      (log ++ d.report (.cleanup w)) := by
  obtain ⟨hown, listed, hlisted, htracked⟩ := h
  obtain ⟨stage, fd, cause⟩ := c
  cases hstage
  obtain ⟨k, hk, hcause⟩ := htracked.cause w _ hc
  cases hcause
  have hreport : d.report (.cleanup w) = [.closed (some k) (some (.conn k))] := by
    simp [report, hc, htracked.isOpen w _ k hc (.inr rfl) rfl]
  rw [hreport]
  refine ⟨hown.closed hlisted rfl, listed, by simp [hlisted, Teardown.enter], ?_⟩
  simpa [Teardown.begins] using htracked.close hc rfl

/-- The call finds the entry of its connection unless `io_loop` has still to
register it. -/
theorem Orderly.remove {log : List Teardown} {w : Cleaner} {c : Cleanup} (h : d.Orderly log)
    (hc : d.cleanup w = some c) (hstage : c.stage = .remove)
    (hd' : d' = { d with
      clients := removeClient (·.fd = c.fd) d.clients
      cleanup := Function.update d.cleanup w none }) :
    (d.Tidy (.cleanup w) → d'.Orderly (log ++ d.report (.cleanup w))) ∧
      (d'.OwnTeardowns (log ++ d.report (.cleanup w)) → d.Tidy (.cleanup w)) := by
  obtain ⟨hown, listed, hlisted, htracked⟩ := h
  obtain ⟨stage, fd, cause⟩ := c
  cases hstage
  have hreport : d.report (.cleanup w) = [.removed { fd := fd, conn := cause }] := by
    simp [report, hc]
  have hclients : d'.clients = removeClient (·.fd = fd) d.clients := by rw [hd']
  have hiff := hown.removed_iff (p := { fd := fd, conn := cause }) hlisted hclients
  rw [hreport]
  constructor
  · intro htidy
    have hmem : { fd := fd, conn := cause } ∈ listed :=
      (htracked.cause_entered w _ hc).resolve_right (htidy _ hc rfl)
    refine ⟨hiff.mpr hmem, listed.erase { fd := fd, conn := cause },
      by simp [hlisted, Teardown.enter, hmem], ?_⟩
    rw [hd']
    simpa [Teardown.begins] using htracked.remove hc rfl
  · intro h' c' hc' _ hregistering
    cases hc.symm.trans hc'
    obtain ⟨k, -, hcause⟩ := htracked.cause w _ hc
    cases hcause
    exact htracked.new_not_mem _ hregistering (by simp) (hiff.mp h')

theorem tidy_of_stage {w : Cleaner} {c : Cleanup} (hc : d.cleanup w = some c)
    (hstage : c.stage ≠ .remove) : d.Tidy (.cleanup w) := by
  intro c' hc' hremove
  cases hc.symm.trans hc'
  exact absurd hremove hstage

theorem Orderly.advance {log : List Teardown} {w : Cleaner} {c : Cleanup} {stage : Stage}
    (h : d.Orderly log) (hc : d.cleanup w = some c)
    (hstage : c.stage = .detach ∧ stage = .close ∨ c.stage = .lock ∧ stage = .remove) :
    Orderly { d with cleanup := Function.update d.cleanup w (some { c with stage := stage }) }
      (log ++ d.report (.cleanup w)) := by
  have hreport : d.report (.cleanup w) = [] := by
    obtain ⟨_, fd, cause⟩ := c
    rcases hstage with ⟨rfl, -⟩ | ⟨rfl, -⟩ <;> simp [report, hc]
  exact h.silent hreport rfl fun _ _ ht => ht.advance hc hstage

theorem Orderly.next {log : List Teardown} (h : d.Orderly log) (hn : d.next a = some d') :
    (d.Tidy a → d'.Orderly (log ++ d.report a)) ∧
      (d'.OwnTeardowns (log ++ d.report a) → d.Tidy a) := by
  have hmove : Move d a d' := next_move hn
  cases hmove with
  | quiet => exact ⟨fun _ => h.silent rfl rfl fun _ _ ht => ht, fun _ => trivial⟩
  | @openFile fd free =>
      refine ⟨fun _ => h.silent rfl rfl fun _ _ ht => ht.files fun fd' k => ?_, fun _ => trivial⟩
      by_cases hfd : fd' = fd <;> simp [hfd, free]
  | @closeFile fd other =>
      refine ⟨fun _ => h.silent rfl rfl fun _ _ ht => ht.files fun fd' k => ?_, fun _ => trivial⟩
      by_cases hfd : fd' = fd <;> simp [hfd, other]
  | accept free idle =>
      exact ⟨fun _ => h.silent rfl rfl fun _ _ ht => ht.accept free idle, fun _ => trivial⟩
  | acceptFail idle =>
      exact ⟨fun _ => h.silent rfl rfl fun _ _ ht => ht.acceptFail idle, fun _ => trivial⟩
  | append registering => exact ⟨fun _ => h.append registering, fun _ => trivial⟩
  | start idle origin => exact h.start idle origin rfl
  | detach cleanup stage =>
      exact ⟨fun _ => h.advance cleanup (.inl ⟨stage, rfl⟩),
        fun _ => tidy_of_stage cleanup (by simp [stage])⟩
  | close cleanup stage =>
      exact ⟨fun _ => h.close cleanup stage, fun _ => tidy_of_stage cleanup (by simp [stage])⟩
  | lock cleanup stage =>
      exact ⟨fun _ => h.advance cleanup (.inr ⟨stage, rfl⟩),
        fun _ => tidy_of_stage cleanup (by simp [stage])⟩
  | remove cleanup stage => exact h.remove cleanup stage rfl

/-- As long as the steps are tidy every teardown is the connection's own, and
exactly the tidy steps leave it so. -/
theorem ownTeardowns_of_reachableUnder {log : List Teardown}
    (h : (system.recording report).ReachableUnder (System.recorded Tidy) (d, log)) :
    d.OwnTeardowns log ∧
      ∀ a d', d.next a = some d' → (d'.OwnTeardowns (log ++ d.report a) ↔ d.Tidy a) := by
  have horderly : d.Orderly log := by
    apply System.recording_invariant h
    · rintro d ⟨htable, hclients, hregistering, hcleanup⟩
      refine ⟨⟨by simp, by simp [SgMuni.begun], by simp, [], by simp [entries], by simp [hclients]⟩,
        [], by simp [entries], ?_⟩
      constructor <;> simp [htable, hregistering, hcleanup, SgMuni.begun]
    · intro d log a d' _ htidy hn hd
      exact (hd.next hn).1 htidy
  refine ⟨horderly.1, fun a d' hn => ⟨(horderly.next hn).2, ?_⟩⟩
  intro htidy
  exact ((horderly.next hn).1 htidy).1

end Descriptors

end SgMuni
