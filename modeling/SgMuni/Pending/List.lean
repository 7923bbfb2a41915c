import SgMuni.Request.Parser

/-!
# The list of pending acknowledgements

The three functions that change `pending_head` while they hold `pending_mtx`,
on the list of the nodes in chain order: `add_pending`, one sweep of
`ack_manager` and the search of `bin_ack_handler`.
-/

namespace SgMuni

def timeoutSec : Int := 5

def maxRetries : Nat := 3

/-- A `PendingAck`; `node` stands for its address and is never used again. -/
structure PendingAck where
  node : Nat
  clientFd : Fd
  msg : List UInt8
  len : Nat
  lastSent : Int
  retries : Nat
  acked : Bool
  bincount : Int
deriving DecidableEq

/-- The conversion of an `int` argument to `unsigned int`. -/
def toUnsigned (x : Int) : Int := x % 4294967296

/-- Converting an `int` to `unsigned int` and back changes nothing. -/
theorem wrap_toUnsigned (x : Int) : C.wrap (toUnsigned x) = C.wrap x :=
  Int.emod_bmod x 4294967296

/-- The node that `add_pending` fills in before it takes the mutex. -/
def newPending (node : Nat) (fd : Fd) (str : List UInt8) (bincount now : Int) : PendingAck where
  node := node
  clientFd := fd
  msg := str
  len := str.length
  lastSent := now
  retries := 0
  acked := false
  bincount := C.wrap bincount

/-- The first loop of `add_pending`: unlink every node of the client. -/
def unlinkClient (fd : Fd) : List PendingAck → List PendingAck
  | [] => []
  | p :: rest => if p.clientFd = fd then unlinkClient fd rest else p :: unlinkClient fd rest

/-- The critical section of `add_pending`. -/
def addPending (p : PendingAck) (pending : List PendingAck) : List PendingAck :=
  p :: unlinkClient p.clientFd pending

namespace PendingAck

/-- The deletion test of `ack_manager`. -/
def closed (p : PendingAck) : Bool := p.acked || decide (maxRetries ≤ p.retries)

/-- The resend test of `ack_manager`. -/
def due (now : Int) (p : PendingAck) : Bool := decide (timeoutSec ≤ now - p.lastSent)

/-- The bookkeeping behind a resend. -/
def resent (now : Int) (p : PendingAck) : PendingAck :=
  { p with
    lastSent := now
    retries := p.retries + 1 }

/-- An open node behind its turn in a sweep. -/
def refresh (now : Int) (p : PendingAck) : PendingAck :=
  if p.due now then p.resent now else p

@[simp] theorem refresh_node (now : Int) (p : PendingAck) : (p.refresh now).node = p.node := by
  unfold refresh
  split <;> rfl

@[simp] theorem refresh_clientFd (now : Int) (p : PendingAck) :
    (p.refresh now).clientFd = p.clientFd := by
  unfold refresh
  split <;> rfl

@[simp] theorem refresh_acked (now : Int) (p : PendingAck) : (p.refresh now).acked = p.acked := by
  unfold refresh
  split <;> rfl

end PendingAck

/-- A sweep of `ack_manager` with the reading `now`: the nodes that stay, and the
nodes whose message it sends again. -/
def sweep (now : Int) : List PendingAck → List PendingAck × List PendingAck
  | [] => ([], [])
  | p :: rest =>
      if p.closed then sweep now rest
      else if p.due now then
        (p.resent now :: (sweep now rest).1, p :: (sweep now rest).2)
      else (p :: (sweep now rest).1, (sweep now rest).2)

/-- The loop of `bin_ack_handler`: mark the first node that matches. -/
def ackFirst (fd : Fd) (bincount : Int) : List PendingAck → List PendingAck
  | [] => []
  | p :: rest =>
      if p.clientFd = fd ∧ p.bincount = bincount then { p with acked := true } :: rest
      else p :: ackFirst fd bincount rest

theorem unlinkClient_eq_filter (fd : Fd) (pending : List PendingAck) :
    unlinkClient fd pending = pending.filter (·.clientFd ≠ fd) := by
  induction pending with
  | nil => rfl
  | cons p rest ih =>
      by_cases hp : p.clientFd = fd <;> simp [unlinkClient, hp, ih]

/-- A sweep keeps the open nodes in order, and sends those that are due again. -/
theorem sweep_eq (now : Int) (pending : List PendingAck) :
    sweep now pending =
      ((pending.filter (!·.closed)).map (·.refresh now),
        (pending.filter (!·.closed)).filter (·.due now)) := by
  induction pending with
  | nil => rfl
  | cons p rest ih =>
      by_cases hc : p.closed = true
      · simp [sweep, hc, ih]
      · by_cases hd : p.due now = true
        · simp [sweep, hc, hd, ih, PendingAck.refresh]
        · simp [sweep, hc, hd, ih, PendingAck.refresh]

theorem sweep_fst (now : Int) (pending : List PendingAck) :
    (sweep now pending).1 = (pending.filter (!·.closed)).map (·.refresh now) := by
  rw [sweep_eq]

theorem sweep_snd (now : Int) (pending : List PendingAck) :
    (sweep now pending).2 = (pending.filter (!·.closed)).filter (·.due now) := by
  rw [sweep_eq]

/-- Marking a node changes nothing but its `acked`. -/
theorem mem_ackFirst {fd : Fd} {n : Int} {pending : List PendingAck} {p : PendingAck}
    (h : p ∈ ackFirst fd n pending) :
    ∃ q ∈ pending, p = q ∨ (q.clientFd = fd ∧ q.bincount = n ∧ p = { q with acked := true }) := by
  induction pending with
  | nil => simp [ackFirst] at h
  | cons q rest ih =>
      unfold ackFirst at h
      split at h
      · next hmatch =>
          rcases List.mem_cons.mp h with rfl | hp
          · exact ⟨q, by simp, Or.inr ⟨hmatch.1, hmatch.2, rfl⟩⟩
          · exact ⟨p, by simp [hp], Or.inl rfl⟩
      · rcases List.mem_cons.mp h with rfl | hp
        · exact ⟨p, by simp, Or.inl rfl⟩
        · obtain ⟨r, hr, hpr⟩ := ih hp
          exact ⟨r, by simp [hr], hpr⟩

/-- The search marks an entry of the client with the number, and changes nothing
else in the list. -/
theorem getElem?_ackFirst {fd : Fd} {n : Int} {pending : List PendingAck} {i : Nat}
    {e e' : PendingAck} (he : pending[i]? = some e) (he' : (ackFirst fd n pending)[i]? = some e') :
    e' = e ∨ (e.clientFd = fd ∧ e.bincount = n ∧ e' = { e with acked := true }) := by
  induction pending generalizing i with
  | nil => cases he
  | cons q rest ih =>
      unfold ackFirst at he'
      split at he'
      · next hmatch =>
          cases i with
          | zero =>
              cases he
              cases he'
              exact .inr ⟨hmatch.1, hmatch.2, rfl⟩
          | succ i => exact .inl (Option.some.inj (he'.symm.trans he))
      · cases i with
        | zero => exact .inl (Option.some.inj (he'.symm.trans he))
        | succ i => exact ih he he'

theorem mem_of_mem_addPending {p q : PendingAck} {pending : List PendingAck}
    (h : q ∈ addPending p pending) : q = p ∨ q ∈ pending := by
  rcases List.mem_cons.mp h with rfl | hq
  · exact .inl rfl
  · rw [unlinkClient_eq_filter] at hq
    exact .inr (List.mem_of_mem_filter hq)

/-- `q` is the node `p` after some bookkeeping; a closed node stays closed. -/
structure PendingAck.Evolves (p q : PendingAck) : Prop where
  node : q.node = p.node
  clientFd : q.clientFd = p.clientFd
  msg : q.msg = p.msg
  bincount : q.bincount = p.bincount
  isOpen : q.closed = false → p.closed = false

theorem PendingAck.Evolves.closed {p q : PendingAck} (h : p.Evolves q) (hp : p.closed = true) :
    q.closed = true := by
  by_contra hq
  exact absurd (h.isOpen (Bool.eq_false_iff.mpr hq)) (by simp [hp])

theorem PendingAck.Evolves.refl (p : PendingAck) : p.Evolves p := ⟨rfl, rfl, rfl, rfl, id⟩

theorem PendingAck.evolves_resent {p : PendingAck} (h : p.closed = false) (now : Int) :
    p.Evolves (p.resent now) :=
  ⟨rfl, rfl, rfl, rfl, fun _ => h⟩

theorem PendingAck.evolves_acked (p : PendingAck) : p.Evolves { p with acked := true } :=
  ⟨rfl, rfl, rfl, rfl, fun h => absurd h (by simp [PendingAck.closed])⟩

theorem evolves_of_mem_ackFirst {fd : Fd} {n : Int} {pending : List PendingAck} {q : PendingAck}
    (h : q ∈ ackFirst fd n pending) : ∃ p ∈ pending, p.Evolves q := by
  obtain ⟨p, hp, rfl | ⟨-, -, rfl⟩⟩ := mem_ackFirst h
  · exact ⟨q, hp, .refl q⟩
  · exact ⟨p, hp, p.evolves_acked⟩

/-- One visit of a sweep that deletes a node or goes on behind it. -/
theorem evolves_of_mem_set_resent {pos : Nat} {pending : List PendingAck} {p q : PendingAck}
    (hp : pending[pos]? = some p) (hopen : p.closed = false) (now : Int)
    (h : q ∈ pending.set pos (p.resent now)) : ∃ r ∈ pending, r.Evolves q := by
  rcases List.mem_or_eq_of_mem_set h with hq | rfl
  · exact ⟨q, hq, .refl q⟩
  · exact ⟨p, List.mem_of_getElem? hp, PendingAck.evolves_resent hopen now⟩

/-- When no client has two nodes, the search marks every node that matches
although it stops at the first one. -/
theorem ackFirst_eq_map {fd : Fd} {n : Int} {pending : List PendingAck}
    (hnodup : (pending.map (·.clientFd)).Nodup) :
    ackFirst fd n pending = pending.map fun p =>
      if p.clientFd = fd ∧ p.bincount = n then { p with acked := true } else p := by
  induction pending with
  | nil => rfl
  | cons p rest ih =>
      rw [List.map_cons, List.nodup_cons] at hnodup
      unfold ackFirst
      split
      · next hmatch =>
          have hrest : ∀ q ∈ rest, (if q.clientFd = fd ∧ q.bincount = n then
              { q with acked := true } else q) = q := by
            intro q hq
            apply if_neg
            intro hqmatch
            exact hnodup.1 (List.mem_map.mpr ⟨q, hq, hqmatch.1.trans hmatch.1.symm⟩)
          rw [List.map_cons, if_pos hmatch, List.map_congr_left hrest, List.map_id']
      · next hmatch => rw [List.map_cons, if_neg hmatch, ih hnodup.2]

theorem acked_of_mem_ackFirst {fd : Fd} {n : Int} {pending : List PendingAck} {q : PendingAck}
    (hnodup : (pending.map (·.clientFd)).Nodup) (h : q ∈ ackFirst fd n pending)
    (hfd : q.clientFd = fd) (hn : q.bincount = n) : q.acked = true := by
  rw [ackFirst_eq_map hnodup] at h
  obtain ⟨p, hp, rfl⟩ := List.mem_map.mp h
  by_cases hmatch : p.clientFd = fd ∧ p.bincount = n
  · rw [if_pos hmatch]
  · rw [if_neg hmatch] at hfd hn
    exact absurd ⟨hfd, hn⟩ hmatch

/-- The search changes no field but `acked`, and no position. -/
theorem map_ackFirst {β : Type*} {f : PendingAck → β} (hf : ∀ p, f { p with acked := true } = f p)
    (fd : Fd) (n : Int) (pending : List PendingAck) :
    (ackFirst fd n pending).map f = pending.map f := by
  induction pending with
  | nil => rfl
  | cons p rest ih =>
      unfold ackFirst
      split
      · exact congrArg (· :: rest.map f) (hf p)
      · exact congrArg (f p :: ·) ih

@[simp] theorem map_node_ackFirst (fd : Fd) (n : Int) (pending : List PendingAck) :
    (ackFirst fd n pending).map (·.node) = pending.map (·.node) :=
  map_ackFirst (fun _ => rfl) fd n pending

@[simp] theorem map_clientFd_ackFirst (fd : Fd) (n : Int) (pending : List PendingAck) :
    (ackFirst fd n pending).map (·.clientFd) = pending.map (·.clientFd) :=
  map_ackFirst (fun _ => rfl) fd n pending

theorem nodup_clientFd_addPending {p : PendingAck} {pending : List PendingAck}
    (h : (pending.map (·.clientFd)).Nodup) : ((addPending p pending).map (·.clientFd)).Nodup := by
  rw [addPending, unlinkClient_eq_filter, List.map_cons, List.nodup_cons]
  refine ⟨fun hmem => ?_, h.sublist (List.filter_sublist.map _)⟩
  obtain ⟨q, hq, hfd⟩ := List.mem_map.mp hmem
  simp [hfd] at hq

theorem map_clientFd_set_resent {pos : Nat} {pending : List PendingAck} {p : PendingAck}
    (hp : pending[pos]? = some p) (now : Int) :
    (pending.set pos (p.resent now)).map (·.clientFd) = pending.map (·.clientFd) := by
  obtain ⟨hpos, rfl⟩ := List.getElem?_eq_some_iff.mp hp
  have hpos' : pos < (pending.map (·.clientFd)).length := by simpa using hpos
  have hfd : (pending[pos].resent now).clientFd = (pending.map (·.clientFd))[pos] := by
    simp [PendingAck.resent]
  rw [List.map_set, hfd, List.set_getElem_self]

end SgMuni
