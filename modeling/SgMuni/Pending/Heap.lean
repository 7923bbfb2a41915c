import SgMuni.Heap.Chain
import SgMuni.Pending.List

/-!
# The list of pending acknowledgements on the heap

The loops of `add_pending` and `ack_manager` walk along `pending_head` with the address
of the pointer to the next node. Each of them does to the chain what `addPending` and
`sweep` do to the list of its nodes.

## Implementation notes

The text of a message is kept in its node, and is freed together with it.
-/

namespace SgMuni

open Heap

/-- The addresses that `calloc` returns. -/
abbrev Addr := Nat

/-- `pending_head` and the nodes of the program. -/
abbrev PendingMemory := Memory Addr PendingAck

namespace PendingMemory

/-- `add_pending`, where `calloc` returns `p` and `time` returns `now`. -/
def addPending (fuel : Nat) (m : PendingMemory) (p : Addr) (fd : Fd) (str : List UInt8)
    (bincount now : Int) : Option PendingMemory :=
  (m.alloc p (newPending p fd str bincount now)).bind fun m =>
    (m.prune (·.clientFd = fd) id (fun _ => ([] : List Unit)) fuel .head).bind fun (m, _) =>
      (m.store (.next p) m.head).bind fun m => m.store .head (some p)

/-- A sweep of `ack_manager` with the reading `now`, and the nodes whose message it
sends again. -/
def ackManager (fuel : Nat) (m : PendingMemory) (now : Int) :
    Option (PendingMemory × List PendingAck) :=
  m.prune (·.closed) (·.refresh now) (fun p => if p.due now then [p] else []) fuel .head

/-- The nodes of the chain `cells` that meet the deletion test are freed, and
`pending_head` starts the chain `cells'`. -/
structure Filters (del : PendingAck → Bool) (m m' : PendingMemory)
    (cells cells' : List (Addr × PendingAck)) : Prop where
  chain : Chain m'.heap m'.head cells'
  acyclic : (cells'.map Prod.fst).Nodup
  freed : m'.freed = m.freed ++ deleted del cells
  once : (deleted del cells).Nodup
  dead : ∀ a ∈ deleted del cells, m'.heap a = none
  live : ∀ a ∉ deleted del cells, (m.heap a).isSome → (m'.heap a).isSome
  others : ∀ a ∉ cells.map Prod.fst, a ∉ cells'.map Prod.fst → m'.heap a = m.heap a
  next : ∀ a n n', m.heap a = some n → m'.heap a = some n' →
    n'.next = n.next ∨ ∃ b ∈ deleted del cells, n.next = some b

variable {ε : Type*} {del : PendingAck → Bool} {m m₁ m₂ m' : PendingMemory}
  {cells cells' : List (Addr × PendingAck)} {p : Addr} {v : PendingAck}

/-- The loop with the address of `pending_head`. -/
theorem prune_filters (del : PendingAck → Bool) (visit : PendingAck → PendingAck)
    (emit : PendingAck → List ε) (hchain : Chain m.heap m.head cells) {fuel : Nat}
    (hfuel : cells.length < fuel) :
    ∃ m', m.prune del visit emit fuel .head =
        some (m', (cells.filter fun c => !del c.2).flatMap fun c => emit c.2) ∧
      Filters del m m' cells (kept del visit cells) := by
  have hhead : m.load .head = some m.head := rfl
  obtain ⟨m', hm', h⟩ := prune_spec del visit emit hfuel hhead hchain nofun
  obtain ⟨q, hq, hrest⟩ := h.chain
  obtain rfl : m'.head = q := Option.some.inj hq
  refine ⟨m', hm', ?_⟩
  constructor
  case chain => exact hrest
  case acyclic => exact hrest.nodup
  case freed => exact h.freed
  case once => exact hchain.nodup.sublist (List.filter_sublist.map _)
  case dead => exact h.dead
  case live => exact fun a => h.live
  case others => exact fun a ha _ => h.frame a ha nofun
  case next => exact h.next

/-- The nodes keep their bookkeeping when a node that was not live is put in front. -/
theorem Filters.push (h : Filters del m₁ m₂ cells cells') (hp : m.heap p = none)
    (hnew : p ∉ cells.map Prod.fst) (hfreed₁ : m₁.freed = m.freed)
    (hframe₁ : ∀ b ≠ p, m₁.heap b = m.heap b)
    (hchain' : Chain m'.heap m'.head ((p, v) :: cells')) (hfreed' : m'.freed = m₂.freed)
    (hframe' : ∀ b ≠ p, m'.heap b = m₂.heap b) :
    Filters del m m' cells ((p, v) :: cells') := by
  have hother {b : Addr} {n : Node Addr PendingAck} (hb : m.heap b = some n) : b ≠ p := by
    rintro rfl
    cases hp.symm.trans hb
  constructor
  case chain => exact hchain'
  case acyclic => exact hchain'.nodup
  case freed => rw [hfreed', h.freed, hfreed₁]
  case once => exact h.once
  case dead =>
    intro a ha
    rw [hframe' a (ne_of_mem_of_not_mem (deleted_subset ha) hnew), h.dead a ha]
  case live =>
    intro a ha hlive
    obtain ⟨n, hn⟩ := Option.isSome_iff_exists.mp hlive
    rw [hframe' a (hother hn)]
    apply h.live a ha
    rwa [hframe₁ a (hother hn)]
  case others =>
    intro a ha ha'
    rw [List.map_cons, List.mem_cons, not_or] at ha'
    rw [hframe' a ha'.1, h.others a ha ha'.2, hframe₁ a ha'.1]
  case next =>
    intro a n n' hn hn'
    have hap : a ≠ p := hother hn
    rw [hframe' a hap] at hn'
    exact h.next a n n' ((hframe₁ a hap).trans hn) hn'

theorem filter_snd (test : PendingAck → Bool) (cells : List (Addr × PendingAck)) :
    (cells.filter fun c => test c.2).map Prod.snd = (cells.map Prod.snd).filter test := by
  rw [List.filter_map]
  rfl

theorem ackManager_filters (hchain : Chain m.heap m.head cells) (now : Int) {fuel : Nat}
    (hfuel : cells.length < fuel) :
    ∃ m', m.ackManager fuel now = some (m', (sweep now (cells.map Prod.snd)).2) ∧
      Filters (·.closed) m m' cells (kept (·.closed) (·.refresh now) cells) := by
  obtain ⟨m', hm', h⟩ := prune_filters (·.closed) (·.refresh now)
    (fun p => if p.due now then [p] else []) hchain hfuel
  refine ⟨m', ?_, h⟩
  have hsent : ((cells.filter fun c => !c.2.closed).flatMap fun c =>
      if c.2.due now then [c.2] else []) = (sweep now (cells.map Prod.snd)).2 := by
    rw [sweep_snd, ← filter_snd]
    induction cells.filter fun c => !c.2.closed with
    | nil => rfl
    | cons c rest ih => by_cases hdue : c.2.due now <;> simp [hdue, ih]
  rw [← hsent]
  exact hm'

/-- A sweep leaves the nodes that `sweep` leaves. -/
theorem kept_ackManager (now : Int) :
    (kept (·.closed) (·.refresh now) cells).map Prod.snd = (sweep now (cells.map Prod.snd)).1 := by
  rw [sweep_fst, ← filter_snd, kept, List.map_map, List.map_map]
  rfl

theorem addPending_filters (hchain : Chain m.heap m.head cells) (hp : m.heap p = none)
    (fd : Fd) (str : List UInt8) (bincount now : Int) {fuel : Nat}
    (hfuel : cells.length < fuel) :
    ∃ m', m.addPending fuel p fd str bincount now = some m' ∧
      Filters (·.clientFd = fd) m m' cells
        ((p, newPending p fd str bincount now) :: cells.filter (·.2.clientFd ≠ fd)) := by
  have hnew : p ∉ cells.map Prod.fst := by
    intro hmem
    obtain ⟨c, hc, rfl⟩ := List.mem_map.mp hmem
    obtain ⟨n, hn⟩ := hchain.live hc
    cases hp.symm.trans hn
  set v := newPending p fd str bincount now
  set m₁ : PendingMemory := { m with heap := Function.update m.heap p (some ⟨v, none⟩) }
  have hm₁ : m.alloc p v = some m₁ := by rw [Memory.alloc, hp]
  have hframe₁ : ∀ b ≠ p, m₁.heap b = m.heap b := fun b hb => Function.update_of_ne hb ..
  have hchain₁ : Chain m₁.heap m₁.head cells := hchain.congr fun b hb =>
    hframe₁ b (ne_of_mem_of_not_mem hb hnew)
  obtain ⟨m₂, hm₂, h⟩ := prune_filters (fun q => q.clientFd = fd) id (fun _ => ([] : List Unit))
    hchain₁ hfuel
  have hkept : kept (fun q : PendingAck => decide (q.clientFd = fd)) id cells =
      cells.filter (·.2.clientFd ≠ fd) := by
    simp [kept_id]
  rw [hkept] at h
  have hnew₂ : p ∉ (cells.filter (·.2.clientFd ≠ fd)).map Prod.fst := fun hmem =>
    hnew ((List.filter_sublist.map _).subset hmem)
  have hp₂ : m₂.heap p = some ⟨v, none⟩ :=
    (h.others p hnew hnew₂).trans (Function.update_self ..)
  obtain ⟨m', hm', hchain', hfreed', hframe'⟩ := push_spec hp₂ h.chain hnew₂
  refine ⟨m', ?_, h.push hp hnew rfl hframe₁ hchain' hfreed' hframe'⟩
  rw [addPending, hm₁, Option.bind_some, hm₂, Option.bind_some]
  exact hm'

/-- What `addPending` does to the list of the nodes. -/
theorem cons_addPending (fd : Fd) (str : List UInt8) (bincount now : Int) :
    ((p, newPending p fd str bincount now) :: cells.filter (·.2.clientFd ≠ fd)).map Prod.snd =
      SgMuni.addPending (newPending p fd str bincount now) (cells.map Prod.snd) := by
  rw [SgMuni.addPending, unlinkClient_eq_filter, ← filter_snd]
  rfl

/-- Both loops end, without an access to a freed node, and do to the chain of
`pending_head` what `addPending` and `sweep` do to the list of its nodes. -/
theorem loops_refine_lists (hchain : Chain m.heap m.head cells) {fuel : Nat}
    (hfuel : cells.length < fuel) (now : Int) :
    (∀ p fd str bincount, m.heap p = none →
      ∃ m' cells', m.addPending fuel p fd str bincount now = some m' ∧
        cells' = (p, newPending p fd str bincount now) :: cells.filter (·.2.clientFd ≠ fd) ∧
        Filters (·.clientFd = fd) m m' cells cells' ∧
        cells'.map Prod.snd =
          SgMuni.addPending (newPending p fd str bincount now) (cells.map Prod.snd)) ∧
    ∃ m' cells' sent, m.ackManager fuel now = some (m', sent) ∧
      cells' = (cells.filter (!·.2.closed)).map (fun c => (c.1, c.2.refresh now)) ∧
      Filters (·.closed) m m' cells cells' ∧
      (cells'.map Prod.snd, sent) = sweep now (cells.map Prod.snd) := by
  constructor
  · intro p fd str bincount hp
    obtain ⟨m', hm', h⟩ := addPending_filters hchain hp fd str bincount now hfuel
    exact ⟨m', _, hm', rfl, h, cons_addPending fd str bincount now⟩
  · obtain ⟨m', hm', h⟩ := ackManager_filters hchain now hfuel
    exact ⟨m', _, _, hm', rfl, h, Prod.ext (kept_ackManager now) rfl⟩

/-- Two old nodes of client 6 around one of client 7 that has been acknowledged. -/
def threeNodes : PendingMemory where
  head := some 10
  heap
    | 10 => some ⟨newPending 10 6 [] 1 0, some 20⟩
    | 20 => some ⟨{ newPending 20 7 [] 1 0 with acked := true }, some 30⟩
    | 30 => some ⟨newPending 30 6 [] 2 0, none⟩
    | _ => none
  freed := []

theorem loops_refine_lists_threeNodes :
    (∃ m' cells', threeNodes.addPending 4 40 6 [] 3 9 = some m' ∧ m'.freed = [10, 30] ∧
      Chain m'.heap m'.head cells' ∧ cells'.map Prod.fst = [40, 20]) ∧
    ∃ m' cells' sent, threeNodes.ackManager 4 9 = some (m', sent) ∧ m'.freed = [20] ∧
      Chain m'.heap m'.head cells' ∧ cells'.map Prod.fst = [10, 30] ∧ sent.length = 2 := by
  have hchain : Chain threeNodes.heap threeNodes.head
      [(10, newPending 10 6 [] 1 0), (20, { newPending 20 7 [] 1 0 with acked := true }),
        (30, newPending 30 6 [] 2 0)] :=
    ⟨rfl, _, rfl, rfl, _, rfl, rfl, _, rfl, rfl⟩
  obtain ⟨hadd, m', cells', sent, hm', rfl, h, hsweep⟩ :=
    loops_refine_lists hchain (show 3 < 4 by decide) 9
  constructor
  · obtain ⟨m', cells', hm', rfl, h, -⟩ := hadd 40 6 [] 3 rfl
    exact ⟨m', _, hm', h.freed.trans rfl, h.chain, rfl⟩
  · refine ⟨m', _, sent, hm', h.freed.trans rfl, h.chain, rfl, ?_⟩
    exact congrArg (fun r => r.2.length) hsweep

end PendingMemory

end SgMuni
