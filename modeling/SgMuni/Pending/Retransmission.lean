import SgMuni.Pending.List
import SgMuni.Transition.System

/-!
# Retransmission of pending messages

Any interleaving of the critical sections under `pending_mtx`, each with any
clock reading: `add_pending` and `ack_manager` read the clock before they take
the mutex, so a reading may be older than what the section finds.

## Implementation notes

`created` and `resends` are history: the reading with which a node was filled
in, and the nodes sent again with the reading of the sweep that sent them.
-/

namespace SgMuni

/-- The list, the next unused node and the history of resends. -/
structure Resender where
  pending : List PendingAck
  fresh : Nat
  created : Nat → Int
  resends : List (Nat × Int)

namespace Resender

inductive Action
  | add (fd : Fd) (str : List UInt8) (bincount now : Int)
  | ack (fd : Fd) (bincount : Int)
  | sweep (now : Int)

def next (s : Resender) : Action → Option Resender
  | .add fd str bincount now =>
      some {
        pending := addPending (newPending s.fresh fd str bincount now) s.pending
        fresh := s.fresh + 1
        created := Function.update s.created s.fresh now
        resends := s.resends }
  | .ack fd bincount => some { s with pending := ackFirst fd bincount s.pending }
  | .sweep now =>
      some { s with
        pending := (SgMuni.sweep now s.pending).1
        resends := s.resends ++ (SgMuni.sweep now s.pending).2.map fun p => (p.node, now) }

def system : Transition.System Resender Action where
  init s := s.pending = [] ∧ s.fresh = 0 ∧ s.resends = []
  next := next

/-- The readings with which a node was sent again, in order. -/
def readings (s : Resender) (node : Nat) : List Int :=
  (s.resends.filter (·.1 = node)).map (·.2)

/-- Consecutive readings are at least the timeout apart. -/
abbrev Spaced : List Int → Prop := List.IsChain fun a b => a + timeoutSec ≤ b

/-- The history of every node is spaced and bounded, and the fields of a node
in the list agree with its history. -/
structure Inv (s : Resender) : Prop where
  nodup : (s.pending.map (·.node)).Nodup
  node_lt : ∀ p ∈ s.pending, p.node < s.fresh
  unused : ∀ n, s.fresh ≤ n → s.readings n = []
  bounded : ∀ n, (s.readings n).length ≤ maxRetries
  spaced : ∀ n, Spaced (s.created n :: s.readings n)
  retries : ∀ p ∈ s.pending, p.retries = (s.readings p.node).length
  lastSent : ∀ p ∈ s.pending,
    p.lastSent = (s.created p.node :: s.readings p.node).getLast (List.cons_ne_nil _ _)

/-- The history of a node is closed: it is acknowledged or out of the list. -/
def Settled (s : Resender) (node : Nat) : Prop :=
  node < s.fresh ∧ ∀ p ∈ s.pending, p.node = node → p.acked = true

variable {s s' : Resender}

theorem inv_init (h : system.init s) : s.Inv := by
  obtain ⟨hp, hf, hr⟩ := h
  have hread (n : Nat) : s.readings n = [] := by simp [readings, hr]
  constructor <;> simp [hp, hread]

/-- The readings of a node behind a sweep. -/
theorem readings_sweep (s : Resender) (now : Int) (node : Nat) {s' : Resender}
    (hn : s.next (.sweep now) = some s') :
    s'.readings node = s.readings node ++
      ((SgMuni.sweep now s.pending).2.filter (·.node = node)).map fun _ => now := by
  cases hn
  simp [readings, List.filter_append, List.filter_map, Function.comp_def]

/-- Among distinct nodes a filter for one node finds at most that node. -/
theorem filter_node_eq {l : List PendingAck} (hl : (l.map (·.node)).Nodup) {p : PendingAck}
    (hp : p ∈ l) : l.filter (·.node = p.node) = [p] := by
  induction l with
  | nil => simp at hp
  | cons q l ih =>
      simp only [List.map_cons, List.nodup_cons, List.mem_map, not_exists, not_and] at hl
      rcases List.mem_cons.mp hp with rfl | hpl
      · have hrest : l.filter (·.node = p.node) = [] :=
          List.filter_eq_nil_iff.mpr fun q hq => by simpa using hl.1 q hq
        simp [hrest]
      · have hne : q.node ≠ p.node := fun h => hl.1 p hpl h.symm
        simp [hne, ih hl.2 hpl]

/-- A sweep sends a node of the list again exactly when it is open and due. -/
theorem readings_sweep_mem (h : s.Inv) {now : Int} (hn : s.next (.sweep now) = some s')
    {p : PendingAck} (hp : p ∈ s.pending) :
    s'.readings p.node =
      s.readings p.node ++ if !p.closed && p.due now then [now] else [] := by
  have hone : ((s.pending.filter (!·.closed)).filter (·.due now)).filter (·.node = p.node) =
      (s.pending.filter (·.node = p.node)).filter fun q => !q.closed && q.due now := by
    simp only [List.filter_filter]
    refine List.filter_congr fun q _ => ?_
    cases q.closed <;> cases q.due now <;> simp
  rw [readings_sweep s now p.node hn, sweep_snd, hone, filter_node_eq h.nodup hp]
  cases hopen : !p.closed && p.due now <;> simp [hopen]

/-- A sweep sends no node again that is not in the list. -/
theorem readings_sweep_notMem {now : Int} (hn : s.next (.sweep now) = some s') {node : Nat}
    (hnode : ∀ p ∈ s.pending, p.node ≠ node) : s'.readings node = s.readings node := by
  have hnone : (SgMuni.sweep now s.pending).2.filter (·.node = node) = [] := by
    rw [List.filter_eq_nil_iff, sweep_snd]
    intro p hp
    simpa using hnode p (List.mem_of_mem_filter (List.mem_of_mem_filter hp))
  rw [readings_sweep s now node hn, hnone, List.map_nil, List.append_nil]

theorem Inv.add (h : s.Inv) {fd : Fd} {str : List UInt8} {bincount now : Int}
    (hn : s.next (.add fd str bincount now) = some s') : s'.Inv := by
  cases hn
  have hsub : (unlinkClient fd s.pending).Sublist s.pending := by
    rw [unlinkClient_eq_filter]
    exact List.filter_sublist
  have hcreated (n : Nat) (hlt : n ≠ s.fresh) :
      Function.update s.created s.fresh now n = s.created n := Function.update_of_ne hlt _ _
  have hread : s.readings s.fresh = [] := h.unused _ le_rfl
  constructor
  · simp only [addPending, newPending, List.map_cons, List.nodup_cons, List.mem_map, not_exists,
      not_and]
    refine ⟨fun p hp heq => ?_, h.nodup.sublist (hsub.map _)⟩
    exact (h.node_lt p (hsub.subset hp)).ne heq
  · intro p hp
    rcases List.mem_cons.mp hp with rfl | hp
    · exact Nat.lt_succ_self _
    · exact Nat.lt_succ_of_lt (h.node_lt p (hsub.subset hp))
  · intro n hle
    exact h.unused n (Nat.le_of_succ_le hle)
  · exact h.bounded
  · intro n
    by_cases hfresh : n = s.fresh
    · subst n
      change Spaced (_ :: s.readings s.fresh)
      rw [hread]
      exact List.isChain_singleton _
    · have hs := h.spaced n
      rw [← hcreated n hfresh] at hs
      exact hs
  · intro p hp
    rcases List.mem_cons.mp hp with rfl | hp
    · change 0 = (s.readings s.fresh).length
      rw [hread]
      rfl
    · exact h.retries p (hsub.subset hp)
  · intro p hp
    rcases List.mem_cons.mp hp with rfl | hp
    · have hlast : (Function.update s.created s.fresh now s.fresh :: s.readings s.fresh).getLast
          (List.cons_ne_nil _ _) = now := by simp [hread]
      exact hlast.symm
    · have hlt := (h.node_lt p (hsub.subset hp)).ne
      have hlast := h.lastSent p (hsub.subset hp)
      rw [← hcreated p.node hlt] at hlast
      exact hlast

theorem Inv.ack (h : s.Inv) {fd : Fd} {bincount : Int}
    (hn : s.next (.ack fd bincount) = some s') : s'.Inv := by
  cases hn
  have hold {P : PendingAck → Prop} (hP : ∀ p ∈ s.pending, P p)
      (hmark : ∀ p, P p → P { p with acked := true }) :
      ∀ p ∈ ackFirst fd bincount s.pending, P p := by
    intro p hp
    obtain ⟨q, hq, rfl | ⟨-, -, rfl⟩⟩ := mem_ackFirst hp
    · exact hP p hq
    · exact hmark q (hP q hq)
  refine ⟨?_, ?_, h.unused, h.bounded, h.spaced, ?_, ?_⟩
  · simpa using h.nodup
  · exact hold h.node_lt fun _ hp => hp
  · exact hold h.retries fun _ hp => hp
  · exact hold h.lastSent fun _ hp => hp

/-- The history of a node grows by a sweep's reading exactly when the node is open
and due. -/
theorem readings_sweep_cases (h : s.Inv) {now : Int} (hn : s.next (.sweep now) = some s')
    (n : Nat) :
    s'.readings n = s.readings n ∨ ∃ p ∈ s.pending, p.node = n ∧
      p.closed = false ∧ p.due now = true ∧ s'.readings n = s.readings n ++ [now] := by
  by_cases hmem : ∃ p ∈ s.pending, p.node = n
  · obtain ⟨p, hp, rfl⟩ := hmem
    have hr := readings_sweep_mem h hn hp
    by_cases ho : p.closed = false ∧ p.due now = true
    · exact .inr ⟨p, hp, rfl, ho.1, ho.2, by simpa [ho.1, ho.2] using hr⟩
    · refine .inl (hr.trans ?_)
      cases hc : p.closed <;> cases hd : p.due now <;> simp_all
  · push Not at hmem
    exact .inl (readings_sweep_notMem hn hmem)

theorem bounded_sweep (h : s.Inv) {now : Int} (hn : s.next (.sweep now) = some s') (n : Nat) :
    (s'.readings n).length ≤ maxRetries := by
  rcases readings_sweep_cases h hn n with hsame | ⟨p, hp, rfl, hopen, -, hmore⟩
  · rw [hsame]
    exact h.bounded n
  · have hlt : p.retries < maxRetries := by
      simp only [PendingAck.closed, Bool.or_eq_false_iff, decide_eq_false_iff_not] at hopen
      omega
    rw [hmore, List.length_append, List.length_singleton, ← h.retries p hp]
    omega

theorem spaced_sweep (h : s.Inv) {now : Int} (hn : s.next (.sweep now) = some s') (n : Nat) :
    Spaced (s.created n :: s'.readings n) := by
  rcases readings_sweep_cases h hn n with hsame | ⟨p, hp, rfl, -, hdue, hmore⟩
  · rw [hsame]
    exact h.spaced n
  · have hgap : p.lastSent + timeoutSec ≤ now := by
      simp only [PendingAck.due, decide_eq_true_eq] at hdue
      omega
    rw [hmore, ← List.cons_append]
    refine List.isChain_append.mpr ⟨h.spaced p.node, List.isChain_singleton _, ?_⟩
    intro a ha b hb
    obtain rfl : now = b := by simpa using hb
    rw [List.getLast?_eq_getLast_of_ne_nil (List.cons_ne_nil _ _), ← h.lastSent p hp] at ha
    obtain rfl : p.lastSent = a := by simpa using ha
    exact hgap

theorem Inv.sweep (h : s.Inv) {now : Int} (hn : s.next (.sweep now) = some s') : s'.Inv := by
  have hpending : s'.pending = (s.pending.filter (!·.closed)).map (·.refresh now) := by
    cases hn
    exact sweep_fst now s.pending
  have hfresh : s'.fresh = s.fresh := by cases hn; rfl
  have hcreated : s'.created = s.created := by cases hn; rfl
  have hnodes : s'.pending.map (·.node) = (s.pending.filter (!·.closed)).map (·.node) := by
    simp [hpending, Function.comp_def]
  constructor
  · rw [hnodes]
    exact h.nodup.sublist (List.filter_sublist.map _)
  · intro p hp
    rw [hpending] at hp
    obtain ⟨q, hq, rfl⟩ := List.mem_map.mp hp
    rw [PendingAck.refresh_node, hfresh]
    exact h.node_lt q (List.mem_of_mem_filter hq)
  · intro n hle
    rw [hfresh] at hle
    rcases readings_sweep_cases h hn n with hsame | ⟨p, hp, rfl, -⟩
    · rw [hsame, h.unused n hle]
    · exact absurd (h.node_lt p hp) (by omega)
  · exact bounded_sweep h hn
  · rw [hcreated]
    exact spaced_sweep h hn
  · intro p hp
    rw [hpending] at hp
    obtain ⟨q, hq, rfl⟩ := List.mem_map.mp hp
    obtain ⟨hqs, hqo⟩ := List.mem_filter.mp hq
    rw [PendingAck.refresh_node, readings_sweep_mem h hn hqs]
    by_cases hd : q.due now = true <;>
      simp_all [PendingAck.refresh, PendingAck.resent, h.retries q hqs]
  · intro p hp
    rw [hpending] at hp
    obtain ⟨q, hq, rfl⟩ := List.mem_map.mp hp
    obtain ⟨hqs, hqo⟩ := List.mem_filter.mp hq
    simp only [PendingAck.refresh_node, hcreated, readings_sweep_mem h hn hqs]
    by_cases hd : q.due now = true
    · simp_all [PendingAck.refresh, PendingAck.resent]
    · have hl := h.lastSent q hqs
      simp_all [PendingAck.refresh]

theorem Inv.next {a : Action} (h : s.Inv) (hn : s.next a = some s') : s'.Inv := by
  cases a with
  | add fd str bincount now => exact h.add hn
  | ack fd bincount => exact h.ack hn
  | sweep now => exact h.sweep hn

theorem inv_of_reachable (h : system.Reachable s) : s.Inv :=
  h.invariant (fun _ => inv_init) fun _ _ _ _ hn hi => hi.next hn

theorem Settled.next {a : Action} {node : Nat} (hs : s.Settled node) (h : s.Inv)
    (hn : s.next a = some s') : s'.Settled node ∧ s'.readings node = s.readings node := by
  obtain ⟨hlt, hacked⟩ := hs
  cases a with
  | add fd str bincount now =>
      cases hn
      refine ⟨⟨Nat.lt_succ_of_lt hlt, fun p hp hnode => ?_⟩, rfl⟩
      rcases List.mem_cons.mp hp with rfl | hp
      · exact absurd hnode hlt.ne'
      · rw [unlinkClient_eq_filter] at hp
        exact hacked p (List.mem_of_mem_filter hp) hnode
  | ack fd bincount =>
      cases hn
      refine ⟨⟨hlt, fun p hp hnode => ?_⟩, rfl⟩
      obtain ⟨q, hq, rfl | ⟨-, -, rfl⟩⟩ := mem_ackFirst hp
      · exact hacked p hq hnode
      · rfl
  | sweep now =>
      have hread : s'.readings node = s.readings node := by
        by_cases hmem : ∃ p ∈ s.pending, p.node = node
        · obtain ⟨p, hp, rfl⟩ := hmem
          simp [readings_sweep_mem h hn hp, PendingAck.closed, hacked p hp rfl]
        · push Not at hmem
          exact readings_sweep_notMem hn hmem
      refine ⟨?_, hread⟩
      cases hn
      refine ⟨hlt, fun p hp hnode => ?_⟩
      obtain ⟨q, hq, rfl⟩ := List.mem_map.mp (sweep_fst now s.pending ▸ hp)
      rw [PendingAck.refresh_acked]
      exact hacked q (List.mem_of_mem_filter hq) (by simpa using hnode)

/-- Once a node is settled, no later sweep sends it again. -/
theorem Settled.readings_eq {t : Resender} {node : Nat} (hs : s.Settled node) (h : s.Inv)
    (hl : system.Leads s t) : t.readings node = s.readings node := by
  have hfrozen : t.Settled node ∧ t.Inv ∧ t.readings node = s.readings node :=
    hl.invariant (P := fun t => t.Settled node ∧ t.Inv ∧ t.readings node = s.readings node)
      ⟨hs, h, rfl⟩ fun u a v _ hn ⟨hu, hi, hr⟩ =>
        ⟨(hu.next hi hn).1, hi.next hn, ((hu.next hi hn).2).trans hr⟩
  exact hfrozen.2.2

/-- A node that a newer one of its client replaces is settled. -/
theorem settled_of_replaced (h : s.Inv) {p : PendingAck} (hp : p ∈ s.pending) {str : List UInt8}
    {bincount now : Int} (hn : s.next (.add p.clientFd str bincount now) = some s') :
    s'.Settled p.node := by
  cases hn
  have hlt := h.node_lt p hp
  refine ⟨Nat.lt_succ_of_lt hlt, fun q hq hnode => ?_⟩
  rcases List.mem_cons.mp hq with rfl | hq
  · exact absurd hnode hlt.ne'
  · have hfilter : q ∈ s.pending.filter (·.clientFd ≠ p.clientFd) :=
      unlinkClient_eq_filter p.clientFd s.pending ▸ hq
    obtain ⟨hqs, hqfd⟩ := List.mem_filter.mp hfilter
    have heq : q = p := List.inj_on_of_nodup_map h.nodup hqs hp hnode
    simp [heq] at hqfd

/-- Resends of a node are bounded in number and spaced in time, stop when it is
acknowledged or replaced, and a sweep unlinks exactly the closed nodes. -/
theorem retransmission_bounded_spaced (h : system.Reachable s) :
    (∀ node, (s.readings node).length ≤ maxRetries ∧
      Spaced (s.created node :: s.readings node)) ∧
    (∀ p ∈ s.pending, p.acked = true →
      ∀ t, system.Leads s t → t.readings p.node = s.readings p.node) ∧
    (∀ p ∈ s.pending, ∀ str bincount now s',
      s.next (.add p.clientFd str bincount now) = some s' →
      ∀ t, system.Leads s' t → t.readings p.node = s.readings p.node) ∧
    ∀ now s', s.next (.sweep now) = some s' →
      (∀ p ∈ s.pending, p.acked = true ∨ maxRetries ≤ p.retries →
        ∀ q ∈ s'.pending, q.node ≠ p.node) ∧
      s'.pending = (s.pending.filter fun p => !(p.acked || decide (maxRetries ≤ p.retries))).map
        (·.refresh now) := by
  have hinv := inv_of_reachable h
  refine ⟨fun n => ⟨hinv.bounded n, hinv.spaced n⟩, ?_, ?_, ?_⟩
  · intro p hp hacked t hl
    have hsettled : s.Settled p.node := by
      refine ⟨hinv.node_lt p hp, fun q hq hnode => ?_⟩
      rwa [List.inj_on_of_nodup_map hinv.nodup hq hp hnode]
    exact hsettled.readings_eq hinv hl
  · intro p hp str bincount now s' hn t hl
    have hsettled := settled_of_replaced hinv hp hn
    rw [hsettled.readings_eq (hinv.next hn) hl]
    cases hn
    rfl
  · intro now s' hn
    have hpending : s'.pending = (s.pending.filter (!·.closed)).map (·.refresh now) := by
      cases hn
      exact sweep_fst now s.pending
    refine ⟨fun p hp hclosed q hq hnode => ?_, hpending⟩
    obtain ⟨r, hr, rfl⟩ := List.mem_map.mp (hpending ▸ hq)
    obtain ⟨hrs, hropen⟩ := List.mem_filter.mp hr
    have heq : r = p := List.inj_on_of_nodup_map hinv.nodup hrs hp (by simpa using hnode)
    subst heq
    rcases hclosed with hc | hc <;> simp [PendingAck.closed, hc] at hropen

/-- An entry that is sent again twice, early sweeps and a clock that goes back
included. -/
theorem retransmission_bounded_spaced_run :
    ∃ s : Resender, system.exec { pending := [], fresh := 0, created := fun _ => 0, resends := [] }
      [.add 4 [] 1 100, .sweep 104, .sweep 105, .sweep 90, .sweep 110] = some s ∧
      s.readings 0 = [105, 110] ∧ (s.readings 0).length ≤ maxRetries ∧
      Spaced (s.created 0 :: s.readings 0) := by
  refine ⟨_, rfl, by decide, ?_⟩
  exact (retransmission_bounded_spaced (Transition.System.reachable_of_exec (S := system)
    (s := { pending := [], fresh := 0, created := fun _ => 0, resends := [] })
    [.add 4 [] 1 100, .sweep 104, .sweep 105, .sweep 90, .sweep 110] ⟨rfl, rfl, rfl⟩ rfl)).1 0

end Resender

end SgMuni
