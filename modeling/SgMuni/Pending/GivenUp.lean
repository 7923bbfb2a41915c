import SgMuni.Pending.Retransmission

/-!
# Every entry leaves the list

As long as the clock of the sweeps does not go back, an entry of the list is given up behind
one more sweep than it has resends left, where sweeps that come too early do not count. What
the other threads do in between makes no difference.
-/

namespace SgMuni

namespace Resender

/-- The readings of the sweeps of a schedule. -/
def sweepTimes (as : List Action) : List Int :=
  as.filterMap fun
    | .sweep now => some now
    | _ => none

/-- The action acknowledges or replaces an entry. -/
def Action.Touches (p : PendingAck) : Action → Prop
  | .add fd _ _ _ => fd = p.clientFd
  | .ack fd bincount => fd = p.clientFd ∧ bincount = p.bincount
  | .sweep _ => False

/-- A node that was used is out of the list. -/
def Left (s : Resender) (node : Nat) : Prop :=
  node < s.fresh ∧ ∀ p ∈ s.pending, p.node ≠ node

variable {s s' t : Resender} {a : Action} {as : List Action} {p : PendingAck}

theorem mem_ackFirst_of_mem (fd : Fd) (n : Int) {pending : List PendingAck} (hp : p ∈ pending) :
    p ∈ ackFirst fd n pending ∨
      { p with acked := true } ∈ ackFirst fd n pending ∧ p.clientFd = fd ∧ p.bincount = n := by
  induction pending with
  | nil => cases hp
  | cons q rest ih =>
      unfold ackFirst
      split
      · next hmatch =>
          rcases List.mem_cons.mp hp with rfl | hp
          · exact .inr ⟨List.mem_cons_self, hmatch⟩
          · exact .inl (List.mem_cons_of_mem _ hp)
      · rcases List.mem_cons.mp hp with rfl | hp
        · exact .inl List.mem_cons_self
        · exact (ih hp).imp (List.mem_cons_of_mem _) (And.imp_left (List.mem_cons_of_mem _))

theorem Left.next {node : Nat} (h : s.Left node) (hn : s.next a = some s') : s'.Left node := by
  obtain ⟨hlt, hout⟩ := h
  cases a with
  | add fd str bincount now =>
      cases hn
      refine ⟨Nat.lt_succ_of_lt hlt, fun p hp => ?_⟩
      rcases mem_of_mem_addPending hp with rfl | hp
      · exact hlt.ne'
      · exact hout p hp
  | ack fd bincount =>
      cases hn
      refine ⟨hlt, fun p hp => ?_⟩
      obtain ⟨q, hq, hpq⟩ := evolves_of_mem_ackFirst hp
      rw [hpq.node]
      exact hout q hq
  | sweep now =>
      cases hn
      refine ⟨hlt, fun p hp => ?_⟩
      obtain ⟨q, hq, rfl⟩ := List.mem_map.mp (sweep_fst now s.pending ▸ hp)
      rw [PendingAck.refresh_node]
      exact hout q (List.mem_of_mem_filter hq)

theorem Left.exec {node : Nat} (h : s.Left node) (hrun : system.exec s as = some t) :
    t.Left node := by
  induction as generalizing s with
  | nil =>
      cases hrun
      exact h
  | cons a as ih =>
      obtain ⟨u, hn, hu⟩ := Option.bind_eq_some_iff.mp hrun
      exact ih (h.next hn) hu

/-- An entry behind a step that is no sweep: it stays, perhaps acknowledged, or it is
replaced. -/
theorem entry_next (h : s.Inv) (hp : p ∈ s.pending) (ha : ∀ now, a ≠ .sweep now)
    (hn : s.next a = some s') :
    p ∈ s'.pending ∨
      a.Touches p ∧ ({ p with acked := true } ∈ s'.pending ∨ s'.Left p.node) := by
  cases a with
  | add fd str bincount now =>
      cases hn
      by_cases hfd : p.clientFd = fd
      · refine .inr ⟨hfd.symm, .inr ⟨Nat.lt_succ_of_lt (h.node_lt p hp), fun q hq => ?_⟩⟩
        rcases List.mem_cons.mp hq with rfl | hq
        · exact (h.node_lt p hp).ne'
        · rintro hnode
          rw [unlinkClient_eq_filter] at hq
          obtain rfl := List.inj_on_of_nodup_map h.nodup (List.mem_of_mem_filter hq) hp hnode
          have hother := List.of_mem_filter hq
          simp [newPending, hfd] at hother
      · refine .inl (List.mem_cons_of_mem _ ?_)
        rw [unlinkClient_eq_filter]
        exact List.mem_filter.mpr ⟨hp, decide_eq_true hfd⟩
  | ack fd bincount =>
      cases hn
      rcases mem_ackFirst_of_mem fd bincount hp with hsame | ⟨hacked, hfd, hcount⟩
      · exact .inl hsame
      · exact .inr ⟨⟨hfd.symm, hcount.symm⟩, .inl hacked⟩
  | sweep now => exact absurd rfl (ha now)

/-- An entry behind a sweep. -/
theorem entry_sweep (h : s.Inv) (hp : p ∈ s.pending) {now : Int}
    (hn : s.next (.sweep now) = some s') :
    if p.closed then s'.Left p.node else p.refresh now ∈ s'.pending := by
  cases hn
  simp only [sweep_fst]
  split_ifs with hclosed
  · refine ⟨h.node_lt p hp, fun q hq hnode => ?_⟩
    obtain ⟨r, hr, rfl⟩ := List.mem_map.mp hq
    rw [PendingAck.refresh_node] at hnode
    obtain rfl := List.inj_on_of_nodup_map h.nodup (List.mem_of_mem_filter hr) hp hnode
    have hopen := List.of_mem_filter hr
    simp [hclosed] at hopen
  · exact List.mem_map.mpr ⟨p, List.mem_filter.mpr ⟨hp, by simp [hclosed]⟩, rfl⟩

/-- A chain of spaced readings in what is left of the schedule: behind a resend the first of
them is used up, as no reading is before the present one. -/
theorem spaced_tail {last now : Int} {times l : List Int} (hclock : ∀ n ∈ times, now ≤ n)
    (hl : l.Sublist (now :: times)) (hspaced : Spaced (last :: l)) :
    if timeoutSec ≤ now - last then
      l = [] ∨ ∃ l', l'.Sublist times ∧ Spaced (now :: l') ∧ l.length = l'.length + 1
    else l.Sublist times := by
  cases l with
  | nil =>
      split_ifs
      · exact .inl rfl
      · exact List.nil_sublist times
  | cons m l =>
      have hm : m = now ∨ m ∈ times := List.mem_cons.mp (hl.subset List.mem_cons_self)
      have hgap : last + timeoutSec ≤ m := (List.isChain_cons_cons.mp hspaced).1
      have hrest : Spaced (m :: l) := (List.isChain_cons_cons.mp hspaced).2
      split_ifs with hdue
      · refine .inr ⟨l, hl.tail, ?_, rfl⟩
        cases l with
        | nil => exact List.isChain_singleton _
        | cons k l =>
            obtain ⟨hk, htail⟩ := List.isChain_cons_cons.mp hrest
            have hle : now ≤ m := hm.elim (fun h => h.ge) (hclock m)
            exact List.isChain_cons_cons.mpr ⟨by omega, htail⟩
      · refine (List.cons_sublist_cons'.mp hl).elim id fun hsame => ?_
        obtain ⟨rfl, -⟩ := hsame
        omega

/-- An entry is gone behind a schedule whose sweeps have more spaced readings than the entry
has resends left. -/
theorem left_of_exec (h : s.Inv) (hp : p ∈ s.pending) (hrun : system.exec s as = some t)
    (hclock : (sweepTimes as).Pairwise (· ≤ ·)) {l : List Int} (hl : l.Sublist (sweepTimes as))
    (hspaced : Spaced (p.lastSent :: l)) (hlen : maxRetries < p.retries + l.length) :
    t.Left p.node := by
  induction as generalizing s p l with
  | nil =>
      obtain rfl := List.sublist_nil.mp hl
      have hbounded := h.bounded p.node
      rw [← h.retries p hp] at hbounded
      exact absurd hlen (Nat.not_lt.mpr hbounded)
  | cons a as ih =>
      obtain ⟨u, hn, hu⟩ := Option.bind_eq_some_iff.mp hrun
      have hinv : u.Inv := h.next hn
      by_cases hsweep : ∃ now, a = .sweep now
      · obtain ⟨now, rfl⟩ := hsweep
        have htimes : sweepTimes (.sweep now :: as) = now :: sweepTimes as := rfl
        rw [htimes] at hclock hl
        obtain ⟨hfirst, hclock⟩ := List.pairwise_cons.mp hclock
        have hentry := entry_sweep h hp hn
        have htail := spaced_tail hfirst hl hspaced
        split_ifs at hentry with hclosed
        · exact hentry.exec hu
        · unfold PendingAck.refresh PendingAck.due at hentry
          split_ifs at htail with hdue
          · rw [if_pos (decide_eq_true hdue)] at hentry
            rcases htail with rfl | ⟨l', hl', hspaced', hlength⟩
            · have hopen : p.retries < maxRetries := by
                simp only [PendingAck.closed, Bool.or_eq_true, decide_eq_true_eq, not_or,
                  not_le] at hclosed
                exact hclosed.2
              simp only [List.length_nil] at hlen
              omega
            · have hlen' : maxRetries < (p.resent now).retries + l'.length := by
                simp only [PendingAck.resent]
                omega
              exact ih (p := p.resent now) hinv hentry hu hclock hl' hspaced' hlen'
          · rw [if_neg (by simpa using hdue)] at hentry
            exact ih hinv hentry hu hclock htail hspaced hlen
      · push Not at hsweep
        have htimes : sweepTimes (a :: as) = sweepTimes as := by
          cases a with
          | add fd str bincount now => rfl
          | ack fd bincount => rfl
          | sweep now => exact absurd rfl (hsweep now)
        rw [htimes] at hclock hl
        rcases entry_next h hp hsweep hn with hstays | ⟨-, hacked | hleft⟩
        · exact ih hinv hstays hu hclock hl hspaced hlen
        · exact ih (p := { p with acked := true }) hinv hacked hu hclock hl hspaced hlen
        · exact hleft.exec hu

theorem touches_refresh {now : Int} (h : a.Touches (p.refresh now)) : a.Touches p := by
  unfold PendingAck.refresh at h
  split_ifs at h
  · exact h
  · exact h

/-- An entry that is neither acknowledged nor replaced uses up its resends before it leaves. -/
theorem length_readings_of_left (h : s.Inv) (hp : p ∈ s.pending) (hopen : p.acked = false)
    (hrun : system.exec s as = some t) (hquiet : ∀ a ∈ as, ¬a.Touches p) (hleft : t.Left p.node) :
    (t.readings p.node).length = maxRetries := by
  induction as generalizing s p with
  | nil =>
      cases hrun
      exact absurd rfl (hleft.2 p hp)
  | cons a as ih =>
      obtain ⟨u, hn, hu⟩ := Option.bind_eq_some_iff.mp hrun
      have hinv : u.Inv := h.next hn
      obtain ⟨ha, hothers⟩ := List.forall_mem_cons.mp hquiet
      by_cases hsweep : ∃ now, a = .sweep now
      · obtain ⟨now, rfl⟩ := hsweep
        have hentry := entry_sweep h hp hn
        split_ifs at hentry with hclosed
        · have hsame : u.readings p.node = s.readings p.node := by
            rw [readings_sweep_mem h hn hp, hclosed]
            exact List.append_nil _
          have hsettled : u.Settled p.node :=
            ⟨hentry.1, fun q hq hnode => absurd hnode (hentry.2 q hq)⟩
          rw [hsettled.readings_eq hinv (Transition.System.leads_of_exec as hu), hsame]
          have hretries := h.retries p hp
          have hbounded := h.bounded p.node
          simp only [PendingAck.closed, hopen, Bool.false_or, decide_eq_true_eq] at hclosed
          omega
        · rw [← PendingAck.refresh_node now p] at hleft ⊢
          exact ih hinv hentry ((PendingAck.refresh_acked now p).trans hopen) hu
            (fun b hb htouch => hothers b hb (touches_refresh htouch)) hleft
      · push Not at hsweep
        rcases entry_next h hp hsweep hn with hstays | ⟨htouch, -⟩
        · exact ih hinv hstays hopen hu hothers hleft
        · exact absurd htouch ha

/-- Behind a schedule that has more spaced readings of sweeps than an entry has resends left,
the entry is out of the list, whatever the other threads do. If they neither acknowledged nor
replaced it, it was sent again as often as the program allows. -/
theorem entry_given_up (h : system.Reachable s) (hp : p ∈ s.pending)
    (hrun : system.exec s as = some t) (hclock : (sweepTimes as).Pairwise (· ≤ ·)) {l : List Int}
    (hl : l.Sublist (sweepTimes as)) (hspaced : Spaced (p.lastSent :: l))
    (hlen : maxRetries < p.retries + l.length) :
    (∀ q ∈ t.pending, q.node ≠ p.node) ∧
      (p.acked = false → (∀ a ∈ as, ¬a.Touches p) →
        (t.readings p.node).length = maxRetries) := by
  have hinv := inv_of_reachable h
  have hleft := left_of_exec hinv hp hrun hclock hl hspaced hlen
  exact ⟨hleft.2, fun hopen hquiet => length_readings_of_left hinv hp hopen hrun hquiet hleft⟩

/-- A sweep each second, and another client in between. -/
theorem entry_given_up_run :
    let s : Resender :=
      { pending := [newPending 0 4 [] 1 100], fresh := 1, created := fun _ => 100, resends := [] }
    let as : List Action := [.sweep 104, .sweep 105, .add 5 [] 2 105, .sweep 109, .sweep 110,
      .sweep 114, .ack 4 7, .sweep 116, .sweep 121]
    ∃ t, system.exec s as = some t ∧ (∀ q ∈ t.pending, q.node ≠ 0) ∧
      (t.readings 0).length = maxRetries := by
  intro s as
  have hreach : system.Reachable s := by
    refine Transition.System.reachable_of_exec (S := system)
      (s := { pending := [], fresh := 0, created := fun _ => 100, resends := [] })
      [.add 4 [] 1 100] ⟨rfl, rfl, rfl⟩ ?_
    have hcreated : Function.update (fun _ : Nat => (100 : Int)) 0 100 = fun _ => 100 :=
      Function.update_eq_self 0 _
    exact congrArg (fun created => some (Resender.mk _ _ created _)) hcreated
  obtain ⟨t, hrun⟩ : ∃ t, system.exec s as = some t := ⟨_, rfl⟩
  have hgiven := entry_given_up (l := [105, 110, 116, 121]) hreach
    (List.mem_singleton_self (newPending 0 4 [] 1 100)) hrun (by decide) (by decide)
    (by decide) (by decide)
  refine ⟨t, hrun, hgiven.1, hgiven.2 rfl ?_⟩
  intro a ha
  simp only [as, List.mem_cons, List.not_mem_nil, or_false] at ha
  rcases ha with rfl | rfl | rfl | rfl | rfl | rfl | rfl | rfl | rfl <;>
    simp [Action.Touches, newPending, C.wrap]

end Resender

end SgMuni
