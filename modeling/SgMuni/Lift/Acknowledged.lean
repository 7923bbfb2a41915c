import SgMuni.Lift.Sections

/-!
# Acknowledged lifts

`gpio_change_callback` broadcasts a lift before it records it with
`add_pending`, so an acknowledgement can be processed when there is nothing to
mark yet. An acknowledgement stops the retransmission when `add_pending` has not
linked the entry afterwards, and the entry carries the acknowledged number.
`ack_manager` itself sends and updates an entry under `pending_mtx`.
-/

namespace SgMuni

namespace Comm

open Transition

/-- When `add_pending` links the entry of a lift, no acknowledgement of that lift by
that client was processed; when one is processed, the open entry that it answers, if
there is one, carries the acknowledged number. -/
def RecordedInTime (s : Comm) : Action → Prop
  | .gpio .add => ∀ a call clist, s.gpio = .pendingHeld a call clist →
      (call.fd, a.seq) ∉ s.answered
  | .ack .search => ∀ task seq, s.ack = .searching task → task.answers = some seq →
      ∀ p ∈ s.pending, p.clientFd = task.fd → s.event p.node = seq → p.closed = false →
        p.bincount = task.bincount
  | _ => True

/-- No entry of a lift that its client has answered is open. -/
def Settled (s : Comm) : Prop :=
  ∀ x ∈ s.answered, ∀ p ∈ s.pending, p.clientFd = x.1 → s.event p.node = x.2 → p.closed = true

/-- The task of the acknowledgement handler. -/
def ackTask (s : Comm) : Option AckTask :=
  match s.ack with
  | .idle => none
  | .locking task | .searching task => some task

/-- No client has two entries, and the nodes are old. -/
structure EntryInv (s : Comm) : Prop where
  nodup : (s.pending.map (·.clientFd)).Nodup
  node : ∀ p ∈ s.pending, p.node < s.fresh

variable {cfg : Config} {s s' : Comm}

theorem entryInv_start (bincount : Int) (file : Option Int) : EntryInv (start bincount file) := by
  constructor <;> simp [start]

theorem ManagerMove.nodup {a : ManagerAct} (h : ManagerMove cfg s a s')
    (hnodup : (s.pending.map (·.clientFd)).Nodup) : (s'.pending.map (·.clientFd)).Nodup := by
  cases h with
  | delete manager node closed => exact hnodup.sublist ((List.eraseIdx_sublist _ _).map _)
  | resend manager node isOpen due room => rwa [map_clientFd_set_resent node]
  | _ => exact hnodup

theorem EntryInv.next {a : Action} (hinv : EntryInv s) (h : next cfg s a = some s') :
    EntryInv s' := by
  cases a with
  | gpio a =>
      cases gpioNext_move h with
      | add gpio =>
          refine ⟨nodup_clientFd_addPending hinv.nodup, fun p hp => ?_⟩
          rcases mem_of_mem_addPending hp with rfl | hp
          · exact Nat.lt_succ_self s.fresh
          · exact Nat.lt_succ_of_lt (hinv.node p hp)
      | _ => exact ⟨hinv.nodup, hinv.node⟩
  | clr a => cases clrNext_move h <;> exact ⟨hinv.nodup, hinv.node⟩
  | query a => cases queryNext_move h <;> exact ⟨hinv.nodup, hinv.node⟩
  | ack a =>
      cases ackNext_move h with
      | search ack =>
          refine ⟨by simpa only [map_clientFd_ackFirst] using hinv.nodup, fun q hq => ?_⟩
          obtain ⟨p, hp, hev⟩ := evolves_of_mem_ackFirst hq
          exact hev.node ▸ hinv.node p hp
      | _ => exact ⟨hinv.nodup, hinv.node⟩
  | manager a =>
      have hmove := managerNext_move h
      refine ⟨hmove.nodup hinv.nodup, fun q hq => ?_⟩
      obtain ⟨p, hp, hev⟩ := hmove.mem_pending hq
      have hfresh : s'.fresh = s.fresh := by cases hmove <;> rfl
      rw [hev.node, hfresh]
      exact hinv.node p hp
  | tcp a => cases tcpNext_move h <;> exact ⟨hinv.nodup, hinv.node⟩

/-- A step under which the entries only evolve and nothing is answered. -/
theorem Settled.evolve (h : Settled s) (hanswered : s'.answered = s.answered)
    (hevent : s'.event = s.event) (hpending : ∀ q ∈ s'.pending, ∃ p ∈ s.pending, p.Evolves q) :
    Settled s' := by
  intro x hx q hq hfd hseq
  rw [hanswered] at hx
  rw [hevent] at hseq
  obtain ⟨p, hp, hev⟩ := hpending q hq
  exact hev.closed (h x hx p hp (hev.clientFd ▸ hfd) (hev.node ▸ hseq))

theorem Settled.of_frame (h : Settled s) (hanswered : s'.answered = s.answered)
    (hevent : s'.event = s.event) (hpending : s'.pending = s.pending) : Settled s' :=
  h.evolve hanswered hevent fun q hq => ⟨q, hpending ▸ hq, .refl q⟩

theorem GpioMove.settled_iff {a : GpioAct} (hinv : EntryInv s) (h : Settled s)
    (hmove : GpioMove cfg s a s') : Settled s' ↔ s.RecordedInTime (.gpio a) := by
  cases hmove with
  | @add a call clist gpio =>
      have hold : ∀ p ∈ s.pending, Function.update s.event s.fresh a.seq p.node = s.event p.node :=
        fun p hp => Function.update_of_ne (hinv.node p hp).ne _ _
      constructor
      · intro hsettled b call' clist' hgpio hanswered
        cases gpio.symm.trans hgpio
        -- The new entry is open.
        have hclosed := hsettled _ hanswered _ List.mem_cons_self rfl (Function.update_self ..)
        cases hclosed
      · intro hrecorded x hx p hp hfd hseq
        rcases mem_of_mem_addPending hp with rfl | hp
        · refine absurd hx ?_
          have hpair : x = (call.fd, a.seq) := by
            refine Prod.ext hfd.symm ?_
            rw [← hseq]
            exact Function.update_self ..
          exact hpair ▸ hrecorded a call clist gpio
        · exact h x hx p hp hfd ((hold p hp).symm.trans hseq)
  | _ => exact iff_of_true (h.of_frame rfl rfl rfl) trivial

theorem AckMove.settled_iff {a : AckAct} (hinv : EntryInv s) (h : Settled s)
    (hmove : AckMove s a s') : Settled s' ↔ s.RecordedInTime (.ack a) := by
  cases hmove with
  | @search task ack =>
      constructor
      · intro hsettled task' seq hack hseq p hp hfd hevent hopen
        cases ack.symm.trans hack
        by_contra hnumber
        -- The search does not mark the entry, which is still open behind it.
        have hkept : p ∈ ackFirst task.fd task.bincount s.pending := by
          rw [ackFirst_eq_map hinv.nodup]
          exact List.mem_map.mpr ⟨p, hp, if_neg fun hmatch => hnumber hmatch.2⟩
        have hclosed := hsettled (task.fd, seq) (by simp [hseq]) p hkept hfd hevent
        rw [hopen] at hclosed
        cases hclosed
      · intro hnumber x hx q hq hfd hevent
        obtain ⟨p, hp, hev⟩ := evolves_of_mem_ackFirst hq
        rcases List.mem_append.mp hx with hold | hnew
        · exact hev.closed (h x hold p hp (hev.clientFd ▸ hfd) (hev.node ▸ hevent))
        · obtain ⟨seq, hseq, rfl⟩ : ∃ seq, task.answers = some seq ∧ (task.fd, seq) = x := by
            simpa using hnew
          cases hclosed : p.closed with
          | true => exact hev.closed hclosed
          | false =>
              -- The search reaches the entry, which carries the number.
              have hbincount : p.bincount = task.bincount :=
                hnumber task seq ack hseq p hp (hev.clientFd ▸ hfd) (hev.node ▸ hevent) hclosed
              have hacked : q.acked = true :=
                acked_of_mem_ackFirst hinv.nodup hq hfd (hev.bincount.trans hbincount)
              simp [PendingAck.closed, hacked]
  | _ => exact iff_of_true (h.of_frame rfl rfl rfl) trivial

/-- A step leaves no answered entry open exactly when it meets the condition. -/
theorem settled_next_iff {a : Action} (hinv : EntryInv s) (h : Settled s)
    (hn : next cfg s a = some s') : Settled s' ↔ s.RecordedInTime a := by
  cases a with
  | gpio a => exact (gpioNext_move hn).settled_iff hinv h
  | clr a => cases clrNext_move hn <;> exact iff_of_true (h.of_frame rfl rfl rfl) trivial
  | query a => cases queryNext_move hn <;> exact iff_of_true (h.of_frame rfl rfl rfl) trivial
  | ack a => exact (ackNext_move hn).settled_iff hinv h
  | manager a =>
      have hmove := managerNext_move hn
      have hframe : s'.answered = s.answered ∧ s'.event = s.event := by
        cases hmove <;> exact ⟨rfl, rfl⟩
      exact iff_of_true (h.evolve hframe.1 hframe.2 fun q hq => hmove.mem_pending hq) trivial
  | tcp a => cases tcpNext_move hn <;> exact iff_of_true (h.of_frame rfl rfl rfl) trivial

theorem entryInv_of_reachable (h : (system cfg).Reachable s) : EntryInv s := by
  apply h.invariant
  · rintro _ ⟨bincount, file, rfl⟩
    exact entryInv_start bincount file
  · intro s a t _ ht hinv
    exact hinv.next ht

theorem settled_of_reachableUnder (h : (system cfg).ReachableUnder RecordedInTime s) :
    Settled s := by
  apply h.invariant_using (fun _ hs => entryInv_of_reachable hs.reachable)
  · rintro _ ⟨bincount, file, rfl⟩ x hx
    cases hx
  · intro s a t hinv hrecorded ht hsettled
    exact (settled_next_iff hinv hsettled ht).mpr hrecorded

/-- In a run no answered lift has an open entry, in all states, exactly when every
step meets the condition. -/
theorem recordedInTime_iff_settled {bincount : Int} {file : Option Int} {as : List Action}
    (hrun : (system cfg).exec (start bincount file) as = some s) :
    (system cfg).StepsMeet RecordedInTime (start bincount file) as ↔
      (system cfg).StatesMeet Settled (start bincount file) as := by
  apply System.stepsMeet_iff_statesMeet (I := EntryInv) _ _ _ _ hrun
  · intro s a t ht hinv
    exact hinv.next ht
  · intro s a t ht hinv hsettled
    exact settled_next_iff hinv hsettled ht
  · exact entryInv_start bincount file
  · intro x hx
    cases hx

/-- When no entry is linked for a lift that its client has answered, and the entries
carry the acknowledged numbers, `ack_manager` enqueues nothing that was answered. -/
theorem ack_stops_retransmission (h : (system cfg).ReachableUnder RecordedInTime s)
    {a : ManagerAct} (hn : next cfg s (.manager a) = some s') :
    s'.sendQ = s.sendQ ∨ ∃ p ∈ s.pending, s'.sendQ = s.sendQ ++ [(p.clientFd, p.msg)] ∧
      (p.clientFd, s.event p.node) ∉ s.answered := by
  have hsettled := settled_of_reachableUnder h
  have hmove : ManagerMove cfg s a s' := managerNext_move hn
  cases hmove with
  | @resend now pos p manager node isOpen due room =>
      have hp : p ∈ s.pending := List.mem_of_getElem? node
      refine .inr ⟨p, hp, rfl, fun hanswered => ?_⟩
      have hclosed := hsettled _ hanswered p hp rfl rfl
      simp [isOpen] at hclosed
  | _ => exact .inl rfl

/-- The client answers the first lift when its entry is in the list. -/
def answeredLift : List Action :=
  firstLift ++ [.ack (.task { fd := 6, bincount := 1, answers := some 0 }), .ack .lock]

/-- Clients 6 and 7 are recorded for the first lift; client 6 answers it, and the
sweep comes to the entry of client 7. -/
def answeredByOne : List Action :=
  [.tcp (.register 6), .tcp (.register 7), .gpio .lift, .gpio (.count true), .gpio .lockClients,
    .gpio .push, .gpio .push, .gpio .broadcastEnd, .gpio .lockClients, .gpio (.list true),
    .gpio (.call 0), .gpio .lockPending, .gpio .add, .gpio (.call 0), .gpio .lockPending,
    .gpio .add, .ack (.task { fd := 6, bincount := 1, answers := some 0 }), .ack .lock,
    .ack .search, .manager (.start 5), .manager .lock]

theorem answeredByOne_recordedInTime :
    (system unit4711).StepsMeet RecordedInTime (start 0 none) answeredByOne := by
  have hquiet : ∀ as : List Action, (∀ a ∈ as, ∀ s, RecordedInTime s a) →
      ∀ s, (system unit4711).StepsMeet RecordedInTime s as := fun as => System.stepsMeet_of_forall
  have hunanswered : ∀ s : Comm, s.answered = [] → s.RecordedInTime (.gpio .add) := by
    intro s hs a call clist _
    simp [hs]
  -- Nothing is answered when the two entries are linked.
  rw [show answeredByOne = answeredByOne.take 12 ++
    (.gpio .add :: ((answeredByOne.drop 13).take 2 ++
      (.gpio .add :: ((answeredByOne.drop 16).take 2 ++
        (.ack .search :: answeredByOne.drop 19))))) from rfl]
  refine System.stepsMeet_append (hquiet _ (by simp [answeredByOne, RecordedInTime]) _) ?_
  intro s hs
  cases hs
  refine ⟨hunanswered _ rfl, fun t ht => ?_⟩
  cases ht
  refine System.stepsMeet_append (hquiet _ (by simp [answeredByOne, RecordedInTime]) _) ?_
  intro s hs
  cases hs
  refine ⟨hunanswered _ rfl, fun t ht => ?_⟩
  cases ht
  refine System.stepsMeet_append (hquiet _ (by simp [answeredByOne, RecordedInTime]) _) ?_
  intro s hs
  cases hs
  refine ⟨?_, fun t ht => hquiet _ (by simp [answeredByOne, RecordedInTime]) _⟩
  rintro task seq ⟨⟩ ⟨⟩ p hp - - -
  rcases List.mem_cons.mp hp with rfl | hp
  · rfl
  · cases List.mem_singleton.mp hp
    rfl

/-- The message goes to client 7 again, and not to client 6. -/
theorem ack_stops_retransmission_answeredByOne :
    ∃ s s', (system unit4711).exec (start 0 none) answeredByOne = some s ∧
      next unit4711 s (.manager .visit) = some s' ∧ s.answered = [(6, 0)] ∧
      s'.sendQ.map (·.1) = [6, 7, 7] ∧
      (s'.sendQ = s.sendQ ∨ ∃ p ∈ s.pending, s'.sendQ = s.sendQ ++ [(p.clientFd, p.msg)] ∧
        (p.clientFd, s.event p.node) ∉ s.answered) :=
  ⟨_, _, rfl, rfl, rfl, rfl, ack_stops_retransmission ⟨start 0 none, ⟨0, none, rfl⟩,
    System.leadsUnder_of_stepsMeet _ answeredByOne_recordedInTime rfl⟩ (a := .visit) rfl⟩

/-- The client answers the first lift before the callback lists the clients. -/
def earlyAnswer : List Action :=
  [.tcp (.register 6), .gpio .lift, .gpio (.count true), .gpio .lockClients, .gpio .push,
    .gpio .broadcastEnd, .tcp .pop, .ack (.task { fd := 6, bincount := 1, answers := some 0 }),
    .ack .lock, .ack .search, .gpio .lockClients, .gpio (.list true), .gpio (.call 0),
    .gpio .lockPending, .gpio .add, .manager (.start 5), .manager .lock]

/-- The message of lift 1 is enqueued again after its acknowledgement was
processed. -/
theorem answered_lift_resent :
    ∃ s s' p, (system unit4711).Reachable s ∧ next unit4711 s (.manager .visit) = some s' ∧
      p ∈ s.pending ∧ p.msg = assembleBinliftMessage 1 unit4711.esn ∧
      s'.sendQ = s.sendQ ++ [(p.clientFd, p.msg)] ∧ (p.clientFd, s.event p.node) ∈ s.answered :=
  ⟨_, _, _, System.reachable_of_exec earlyAnswer ⟨0, none, rfl⟩ rfl, rfl,
    List.mem_cons_self, rfl, rfl, List.mem_cons_self⟩

end Comm

end SgMuni
