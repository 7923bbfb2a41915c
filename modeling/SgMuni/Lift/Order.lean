import SgMuni.Lift.Sections

/-!
# The order of the announcements

Each handler computes its number under `bincount_mutex` and sends it after it
has unlocked, so a later number can overtake an earlier one on the way to
`send_q`. The first transmissions to a client are in the order of the sections
when the handlers begin to send in that order: a broadcast takes `clients_mtx`,
and from then on no other broadcast enqueues anything until it is over.
-/

namespace SgMuni

namespace Comm

open Transition

/-- The handler has left its section and has the announcement left to enqueue for a
client: before its broadcast for every registered client, inside of it for those
that come later in the registry. -/
def Owes (s : Comm) : Handler → Fd → Announcement → Prop
  | .gpio, fd, a =>
      (s.gpio = .broadcastLock a ∧ fd ∈ s.clients) ∨
        ∃ i, s.gpio = .broadcasting a i ∧ fd ∈ s.clients.drop i
  | .clr, fd, a =>
      (s.clr = .broadcastLock a ∧ fd ∈ s.clients) ∨
        ∃ i, s.clr = .broadcasting a i ∧ fd ∈ s.clients.drop i
  | .query, fd, a => s.query = .pushing a fd
  | .ack, _, _ | .manager, _, _ => False

/-- The announcement that a handler begins to send, and the clients that it sends it
to: a broadcast begins with the lock of `clients_mtx`, a reply is one call. -/
def begins (s : Comm) : Action → Option (Announcement × List Fd)
  | .gpio .lockClients =>
      match s.gpio with
      | .broadcastLock a => some (a, s.clients)
      | _ => none
  | .clr .lockClients =>
      match s.clr with
      | .broadcastLock a => some (a, s.clients)
      | _ => none
  | .query .push =>
      match s.query with
      | .pushing a fd => some (a, [fd])
      | _ => none
  | _ => none

/-- A broadcast waits for `clients_mtx`. -/
def Waiting (s : Comm) (a : Announcement) : Prop :=
  s.gpio = .broadcastLock a ∨ s.clr = .broadcastLock a

/-- A handler begins to send when no handler that left its section earlier has its
announcement left to enqueue for one of the same clients; and a number that got an
announcement before is registered again when no older broadcast waits. -/
structure InTurn (s : Comm) (a : Action) : Prop where
  turn : ∀ x, s.begins a = some x → ∀ fd ∈ x.2, ∀ u b, s.Owes u fd b → x.1.seq ≤ b.seq
  register : ∀ fd, a = .tcp (.register fd) → ∀ b, s.Waiting b →
    ∀ x ∈ s.announced, x.1 = fd → x.2.seq ≤ b.seq

/-- The broadcast that a handler is in, with its place in the registry. -/
def broadcast (s : Comm) : Handler → Option (Announcement × Nat)
  | .gpio =>
      match s.gpio with
      | .broadcasting a i => some (a, i)
      | _ => none
  | .clr =>
      match s.clr with
      | .broadcasting a i => some (a, i)
      | _ => none
  | .query | .ack | .manager => none

variable {cfg : Config} {s s' : Comm} {u : Handler} {fd : Fd} {a b : Announcement} {i : Nat}

theorem inClients_of_broadcast (h : s.broadcast u = some (a, i)) : s.inClients u = true := by
  cases u with
  | gpio => cases hgpio : s.gpio <;> simp_all [broadcast, inClients]
  | clr => cases hclr : s.clr <;> simp_all [broadcast, inClients]
  | _ => cases h

theorem Issued.owes (h : Issued s) (hb : s.Owes u fd b) : b.seq < s.sections := by
  cases u with
  | gpio =>
      rcases hb with ⟨hb, -⟩ | ⟨i, hb, -⟩ <;>
        exact h.gpio b (by simp only [hb, GpioPc.announcement])
  | clr =>
      rcases hb with ⟨hb, -⟩ | ⟨i, hb, -⟩ <;>
        exact h.clr b (by simp only [hb, ClrPc.announcement])
  | query => exact h.query b (by simp only [show s.query = _ from hb, QueryPc.announcement])
  | ack => cases hb
  | manager => cases hb

theorem Issued.broadcast (h : Issued s) (ha : s.broadcast u = some (a, i)) :
    a.seq < s.sections := by
  cases u with
  | gpio =>
      apply h.gpio a
      cases hgpio : s.gpio <;> simp_all [Comm.broadcast, GpioPc.announcement]
  | clr =>
      apply h.clr a
      cases hclr : s.clr <;> simp_all [Comm.broadcast, ClrPc.announcement]
  | _ => cases ha

theorem Issued.begins {act : Action} {fds : List Fd} (h : Issued s)
    (ha : s.begins act = some (a, fds)) : a.seq < s.sections := by
  unfold Comm.begins at ha
  split at ha
  · split at ha <;> cases ha
    exact h.gpio a (by simp_all [GpioPc.announcement])
  · split at ha <;> cases ha
    exact h.clr a (by simp_all [ClrPc.announcement])
  · split at ha <;> cases ha
    exact h.query a (by simp_all [QueryPc.announcement])
  · cases ha

/-- The end of a section gives a handler an announcement to send. -/
theorem GpioMove.owes {a : GpioAct} (h : GpioMove cfg s a s') (hb : s'.Owes u fd b) :
    s.Owes u fd b ∨ b.seq = s.sections := by
  cases u with
  | gpio =>
      cases h with
      | count gpio counted =>
          rcases hb with ⟨hb, -⟩ | ⟨i, hb, -⟩ <;> cases hb
          exact .inr rfl
      | lockBroadcast gpio free =>
          rcases hb with ⟨hb, -⟩ | ⟨i, hb, hmem⟩ <;> cases hb
          exact .inl (.inl ⟨gpio, hmem⟩)
      | push gpio client room =>
          rcases hb with ⟨hb, -⟩ | ⟨i, hb, hmem⟩ <;> cases hb
          exact .inl (.inr ⟨_, gpio, (List.drop_subset_drop_left _ (Nat.le_succ _)) hmem⟩)
      | _ => rcases hb with ⟨hb, -⟩ | ⟨i, hb, -⟩ <;> cases hb
  | _ => cases h <;> exact .inl hb

theorem ClrMove.owes {a : ClrAct} (h : ClrMove cfg s a s') (hb : s'.Owes u fd b) :
    s.Owes u fd b ∨ b.seq = s.sections := by
  cases u with
  | clr =>
      cases h with
      | read clr readBack =>
          rcases hb with ⟨hb, -⟩ | ⟨i, hb, -⟩ <;> cases hb
          exact .inr rfl
      | lockBroadcast clr free =>
          rcases hb with ⟨hb, -⟩ | ⟨i, hb, hmem⟩ <;> cases hb
          exact .inl (.inl ⟨clr, hmem⟩)
      | push clr client room =>
          rcases hb with ⟨hb, -⟩ | ⟨i, hb, hmem⟩ <;> cases hb
          exact .inl (.inr ⟨_, clr, (List.drop_subset_drop_left _ (Nat.le_succ _)) hmem⟩)
      | _ => rcases hb with ⟨hb, -⟩ | ⟨i, hb, -⟩ <;> cases hb
  | _ => cases h <;> exact .inl hb

theorem QueryMove.owes {a : QueryAct} (h : QueryMove cfg s a s') (hb : s'.Owes u fd b) :
    s.Owes u fd b ∨ b.seq = s.sections := by
  cases u with
  | query =>
      cases h with
      | read query =>
          cases hb
          exact .inr rfl
      | _ => cases hb
  | _ => cases h <;> exact .inl hb

/-- A registration gives the broadcasts that wait one more client; no broadcast is
under way then. -/
theorem TcpMove.owes {a : TcpAct} (hsec : SectionInv s) (h : TcpMove s a s')
    (hb : s'.Owes u fd b) :
    s.Owes u fd b ∨ (Action.tcp a = .tcp (.register fd) ∧ s.Waiting b) := by
  cases h with
  | pop sendQ => cases u <;> exact .inl hb
  | @register new free =>
      have hout := hsec.clients.outside_of_free free u
      cases u with
      | gpio =>
          rcases hb with ⟨hb, hmem⟩ | ⟨i, hb, -⟩
          · rcases List.mem_append.mp hmem with hold | hnew
            · exact .inl (.inl ⟨hb, hold⟩)
            · cases List.mem_singleton.mp hnew
              exact .inr ⟨rfl, .inl hb⟩
          · simp [inClients, show s.gpio = _ from hb] at hout
      | clr =>
          rcases hb with ⟨hb, hmem⟩ | ⟨i, hb, -⟩
          · rcases List.mem_append.mp hmem with hold | hnew
            · exact .inl (.inl ⟨hb, hold⟩)
            · cases List.mem_singleton.mp hnew
              exact .inr ⟨rfl, .inr hb⟩
          · simp [inClients, show s.clr = _ from hb] at hout
      | _ => exact .inl hb
  | remove free =>
      have hout := hsec.clients.outside_of_free free u
      cases u with
      | gpio =>
          rcases hb with ⟨hb, hmem⟩ | ⟨i, hb, -⟩
          · exact .inl (.inl ⟨hb, mem_of_mem_removeClient hmem⟩)
          · simp [inClients, show s.gpio = _ from hb] at hout
      | clr =>
          rcases hb with ⟨hb, hmem⟩ | ⟨i, hb, -⟩
          · exact .inl (.inl ⟨hb, mem_of_mem_removeClient hmem⟩)
          · simp [inClients, show s.clr = _ from hb] at hout
      | _ => exact .inl hb

theorem owes_next {act : Action} (hsec : SectionInv s) (h : next cfg s act = some s')
    (hb : s'.Owes u fd b) :
    s.Owes u fd b ∨ b.seq = s.sections ∨ (act = .tcp (.register fd) ∧ s.Waiting b) := by
  cases act with
  | gpio a => exact ((gpioNext_move h).owes hb).imp_right .inl
  | clr a => exact ((clrNext_move h).owes hb).imp_right .inl
  | query a => exact ((queryNext_move h).owes hb).imp_right .inl
  | ack a => cases ackNext_move h <;> cases u <;> exact .inl hb
  | manager a => cases managerNext_move h <;> cases u <;> exact .inl hb
  | tcp a => exact ((tcpNext_move h).owes hsec hb).imp_right .inr

/-- A broadcast that is under way was so before the step, or begins with it; the
registry does not change under it. -/
theorem broadcast_next {act : Action} (hsec : SectionInv s) (h : next cfg s act = some s')
    (ha : s'.broadcast u = some (a, i)) :
    s'.clients = s.clients ∧
      ((∃ j, s.broadcast u = some (a, j)) ∨ s.begins act = some (a, s.clients)) := by
  cases act with
  | gpio act =>
      cases gpioNext_move h with
      | lockBroadcast gpio free =>
          refine ⟨rfl, ?_⟩
          cases u <;> simp_all [broadcast, begins]
      | push gpio client room =>
          refine ⟨rfl, .inl ?_⟩
          cases u <;> simp_all [broadcast, announce]
      | _ =>
          refine ⟨rfl, .inl ?_⟩
          cases u <;> simp_all [broadcast]
  | clr act =>
      cases clrNext_move h with
      | lockBroadcast clr free =>
          refine ⟨rfl, ?_⟩
          cases u <;> simp_all [broadcast, begins]
      | push clr client room =>
          refine ⟨rfl, .inl ?_⟩
          cases u <;> simp_all [broadcast, announce]
      | _ =>
          refine ⟨rfl, .inl ?_⟩
          cases u <;> simp_all [broadcast]
  | query act => cases queryNext_move h <;> cases u <;> exact ⟨rfl, .inl ⟨i, ha⟩⟩
  | ack act => cases ackNext_move h <;> cases u <;> exact ⟨rfl, .inl ⟨i, ha⟩⟩
  | manager act => cases managerNext_move h <;> cases u <;> exact ⟨rfl, .inl ⟨i, ha⟩⟩
  | tcp act =>
      have hquiet : ∀ c : List Fd, s.clientsMtx = none →
          ({ s with clients := c }).broadcast u ≠ some (a, i) := by
        intro c hfree hb
        have hsame : ({ s with clients := c }).broadcast u = s.broadcast u := by cases u <;> rfl
        have hin : s.inClients u = true := inClients_of_broadcast (hsame ▸ hb)
        simp [hsec.clients.outside_of_free hfree u] at hin
      cases tcpNext_move h with
      | pop sendQ => cases u <;> exact ⟨rfl, .inl ⟨i, ha⟩⟩
      | register free => exact absurd ha (hquiet _ free)
      | remove free => exact absurd ha (hquiet _ free)

/-- Everything that is left to enqueue for the clients of a broadcast under way comes
from a later section. -/
def TurnInv (s : Comm) : Prop :=
  ∀ u a i, s.broadcast u = some (a, i) → ∀ fd ∈ s.clients, ∀ v b, s.Owes v fd b → a.seq ≤ b.seq

theorem TurnInv.next {act : Action} (hturn : TurnInv s) (hsec : SectionInv s)
    (hissued : Issued s) (hin : s.InTurn act) (h : next cfg s act = some s') : TurnInv s' := by
  intro u a i ha fd hfd v b hb
  obtain ⟨hclients, hbroadcast⟩ := broadcast_next hsec h ha
  rw [hclients] at hfd
  rcases owes_next hsec h hb with hold | hnew | ⟨rfl, hwaiting⟩
  · rcases hbroadcast with ⟨j, hj⟩ | hbegin
    · exact hturn u a j hj fd hfd v b hold
    · exact hin.turn _ hbegin fd hfd v b hold
  · rw [hnew]
    rcases hbroadcast with ⟨j, hj⟩ | hbegin
    · exact (hissued.broadcast hj).le
    · exact (hissued.begins hbegin).le
  · -- A registration needs the mutex that the broadcast has.
    have htcp : s.tcpNext (.register fd) = some s' := h
    cases tcpNext_move htcp with
    | register free => simp at hclients

/-- A step transmits nothing, or what a handler owes: inside of its broadcast, or as a
reply. -/
theorem announced_next {act : Action} (h : next cfg s act = some s') :
    s'.announced = s.announced ∨ ∃ fd a u, s'.announced = s.announced ++ [(fd, a)] ∧
      s.Owes u fd a ∧
        ((∃ i, s.broadcast u = some (a, i) ∧ fd ∈ s.clients) ∨ s.begins act = some (a, [fd])) := by
  cases act with
  | gpio act =>
      cases gpioNext_move h with
      | @push a i fd gpio client room =>
          obtain ⟨hi, hfd⟩ := List.getElem?_eq_some_iff.mp client
          have hdrop : fd ∈ s.clients.drop i :=
            List.mem_iff_getElem.mpr ⟨0, by simpa using hi, by simpa using hfd⟩
          exact .inr ⟨fd, a, .gpio, rfl, .inr ⟨i, gpio, hdrop⟩,
            .inl ⟨i, by simp only [broadcast, gpio], List.mem_of_mem_drop hdrop⟩⟩
      | _ => exact .inl rfl
  | clr act =>
      cases clrNext_move h with
      | @push a i fd clr client room =>
          obtain ⟨hi, hfd⟩ := List.getElem?_eq_some_iff.mp client
          have hdrop : fd ∈ s.clients.drop i :=
            List.mem_iff_getElem.mpr ⟨0, by simpa using hi, by simpa using hfd⟩
          exact .inr ⟨fd, a, .clr, rfl, .inr ⟨i, clr, hdrop⟩,
            .inl ⟨i, by simp only [broadcast, clr], List.mem_of_mem_drop hdrop⟩⟩
      | _ => exact .inl rfl
  | query act =>
      cases queryNext_move h with
      | @push a fd query room =>
          exact .inr ⟨fd, a, .query, rfl, query, .inr (by simp only [begins, query])⟩
      | _ => exact .inl rfl
  | ack act => cases ackNext_move h <;> exact .inl rfl
  | manager act => cases managerNext_move h <;> exact .inl rfl
  | tcp act => cases tcpNext_move h <;> exact .inl rfl

/-- The transmissions to a client are in the order of their sections. -/
def Sorted (announced : List (Fd × Announcement)) : Prop :=
  announced.Pairwise fun x y => x.1 = y.1 → x.2.seq ≤ y.2.seq

/-- What was transmitted is in order, and what is left to transmit comes later. -/
structure OrderInv (s : Comm) : Prop where
  turn : TurnInv s
  owed : ∀ x ∈ s.announced, ∀ u b, s.Owes u x.1 b → x.2.seq ≤ b.seq
  sorted : Sorted s.announced

theorem orderInv_start (bincount : Int) (file : Option Int) : OrderInv (start bincount file) where
  turn u a i h := by cases u <;> simp [start, broadcast] at h
  owed x hx := by simp [start] at hx
  sorted := List.Pairwise.nil

/-- The transmission of a step comes before all that is left for its client. -/
theorem OrderInv.first {act : Action} (hinv : OrderInv s) (hin : s.InTurn act)
    (hsource : (∃ i, s.broadcast u = some (a, i) ∧ fd ∈ s.clients) ∨
      s.begins act = some (a, [fd])) {v : Handler} (hb : s.Owes v fd b) : a.seq ≤ b.seq := by
  rcases hsource with ⟨i, hbroadcast, hfd⟩ | hbegin
  · exact hinv.turn u a i hbroadcast fd hfd v b hb
  · exact hin.turn _ hbegin fd (List.mem_singleton_self fd) v b hb

theorem OrderInv.next {act : Action} (hinv : OrderInv s) (hsec : SectionInv s)
    (hissued : Issued s) (hin : s.InTurn act) (h : next cfg s act = some s') : OrderInv s' := by
  have hearlier : ∀ x ∈ s.announced, ∀ u b, s'.Owes u x.1 b → x.2.seq ≤ b.seq := by
    intro x hx u b hb
    rcases owes_next hsec h hb with hold | hnew | ⟨hregister, hwaiting⟩
    · exact hinv.owed x hx u b hold
    · exact hnew ▸ (hissued.announced x hx).le
    · exact hin.register x.1 hregister b hwaiting x hx rfl
  rcases announced_next h with hsame | ⟨fd, a, u, hnew, howes, hsource⟩
  · exact ⟨hinv.turn.next hsec hissued hin h, hsame ▸ hearlier, hsame ▸ hinv.sorted⟩
  · refine ⟨hinv.turn.next hsec hissued hin h, fun y hy v b hb => ?_, ?_⟩
    · rw [hnew] at hy
      rcases List.mem_append.mp hy with hy | hy
      · exact hearlier y hy v b hb
      · cases List.mem_singleton.mp hy
        rcases owes_next hsec h hb with hold | hsection | ⟨rfl, hwaiting⟩
        · exact hinv.first hin hsource hold
        · exact hsection ▸ (hissued.owes howes).le
        · -- A registration transmits nothing.
          have htcp : s.tcpNext (.register fd) = some s' := h
          cases tcpNext_move htcp with
          | register free => simp at hnew
    · rw [hnew, Sorted, List.pairwise_append]
      refine ⟨hinv.sorted, List.pairwise_singleton _ _, fun y hy z hz hfd => ?_⟩
      cases List.mem_singleton.mp hz
      exact hinv.owed y hy u a (hfd ▸ howes)

/-- Who begins out of turn, or registers a number out of turn, leaves something older
to enqueue behind what is announced. -/
theorem inTurn_of_orderInv {act : Action} (h : next cfg s act = some s') (hinv : OrderInv s') :
    s.InTurn act := by
  refine ⟨?_, ?_⟩
  · rintro ⟨a, fds⟩ hbegin fd hfd v b hb
    cases act with
    | gpio act =>
        cases gpioNext_move h with
        | @lockBroadcast c gpio free =>
            simp only [begins, gpio, Option.some.injEq, Prod.mk.injEq] at hbegin
            obtain ⟨rfl, rfl⟩ := hbegin
            by_cases hv : v = .gpio
            · subst hv
              rcases hb with ⟨hb, -⟩ | ⟨i, hb, -⟩ <;> cases gpio.symm.trans hb
              exact le_rfl
            · refine hinv.turn .gpio _ 0 rfl fd hfd v b ?_
              cases v <;> first | exact absurd rfl hv | exact hb
        | _ => simp_all [begins]
    | clr act =>
        cases clrNext_move h with
        | @lockBroadcast c clr free =>
            simp only [begins, clr, Option.some.injEq, Prod.mk.injEq] at hbegin
            obtain ⟨rfl, rfl⟩ := hbegin
            by_cases hv : v = .clr
            · subst hv
              rcases hb with ⟨hb, -⟩ | ⟨i, hb, -⟩ <;> cases clr.symm.trans hb
              exact le_rfl
            · refine hinv.turn .clr _ 0 rfl fd hfd v b ?_
              cases v <;> first | exact absurd rfl hv | exact hb
        | _ => simp_all [begins]
    | query act =>
        cases queryNext_move h with
        | @push c client query room =>
            simp only [begins, query, Option.some.injEq, Prod.mk.injEq] at hbegin
            obtain ⟨rfl, rfl⟩ := hbegin
            cases List.mem_singleton.mp hfd
            by_cases hv : v = .query
            · subst hv
              cases query.symm.trans hb
              exact le_rfl
            · refine hinv.owed (fd, c) (by simp [announce]) v b ?_
              cases v <;> first | exact absurd rfl hv | exact hb
        | _ => cases hbegin
    | _ => cases hbegin
  · rintro fd rfl b hwaiting x hx rfl
    have htcp : s.tcpNext (.register x.1) = some s' := h
    cases tcpNext_move htcp with
    | register free =>
        rcases hwaiting with hgpio | hclr
        · exact hinv.owed x hx .gpio b (.inl ⟨hgpio, by simp⟩)
        · exact hinv.owed x hx .clr b (.inl ⟨hclr, by simp⟩)

/-- In a run all that was announced is in order, and nothing older is left to enqueue
behind it, in all states, exactly when every step meets the condition. -/
theorem inTurn_iff_ordered {bincount : Int} {file : Option Int} {as : List Action}
    (hrun : (system cfg).exec (start bincount file) as = some s) :
    (system cfg).StepsMeet InTurn (start bincount file) as ↔
      (system cfg).StatesMeet OrderInv (start bincount file) as := by
  apply System.stepsMeet_iff_statesMeet (I := fun s => SectionInv s ∧ Issued s) _ _ _ _ hrun
  · intro s a t ht hinv
    exact ⟨hinv.1.next ht, hinv.2.next ht⟩
  · intro s a t ht hinv hordered
    exact ⟨inTurn_of_orderInv ht, fun h => hordered.next hinv.1 hinv.2 h ht⟩
  · exact ⟨sectionInv_start bincount file, issued_start bincount file⟩
  · exact orderInv_start bincount file

end Comm

end SgMuni
