import SgMuni.RingBuffer.Refinement
import Mathlib.Data.Finset.Card

/-!
# Producers that sleep while there is room

Any number of threads in `rb_push` and any number in `rb_timed_pop`: each pop
wakes a sleeping producer, and a woken producer may find its slot taken and
sleep again. The free slots never outnumber the producers on their way to them
while another producer sleeps.
-/

namespace SgMuni

namespace RingBuffer

/-- The calls that block a producer without a limit and a consumer with one. -/
def Call.used {α : Type*} : Call α → Bool
  | .push _ | .timedPop => true
  | _ => false

namespace Pc

variable {α : Type*} [Inhabited α]

/-- The thread runs one of these calls, and only a consumer has timed out. -/
def used : Pc α → Bool
  | .locking c | .testing c | .sleeping c => c.used
  | .waking c timedOut => c.used && (!timedOut || c.routine.timed)
  | .expired c => c.used && c.routine.timed
  | _ => true

/-- A producer that was woken and has not resumed. -/
def woken : Pc α → Bool
  | .waking (.push _) _ => true
  | _ => false

/-- A producer that was woken, or that is about to find out whether there is room. -/
def pressing : Pc α → Bool
  | .testing (.push _) | .waking (.push _) _ => true
  | _ => false

omit [Inhabited α] in
theorem woken_of_pressing {p : Pc α} (h : p.pressing = true) (hout : p.holds = false) :
    p.woken = true := by
  cases p with
  | testing c => cases hout
  | waking c timedOut => cases c <;> first | rfl | cases h
  | _ => cases h

end Pc

namespace Threads

variable {Tid α : Type*} [Inhabited α] {cap : Nat} {s s' : Threads Tid α}

/-- A producer sleeps on `not_full`. -/
def ProducerAsleep (s : Threads Tid α) : Prop := ∃ t, (s.pc t).asleepOn .notFull = true

section Complete

variable [DecidableEq Tid] {t u : Tid} {c : Call α} {woken : List Tid}

/-- A thread that a completed operation does not run is woken or left alone. -/
theorem complete_pc (hu : u ≠ t) :
    (s.complete t c woken).pc u = if u ∈ woken then (s.pc u).wake else s.pc u := by
  simp [Threads.complete, Function.update_of_ne hu]

theorem pressing_complete (hu : u ≠ t) (h : (s.pc u).pressing = true) :
    ((s.complete t c woken).pc u).pressing = true := by
  rw [complete_pc hu]
  split
  · cases hp : s.pc u <;> simp_all [Pc.pressing, Pc.wake]
  · exact h

theorem asleep_complete (h : (s.complete t c woken).ProducerAsleep) : s.ProducerAsleep := by
  obtain ⟨u, hu⟩ := h
  by_cases hut : u = t
  · subst hut
    simp [Threads.complete, Pc.asleepOn] at hu
  · rw [complete_pc hut] at hu
    split at hu
    · cases hp : s.pc u <;> simp_all [Pc.asleepOn, Pc.wake]
    · exact ⟨u, hu⟩

/-- A sleeper on `not_full` that an operation wakes presses for a slot. -/
theorem pressing_of_woken (hused : (s.pc u).used = true)
    (hasleep : (s.pc u).asleepOn .notFull = true) (hut : u ≠ t) (hmem : u ∈ woken) :
    ((s.complete t c woken).pc u).pressing = true ∧ (s.pc u).pressing = false := by
  rw [complete_pc hut, if_pos hmem]
  cases hp : s.pc u with
  | sleeping d =>
      rw [hp] at hused hasleep
      cases d with
      | push item => exact ⟨rfl, rfl⟩
      | timedPop => cases hasleep
      | _ => cases hused
  | _ =>
      rw [hp] at hasleep
      cases hasleep

end Complete

variable [Fintype Tid]

/-- The producers that were woken and have not resumed. -/
def wokenProducers (s : Threads Tid α) : Finset Tid := Finset.univ.filter fun t => (s.pc t).woken

def pressingProducers (s : Threads Tid α) : Finset Tid :=
  Finset.univ.filter fun t => (s.pc t).pressing

omit [Inhabited α] in
theorem mem_pressingProducers {t : Tid} :
    t ∈ s.pressingProducers ↔ (s.pc t).pressing = true := by
  simp [pressingProducers]

/-- Every call is `rb_push` or `rb_timed_pop`. -/
def Used (_ : Threads Tid α) : Action Tid α → Prop
  | .call _ c => c.used = true
  | _ => True

variable [DecidableEq Tid]

/-- No producer leaves the set of those that press, and none falls asleep. -/
structure Quiet (s s' : Threads Tid α) : Prop where
  pressing : s.pressingProducers ⊆ s'.pressingProducers
  asleep : s'.ProducerAsleep → s.ProducerAsleep

/-- What a step of such a run does to the producers and to the room. -/
inductive Turn (s s' : Threads Tid α) : Prop
  | quiet (rb : s'.rb = s.rb) (threads : Quiet s s')
  | full (rb : s'.rb = s.rb) (noRoom : s.rb.cnt = s.rb.cap)
  | stored (t : Tid) (item : α) (rb : s'.rb = s.rb.store item)
      (pressing : s.pressingProducers.erase t ⊆ s'.pressingProducers)
      (asleep : s'.ProducerAsleep → s.ProducerAsleep)
  | fetched (rb : s'.rb = s.rb.fetch) (item : s.rb.cnt ≠ 0) (threads : Quiet s s')
      (signal : s.ProducerAsleep → ∃ u ∈ s'.pressingProducers, u ∉ s.pressingProducers)

theorem Quiet.of_update {t : Tid} {p : Pc α} (hpc : s'.pc = Function.update s.pc t p)
    (hpressing : (s.pc t).pressing = true → p.pressing = true)
    (hasleep : p.asleepOn .notFull = true → (s.pc t).asleepOn .notFull = true) : Quiet s s' where
  pressing := by
    intro u hu
    rw [mem_pressingProducers] at hu ⊢
    rw [hpc]
    by_cases hut : u = t
    · subst hut
      rw [Function.update_self]
      exact hpressing hu
    · rwa [Function.update_of_ne hut]
  asleep := by
    rintro ⟨u, hu⟩
    rw [hpc] at hu
    by_cases hut : u = t
    · subst hut
      rw [Function.update_self] at hu
      exact ⟨u, hasleep hu⟩
    · rw [Function.update_of_ne hut] at hu
      exact ⟨u, hu⟩

/-- A thread moves that did not press for a slot, and does not fall asleep. -/
theorem Turn.of_update {t : Tid} {p : Pc α} (hrb : s'.rb = s.rb)
    (hpc : s'.pc = Function.update s.pc t p) (hold : (s.pc t).pressing = false)
    (hnew : p.asleepOn .notFull = false) : Turn s s' := by
  apply Turn.quiet hrb
  apply Quiet.of_update hpc
  · simp [hold]
  · simp [hnew]

/-- A completed push takes one slot and wakes no producer; a completed pop frees
one and wakes a producer if one sleeps. -/
theorem turn_complete (hused : ∀ t, (s.pc t).used = true) {t : Tid} {c : Call α}
    (hpc : s.pc t = .testing c) (hb : c.routine.blocked s.rb = false) {woken : List Tid}
    (hsignals : s.Signals c.routine.signals woken) : Turn s (s.complete t c woken) := by
  have hc : c.used = true := by
    have ht := hused t
    rwa [hpc] at ht
  cases c with
  | push item =>
      refine .stored t item rfl ?_ asleep_complete
      intro u hu
      obtain ⟨hut, hpressing⟩ := Finset.mem_erase.mp hu
      rw [mem_pressingProducers] at hpressing ⊢
      exact pressing_complete hut hpressing
  | timedPop =>
      have hne : s.rb.cnt ≠ 0 := by simpa [Call.routine, rbTimedPop, rbPop] using hb
      refine .fetched rfl hne ⟨?_, asleep_complete⟩ ?_
      · intro u hu
        rw [mem_pressingProducers] at hu ⊢
        have hut : u ≠ t := by
          rintro rfl
          rw [hpc] at hu
          cases hu
        exact pressing_complete hut hu
      · intro hasleep
        obtain ⟨u, hmem⟩ := List.exists_mem_of_ne_nil _ (hsignals.2 hasleep)
        have hu : (s.pc u).asleepOn .notFull = true := hsignals.1 u hmem
        have hut : u ≠ t := by
          rintro rfl
          rw [hpc] at hu
          cases hu
        obtain ⟨hafter, hbefore⟩ := pressing_of_woken (hused u) hu hut hmem
        refine ⟨u, mem_pressingProducers.mpr hafter, fun h => ?_⟩
        rw [mem_pressingProducers, hbefore] at h
        cases h
  | _ => cases hc

/-- Only calls of the two operations are made, and only consumers time out. -/
theorem used_next {a : Action Tid α} (hused : ∀ t, (s.pc t).used = true) (ha : s.Used a)
    (hn : s.next a = some s') (u : Tid) : (s'.pc u).used = true := by
  have hupdate : ∀ (t : Tid) (p : Pc α), p.used = true →
      (Function.update s.pc t p u).used = true := by
    intro t p hp
    by_cases hut : u = t
    · subst hut
      rwa [Function.update_self]
    · rw [Function.update_of_ne hut]
      exact hused u
  cases next_move hn with
  | call outside => exact hupdate _ _ ha
  | @lock t c pc free =>
      have ht := hused t
      rw [pc] at ht
      exact hupdate t _ ht
  | @sleep t c woken pc blocked =>
      have ht := hused t
      rw [pc] at ht
      exact hupdate t _ ht
  | @complete t c woken pc ready signals =>
      by_cases hut : u = t
      · subst hut
        simp [Threads.complete, Pc.used]
      · rw [complete_pc hut]
        have hu := hused u
        split
        · cases hq : s.pc u <;> simp_all [Pc.wake, Pc.used]
        · exact hu
  | @wake t c pc =>
      have ht := hused t
      exact hupdate t _ (by simpa [pc, Pc.used] using ht)
  | @timeout t c pc timed =>
      have ht := hused t
      exact hupdate t _ (by simpa [pc, Pc.used, timed] using ht)
  | @relock t c timedOut pc free =>
      have ht := hused t
      apply hupdate
      cases timedOut <;> simpa [pc, Pc.used] using ht
  | giveUp pc => exact hupdate _ _ rfl

theorem turn_of_next {a : Action Tid α} (hused : ∀ t, (s.pc t).used = true)
    (hn : s.next a = some s') : Turn s s' := by
  cases next_move hn with
  | @call t c outside =>
      refine .of_update rfl rfl ?_ rfl
      cases hp : s.pc t <;> simp_all [Pc.outside, Pc.pressing]
  | lock pc free => exact .of_update rfl rfl (by rw [pc]; rfl) rfl
  | @sleep t c woken pc blocked =>
      have ht := hused t
      rw [pc] at ht
      cases c with
      | push item => exact .full rfl (by simpa [Call.routine, rbPush] using blocked)
      | timedPop => exact .of_update rfl rfl (by rw [pc]; rfl) rfl
      | _ => cases ht
  | complete pc ready signals => exact turn_complete hused pc ready signals
  | wake pc => exact .of_update rfl rfl (by rw [pc]; rfl) rfl
  | timeout pc timed => exact .of_update rfl rfl (by rw [pc]; rfl) rfl
  | @relock t c timedOut pc free =>
      have ht := hused t
      rw [pc] at ht
      refine .quiet rfl (.of_update rfl (fun h => ?_) fun h => ?_)
      · rw [pc] at h
        cases c with
        | push item => cases timedOut <;> first | rfl | cases ht
        | _ => cases h
      · cases timedOut <;> cases h
  | giveUp pc => exact .of_update rfl rfl (by rw [pc]; rfl) rfl

/-- While a producer sleeps, the free slots are covered by producers that press
for them. -/
def Covered (s : Threads Tid α) : Prop :=
  s.ProducerAsleep → s.rb.cap - s.rb.cnt ≤ s.pressingProducers.card

theorem Covered.turn (h : s.Covered) (hturn : Turn s s') : s'.Covered := by
  intro hasleep
  cases hturn with
  | quiet rb threads =>
      calc
        s'.rb.cap - s'.rb.cnt = s.rb.cap - s.rb.cnt := by rw [rb]
        _ ≤ s.pressingProducers.card := h (threads.asleep hasleep)
        _ ≤ s'.pressingProducers.card := Finset.card_le_card threads.pressing
  | full rb noRoom =>
      rw [rb, noRoom, Nat.sub_self]
      exact Nat.zero_le _
  | stored t item rb pressing asleep =>
      have hcnt : s'.rb.cnt = s.rb.cnt + 1 := by rw [rb]; rfl
      have hcap : s'.rb.cap = s.rb.cap := by rw [rb]; rfl
      have hbefore := h (asleep hasleep)
      have herase := Finset.pred_card_le_card_erase (s := s.pressingProducers) (a := t)
      have hafter := Finset.card_le_card pressing
      omega
  | fetched rb item threads signal =>
      have hcnt : s'.rb.cnt = s.rb.cnt - 1 := by rw [rb]; rfl
      have hcap : s'.rb.cap = s.rb.cap := by rw [rb]; rfl
      have hbefore := h (threads.asleep hasleep)
      obtain ⟨u, hafter, hnew⟩ := signal (threads.asleep hasleep)
      have hmore : s.pressingProducers.card < s'.pressingProducers.card :=
        Finset.card_lt_card (Finset.ssubset_iff_of_subset threads.pressing |>.mpr ⟨u, hafter, hnew⟩)
      omega

theorem used_of_reachableUnder (h : (system Tid α cap).ReachableUnder Used s) (t : Tid) :
    (s.pc t).used = true := by
  apply h.invariant (P := fun s => ∀ t, (s.pc t).used = true)
  · rintro s rfl t
    rfl
  · intro s a s' ha hn hused
    exact used_next hused ha hn

theorem covered_of_reachableUnder (h : (system Tid α cap).ReachableUnder Used s) :
    s.Covered := by
  apply h.invariant_using (fun _ => used_of_reachableUnder)
  · rintro s rfl ⟨t, ht⟩
    cases ht
  · intro s a s' hused _ hn hcovered
    exact hcovered.turn (turn_of_next hused hn)

/-- With the mutex free and a producer asleep, the free slots are at most the
producers that were woken and have not resumed; so some producer is on its way
whenever there is room. -/
theorem room_le_wokenProducers (hcap : 0 < cap) (h : (system Tid α cap).ReachableUnder Used s)
    (hfree : s.owner = none) (hasleep : s.ProducerAsleep) :
    cap - s.rb.cnt ≤ s.wokenProducers.card ∧ (s.rb.cnt < cap → s.wokenProducers.Nonempty) := by
  have hinv : s.Inv cap := inv_of_reachable hcap h.reachable
  have hsubset : s.pressingProducers ⊆ s.wokenProducers := by
    intro t ht
    rw [mem_pressingProducers] at ht
    have hout : (s.pc t).holds = false := hinv.guarded.outside_of_free hfree t
    simp [wokenProducers, Pc.woken_of_pressing ht hout]
  have hroom : cap - s.rb.cnt ≤ s.wokenProducers.card :=
    calc
      cap - s.rb.cnt = s.rb.cap - s.rb.cnt := by rw [hinv.wf.cap_eq]
      _ ≤ s.pressingProducers.card := covered_of_reachableUnder h hasleep
      _ ≤ s.wokenProducers.card := Finset.card_le_card hsubset
  refine ⟨hroom, fun hlt => ?_⟩
  apply Finset.card_pos.mp
  omega

/-- One slot, two producers that sleep behind a full buffer and a pop that wakes
one of them. -/
def oneWoken : List (Action (Fin 4) Nat) :=
  [.call 0 (.push 7), .lock 0, .test 0 [], .call 1 (.push 8), .lock 1, .test 1 [],
    .call 2 (.push 9), .lock 2, .test 2 [], .call 3 .timedPop, .lock 3, .test 3 [1]]

theorem room_le_wokenProducers_oneWoken :
    ∃ s : Threads (Fin 4) Nat, (system (Fin 4) Nat 1).exec (start 1) oneWoken = some s ∧
      1 - s.rb.cnt ≤ s.wokenProducers.card := by
  refine ⟨_, rfl, ?_⟩
  have hmeet : (system (Fin 4) Nat 1).StepsMeet Used (start 1) oneWoken :=
    Transition.System.stepsMeet_of_forall (by simp [oneWoken, Used, Call.used]) _
  have hreach := Transition.System.leadsUnder_of_stepsMeet (S := system (Fin 4) Nat 1) oneWoken
    hmeet rfl
  exact (room_le_wokenProducers (by decide) ⟨_, rfl, hreach⟩ rfl ⟨2, rfl⟩).1

end Threads

end RingBuffer

end SgMuni
