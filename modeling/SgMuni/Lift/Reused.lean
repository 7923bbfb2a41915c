import SgMuni.Lift.Acknowledged
import SgMuni.Transition.History
import Mathlib.Data.Nat.Count

/-!
# Numbers that are used again

An acknowledgement and a pending entry name a lift by its number alone, and a
clear restarts the numbers. What is left is that the numbers match, and that two
lifts with the same number are one unless the count was cleared, or counted
through all its values, between them.
-/

namespace SgMuni

/-- The handler has set the count to zero and not yet read it back. -/
def ClrPc.cleared : ClrPc → Bool
  | .writing | .reading => true
  | _ => false

namespace Comm

open Transition

/-- Remember by which handler a section under `bincount_mutex` was run. -/
def kindNext (s : Comm) : Action → (Nat → Handler) → Nat → Handler
  | .gpio (.count _), kinds => Function.update kinds s.sections .gpio
  | .clr (.read _), kinds => Function.update kinds s.sections .clr
  | .query .read, kinds => Function.update kinds s.sections .query
  | _, kinds => kinds

/-- The handlers with the kinds of their sections. -/
def sectioned (cfg : Config) : System (Comm × (Nat → Handler)) Action :=
  (system cfg).auxiliary kindNext fun _ => .query

/-- The announcement was sent to the client, for the first time or again. -/
def Transmitted (s : Comm) (fd : Fd) (seq : Nat) : Prop :=
  (fd, seq) ∈ s.announced.map (fun x => (x.1, x.2.seq)) ∨ (fd, seq) ∈ s.resent

/-- No clear ran behind the earlier of two sections, up to the later one. -/
def NoClearBetween (kinds : Nat → Handler) (i j : Nat) : Prop :=
  ∀ k, min i j < k → k ≤ max i j → kinds k ≠ .clr

/-- The lifts counted behind the earlier of two sections, up to the later one. -/
def liftsBetween (kinds : Nat → Handler) (i j : Nat) : Nat :=
  Nat.count (kinds · = .gpio) (max i j + 1) - Nat.count (kinds · = .gpio) (min i j + 1)

/-- What a step does to the count and the sections. -/
inductive SectionStep (s s' : Comm) (kinds : Nat → Handler) : (Nat → Handler) → Prop
  | quiet (sections : s'.sections = s.sections) (number : s'.number = s.number)
      (bincount : s'.clr.cleared = false → s.clr.cleared = false ∧ s'.bincount = s.bincount) :
      SectionStep s s' kinds kinds
  | lift (sections : s'.sections = s.sections + 1)
      (number : s'.number = Function.update s.number s.sections s'.bincount)
      (settled : s.clr.cleared = false) (bincount : s'.bincount = C.wrap (s.bincount + 1)) :
      SectionStep s s' kinds (Function.update kinds s.sections .gpio)
  | clear (sections : s'.sections = s.sections + 1)
      (number : s'.number = Function.update s.number s.sections s'.bincount) :
      SectionStep s s' kinds (Function.update kinds s.sections .clr)
  | query (sections : s'.sections = s.sections + 1)
      (number : s'.number = Function.update s.number s.sections s'.bincount)
      (settled : s.clr.cleared = false) (bincount : s'.bincount = s.bincount) :
      SectionStep s s' kinds (Function.update kinds s.sections .query)

variable {cfg : Config} {s s' : Comm} {kinds : Nat → Handler}

/-- A handler inside of its section keeps the clear handler out of its own. -/
theorem SectionInv.not_cleared (hsec : SectionInv s) {u : Handler} (hu : s.inBincount u = true)
    (hne : u ≠ .clr) : s.clr.cleared = false := by
  have hout : s.inBincount .clr = false := hsec.bincount.outside hu hne.symm
  cases hclr : s.clr <;> simp_all [inBincount, ClrPc.cleared]

theorem sectionStep_next {a : Action} (hsec : SectionInv s) (h : next cfg s a = some s') :
    SectionStep s s' kinds (kindNext s a kinds) := by
  cases a with
  | gpio a =>
      cases gpioNext_move h with
      | count gpio counted =>
          have hheld : s.inBincount .gpio = true := by simp only [inBincount, gpio]
          have hsettled := hsec.not_cleared hheld (by decide)
          exact .lift rfl rfl hsettled counted
      | _ => exact .quiet rfl rfl fun h => ⟨h, rfl⟩
  | clr a =>
      cases clrNext_move h with
      | read clr readBack => exact .clear rfl rfl
      | zero clr => exact .quiet rfl rfl fun h => by cases h
      | write clr => exact .quiet rfl rfl fun h => by cases h
      | task clr free => exact .quiet rfl rfl fun _ => ⟨by rw [clr]; rfl, rfl⟩
      | lockBroadcast clr free => exact .quiet rfl rfl fun _ => ⟨by rw [clr]; rfl, rfl⟩
      | push clr client room => exact .quiet rfl rfl fun _ => ⟨by rw [clr]; rfl, rfl⟩
      | broadcastEnd clr last => exact .quiet rfl rfl fun _ => ⟨by rw [clr]; rfl, rfl⟩
  | query a =>
      cases queryNext_move h with
      | read query =>
          have hheld : s.inBincount .query = true := by simp only [inBincount, query]
          have hsettled := hsec.not_cleared hheld (by decide)
          exact .query rfl rfl hsettled rfl
      | _ => exact .quiet rfl rfl fun h => ⟨h, rfl⟩
  | ack a => cases ackNext_move h <;> exact .quiet rfl rfl fun h => ⟨h, rfl⟩
  | manager a => cases managerNext_move h <;> exact .quiet rfl rfl fun h => ⟨h, rfl⟩
  | tcp a => cases tcpNext_move h <;> exact .quiet rfl rfl fun h => ⟨h, rfl⟩

/-- How the number of a section follows from the one before it, and the count
outside of the clear handler's section from the last one. -/
structure NumberHistory (s : Comm) (kinds : Nat → Handler) : Prop where
  current : s.clr.cleared = false → ∀ k, s.sections = k + 1 → s.bincount = s.number k
  lift : ∀ k, k + 1 < s.sections → kinds (k + 1) = .gpio →
    s.number (k + 1) = C.wrap (s.number k + 1)
  query : ∀ k, k + 1 < s.sections → kinds (k + 1) ≠ .gpio → kinds (k + 1) ≠ .clr →
    s.number (k + 1) = s.number k

/-- A section is closed with a number that fits its kind. -/
theorem NumberHistory.close (h : NumberHistory s kinds) (hsections : s'.sections = s.sections + 1)
    (hnumber : s'.number = Function.update s.number s.sections s'.bincount) {u : Handler}
    (hlift : u = .gpio → s.clr.cleared = false ∧ s'.bincount = C.wrap (s.bincount + 1))
    (hquery : u ≠ .gpio → u ≠ .clr → s.clr.cleared = false ∧ s'.bincount = s.bincount) :
    NumberHistory s' (Function.update kinds s.sections u) := by
  have hold {k : Nat} (hk : k < s.sections) : s'.number k = s.number k := by
    rw [hnumber]
    exact Function.update_of_ne hk.ne _ _
  have hlast : s'.number s.sections = s'.bincount := by
    rw [hnumber]
    exact Function.update_self ..
  -- The section before the one that is closed has the number of the count.
  have hbefore {k : Nat} (hk : k + 1 = s.sections) (hsettled : s.clr.cleared = false) :
      s.bincount = s'.number k := by
    rw [hold (by omega)]
    exact h.current hsettled k hk.symm
  constructor
  · intro _ k hk
    have hk : k = s.sections := by omega
    rw [hk, hlast]
  · intro k hk hkind
    rcases Nat.lt_succ_iff_lt_or_eq.mp (hsections ▸ hk) with hlt | heq
    · rw [Function.update_of_ne hlt.ne] at hkind
      rw [hold hlt, hold (by omega)]
      exact h.lift k hlt hkind
    · rw [heq, Function.update_self] at hkind
      obtain ⟨hsettled, hbincount⟩ := hlift hkind
      rw [heq, hlast, hbincount, hbefore heq hsettled]
  · intro k hk hgpio hclr
    rcases Nat.lt_succ_iff_lt_or_eq.mp (hsections ▸ hk) with hlt | heq
    · rw [Function.update_of_ne hlt.ne] at hgpio hclr
      rw [hold hlt, hold (by omega)]
      exact h.query k hlt hgpio hclr
    · rw [heq, Function.update_self] at hgpio hclr
      obtain ⟨hsettled, hbincount⟩ := hquery hgpio hclr
      rw [heq, hlast, hbincount, hbefore heq hsettled]

theorem NumberHistory.step {kinds' : Nat → Handler} (h : NumberHistory s kinds)
    (hstep : SectionStep s s' kinds kinds') : NumberHistory s' kinds' := by
  cases hstep with
  | quiet sections number bincount =>
      constructor
      · intro hsettled k hk
        obtain ⟨hbefore, hsame⟩ := bincount hsettled
        rw [hsame, number]
        exact h.current hbefore k (sections ▸ hk)
      · rw [sections, number]
        exact h.lift
      · rw [sections, number]
        exact h.query
  | lift sections number settled bincount =>
      exact h.close sections number (fun _ => ⟨settled, bincount⟩) fun hne => absurd rfl hne
  | clear sections number => exact h.close sections number nofun fun _ hne => absurd rfl hne
  | query sections number settled bincount =>
      exact h.close sections number nofun fun _ _ => ⟨settled, bincount⟩

/-- Without a clear the numbers count the lifts. -/
theorem NumberHistory.number_eq (h : NumberHistory s kinds) {i j : Nat} (hij : i ≤ j)
    (hj : j < s.sections) (hclear : ∀ k, i < k → k ≤ j → kinds k ≠ .clr) :
    C.wrap (s.number j) = C.wrap (s.number i +
      (Nat.count (kinds · = .gpio) (j + 1) - Nat.count (kinds · = .gpio) (i + 1) : Int)) := by
  induction j, hij using Nat.le_induction with
  | base => rw [Int.sub_self, Int.add_zero]
  | succ j hij ih =>
      have hbefore := ih (by omega) fun k hi hk => hclear k hi (by omega)
      by_cases hkind : kinds (j + 1) = .gpio
      · have hcount : Nat.count (kinds · = .gpio) (j + 1 + 1) =
            Nat.count (kinds · = .gpio) (j + 1) + 1 := by
          rw [Nat.count_succ, if_pos hkind]
        calc
          C.wrap (s.number (j + 1)) = C.wrap (C.wrap (s.number j + 1)) := by
            rw [h.lift j hj hkind]
          _ = C.wrap (s.number j + 1) := Int.bmod_bmod
          _ = C.wrap (C.wrap (s.number j) + 1) := Int.bmod_add_bmod.symm
          _ = C.wrap (C.wrap (s.number i + (Nat.count (kinds · = .gpio) (j + 1) -
              Nat.count (kinds · = .gpio) (i + 1) : Int)) + 1) := by rw [hbefore]
          _ = C.wrap (s.number i + (Nat.count (kinds · = .gpio) (j + 1) -
              Nat.count (kinds · = .gpio) (i + 1) : Int) + 1) := Int.bmod_add_bmod
          _ = _ := by
            rw [hcount]
            congr 1
            push_cast
            ring
      · have hcount : Nat.count (kinds · = .gpio) (j + 1 + 1) =
            Nat.count (kinds · = .gpio) (j + 1) := by
          rw [Nat.count_succ, if_neg hkind, Nat.add_zero]
        rw [h.query j hj hkind (hclear (j + 1) (by omega) le_rfl), hbefore, hcount]

/-- Two lifts with the same number, without a clear or all numbers between them. -/
theorem NumberHistory.unique (h : NumberHistory s kinds) {i j : Nat} (hi : i < s.sections)
    (hj : j < s.sections) (hlifti : kinds i = .gpio) (hliftj : kinds j = .gpio)
    (hnumber : s.number i = s.number j) (hclear : NoClearBetween kinds i j)
    (hlifts : liftsBetween kinds i j < 4294967296) : i = j := by
  wlog hij : i ≤ j generalizing i j with hswap
  · rw [NoClearBetween, min_comm, max_comm] at hclear
    rw [liftsBetween, min_comm, max_comm] at hlifts
    exact (hswap hj hi hliftj hlifti hnumber.symm hclear hlifts (by omega)).symm
  · rw [NoClearBetween, min_eq_left hij, max_eq_right hij] at hclear
    rw [liftsBetween, min_eq_left hij, max_eq_right hij] at hlifts
    by_contra hne
    -- The later lift is counted itself.
    have hpos : Nat.count (kinds · = .gpio) (i + 1) < Nat.count (kinds · = .gpio) (j + 1) := by
      have hmono := Nat.count_monotone (kinds · = .gpio) (show i + 1 ≤ j by omega)
      rw [Nat.count_succ _ j, if_pos hliftj]
      omega
    have hwrap := h.number_eq hij hj hclear
    rw [hnumber] at hwrap
    have hdvd := Int.bmod_eq_bmod_iff_bmod_sub_eq_zero.mp hwrap
    rw [← Int.dvd_iff_bmod_eq_zero] at hdvd
    omega

/-- What was announced stays announced. -/
structure Grows (s s' : Comm) : Prop where
  sections : s.sections ≤ s'.sections
  number : ∀ k < s.sections, s'.number k = s.number k
  announced : s.announced ⊆ s'.announced
  resent : s.resent ⊆ s'.resent

theorem Grows.same (hsections : s'.sections = s.sections) (hnumber : s'.number = s.number)
    (hannounced : s.announced ⊆ s'.announced) (hresent : s.resent ⊆ s'.resent) : Grows s s' where
  sections := hsections.ge
  number k _ := by rw [hnumber]
  announced := hannounced
  resent := hresent

theorem Grows.close {number : Int} (hsections : s'.sections = s.sections + 1)
    (hnumber : s'.number = Function.update s.number s.sections number)
    (hannounced : s'.announced = s.announced) (hresent : s'.resent = s.resent) : Grows s s' where
  sections := by omega
  number k hk := by
    rw [hnumber]
    exact Function.update_of_ne hk.ne _ _
  announced := by rw [hannounced]; exact List.Subset.refl _
  resent := by rw [hresent]; exact List.Subset.refl _

theorem grows_next {a : Action} (h : next cfg s a = some s') : Grows s s' := by
  have hrefl : Grows s s := .same rfl rfl (List.Subset.refl _) (List.Subset.refl _)
  cases a with
  | gpio a =>
      cases gpioNext_move h with
      | count gpio counted => exact .close rfl rfl rfl rfl
      | push gpio client room =>
          exact .same rfl rfl (List.subset_append_left _ _) (List.Subset.refl _)
      | _ => exact ⟨hrefl.sections, hrefl.number, hrefl.announced, hrefl.resent⟩
  | clr a =>
      cases clrNext_move h with
      | read clr readBack => exact .close rfl rfl rfl rfl
      | push clr client room =>
          exact .same rfl rfl (List.subset_append_left _ _) (List.Subset.refl _)
      | _ => exact ⟨hrefl.sections, hrefl.number, hrefl.announced, hrefl.resent⟩
  | query a =>
      cases queryNext_move h with
      | read query => exact .close rfl rfl rfl rfl
      | push query room =>
          exact .same rfl rfl (List.subset_append_left _ _) (List.Subset.refl _)
      | task query free => exact ⟨hrefl.sections, hrefl.number, hrefl.announced, hrefl.resent⟩
  | ack a =>
      cases ackNext_move h <;>
        exact ⟨hrefl.sections, hrefl.number, hrefl.announced, hrefl.resent⟩
  | manager a =>
      cases managerNext_move h with
      | resend manager node isOpen due room =>
          exact .same rfl rfl (List.Subset.refl _) (List.subset_append_left _ _)
      | _ => exact ⟨hrefl.sections, hrefl.number, hrefl.announced, hrefl.resent⟩
  | tcp a =>
      cases tcpNext_move h <;>
        exact ⟨hrefl.sections, hrefl.number, hrefl.announced, hrefl.resent⟩

theorem kindNext_of_lt {a : Action} {k : Nat} (hk : k < s.sections) :
    kindNext s a kinds k = kinds k := by
  unfold kindNext
  split
  · exact Function.update_of_ne hk.ne _ _
  · exact Function.update_of_ne hk.ne _ _
  · exact Function.update_of_ne hk.ne _ _
  · rfl

/-- A closed section of `gpio_change_callback`. -/
def IsLift (s : Comm) (kinds : Nat → Handler) (seq : Nat) : Prop :=
  seq < s.sections ∧ kinds seq = .gpio

/-- A client answered a closed section whose announcement was sent to it. -/
def Answered (s : Comm) (task : AckTask) : Prop :=
  ∀ seq ∈ task.answers, seq < s.sections ∧ s.number seq = task.bincount ∧
    s.Transmitted task.fd seq

/-- What the handlers work on belongs to closed sections: the callback and the
entries to lifts, the acknowledgement to something sent. -/
structure EventInv (s : Comm) (kinds : Nat → Handler) : Prop where
  gpio : ∀ a, s.gpio.announcement = some a → IsLift s kinds a.seq
  node : ∀ e ∈ s.pending, e.node < s.fresh
  pending : ∀ e ∈ s.pending, IsLift s kinds (s.event e.node)
  resent : ∀ x ∈ s.resent, x.2 < s.sections
  task : ∀ task, s.ackTask = some task → Answered s task

theorem Grows.isLift (h : Grows s s') {a : Action} {seq : Nat} (hlift : IsLift s kinds seq) :
    IsLift s' (kindNext s a kinds) seq :=
  ⟨hlift.1.trans_le h.sections, (kindNext_of_lt hlift.1).trans hlift.2⟩

theorem Grows.answered (h : Grows s s') {task : AckTask} (ht : Answered s task) :
    Answered s' task := by
  intro seq hseq
  obtain ⟨hlt, hnumber, hsent⟩ := ht seq hseq
  refine ⟨hlt.trans_le h.sections, by rw [h.number seq hlt, hnumber], ?_⟩
  rcases hsent with hsent | hsent
  · exact .inl (List.map_subset _ h.announced hsent)
  · exact .inr (h.resent hsent)

/-- A step that keeps the entries, the resends and the task. -/
theorem EventInv.keep (hinv : EventInv s kinds) {a : Action} (hgrows : Grows s s')
    (hgpio : ∀ b, s'.gpio.announcement = some b → IsLift s' (kindNext s a kinds) b.seq)
    (hpending : s'.pending = s.pending) (hfresh : s'.fresh = s.fresh) (hevent : s'.event = s.event)
    (hresent : s'.resent = s.resent) (hack : s'.ack = s.ack) :
    EventInv s' (kindNext s a kinds) where
  gpio := hgpio
  node := by
    rw [hpending, hfresh]
    exact hinv.node
  pending := by
    rw [hpending, hevent]
    exact fun e he => hgrows.isLift (hinv.pending e he)
  resent := by
    rw [hresent]
    exact fun x hx => (hinv.resent x hx).trans_le hgrows.sections
  task task ht := by
    rw [ackTask, hack] at ht
    exact hgrows.answered (hinv.task task ht)

theorem GpioMove.eventInv {a : GpioAct} (hinv : EventInv s kinds) (hgrows : Grows s s')
    (h : GpioMove cfg s a s') : EventInv s' (kindNext s (.gpio a) kinds) := by
  cases h with
  | count gpio counted =>
      refine hinv.keep hgrows ?_ rfl rfl rfl rfl rfl
      rintro _ ⟨⟩
      exact ⟨Nat.lt_succ_self _, Function.update_self ..⟩
  | @add a call clist gpio =>
      have hlift : IsLift s kinds a.seq := hinv.gpio a (by simp only [gpio, GpioPc.announcement])
      refine ⟨?_, ?_, ?_, hinv.resent, hinv.task⟩
      · rintro _ ⟨⟩
        exact hlift
      · intro e he
        rcases mem_of_mem_addPending he with rfl | he
        · exact Nat.lt_succ_self s.fresh
        · exact Nat.lt_succ_of_lt (hinv.node e he)
      · intro e he
        rcases mem_of_mem_addPending he with rfl | he
        · change IsLift _ _ (Function.update s.event s.fresh a.seq s.fresh)
          rw [Function.update_self]
          exact hlift
        · simp only [Function.update_of_ne (hinv.node e he).ne]
          exact hinv.pending e he
  | _ =>
      refine hinv.keep hgrows (fun b hb => hgrows.isLift (hinv.gpio b ?_)) rfl rfl rfl rfl rfl
      simp_all [GpioPc.announcement]

theorem AckMove.eventInv {a : AckAct} (hinv : EventInv s kinds)
    (hissued : Issued s) (h : AckMove s a s') : EventInv s' kinds := by
  cases h with
  | @task task ack answers =>
      refine ⟨hinv.gpio, hinv.node, hinv.pending, hinv.resent, ?_⟩
      rintro _ ⟨⟩ seq hseq
      obtain ⟨hnumber, hsent⟩ := answers seq hseq
      refine ⟨?_, hnumber, hsent⟩
      rcases hsent with hmem | hmem
      · obtain ⟨x, hx, heq⟩ := List.mem_map.mp hmem
        exact (Prod.mk.inj heq).2 ▸ hissued.announced x hx
      · exact hinv.resent _ hmem
  | @lock task ack free =>
      refine ⟨hinv.gpio, hinv.node, hinv.pending, hinv.resent, ?_⟩
      rintro _ ⟨⟩
      exact hinv.task task (by simp only [ackTask, ack])
  | @search task ack =>
      refine ⟨hinv.gpio, ?_, ?_, hinv.resent, ?_⟩
      · intro q hq
        obtain ⟨e, he, hev⟩ := evolves_of_mem_ackFirst hq
        exact hev.node ▸ hinv.node e he
      · intro q hq
        obtain ⟨e, he, hev⟩ := evolves_of_mem_ackFirst hq
        exact hev.node ▸ hinv.pending e he
      · rintro _ ⟨⟩

theorem ManagerMove.eventInv {a : ManagerAct} (hinv : EventInv s kinds)
    (h : ManagerMove cfg s a s') : EventInv s' kinds := by
  have hframe : s'.fresh = s.fresh ∧ s'.event = s.event ∧ s'.sections = s.sections := by
    cases h <;> exact ⟨rfl, rfl, rfl⟩
  obtain ⟨hfresh, hevent, hsections⟩ := hframe
  have hpending : ∀ q ∈ s'.pending, q.node < s'.fresh ∧ IsLift s' kinds (s'.event q.node) := by
    intro q hq
    obtain ⟨e, he, hev⟩ := h.mem_pending hq
    rw [hev.node, hfresh, hevent, IsLift, hsections]
    exact ⟨hinv.node e he, hinv.pending e he⟩
  have hnode := fun q hq => (hpending q hq).1
  have hlift := fun q hq => (hpending q hq).2
  cases h with
  | @resend now pos e manager node isOpen due room =>
      refine ⟨hinv.gpio, hnode, hlift, ?_, ?_⟩
      · intro x hx
        rcases List.mem_append.mp hx with hold | hnew
        · exact hinv.resent x hold
        · cases List.mem_singleton.mp hnew
          exact (hinv.pending e (List.mem_of_getElem? node)).1
      · intro task ht seq hseq
        obtain ⟨hlt, hnumber, hsent⟩ := hinv.task task ht seq hseq
        exact ⟨hlt, hnumber, hsent.imp_right (List.mem_append_left _)⟩
  | _ => exact ⟨hinv.gpio, hnode, hlift, hinv.resent, hinv.task⟩

theorem EventInv.next {a : Action} (hinv : EventInv s kinds) (hissued : Issued s)
    (h : next cfg s a = some s') : EventInv s' (kindNext s a kinds) := by
  have hgrows := grows_next h
  cases a with
  | gpio a => exact (gpioNext_move h).eventInv hinv hgrows
  | clr a =>
      cases clrNext_move h <;>
        exact hinv.keep hgrows (fun b hb => hgrows.isLift (hinv.gpio b hb)) rfl rfl rfl rfl rfl
  | query a =>
      cases queryNext_move h <;>
        exact hinv.keep hgrows (fun b hb => hgrows.isLift (hinv.gpio b hb)) rfl rfl rfl rfl rfl
  | ack a => exact (ackNext_move h).eventInv hinv hissued
  | manager a => exact (managerNext_move h).eventInv hinv
  | tcp a =>
      cases tcpNext_move h <;>
        exact hinv.keep hgrows (fun b hb => hgrows.isLift (hinv.gpio b hb)) rfl rfl rfl rfl rfl

theorem historyInv_of_reachable {kinds : Nat → Handler}
    (h : (sectioned cfg).Reachable (s, kinds)) :
    NumberHistory s kinds ∧ EventInv s kinds ∧ (system cfg).Reachable s := by
  apply h.invariant (P := fun p =>
    NumberHistory p.1 p.2 ∧ EventInv p.1 p.2 ∧ (system cfg).Reachable p.1)
  · rintro ⟨s, kinds⟩ ⟨⟨bincount, file, hs⟩, hkinds⟩
    refine ⟨?_, ?_, .of_init ⟨bincount, file, hs⟩⟩
    · subst hs
      constructor <;> simp [start]
    · subst hs
      constructor <;> simp [start, ackTask, GpioPc.announcement]
  · rintro ⟨s, kinds⟩ a ⟨t, kinds'⟩ - hn ⟨hhistory, hevents, hreach⟩
    obtain ⟨hnext, hkinds⟩ := System.auxiliary_next hn
    dsimp only at hnext hkinds
    subst hkinds
    exact ⟨hhistory.step (sectionStep_next (sectionInv_of_reachable hreach) hnext),
      hevents.next (issued_of_reachable hreach) hnext, hreach.next trivial hnext⟩

/-- An entry is marked by an acknowledgement of its client that names its number.
What such an acknowledgement answers was sent with that number; a lift among
that is the one of the entry if the entry has its own number and no clear, nor
so many lifts that the numbers start again, came between. -/
theorem acks_match_numbers {kinds : Nat → Handler} (h : (sectioned cfg).Reachable (s, kinds))
    {task : AckTask} (hack : s.ack = .searching task) (hn : next cfg s (.ack .search) = some s')
    {i : Nat} {e e' : PendingAck} (he : s.pending[i]? = some e) (he' : s'.pending[i]? = some e')
    (hset : e' ≠ e) :
    e' = { e with acked := true } ∧ e.clientFd = task.fd ∧ e.bincount = task.bincount ∧
      ∀ seq ∈ task.answers, s.Transmitted e.clientFd seq ∧ s.number seq = e.bincount ∧
        (kinds seq = .gpio → s.number (s.event e.node) = e.bincount →
          NoClearBetween kinds (s.event e.node) seq →
          liftsBetween kinds (s.event e.node) seq < 4294967296 → seq = s.event e.node) := by
  obtain ⟨hhistory, hevents, -⟩ := historyInv_of_reachable h
  have hmove : AckMove s .search s' := ackNext_move hn
  have hpending : s'.pending = ackFirst task.fd task.bincount s.pending := by
    cases hmove with
    | @search t ack =>
        cases hack.symm.trans ack
        rfl
  rw [hpending] at he'
  obtain ⟨hfd, hbincount, hmarked⟩ := (getElem?_ackFirst he he').resolve_left hset
  refine ⟨hmarked, hfd, hbincount, fun seq hseq => ?_⟩
  obtain ⟨hlt, hnumber, hsent⟩ := hevents.task task (by simp only [ackTask, hack]) seq hseq
  refine ⟨hfd ▸ hsent, hnumber.trans hbincount.symm, fun hlift hown hclear hlifts => ?_⟩
  obtain ⟨hevent, hkind⟩ := hevents.pending e (List.mem_of_getElem? he)
  have hsame : s.number (s.event e.node) = s.number seq := by rw [hown, hnumber, hbincount]
  exact (hhistory.unique hevent hlt hkind hlift hsame hclear hlifts).symm

theorem noClearBetween_self (kinds : Nat → Handler) (i : Nat) : NoClearBetween kinds i i := by
  intro k hlo hhi
  rw [min_self] at hlo
  rw [max_self] at hhi
  omega

theorem liftsBetween_self (kinds : Nat → Handler) (i : Nat) : liftsBetween kinds i i = 0 := by
  rw [liftsBetween, min_self, max_self, Nat.sub_self]

/-- The acknowledgement of the first lift marks its entry, and is its answer. -/
theorem acks_match_numbers_answeredLift :
    ∃ s kinds s' e, (sectioned unit4711).Reachable (s, kinds) ∧
      next unit4711 s (.ack .search) = some s' ∧ s.pending = [e] ∧
      s'.pending = [{ e with acked := true }] ∧ s.Transmitted e.clientFd 0 ∧
      s.number 0 = e.bincount ∧ 0 = s.event e.node := by
  have hinit : (sectioned unit4711).init (start 0 none, fun _ => .query) := ⟨⟨0, none, rfl⟩, rfl⟩
  obtain ⟨s, kinds, s', e, hreach, hack, hn, he, hunmarked, he', hkind, hevent, hown⟩ :
      ∃ s kinds s' e, (sectioned unit4711).Reachable (s, kinds) ∧
        s.ack = .searching { fd := 6, bincount := 1, answers := some 0 } ∧
        next unit4711 s (.ack .search) = some s' ∧ s.pending = [e] ∧ e.acked = false ∧
        s'.pending = [{ e with acked := true }] ∧ kinds 0 = .gpio ∧ s.event e.node = 0 ∧
        s.number 0 = e.bincount :=
    ⟨_, _, _, _, System.reachable_of_exec answeredLift hinit rfl, rfl, rfl, rfl, rfl, rfl, rfl, rfl,
      rfl⟩
  have hset : { e with acked := true } ≠ e := by
    intro h
    rw [← h] at hunmarked
    cases hunmarked
  obtain ⟨-, -, -, hanswer⟩ := acks_match_numbers hreach hack hn (i := 0) (by rw [he]; rfl)
    (by rw [he']; rfl) hset
  obtain ⟨hsent, hnumber, hsame⟩ := hanswer 0 rfl
  refine ⟨s, kinds, s', e, hreach, hn, he, he', hsent, hnumber, ?_⟩
  apply hsame hkind (hevent ▸ hown)
  · rw [hevent]
    exact noClearBetween_self kinds 0
  · rw [hevent, liftsBetween_self]
    decide

/-- A lift, a clear and a lift with the same number, whose entry is in the list
when the acknowledgement of the first lift is processed. -/
def staleAnswer : List Action :=
  firstLift ++ [.gpio .done, .clr .task, .clr .zero, .clr (.write true), .clr (.read true),
    .clr .lockClients, .clr .push, .clr .broadcastEnd, .gpio .lift, .gpio (.count true),
    .gpio .lockClients, .gpio .push, .gpio .broadcastEnd, .gpio .lockClients, .gpio (.list true),
    .gpio (.call 0), .gpio .lockPending, .gpio .add,
    .ack (.task { fd := 6, bincount := 1, answers := some 0 }), .ack .lock]

/-- The acknowledgement of the lift in section 0 marks the entry of the lift in
section 2. -/
theorem stale_answer_marks :
    ∃ s s' e, (system unit4711).Reachable s ∧
      s.ack = .searching { fd := 6, bincount := 1, answers := some 0 } ∧
      next unit4711 s (.ack .search) = some s' ∧ s.pending = [e] ∧ e.acked = false ∧
      s.event e.node = 2 ∧ s'.pending = [{ e with acked := true }] :=
  ⟨_, _, _, System.reachable_of_exec staleAnswer ⟨0, none, rfl⟩ rfl, rfl, rfl, rfl, rfl, rfl, rfl⟩

end Comm

end SgMuni
