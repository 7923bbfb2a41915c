import SgMuni.Request.Tasks

/-!
# Tasks change hands

Every task that a thread can reach is in one place only: with `on_message`
before the push, in a queue, or with the handler that popped it. The place
decides who may free it. The last `log` statement of `on_message` comes after
the push, when the task is another thread's.
-/

namespace SgMuni

namespace Tasks

open Transition

variable {s s' : Tasks}

/-- Where a task can be. -/
inductive Place
  | worker
  | queue (q : TaskQueue)
  | handler (q : TaskQueue)

def At (s : Tasks) (t : Nat) : Place → Prop
  | .worker => owned s.worker = some t
  | .queue q => t ∈ s.queue q
  | .handler q => handled (s.handler q) = some t

/-- Every task that somebody can reach is live and in one place only. -/
structure Placed (s : Tasks) : Prop where
  unique : ∀ t p r, s.At t p → s.At t r → p = r
  nodup : ∀ q, (s.queue q).Nodup
  live : ∀ t p, s.At t p → t < s.fresh ∧ (s.heap t).live = true

/-- From `s` to `s'` the task `t` goes to the place `p`, or is freed, and the
other tasks stay. -/
structure Moved (s s' : Tasks) (t : Nat) (p : Option Place) : Prop where
  place : ∀ u r, s'.At u r → (u = t ∧ p = some r) ∨ (u ≠ t ∧ s.At u r)
  heap : ∀ u, u ≠ t → (s'.heap u).live = (s.heap u).live
  fresh : s.fresh ≤ s'.fresh
  live : p ≠ none → t < s'.fresh ∧ (s'.heap t).live = true

theorem Placed.ne_of_at (h : s.Placed) {t u : Nat} {p : Place} (hat : s.At t p) (r : Place)
    (hu : s.At u r) (hne : r ≠ p) : u ≠ t := by
  rintro rfl
  exact hne (h.unique u r p hu hat)

theorem Placed.moved {t : Nat} {p : Option Place} (h : s.Placed) (hmoved : Moved s s' t p)
    (hnodup : ∀ q, (s'.queue q).Nodup) : s'.Placed where
  unique u r r' hr hr' := by
    rcases hmoved.place u r hr with ⟨rfl, hp⟩ | ⟨hne, hat⟩
    · rcases hmoved.place u r' hr' with ⟨-, hp'⟩ | ⟨hne, -⟩
      · exact Option.some.inj (hp.symm.trans hp')
      · exact absurd rfl hne
    · rcases hmoved.place u r' hr' with ⟨rfl, -⟩ | ⟨-, hat'⟩
      · exact absurd rfl hne
      · exact h.unique u r r' hat hat'
  nodup := hnodup
  live u r hr := by
    rcases hmoved.place u r hr with ⟨rfl, hp⟩ | ⟨hne, hat⟩
    · exact hmoved.live (by rw [hp]; exact Option.some_ne_none r)
    · obtain ⟨hlt, hlive⟩ := h.live u r hat
      exact ⟨Nat.lt_of_lt_of_le hlt hmoved.fresh, (hmoved.heap u hne).trans hlive⟩

section Places

variable {t : Nat} {q : TaskQueue}

theorem moved_receive (h : s.Placed) (type : MsgType) (request : ClientRequest) :
    Moved s
      { s with
        heap := Function.update s.heap s.fresh { request := request, live := true }
        fresh := s.fresh + 1
        worker := .logType s.fresh type } s.fresh (some .worker) where
  place u r hu := by
    have hold : s.At u r → u ≠ s.fresh := fun hat => (h.live u r hat).1.ne
    cases r with
    | worker => exact .inl ⟨(Option.some.inj hu).symm, rfl⟩
    | queue q => exact .inr ⟨hold hu, hu⟩
    | handler q => exact .inr ⟨hold hu, hu⟩
  heap u hu := by simp [Function.update_of_ne hu]
  fresh := Nat.le_succ _
  live _ := ⟨Nat.lt_succ_self _, by simp⟩

theorem at_worker_of_push (hworker : s.worker = .pushing t q ∨ s.worker = .waiting t q) :
    s.At t .worker := by
  rcases hworker with hworker | hworker <;> simp [At, hworker, owned]

theorem moved_push (h : s.Placed) (hat : s.At t .worker) :
    Moved s
      { s with
        queue := Function.update s.queue q (s.queue q ++ [t])
        worker := .logPushed t } t (some (.queue q)) where
  place u r hu := by
    cases r with
    | worker => cases hu
    | queue r =>
        by_cases hr : r = q
        · subst hr
          have hu' : u ∈ s.queue r ++ [t] := by simpa only [At, Function.update_self] using hu
          rcases List.mem_append.mp hu' with hmem | hmem
          · exact .inr ⟨h.ne_of_at hat (.queue r) hmem nofun, hmem⟩
          · exact .inl ⟨List.mem_singleton.mp hmem, rfl⟩
        · have hmem : s.At u (.queue r) := by
            simpa only [At, Function.update_of_ne hr] using hu
          exact .inr ⟨h.ne_of_at hat (.queue r) hmem nofun, hmem⟩
    | handler r => exact .inr ⟨h.ne_of_at hat (.handler r) hu nofun, hu⟩
  heap _ _ := rfl
  fresh := le_rfl
  live _ := h.live t .worker hat

theorem moved_pop {rest : List Nat} (h : s.Placed) (hqueue : s.queue q = t :: rest) :
    Moved s
      { s with
        queue := Function.update s.queue q rest
        handler := Function.update s.handler q (.running t q.script) } t
      (some (.handler q)) where
  place u r hu := by
    have hat : s.At t (.queue q) := by simp [At, hqueue]
    cases r with
    | worker => exact .inr ⟨h.ne_of_at hat .worker hu nofun, hu⟩
    | queue r =>
        by_cases hr : r = q
        · subst hr
          have hmem : u ∈ rest := by simpa only [At, Function.update_self] using hu
          have hnodup := h.nodup r
          rw [hqueue, List.nodup_cons] at hnodup
          refine .inr ⟨fun hut => hnodup.1 (hut ▸ hmem), ?_⟩
          simp [At, hqueue, hmem]
        · have hmem : s.At u (.queue r) := by
            simpa only [At, Function.update_of_ne hr] using hu
          exact .inr ⟨h.ne_of_at hat (.queue r) hmem (by simpa using hr), hmem⟩
    | handler r =>
        by_cases hr : r = q
        · subst hr
          simp only [At, Function.update_self, handled, Option.some.injEq] at hu
          exact .inl ⟨hu.symm, rfl⟩
        · have hmem : s.At u (.handler r) := by
            simpa only [At, Function.update_of_ne hr] using hu
          exact .inr ⟨h.ne_of_at hat (.handler r) hmem nofun, hmem⟩
  heap _ _ := rfl
  fresh := le_rfl
  live _ := h.live t (.queue q) (by simp [At, hqueue])

theorem moved_freeTask (h : s.Placed) (hworker : s.worker = .freeing t) :
    Moved s { s.release t with worker := .idle } t none where
  place u r hu := by
    have hat : s.At t .worker := by simp [At, hworker, owned]
    cases r with
    | worker => cases hu
    | queue r => exact .inr ⟨h.ne_of_at hat (.queue r) hu nofun, hu⟩
    | handler r => exact .inr ⟨h.ne_of_at hat (.handler r) hu nofun, hu⟩
  heap u hu := by simp [release, Function.update_of_ne hu]
  fresh := le_rfl
  live h := absurd rfl h

theorem moved_freeHandled (h : s.Placed) (hhandler : s.handler q = .running t []) :
    Moved s { s.release t with handler := Function.update s.handler q .idle } t none where
  place u r hu := by
    have hat : s.At t (.handler q) := by simp [At, hhandler, handled]
    cases r with
    | worker => exact .inr ⟨h.ne_of_at hat .worker hu nofun, hu⟩
    | queue r => exact .inr ⟨h.ne_of_at hat (.queue r) hu nofun, hu⟩
    | handler r =>
        by_cases hr : r = q
        · subst hr
          simp [At, handled] at hu
        · have hmem : s.At u (.handler r) := by
            simpa only [At, Function.update_of_ne hr] using hu
          exact .inr ⟨h.ne_of_at hat (.handler r) hmem (by simpa using hr), hmem⟩
  heap u hu := by simp [release, Function.update_of_ne hu]
  fresh := le_rfl
  live h := absurd rfl h

end Places

theorem Placed.nodup_push {t : Nat} {q : TaskQueue} (h : s.Placed) (hat : s.At t .worker)
    (r : TaskQueue) : (Function.update s.queue q (s.queue q ++ [t]) r).Nodup := by
  by_cases hr : r = q
  · subst hr
    have hnew : t ∉ s.queue r := fun hmem => nomatch h.unique t _ (.queue r) hat hmem
    simp only [Function.update_self, List.nodup_append, h.nodup r, true_and]
    refine ⟨List.nodup_singleton t, fun u hu v hv => ?_⟩
    rw [List.mem_singleton.mp hv]
    exact fun huv => hnew (huv ▸ hu)
  · simpa only [Function.update_of_ne hr] using h.nodup r

theorem Placed.nodup_pop {t : Nat} {q : TaskQueue} {rest : List Nat} (h : s.Placed)
    (hqueue : s.queue q = t :: rest) (r : TaskQueue) :
    (Function.update s.queue q rest r).Nodup := by
  by_cases hr : r = q
  · subst hr
    have hnodup := h.nodup r
    rw [hqueue, List.nodup_cons] at hnodup
    simpa only [Function.update_self] using hnodup.2
  · simpa only [Function.update_of_ne hr] using h.nodup r

section Ledger

def frees (log : List Use) : List (Party × Nat) :=
  log.filterMap fun
    | .freed party t => some (party, t)
    | _ => none

def pushes (log : List Use) : List (TaskQueue × Nat) :=
  log.filterMap fun
    | .pushed q t => some (q, t)
    | _ => none

def pops (log : List Use) : List (TaskQueue × Nat) :=
  log.filterMap fun
    | .popped q t => some (q, t)
    | _ => none

@[simp] theorem frees_append (log more : List Use) : frees (log ++ more) = frees log ++ frees more :=
  List.filterMap_append

@[simp] theorem pushes_append (log more : List Use) :
    pushes (log ++ more) = pushes log ++ pushes more :=
  List.filterMap_append

@[simp] theorem pops_append (log more : List Use) : pops (log ++ more) = pops log ++ pops more :=
  List.filterMap_append

/-- The events pass no task on. -/
structure OnlyReads (events : List Use) : Prop where
  frees : frees events = []
  pushes : pushes events = []
  pops : pops events = []

/-- The ways in which a task is passed on, with the events reported. -/
inductive Pass (s : Tasks) : Nat → Option Place → List Use → Prop
  | receive : Pass s s.fresh (some .worker) []
  | push {t : Nat} {q : TaskQueue} (own : s.At t .worker) :
      Pass s t (some (.queue q)) [.pushed q t]
  | pop {t : Nat} {q : TaskQueue} (queued : s.At t (.queue q)) :
      Pass s t (some (.handler q)) [.popped q t]
  | freeTask {t : Nat} (own : s.At t .worker) : Pass s t none [.freed .worker t]
  | freeHandled {t : Nat} {q : TaskQueue} (held : s.At t (.handler q)) :
      Pass s t none [.freed (.handler q) t]

/-- The history agrees with the places: what was freed is nowhere, what was
pushed is not `on_message`'s any more, and handlers free what they popped. -/
structure Inv (s : Tasks) (log : List Use) : Prop where
  placed : s.Placed
  freed : ∀ x ∈ frees log, x.2 < s.fresh ∧ ∀ r, ¬s.At x.2 r
  once : ((frees log).map (·.2)).Nodup
  pushed : ∀ x ∈ pushes log, x.2 < s.fresh ∧ ¬s.At x.2 .worker
  byWorker : ∀ t, (.worker, t) ∈ frees log → ∀ q, (q, t) ∉ pushes log
  popped : ∀ q t, s.At t (.handler q) → (q, t) ∈ pops log
  byHandler : ∀ q t, (.handler q, t) ∈ frees log → (q, t) ∈ pops log

variable {log events : List Use}

theorem Inv.quiet (h : s.Inv log) (hplace : ∀ u r, s'.At u r → s.At u r)
    (hheap : s'.heap = s.heap) (hfresh : s'.fresh = s.fresh) (hqueue : s'.queue = s.queue)
    (hevents : OnlyReads events) : s'.Inv (log ++ events) := by
  constructor
  · constructor
    · exact fun t p r hp hr => h.placed.unique t p r (hplace t p hp) (hplace t r hr)
    · exact hqueue ▸ h.placed.nodup
    · intro t p hp
      rw [hheap, hfresh]
      exact h.placed.live t p (hplace t p hp)
  · rw [frees_append, hevents.frees, List.append_nil, hfresh]
    exact fun x hx => ⟨(h.freed x hx).1, fun r hr => (h.freed x hx).2 r (hplace _ r hr)⟩
  · rw [frees_append, hevents.frees, List.append_nil]
    exact h.once
  · rw [pushes_append, hevents.pushes, List.append_nil, hfresh]
    exact fun x hx => ⟨(h.pushed x hx).1, fun hr => (h.pushed x hx).2 (hplace _ _ hr)⟩
  · rw [frees_append, pushes_append, hevents.frees, hevents.pushes, List.append_nil,
      List.append_nil]
    exact h.byWorker
  · rw [pops_append, hevents.pops, List.append_nil]
    exact fun q t ht => h.popped q t (hplace t _ ht)
  · rw [frees_append, pops_append, hevents.frees, hevents.pops, List.append_nil, List.append_nil]
    exact h.byHandler

theorem Moved.at_self {t : Nat} {p : Option Place} {r : Place} (h : Moved s s' t p)
    (hat : s'.At t r) : p = some r := by
  rcases h.place t r hat with ⟨-, hp⟩ | ⟨hne, -⟩
  · exact hp
  · exact absurd rfl hne

section Passing

variable {t : Nat} {p : Option Place} (hpass : Pass s t p events) (h : s.Inv log)

theorem Pass.frees_cases (hpass : Pass s t p events) :
    frees events = [] ∨ p = none ∧ ∃ party, frees events = [(party, t)] := by
  cases hpass with
  | freeTask own => exact .inr ⟨rfl, _, rfl⟩
  | freeHandled held => exact .inr ⟨rfl, _, rfl⟩
  | _ => exact .inl rfl

include hpass h

/-- A task that is passed on was not freed before. -/
theorem Pass.not_freed {party : Party} : (party, t) ∉ frees log := by
  intro hmem
  obtain ⟨hlt, hnowhere⟩ := h.freed _ hmem
  cases hpass with
  | receive => exact absurd hlt (Nat.lt_irrefl _)
  | push own => exact hnowhere _ own
  | pop queued => exact hnowhere _ queued
  | freeTask own => exact hnowhere _ own
  | freeHandled held => exact hnowhere _ held

theorem Pass.once : ((frees (log ++ events)).map (·.2)).Nodup := by
  rcases hpass.frees_cases with hnone | ⟨rfl, party, hfrees⟩
  · rw [frees_append, hnone, List.append_nil]
    exact h.once
  · have hnew : t ∉ (frees log).map (·.2) := by
      intro hmem
      obtain ⟨x, hx, rfl⟩ := List.mem_map.mp hmem
      exact hpass.not_freed h hx
    rw [frees_append, hfrees, List.map_append, List.map_singleton, List.nodup_append]
    refine ⟨h.once, List.nodup_singleton _, fun u hu v hv => ?_⟩
    rw [List.mem_singleton.mp hv]
    rintro rfl
    exact hnew hu

/-- What `on_message` pushes it has not freed, and it frees nothing that it has
pushed. -/
theorem Pass.byWorker {u : Nat} (hu : (.worker, u) ∈ frees (log ++ events))
    (q : TaskQueue) : (q, u) ∉ pushes (log ++ events) := by
  intro hq
  rw [frees_append, List.mem_append] at hu
  rw [pushes_append, List.mem_append] at hq
  cases hpass with
  | push own =>
      rcases hq with hq | hq
      · exact h.byWorker u (hu.resolve_right nofun) q hq
      · cases List.mem_singleton.mp hq
        exact (h.freed _ (hu.resolve_right nofun)).2 _ own
  | freeTask own =>
      rcases hu with hu | hu
      · exact h.byWorker u hu q (hq.resolve_right nofun)
      · cases List.mem_singleton.mp hu
        exact (h.pushed _ (hq.resolve_right nofun)).2 own
  | freeHandled held =>
      refine h.byWorker u (hu.resolve_right fun hu => ?_) q (hq.resolve_right nofun)
      cases List.mem_singleton.mp hu
  | _ => exact h.byWorker u (hu.resolve_right nofun) q (hq.resolve_right nofun)

theorem Pass.byHandler {q : TaskQueue} {u : Nat}
    (hu : (.handler q, u) ∈ frees (log ++ events)) : (q, u) ∈ pops (log ++ events) := by
  rw [frees_append, List.mem_append] at hu
  rw [pops_append, List.mem_append]
  rcases hu with hu | hu
  · exact .inl (h.byHandler q u hu)
  · cases hpass with
    | freeHandled held =>
        cases List.mem_singleton.mp hu
        exact .inl (h.popped _ _ held)
    | freeTask own => cases List.mem_singleton.mp hu
    | _ => cases hu

variable (hmoved : Moved s s' t p)

include hmoved

theorem Pass.lt_fresh : t < s'.fresh := by
  cases hpass with
  | freeTask own => exact Nat.lt_of_lt_of_le (h.placed.live t _ own).1 hmoved.fresh
  | freeHandled held => exact Nat.lt_of_lt_of_le (h.placed.live t _ held).1 hmoved.fresh
  | _ => exact (hmoved.live nofun).1

theorem Pass.freed {x : Party × Nat} (hx : x ∈ frees (log ++ events)) :
    x.2 < s'.fresh ∧ ∀ r, ¬s'.At x.2 r := by
  rcases List.mem_append.mp (frees_append log events ▸ hx) with hold | hnew
  · obtain ⟨hfresh, hnowhere⟩ := h.freed x hold
    refine ⟨Nat.lt_of_lt_of_le hfresh hmoved.fresh, fun r hr => ?_⟩
    rcases hmoved.place x.2 r hr with ⟨rfl, -⟩ | ⟨-, hat⟩
    · exact hpass.not_freed h hold
    · exact hnowhere r hat
  · rcases hpass.frees_cases with hnone | ⟨rfl, party, hfrees⟩
    · simp [hnone] at hnew
    · rw [hfrees, List.mem_singleton] at hnew
      subst hnew
      exact ⟨hpass.lt_fresh h hmoved, fun r hr => nomatch hmoved.at_self hr⟩

/-- Only a task that `on_message` has just received comes to it. -/
theorem Pass.pushed {x : TaskQueue × Nat} (hx : x ∈ pushes (log ++ events)) :
    x.2 < s'.fresh ∧ ¬s'.At x.2 .worker := by
  have hlt := hpass.lt_fresh h hmoved
  rcases List.mem_append.mp (pushes_append log events ▸ hx) with hold | hnew
  · obtain ⟨hfresh, hgone⟩ := h.pushed x hold
    refine ⟨Nat.lt_of_lt_of_le hfresh hmoved.fresh, fun hr => ?_⟩
    rcases hmoved.place x.2 .worker hr with ⟨heq, hp⟩ | ⟨-, hat⟩
    · cases hp
      cases hpass
      exact absurd heq hfresh.ne
    · exact hgone hat
  · cases hpass with
    | push own =>
        cases List.mem_singleton.mp hnew
        exact ⟨hlt, fun hr => nomatch hmoved.at_self hr⟩
    | _ => cases hnew

theorem Pass.popped {q : TaskQueue} {u : Nat} (hu : s'.At u (.handler q)) :
    (q, u) ∈ pops (log ++ events) := by
  rw [pops_append, List.mem_append]
  rcases hmoved.place u _ hu with ⟨rfl, hp⟩ | ⟨-, hat⟩
  · cases hp
    cases hpass
    exact .inr (List.mem_singleton.mpr rfl)
  · exact .inl (h.popped q u hat)

theorem Inv.pass (hnodup : ∀ q, (s'.queue q).Nodup) : s'.Inv (log ++ events) where
  placed := h.placed.moved hmoved hnodup
  freed _ hx := hpass.freed h hmoved hx
  once := hpass.once h
  pushed _ hx := hpass.pushed h hmoved hx
  byWorker _ hu q := hpass.byWorker h hu q
  popped _ _ hu := hpass.popped h hmoved hu
  byHandler _ _ hu := hpass.byHandler h hu

end Passing

/-- A step leaves all tasks in their places, or passes one on. -/
theorem step_cases {a : Action} (h : s.Inv log) (hn : s.next a = some s') :
    ((∀ u r, s'.At u r → s.At u r) ∧ s'.heap = s.heap ∧ s'.fresh = s.fresh ∧
      s'.queue = s.queue ∧ OnlyReads (s.report a)) ∨
    ∃ t p, Pass s t p (s.report a) ∧ Moved s s' t p ∧ ∀ q, (s'.queue q).Nodup := by
  have hmove := next_move hn
  cases hmove with
  | receive worker => exact .inr ⟨_, _, .receive, moved_receive h.placed _ _, h.placed.nodup⟩
  | @stay a pc own unpushed quiet =>
      refine .inl ⟨fun u r hu => ?_, rfl, rfl, rfl, ?_⟩
      · cases r with
        | worker => exact own.symm.trans hu
        | _ => exact hu
      · rcases quiet with rfl | hnone
        · cases hlogged : logged s.worker <;>
            exact ⟨by simp [report, hlogged, frees], by simp [report, hlogged, pushes],
              by simp [report, hlogged, pops]⟩
        · rw [hnone]
          exact ⟨rfl, rfl, rfl⟩
  | @push t q worker =>
      have hat := at_worker_of_push worker
      have hreport : s.report (.worker .push) = [.pushed q t] := by
        rcases worker with hworker | hworker <;> simp [report, hworker]
      rw [hreport]
      exact .inr ⟨t, _, .push hat, moved_push h.placed hat, h.placed.nodup_push hat⟩
  | @freeTask t worker =>
      have hreport : s.report (.worker .free) = [.freed .worker t] := by simp [report, worker]
      rw [hreport]
      exact .inr ⟨t, none, .freeTask (by simp [At, worker, owned]),
        moved_freeTask h.placed worker, h.placed.nodup⟩
  | @pop q t rest handler queue =>
      have hreport : s.report (.handler q .pop) = [.popped q t] := by simp [report, queue]
      rw [hreport]
      exact .inr ⟨t, _, .pop (by simp [At, queue]), moved_pop h.placed queue,
        h.placed.nodup_pop queue⟩
  | @run q t x todo handler =>
      refine .inl ⟨fun u r hu => ?_, rfl, rfl, rfl, ?_⟩
      · cases r with
        | handler r =>
            by_cases hr : r = q
            · subst hr
              simpa [At, handled, handler] using hu
            · simpa only [At, Function.update_of_ne hr] using hu
        | _ => exact hu
      · cases hx : x.reads <;>
          exact ⟨by simp [report, handler, hx, frees], by simp [report, handler, hx, pushes],
            by simp [report, handler, hx, pops]⟩
  | @freeHandled q t handler =>
      have hreport : s.report (.handler q .free) = [.freed (.handler q) t] := by
        simp [report, handler]
      rw [hreport]
      exact .inr ⟨t, none, .freeHandled (by simp [At, handler, handled]),
        moved_freeHandled h.placed handler, h.placed.nodup⟩

theorem Inv.next {a : Action} (h : s.Inv log) (hn : s.next a = some s') :
    s'.Inv (log ++ s.report a) := by
  rcases step_cases h hn with ⟨hplace, hheap, hfresh, hqueue, hevents⟩ | ⟨t, p, hpass, hmoved, hnodup⟩
  · exact h.quiet hplace hheap hfresh hqueue hevents
  · exact .pass hpass h hmoved hnodup

theorem inv_start (heap : Nat → TaskObject) : (start heap).Inv [] := by
  have hnowhere : ∀ t r, ¬(start heap).At t r := by
    intro t r
    cases r <;> simp [start, At, owned, handled]
  constructor
  · exact ⟨fun t p r hp => absurd hp (hnowhere t p), fun q => List.nodup_nil,
      fun t p hp => absurd hp (hnowhere t p)⟩
  · exact fun x hx => nomatch hx
  · exact List.nodup_nil
  · exact fun x hx => nomatch hx
  · exact fun t ht => nomatch ht
  · exact fun q t ht => absurd ht (hnowhere t _)
  · exact fun q t ht => nomatch ht

theorem mem_frees {party : Party} {t : Nat} : (party, t) ∈ frees log ↔ .freed party t ∈ log := by
  refine System.mem_select (fun x : _ × Nat => Use.freed x.1 x.2) (fun use x => ?_) (party, t)
  cases use <;> simp [Prod.ext_iff]

theorem mem_pushes {q : TaskQueue} {t : Nat} : (q, t) ∈ pushes log ↔ .pushed q t ∈ log := by
  refine System.mem_select (fun x : _ × Nat => Use.pushed x.1 x.2) (fun use x => ?_) (q, t)
  cases use <;> simp [Prod.ext_iff]

theorem mem_pops {q : TaskQueue} {t : Nat} : (q, t) ∈ pops log ↔ .popped q t ∈ log := by
  refine System.mem_select (fun x : _ × Nat => Use.popped x.1 x.2) (fun use x => ?_) (q, t)
  cases use <;> simp [Prod.ext_iff]

end Ledger

section Reads

variable {log : List Use}

/-- A handler frees a task only when `on_message` has made its last `log`
statement about it. -/
def LoggedFirst (s : Tasks) : Action → Prop
  | .handler q .free => ∀ t, handled (s.handler q) = some t → s.worker ≠ .logPushed t
  | _ => True

/-- The task of the last `log` statement is live, and so was every task read. -/
structure LiveReads (s : Tasks) (log : List Use) : Prop where
  logged : ∀ t, s.worker = .logPushed t → (s.heap t).live = true
  reads : ∀ party t live, .read party t live ∈ log → live = true

/-- The task that `on_message` reads is its own, or the one that it has pushed. -/
theorem live_of_logged (h : s.Inv log) (hlive : s.LiveReads log) {t : Nat}
    (ht : logged s.worker = some t) : (s.heap t).live = true := by
  cases hworker : s.worker with
  | logPushed u =>
      rw [hworker] at ht
      cases ht
      exact hlive.logged t hworker
  | idle =>
      rw [hworker] at ht
      cases ht
  | _ =>
      rw [hworker] at ht
      cases ht <;> exact (h.placed.live t .worker (by simp [At, hworker, owned])).2

/-- Every read of a step finds its task live. -/
theorem live_of_mem_report (h : s.Inv log) (hlive : s.LiveReads log) {a : Action} {party : Party}
    {t : Nat} {live : Bool} (hmem : .read party t live ∈ s.report a) : live = true := by
  unfold report at hmem
  split at hmem
  case h_1 =>
      obtain ⟨u, hu, heq⟩ := List.mem_map.mp hmem
      cases heq
      exact live_of_logged h hlive (Option.mem_toList.mp hu)
  case h_5 q =>
      split at hmem
      case h_1 u x todo hhandler =>
          split at hmem
          case isTrue =>
              cases List.mem_singleton.mp hmem
              exact (h.placed.live _ (.handler q) (by simp [At, hhandler, handled])).2
          case isFalse => cases hmem
      case h_2 => cases hmem
  case h_4 => simp at hmem
  case h_7 => cases hmem
  all_goals split at hmem <;> simp at hmem

theorem LiveReads.next {a : Action} (hlive : s.LiveReads log) (h : s.Inv log)
    (hfirst : s.LoggedFirst a) (hn : s.next a = some s') :
    s'.LiveReads (log ++ s.report a) where
  logged t ht := by
    have hmove := next_move hn
    cases hmove with
    | receive worker => cases ht
    | stay own unpushed quiet => exact absurd ht (unpushed t)
    | push worker =>
        cases ht
        exact (h.placed.live t .worker (at_worker_of_push worker)).2
    | freeTask worker => cases ht
    | pop handler queue => exact hlive.logged t ht
    | run handler => exact hlive.logged t ht
    | @freeHandled q u handler =>
        have hut : t ≠ u := by
          rintro rfl
          exact hfirst t (by rw [handler]; rfl) ht
        have hlogged := hlive.logged t ht
        simpa only [release, Function.update_of_ne hut] using hlogged
  reads party t live hmem := by
    rcases List.mem_append.mp hmem with hold | hnew
    · exact hlive.reads party t live hold
    · exact live_of_mem_report h hlive hnew

end Reads

theorem inv_of_reachable {p : Tasks × List Use}
    (h : (system.recording report).Reachable p) : p.1.Inv p.2 := by
  apply System.recording_invariant (C := fun _ _ => True) h
  · rintro _ ⟨heap, rfl⟩
    exact inv_start heap
  · intro s log a t _ _ hn hinv
    exact hinv.next hn

/-- In every run a task that a thread or a queue has is live, and nobody else has it. -/
theorem placed_of_reachable (h : system.Reachable s) : s.Placed := by
  obtain ⟨log, hlog⟩ : ∃ log, (system.recording report).Reachable (s, log) := h.recording
  exact (inv_of_reachable hlog).placed

/-- In every run each task is freed once at most, by `on_message` only if it was
never pushed, and by a handler only after that handler popped it. -/
theorem tasks_freed_once {p : Tasks × List Use} (h : (system.recording report).Reachable p) :
    ((frees p.2).map (·.2)).Nodup ∧
    (∀ t, .freed .worker t ∈ p.2 → ∀ q, .pushed q t ∉ p.2) ∧
    ∀ q t, .freed (.handler q) t ∈ p.2 → .popped q t ∈ p.2 := by
  have hinv : p.1.Inv p.2 := inv_of_reachable h
  refine ⟨hinv.once, fun t ht q hq => ?_, fun q t ht => ?_⟩
  · exact hinv.byWorker t (mem_frees.mpr ht) q (mem_pushes.mpr hq)
  · exact mem_pops.mp (hinv.byHandler q t (mem_frees.mpr ht))

/-- When no handler frees a task before `on_message` has logged that it pushed
it, every read of a task finds it live. -/
theorem tasks_owned {p : Tasks × List Use}
    (h : (system.recording report).ReachableUnder (System.recorded LoggedFirst) p) :
    (∀ party t live, .read party t live ∈ p.2 → live = true) ∧
    ((frees p.2).map (·.2)).Nodup ∧
    (∀ t, .freed .worker t ∈ p.2 → ∀ q, .pushed q t ∉ p.2) ∧
    ∀ q t, .freed (.handler q) t ∈ p.2 → .popped q t ∈ p.2 := by
  have hinv : p.1.Inv p.2 ∧ p.1.LiveReads p.2 := by
    apply System.recording_invariant (P := fun s log => s.Inv log ∧ s.LiveReads log) h
    · rintro _ ⟨heap, rfl⟩
      exact ⟨inv_start heap, nofun, fun party t live hmem => nomatch hmem⟩
    · intro s log a t _ hfirst hn ⟨hinv, hlive⟩
      exact ⟨hinv.next hn, hlive.next hinv hfirst hn⟩
  exact ⟨hinv.2.reads, tasks_freed_once h.reachable⟩

/-- The last `log` statement reads freed memory when the handler was faster. -/
theorem reads_freed_task {q : TaskQueue} {t : Nat} (hworker : s.worker = .logPushed t)
    (hhandler : s.handler q = .running t []) (hn : s.next (.handler q .free) = some s') :
    ∃ s'', s'.next (.worker .log) = some s'' ∧ .read .worker t false ∈ s'.report (.worker .log) := by
  simp only [next, handlerNext, hhandler, Option.some.injEq] at hn
  subst hn
  refine ⟨{ s.release t with
    worker := .idle
    handler := Function.update s.handler q .idle }, ?_, ?_⟩
  · simp only [next, workerNext, release, hworker]
  · simp [report, release, hworker, logged]

/-- A query of client 6. -/
def queryMsg : SgTcpMessage where
  clientFd := 6
  data := cmdQues
  len := 7

/-- The query is pushed and handled up to the `free` of its handler. -/
def queryHandled : List Action :=
  [.worker (.receive queryMsg), .worker .log, .worker .log, .worker .push,
    .handler .binQuery .pop, .handler .binQuery .run, .handler .binQuery .run,
    .handler .binQuery .run]

/-- A heap without tasks. -/
def emptyHeap (_ : Nat) : TaskObject where
  request := { clientFd := 0, bincount := 0 }
  live := false

theorem tasks_owned_queryHandled :
    ∃ p, (system.recording report).exec (start emptyHeap, [])
        (queryHandled ++ [.worker .log, .handler .binQuery .free]) = some p ∧
      .freed (.handler .binQuery) 0 ∈ p.2 ∧
      ∀ party t live, .read party t live ∈ p.2 → live = true := by
  have hmeet : (system.recording report).StepsMeet (System.recorded LoggedFirst)
      (start emptyHeap, []) (queryHandled ++ [.worker .log, .handler .binQuery .free]) := by
    apply System.stepsMeet_append
    · apply System.stepsMeet_of_forall
      simp [queryHandled, System.recorded, LoggedFirst]
    · intro p hp
      cases hp
      refine ⟨trivial, fun p hp => ?_⟩
      cases hp
      exact ⟨fun t _ => nofun, fun _ _ => trivial⟩
  refine ⟨_, rfl, ?_, ?_⟩
  · decide
  · exact (tasks_owned ⟨_, ⟨⟨emptyHeap, rfl⟩, rfl⟩,
      System.leadsUnder_of_stepsMeet _ hmeet rfl⟩).1

/-- The handler frees the query before `on_message` logs that it was pushed. -/
theorem query_read_after_free :
    ∃ p, (system.recording report).exec (start emptyHeap, [])
        (queryHandled ++ [.handler .binQuery .free, .worker .log]) = some p ∧
      .read .worker 0 false ∈ p.2 :=
  ⟨_, rfl, by decide⟩

end Tasks

end SgMuni
