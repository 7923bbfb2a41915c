import SgMuni.Request.Tasks

/-!
# The lines in front of the handlers

A task that takes effect in the critical section of a handler was in line before:
with `on_message`, in the queue, or in the hand of the handler. A line keeps the
order in which its tasks came.
-/

namespace SgMuni

namespace HandlerStep

/-- The queue whose requests the statement carries out, if it is a critical section. -/
def effect : HandlerStep → Option TaskQueue
  | .formatCount => some .binQuery
  | .clearCount => some .binClear
  | .searchPending => some .binAck
  | _ => none

end HandlerStep

namespace Tasks

/-- The statement that a handler runs in a step, with its task. -/
def statement (s : Tasks) (q : TaskQueue) : HandlerAct → Option (Nat × HandlerStep)
  | .run =>
      match s.handler q with
      | .running t (x :: _) => some (t, x)
      | _ => none
  | _ => none

/-- The task of a handler that has not come to its critical section. -/
def inHand (s : Tasks) (q : TaskQueue) : List Nat :=
  match s.handler q with
  | .running t todo => if todo.any (·.effect.isSome) then [t] else []
  | .idle => []

/-- The task that `on_message` has for a queue. -/
def coming (s : Tasks) (q : TaskQueue) : List Nat :=
  match s.worker with
  | .logType t type => if type.queue = some q then [t] else []
  | .logPush t r | .pushing t r | .waiting t r => if r = q then [t] else []
  | _ => []

/-- The tasks of a queue that have not taken effect, the oldest first. -/
def line (s : Tasks) (q : TaskQueue) : List Nat := s.inHand q ++ s.queue q ++ s.coming q

/-- The request that takes effect in a step of a handler. -/
def effect (s : Tasks) (q : TaskQueue) (a : HandlerAct) : Option (TaskQueue × Nat) :=
  (s.statement q a).bind fun x => x.2.effect.map fun r => (r, x.1)

/-- Every handler is in the body of its own loop. -/
def Scripted (s : Tasks) : Prop :=
  ∀ q t todo, s.handler q = .running t todo → todo <:+ q.script

section Lines

variable {s s' : Tasks} {q : TaskQueue}

/-- The body of a loop has one critical section, the one for its queue. -/
theorem effect_of_suffix {x : HandlerStep} {todo : List HandlerStep} (h : x :: todo <:+ q.script)
    {r : TaskQueue} (hx : x.effect = some r) :
    r = q ∧ todo.any (·.effect.isSome) = false := by
  have hpos : x :: todo ∈ q.script.tails := (List.mem_tails _ _).mpr h
  cases q <;> simp only [TaskQueue.script, List.tails, List.mem_cons, List.cons.injEq,
    List.not_mem_nil, or_false, reduceCtorEq] at hpos
  case binQuery =>
      rcases hpos with ⟨rfl, rfl⟩ | ⟨rfl, rfl⟩ | ⟨rfl, rfl⟩ <;> cases hx
      exact ⟨rfl, rfl⟩
  all_goals
    rcases hpos with ⟨rfl, rfl⟩ | ⟨rfl, rfl⟩ | ⟨rfl, rfl⟩ | ⟨rfl, rfl⟩ <;> cases hx
    exact ⟨rfl, rfl⟩

theorem any_effect_script (q : TaskQueue) : q.script.any (·.effect.isSome) = true := by
  cases q <;> rfl

/-- A message that is taken joins the end of the line of its type. -/
theorem line_receive {msg : SgTcpMessage} (h : s.workerNext (.receive msg) = some s') :
    s'.fresh = s.fresh + 1 ∧ s'.handler = s.handler ∧
      ∃ type request, onMessageTask msg = some (type, request) ∧
        ∀ q, s'.line q = s.line q ++ if type.queue = some q then [s.fresh] else [] := by
  simp only [workerNext] at h
  split at h <;> cases h
  case h_1 type request hworker hparsed =>
    refine ⟨rfl, rfl, type, request, hparsed, fun q => ?_⟩
    simp [line, inHand, coming, hworker]

/-- A step that changes the position of `on_message` alone. -/
theorem line_stay {pc : OnMessagePc}
    (hpc : ∀ q, (coming { s with worker := pc } q).Sublist (s.coming q)) (q : TaskQueue) :
    (line { s with worker := pc } q).Sublist (s.line q) :=
  (hpc q).append_left _

/-- A push moves the task within its line. -/
theorem line_push {t : Nat} {r : TaskQueue}
    (hworker : s.worker = .pushing t r ∨ s.worker = .waiting t r) (q : TaskQueue) :
    line { s with
      queue := Function.update s.queue r (s.queue r ++ [t])
      worker := .logPushed t } q = s.line q := by
  have hcoming : s.coming q = if r = q then [t] else [] := by
    rcases hworker with hworker | hworker <;> rw [coming, hworker]
  by_cases hrq : r = q
  · subst hrq
    rw [line, line, hcoming, if_pos rfl]
    simp [inHand, coming]
  · rw [line, line, hcoming, if_neg hrq]
    simp [inHand, coming, Function.update_of_ne (Ne.symm hrq)]

/-- What else `on_message` does with a task leaves it in its line or takes it away. -/
theorem line_worker {a : WorkerAct} (h : s.workerNext a = some s')
    (ha : ∀ msg, a ≠ .receive msg) :
    s'.fresh = s.fresh ∧ s'.handler = s.handler ∧ ∀ q, (s'.line q).Sublist (s.line q) := by
  cases a with
  | receive msg => exact absurd rfl (ha msg)
  | log =>
      simp only [workerNext] at h
      split at h
      case h_1 t type hworker =>
          split at h <;> cases h <;> refine ⟨rfl, rfl, line_stay fun q => ?_⟩
          · next r htype => simp [coming, hworker, htype]
          · simp [coming]
      case h_5 => cases h
      all_goals
        next hworker =>
          cases h
          exact ⟨rfl, rfl, line_stay fun q => by simp [coming, hworker]⟩
  | push =>
      obtain ⟨t, r, hworker, rfl⟩ := workerNext_push h
      exact ⟨rfl, rfl, fun q => by rw [line_push hworker]⟩
  | wait =>
      simp only [workerNext] at h
      split at h
      case h_1 hworker =>
          obtain ⟨-, h⟩ := Option.ite_none_right_eq_some.mp h
          cases h
          exact ⟨rfl, rfl, line_stay fun q => by simp [coming, hworker]⟩
      case h_2 => cases h
  | timeout =>
      simp only [workerNext] at h
      split at h <;> cases h
      exact ⟨rfl, rfl, line_stay fun q => by simp [coming]⟩
  | free =>
      simp only [workerNext] at h
      split at h <;> cases h
      case h_1 hworker =>
        refine ⟨rfl, rfl, fun q => ?_⟩
        simp [line, inHand, coming, release]

/-- The line of a queue when its handler alone moves. -/
theorem line_update (pc : HandlerPc) (r : TaskQueue) :
    line { s with handler := Function.update s.handler q pc } r =
      if r = q then
        (match pc with
          | .running t todo => if todo.any (·.effect.isSome) then [t] else []
          | .idle => []) ++ s.queue q ++ s.coming q
      else s.line r := by
  by_cases hr : r = q
  · subst hr
    simp [line, inHand, coming]
  · simp [line, inHand, coming, hr]

theorem Scripted.update (hs : s.Scripted) {heap : Nat → TaskObject}
    {queue : TaskQueue → List Nat} {pc : HandlerPc}
    (hpc : ∀ t todo, pc = .running t todo → todo <:+ q.script) :
    Scripted { s with heap, queue, handler := Function.update s.handler q pc } := by
  intro r t todo h
  by_cases hr : r = q
  · subst hr
    exact hpc t todo (by simpa using h)
  · exact hs r t todo (by simpa [hr] using h)

/-- A step of a handler takes a task from its line exactly when the task takes
effect. -/
theorem line_handler {a : HandlerAct} (hs : s.Scripted) (h : s.handlerNext q a = some s') :
    s'.fresh = s.fresh ∧ s'.Scripted ∧
      ∀ r, ((s.effect q a).toList.filter (·.1 = r)).map Prod.snd ++ s'.line r = s.line r := by
  cases a with
  | pop =>
      simp only [handlerNext] at h
      split at h <;> cases h
      case h_1 t rest hhandler hqueue =>
        refine ⟨rfl, hs.update ?_, fun r => ?_⟩
        · intro u todo hpc
          cases hpc
          exact List.suffix_refl _
        · by_cases hr : r = q
          · subst hr
            simp [effect, statement, line, inHand, coming, hhandler, hqueue, any_effect_script]
          · simp [effect, statement, line, inHand, coming, hr]
  | run =>
      simp only [handlerNext] at h
      split at h <;> cases h
      case h_1 t x todo hhandler =>
        have htodo : x :: todo <:+ q.script := hs q t _ hhandler
        refine ⟨rfl, hs.update ?_, fun r => ?_⟩
        · intro u rest hpc
          cases hpc
          exact (List.suffix_cons x todo).trans htodo
        · rw [line_update]
          cases hx : x.effect with
          | none =>
              by_cases hr : r = q
              · subst hr
                simp [effect, statement, hhandler, hx, line, inHand]
              · simp [effect, statement, hhandler, hx, hr]
          | some u =>
              obtain ⟨rfl, hrest⟩ := effect_of_suffix htodo hx
              by_cases hr : r = u
              · subst hr
                simp [effect, statement, hhandler, hx, line, inHand, hrest]
              · simp [effect, statement, hhandler, hx, hr, Ne.symm hr]
  | free =>
      simp only [handlerNext] at h
      split at h <;> cases h
      case h_1 t hhandler =>
        refine ⟨rfl, hs.update ?_, fun r => ?_⟩
        · intro u todo hpc
          cases hpc
        · by_cases hr : r = q
          · subst hr
            simp [effect, statement, line, inHand, coming, release, hhandler]
          · simp [effect, statement, line, inHand, coming, release, hr]

end Lines

end Tasks

end SgMuni
