import SgMuni.RingBuffer.Threads
import SgMuni.Transition.Mutex

/-!
# The ring buffer refines a bounded queue

Every step keeps the representation invariant and mutual exclusion, and is
matched by a push, a pop or nothing on a bounded queue. The FIFO law and the
bound of the abstract queue therefore hold of the threads' histories.
-/

namespace SgMuni

namespace RingBuffer

namespace Threads

variable {Tid α : Type*} {cap : Nat} {s s' : Threads Tid α}

/-- The buffer is well formed, exactly the owner of the mutex is inside of a
critical section, and the buffer is as the owner found it. -/
structure Inv (cap : Nat) (s : Threads Tid α) : Prop where
  wf : s.rb.Wf cap
  holder : ∀ t, (s.pc t).holds = true ↔ s.owner = some t
  seen : ∀ t, s.owner = some t → s.seen t = s.rb

/-- The mutex guards the critical sections. -/
theorem Inv.guarded (h : s.Inv cap) : Transition.Guarded s.owner fun t => (s.pc t).holds :=
  h.holder

@[simp] theorem holds_wake (p : Pc α) : p.wake.holds = p.holds := by
  cases p <;> rfl

section Moves

variable [DecidableEq Tid]

theorem Inv.goto (h : s.Inv cap) {t : Tid} {p : Pc α} (hout : (s.pc t).holds = false)
    (hp : p.holds = false) : (s.goto t p).Inv cap where
  wf := h.wf
  holder := by
    refine h.guarded.step (t := t) (.keep rfl ?_) fun u hu => ?_
    · simp [Threads.goto, hp, hout]
    · simp [Threads.goto, Function.update_of_ne hu]
  seen := h.seen

theorem Inv.acquire (h : s.Inv cap) {t : Tid} {p : Pc α} (hfree : s.owner = none)
    (hp : p.holds = true) : (s.acquire t p).Inv cap where
  wf := h.wf
  holder := by
    refine h.guarded.step (t := t) (.take hfree rfl ?_) fun u hu => ?_
    · simp [Threads.acquire, hp]
    · simp [Threads.acquire, Function.update_of_ne hu]
  seen u hu := by
    obtain rfl : t = u := by simpa [Threads.acquire] using hu
    simp [Threads.acquire]

theorem Inv.release (h : s.Inv cap) {t : Tid} {p : Pc α} (ht : (s.pc t).holds = true)
    (hp : p.holds = false) : (s.release t p).Inv cap where
  wf := h.wf
  holder := by
    refine h.guarded.step (t := t) (.leave ht rfl ?_) fun u hu => ?_
    · simp [Threads.release, hp]
    · simp [Threads.release, Function.update_of_ne hu]
  seen u hu := by simp [Threads.release] at hu

end Moves

variable [Inhabited α]

theorem inv_start (hcap : 0 < cap) : (start cap : Threads Tid α).Inv cap where
  wf := wf_rbCreate hcap
  holder t := by simp [start, Pc.holds]
  seen t := by simp [start]

/-- The section of an operation that does not wait keeps the buffer well formed. -/
theorem wf_body {rb : RingBuffer α} {c : Call α} (h : rb.Wf cap)
    (hb : c.routine.blocked rb = false) : (c.routine.body rb).1.Wf cap := by
  cases c with
  | push item => exact h.store (by simpa [Call.routine, rbPush] using hb) item
  | timedPush item =>
      exact h.store (by simpa [Call.routine, rbTimedPush, rbPush] using hb) item
  | pop => exact h.fetch (by simpa [Call.routine, rbPop] using hb)
  | timedPop => exact h.fetch (by simpa [Call.routine, rbTimedPop, rbPop] using hb)

variable [DecidableEq Tid]

theorem Inv.complete (h : s.Inv cap) {t : Tid} {c : Call α} (ht : s.pc t = .testing c)
    (hb : c.routine.blocked s.rb = false) (woken : List Tid) : (s.complete t c woken).Inv cap where
  wf := wf_body h.wf hb
  holder := by
    refine h.guarded.step (t := t) (.leave (by simp [ht, Pc.holds]) rfl ?_) fun u hu => ?_
    · simp [Threads.complete, Pc.holds]
    · simp only [Threads.complete, Function.update_of_ne hu]
      split <;> simp
  seen u hu := by simp [Threads.complete] at hu

/-- A ring buffer with its history and the bounded queue that it represents. -/
structure Represents (cap : Nat) (s : Threads Tid α) (q : Queue.Fifo α cap) : Prop where
  inv : s.Inv cap
  items : q.items = s.rb.contents
  pushed : q.pushed = s.pushed
  popped : q.popped = s.popped

/-- A completed operation is one push or one pop of the represented queue. -/
theorem Represents.complete {q : Queue.Fifo α cap} (h : Represents cap s q) {t : Tid}
    {c : Call α} (ht : s.pc t = .testing c) (hb : c.routine.blocked s.rb = false)
    (woken : List Tid) :
    ∃ e q', q.next e = some q' ∧ Represents cap (s.complete t c woken) q' := by
  have hinv := h.inv.complete ht hb woken
  have hstore (item : α) (hfull : s.rb.cnt ≠ s.rb.cap)
      (hbody : c.routine.body s.rb = (s.rb.store item, .stored item)) :
      ∃ e q', q.next e = some q' ∧ Represents cap (s.complete t c woken) q' := by
    have room : q.items.length < cap := by
      have := h.inv.wf.cnt_le
      have := h.inv.wf.cap_eq
      rw [h.items, length_contents]
      omega
    refine ⟨.push item, q.push item room, Queue.Fifo.next_push q item room, hinv, ?_, ?_, ?_⟩
    · simp [Queue.Fifo.push, Threads.complete, hbody, h.items,
        h.inv.wf.contents_store hfull item]
    · simp [Queue.Fifo.push, Threads.complete, hbody, h.pushed, Result.stored?]
    · simp [Queue.Fifo.push, Threads.complete, hbody, h.popped, Result.fetched?]
  have hfetch (hempty : s.rb.cnt ≠ 0)
      (hbody : c.routine.body s.rb = (s.rb.fetch, .fetched s.rb.front)) :
      ∃ e q', q.next e = some q' ∧ Represents cap (s.complete t c woken) q' := by
    have hcons : q.items = s.rb.front :: s.rb.fetch.contents := by
      rw [h.items, h.inv.wf.contents_fetch hempty]
    have nonempty : q.items ≠ [] := by simp [hcons]
    refine ⟨.pop, q.pop nonempty, Queue.Fifo.next_pop q nonempty, hinv, ?_, ?_, ?_⟩
    · simp [Queue.Fifo.pop, Threads.complete, hbody, hcons]
    · simp [Queue.Fifo.pop, Threads.complete, hbody, h.pushed, Result.stored?]
    · simp [Queue.Fifo.pop, Threads.complete, hbody, hcons, h.popped, Result.fetched?]
  cases c with
  | push item => exact hstore item (by simpa [Call.routine, rbPush] using hb) rfl
  | timedPush item =>
      exact hstore item (by simpa [Call.routine, rbTimedPush, rbPush] using hb) rfl
  | pop => exact hfetch (by simpa [Call.routine, rbPop] using hb) rfl
  | timedPop => exact hfetch (by simpa [Call.routine, rbTimedPop, rbPop] using hb) rfl

variable [Fintype Tid]

/-- What a step can do: move a thread that neither has nor gets the mutex, take
the mutex, leave it without touching the buffer, or complete an operation. -/
theorem next_cases {a : Action Tid α} (h : s.next a = some s') :
    (∃ t p, (s.pc t).holds = false ∧ p.holds = false ∧ s' = s.goto t p) ∨
    (∃ t p, s.owner = none ∧ p.holds = true ∧ s' = s.acquire t p) ∨
    (∃ t p, (s.pc t).holds = true ∧ p.holds = false ∧ s' = s.release t p) ∨
    ∃ t c woken, s.pc t = .testing c ∧ c.routine.blocked s.rb = false ∧
      s.Signals c.routine.signals woken ∧ s' = s.complete t c woken := by
  cases next_move h with
  | @call t c outside =>
      refine .inl ⟨t, _, ?_, rfl, rfl⟩
      cases hp : s.pc t <;> simp_all [Pc.outside, Pc.holds]
  | lock pc free => exact .inr (.inl ⟨_, _, free, rfl, rfl⟩)
  | sleep pc blocked => exact .inr (.inr (.inl ⟨_, _, by rw [pc]; rfl, rfl, rfl⟩))
  | complete pc ready signals => exact .inr (.inr (.inr ⟨_, _, _, pc, ready, signals, rfl⟩))
  | wake pc => exact .inl ⟨_, _, by rw [pc]; rfl, rfl, rfl⟩
  | timeout pc timed => exact .inl ⟨_, _, by rw [pc]; rfl, rfl, rfl⟩
  | relock pc free =>
      refine .inr (.inl ⟨_, _, free, ?_, rfl⟩)
      split <;> rfl
  | giveUp pc => exact .inr (.inr (.inl ⟨_, _, by rw [pc]; rfl, rfl, rfl⟩))

theorem Inv.next {a : Action Tid α} (h : s.Inv cap) (hn : s.next a = some s') : s'.Inv cap := by
  rcases next_cases hn with ⟨t, p, hout, hp, rfl⟩ | ⟨t, p, hfree, hp, rfl⟩ |
    ⟨t, p, ht, hp, rfl⟩ | ⟨t, c, woken, ht, hb, -, rfl⟩
  · exact h.goto hout hp
  · exact h.acquire hfree hp
  · exact h.release ht hp
  · exact h.complete ht hb woken

theorem inv_of_reachable (hcap : 0 < cap) (h : (system Tid α cap).Reachable s) : s.Inv cap :=
  h.invariant (fun _ hs => hs ▸ inv_start hcap) fun _ _ _ _ hn hi => hi.next hn

/-- The threads on a ring buffer simulate the bounded queue of its capacity. -/
def simulation (Tid α : Type*) [DecidableEq Tid] [Fintype Tid] [Inhabited α] (hcap : 0 < cap) :
    (system Tid α cap).Simulation (Queue.Fifo.system α cap) where
  rel := Represents cap
  init s hs := by
    subst hs
    exact ⟨.empty cap, rfl, inv_start hcap, by simp [Queue.Fifo.empty, start], rfl, rfl⟩
  step s q a s' h hn := by
    rcases next_cases hn with ⟨t, p, hout, hp, rfl⟩ | ⟨t, p, hfree, hp, rfl⟩ |
      ⟨t, p, ht, hp, rfl⟩ | ⟨t, c, woken, ht, hb, -, rfl⟩
    · exact Or.inl ⟨h.inv.goto hout hp, h.items, h.pushed, h.popped⟩
    · exact Or.inl ⟨h.inv.acquire hfree hp, h.items, h.pushed, h.popped⟩
    · exact Or.inl ⟨h.inv.release ht hp, h.items, h.pushed, h.popped⟩
    · exact Or.inr (h.complete ht hb woken)

/-- A timed operation returns 0 in the critical section in which it found the
buffer as it leaves it. -/
theorem Inv.giveUp (h : s.Inv cap) {t : Tid} (hn : s.next (.giveUp t) = some s') :
    s'.rb = s.rb ∧ s.rb = s.seen t := by
  cases hp : s.pc t <;> simp only [Threads.next, hp, reduceCtorEq, Option.some.injEq] at hn
  refine ⟨by rw [← hn]; rfl, (h.seen t ((h.holder t).mp ?_)).symm⟩
  rw [hp]
  rfl

/-- Every reachable ring buffer keeps its indices in range, has popped and
still holds exactly what was pushed, in order, and is left alone by timeouts. -/
theorem ringBuffer_refines_fifo (hcap : 0 < cap) (h : (system Tid α cap).Reachable s) :
    s.rb.head < cap ∧ s.rb.tail < cap ∧ s.rb.cnt ≤ cap ∧
      s.rb.tail = (s.rb.head + s.rb.cnt) % cap ∧
      s.popped ++ (List.range s.rb.cnt).map
        (fun i => s.rb.buf.getD ((s.rb.head + i) % cap) default) = s.pushed ∧
      ∀ t s', s.next (.giveUp t) = some s' → s'.rb = s.rb ∧ s.rb = s.seen t := by
  obtain ⟨q, -, hq⟩ := (simulation Tid α hcap).reachable h
  have hwf := hq.inv.wf
  refine ⟨hwf.head_lt, hwf.tail_lt, hwf.cnt_le, hwf.tail_eq, ?_, fun t s' => hq.inv.giveUp⟩
  have hlaw := q.law
  rwa [hq.items, hq.pushed, hq.popped, contents, Queue.window, hwf.size] at hlaw

/-- Two threads on one slot: the second push times out while the first item is queued. -/
def timeoutRun : List (Action (Fin 2) Nat) :=
  [.call 0 (.push 7), .lock 0, .test 0 [], .call 1 (.timedPush 8), .lock 1, .test 1 [],
    .timeout 1, .relock 1]

theorem ringBuffer_refines_fifo_timeoutRun :
    ∃ s : Threads (Fin 2) Nat, (system (Fin 2) Nat 1).exec (start 1) timeoutRun = some s ∧
      s.pushed = [7] ∧ s.popped ++ (List.range s.rb.cnt).map
        (fun i => s.rb.buf.getD ((s.rb.head + i) % 1) default) = s.pushed := by
  refine ⟨_, rfl, rfl, ?_⟩
  have hreach := Transition.System.reachable_of_exec (S := system (Fin 2) Nat 1) timeoutRun rfl rfl
  exact (ringBuffer_refines_fifo (by decide) hreach).2.2.2.2.1

end Threads

end RingBuffer

end SgMuni
