import SgMuni.Queue.Circular

/-!
# The ring buffer and its critical sections

`sg-ringbuffer.c` without the waiting: the fields of `RingBuffer`, what the
four operations do between their waiting loop and `pthread_mutex_unlock`, and
the representation invariant that these sections keep.
-/

namespace SgMuni

variable {α : Type*} [Inhabited α]

/-- The data fields of `RingBuffer`; `default` is the null pointer. -/
structure RingBuffer (α : Type*) where
  buf : List α
  cap : Nat
  head : Nat
  tail : Nat
  cnt : Nat

/-- `rb_create` on successful allocation: `calloc` clears slots and indices. -/
def rbCreate (cap : Nat) : RingBuffer α where
  buf := List.replicate cap default
  cap := cap
  head := 0
  tail := 0
  cnt := 0

namespace RingBuffer

/-- The three assignments of `rb_push` and `rb_timed_push`. -/
def store (rb : RingBuffer α) (item : α) : RingBuffer α :=
  { rb with
    buf := rb.buf.set rb.tail item
    tail := (rb.tail + 1) % rb.cap
    cnt := rb.cnt + 1 }

/-- The slot that `rb_pop` and `rb_timed_pop` read. -/
def front (rb : RingBuffer α) : α := rb.buf.getD rb.head default

/-- The two assignments of `rb_pop` and `rb_timed_pop`. -/
def fetch (rb : RingBuffer α) : RingBuffer α :=
  { rb with
    head := (rb.head + 1) % rb.cap
    cnt := rb.cnt - 1 }

/-- The representation invariant. -/
structure Wf (rb : RingBuffer α) (cap : Nat) : Prop where
  size : rb.buf.length = cap
  cap_eq : rb.cap = cap
  head_lt : rb.head < cap
  tail_lt : rb.tail < cap
  cnt_le : rb.cnt ≤ cap
  tail_eq : rb.tail = (rb.head + rb.cnt) % cap

/-- The queued items, oldest first. -/
def contents (rb : RingBuffer α) : List α := Queue.window rb.buf rb.head rb.cnt

@[simp] theorem length_contents (rb : RingBuffer α) : rb.contents.length = rb.cnt := by
  simp [contents]

theorem wf_rbCreate {cap : Nat} (hcap : 0 < cap) : (rbCreate cap : RingBuffer α).Wf cap where
  size := List.length_replicate
  cap_eq := rfl
  head_lt := hcap
  tail_lt := hcap
  cnt_le := Nat.zero_le _
  tail_eq := by simp [rbCreate]

@[simp] theorem contents_rbCreate (cap : Nat) : (rbCreate cap : RingBuffer α).contents = [] :=
  rfl

variable {rb : RingBuffer α} {cap : Nat}

omit [Inhabited α] in
theorem Wf.store (h : rb.Wf cap) (room : rb.cnt ≠ rb.cap) (item : α) :
    (rb.store item).Wf cap where
  size := by simp [RingBuffer.store, h.size]
  cap_eq := h.cap_eq
  head_lt := h.head_lt
  tail_lt := by
    have := h.tail_lt
    simpa only [RingBuffer.store, h.cap_eq] using Nat.mod_lt _ (by omega)
  cnt_le := by
    have := h.cnt_le
    have := h.cap_eq
    simp only [RingBuffer.store]
    omega
  tail_eq := by
    simp only [RingBuffer.store, h.cap_eq, h.tail_eq, Nat.mod_add_mod, Nat.add_assoc]

theorem Wf.contents_store (h : rb.Wf cap) (room : rb.cnt ≠ rb.cap) (item : α) :
    (rb.store item).contents = rb.contents ++ [item] := by
  have hn : rb.cnt < rb.buf.length := by
    have := h.cnt_le
    have := h.cap_eq
    have := h.size
    omega
  have htail : rb.tail = (rb.head + rb.cnt) % rb.buf.length := by rw [h.size, h.tail_eq]
  simp only [contents, RingBuffer.store, htail]
  exact Queue.window_set hn item

omit [Inhabited α] in
theorem Wf.fetch (h : rb.Wf cap) (item : rb.cnt ≠ 0) : rb.fetch.Wf cap where
  size := h.size
  cap_eq := h.cap_eq
  head_lt := by
    have := h.head_lt
    simpa only [RingBuffer.fetch, h.cap_eq] using Nat.mod_lt _ (by omega)
  tail_lt := h.tail_lt
  cnt_le := by
    have := h.cnt_le
    simp only [RingBuffer.fetch]
    omega
  tail_eq := by
    have hsum : rb.head + 1 + (rb.cnt - 1) = rb.head + rb.cnt := by omega
    simp only [RingBuffer.fetch, h.cap_eq, Nat.mod_add_mod, hsum]
    exact h.tail_eq

theorem Wf.contents_fetch (h : rb.Wf cap) (item : rb.cnt ≠ 0) :
    rb.contents = rb.front :: rb.fetch.contents := by
  obtain ⟨n, hn⟩ := Nat.exists_eq_succ_of_ne_zero item
  have hhead : rb.head < rb.buf.length := h.size ▸ h.head_lt
  simp only [contents, RingBuffer.fetch, front, hn, h.cap_eq, Nat.succ_eq_add_one,
    Nat.add_sub_cancel]
  rw [Queue.window_succ hhead, h.size]

end RingBuffer

end SgMuni
