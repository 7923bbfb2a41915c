import Mathlib.Data.List.Nodup
import Mathlib.Logic.Function.Basic

/-!
# Chains of nodes on a heap

A chain is reached from a pointer variable and ends with the null pointer. The loop
of this module walks along a chain with the address of the pointer to the next node,
so that it can unlink and free a node without a pointer to the one before it.

## Implementation notes

An access to an address that holds no node has no result, so that a loop with a
result has read and freed live nodes only.
-/

namespace Heap

variable {A α ε : Type*}

/-- A node; the null pointer is `none`. -/
structure Node (A α : Type*) where
  val : α
  next : Option A

/-- The pointer variable, the live nodes, and the nodes that were freed, in order. -/
structure Memory (A α : Type*) where
  head : Option A
  heap : A → Option (Node A α)
  freed : List A

/-- The address of a pointer: the variable, or the `next` of a node. -/
inductive Slot (A : Type*)
  | head
  | next (a : A)

/-- The pointer `p` starts a chain of the nodes with these addresses and values. -/
def Chain (heap : A → Option (Node A α)) : Option A → List (A × α) → Prop
  | p, [] => p = none
  | p, (a, v) :: cells => p = some a ∧ ∃ n, heap a = some ⟨v, n⟩ ∧ Chain heap n cells

section Chains

variable {heap heap' : A → Option (Node A α)} {p : Option A} {cells cells' : List (A × α)}

theorem Chain.congr (h : Chain heap p cells) (heq : ∀ a ∈ cells.map Prod.fst, heap' a = heap a) :
    Chain heap' p cells := by
  induction cells generalizing p with
  | nil => exact h
  | cons c cells ih =>
      obtain ⟨a, v⟩ := c
      obtain ⟨rfl, n, ha, hrest⟩ := h
      rw [List.map_cons, List.forall_mem_cons] at heq
      exact ⟨rfl, n, heq.1.trans ha, ih hrest heq.2⟩

/-- A pointer starts one chain only. -/
theorem Chain.unique (h : Chain heap p cells) (h' : Chain heap p cells') : cells = cells' := by
  induction cells generalizing p cells' with
  | nil =>
      cases h
      cases cells' with
      | nil => rfl
      | cons c cells' => cases h'.1
  | cons c cells ih =>
      obtain ⟨a, v⟩ := c
      obtain ⟨rfl, n, ha, hrest⟩ := h
      cases cells' with
      | nil => cases h'
      | cons c' cells' =>
          obtain ⟨a', v'⟩ := c'
          obtain ⟨haa, n', ha', hrest'⟩ := h'
          cases haa
          cases ha.symm.trans ha'
          rw [ih hrest hrest']

/-- Every node of a chain starts the rest of it. -/
theorem Chain.suffix {before rest : List (A × α)} {a : A} {v : α}
    (h : Chain heap p (before ++ (a, v) :: rest)) : Chain heap (some a) ((a, v) :: rest) := by
  induction before generalizing p with
  | nil =>
      obtain ⟨rfl, -⟩ := id h
      exact h
  | cons c before ih =>
      obtain ⟨-, n, -, hrest⟩ := h
      exact ih hrest

theorem Chain.live (h : Chain heap p cells) {c : A × α} (hc : c ∈ cells) :
    ∃ n, heap c.1 = some ⟨c.2, n⟩ := by
  obtain ⟨before, rest, rfl⟩ := List.append_of_mem hc
  obtain ⟨-, n, ha, -⟩ := h.suffix
  exact ⟨n, ha⟩

/-- A chain that ends has no node twice. -/
theorem Chain.nodup (h : Chain heap p cells) : (cells.map Prod.fst).Nodup := by
  induction cells generalizing p with
  | nil => exact List.nodup_nil
  | cons c cells ih =>
      obtain ⟨a, v⟩ := c
      obtain ⟨rfl, n, ha, hrest⟩ := id h
      refine List.nodup_cons.mpr ⟨fun hmem => ?_, ih hrest⟩
      obtain ⟨⟨a', v'⟩, hc, rfl⟩ := List.mem_map.mp hmem
      obtain ⟨before, rest, rfl⟩ := List.append_of_mem hc
      have hlen := congrArg List.length (h.unique hrest.suffix)
      simp only [List.length_cons, List.length_append] at hlen
      omega

end Chains

namespace Memory

/-- Read a pointer. -/
def load (m : Memory A α) : Slot A → Option (Option A)
  | .head => some m.head
  | .next a => (m.heap a).map Node.next

section Loop

variable [DecidableEq A]

/-- Write a pointer. -/
def store (m : Memory A α) : Slot A → Option A → Option (Memory A α)
  | .head, p => some { m with head := p }
  | .next a, p => (m.heap a).map fun n =>
      { m with heap := Function.update m.heap a (some { n with next := p }) }

/-- Write the other fields of a node. -/
def setVal (m : Memory A α) (a : A) (v : α) : Option (Memory A α) :=
  (m.heap a).map fun n =>
    { m with heap := Function.update m.heap a (some { n with val := v }) }

/-- Allocate a node at an address that the allocator gives. -/
def alloc (m : Memory A α) (a : A) (v : α) : Option (Memory A α) :=
  match m.heap a with
  | some _ => none
  | none => some { m with heap := Function.update m.heap a (some { val := v, next := none }) }

def free (m : Memory A α) (a : A) : Option (Memory A α) :=
  (m.heap a).map fun _ =>
    { m with
      heap := Function.update m.heap a none
      freed := m.freed ++ [a] }

/-- The loop, with at most `fuel` tests of its condition: nodes that meet the deletion
test are unlinked and freed, the others are visited. -/
def prune (del : α → Bool) (visit : α → α) (emit : α → List ε) :
    Nat → Memory A α → Slot A → Option (Memory A α × List ε)
  | 0, _, _ => none
  | fuel + 1, m, pp =>
      (m.load pp).bind fun
        | none => some (m, [])
        | some a => (m.heap a).bind fun n =>
            if del n.val then
              (m.store pp n.next).bind fun m => (m.free a).bind fun m =>
                prune del visit emit fuel m pp
            else
              (m.setVal a (visit n.val)).bind fun m =>
                (prune del visit emit fuel m (.next a)).map fun r => (r.1, emit n.val ++ r.2)

end Loop

end Memory

/-- The nodes that the loop frees. -/
def deleted (del : α → Bool) (cells : List (A × α)) : List A :=
  (cells.filter fun c => del c.2).map Prod.fst

/-- The nodes that stay, as the loop leaves them. -/
def kept (del : α → Bool) (visit : α → α) (cells : List (A × α)) : List (A × α) :=
  (cells.filter fun c => !del c.2).map fun c => (c.1, visit c.2)

/-- The loop takes the memory `m` to `m'` when the slot `pp` starts the chain `cells`. -/
structure Pruned (del : α → Bool) (visit : α → α) (m m' : Memory A α) (pp : Slot A)
    (cells : List (A × α)) : Prop where
  chain : ∃ p, m'.load pp = some p ∧ Chain m'.heap p (kept del visit cells)
  freed : m'.freed = m.freed ++ deleted del cells
  dead : ∀ a ∈ deleted del cells, m'.heap a = none
  frame : ∀ b ∉ cells.map Prod.fst, pp ≠ .next b → m'.heap b = m.heap b
  owner : ∀ b, pp = .next b → (m'.heap b).map Node.val = (m.heap b).map Node.val
  head : pp ≠ .head → m'.head = m.head
  next : ∀ b n n', m.heap b = some n → m'.heap b = some n' →
    n'.next = n.next ∨ ∃ a ∈ deleted del cells, n.next = some a

section Prune

variable {del : α → Bool} {visit : α → α} {m m₁ m' : Memory A α}
  {pp : Slot A} {p : Option A} {a : A} {v : α} {cells : List (A × α)}

theorem deleted_subset (h : a ∈ deleted del cells) : a ∈ cells.map Prod.fst := by
  obtain ⟨c, hc, rfl⟩ := List.mem_map.mp h
  exact List.mem_map_of_mem (List.mem_of_mem_filter hc)

theorem kept_id : kept del id cells = cells.filter fun c => !del c.2 := by
  simp [kept]

theorem deleted_cons_of_del (h : del v = true) :
    deleted del ((a, v) :: cells) = a :: deleted del cells := by
  simp [deleted, h]

theorem deleted_cons_of_not_del (h : del v = false) :
    deleted del ((a, v) :: cells) = deleted del cells := by
  simp [deleted, h]

theorem kept_cons_of_del (h : del v = true) :
    kept del visit ((a, v) :: cells) = kept del visit cells := by
  simp [kept, h]

theorem kept_cons_of_not_del (h : del v = false) :
    kept del visit ((a, v) :: cells) = (a, visit v) :: kept del visit cells := by
  simp [kept, h]

/-- A node that is not deleted stays live. -/
theorem Pruned.live (h : Pruned del visit m m' .head cells) {b : A} (hb : b ∉ deleted del cells)
    (hlive : (m.heap b).isSome) : (m'.heap b).isSome := by
  by_cases hmem : b ∈ cells.map Prod.fst
  · obtain ⟨⟨b, v⟩, hc, rfl⟩ := List.mem_map.mp hmem
    have hkeep : del v = false := by
      by_contra hdel
      exact hb (List.mem_map_of_mem (List.mem_filter.mpr ⟨hc, by simpa using hdel⟩))
    obtain ⟨p, -, hchain⟩ := h.chain
    have hkept : (b, visit v) ∈ kept del visit cells :=
      List.mem_map_of_mem (List.mem_filter.mpr ⟨hc, by simp [hkeep]⟩)
    obtain ⟨n, hn⟩ := hchain.live hkept
    exact Option.isSome_of_eq_some hn
  · rw [h.frame b hmem nofun]
    exact hlive

/-- The memory without the node `a`, whose pointer in `pp` has become `p`. -/
structure Unlinked (m m₁ : Memory A α) (pp : Slot A) (a : A) (p : Option A) : Prop where
  slot : m₁.load pp = some p
  freed : m₁.freed = m.freed ++ [a]
  dead : m₁.heap a = none
  frame : ∀ b ≠ a, pp ≠ .next b → m₁.heap b = m.heap b
  owner : ∀ b, pp = .next b → m₁.heap b = (m.heap b).map fun n => { n with next := p }
  head : pp ≠ .head → m₁.head = m.head

variable [DecidableEq A]

theorem unlink {n : Node A α} (hslot : m.load pp = some (some a)) (ha : m.heap a = some n)
    (hpp : pp ≠ .next a) :
    ∃ m₁, ((m.store pp n.next).bind fun m => m.free a) = some m₁ ∧
      Unlinked m m₁ pp a n.next := by
  cases pp with
  | head =>
      refine ⟨{ m with
        head := n.next
        heap := Function.update m.heap a none
        freed := m.freed ++ [a] }, ?_, ?_⟩
      · simp [Memory.store, Memory.free, ha]
      · refine ⟨rfl, rfl, Function.update_self .., ?_, nofun, fun h => absurd rfl h⟩
        exact fun b hb _ => Function.update_of_ne hb ..
  | next b =>
      have hba : b ≠ a := fun h => hpp (congrArg Slot.next h)
      obtain ⟨nb, hnb, -⟩ := Option.map_eq_some_iff.mp hslot
      have hb : Function.update (Function.update m.heap b (some { nb with next := n.next })) a
          none b = some { nb with next := n.next } := by
        rw [Function.update_of_ne hba, Function.update_self]
      refine ⟨{ m with
        heap := Function.update (Function.update m.heap b (some { nb with next := n.next })) a none
        freed := m.freed ++ [a] }, ?_, ?_⟩
      · simp [Memory.store, Memory.free, ha, hnb, Function.update_of_ne hba.symm]
      · refine ⟨?_, rfl, Function.update_self .., ?_, ?_, fun _ => rfl⟩
        · exact congrArg (Option.map Node.next) hb
        · intro c hca hcb
          have hcb : c ≠ b := fun h => hcb (congrArg Slot.next h.symm)
          exact (Function.update_of_ne hca ..).trans (Function.update_of_ne hcb ..)
        · rintro c ⟨⟩
          rw [hnb]
          exact hb

omit [DecidableEq A] in
/-- Behind a deleted node the loop goes on with the same slot. -/
theorem Pruned.delete {n : Option A} (hdel : del v = true) (hslot : m.load pp = some (some a))
    (hnew : a ∉ cells.map Prod.fst) (hpp : pp ≠ .next a) (hunlink : Unlinked m m₁ pp a n)
    (h : Pruned del visit m₁ m' pp cells) : Pruned del visit m m' pp ((a, v) :: cells) := by
  have hdead : m'.heap a = none := (h.frame a hnew hpp).trans hunlink.dead
  constructor
  case chain =>
    rw [kept_cons_of_del hdel]
    exact h.chain
  case freed =>
    rw [deleted_cons_of_del hdel, h.freed, hunlink.freed, List.append_assoc, List.singleton_append]
  case dead =>
    rw [deleted_cons_of_del hdel, List.forall_mem_cons]
    exact ⟨hdead, h.dead⟩
  case frame =>
    intro b hb hslot
    rw [List.map_cons, List.mem_cons, not_or] at hb
    exact (h.frame b hb.2 hslot).trans (hunlink.frame b hb.1 hslot)
  case owner =>
    intro b hb
    rw [h.owner b hb, hunlink.owner b hb, Option.map_map]
    rfl
  case head => exact fun hhead => (h.head hhead).trans (hunlink.head hhead)
  case next =>
    intro b nb nb' hb hb'
    rw [deleted_cons_of_del hdel]
    by_cases hslot' : pp = .next b
    · -- the pointer to the node that has been freed
      refine .inr ⟨a, List.mem_cons_self, ?_⟩
      rw [hslot', Memory.load, hb] at hslot
      exact Option.some.inj hslot
    · have hba : b ≠ a := by
        rintro rfl
        cases hdead.symm.trans hb'
      have hb₁ : m₁.heap b = some nb := (hunlink.frame b hba hslot').trans hb
      obtain hsame | ⟨c, hc, hnext⟩ := h.next b nb nb' hb₁ hb'
      · exact .inl hsame
      · exact .inr ⟨c, List.mem_cons_of_mem a hc, hnext⟩

/-- Behind a node that stays the loop goes on with the `next` of the node. -/
theorem Pruned.keep {n : Option A} (hdel : del v = false) (hslot : m.load pp = some (some a))
    (ha : m.heap a = some ⟨v, n⟩) (hpp : ∀ b ∈ a :: cells.map Prod.fst, pp ≠ .next b)
    (hnew : a ∉ cells.map Prod.fst)
    (h : Pruned del visit { m with heap := Function.update m.heap a (some ⟨visit v, n⟩) } m'
      (.next a) cells) :
    Pruned del visit m m' pp ((a, v) :: cells) := by
  have hframe : ∀ b ∉ cells.map Prod.fst, b ≠ a → m'.heap b = m.heap b := fun b hb hba =>
    (h.frame b hb fun hslot => hba (Slot.next.inj hslot).symm).trans (Function.update_of_ne hba ..)
  have hhead : m'.head = m.head := h.head nofun
  have hload : m'.load pp = m.load pp := by
    cases pp with
    | head => exact congrArg some hhead
    | next b =>
        rw [List.forall_mem_cons] at hpp
        have hba : b ≠ a := fun hba => hpp.1 (congrArg Slot.next hba)
        have hb : b ∉ cells.map Prod.fst := fun hb => hpp.2 b hb rfl
        rw [Memory.load, Memory.load, hframe b hb hba]
  constructor
  case chain =>
    obtain ⟨p, hp, hchain⟩ := h.chain
    obtain ⟨n', hn', rfl⟩ := Option.map_eq_some_iff.mp hp
    have hval : n'.val = visit v := by
      have howner := h.owner a rfl
      simp only [hn', Function.update_self, Option.map_some] at howner
      exact Option.some.inj howner
    refine ⟨some a, hload.trans hslot, ?_⟩
    rw [kept_cons_of_not_del hdel]
    refine ⟨rfl, n'.next, ?_, hchain⟩
    rw [hn', ← hval]
  case freed =>
    rw [deleted_cons_of_not_del hdel, h.freed]
  case dead =>
    rw [deleted_cons_of_not_del hdel]
    exact h.dead
  case frame =>
    intro b hb _
    rw [List.map_cons, List.mem_cons, not_or] at hb
    exact hframe b hb.2 hb.1
  case owner =>
    intro b hb
    rw [List.forall_mem_cons] at hpp
    have hba : b ≠ a := fun hba => hpp.1 (hb.trans (congrArg Slot.next hba))
    rw [hframe b (fun hmem => hpp.2 b hmem hb) hba]
  case head => exact fun _ => hhead
  case next =>
    intro b nb nb' hb hb'
    rw [deleted_cons_of_not_del hdel]
    by_cases hba : b = a
    · subst hba
      cases ha.symm.trans hb
      exact h.next b ⟨visit v, n⟩ nb' (Function.update_self ..) hb'
    · exact h.next b nb nb' ((Function.update_of_ne hba ..).trans hb) hb'

/-- The loop ends, and frees the nodes of the chain that meet the test. -/
theorem prune_spec (del : α → Bool) (visit : α → α) (emit : α → List ε) {fuel : Nat}
    (hfuel : cells.length < fuel) (hslot : m.load pp = some p)
    (hchain : Chain m.heap p cells) (hpp : ∀ a ∈ cells.map Prod.fst, pp ≠ .next a) :
    ∃ m', m.prune del visit emit fuel pp =
        some (m', (cells.filter fun c => !del c.2).flatMap fun c => emit c.2) ∧
      Pruned del visit m m' pp cells := by
  induction cells generalizing fuel m pp p with
  | nil =>
      obtain ⟨fuel, rfl⟩ := Nat.exists_eq_add_of_lt hfuel
      obtain rfl : p = none := hchain
      refine ⟨m, by simp [Memory.prune, hslot], ⟨none, hslot, rfl⟩, ?_, ?_, ?_, ?_, ?_, ?_⟩
      · simp [deleted]
      · simp [deleted]
      · exact fun _ _ _ => rfl
      · exact fun _ _ => rfl
      · exact fun _ => rfl
      · intro b n n' hn hn'
        cases hn.symm.trans hn'
        exact .inl rfl
  | cons c cells ih =>
      obtain ⟨a, v⟩ := c
      have hnew : a ∉ cells.map Prod.fst := (List.nodup_cons.mp hchain.nodup).1
      obtain ⟨rfl, n, ha, hrest⟩ := hchain
      obtain ⟨fuel, rfl⟩ : ∃ k, fuel = k + 1 := Nat.exists_eq_succ_of_ne_zero (by omega)
      have hfuel : cells.length < fuel := Nat.lt_of_succ_lt_succ hfuel
      have hppa : pp ≠ .next a := hpp a List.mem_cons_self
      have hpprest : ∀ b ∈ cells.map Prod.fst, pp ≠ .next b := fun b hb =>
        hpp b (List.mem_cons_of_mem a hb)
      cases hdel : del v with
      | true =>
          obtain ⟨m₁, hm₁, hunlink⟩ := unlink hslot ha hppa
          have hrest₁ : Chain m₁.heap n cells := hrest.congr fun b hb =>
            hunlink.frame b (ne_of_mem_of_not_mem hb hnew) (hpprest b hb)
          obtain ⟨m', hm', hpruned⟩ := ih hfuel hunlink.slot hrest₁ hpprest
          refine ⟨m', ?_, hpruned.delete hdel hslot hnew hppa hunlink⟩
          simp [Memory.prune, hslot, ha, hdel, ← Option.bind_assoc, hm₁, hm']
      | false =>
          have hrest₁ : Chain (Function.update m.heap a (some ⟨visit v, n⟩)) n cells :=
            hrest.congr fun b hb => Function.update_of_ne (ne_of_mem_of_not_mem hb hnew) ..
          have hslot₁ : Memory.load { m with
              heap := Function.update m.heap a (some ⟨visit v, n⟩) } (.next a) = some n := by
            simp [Memory.load]
          have hppa₁ : ∀ b ∈ cells.map Prod.fst, Slot.next a ≠ .next b := by
            rintro b hb ⟨⟩
            exact hnew hb
          obtain ⟨m', hm', hpruned⟩ := ih hfuel hslot₁ hrest₁ hppa₁
          refine ⟨m', ?_, hpruned.keep hdel hslot ha hpp hnew⟩
          simp [Memory.prune, hslot, ha, hdel, Memory.setVal, hm']

/-- A live node is put in front of a chain. -/
theorem push_spec {n : Option A} (ha : m.heap a = some ⟨v, n⟩) (hchain : Chain m.heap m.head cells)
    (hnew : a ∉ cells.map Prod.fst) :
    ∃ m', ((m.store (.next a) m.head).bind fun m => m.store .head (some a)) = some m' ∧
      Chain m'.heap m'.head ((a, v) :: cells) ∧ m'.freed = m.freed ∧
      ∀ b ≠ a, m'.heap b = m.heap b := by
  refine ⟨{ m with
    head := some a
    heap := Function.update m.heap a (some { val := v, next := m.head }) }, ?_, ?_, rfl, ?_⟩
  · simp [Memory.store, ha]
  · refine ⟨rfl, m.head, Function.update_self .., hchain.congr fun b hb => ?_⟩
    exact Function.update_of_ne (ne_of_mem_of_not_mem hb hnew) ..
  · exact fun b hb => Function.update_of_ne hb ..

end Prune

end Heap
