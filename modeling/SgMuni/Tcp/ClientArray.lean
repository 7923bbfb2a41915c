import SgMuni.Request.Parser
import SgMuni.Tcp.Registry
import Mathlib.Data.Multiset.AddSub

/-!
# The array behind the registry

`clients`, `clients_cap` and `clients_cnt` of the server: `io_loop` doubles a
full block before it appends, `cleanup_connection` moves the last entry into the
gap, and `SgTcpServer_get_clients` copies the entries. An access to an index that
is not below `clients_cap` has no result.

## Implementation notes

`realloc` succeeds, so that the sizes stay far below the range of `size_t`; what
the new part of the block holds is arbitrary. The functions run under
`clients_mtx`.
-/

namespace SgMuni

/-- The block that `clients` points to, `clients_cap` and `clients_cnt`. -/
structure ClientArray where
  cells : List Fd
  cap : Nat
  cnt : Nat

namespace ClientArray

/-- A read of `clients[i]`. -/
def load (s : ClientArray) (i : Nat) : Option Fd := if i < s.cap then s.cells[i]? else none

/-- An assignment to `clients[i]`. -/
def store (s : ClientArray) (i : Nat) (fd : Fd) : Option ClientArray :=
  if i < s.cap ∧ i < s.cells.length then some { s with cells := s.cells.set i fd } else none

/-- `realloc` to `n` entries, of which the new ones hold `junk`. -/
def realloc (cells : List Fd) (n : Nat) (junk : Nat → Fd) : List Fd :=
  (List.range n).map fun i => cells.getD i (junk i)

/-- The growth in `io_loop`. -/
def grow (s : ClientArray) (junk : Nat → Fd) : ClientArray :=
  let newcap := if s.cap ≠ 0 then s.cap * 2 else 16
  { s with
    cells := realloc s.cells newcap junk
    cap := newcap }

/-- `io_loop` registers an accepted connection. -/
def register (s : ClientArray) (c : Fd) (junk : Nat → Fd) : Option ClientArray :=
  let s := if s.cnt = s.cap then s.grow junk else s
  (s.store s.cnt c).map fun s => { s with cnt := s.cnt + 1 }

/-- The loop of `cleanup_connection` at the index `i`, with `rest` entries from
there to `clients_cnt`. -/
def cleanupLoop (s : ClientArray) (fd : Fd) : Nat → Nat → Option ClientArray
  | 0, _ => some s
  | rest + 1, i =>
      match s.load i with
      | none => none
      | some c =>
          if c = fd then
            let s := { s with cnt := s.cnt - 1 }
            match s.load s.cnt with
            | none => none
            | some last => s.store i last
          else cleanupLoop s fd rest (i + 1)

/-- The critical section of `cleanup_connection`. -/
def cleanupConnection (s : ClientArray) (fd : Fd) : Option ClientArray :=
  s.cleanupLoop fd s.cnt 0

/-- What `SgTcpServer_get_clients` returns. -/
structure ClientList where
  result : Int
  count : Nat
  list : Option (List Fd)
deriving DecidableEq

/-- `SgTcpServer_get_clients`; `malloc` says whether the list was allocated. -/
def getClients (s : ClientArray) (malloc : Bool) : Option ClientList :=
  if malloc then
    if s.cnt ≤ s.cap then
      some { result := 0, count := s.cnt, list := some (s.cells.take s.cnt) }
    else none
  else some { result := -1, count := s.cnt, list := none }

/-- Registrations and removals. -/
inductive Op
  | register (c : Fd) (junk : Nat → Fd)
  | cleanup (fd : Fd)

def step (s : ClientArray) : Op → Option ClientArray
  | .register c junk => s.register c junk
  | .cleanup fd => s.cleanupConnection fd

/-- The array of a new server. -/
def start : ClientArray where
  cells := []
  cap := 0
  cnt := 0

def run (ops : List Op) : Option ClientArray := ops.foldlM step start

/-- The entries in use. -/
def entries (s : ClientArray) : List Fd := s.cells.take s.cnt

/-- What an operation does to the entries, as a multiset. -/
def Op.apply : Op → Multiset Fd → Multiset Fd
  | .register c _, m => c ::ₘ m
  | .cleanup fd, m => m.erase fd

/-- The descriptors registered, less one occurrence for each removal that finds one. -/
def registered (ops : List Op) : Multiset Fd := ops.foldl (fun m op => op.apply m) 0

/-- The block has `clients_cap` entries, and not more are in use. -/
structure Wf (s : ClientArray) : Prop where
  length : s.cells.length = s.cap
  cnt_le : s.cnt ≤ s.cap

variable {s s' : ClientArray}

theorem wf_start : Wf start := ⟨rfl, le_rfl⟩

@[simp] theorem length_realloc (cells : List Fd) (n : Nat) (junk : Nat → Fd) :
    (realloc cells n junk).length = n := by
  simp [realloc]

/-- A larger block begins with the old one. -/
theorem take_realloc {cells : List Fd} {n k : Nat} (hn : cells.length ≤ n) (hk : k ≤ cells.length)
    (junk : Nat → Fd) : (realloc cells n junk).take k = cells.take k := by
  apply List.ext_getElem
  · simp only [List.length_take, length_realloc]
    omega
  · intro i hi hi'
    have hlt : i < cells.length := by
      rw [List.length_take] at hi'
      omega
    simp [realloc, hlt]

theorem Wf.grow (h : s.Wf) (junk : Nat → Fd) : (s.grow junk).Wf where
  length := length_realloc _ _ _
  cnt_le := by
    have hle := h.cnt_le
    simp only [ClientArray.grow]
    split <;> omega

/-- Growth keeps all entries. -/
theorem Wf.entries_grow (h : s.Wf) (junk : Nat → Fd) : (s.grow junk).entries = s.entries := by
  have hle := h.cnt_le
  have hlen := h.length
  have hnew : s.cells.length ≤ if s.cap ≠ 0 then s.cap * 2 else 16 := by
    split <;> omega
  exact take_realloc hnew (hlen ▸ hle) junk

theorem Wf.length_entries (h : s.Wf) : s.entries.length = s.cnt := by
  have hle := h.cnt_le
  rw [entries, List.length_take, h.length]
  omega

theorem Wf.load_eq (h : s.Wf) {i : Nat} (hi : i < s.cnt) : s.load i = s.entries[i]? := by
  have hle := h.cnt_le
  rw [load, if_pos (by omega), entries, List.getElem?_take_of_lt hi]

theorem Wf.store_eq (h : s.Wf) {i : Nat} (hi : i < s.cap) (fd : Fd) :
    s.store i fd = some { s with cells := s.cells.set i fd } :=
  if_pos ⟨hi, h.length ▸ hi⟩

/-- With room an entry is appended. -/
theorem Wf.append (h : s.Wf) (hroom : s.cnt < s.cap) (c : Fd) :
    ∃ s', (s.store s.cnt c).map (fun s => { s with cnt := s.cnt + 1 }) = some s' ∧ s'.Wf ∧
      s'.entries = s.entries ++ [c] := by
  refine ⟨{ s with cells := s.cells.set s.cnt c, cnt := s.cnt + 1 }, ?_, ?_, ?_⟩
  · rw [h.store_eq hroom]
    rfl
  · constructor
    · simp [h.length]
    · exact hroom
  · have hlt : s.cnt < s.cells.length := h.length ▸ hroom
    simp only [entries]
    rw [List.take_add_one, List.take_set_of_le le_rfl, List.getElem?_set_self hlt]
    rfl

theorem Wf.register (h : s.Wf) (c : Fd) (junk : Nat → Fd) :
    ∃ s', s.register c junk = some s' ∧ s'.Wf ∧ s'.entries = s.entries ++ [c] := by
  unfold ClientArray.register
  split
  · next hfull =>
      have hroom : (s.grow junk).cnt < (s.grow junk).cap := by
        change s.cnt < if s.cap ≠ 0 then s.cap * 2 else 16
        split <;> omega
      rw [← h.entries_grow junk]
      exact (h.grow junk).append hroom c
  · next hfull =>
      have hle := h.cnt_le
      exact h.append (by omega) c

/-- Up to `clients_cnt` the assignment of the last entry gives the array without
the gap. -/
theorem Wf.entries_gap (h : s.Wf) {i : Nat} (hi : i < s.entries.length) {fd last : Fd}
    (hmatch : s.entries[i] = fd) (hbefore : ∀ c ∈ s.entries.take i, c ≠ fd)
    (hlast : s.entries.getLast? = some last) :
    (s.cells.set i last).take (s.cnt - 1) = removeClient (· = fd) s.entries := by
  have hfind : s.entries.findIdx? (· = fd) = some i := by
    rw [List.findIdx?_eq_some_iff_getElem]
    refine ⟨hi, by simpa using hmatch, fun j hj => ?_⟩
    have hmem : s.entries[j] ∈ s.entries.take i := List.mem_take_iff_getElem.mpr ⟨j, by omega, rfl⟩
    simpa using hbefore _ hmem
  have hlen := h.length_entries
  simp only [removeClient, hfind, hlast]
  rw [List.dropLast_eq_take, List.length_set, hlen, entries, ← List.take_set, List.take_take]
  congr 1
  omega

/-- The loop from the index `i` on, before which no entry matches. -/
theorem Wf.cleanupLoop (h : s.Wf) (fd : Fd) {rest i : Nat} (hi : i + rest = s.cnt)
    (hbefore : ∀ c ∈ s.entries.take i, c ≠ fd) :
    ∃ s', s.cleanupLoop fd rest i = some s' ∧ s'.Wf ∧
      s'.entries = removeClient (· = fd) s.entries ∧ (fd ∉ s.entries → s' = s) := by
  induction rest generalizing i with
  | zero =>
      have hlen := h.length_entries
      have hall : ∀ c ∈ s.entries, c ≠ fd := by
        rwa [List.take_of_length_le (by omega)] at hbefore
      refine ⟨s, rfl, h, ?_, fun _ => rfl⟩
      rw [removeClient_eq_self (by simpa using hall)]
  | succ rest ih =>
      have hlt : i < s.entries.length := by
        rw [h.length_entries]
        omega
      have hload : s.load i = some s.entries[i] := by
        rw [h.load_eq (by omega), List.getElem?_eq_getElem hlt]
      rw [ClientArray.cleanupLoop, hload]
      dsimp only
      split
      · next hmatch =>
          have hlen := h.length_entries
          have hend : s.cnt - 1 < s.entries.length := by omega
          have hlast : s.load (s.cnt - 1) = some s.entries[s.cnt - 1] := by
            rw [h.load_eq (by omega), List.getElem?_eq_getElem hend]
          have hget : s.entries.getLast? = some s.entries[s.cnt - 1] := by
            rw [List.getLast?_eq_getElem?, hlen, List.getElem?_eq_getElem hend]
          refine ⟨{ s with
            cells := s.cells.set i s.entries[s.cnt - 1]
            cnt := s.cnt - 1 }, ?_, ?_, h.entries_gap hlt hmatch hbefore hget, ?_⟩
          · have hwf : Wf { s with cnt := s.cnt - 1 } :=
              ⟨h.length, (Nat.sub_le _ _).trans h.cnt_le⟩
            have hcap : i < s.cap := by
              have hle := h.cnt_le
              omega
            change (match s.load (s.cnt - 1) with
              | none => none
              | some last => store { s with cnt := s.cnt - 1 } i last) = _
            rw [hlast]
            exact hwf.store_eq hcap _
          · exact ⟨by simp [h.length], (Nat.sub_le _ _).trans h.cnt_le⟩
          · intro habsent
            exact absurd (hmatch ▸ List.getElem_mem hlt) habsent
      · next hother =>
          apply ih (by omega)
          intro c hc
          rw [List.take_add_one, List.getElem?_eq_getElem hlt] at hc
          rcases List.mem_append.mp hc with hc | hc
          · exact hbefore c hc
          · cases List.mem_singleton.mp hc
            exact hother

theorem Wf.cleanupConnection (h : s.Wf) (fd : Fd) :
    ∃ s', s.cleanupConnection fd = some s' ∧ s'.Wf ∧
      s'.entries = removeClient (· = fd) s.entries ∧ (fd ∉ s.entries → s' = s) :=
  h.cleanupLoop fd (Nat.zero_add _) nofun

theorem Wf.step (h : s.Wf) (op : Op) :
    ∃ s', s.step op = some s' ∧ s'.Wf ∧ (s'.entries : Multiset Fd) = op.apply s.entries := by
  cases op with
  | register c junk =>
      obtain ⟨s', hs', hwf, hentries⟩ := h.register c junk
      refine ⟨s', hs', hwf, ?_⟩
      rw [hentries, Op.apply, Multiset.cons_coe, Multiset.coe_eq_coe]
      exact List.perm_append_singleton c s.entries
  | cleanup fd =>
      obtain ⟨s', hs', hwf, hentries, -⟩ := h.cleanupConnection fd
      refine ⟨s', hs', hwf, ?_⟩
      rw [hentries, Op.apply, Multiset.coe_erase, Multiset.coe_eq_coe]
      simpa using map_removeClient_perm id fd s.entries

theorem wf_of_foldlM (h : s.Wf) (ops : List Op) :
    ∃ s', ops.foldlM ClientArray.step s = some s' ∧ s'.Wf ∧
      (s'.entries : Multiset Fd) =
        ops.foldl (fun (m : Multiset Fd) op => op.apply m) (s.entries : Multiset Fd) := by
  induction ops generalizing s with
  | nil => exact ⟨s, rfl, h, rfl⟩
  | cons op ops ih =>
      obtain ⟨u, hu, hwf, hentries⟩ := h.step op
      obtain ⟨s', hs', hwf', hentries'⟩ := ih hwf
      refine ⟨s', ?_, hwf', ?_⟩
      · rw [List.foldlM_cons, hu]
        exact hs'
      · rw [hentries', hentries, List.foldl_cons]

/-- What the functions do in a state of the array. -/
structure Behaves (s : ClientArray) : Prop where
  cnt_le : s.cnt ≤ s.cap
  growth : ∀ junk, (s.grow junk).entries = s.entries
  register : ∀ c junk, ∃ s', s.register c junk = some s' ∧ s'.entries = s.entries ++ [c]
  cleanup : ∀ fd, ∃ s', s.cleanupConnection fd = some s' ∧
    s'.entries.Perm (s.entries.erase fd)
  absent : ∀ fd, fd ∉ s.entries → s.cleanupConnection fd = some s
  clients : s.getClients true =
    some { result := 0, count := s.entries.length, list := some s.entries }

/-- Whatever is registered and removed, no access is out of bounds, and the
entries are the descriptors registered and not removed. -/
theorem entries_registered (ops : List Op) :
    ∃ s, run ops = some s ∧ (s.entries : Multiset Fd) = registered ops ∧ s.Behaves := by
  obtain ⟨s, hrun, hwf, hentries⟩ := wf_of_foldlM wf_start ops
  refine ⟨s, hrun, hentries, hwf.cnt_le, hwf.entries_grow, ?_, ?_, ?_, ?_⟩
  · intro c junk
    obtain ⟨s', hs', -, happend⟩ := hwf.register c junk
    exact ⟨s', hs', happend⟩
  · intro fd
    obtain ⟨s', hs', -, hgap, -⟩ := hwf.cleanupConnection fd
    refine ⟨s', hs', ?_⟩
    rw [hgap]
    simpa using map_removeClient_perm id fd s.entries
  · intro fd habsent
    obtain ⟨s', hs', -, -, hsame⟩ := hwf.cleanupConnection fd
    rw [hs', hsame habsent]
  · rw [getClients, if_pos rfl, if_pos hwf.cnt_le, hwf.length_entries]
    rfl

end ClientArray

end SgMuni
