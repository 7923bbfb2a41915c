import Mathlib.Data.List.Perm.Basic

/-!
# The client registry

The array `clients` with its count `clients_cnt`, as the list of the entries in
use. `io_loop` appends to it; `cleanup_connection` removes from it by moving the
last entry into the gap.
-/

namespace SgMuni

variable {α : Type*}

/-- The loop of `cleanup_connection`: the last entry replaces the first match. -/
def removeClient (isFd : α → Bool) (clients : List α) : List α :=
  match clients.findIdx? isFd, clients.getLast? with
  | some i, some last => (clients.set i last).dropLast
  | _, _ => clients

/-- Up to order, the loop erases the first match. -/
theorem removeClient_perm (isFd : α → Bool) (clients : List α) :
    (removeClient isFd clients).Perm (clients.eraseP isFd) := by
  unfold removeClient
  rw [List.eraseP_eq_eraseIdx]
  cases hfind : clients.findIdx? isFd with
  | none => exact .refl clients
  | some i =>
      obtain ⟨hi, -⟩ := List.findIdx?_eq_some_iff_getElem.mp hfind
      have hne : clients ≠ [] := List.ne_nil_of_length_pos (Nat.zero_lt_of_lt hi)
      rw [List.getLast?_eq_some_getLast hne]
      have hend : (clients.set i (clients.getLast hne)).getLast? =
          some (clients.getLast hne) := by
        grind
      have hperm := List.set_perm_cons_eraseIdx hi (clients.getLast hne)
      rw [← List.dropLast_append_getLast? _ hend] at hperm
      exact (List.perm_append_comm.trans hperm).cons_inv

theorem mem_of_mem_removeClient {isFd : α → Bool} {clients : List α} {c : α}
    (h : c ∈ removeClient isFd clients) : c ∈ clients :=
  List.mem_of_mem_eraseP ((removeClient_perm isFd clients).mem_iff.mp h)

theorem removeClient_eq_self {isFd : α → Bool} {clients : List α}
    (h : ∀ c ∈ clients, ¬isFd c) : removeClient isFd clients = clients := by
  have hnone : clients.findIdx? isFd = none := List.findIdx?_eq_none_iff.mpr (by simpa using h)
  simp only [removeClient, hnone]

/-- As a list of numbers, up to order, the registry loses the number once. -/
theorem map_removeClient_perm {β : Type*} [DecidableEq β] (f : α → β) (b : β)
    (clients : List α) :
    ((removeClient (f · = b) clients).map f).Perm ((clients.map f).erase b) := by
  have herase : (clients.map f).erase b = (clients.eraseP (f · = b)).map f := by
    rw [List.erase_eq_eraseP', List.eraseP_map]
    rfl
  rw [herase]
  exact (removeClient_perm _ clients).map f

end SgMuni
