import SgMuni.Pending.Retransmission

/-!
# One entry for each client

`add_pending` unlinks the former entries of its client before it links the new
one, so that the list never holds two entries of a client. This is what makes
the early `break` in the loop of `bin_ack_handler` harmless.
-/

namespace SgMuni

namespace Resender

variable {s s' : Resender} {a : Action}

/-- No two entries of the list belong to one client. -/
def OnePerClient (s : Resender) : Prop :=
  (s.pending.map (·.clientFd)).Nodup

theorem OnePerClient.next (h : s.OnePerClient) (hn : s.next a = some s') : s'.OnePerClient := by
  cases a with
  | add fd str bincount now =>
      cases hn
      exact nodup_clientFd_addPending h
  | ack fd bincount =>
      cases hn
      rw [OnePerClient, map_clientFd_ackFirst]
      exact h
  | sweep now =>
      cases hn
      have hkept : ((SgMuni.sweep now s.pending).1.map (·.clientFd)) =
          (s.pending.filter (!·.closed)).map (·.clientFd) := by
        rw [sweep_fst, List.map_map]
        exact List.map_congr_left fun p _ => PendingAck.refresh_clientFd now p
      rw [OnePerClient, hkept]
      exact h.sublist (List.filter_sublist.map _)

theorem onePerClient_of_reachable (h : system.Reachable s) : s.OnePerClient := by
  apply h.invariant
  · intro s hinit
    simp [OnePerClient, hinit.1]
  · intro s a s' _ hn hs
    exact hs.next hn

/-- No client has two entries; adding one replaces what the client had and
keeps the rest as it is; an acknowledgement marks every entry that it fits. -/
theorem pending_one_per_client (h : system.Reachable s) :
    (s.pending.map (·.clientFd)).Nodup ∧
    (∀ fd str bincount now s', s.next (.add fd str bincount now) = some s' →
      s'.pending = newPending s.fresh fd str bincount now ::
        s.pending.filter (·.clientFd ≠ fd)) ∧
    ∀ fd bincount s', s.next (.ack fd bincount) = some s' →
      s' = { s with
        pending := s.pending.map fun p =>
          if p.clientFd = fd ∧ p.bincount = bincount then { p with acked := true } else p } := by
  have hone : s.OnePerClient := onePerClient_of_reachable h
  refine ⟨hone, ?_, ?_⟩
  · intro fd str bincount now s' hn
    cases hn
    exact congrArg _ (unlinkClient_eq_filter fd s.pending)
  · intro fd bincount s' hn
    cases hn
    exact congrArg (fun l => { s with pending := l }) (ackFirst_eq_map hone)

/-- Two clients, the first one added twice, and an acknowledgement. -/
theorem pending_one_per_client_run :
    ∃ s : Resender, system.exec { pending := [], fresh := 0, created := fun _ => 0, resends := [] }
      [.add 4 [] 1 100, .add 5 [] 1 100, .add 4 [] 2 101, .ack 4 2, .sweep 102] = some s ∧
      s.pending.map (·.clientFd) = [5] ∧ (s.pending.map (·.clientFd)).Nodup := by
  refine ⟨_, rfl, by decide, ?_⟩
  exact (pending_one_per_client (Transition.System.reachable_of_exec (S := system)
    (s := { pending := [], fresh := 0, created := fun _ => 0, resends := [] })
    [.add 4 [] 1 100, .add 5 [] 1 100, .add 4 [] 2 101, .ack 4 2, .sweep 102]
    ⟨rfl, rfl, rfl⟩ rfl)).1

end Resender

end SgMuni
