import SgMuni.Request.Grammar
import SgMuni.Pending.List

/-!
# The number that an acknowledgement names

The digit loop of `parse_client_request` has no bound. It stores the number of
an acknowledgement, without leaving the range of `int` on the way, exactly when
that number is an `int`.
-/

namespace SgMuni

/-- The parser rejects an acknowledgement with the digits `ds` or stores their
number, all sums of the digit loop are in range, and only entries with that
number are marked. -/
structure NumberKept (ds rest : List UInt8) : Prop where
  stored : ∀ req, ∃ t req', parseClientRequest req (ackText ds ++ rest) = some (t, req') ∧
    (t = .unknown ∨ req'.bincount = C.value ds)
  inRange : ∀ x ∈ C.sums 0 (ds ++ cmdEnd ++ rest), C.intMin ≤ x ∧ x ≤ C.intMax
  marked : ∀ req req', parseClientRequest req (ackText ds ++ rest) = some (.binAck, req') →
    ∀ pending, ∀ p ∈ ackFirst req'.clientFd req'.bincount pending,
      p ∉ pending → p.bincount = C.value ds

theorem sums_ack_iff {ds : List UInt8} (hds : Digits ds) (rest : List UInt8) :
    (∀ x ∈ C.sums 0 (ds ++ cmdEnd ++ rest), C.intMin ≤ x ∧ x ≤ C.intMax) ↔
      (C.value ds : Int) ≤ C.intMax := by
  rw [List.append_assoc]
  exact C.sums_le_intMax_iff hds.isdigit (c := 59) (by decide) (v := 0) (by decide) (125 :: rest)

/-- The number of an acknowledgement is kept exactly when it is an `int`. -/
theorem numberKept_iff {ds : List UInt8} (hds : Digits ds) (rest : List UInt8) :
    NumberKept ds rest ↔ (C.value ds : Int) ≤ C.intMax := by
  constructor
  · intro h
    exact (sums_ack_iff hds rest).mp h.inRange
  · intro hmax
    have hparse (req : ClientRequest) :
        parseClientRequest req (ackText ds ++ rest) =
          some (.binAck, { req with bincount := C.value ds }) := by
      rw [parseClientRequest_of_beginsAck req ⟨hds, List.prefix_append _ _⟩,
        C.wrap_of_range (Int.natCast_nonneg _) hmax]
    constructor
    · intro req
      exact ⟨_, _, hparse req, .inr rfl⟩
    · exact (sums_ack_iff hds rest).mpr hmax
    · intro req req' h pending p hp hnew
      obtain rfl := (Prod.mk.inj (Option.some.inj ((hparse req).symm.trans h))).2
      obtain ⟨q, hq, hsame | ⟨-, hcount, hmark⟩⟩ := mem_ackFirst hp
      · exact absurd (hsame ▸ hq) hnew
      · rw [hmark]
        exact hcount

/-- The digits `4294967297`. -/
def wideDigits : List UInt8 := ascii ['4', '2', '9', '4', '9', '6', '7', '2', '9', '7']

theorem digits_wideDigits : Digits wideDigits := ⟨by decide, List.all_eq_true.mp rfl⟩

theorem numberKept_iff_intMax :
    NumberKept (ascii ['2', '1', '4', '7', '4', '8', '3', '6', '4', '7']) [0] :=
  (numberKept_iff ⟨by decide, List.all_eq_true.mp rfl⟩ [0]).mpr (by decide)

/-- An acknowledgement of 4294967297 marks the entry with the count 1. -/
theorem wide_ack_marks_one :
    Digits wideDigits ∧ C.value wideDigits = 4294967297 ∧
      parseClientRequest { clientFd := 6, bincount := 0 } (ackText wideDigits ++ [0]) =
        some (.binAck, { clientFd := 6, bincount := 1 }) ∧
      (∃ p ∈ ackFirst 6 1 [newPending 0 6 [] 1 0], p.bincount = 1 ∧ p.acked = true) ∧
      ¬NumberKept wideDigits [0] := by
  have hparse : parseClientRequest { clientFd := 6, bincount := 0 } (ackText wideDigits ++ [0]) =
      some (.binAck, { clientFd := 6, bincount := 1 }) := by decide
  refine ⟨digits_wideDigits, by decide, hparse, by decide, ?_⟩
  intro h
  obtain ⟨t, req', hkept, hkind⟩ := h.stored { clientFd := 6, bincount := 0 }
  cases hparse.symm.trans hkept
  rcases hkind with hunknown | hstored
  · cases hunknown
  · exact absurd hstored (by decide)

end SgMuni
