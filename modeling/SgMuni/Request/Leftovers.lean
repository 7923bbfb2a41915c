import SgMuni.Request.Framing
import SgMuni.Request.Grammar

/-!
# Bytes that were not received

`io_loop` reads into a block that it does not clear, and `parse_client_request`
is not told how many bytes were read. The parser stays within the bytes read,
and its result depends on these alone, exactly when they are not the beginning
of a command that goes on behind them.
-/

namespace SgMuni

/-- The commands of the protocol, an acknowledgement with digits of any value. -/
inductive Complete : List UInt8 → Prop
  | query : Complete cmdQues
  | clear : Complete cmdClr
  | ack {ds : List UInt8} (hds : Digits ds) : Complete (ackText ds)

/-- The bytes are the beginning of a command, but not all of it. -/
def Truncated (seg : List UInt8) : Prop := ∃ cmd, Complete cmd ∧ seg <+: cmd ∧ seg ≠ cmd

/-- What `on_message` obtains is the same for all blocks that begin with the
bytes read, and the parser finishes in a block that ends behind them. -/
structure BytesOnly (seg : List UInt8) : Prop where
  same : ∀ fd fill fill', seg.length + fill.length = maxMessage →
    seg.length + fill'.length = maxMessage →
    Pipeline.pairOf (Pipeline.block fd seg fill) = Pipeline.pairOf (Pipeline.block fd seg fill')
  inside : ∀ req, parseClientRequest req seg ≠ none

section Locality

variable {seg : List UInt8} {req : ClientRequest}

theorem startsWith_append_of_some {cmd : List UInt8} {n : Nat} {b : Bool}
    (h : startsWith seg cmd n = some b) (fill : List UInt8) :
    startsWith (seg ++ fill) cmd n = some b := by
  obtain ⟨x, hx, rfl⟩ := Option.map_eq_some_iff.mp h
  rw [startsWith, C.strncmp_append_of_some hx fill]
  rfl

theorem parseAck_append_of_some {p : List UInt8} {r : MsgType × ClientRequest}
    (h : parseAck req p = some r) (fill : List UInt8) : parseAck req (p ++ fill) = some r := by
  rcases digits_or_run p with hall | ⟨ds, c, q, hds, hc, rfl⟩
  · rw [parseAck_of_digits req hall] at h
    cases h
  · rw [List.append_assoc, List.cons_append, parseAck_run req hds hc]
    rw [parseAck_run req hds hc] at h
    split at h
    · next hend =>
        rw [if_pos hend]
        cases q with
        | nil => cases h
        | cons f q => exact h
    · next hend => rwa [if_neg hend]

/-- A parser that finishes within the bytes read does not see the others. -/
theorem parseClientRequest_append_of_some {r : MsgType × ClientRequest}
    (h : parseClientRequest req seg = some r) (fill : List UInt8) :
    parseClientRequest req (seg ++ fill) = some r := by
  unfold parseClientRequest at h ⊢
  cases hques : startsWith seg cmdQues 7 with
  | none => simp [hques] at h
  | some ques =>
      rw [startsWith_append_of_some hques fill]
      rw [hques] at h
      cases ques with
      | true => exact h
      | false =>
          cases hclr : startsWith seg cmdClr 7 with
          | none => simp [hclr] at h
          | some clr =>
              rw [startsWith_append_of_some hclr fill]
              rw [hclr] at h
              cases clr with
              | true => exact h
              | false =>
                  cases heql : startsWith seg cmdEql 5 with
                  | none => simp [heql] at h
                  | some eql =>
                      rw [startsWith_append_of_some heql fill]
                      rw [heql] at h
                      cases eql with
                      | false => exact h
                      | true =>
                          obtain ⟨p, rfl⟩ :=
                            (startsWith_eq_true_iff (by decide) seg).mp heql
                          exact parseAck_append_of_some h fill

end Locality

section Ends

variable (req : ClientRequest)

theorem startsWith_eq_none_iff {cmd : List UInt8} (hz : 0 ∉ cmd) (seg : List UInt8) :
    startsWith seg cmd cmd.length = none ↔ seg <+: cmd ∧ seg.length < cmd.length := by
  rw [← C.strncmp_eq_none_iff hz seg [0]]
  simp [startsWith]

theorem lt_of_prefix_of_ne {seg cmd : List UInt8} (h : seg <+: cmd) (hne : seg ≠ cmd) :
    seg.length < cmd.length := by
  by_contra hle
  exact hne (h.eq_of_length_le (not_lt.mp hle))

/-- The first two commands are short enough to try all their beginnings. -/
theorem parseClientRequest_take_cmdClr {k : Nat} (hk : k < 7) :
    parseClientRequest req (cmdClr.take k) = none := by
  interval_cases k <;> rfl

theorem parseClientRequest_take_cmdEql {k : Nat} (hk : k < 5) :
    parseClientRequest req (cmdEql.take k) = none := by
  interval_cases k <;> rfl

/-- The beginning of the digits and the end of an acknowledgement. -/
theorem parseAck_of_prefix {ds p : List UInt8} (hds : Digits ds) (hp : p <+: ds ++ cmdEnd)
    (hne : p ≠ ds ++ cmdEnd) : parseAck req p = none := by
  rcases List.prefix_or_prefix_of_prefix hp (List.prefix_append ds cmdEnd) with hshort | ⟨q, rfl⟩
  · apply parseAck_of_digits
    intro c hc
    exact hds.isdigit c (hshort.subset hc)
  · have hq : q <+: cmdEnd := (List.prefix_append_right_inj ds).mp hp
    have hlt : q.length < 2 := lt_of_prefix_of_ne hq fun h => hne (h ▸ rfl)
    match q, hq, hlt with
    | [], _, _ =>
        rw [List.append_nil]
        exact parseAck_of_digits req hds.isdigit
    | [c], hq, _ =>
        obtain ⟨rfl, -⟩ := List.cons_prefix_cons.mp hq
        rw [parseAck_run req hds.isdigit (by decide)]
        simp [hds.ne_nil]

theorem parseClientRequest_of_truncated {seg : List UInt8} (h : Truncated seg) :
    parseClientRequest req seg = none := by
  obtain ⟨cmd, hcmd, hpre, hne⟩ := h
  have hlt : seg.length < cmd.length := lt_of_prefix_of_ne hpre hne
  cases hcmd with
  | query =>
      have hnone : startsWith seg cmdQues 7 = none :=
        (startsWith_eq_none_iff (by decide) seg).mpr ⟨hpre, hlt⟩
      simp only [parseClientRequest, hnone]
  | clear =>
      rw [List.prefix_iff_eq_take.mp hpre]
      exact parseClientRequest_take_cmdClr req hlt
  | @ack ds hds =>
      rw [ackText, List.append_assoc] at hpre hne
      rcases List.prefix_or_prefix_of_prefix hpre (List.prefix_append cmdEql _) with
        hshort | ⟨p, rfl⟩
      · by_cases hall : seg = cmdEql
        · subst hall
          exact parseClientRequest_cmdEql req []
        · rw [List.prefix_iff_eq_take.mp hshort]
          exact parseClientRequest_take_cmdEql req (lt_of_prefix_of_ne hshort hall)
      · rw [parseClientRequest_cmdEql]
        apply parseAck_of_prefix req hds ((List.prefix_append_right_inj cmdEql).mp hpre)
        rintro rfl
        exact hne rfl

/-- The bytes behind `{BIN=` run out only in the digits or between the two bytes
of the end. -/
theorem truncated_of_parseAck {p : List UInt8} (h : parseAck req p = none) :
    Truncated (cmdEql ++ p) := by
  rcases digits_or_run p with hall | ⟨ds, c, q, hds, hc, rfl⟩
  · -- One more digit makes the run non-empty and the message complete.
    have hdigits : Digits (p ++ [48]) := by
      refine ⟨by simp, fun c hmem => ?_⟩
      rcases List.mem_append.mp hmem with hmem | hmem
      · exact hall c hmem
      · obtain rfl := List.mem_singleton.mp hmem
        decide
    refine ⟨_, .ack hdigits, ⟨48 :: cmdEnd, by simp [ackText]⟩, fun heq => ?_⟩
    simpa [ackText] using congrArg List.length heq
  · rw [parseAck_run req hds hc] at h
    split at h
    · next hend =>
        obtain ⟨hne, rfl⟩ := hend
        cases q with
        | nil =>
            refine ⟨_, .ack ⟨hne, hds⟩, ⟨[125], by simp [ackText, cmdEnd, ascii]⟩, fun heq => ?_⟩
            simpa [ackText, cmdEnd, ascii] using congrArg List.length heq
        | cons f q =>
            by_cases hf : f = 125 <;> simp [hf] at h
    · cases h

/-- A parser that reads behind the block found the beginning of a command. -/
theorem truncated_of_parseClientRequest {seg : List UInt8}
    (h : parseClientRequest req seg = none) : Truncated seg := by
  have hshort {cmd : List UInt8} (hz : 0 ∉ cmd) (hnone : startsWith seg cmd cmd.length = none) :
      seg <+: cmd ∧ seg ≠ cmd := by
    obtain ⟨hpre, hlt⟩ := (startsWith_eq_none_iff hz seg).mp hnone
    refine ⟨hpre, ?_⟩
    rintro rfl
    exact hlt.false
  unfold parseClientRequest at h
  cases hques : startsWith seg cmdQues 7 with
  | none => exact ⟨cmdQues, .query, hshort (by decide) hques⟩
  | some ques =>
      rw [hques] at h
      cases ques with
      | true => cases h
      | false =>
          cases hclr : startsWith seg cmdClr 7 with
          | none => exact ⟨cmdClr, .clear, hshort (by decide) hclr⟩
          | some clr =>
              rw [hclr] at h
              cases clr with
              | true => cases h
              | false =>
                  cases heql : startsWith seg cmdEql 5 with
                  | none =>
                      have hack : cmdEql <+: ackText [48] := ⟨48 :: cmdEnd, rfl⟩
                      obtain ⟨hpre, hne⟩ := hshort (by decide) heql
                      have hlt := lt_of_prefix_of_ne hpre hne
                      have hzero : Digits [48] := ⟨by decide, List.all_eq_true.mp rfl⟩
                      refine ⟨ackText [48], .ack hzero, hpre.trans hack, ?_⟩
                      rintro rfl
                      exact absurd hlt (by decide)
                  | some eql =>
                      rw [heql] at h
                      cases eql with
                      | false => cases h
                      | true =>
                          obtain ⟨p, rfl⟩ :=
                            (startsWith_eq_true_iff (by decide) seg).mp heql
                          exact truncated_of_parseAck req h

end Ends

/-- The parser depends on the bytes read alone, and stays within them, exactly
when they are not the beginning of a longer command. -/
theorem bytesOnly_iff (seg : List UInt8) : BytesOnly seg ↔ ¬Truncated seg := by
  constructor
  · intro h htruncated
    exact h.inside { clientFd := 0, bincount := 0 } (parseClientRequest_of_truncated _ htruncated)
  · intro h
    have hinside (req : ClientRequest) : parseClientRequest req seg ≠ none :=
      fun hnone => h (truncated_of_parseClientRequest req hnone)
    refine ⟨fun fd fill fill' _ _ => ?_, hinside⟩
    obtain ⟨r, hr⟩ := Option.ne_none_iff_exists'.mp (hinside { clientFd := fd, bincount := 0 })
    simp only [Pipeline.pairOf, Pipeline.block, onMessageTask,
      parseClientRequest_append_of_some hr]

/-- The bytes `{CLR?;`. -/
def cutClear : List UInt8 := ascii ['{', 'C', 'L', 'R', '?', ';']

/-- A clear request without its last byte is completed by a byte that an earlier
message left in the block. -/
theorem cutClear_completed :
    Pipeline.pairOf (Pipeline.block 6 cutClear (125 :: List.replicate 4089 0)) =
        some (.clrQuery, 0) ∧
      Pipeline.pairOf (Pipeline.block 6 cutClear (List.replicate 4090 0)) = some (.unknown, 0) ∧
      ¬BytesOnly cutClear := by
  have hleft : Pipeline.pairOf (Pipeline.block 6 cutClear (125 :: List.replicate 4089 0)) =
      some (.clrQuery, 0) := rfl
  have hzero : Pipeline.pairOf (Pipeline.block 6 cutClear (List.replicate 4090 0)) =
      some (.unknown, 0) := rfl
  refine ⟨hleft, hzero, fun h => ?_⟩
  have hsame := h.same 6 (125 :: List.replicate 4089 0) (List.replicate 4090 0)
    (by rw [List.length_cons, List.length_replicate]; rfl) (by rw [List.length_replicate]; rfl)
  rw [hleft, hzero] at hsame
  cases hsame

end SgMuni
