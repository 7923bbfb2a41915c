import SgMuni.Lift.Message

/-!
# The requests that the parser accepts

A NUL-terminated message is a query, a clear request or an acknowledgement
exactly when it begins with the command, an acknowledgement being `{BIN=`, a run
of digits of any length and `;}`. The server's own text for a count is an
acknowledgement of it.
-/

namespace SgMuni

/-- The text of an acknowledgement with the digits `ds`. -/
def ackText (ds : List UInt8) : List UInt8 := cmdEql ++ ds ++ cmdEnd

/-- A non-empty run of digits, of any value. -/
structure Digits (ds : List UInt8) : Prop where
  ne_nil : ds ≠ []
  isdigit : ∀ c ∈ ds, C.isdigit c = true

/-- The message begins with an acknowledgement that has the digits `ds`. -/
def BeginsAck (ds msg : List UInt8) : Prop := Digits ds ∧ ackText ds <+: msg

section Comparisons

variable {cmd msg : List UInt8}

/-- A comparison with a command ends at the terminating zero at the latest. -/
theorem startsWith_of_terminated (hz : 0 ∉ cmd) (hnul : 0 ∈ msg) :
    startsWith msg cmd cmd.length = some (decide (cmd <+: msg)) := by
  cases h : startsWith msg cmd cmd.length with
  | none =>
      have hnone : C.strncmp msg (cmd ++ [0]) cmd.length = none := by
        simpa [startsWith] using h
      have hpre : msg <+: cmd := ((C.strncmp_eq_none_iff hz msg [0]).mp hnone).1
      exact absurd (hpre.subset hnul) hz
  | some b =>
      have hiff := startsWith_eq_true_iff hz msg
      rw [h] at hiff
      cases b <;> simp_all

end Comparisons

section Acknowledgements

variable {ds p : List UInt8} (req : ClientRequest)

/-- The acknowledgement branch on digits, another byte `c` and the bytes behind it. -/
theorem parseAck_run (hds : ∀ d ∈ ds, C.isdigit d = true) {c : UInt8} (hc : C.isdigit c = false)
    (q : List UInt8) :
    parseAck req (ds ++ c :: q) =
      if ds ≠ [] ∧ c = 59 then
        match q with
        | [] => none
        | f :: _ =>
            if f = 125 then some (.binAck, { req with bincount := C.wrap (C.value ds) })
            else some (.unknown, req)
      else some (.unknown, req) := by
  cases ds with
  | nil => simp [parseAck, hc]
  | cons d ds =>
      have hd : C.isdigit d = true := hds d List.mem_cons_self
      have hscan : C.scanDigits 0 (d :: (ds ++ c :: q)) =
          some (C.wrap (C.value (d :: ds)), c :: q) := by
        rw [← C.accumulate_zero hds, ← C.scanDigits_run hds hc 0 q, List.cons_append]
      rw [List.cons_append, parseAck.eq_def]
      simp only [hd, if_true, hscan]
      by_cases h : c = 59
      · subst h
        cases q with
        | nil => simp [ascii]
        | cons f q => simp [cmdEnd, ascii]
      · cases q with
        | nil => simp [ascii, h]
        | cons f q => simp [cmdEnd, ascii, h]

theorem parseAck_of_digits (hp : ∀ c ∈ p, C.isdigit c = true) : parseAck req p = none := by
  cases p with
  | nil => rfl
  | cons c p =>
      have hc : C.isdigit c = true := hp c List.mem_cons_self
      rw [parseAck.eq_def]
      simp only [hc, if_true, (C.scanDigits_eq_none_iff 0 (c :: p)).mpr hp]

/-- Either all bytes are digits, or a first one is not. -/
theorem digits_or_run (p : List UInt8) :
    (∀ c ∈ p, C.isdigit c = true) ∨ ∃ ds c q, (∀ d ∈ ds, C.isdigit d = true) ∧
      C.isdigit c = false ∧ p = ds ++ c :: q := by
  induction p with
  | nil => exact .inl nofun
  | cons a p ih =>
      by_cases ha : C.isdigit a = true
      · rcases ih with hall | ⟨ds, c, q, hds, hc, rfl⟩
        · exact .inl (List.forall_mem_cons.mpr ⟨ha, hall⟩)
        · exact .inr ⟨a :: ds, c, q, List.forall_mem_cons.mpr ⟨ha, hds⟩, hc, rfl⟩
      · exact .inr ⟨[], a, p, nofun, Bool.eq_false_iff.mpr ha, rfl⟩

/-- A complete acknowledgement, whatever number it denotes. -/
theorem parseAck_of_digits_end (hds : Digits ds) (rest : List UInt8) :
    parseAck req (ds ++ cmdEnd ++ rest) =
      some (.binAck, { req with bincount := C.wrap (C.value ds) }) := by
  have hrun := parseAck_run req hds.isdigit (c := 59) (by decide) (125 :: rest)
  have hp : ds ++ cmdEnd ++ rest = ds ++ 59 :: 125 :: rest := by simp [cmdEnd, ascii]
  rw [hp, hrun]
  simp [hds.ne_nil]

theorem parseAck_of_not_end (hnul : 0 ∈ p) (hnot : ¬∃ ds, Digits ds ∧ ds ++ cmdEnd <+: p) :
    parseAck req p = some (.unknown, req) := by
  rcases digits_or_run p with hall | ⟨ds, c, q, hds, hc, rfl⟩
  · exact absurd (hall 0 hnul) (by decide)
  · rw [parseAck_run req hds hc]
    split
    · next hend =>
        obtain ⟨hne, rfl⟩ := hend
        cases q with
        | nil =>
            rcases List.mem_append.mp hnul with hmem | hmem
            · exact absurd (hds 0 hmem) (by decide)
            · simp at hmem
        | cons f q =>
            have hf : f ≠ 125 := by
              rintro rfl
              exact hnot ⟨ds, ⟨hne, hds⟩, q, by simp [cmdEnd, ascii]⟩
            simp [hf]
    · rfl

end Acknowledgements

/-- Two commands that do not begin alike are not both at the start of a message. -/
theorem not_begins_of_begins {a b msg : List UInt8} (hab : ¬a <+: b) (hba : ¬b <+: a)
    (h : a <+: msg) : ¬b <+: msg := by
  intro hb
  rcases List.prefix_or_prefix_of_prefix h hb with h | h
  · exact hab h
  · exact hba h

theorem cmdEql_prefix_of_beginsAck {ds msg : List UInt8} (h : BeginsAck ds msg) :
    cmdEql <+: msg := by
  have hack : cmdEql <+: ackText ds := ⟨ds ++ cmdEnd, by rw [ackText, List.append_assoc]⟩
  exact hack.trans h.2

/-- What the type of a message says of its first bytes. -/
structure Classified (msg : List UInt8) (t : MsgType) : Prop where
  binQuery : t = .binQuery ↔ cmdQues <+: msg
  clrQuery : t = .clrQuery ↔ cmdClr <+: msg
  binAck : t = .binAck ↔ ∃ ds, BeginsAck ds msg
  unknown : t = .unknown ↔ ¬cmdQues <+: msg ∧ ¬cmdClr <+: msg ∧ ¬∃ ds, BeginsAck ds msg

section Messages

variable {msg : List UInt8} (req : ClientRequest)

theorem parseClientRequest_of_terminated (hnul : 0 ∈ msg) :
    parseClientRequest req msg =
      if cmdQues <+: msg then some (.binQuery, req)
      else if cmdClr <+: msg then some (.clrQuery, req)
      else if cmdEql <+: msg then parseAck req (msg.drop 5)
      else some (.unknown, req) := by
  have hques : startsWith msg cmdQues 7 = some (decide (cmdQues <+: msg)) :=
    startsWith_of_terminated (by decide) hnul
  have hclr : startsWith msg cmdClr 7 = some (decide (cmdClr <+: msg)) :=
    startsWith_of_terminated (by decide) hnul
  have heql : startsWith msg cmdEql 5 = some (decide (cmdEql <+: msg)) :=
    startsWith_of_terminated (by decide) hnul
  by_cases hq : cmdQues <+: msg
  · simp [parseClientRequest, hques, hq]
  · by_cases hc : cmdClr <+: msg
    · simp [parseClientRequest, hques, hclr, hq, hc]
    · by_cases he : cmdEql <+: msg <;> simp [parseClientRequest, hques, hclr, heql, hq, hc, he]

theorem parseClientRequest_of_beginsAck {ds : List UInt8} (h : BeginsAck ds msg) :
    parseClientRequest req msg =
      some (.binAck, { req with bincount := C.wrap (C.value ds) }) := by
  obtain ⟨hds, rest, rfl⟩ := h
  have hassoc : ackText ds ++ rest = cmdEql ++ (ds ++ cmdEnd ++ rest) := by
    simp [ackText, List.append_assoc]
  rw [hassoc, parseClientRequest_cmdEql]
  exact parseAck_of_digits_end req hds rest

/-- A terminated message that begins as an acknowledgement and goes on otherwise. -/
theorem parseClientRequest_of_not_beginsAck {p : List UInt8} (hnul : 0 ∈ cmdEql ++ p)
    (hnot : ¬∃ ds, BeginsAck ds (cmdEql ++ p)) :
    parseClientRequest req (cmdEql ++ p) = some (.unknown, req) := by
  rw [parseClientRequest_cmdEql]
  apply parseAck_of_not_end
  · exact (List.mem_append.mp hnul).resolve_left (by decide)
  · rintro ⟨ds, hds, rest, rfl⟩
    exact hnot ⟨ds, hds, rest, by simp [ackText, List.append_assoc]⟩

/-- Every terminated message has one type, and only an acknowledgement changes
the request. -/
theorem parseClientRequest_classified (hnul : 0 ∈ msg) :
    ∃ t req', parseClientRequest req msg = some (t, req') ∧ Classified msg t ∧
      (t ≠ .binAck → req' = req) := by
  have hack : cmdEql <+: msg → ¬cmdQues <+: msg ∧ ¬cmdClr <+: msg := by
    intro h
    exact ⟨not_begins_of_begins (by decide) (by decide) h,
      not_begins_of_begins (by decide) (by decide) h⟩
  by_cases hq : cmdQues <+: msg
  · have hc : ¬cmdClr <+: msg := not_begins_of_begins (by decide) (by decide) hq
    have ha : ¬∃ ds, BeginsAck ds msg := by
      rintro ⟨ds, h⟩
      exact (hack (cmdEql_prefix_of_beginsAck h)).1 hq
    refine ⟨.binQuery, req, ?_, ?_, fun _ => rfl⟩
    · rw [parseClientRequest_of_terminated req hnul, if_pos hq]
    · constructor <;> simp [hq, hc, ha]
  · by_cases hc : cmdClr <+: msg
    · have ha : ¬∃ ds, BeginsAck ds msg := by
        rintro ⟨ds, h⟩
        exact (hack (cmdEql_prefix_of_beginsAck h)).2 hc
      refine ⟨.clrQuery, req, ?_, ?_, fun _ => rfl⟩
      · rw [parseClientRequest_of_terminated req hnul, if_neg hq, if_pos hc]
      · constructor <;> simp [hq, hc, ha]
    · by_cases ha : ∃ ds, BeginsAck ds msg
      · obtain ⟨ds, h⟩ := ha
        refine ⟨.binAck, _, parseClientRequest_of_beginsAck req h, ?_, fun h => absurd rfl h⟩
        have hex : ∃ ds, BeginsAck ds msg := ⟨ds, h⟩
        constructor <;> simp [hq, hc, hex]
      · refine ⟨.unknown, req, ?_, ?_, fun _ => rfl⟩
        · by_cases he : cmdEql <+: msg
          · obtain ⟨p, rfl⟩ := he
            exact parseClientRequest_of_not_beginsAck req hnul ha
          · rw [parseClientRequest_of_terminated req hnul, if_neg hq, if_neg hc, if_neg he]
        · constructor <;> simp [hq, hc, ha]

end Messages

/-- A digit run without superfluous zeros is the number's own text. -/
theorem binText_prefix_of_beginsAck {ds msg : List UInt8} (h : BeginsAck ds msg)
    (hzero : ds.head? = some 48 → ds = [48]) : binText (C.value ds) <+: msg := by
  have hdecimal : C.decimal (C.value ds) = ds := C.decimal_value h.1.isdigit h.1.ne_nil hzero
  have htext : binText (C.value ds) = ackText ds := by
    simp [binText, ackText, C.formatInt, hdecimal]
  rw [htext]
  exact h.2

theorem beginsAck_binText (n : Nat) (r : List UInt8) :
    BeginsAck (C.decimal n) (binText n ++ r) := by
  refine ⟨⟨C.decimal_ne_nil n, fun c hc => C.isdigit_of_mem_decimal hc⟩, r, ?_⟩
  simp [binText, ackText, C.formatInt]

/-- The server's text for a count is read back as an acknowledgement of it; an
acknowledgement without superfluous zeros begins with the text for its number;
and the type of a message says with which command it begins. -/
theorem counts_coded :
    (∀ (n : Int) (r : List UInt8) (req : ClientRequest), 0 ≤ n → n ≤ C.intMax →
      parseClientRequest req (binText n ++ r) = some (.binAck, { req with bincount := n })) ∧
    (∀ (msg : List UInt8) (req req' : ClientRequest), 0 ∈ msg →
      parseClientRequest req msg = some (.binAck, req') →
      ∃ ds, BeginsAck ds msg ∧
        ((C.value ds : Int) ≤ C.intMax → (ds.head? = some 48 → ds = [48]) →
          req'.bincount = C.value ds ∧ binText (C.value ds) <+: msg)) ∧
    ∀ (msg : List UInt8) (req : ClientRequest), 0 ∈ msg →
      ∃ t req', parseClientRequest req msg = some (t, req') ∧ Classified msg t ∧
        (t ≠ .binAck → req' = req) := by
  refine ⟨?_, ?_, ?_⟩
  · intro n r req hlo hhi
    obtain ⟨k, rfl⟩ := Int.eq_ofNat_of_zero_le hlo
    rw [parseClientRequest_of_beginsAck req (beginsAck_binText k r), C.value_decimal,
      C.wrap_of_range hlo hhi]
  · intro msg req req' hnul hparse
    obtain ⟨t, req'', h, hclass, -⟩ := parseClientRequest_classified req hnul
    cases h.symm.trans hparse
    obtain ⟨ds, hds⟩ := hclass.binAck.mp rfl
    refine ⟨ds, hds, fun hmax hzero => ⟨?_, binText_prefix_of_beginsAck hds hzero⟩⟩
    have hack := (parseClientRequest_of_beginsAck req hds).symm.trans hparse
    obtain rfl := (Prod.mk.inj (Option.some.inj hack)).2
    simp only [C.wrap_of_range (Int.natCast_nonneg _) hmax]
  · intro msg req hnul
    exact parseClientRequest_classified req hnul

/-- The text `{BIN=7;}` and its terminating zero. -/
theorem counts_coded_seven :
    parseClientRequest { clientFd := 6, bincount := 0 } (binText 7 ++ [0]) =
      some (.binAck, { clientFd := 6, bincount := 7 }) ∧ Classified (binText 7 ++ [0]) .binAck := by
  have hparse := counts_coded.1 7 [0] { clientFd := 6, bincount := 0 } (by decide) (by decide)
  obtain ⟨t, req', h, hclass, -⟩ :=
    counts_coded.2.2 (binText 7 ++ [0]) { clientFd := 6, bincount := 0 } (by decide)
  cases h.symm.trans hparse
  exact ⟨hparse, hclass⟩

end SgMuni
