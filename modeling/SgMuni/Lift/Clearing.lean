import SgMuni.Lift.CountFile

/-!
# Clearing the count when the file fails

The critical section of `bin_clr_handler` for all that the calls on the file can
do: 0 is written, and what the file then holds is read back into `bincount`.

## Implementation notes

The test behind the broadcast reads `bincount` without the mutex; here no lift is
counted before it.
-/

namespace SgMuni

/-- What a clear request leaves: the count and its file, the text that is
broadcast, and whether success is logged. -/
structure Cleared where
  count : Count
  text : List UInt8
  success : Bool

/-- `bin_clr_handler` from the assignment of 0 to the log. -/
def binClrHandler (s : Count) (w : WriteCalls) (r : ReadCalls) : Cleared :=
  let zeroed := { s with bincount := 0 }
  let (file, _) := zeroed.file.writeBincountToFile zeroed.bincount w
  let (bincount, resRead) := file.readBincountFromFile zeroed.bincount r
  { count := { bincount, file }
    text := binText bincount
    success := !(!resRead || !resRead || bincount != 0) }

/-- The number of bytes of the `int` that reach an existing file. -/
def WriteCalls.bytes (c : WriteCalls) : Nat :=
  if (c.openUpdate || c.openCreate) && c.seek then min c.stored C.intSize else 0

/-- `"rb+"` fails for an existing file and `"wb+"` empties it. -/
def WriteCalls.truncates (c : WriteCalls) : Bool := !c.openUpdate && c.openCreate

/-- The number of bytes that are read of a file that has an `int`. -/
def ReadCalls.bytes (c : ReadCalls) : Nat := if c.openRead then min c.got C.intSize else 0

/-- The count, its file and the broadcast say `n`. -/
structure Cleared.Shows (c : Cleared) (n : Int) : Prop where
  bincount : c.count.bincount = n
  file : c.count.file.storedInt = some n
  text : c.text = binText n

/-- All is 0 or all is still `n`, and success is logged in the first case only. -/
structure AllOrNothing (n : Int) (c : Cleared) : Prop where
  shows : c.Shows 0 ∨ c.Shows n
  logged : c.success = true → c.Shows 0

/-- The old `int` is not lost by truncation. Either all its bytes but zeros were
overwritten, or none but zeros were and all but zeros were read back. -/
def Recovers (old : List UInt8) (w : WriteCalls) (r : ReadCalls) : Prop :=
  (w.truncates = true → C.intSize ≤ w.bytes) ∧
    (Zero (old.drop w.bytes) ∨ (Zero (old.take w.bytes) ∧ Zero (old.drop r.bytes)))

section Clear

variable {content : List UInt8} {w : WriteCalls} {r : ReadCalls}

theorem WriteCalls.bytes_le (c : WriteCalls) : c.bytes ≤ C.intSize := by
  unfold bytes
  split
  · exact min_le_right _ _
  · exact Nat.zero_le _

theorem ReadCalls.bytes_le (c : ReadCalls) : c.bytes ≤ C.intSize := by
  unfold bytes
  split
  · exact min_le_right _ _
  · exact Nat.zero_le _

/-- A write that does not truncate the file replaces its first bytes. -/
theorem write_of_kept (htruncates : w.truncates = false) (value : Int) :
    (CountFile.writeBincountToFile (some content) value w).1 =
      some (transfer w.bytes (C.intBytes value) content) := by
  obtain ⟨openUpdate, openCreate, seek, taken, stored⟩ := w
  cases openUpdate <;> cases openCreate <;> cases seek <;> first | rfl | cases htruncates

theorem write_of_truncates (htruncates : w.truncates = true) (value : Int) :
    (CountFile.writeBincountToFile (some content) value w).1 =
      some (transfer w.bytes (C.intBytes value) []) := by
  obtain ⟨openUpdate, openCreate, seek, taken, stored⟩ := w
  cases openUpdate <;> cases openCreate <;> cases seek <;> first | rfl | cases htruncates

/-- The read-back into a cleared count, from a file that has an `int`. -/
theorem read_zero (hlen : C.intSize ≤ content.length) :
    CountFile.readBincountFromFile (some content) 0 r =
      (C.ofIntBytes (transfer r.bytes (content.take C.intSize) (C.intBytes 0)),
        r.bytes == C.intSize) := by
  rw [CountFile.readBincountFromFile, transfer_take r.bytes_le]
  split
  · next hopen =>
      rw [CountFile.fread, ReadCalls.bytes, if_pos hopen, Nat.min_eq_left hlen]
  · next hopen =>
      have hzero : C.ofIntBytes (C.intBytes 0) = 0 := C.ofIntBytes_intBytes 0
      rw [ReadCalls.bytes, if_neg hopen, transfer_zero, hzero]
      rfl

/-- The section on a file that still has an `int` behind the write. -/
theorem binClrHandler_eq {n : Int} {file : CountFile}
    (hfile : (file.writeBincountToFile 0 w).1 = some content) (hlen : C.intSize ≤ content.length) :
    binClrHandler { bincount := n, file := file } w r =
      let x := C.ofIntBytes (transfer r.bytes (content.take C.intSize) (C.intBytes 0))
      { count := { bincount := x, file := some content }
        text := binText x
        success := r.bytes == C.intSize && x == 0 } := by
  simp only [binClrHandler, hfile, read_zero hlen, Bool.or_self, Bool.not_or, Bool.not_not, bne]

theorem shows_iff (x : Int) (file : CountFile) (success : Bool) (m : Int) :
    Cleared.Shows { count := { bincount := x, file }, text := binText x, success } m ↔
      x = m ∧ file.storedInt = some m := by
  constructor
  · rintro ⟨hbincount, hfile, -⟩
    exact ⟨hbincount, hfile⟩
  · rintro ⟨rfl, hfile⟩
    exact ⟨rfl, hfile, rfl⟩

/-- What the section leaves on such a file, in terms of bytes. -/
theorem allOrNothing_iff {n : Int} {old : List UInt8} (hold : old.length = C.intSize)
    (hn : C.ofIntBytes old = n) {file : CountFile}
    (hfile : (file.writeBincountToFile 0 w).1 = some content) (hlen : C.intSize ≤ content.length) :
    AllOrNothing n (binClrHandler { bincount := n, file := file } w r) ↔
      content.take C.intSize = C.intBytes 0 ∨
        (content.take C.intSize = old ∧
          transfer r.bytes (content.take C.intSize) (C.intBytes 0) = old) := by
  set new := content.take C.intSize with hnew
  have hnewLen : new.length = C.intSize := List.length_take_of_le hlen
  have hback : (transfer r.bytes new (C.intBytes 0)).length = C.intSize := by
    rw [length_transfer (hnewLen ▸ r.bytes_le), C.length_intBytes]
    exact max_eq_right r.bytes_le
  set x := C.ofIntBytes (transfer r.bytes new (C.intBytes 0)) with hx
  have hclr : binClrHandler { bincount := n, file := file } w r =
      { count := { bincount := x, file := some content }
        text := binText x
        success := r.bytes == C.intSize && x == 0 } := binClrHandler_eq hfile hlen
  have hshows (m : Int) (b : List UInt8) (hb : b.length = C.intSize) (hm : C.ofIntBytes b = m) :
      (binClrHandler { bincount := n, file := file } w r).Shows m ↔
        transfer r.bytes new (C.intBytes 0) = b ∧ new = b := by
    have hbytes : x = m ↔ transfer r.bytes new (C.intBytes 0) = b := by
      rw [← hm]
      exact C.ofIntBytes_inj hback hb
    have hint : CountFile.storedInt (some content) = some m ↔ new = b := by
      rw [CountFile.storedInt_of_le hlen, ← hm, Option.some.injEq]
      exact C.ofIntBytes_inj hnewLen hb
    rw [← hbytes, ← hint, hclr, shows_iff]
  have hzero : C.ofIntBytes (C.intBytes 0) = 0 := C.ofIntBytes_intBytes 0
  have hclear := hshows 0 (C.intBytes 0) (C.length_intBytes 0) hzero
  have hkeep := hshows n old hold hn
  constructor
  · rintro ⟨h | h, -⟩
    · exact .inl (hclear.mp h).2
    · exact .inr (hkeep.mp h).symm
  · intro h
    constructor
    · rcases h with h | h
      · refine .inl (hclear.mpr ⟨?_, h⟩)
        rw [h, transfer_self]
      · exact .inr (hkeep.mpr h.symm)
    · intro hsuccess
      rw [hclr] at hsuccess
      obtain ⟨hall, hzero⟩ := Bool.and_eq_true_iff.mp hsuccess
      have hbytes : r.bytes = C.intSize := by simpa using hall
      have heq : transfer r.bytes new (C.intBytes 0) = new := by
        rw [transfer_eq_left_iff, hbytes, List.drop_of_length_le (by simp),
          List.drop_of_length_le hnewLen.le]
      have hnewZero : new = C.intBytes 0 := by
        apply (C.ofIntBytes_eq_zero_iff hnewLen).mp
        rw [← heq]
        simpa using hzero
      exact hclear.mpr ⟨heq.trans hnewZero, hnewZero⟩

end Clear

section Zeros

/-- What the file has of an `int` is 0. -/
def CountFile.StartsZero (file : CountFile) : Prop :=
  ∀ content, file = some content → Zero (content.take C.intSize)

/-- The count is 0 in memory, and the file has no other. -/
structure Count.AllZero (c : Count) : Prop where
  bincount : c.bincount = 0
  file : c.file.StartsZero

variable {file : CountFile} {w : WriteCalls}

theorem zero_transfer {n : Nat} {a b : List UInt8} (ha : Zero (a.take n)) (hb : Zero b) :
    Zero (transfer n a b) := by
  intro x hx
  rcases List.mem_append.mp hx with hx | hx
  · exact ha x hx
  · exact hb x (List.mem_of_mem_drop hx)

/-- What is read from such a file into a cleared count. -/
theorem read_of_startsZero (h : file.StartsZero) (r : ReadCalls) :
    (file.readBincountFromFile 0 r).1 = 0 := by
  cases file with
  | none => rfl
  | some content =>
      rw [CountFile.readBincountFromFile]
      split
      · set n := min r.got (min C.intSize content.length) with hn
        have hstart : Zero (content.take n) := fun x hx =>
          h content rfl x ((List.take_subset_take_left content (by omega)) hx)
        have hzero : Zero (transfer n content (C.intBytes 0)) := zero_transfer hstart (by decide)
        have hlen : (transfer n content (C.intBytes 0)).length = C.intSize := by
          rw [length_transfer (by omega), C.length_intBytes]
          omega
        rw [CountFile.fread, ← hn, C.ofIntBytes_eq_zero_iff hlen, zero_iff.mp hzero, hlen,
          C.intBytes_zero]
      · rfl

/-- A write of 0 leaves such a file. -/
theorem startsZero_write (h : file.StartsZero) (w : WriteCalls) :
    (file.writeBincountToFile 0 w).1.StartsZero := by
  intro content hcontent
  have hopen (opened : List UInt8) (hopened : file.fopenWrite w = some opened) :
      Zero (opened.take C.intSize) := by
    unfold CountFile.fopenWrite at hopened
    split at hopened
    · exact h opened hopened
    · split at hopened <;> cases hopened
      exact nofun
  unfold CountFile.writeBincountToFile at hcontent
  split at hcontent
  · exact h content hcontent
  · next opened hopened =>
      split at hcontent <;> cases hcontent
      · have hn : min w.stored C.intSize ≤ C.intSize := min_le_right _ _
        rw [take_transfer (by simp) hn]
        have hzero : Zero (C.intBytes 0) := by decide
        exact zero_transfer (fun x hx => hzero x (List.mem_of_mem_take hx)) (hopen opened hopened)
      · exact hopen _ hopened

theorem startsZero_of_arrives (h : file.arrives w = true) :
    (file.writeBincountToFile 0 w).1.StartsZero := by
  intro content hcontent
  have hstored : CountFile.storedInt (some content) = some 0 := by
    rw [← hcontent]
    exact CountFile.storedInt_of_arrives (by decide) (by decide) h
  obtain ⟨c, hc, hint⟩ := Option.bind_eq_some_iff.mp hstored
  cases hc
  obtain ⟨hlen, hint⟩ := Option.ite_none_right_eq_some.mp hint
  have htake : (content.take C.intSize).length = C.intSize := List.length_take_of_le hlen
  have hbytes : content.take C.intSize = C.intBytes 0 :=
    (C.ofIntBytes_eq_zero_iff htake).mp (Option.some.inj hint)
  rw [hbytes]
  decide

/-- The section leaves 0 when its 0 arrives in the file, and when all was 0 before. -/
theorem allZero_binClrHandler {c : Count}
    (h : c.AllZero ∨ c.file.arrives w = true) (r : ReadCalls) :
    (binClrHandler c w r).count.AllZero := by
  have hfile : (c.file.writeBincountToFile 0 w).1.StartsZero := by
    rcases h with h | h
    · exact startsZero_write h.file w
    · exact startsZero_of_arrives h
  exact ⟨read_of_startsZero hfile r, hfile⟩

end Zeros

section Outcomes

variable {n : Int} {content : List UInt8} {w : WriteCalls}

/-- The write goes into the old file. -/
theorem allOrNothing_of_kept (hlen : C.intSize ≤ content.length)
    (hn : C.ofIntBytes (content.take C.intSize) = n) (htruncates : w.truncates = false)
    (r : ReadCalls) :
    AllOrNothing n (binClrHandler { bincount := n, file := some content } w r) ↔
      Recovers (content.take C.intSize) w r := by
  have holdLen : (content.take C.intSize).length = C.intSize := List.length_take_of_le hlen
  have hbytes : w.bytes ≤ (C.intBytes 0).length := (C.length_intBytes 0).symm ▸ w.bytes_le
  have hnew : (CountFile.writeBincountToFile (some content) 0 w).1 =
      some (transfer w.bytes (C.intBytes 0) content) := write_of_kept htruncates 0
  have hnewLen : C.intSize ≤ (transfer w.bytes (C.intBytes 0) content).length := by
    rw [length_transfer hbytes]
    omega
  rw [allOrNothing_iff holdLen hn hnew hnewLen, take_transfer hbytes w.bytes_le]
  have hclear : transfer w.bytes (C.intBytes 0) (content.take C.intSize) = C.intBytes 0 ↔
      Zero ((content.take C.intSize).drop w.bytes) := by
    rw [transfer_eq_left_iff, drop_eq_drop_zero_iff holdLen]
  have hkeep : transfer w.bytes (C.intBytes 0) (content.take C.intSize) =
      content.take C.intSize ↔ Zero ((content.take C.intSize).take w.bytes) := by
    rw [transfer_eq_right_iff,
      take_eq_take_zero_iff (w.bytes_le.trans holdLen.ge) w.bytes_le]
  have hback : transfer r.bytes (content.take C.intSize) (C.intBytes 0) =
      content.take C.intSize ↔ Zero ((content.take C.intSize).drop r.bytes) := by
    rw [transfer_eq_left_iff, eq_comm, drop_eq_drop_zero_iff holdLen]
  rw [Recovers, htruncates, hclear]
  simp only [Bool.false_eq_true, false_imp_iff, true_and]
  apply or_congr_right
  rw [← hkeep]
  constructor
  · rintro ⟨hsame, hread⟩
    rw [hsame] at hread
    exact ⟨hsame, hback.mp hread⟩
  · rintro ⟨hsame, hread⟩
    refine ⟨hsame, ?_⟩
    rw [hsame]
    exact hback.mpr hread

/-- The write begins with an empty file. -/
theorem allOrNothing_of_truncates (hlen : C.intSize ≤ content.length)
    (hn : C.ofIntBytes (content.take C.intSize) = n) (htruncates : w.truncates = true)
    (r : ReadCalls) :
    AllOrNothing n (binClrHandler { bincount := n, file := some content } w r) ↔
      Recovers (content.take C.intSize) w r := by
  have holdLen : (content.take C.intSize).length = C.intSize := List.length_take_of_le hlen
  have hbytes : w.bytes ≤ (C.intBytes 0).length := (C.length_intBytes 0).symm ▸ w.bytes_le
  have hnew : (CountFile.writeBincountToFile (some content) 0 w).1 =
      some (transfer w.bytes (C.intBytes 0) []) := write_of_truncates htruncates 0
  by_cases hall : C.intSize ≤ w.bytes
  · -- The file was emptied and then got all bytes of 0.
    have hwhole : transfer w.bytes (C.intBytes 0) [] = C.intBytes 0 := by
      rw [transfer, List.drop_nil, List.append_nil, List.take_of_length_le (by simpa using hall)]
    rw [hwhole] at hnew
    have hlenZero : C.intSize ≤ (C.intBytes 0).length := (C.length_intBytes 0).ge
    rw [allOrNothing_iff holdLen hn hnew hlenZero]
    have hdrop : (content.take C.intSize).drop w.bytes = [] :=
      List.drop_of_length_le (holdLen.le.trans hall)
    refine iff_of_true (.inl (List.take_of_length_le (C.length_intBytes 0).le))
      ⟨fun _ => hall, .inl ?_⟩
    rw [hdrop, zero_iff]
    rfl
  · -- No `int` is left in the file, whatever is read back.
    refine iff_of_false ?_ fun h => hall (h.1 htruncates)
    rintro ⟨hshows, -⟩
    have hshort : (transfer w.bytes (C.intBytes 0) []).length < C.intSize := by
      rw [length_transfer hbytes]
      simpa using hall
    have hnone : (CountFile.writeBincountToFile (some content) 0 w).1.storedInt = none := by
      rw [hnew, CountFile.storedInt, Option.bind_some, if_neg (not_le.mpr hshort)]
    rcases hshows with h | h
    · cases hnone.symm.trans h.file
    · cases hnone.symm.trans h.file

end Outcomes

/-- Clearing is all or nothing exactly when the section recovers from what fails. -/
theorem clear_all_or_nothing_iff {n : Int} {content : List UInt8}
    (hfile : CountFile.storedInt (some content) = some n) (w : WriteCalls) (r : ReadCalls) :
    AllOrNothing n (binClrHandler { bincount := n, file := some content } w r) ↔
      Recovers (content.take C.intSize) w r := by
  obtain ⟨c, hc, hcontent⟩ := Option.bind_eq_some_iff.mp hfile
  cases hc
  obtain ⟨hlen, hn⟩ := Option.ite_none_right_eq_some.mp hcontent
  cases htruncates : w.truncates with
  | false => exact allOrNothing_of_kept hlen (Option.some.inj hn) htruncates r
  | true => exact allOrNothing_of_truncates hlen (Option.some.inj hn) htruncates r

/-- The write and the read-back both succeed. -/
theorem clear_all_or_nothing_iff_five :
    AllOrNothing 5 (binClrHandler { bincount := 5, file := some [5, 0, 0, 0] } .success .success) :=
  (clear_all_or_nothing_iff (by decide) .success .success).mpr ⟨nofun, .inl (by decide)⟩

/-- No file can be opened during the section: the count is 0, the file still
holds 5 and 0 is broadcast. -/
theorem clear_half_done :
    let c := binClrHandler { bincount := 5, file := some [5, 0, 0, 0] }
      { openUpdate := false, openCreate := false, seek := true, taken := true, stored := 4 }
      { openRead := false, got := 4 }
    c.count.bincount = 0 ∧ c.count.file.storedInt = some 5 ∧ c.text = binText 0 ∧
      ¬AllOrNothing 5 c := by
  intro c
  have hbincount : c.count.bincount = 0 := by decide
  have hfile : c.count.file.storedInt = some 5 := by decide
  refine ⟨hbincount, hfile, by decide, fun h => ?_⟩
  rcases h.shows with hzero | hfive
  · exact absurd (hfile.symm.trans hzero.file) (by decide)
  · exact absurd (hbincount.symm.trans hfive.bincount) (by decide)

end SgMuni
