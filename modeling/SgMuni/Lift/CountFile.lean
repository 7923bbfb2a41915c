import SgMuni.Lift.Handlers
import SgMuni.C.Bytes

/-!
# The bincount file, byte by byte

`write_bincount_to_file` and `read_bincount_from_file` of `main.c` for all that
their library calls can return, and the load in `main`. `Handlers` knows of the
file only the `int` that it holds.

## Implementation notes

`fwrite` writes to the buffer of a stream, and the result of `fclose` is ignored:
what `fwrite` returns says nothing about the bytes that arrive in the file.
`fread` stores the bytes that it gets of an incomplete `int`.
-/

namespace SgMuni

/-- The bytes of the bincount file, if it exists. -/
abbrev CountFile := Option (List UInt8)

/-- What the calls in `write_bincount_to_file` do: whether each `fopen` and
`fseek` succeeds, whether `fwrite` returns 1, and the number of its bytes in the
file behind `fclose`. -/
structure WriteCalls where
  openUpdate : Bool
  openCreate : Bool
  seek : Bool
  taken : Bool
  stored : Nat

/-- What the calls in `read_bincount_from_file` do: whether `fopen` succeeds, and
the number of bytes that `fread` can get. -/
structure ReadCalls where
  openRead : Bool
  got : Nat

/-- The bytes of `target` with the first `n` of `source` in place of its own. -/
def transfer (n : Nat) (source target : List UInt8) : List UInt8 :=
  source.take n ++ target.drop n

namespace CountFile

/-- `fopen` with `"rb+"`, and with `"wb+"` when that fails. -/
def fopenWrite (file : CountFile) (c : WriteCalls) : CountFile :=
  match file, c.openUpdate with
  | some content, true => some content
  | _, _ => if c.openCreate then some [] else none

/-- `fwrite` of an `int` at the start of the file, and `fclose`. -/
def fwrite (content : List UInt8) (value : Int) (c : WriteCalls) : List UInt8 × Bool :=
  (transfer (min c.stored C.intSize) (C.intBytes value) content, c.taken)

/-- `fread` of an `int` from the start of the file into a variable. -/
def fread (content : List UInt8) (value : Int) (got : Nat) : Int × Bool :=
  let n := min got (min C.intSize content.length)
  (C.ofIntBytes (transfer n content (C.intBytes value)), n == C.intSize)

def writeBincountToFile (file : CountFile) (value : Int) (c : WriteCalls) : CountFile × Bool :=
  match file.fopenWrite c with
  | none => (file, false)
  | some content =>
      if c.seek then
        let (content, ok) := fwrite content value c
        (some content, ok)
      else (some content, false)

def readBincountFromFile (file : CountFile) (value : Int) (c : ReadCalls) : Int × Bool :=
  match file with
  | none => (value, false)
  | some content => if c.openRead then fread content value c.got else (value, false)

/-- The file is opened, and all bytes of the `int` arrive in it. -/
def arrives (file : CountFile) (c : WriteCalls) : Bool :=
  (file.fopenWrite c).isSome && c.seek && decide (C.intSize ≤ c.stored)

/-- The `int` at the start of the file. -/
def storedInt (file : CountFile) : Option Int :=
  file.bind fun content =>
    if C.intSize ≤ content.length then some (C.ofIntBytes (content.take C.intSize)) else none

end CountFile

/-- The count in memory and its file. -/
structure Count where
  bincount : Int
  file : CountFile

/-- The load in `main`, where `bincount` is 0. -/
def loadBincount (file : CountFile) (r : ReadCalls) (w : WriteCalls) : Count :=
  let (bincount, ok) := file.readBincountFromFile 0 r
  if ok then { bincount, file }
  else { bincount, file := (file.writeBincountToFile 0 w).1 }

section Transfer

variable {n : Nat} {a b : List UInt8}

theorem transfer_zero (a b : List UInt8) : transfer 0 a b = b := rfl

theorem transfer_self (n : Nat) (a : List UInt8) : transfer n a a = a := List.take_append_drop n a

theorem length_transfer (hn : n ≤ a.length) (b : List UInt8) :
    (transfer n a b).length = max n b.length := by
  rw [transfer, List.length_append, List.length_take, List.length_drop]
  omega

theorem transfer_eq_left_iff : transfer n a b = a ↔ b.drop n = a.drop n := by
  have hsplit : transfer n a b = a ↔ transfer n a b = a.take n ++ a.drop n := by
    rw [List.take_append_drop]
  rw [hsplit, transfer, List.append_right_inj]

theorem transfer_eq_right_iff :
    transfer n a b = b ↔ a.take n = b.take n := by
  have hsplit : transfer n a b = b ↔ transfer n a b = b.take n ++ b.drop n := by
    rw [List.take_append_drop]
  rw [hsplit, transfer, List.append_left_inj]

theorem take_transfer {k : Nat} (hn : n ≤ a.length) (hk : n ≤ k) :
    (transfer n a b).take k = transfer n a (b.take k) := by
  have hlen : (a.take n).length = n := List.length_take_of_le hn
  rw [transfer, transfer, List.take_append, hlen, List.drop_take,
    List.take_of_length_le (hlen.le.trans hk)]

theorem transfer_take {k : Nat} (hk : n ≤ k) : transfer n (a.take k) b = transfer n a b := by
  rw [transfer, transfer, List.take_take, Nat.min_eq_left hk]

end Transfer

/-- All bytes are 0. -/
def Zero (bytes : List UInt8) : Prop := ∀ b ∈ bytes, b = 0

instance (bytes : List UInt8) : Decidable (Zero bytes) :=
  decidable_of_iff (bytes.all (· == 0) = true) (by simp [Zero])

section Zeros

variable {bytes : List UInt8}

theorem zero_iff : Zero bytes ↔ bytes = List.replicate bytes.length 0 := by
  rw [List.eq_replicate_iff]
  simp [Zero]

theorem take_eq_take_zero_iff {n : Nat} (hlen : n ≤ bytes.length) (hn : n ≤ C.intSize) :
    (C.intBytes 0).take n = bytes.take n ↔ Zero (bytes.take n) := by
  rw [zero_iff, List.length_take_of_le hlen, C.intBytes_zero, List.take_replicate,
    Nat.min_eq_left hn, eq_comm]

theorem drop_eq_drop_zero_iff (hlen : bytes.length = C.intSize) (n : Nat) :
    bytes.drop n = (C.intBytes 0).drop n ↔ Zero (bytes.drop n) := by
  rw [zero_iff, List.length_drop, hlen, C.intBytes_zero, List.drop_replicate]

end Zeros

namespace CountFile

variable {content : List UInt8} {file : CountFile}

theorem storedInt_of_le (hlen : C.intSize ≤ content.length) :
    storedInt (some content) = some (C.ofIntBytes (content.take C.intSize)) := by
  rw [storedInt, Option.bind_some, if_pos hlen]

/-- Reading a whole `int` returns what the file holds. -/
theorem fread_of_le (hlen : C.intSize ≤ content.length) (value : Int) {got : Nat}
    (hgot : C.intSize ≤ got) :
    fread content value got = (C.ofIntBytes (content.take C.intSize), true) := by
  have hn : min got (min C.intSize content.length) = C.intSize := by omega
  have hdrop : (C.intBytes value).drop C.intSize = [] := List.drop_of_length_le (by simp)
  rw [fread, hn, transfer, hdrop, List.append_nil, beq_self_eq_true]

/-- The start of a file behind a write, and the one that was opened. -/
theorem writeBincountToFile_of_opened {value : Int} {c : WriteCalls}
    (hopen : file.fopenWrite c = some content) (hseek : c.seek = true) :
    file.writeBincountToFile value c =
      (some (transfer (min c.stored C.intSize) (C.intBytes value) content), c.taken) := by
  simp only [writeBincountToFile, hopen, hseek, if_true, fwrite]

/-- Behind a write the file starts with the `int` if and only if it had the bytes
that have not arrived. -/
theorem storedInt_transfer_iff {value : Int} (hlo : C.intMin ≤ value) (hhi : value ≤ C.intMax)
    (stored : Nat) :
    storedInt (some (transfer (min stored C.intSize) (C.intBytes value) content)) = some value ↔
      (content.take C.intSize).drop stored = (C.intBytes value).drop stored := by
  set n := min stored C.intSize with hn
  have hbytes : n ≤ (C.intBytes value).length := by simp [hn]
  have hdrop (bytes : List UInt8) (hlen : bytes.length ≤ C.intSize) :
      bytes.drop stored = bytes.drop n := by
    by_cases h : stored ≤ C.intSize
    · rw [hn, Nat.min_eq_left h]
    · rw [List.drop_of_length_le (by omega), List.drop_of_length_le (by omega)]
  rw [hdrop _ (List.length_take_le _ _), hdrop _ (C.length_intBytes value).le,
    ← transfer_eq_left_iff, ← take_transfer hbytes (min_le_right _ _)]
  set new := transfer n (C.intBytes value) content with hnew
  constructor
  · intro h
    obtain ⟨c, hc, hint⟩ := Option.bind_eq_some_iff.mp h
    cases hc
    obtain ⟨hlen, hint⟩ := Option.ite_none_right_eq_some.mp hint
    have hwhole : (new.take C.intSize).length = C.intSize := List.length_take_of_le hlen
    refine (C.ofIntBytes_inj hwhole (C.length_intBytes value)).mp ?_
    rw [Option.some.inj hint, C.ofIntBytes_intBytes, C.wrap_of_int hlo hhi]
  · intro h
    have hlen : C.intSize ≤ new.length := by
      have := congrArg List.length h
      rw [List.length_take, C.length_intBytes] at this
      omega
    rw [storedInt_of_le hlen, h, C.ofIntBytes_intBytes, C.wrap_of_int hlo hhi]

/-- What a call leaves in the file when all bytes arrive. -/
theorem storedInt_of_arrives {value : Int} (hlo : C.intMin ≤ value) (hhi : value ≤ C.intMax)
    {c : WriteCalls} (h : file.arrives c = true) :
    (file.writeBincountToFile value c).1.storedInt = some value := by
  simp only [arrives, Bool.and_eq_true, Option.isSome_iff_exists, decide_eq_true_eq] at h
  obtain ⟨⟨⟨content, hopen⟩, hseek⟩, hstored⟩ := h
  rw [writeBincountToFile_of_opened hopen hseek]
  refine (storedInt_transfer_iff hlo hhi c.stored).mpr ?_
  rw [List.drop_of_length_le ((List.length_take_le _ _).trans hstored),
    List.drop_of_length_le ((C.length_intBytes value).le.trans hstored)]

/-- A read that returns 1 found an `int` in the file. -/
theorem read_of_ok {value : Int} {c : ReadCalls}
    (h : (file.readBincountFromFile value c).2 = true) :
    ∃ n, file.storedInt = some n ∧ (file.readBincountFromFile value c).1 = n := by
  cases file with
  | none => cases h
  | some content =>
      rw [readBincountFromFile] at h ⊢
      split at h
      · next hopen =>
          have hn : min c.got (min C.intSize content.length) = C.intSize := by simpa [fread] using h
          have hlen : C.intSize ≤ content.length := by omega
          have hgot : C.intSize ≤ c.got := by omega
          refine ⟨C.ofIntBytes (content.take C.intSize), storedInt_of_le hlen, ?_⟩
          rw [if_pos hopen, fread_of_le hlen value hgot]
      · cases h

/-- A read without errors returns what the file holds. -/
theorem read_of_storedInt {n : Int} (h : file.storedInt = some n) (value : Int) :
    file.readBincountFromFile value { openRead := true, got := C.intSize } = (n, true) := by
  obtain ⟨content, rfl, hcontent⟩ := Option.bind_eq_some_iff.mp h
  obtain ⟨hlen, hn⟩ := Option.ite_none_right_eq_some.mp hcontent
  rw [readBincountFromFile, if_pos rfl, fread_of_le hlen value le_rfl, Option.some.inj hn]

end CountFile

section Handlers

variable {s : Comm} {file : CountFile}

/-- A call that brings the `int` to the file or leaves the file alone is the one of
`Handlers`. -/
theorem storedInt_writeBincountToFile (hfile : file.storedInt = s.file) {value : Int}
    (hlo : C.intMin ≤ value) (hhi : value ≤ C.intMax) {c : WriteCalls}
    (h : file.arrives c = true ∨ (file.writeBincountToFile value c).1 = file) :
    (file.writeBincountToFile value c).1.storedInt =
      s.writeBincountToFile value (file.arrives c) := by
  cases harrives : file.arrives c with
  | true => exact CountFile.storedInt_of_arrives hlo hhi harrives
  | false =>
      rw [harrives] at h
      rw [h.resolve_left Bool.false_ne_true]
      exact hfile

/-- So is a read that gets the `int` or leaves the variable alone. -/
theorem readBincountFromFile_eq (hfile : file.storedInt = s.file) {c : ReadCalls}
    (h : (file.readBincountFromFile s.bincount c).2 = true ∨
      (file.readBincountFromFile s.bincount c).1 = s.bincount) :
    (file.readBincountFromFile s.bincount c).1 =
      s.readBincountFromFile (file.readBincountFromFile s.bincount c).2 := by
  cases hok : (file.readBincountFromFile s.bincount c).2 with
  | true =>
      obtain ⟨n, hn, hread⟩ := CountFile.read_of_ok hok
      rw [hfile] at hn
      rw [hread, Comm.readBincountFromFile, hn]
      rfl
  | false =>
      rw [hok] at h
      rw [h.resolve_left Bool.false_ne_true, Comm.readBincountFromFile]
      cases s.file <;> rfl

end Handlers

/-- A write without errors. -/
def WriteCalls.success : WriteCalls where
  openUpdate := true
  openCreate := true
  seek := true
  taken := true
  stored := C.intSize

/-- A read without errors. -/
def ReadCalls.success : ReadCalls where
  openRead := true
  got := C.intSize

/-- A read of the file returns the count in memory. -/
def Count.Agrees (c : Count) : Prop :=
  ∀ value, c.file.readBincountFromFile value .success = (c.bincount, true)

/-- After the load memory and file agree, and a read behind a write that returned
1 returns the written value. -/
structure StartUp (file : CountFile) (got : Nat) (earlier : CountFile) (value : Int)
    (w : WriteCalls) : Prop where
  agree : (loadBincount file { openRead := true, got := got } .success).Agrees
  written : (earlier.writeBincountToFile value w).2 = true →
    ∀ x, (earlier.writeBincountToFile value w).1.readBincountFromFile x .success = (value, true)

/-- The `fread` of the load gets a whole `int` or no byte other than 0. -/
def LoadsZeros (file : CountFile) (got : Nat) : Prop :=
  ∀ content, file = some content →
    C.intSize ≤ min got content.length ∨ Zero (content.take (min got C.intSize))

/-- The file that an accepted write has opened has those bytes of the `int` that do
not arrive. -/
def HasRest (earlier : CountFile) (value : Int) (w : WriteCalls) : Prop :=
  w.seek = true → w.taken = true → ∀ content, earlier.fopenWrite w = some content →
    (content.take C.intSize).drop w.stored = (C.intBytes value).drop w.stored

section Load

variable {content : List UInt8} {got : Nat}

theorem Count.agrees_iff (c : Count) {n : Int} (h : c.file.storedInt = some n) :
    c.Agrees ↔ c.bincount = n := by
  have hread (value : Int) : c.file.readBincountFromFile value .success = (n, true) :=
    CountFile.read_of_storedInt h value
  simp only [Count.Agrees, hread, Prod.mk.injEq, and_true, forall_const, eq_comm]

/-- A write of 0 without errors. -/
theorem storedInt_zero (file : CountFile) :
    (file.writeBincountToFile 0 .success).1.storedInt = some 0 := by
  have harrives : file.arrives .success = true := by
    cases file <;> rfl
  exact CountFile.storedInt_of_arrives (by decide) (by decide) harrives

/-- A load that gets a whole `int`. -/
theorem agrees_of_le (hn : C.intSize ≤ min got content.length) :
    (loadBincount (some content) { openRead := true, got := got } .success).Agrees := by
  have hlen : C.intSize ≤ content.length := by omega
  have hgot : C.intSize ≤ got := by omega
  have hload : CountFile.readBincountFromFile (some content) 0 { openRead := true, got := got } =
      (C.ofIntBytes (content.take C.intSize), true) :=
    CountFile.fread_of_le hlen 0 hgot
  have hstored := CountFile.storedInt_of_le hlen
  have hcount : loadBincount (some content) { openRead := true, got := got } .success =
      { bincount := C.ofIntBytes (content.take C.intSize), file := some content } := by
    simp only [loadBincount, hload, if_true]
  rw [hcount, Count.agrees_iff _ hstored]

/-- A load that gets no whole `int` keeps the bytes that it got. -/
theorem agrees_iff_of_lt (hn : min got content.length < C.intSize) :
    (loadBincount (some content) { openRead := true, got := got } .success).Agrees ↔
      Zero (content.take (min got C.intSize)) := by
  set n := min got (min C.intSize content.length) with hmin
  have hload : CountFile.readBincountFromFile (some content) 0 { openRead := true, got := got } =
      (C.ofIntBytes (transfer n content (C.intBytes 0)), false) := by
    have hfalse : (n == C.intSize) = false := beq_eq_false_iff_ne.mpr (by omega)
    rw [CountFile.readBincountFromFile, if_pos rfl, CountFile.fread, ← hmin, hfalse]
  have hlen : (transfer n content (C.intBytes 0)).length = C.intSize := by
    rw [length_transfer (by omega), C.length_intBytes]
    omega
  have htake : content.take (min got C.intSize) = content.take n := by
    rw [List.take_eq_take_iff]
    omega
  have hcount : loadBincount (some content) { openRead := true, got := got } .success =
      { bincount := C.ofIntBytes (transfer n content (C.intBytes 0))
        file := (CountFile.writeBincountToFile (some content) 0 .success).1 } := by
    simp only [loadBincount, hload, Bool.false_eq_true, if_false]
  rw [hcount, Count.agrees_iff _ (storedInt_zero (some content))]
  dsimp only
  calc
    C.ofIntBytes (transfer n content (C.intBytes 0)) = 0 ↔
        transfer n content (C.intBytes 0) = C.intBytes 0 :=
      C.ofIntBytes_eq_zero_iff hlen
    _ ↔ content.take n = (C.intBytes 0).take n := transfer_eq_right_iff
    _ ↔ Zero (content.take n) := by
      rw [eq_comm, take_eq_take_zero_iff (by omega) (by omega)]
    _ ↔ Zero (content.take (min got C.intSize)) := by rw [htake]

end Load

/-- Memory and file agree after the load exactly when its `fread` gets a whole
`int`, or no byte other than 0. -/
theorem agrees_loadBincount_iff (file : CountFile) (got : Nat) :
    (loadBincount file { openRead := true, got := got } .success).Agrees ↔
      LoadsZeros file got := by
  cases file with
  | none =>
      have hzero : (loadBincount none { openRead := true, got := got } .success).Agrees :=
        (Count.agrees_iff _ (storedInt_zero none)).mpr rfl
      exact iff_of_true hzero nofun
  | some content =>
      by_cases hn : C.intSize ≤ min got content.length
      · refine iff_of_true (agrees_of_le hn) fun c hc => ?_
        cases hc
        exact .inl hn
      · rw [agrees_iff_of_lt (not_le.mp hn)]
        constructor
        · intro h c hc
          cases hc
          exact .inr h
        · intro h
          exact (h content rfl).resolve_left hn

section Write

variable {value : Int} {w : WriteCalls}

/-- A read behind a write returns the value exactly when the file starts with it. -/
theorem read_written_iff {file : CountFile} :
    (∀ x, file.readBincountFromFile x .success = (value, true)) ↔
      file.storedInt = some value := by
  constructor
  · intro h
    obtain ⟨n, hn, hread⟩ := CountFile.read_of_ok (congrArg Prod.snd (h 0))
    rw [hn, ← hread, h 0]
  · exact CountFile.read_of_storedInt

/-- An accepted write is read back exactly when no byte is missing. -/
theorem written_iff_hasRest (earlier : CountFile) (hlo : C.intMin ≤ value)
    (hhi : value ≤ C.intMax) :
    ((earlier.writeBincountToFile value w).2 = true → ∀ x,
        (earlier.writeBincountToFile value w).1.readBincountFromFile x .success = (value, true)) ↔
      HasRest earlier value w := by
  rw [read_written_iff]
  cases hopen : earlier.fopenWrite w with
  | none =>
      refine iff_of_true (fun h => ?_) fun _ _ content hcontent => ?_
      · rw [CountFile.writeBincountToFile, hopen] at h
        cases h
      · rw [hopen] at hcontent
        cases hcontent
  | some content =>
      by_cases hseek : w.seek = true
      · rw [CountFile.writeBincountToFile_of_opened hopen hseek,
          CountFile.storedInt_transfer_iff hlo hhi]
        constructor
        · intro h _ htaken c hc
          cases hopen.symm.trans hc
          exact h htaken
        · exact fun h htaken => h hseek htaken content hopen
      · refine iff_of_true (fun h => ?_) fun h => absurd h hseek
        rw [CountFile.writeBincountToFile, hopen] at h
        simp only [hseek] at h
        cases h

end Write

/-- Memory and file agree, and an accepted write is read back, exactly when the load gets no
byte but zeros of an incomplete `int`, and the write leaves no byte missing. -/
theorem start_up_iff (file : CountFile) (got : Nat) (earlier : CountFile) {value : Int}
    (hlo : C.intMin ≤ value) (hhi : value ≤ C.intMax) (w : WriteCalls) :
    StartUp file got earlier value w ↔ LoadsZeros file got ∧ HasRest earlier value w := by
  rw [← agrees_loadBincount_iff, ← written_iff_hasRest earlier hlo hhi]
  exact ⟨fun h => ⟨h.agree, h.written⟩, fun h => ⟨h.1, h.2⟩⟩

/-- A file that is longer than an `int`, and a write of which the stream keeps one byte,
which the file has. -/
theorem start_up_iff_long : StartUp (some [5, 0, 0, 0, 9]) 4 (some [8, 0, 0, 0, 9]) 7
    { WriteCalls.success with stored := 3 } := by
  refine (start_up_iff _ _ _ (by decide) (by decide) _).mpr ⟨?_, ?_⟩
  · intro content hcontent
    cases hcontent
    exact .inl (by decide)
  · intro _ _ content hcontent
    cases hcontent
    decide

/-- A file of one byte: the load keeps the byte as the count and stores 0. A write of 7 to a
new file that returns 1 and of which no byte arrives leaves the file empty. -/
theorem partial_load_differs :
    let c := loadBincount (some [5]) .success .success
    let lost := { WriteCalls.success with stored := 0 }
    (c.bincount = 5 ∧ c.file = some [0, 0, 0, 0] ∧
        ¬StartUp (some [5]) C.intSize none 7 .success) ∧
      CountFile.writeBincountToFile none 7 lost = (some [], true) ∧
        ¬StartUp none C.intSize none 7 lost := by
  intro c lost
  have hcount : c.bincount = 5 := by decide
  have hlost : CountFile.writeBincountToFile none 7 lost = (some [], true) := by decide
  refine ⟨⟨hcount, by decide, fun h => ?_⟩, hlost, fun h => ?_⟩
  · have hzero : (c.bincount : Int) = 0 :=
      (Count.agrees_iff _ (storedInt_zero (some [5]))).mp h.agree
    rw [hcount] at hzero
    cases hzero
  · have hread := h.written (congrArg Prod.snd hlost) 0
    rw [hlost] at hread
    exact absurd (congrArg Prod.snd hread) (by decide)

end SgMuni
