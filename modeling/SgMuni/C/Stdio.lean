import SgMuni.C.Text

/-!
# Output streams

A stream keeps printed bytes in a buffer and writes them to its file some time later,
at the end of the file or at an offset of its own.
-/

namespace C

/-- The modes `"a"` and `"w"` of `fopen`. -/
inductive OpenMode
  | append
  | write
deriving DecidableEq

/-- An open stream; `append` writes at the end of the file, whatever the offset. -/
structure Stream where
  mode : OpenMode
  offset : Nat
  buffer : List UInt8

/-- A stream that has just been opened. -/
def Stream.fresh (mode : OpenMode) : Stream where
  mode := mode
  offset := 0
  buffer := []

/-- The file behind a write at an offset; a gap is filled with zeros. -/
def overwrite (file : List UInt8) (offset : Nat) (bytes : List UInt8) : List UInt8 :=
  (file ++ List.replicate (offset - file.length) 0).take offset ++ bytes ++
    file.drop (offset + bytes.length)

theorem overwrite_length (file bytes : List UInt8) :
    overwrite file file.length bytes = file ++ bytes := by
  simp [overwrite]

/-- The outcome of a print: the number of bytes that the stream takes, and the number of
buffered bytes that it writes early. -/
structure Written where
  taken : Nat
  flushed : Nat

namespace Stream

/-- Write the first `n` bytes of the buffer. -/
def commit (st : Stream) (file : List UInt8) (n : Nat) : Stream × List UInt8 :=
  let bytes := st.buffer.take n
  ({ st with
      offset := st.offset + bytes.length
      buffer := st.buffer.drop n },
    match st.mode with
    | .append => file ++ bytes
    | .write => overwrite file st.offset bytes)

/-- `fprintf` and `vfprintf` with the formatted text. -/
def print (st : Stream) (file text : List UInt8) (w : Written) : Stream × List UInt8 :=
  commit { st with buffer := st.buffer ++ text.take w.taken } file w.flushed

/-- The next write goes to the end of the file. -/
def AtEnd (st : Stream) (file : List UInt8) : Prop :=
  st.mode = .write → st.offset = file.length

variable {st : Stream} {file text : List UInt8}

theorem atEnd_append : (fresh .append).AtEnd file := nofun

theorem atEnd_write : (fresh .write).AtEnd [] := fun _ => rfl

theorem commit_snd (h : st.AtEnd file) (n : Nat) :
    (st.commit file n).2 = file ++ st.buffer.take n := by
  unfold commit
  cases hmode : st.mode with
  | append => rfl
  | write =>
      simp only [h hmode]
      exact overwrite_length file _

/-- At the end of the file no byte is lost or overwritten. -/
theorem commit_spec (h : st.AtEnd file) (n : Nat) :
    (st.commit file n).1.AtEnd (st.commit file n).2 ∧
      (st.commit file n).2 ++ (st.commit file n).1.buffer = file ++ st.buffer := by
  rw [commit_snd h]
  constructor
  · intro hmode
    rw [List.length_append, ← h hmode]
    rfl
  · simp [commit]

theorem print_spec (h : st.AtEnd file) {w : Written} (hw : text.length ≤ w.taken) :
    (st.print file text w).1.AtEnd (st.print file text w).2 ∧
      (st.print file text w).2 ++ (st.print file text w).1.buffer = file ++ st.buffer ++ text := by
  have hall : text.take w.taken = text := List.take_of_length_le hw
  have hend : AtEnd { st with buffer := st.buffer ++ text.take w.taken } file := h
  obtain ⟨hatEnd, hcontent⟩ := commit_spec hend w.flushed
  refine ⟨hatEnd, hcontent.trans ?_⟩
  rw [hall, List.append_assoc]

/-- `fflush` leaves nothing in the buffer. -/
theorem flush_spec (h : st.AtEnd file) {n : Nat} (hn : st.buffer.length ≤ n) :
    (st.commit file n).1.AtEnd (st.commit file n).2 ∧ (st.commit file n).1.buffer = [] ∧
      (st.commit file n).2 = file ++ st.buffer := by
  have hempty : (st.commit file n).1.buffer = [] := List.drop_eq_nil_of_le hn
  obtain ⟨hatEnd, hcontent⟩ := commit_spec h n
  rw [hempty, List.append_nil] at hcontent
  exact ⟨hatEnd, hempty, hcontent⟩

end Stream

end C
