import SgMuni.C.Lines
import SgMuni.Lift.Message

/-!
# The serial number of the unit

`read_esn_from_file` looks for `option esn '...'` in the parameter file. It tests the
results of `fgets`, which are pieces of 255 bytes of a longer line.
-/

namespace SgMuni

open C

/-- The text `option esn`. -/
def esnKeyword : List UInt8 := ascii ['o', 'p', 't', 'i', 'o', 'n', ' ', 'e', 's', 'n']

def quote : UInt8 := 39

def maxEsnLen : UInt64 := 24

/-- The tests on one result of `fgets`: the text from `start` to `end`. -/
def esnOfLine (line : List UInt8) : Option (List UInt8) :=
  let line := cString line
  match strstr esnKeyword line with
  | none => none
  | some _ =>
      match strchr quote line with
      | none => none
      | some found =>
          let start := found.tail
          match strchr quote start with
          | none => none
          | some stop => some (start.take (start.length - stop.length))

/-- `read_esn_from_file`, where the file holds `file` or cannot be opened, and `esn` is the
memory of the caller: the result and the memory behind the call. A write behind
the memory has no result. -/
def readEsnFromFile (file : Option (List UInt8)) (esn : List UInt8) (esnSize : UInt64) :
    Option (Int × List UInt8) :=
  match file with
  | none => some (-1, esn)
  | some file => (fgetsLoop 256 esnOfLine (file.length + 1) file).bind fun
      | none => some (-2, esn)
      | some text =>
          let len := if esnSize.toNat ≤ text.length then (esnSize - 1).toNat else text.length
          if len < esn.length then some (0, (strncpy esn text len).set len 0) else none

/-- The string that `assemble_binlift_message` builds in `esn_str`. -/
def esnStr (esn : List UInt8) : List UInt8 :=
  ascii ['s', 'a', 'r', 'g', 'a', 's', '-'] ++ cString esn

/-- The size of `esn_str`. -/
def esnStrSize : Nat := 48

/-- The message carries the string of `esn_str` as its `id`. -/
theorem assembleBinliftMessage_id (binCount : Int) (esn : List UInt8) :
    ∃ before after, assembleBinliftMessage binCount (cString esn) =
      (CJson.object (before ++ (ascii ['i', 'd'], .string (esnStr esn)) :: after)).print :=
  ⟨[_], [_, _], rfl⟩

/-- A text with the keyword and two quotes. -/
def NamesEsn (text : List UInt8) : Prop := esnKeyword <:+: text ∧ 2 ≤ text.count quote

instance (text : List UInt8) : Decidable (NamesEsn text) :=
  inferInstanceAs (Decidable (_ ∧ _))

/-- The text between the first two quotes. -/
def quoted (text : List UInt8) : List UInt8 :=
  (text.dropWhile (· != quote)).tail.takeWhile (· != quote)

section Quotes

variable {text a v b : List UInt8}

/-- A text with two quotes, cut at the first two of them. -/
theorem exists_quotes (h : 2 ≤ text.count quote) :
    ∃ a v b, quote ∉ a ∧ quote ∉ v ∧ text = a ++ quote :: (v ++ quote :: b) := by
  have hmem : quote ∈ text := List.count_pos_iff.mp (by omega)
  obtain ⟨a, r, rfl, ha⟩ := List.eq_append_cons_of_mem hmem
  rw [List.count_append, List.count_cons_self, List.count_eq_zero_of_not_mem ha] at h
  have hmem : quote ∈ r := List.count_pos_iff.mp (by omega)
  obtain ⟨v, b, rfl, hv⟩ := List.eq_append_cons_of_mem hmem
  exact ⟨a, v, b, ha, hv, rfl⟩

theorem quoted_eq (ha : quote ∉ a) (hv : quote ∉ v) (b : List UInt8) :
    quoted (a ++ quote :: (v ++ quote :: b)) = v := by
  have hother {l : List UInt8} (hl : quote ∉ l) : ∀ c ∈ l, (c != quote) = true := fun c hc =>
    bne_iff_ne.mpr (ne_of_mem_of_not_mem hc hl)
  rw [quoted, List.dropWhile_append_of_pos (hother ha),
    List.dropWhile_cons_of_neg (by simp), List.tail_cons, List.takeWhile_append_of_pos (hother hv),
    List.takeWhile_cons_of_neg (by simp), List.append_nil]

/-- What stands in front of the first quote, or behind the second one, does not matter. -/
theorem quoted_append (ha : quote ∉ a) (h : 2 ≤ text.count quote) (b : List UInt8) :
    quoted (a ++ (text ++ b)) = quoted text := by
  obtain ⟨a', v, b', ha', hv, rfl⟩ := exists_quotes h
  have haa' : quote ∉ a ++ a' := by simp [ha, ha']
  calc
    quoted (a ++ (a' ++ quote :: (v ++ quote :: b') ++ b)) =
        quoted ((a ++ a') ++ quote :: (v ++ quote :: (b' ++ b))) := by simp
    _ = v := quoted_eq haa' hv _
    _ = quoted (a' ++ quote :: (v ++ quote :: b')) := (quoted_eq ha' hv _).symm

theorem NamesEsn.append (h : NamesEsn text) (a b : List UInt8) : NamesEsn (a ++ (text ++ b)) := by
  refine ⟨h.1.trans ⟨a, b, by simp⟩, ?_⟩
  have hcount := h.2
  simp only [List.count_append]
  omega

/-- The newline at the end of a line belongs to neither text. -/
theorem namesEsn_newline : NamesEsn (text ++ [newline]) ↔ NamesEsn text := by
  refine ⟨fun h => ⟨?_, ?_⟩, fun h => h.append [] [newline]⟩
  · rcases List.infix_concat_iff.mp h.1 with hsuffix | hinfix
    · have hlast := hsuffix.getLast (by decide : esnKeyword ≠ [])
      rw [List.getLast_append_singleton] at hlast
      exact absurd hlast (by decide)
    · exact hinfix
  · have hcount := h.2
    rwa [List.count_append, show [newline].count quote = 0 from rfl, Nat.add_zero] at hcount

theorem strchr_quote (ha : quote ∉ a) (b : List UInt8) :
    strchr quote (a ++ quote :: b) = some (quote :: b) := by
  have hother : ∀ c ∈ a, (c != quote) = true := fun c hc =>
    bne_iff_ne.mpr (ne_of_mem_of_not_mem hc ha)
  rw [strchr_eq, if_pos (by simp), List.dropWhile_append_of_pos hother,
    List.dropWhile_cons_of_neg (by simp)]

theorem strchr_eq_none (ha : quote ∉ a) : strchr quote a = none := by
  rw [strchr_eq, if_neg ha]

end Quotes

/-- The tests accept the texts with the keyword and two quotes. -/
theorem esnOfLine_eq (line : List UInt8) :
    esnOfLine line = if NamesEsn (cString line) then some (quoted (cString line)) else none := by
  unfold esnOfLine
  generalize cString line = text
  by_cases hkey : esnKeyword <:+: text
  · obtain ⟨found, hfound⟩ := Option.isSome_iff_exists.mp ((isSome_strstr _ _).mpr hkey)
    simp only [hfound]
    by_cases hcount : 2 ≤ text.count quote
    · rw [if_pos ⟨hkey, hcount⟩]
      obtain ⟨a, v, b, ha, hv, rfl⟩ := exists_quotes hcount
      have hlen : (v ++ quote :: b).length - (quote :: b).length = v.length := by simp
      simp only [strchr_quote ha, List.tail_cons, strchr_quote hv, quoted_eq ha hv, hlen,
        List.take_left]
    · rw [if_neg fun h => hcount h.2]
      by_cases hmem : quote ∈ text
      · obtain ⟨a, r, rfl, ha⟩ := List.eq_append_cons_of_mem hmem
        have hr : quote ∉ r := by
          intro hr
          have hpos : 0 < r.count quote := List.count_pos_iff.mpr hr
          apply hcount
          rw [List.count_append, List.count_cons_self]
          omega
        simp only [strchr_quote ha, List.tail_cons, strchr_eq_none hr]
      · simp only [strchr_eq_none hmem]
  · have hnone : strstr esnKeyword text = none := by
      rw [← Option.not_isSome_iff_eq_none, isSome_strstr]
      exact hkey
    rw [if_neg fun h => hkey h.1]
    simp only [hnone]

theorem esnOfLine_newline (p : List UInt8) : esnOfLine (p ++ [newline]) = esnOfLine p := by
  rw [esnOfLine_eq, esnOfLine_eq]
  by_cases hzero : (0 : UInt8) ∈ p
  · rw [cString_append_of_mem hzero]
  · have hp : (0 : UInt8) ∉ p ++ [newline] := by simp [hzero, newline]
    rw [cString_of_not_mem hzero, cString_of_not_mem hp]
    by_cases hnames : NamesEsn p
    · rw [if_pos hnames, if_pos (namesEsn_newline.mpr hnames)]
      exact congrArg some (quoted_append List.not_mem_nil hnames.2 [newline])
    · rw [if_neg hnames, if_neg (mt namesEsn_newline.mp hnames)]

/-- The pieces of a line that the tests see. -/
abbrev linePieces (line : List UInt8) : List (List UInt8) := pieces 255 line

theorem flatten_linePieces (line : List UInt8) : (linePieces line).flatten = line :=
  flatten_pieces (by decide) line

/-- The memory behind the call holds the text, cut to the size, as a string. -/
def Stored (text : List UInt8) (esnSize : UInt64) (esn : List UInt8) : Prop :=
  text.take (esnSize.toNat - 1) ++ [0] <+: esn

/-- The function reads the first line that names the serial number. -/
structure ReadsEsn (file esn : List UInt8) (esnSize : UInt64) : Prop where
  found : ∀ line, (lines file).find? (NamesEsn ·) = some line →
    ∃ esn', readEsnFromFile (some file) esn esnSize = some (0, esn') ∧
      Stored (quoted line) esnSize esn'
  missing : (lines file).find? (NamesEsn ·) = none →
    readEsnFromFile (some file) esn esnSize = some (-2, esn)
  fits : esnSize = maxEsnLen → ∀ esn', readEsnFromFile (some file) esn esnSize = some (0, esn') →
    (esnStr esn').length + 1 ≤ esnStrSize

/-- The keyword and the first two quotes of a line are in one piece of it. -/
def InOnePiece (line : List UInt8) : Prop :=
  ∃ before piece after, linePieces line = before ++ piece :: after ∧
    (∀ p ∈ before, quote ∉ p) ∧ NamesEsn piece

/-- The first piece with the keyword and two quotes, in the line or behind it, has the text
of the line between its quotes, as far as it is stored. -/
def SameText (esnSize : UInt64) (line : List UInt8) (rest : List (List UInt8)) : Prop :=
  ∃ before piece after, (line :: rest).flatMap linePieces = before ++ piece :: after ∧
    (∀ p ∈ before, ¬NamesEsn p) ∧ NamesEsn piece ∧
    (quoted piece).take (esnSize.toNat - 1) = (quoted line).take (esnSize.toNat - 1)

/-- The first line that names the serial number is read right from its pieces. -/
def PiecesSuffice (file : List UInt8) (esnSize : UInt64) : Prop :=
  ∀ line rest, (lines file).dropWhile (!NamesEsn ·) = line :: rest → SameText esnSize line rest

/-- The first text that passes the tests. -/
theorem findSome?_esnOfLine {texts : List (List UInt8)} (hzero : ∀ t ∈ texts, (0 : UInt8) ∉ t) :
    texts.findSome? esnOfLine = (texts.find? (NamesEsn ·)).map quoted := by
  induction texts with
  | nil => rfl
  | cons t texts ih =>
      rw [List.forall_mem_cons] at hzero
      have ht : esnOfLine t = if NamesEsn t then some (quoted t) else none := by
        rw [esnOfLine_eq, cString_of_not_mem hzero.1]
      by_cases hnames : NamesEsn t
      · rw [List.findSome?_cons, ht, if_pos hnames, List.find?_cons_of_pos (by simpa using hnames)]
        rfl
      · rw [List.findSome?_cons, ht, if_neg hnames, List.find?_cons_of_neg (by simpa using hnames)]
        exact ih hzero.2

/-- The bytes of the pieces are bytes of the file. -/
theorem mem_of_mem_linePieces {file p : List UInt8} {c : UInt8}
    (hp : p ∈ (lines file).flatMap linePieces) (hc : c ∈ p) : c ∈ file := by
  obtain ⟨line, hline, hp⟩ := List.mem_flatMap.mp hp
  apply mem_of_mem_lines hline
  rw [← flatten_linePieces line]
  exact List.mem_flatten.mpr ⟨p, hp, hc⟩

/-- The text that is stored, and the bytes behind it. -/
theorem store_eq {text esn : List UInt8} {esnSize : UInt64} (hpos : 0 < esnSize)
    (hesn : esn.length = esnSize.toNat) :
    (let len := if esnSize.toNat ≤ text.length then (esnSize - 1).toNat else text.length
      if len < esn.length then some ((0 : Int), (strncpy esn text len).set len 0) else none) =
      some (0, text.take (esnSize.toNat - 1) ++
        0 :: esn.drop ((text.take (esnSize.toNat - 1)).length + 1)) := by
  have hsize : 0 < esnSize.toNat := UInt64.lt_iff_toNat_lt.mp hpos
  have hsub : (esnSize - 1).toNat = esnSize.toNat - 1 :=
    UInt64.toNat_sub_of_le _ _ (UInt64.le_iff_toNat_le.mpr hsize)
  have hlen : (if esnSize.toNat ≤ text.length then (esnSize - 1).toNat else text.length) =
      (text.take (esnSize.toNat - 1)).length := by
    rw [List.length_take, hsub]
    split <;> omega
  rw [hlen]
  have hk : text.take (text.take (esnSize.toNat - 1)).length = text.take (esnSize.toNat - 1) := by
    rw [List.length_take, List.take_eq_take_iff]
    omega
  generalize hcut : text.take (esnSize.toNat - 1) = cut at hk
  have hle : cut.length ≤ esnSize.toNat - 1 ∧ cut.length ≤ text.length := by
    rw [← hcut, List.length_take]
    omega
  have hlt : cut.length < esn.length := by omega
  have hpad : cut.length - text.length = 0 := by omega
  have hrest : esn.drop cut.length = esn[cut.length] :: esn.drop (cut.length + 1) :=
    List.drop_eq_getElem_cons hlt
  simp only [hlt, if_true, strncpy, hk, hpad, List.replicate_zero, List.append_nil, hrest,
    List.set_append_right, le_refl, Nat.sub_self, List.set_cons_zero]

/-- The result is that of the first piece with the keyword and two quotes. -/
theorem readEsnFromFile_eq {file esn : List UInt8} {esnSize : UInt64} (hfile : (0 : UInt8) ∉ file)
    (hpos : 0 < esnSize) (hesn : esn.length = esnSize.toNat) :
    readEsnFromFile (some file) esn esnSize =
      match ((lines file).flatMap linePieces).find? (NamesEsn ·) with
      | none => some (-2, esn)
      | some piece =>
          let text := (quoted piece).take (esnSize.toNat - 1)
          some (0, text ++ 0 :: esn.drop (text.length + 1)) := by
  have hloop : fgetsLoop 256 esnOfLine (file.length + 1) file =
      some ((((lines file).flatMap linePieces).find? (NamesEsn ·)).map quoted) := by
    rw [fgetsLoop_eq (by decide) esnOfLine_newline (by decide) (Nat.lt_succ_self _),
      ← findSome?_esnOfLine fun p hp hzero => hfile (mem_of_mem_linePieces hp hzero)]
  rw [readEsnFromFile, hloop, Option.bind_some]
  cases ((lines file).flatMap linePieces).find? (NamesEsn ·) with
  | none => rfl
  | some piece => exact store_eq hpos hesn

theorem stored_iff {text cut rest : List UInt8} {esnSize : UInt64} (htext : (0 : UInt8) ∉ text)
    (hcut : (0 : UInt8) ∉ cut) :
    Stored text esnSize (cut ++ 0 :: rest) ↔ text.take (esnSize.toNat - 1) = cut := by
  have htake : (0 : UInt8) ∉ text.take (esnSize.toNat - 1) := fun h =>
    htext (List.mem_of_mem_take h)
  constructor
  · rintro ⟨tail, h⟩
    have hstring := congrArg cString h
    rwa [List.append_assoc, List.singleton_append, cString_terminated htake,
      cString_terminated hcut] at hstring
  · rintro rfl
    exact ⟨rest, by simp⟩

section Pieces

variable {line piece : List UInt8} {rest : List (List UInt8)} {esnSize : UInt64}

theorem NamesEsn.of_mem_linePieces (h : NamesEsn piece) (hp : piece ∈ linePieces line) :
    NamesEsn line := by
  obtain ⟨before, after, hpieces⟩ := List.append_of_mem hp
  have hline := flatten_linePieces line
  rw [hpieces, List.flatten_append, List.flatten_cons] at hline
  rw [← hline]
  exact h.append before.flatten after.flatten

/-- A piece with the first two quotes of the line has the text of the line between them. -/
theorem InOnePiece.sameText (h : InOnePiece line) : SameText esnSize line rest := by
  obtain ⟨before, piece, after, hpieces, hbefore, hnames⟩ := h
  refine ⟨before, piece, after ++ rest.flatMap linePieces, ?_, ?_, hnames, ?_⟩
  · rw [List.flatMap_cons, hpieces, List.append_assoc, List.cons_append]
  · intro p hp hpnames
    have hcount := hpnames.2
    rw [List.count_eq_zero_of_not_mem (hbefore p hp)] at hcount
    omega
  · have hquote : quote ∉ before.flatten := by
      rw [List.mem_flatten]
      rintro ⟨p, hp, hmem⟩
      exact hbefore p hp hmem
    have hline := flatten_linePieces line
    rw [hpieces, List.flatten_append, List.flatten_cons] at hline
    rw [← hline, quoted_append hquote hnames.2]

theorem sameText_iff :
    SameText esnSize line rest ↔
      ∃ piece, ((line :: rest).flatMap linePieces).find? (NamesEsn ·) = some piece ∧
        (quoted line).take (esnSize.toNat - 1) = (quoted piece).take (esnSize.toNat - 1) := by
  constructor
  · rintro ⟨before, piece, after, hpieces, hbefore, hnames, htext⟩
    refine ⟨piece, ?_, htext.symm⟩
    rw [List.find?_eq_some_iff_append]
    exact ⟨by simpa using hnames, before, after, hpieces, fun p hp => by simpa using hbefore p hp⟩
  · rintro ⟨piece, hfind, htext⟩
    obtain ⟨hnames, before, after, hpieces, hbefore⟩ := List.find?_eq_some_iff_append.mp hfind
    exact ⟨before, piece, after, hpieces, fun p hp => by simpa using hbefore p hp,
      by simpa using hnames, htext.symm⟩

/-- No piece of the lines in front of the first line that names the number names it. -/
theorem find?_linePieces (texts : List (List UInt8)) :
    (texts.flatMap linePieces).find? (NamesEsn ·) =
      ((texts.dropWhile (!NamesEsn ·)).flatMap linePieces).find? (NamesEsn ·) := by
  induction texts with
  | nil => rfl
  | cons t texts ih =>
      by_cases hnames : NamesEsn t
      · rw [List.dropWhile_cons_of_neg (by simpa using hnames)]
      · have hnone : (linePieces t).find? (NamesEsn ·) = none := by
          rw [List.find?_eq_none]
          intro p hp
          simpa using fun hpnames : NamesEsn p => hnames (hpnames.of_mem_linePieces hp)
        rw [List.dropWhile_cons_of_pos (by simpa using hnames), List.flatMap_cons,
          List.find?_append, hnone, Option.none_or, ih]

theorem find?_namesEsn (texts : List (List UInt8)) :
    texts.find? (NamesEsn ·) = (texts.dropWhile (!NamesEsn ·)).head? := by
  induction texts with
  | nil => rfl
  | cons t texts ih =>
      by_cases hnames : NamesEsn t
      · rw [List.find?_cons_of_pos (by simpa using hnames),
          List.dropWhile_cons_of_neg (by simpa using hnames), List.head?_cons]
      · rw [List.find?_cons_of_neg (by simpa using hnames),
          List.dropWhile_cons_of_pos (by simpa using hnames), ih]

end Pieces

theorem mem_of_mem_quoted {text : List UInt8} {c : UInt8} (h : c ∈ quoted text) : c ∈ text := by
  have htail := (List.takeWhile_sublist _).subset h
  exact (List.dropWhile_sublist _).subset (List.mem_of_mem_tail htail)

/-- Whatever has been read fits in `esn_str`. -/
theorem esnStr_fits {text rest : List UInt8} (htext : (0 : UInt8) ∉ text)
    (hlen : text.length ≤ maxEsnLen.toNat - 1) :
    (esnStr (text ++ 0 :: rest)).length + 1 ≤ esnStrSize := by
  have hmax : maxEsnLen.toNat = 24 := rfl
  rw [esnStr, cString_terminated htext, List.length_append, ascii, List.length_map,
    List.length_cons, esnStrSize]
  simp only [List.length_cons, List.length_nil]
  omega

section Reads

variable {file esn : List UInt8} {esnSize : UInt64} {piece : List UInt8}

theorem zero_notMem_piece (hfile : (0 : UInt8) ∉ file)
    (hpiece : ((lines file).flatMap linePieces).find? (NamesEsn ·) = some piece) :
    (0 : UInt8) ∉ (quoted piece).take (esnSize.toNat - 1) := fun h =>
  hfile (mem_of_mem_linePieces (List.mem_of_find?_eq_some hpiece)
    (mem_of_mem_quoted (List.mem_of_mem_take h)))

theorem readEsnFromFile_fits (hfile : (0 : UInt8) ∉ file) (hpos : 0 < esnSize)
    (hesn : esn.length = esnSize.toNat) (hsize : esnSize = maxEsnLen) {esn' : List UInt8}
    (h : readEsnFromFile (some file) esn esnSize = some (0, esn')) :
    (esnStr esn').length + 1 ≤ esnStrSize := by
  rw [readEsnFromFile_eq hfile hpos hesn] at h
  cases hpiece : ((lines file).flatMap linePieces).find? (NamesEsn ·) with
  | none =>
      rw [hpiece] at h
      cases h
  | some piece =>
      rw [hpiece] at h
      cases h
      refine esnStr_fits (zero_notMem_piece hfile hpiece) ?_
      rw [List.length_take, hsize]
      exact Nat.min_le_left ..

section FirstLine

variable {line : List UInt8} {rest : List (List UInt8)}

/-- The first piece with the keyword and two quotes decides how the first line that names
the number is read. -/
theorem found_iff_sameText (hfile : (0 : UInt8) ∉ file) (hpos : 0 < esnSize)
    (hesn : esn.length = esnSize.toNat)
    (hlines : (lines file).dropWhile (!NamesEsn ·) = line :: rest) :
    (∃ esn', readEsnFromFile (some file) esn esnSize = some (0, esn') ∧
      Stored (quoted line) esnSize esn') ↔ SameText esnSize line rest := by
  have hfind := find?_linePieces (lines file)
  have hread := readEsnFromFile_eq hfile hpos hesn
  have hline : line ∈ lines file := by
    apply (List.dropWhile_sublist _).subset
    rw [hlines]
    exact List.mem_cons_self
  have htext : (0 : UInt8) ∉ quoted line := fun h =>
    hfile (mem_of_mem_lines hline (mem_of_mem_quoted h))
  rw [sameText_iff, ← hlines, ← hfind]
  constructor
  · rintro ⟨esn', hesn', hstored⟩
    cases hpiece : ((lines file).flatMap linePieces).find? (NamesEsn ·) with
    | none =>
        rw [hpiece] at hread
        cases hread.symm.trans hesn'
    | some piece =>
        rw [hpiece] at hread
        cases hread.symm.trans hesn'
        exact ⟨piece, rfl, (stored_iff htext (zero_notMem_piece hfile hpiece)).mp hstored⟩
  · rintro ⟨piece, hpiece, hsame⟩
    rw [hpiece] at hread
    exact ⟨_, hread, (stored_iff htext (zero_notMem_piece hfile hpiece)).mpr hsame⟩

theorem piecesSuffice_iff (hlines : (lines file).dropWhile (!NamesEsn ·) = line :: rest) :
    PiecesSuffice file esnSize ↔ SameText esnSize line rest := by
  constructor
  · intro h
    exact h line rest hlines
  · intro h line' rest' hlines'
    cases hlines.symm.trans hlines'
    exact h

end FirstLine

/-- A file without a line that names the number. -/
theorem readEsnFromFile_missing (hfile : (0 : UInt8) ∉ file) (hpos : 0 < esnSize)
    (hesn : esn.length = esnSize.toNat) (hlines : (lines file).dropWhile (!NamesEsn ·) = []) :
    readEsnFromFile (some file) esn esnSize = some (-2, esn) := by
  rw [readEsnFromFile_eq hfile hpos hesn, find?_linePieces, hlines]
  rfl

/-- The number is read right exactly when the pieces of the first line that names it
are enough to read it. -/
theorem esn_read_iff (hfile : (0 : UInt8) ∉ file) (hpos : 0 < esnSize)
    (hesn : esn.length = esnSize.toNat) :
    ReadsEsn file esn esnSize ↔ PiecesSuffice file esnSize := by
  have hfits : esnSize = maxEsnLen → ∀ esn', readEsnFromFile (some file) esn esnSize =
      some (0, esn') → (esnStr esn').length + 1 ≤ esnStrSize := fun hsize _ h =>
    readEsnFromFile_fits hfile hpos hesn hsize h
  have hfind := find?_namesEsn (lines file)
  cases hlines : (lines file).dropWhile (!NamesEsn ·) with
  | nil =>
      rw [hlines, List.head?_nil] at hfind
      refine iff_of_true ⟨?_, fun _ => readEsnFromFile_missing hfile hpos hesn hlines, hfits⟩ ?_
      · intro line hline
        cases hfind.symm.trans hline
      · intro line rest hline
        cases hlines.symm.trans hline
  | cons line rest =>
      rw [hlines, List.head?_cons] at hfind
      rw [piecesSuffice_iff hlines, ← found_iff_sameText hfile hpos hesn hlines]
      constructor
      · intro h
        exact h.found line hfind
      · intro h
        refine ⟨?_, ?_, hfits⟩
        · intro line' hline'
          cases hfind.symm.trans hline'
          exact h
        · intro hnone
          cases hfind.symm.trans hnone

end Reads

/-- The second line names the number 4711. -/
def paramFile : List UInt8 :=
  ascii ['a', 'b', 'c'] ++ newline :: esnKeyword ++
    ascii [' '] ++ quote :: ascii ['4', '7', '1', '1'] ++ [quote, newline]

theorem esn_read_iff_paramFile : ReadsEsn paramFile (List.replicate 24 0) maxEsnLen := by
  refine (esn_read_iff (by decide) (by decide) rfl).mpr ?_
  intro line rest hlines
  have hdrop : (lines paramFile).dropWhile (!NamesEsn ·) =
      [esnKeyword ++ ascii [' '] ++ quote :: ascii ['4', '7', '1', '1'] ++ [quote], []] := by
    decide +kernel
  cases hdrop.symm.trans hlines
  have hpiece : InOnePiece (esnKeyword ++ ascii [' '] ++ quote :: ascii ['4', '7', '1', '1'] ++
      [quote]) := by
    refine ⟨[], _, [], pieces_short (List.cons_ne_nil _ _) (by decide), nofun, ?_⟩
    decide +kernel
  exact hpiece.sameText

/-- The keyword is in the first piece of the line and the number in the second one. -/
def longLine : List UInt8 := esnKeyword ++ List.replicate 250 32 ++ [quote, 49, quote]

/-- The number in a long line is not found. -/
theorem long_line_missed :
    NamesEsn longLine ∧ quoted longLine = [49] ∧
      readEsnFromFile (some (longLine ++ [newline])) (List.replicate 24 0) maxEsnLen =
        some (-2, List.replicate 24 0) ∧
      ¬ReadsEsn (longLine ++ [newline]) (List.replicate 24 0) maxEsnLen := by
  have hresult : readEsnFromFile (some (longLine ++ [newline])) (List.replicate 24 0) maxEsnLen =
      some (-2, List.replicate 24 0) := by
    decide +kernel
  refine ⟨by decide +kernel, by decide +kernel, hresult, fun h => ?_⟩
  obtain ⟨esn', hesn', -⟩ := h.found longLine (by decide +kernel)
  cases hresult.symm.trans hesn'

end SgMuni
