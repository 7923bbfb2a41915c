import SgMuni.C.Text
import Mathlib.Data.List.Infix
import Mathlib.Data.List.TakeWhile

/-!
# Text files that are read line by line

`fgets` with a buffer of `size` bytes cuts a line into pieces of `size - 1` bytes. A
loop over its results sees the pieces, not the lines.
-/

namespace C

def newline : UInt8 := 10

/-- The bytes that `fgets` stores before the zero byte, and the rest of the file. -/
def takeLine : Nat → List UInt8 → List UInt8 × List UInt8
  | 0, s => ([], s)
  | _ + 1, [] => ([], [])
  | n + 1, c :: s =>
      if c = newline then ([c], s)
      else (c :: (takeLine n s).1, (takeLine n s).2)

/-- `fgets` on the rest of a file; the result is `none` at its end. -/
def fgets (size : Nat) (file : List UInt8) : Option (List UInt8 × List UInt8) :=
  match file with
  | [] => none
  | _ :: _ => some (takeLine (size - 1) file)

/-- The loop `while (fgets(line, size, fp))` with at most `fuel` tests; the body
returns from the function by a value. -/
def fgetsLoop {β : Type*} (size : Nat) (body : List UInt8 → Option β) :
    Nat → List UInt8 → Option (Option β)
  | 0, _ => none
  | fuel + 1, file =>
      match fgets size file with
      | none => some none
      | some (line, rest) =>
          match body line with
          | some b => some (some b)
          | none => fgetsLoop size body fuel rest

/-- `strchr` on a string without its zero byte: the string from the first `c` on. -/
def strchr (c : UInt8) : List UInt8 → Option (List UInt8)
  | [] => none
  | a :: s => if a = c then some (a :: s) else strchr c s

/-- `strstr` on strings without their zero bytes. -/
def strstr (text : List UInt8) : List UInt8 → Option (List UInt8)
  | [] => if text <+: [] then some [] else none
  | a :: s => if text <+: a :: s then some (a :: s) else strstr text s

/-- `strncpy` to a block of memory. -/
def strncpy (dst src : List UInt8) (n : Nat) : List UInt8 :=
  src.take n ++ List.replicate (n - src.length) 0 ++ dst.drop n

theorem strchr_eq (c : UInt8) (s : List UInt8) :
    strchr c s = if c ∈ s then some (s.dropWhile (· != c)) else none := by
  induction s with
  | nil => rfl
  | cons a s ih =>
      by_cases ha : a = c
      · simp [strchr, ha]
      · simp [strchr, ha, ih, Ne.symm ha]

theorem isSome_strstr (text s : List UInt8) : (strstr text s).isSome ↔ text <:+: s := by
  induction s with
  | nil =>
      rw [strstr]
      split_ifs with h
      · exact iff_of_true rfl h.isInfix
      · refine iff_of_false nofun fun hinfix => h ?_
        rw [List.infix_nil.mp hinfix]
  | cons a s ih =>
      rw [strstr, List.infix_cons_iff]
      split_ifs with h
      · simp [h]
      · simp [h, ih]

theorem cString_of_not_mem {s : List UInt8} (hs : (0 : UInt8) ∉ s) : cString s = s :=
  List.takeWhile_eq_self_iff.mpr fun _ hc => bne_iff_ne.mpr (ne_of_mem_of_not_mem hc hs)

theorem cString_terminated {s : List UInt8} (hs : (0 : UInt8) ∉ s) (t : List UInt8) :
    cString (s ++ 0 :: t) = s := by
  have hother : ∀ c ∈ s, (c != 0) = true := fun c hc =>
    bne_iff_ne.mpr (ne_of_mem_of_not_mem hc hs)
  simp [cString, List.takeWhile_append_of_pos hother]

theorem cString_append_of_mem {s : List UInt8} (hs : (0 : UInt8) ∈ s) (t : List UInt8) :
    cString (s ++ t) = cString s := by
  obtain ⟨a, b, rfl, ha⟩ := List.eq_append_cons_of_mem hs
  rw [List.append_assoc, List.cons_append, cString_terminated ha, cString_terminated ha]

/-- The lines of a file, without the newlines. -/
def lines (file : List UInt8) : List (List UInt8) := file.splitOn newline

theorem lines_append_newline {p : List UInt8} (hp : newline ∉ p) (r : List UInt8) :
    lines (p ++ newline :: r) = p :: lines r :=
  List.splitOn_append_cons_self_of_not_mem hp r

theorem lines_append {p : List UInt8} (hp : newline ∉ p) (r : List UInt8) :
    lines (p ++ r) = (lines r).modifyHead (p ++ ·) := by
  induction p with
  | nil => cases h : lines r <;> simp [h]
  | cons c p ih =>
      obtain ⟨hc, hrest⟩ := List.ne_and_not_mem_of_not_mem_cons hp
      rw [List.cons_append, lines, List.splitOn_cons_eq_if_modifyHead,
        if_neg (by simpa using hc.symm)]
      change (lines (p ++ r)).modifyHead _ = _
      rw [ih hrest, List.modifyHead_modifyHead]
      rfl

theorem mem_of_mem_lines {file line : List UInt8} (hline : line ∈ lines file) {c : UInt8}
    (hc : c ∈ line) : c ∈ file := by
  induction file generalizing line with
  | nil =>
      obtain rfl : line = [] := by simpa [lines] using hline
      exact hc
  | cons b file ih =>
      rw [lines, List.splitOn_cons_eq_if_modifyHead] at hline
      split at hline
      · rcases List.mem_cons.mp hline with rfl | hline
        · cases hc
        · exact List.mem_cons_of_mem b (ih hline hc)
      · obtain ⟨h, t, ht⟩ := List.exists_cons_of_ne_nil (List.splitOn_ne_nil newline file)
        rw [ht, List.modifyHead_cons] at hline
        rw [List.mem_cons]
        have hlines : lines file = h :: t := ht
        rw [hlines] at ih
        rcases List.mem_cons.mp hline with rfl | hline
        · exact (List.mem_cons.mp hc).imp_right (ih List.mem_cons_self)
        · exact .inr (ih (List.mem_cons_of_mem h hline) hc)

section Pieces

variable {α : Type*}

/-- A list cut into pieces of `n` elements; the last piece may be shorter. -/
def pieces (n : Nat) (l : List α) : List (List α) :=
  (List.range ((l.length + (n - 1)) / n)).map fun i => (l.drop (i * n)).take n

variable {n : Nat} {c l r : List α}

theorem pieces_nil (hn : 0 < n) : pieces n ([] : List α) = [] := by
  have hcount : (([] : List α).length + (n - 1)) / n = 0 := by
    apply Nat.div_eq_of_lt
    rw [List.length_nil]
    omega
  rw [pieces, hcount]
  rfl

theorem pieces_append (hn : 0 < n) (hc : c.length = n) (r : List α) :
    pieces n (c ++ r) = c :: pieces n r := by
  have hcount : ((c ++ r).length + (n - 1)) / n = (r.length + (n - 1)) / n + 1 := by
    rw [List.length_append, hc, Nat.add_assoc, Nat.add_comm, Nat.add_div_right _ hn]
  rw [pieces, hcount, List.range_succ_eq_map, List.map_cons, List.map_map]
  congr 1
  · simp [← hc]
  · refine List.map_congr_left fun i _ => ?_
    have hdrop : (i + 1) * n = c.length + i * n := by
      rw [hc, Nat.add_mul, Nat.one_mul, Nat.add_comm]
    simp only [Function.comp_apply, Nat.succ_eq_add_one, hdrop, ← List.drop_drop, List.drop_left]

theorem pieces_short (hne : l ≠ []) (hle : l.length ≤ n) : pieces n l = [l] := by
  have hpos : 0 < l.length := List.length_pos_iff.mpr hne
  have hcount : (l.length + (n - 1)) / n = 1 :=
    Nat.div_eq_of_lt_le (by omega) (by omega)
  simp [pieces, hcount, List.take_of_length_le hle]

/-- The pieces make up the list. -/
theorem flatten_pieces (hn : 0 < n) (l : List α) : (pieces n l).flatten = l := by
  induction hlen : l.length using Nat.strong_induction_on generalizing l with
  | _ k ih =>
      subst hlen
      by_cases hle : l.length ≤ n
      · by_cases hne : l = []
        · rw [hne, pieces_nil hn]
          rfl
        · rw [pieces_short hne hle, List.flatten_singleton]
      · have hcut : (l.take n).length = n := by
          rw [List.length_take]
          omega
        have hrest : (l.drop n).length < l.length := by
          rw [List.length_drop]
          omega
        calc
          (pieces n l).flatten = (pieces n (l.take n ++ l.drop n)).flatten := by
            rw [List.take_append_drop]
          _ = l.take n ++ (pieces n (l.drop n)).flatten := by
            rw [pieces_append hn hcut, List.flatten_cons]
          _ = l := by rw [ih _ hrest _ rfl, List.take_append_drop]

end Pieces

/-- `fgets` stops behind a newline, behind `n` bytes or at the end of the file. -/
theorem takeLine_cases {n : Nat} (hn : 0 < n) {file : List UInt8} (hne : file ≠ []) :
    (∃ p r, newline ∉ p ∧ p.length < n ∧ file = p ++ newline :: r ∧
      takeLine n file = (p ++ [newline], r)) ∨
    (∃ p r, newline ∉ p ∧ p ≠ [] ∧ (p.length = n ∨ p.length < n ∧ r = []) ∧ file = p ++ r ∧
      takeLine n file = (p, r)) := by
  induction n generalizing file with
  | zero => omega
  | succ n ih =>
      obtain ⟨c, s, rfl⟩ := List.exists_cons_of_ne_nil hne
      by_cases hc : c = newline
      · refine .inl ⟨[], s, List.not_mem_nil, Nat.succ_pos n, by rw [hc]; rfl, ?_⟩
        rw [takeLine, if_pos hc, hc]
        rfl
      · have htake : takeLine (n + 1) (c :: s) = (c :: (takeLine n s).1, (takeLine n s).2) :=
          if_neg hc
        by_cases hend : n = 0 ∨ s = []
        · -- nothing is read behind `c`
          have hnothing : takeLine n s = ([], s) := by
            rcases hend with rfl | rfl
            · rfl
            · cases n <;> rfl
          refine .inr ⟨[c], s, by simpa using Ne.symm hc, List.cons_ne_nil _ _, ?_, rfl, ?_⟩
          · rcases hend with rfl | rfl
            · exact .inl rfl
            · by_cases hzero : n = 0
              · exact .inl (by rw [hzero]; rfl)
              · exact .inr ⟨by simpa using Nat.pos_of_ne_zero hzero, rfl⟩
          · rw [htake, hnothing]
        · rw [not_or] at hend
          obtain ⟨p, r, hp, hlen, rfl, hrest⟩ | ⟨p, r, hp, -, hlen, rfl, hrest⟩ :=
            ih (Nat.pos_of_ne_zero hend.1) hend.2
          · refine .inl ⟨c :: p, r, ?_, Nat.succ_lt_succ hlen, rfl, by rw [htake, hrest]; rfl⟩
            simp [Ne.symm hc, hp]
          · refine .inr ⟨c :: p, r, ?_, List.cons_ne_nil _ _, ?_, rfl, by rw [htake, hrest]⟩
            · simp [Ne.symm hc, hp]
            · rcases hlen with hlen | ⟨hlen, hr⟩
              · exact .inl (congrArg Nat.succ hlen)
              · exact .inr ⟨Nat.succ_lt_succ hlen, hr⟩

/-- A loop whose body does not look at the newline returns by the first piece of a
line for which the body does. -/
theorem fgetsLoop_eq {β : Type*} {size : Nat} (hsize : 1 < size) {body : List UInt8 → Option β}
    (hbody : ∀ p, body (p ++ [newline]) = body p) (hempty : body [] = none) {fuel : Nat}
    {file : List UInt8} (hfuel : file.length < fuel) :
    fgetsLoop size body fuel file =
      some (((lines file).flatMap (pieces (size - 1))).findSome? body) := by
  have hn : 0 < size - 1 := by omega
  induction fuel generalizing file with
  | zero => omega
  | succ fuel ih =>
      by_cases hne : file = []
      · subst hne
        have hnone : (lines []).flatMap (pieces (size - 1)) = [] := by
          simp [lines, pieces_nil hn]
        rw [hnone]
        rfl
      · have hfgets : fgets size file = some (takeLine (size - 1) file) := by
          cases file with
          | nil => exact absurd rfl hne
          | cons c s => rfl
        rw [fgetsLoop, hfgets]
        obtain ⟨p, r, hp, hlen, rfl, htake⟩ | ⟨p, r, hp, hpne, hlen, rfl, htake⟩ :=
          takeLine_cases hn hne
        · have hr : r.length < fuel := by
            rw [List.length_append, List.length_cons] at hfuel
            omega
          have hpieces : (pieces (size - 1) p).findSome? body = body p := by
            by_cases hpne : p = []
            · rw [hpne, pieces_nil hn, hempty]
              rfl
            · rw [pieces_short hpne (by omega), List.findSome?_singleton]
          rw [htake, lines_append_newline hp, List.flatMap_cons, List.findSome?_append, hpieces]
          simp only [hbody]
          cases body p with
          | none => exact ih hr
          | some b => rfl
        · have hr : r.length < fuel := by
            have hpos : 0 < p.length := List.length_pos_iff.mpr hpne
            rw [List.length_append] at hfuel
            omega
          have hpieces : (lines (p ++ r)).flatMap (pieces (size - 1)) =
              p :: (lines r).flatMap (pieces (size - 1)) := by
            rw [lines_append hp]
            obtain ⟨h, t, ht⟩ := List.exists_cons_of_ne_nil (List.splitOn_ne_nil newline r)
            rw [show lines r = h :: t from ht, List.modifyHead_cons, List.flatMap_cons,
              List.flatMap_cons]
            rcases hlen with hlen | ⟨hlen, rfl⟩
            · rw [pieces_append hn hlen, List.cons_append]
            · obtain ⟨rfl, rfl⟩ : [] = h ∧ [] = t := by simpa using ht
              rw [List.append_nil, pieces_short hpne hlen.le, pieces_nil hn]
              rfl
          rw [htake, hpieces, List.findSome?_cons]
          cases hb : body p with
          | none =>
              simp only [hb]
              exact ih hr
          | some b => simp only [hb]

end C
