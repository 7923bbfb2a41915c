import Mathlib.Data.Nat.Digits.Lemmas
import Mathlib.Data.List.Basic

/-!
# C integers, strings and decimal text

`int` arithmetic wraps at 32 bits. A pointer into a block of memory is the list
of the bytes from there to the end of the block; reading past the block has no
result. Decimal text is what `%d` prints and what a digit loop reads.
-/

namespace C

/-- The largest `int`. -/
def intMax : Int := 2147483647

/-- The smallest `int`. -/
def intMin : Int := -2147483648

/-- Reduction of an integer to the range of `int`. -/
def wrap (x : Int) : Int := Int.bmod x 4294967296

/-- An `int` is its own reduction. -/
theorem wrap_of_int {x : Int} (hlo : intMin ≤ x) (hhi : x ≤ intMax) : wrap x = x := by
  unfold intMin at hlo
  unfold intMax at hhi
  exact Int.bmod_eq_of_le (by omega) (by omega)

theorem wrap_range (x : Int) : intMin ≤ wrap x ∧ wrap x ≤ intMax := by
  have hlo := Int.le_bmod (x := x) (m := 4294967296) (by decide)
  have hhi := Int.bmod_lt (x := x) (m := 4294967296) (by decide)
  unfold wrap intMin intMax
  omega

theorem wrap_wrap (x : Int) : wrap (wrap x) = wrap x := Int.bmod_bmod

theorem wrap_of_range {x : Int} (hlo : 0 ≤ x) (hhi : x ≤ intMax) : wrap x = x :=
  wrap_of_int (Int.le_trans (by decide) hlo) hhi

/-- The string at a pointer: the bytes before the first zero. -/
def cString (bytes : List UInt8) : List UInt8 := bytes.takeWhile (· != 0)

/-- `tolower` on an ASCII byte. -/
def tolower (c : UInt8) : UInt8 := if 65 ≤ c.toNat ∧ c.toNat ≤ 90 then c + 32 else c

/-- `strncmp` on the bytes at two pointers. -/
def strncmp : List UInt8 → List UInt8 → Nat → Option Int
  | _, _, 0 => some 0
  | a :: s, b :: t, n + 1 =>
      if a ≠ b then some ((a.toNat : Int) - b.toNat)
      else if a = 0 then some 0
      else strncmp s t n
  | _, _, _ + 1 => none

/-- Comparing with all of a text that has no zero byte tests for a prefix. -/
theorem strncmp_eq_zero_iff {text : List UInt8} (hz : 0 ∉ text) (s t : List UInt8) :
    strncmp s (text ++ t) text.length = some 0 ↔ text <+: s := by
  induction text generalizing s with
  | nil => cases s <;> simp [strncmp]
  | cons b text ih =>
      obtain ⟨hb, hrest⟩ := List.ne_and_not_mem_of_not_mem_cons hz
      cases s with
      | nil => simp [strncmp]
      | cons a s =>
          simp only [List.cons_append, List.length_cons, strncmp, List.cons_prefix_cons]
          by_cases hab : a = b
          · subst hab
            simp only [ne_eq, not_true_eq_false, if_false, if_neg hb.symm, true_and]
            exact ih hrest s
          · have hne : (a.toNat : Int) - b.toNat ≠ 0 := by
              intro h
              exact hab (UInt8.toNat_inj.mp (by omega))
            simp [hab, Ne.symm hab, hne]

/-- A difference is found without reading behind it. -/
theorem strncmp_of_ne {text : List UInt8} (hz : 0 ∉ text) {a b : UInt8} (hab : a ≠ b)
    {n : Nat} (hn : text.length < n) (s t : List UInt8) :
    strncmp (text ++ a :: s) (text ++ b :: t) n = some ((a.toNat : Int) - b.toNat) := by
  induction text generalizing n with
  | nil =>
      obtain ⟨n, rfl⟩ := Nat.exists_eq_succ_of_ne_zero (by omega : n ≠ 0)
      simp [strncmp, hab]
  | cons c text ih =>
      obtain ⟨n, rfl⟩ := Nat.exists_eq_succ_of_ne_zero (by omega : n ≠ 0)
      obtain ⟨hc, hrest⟩ := List.ne_and_not_mem_of_not_mem_cons hz
      simp only [List.length_cons, Nat.succ_eq_add_one, Nat.add_lt_add_iff_right] at hn
      simp only [List.cons_append, strncmp, ne_eq, not_true_eq_false, if_false, if_neg hc.symm]
      exact ih hrest hn

theorem strncmp_append_of_some {s t : List UInt8} {n : Nat} {x : Int} (h : strncmp s t n = some x)
    (u : List UInt8) : strncmp (s ++ u) t n = some x := by
  induction n generalizing s t with
  | zero => cases s <;> simpa [strncmp] using h
  | succ n ih =>
      cases s with
      | nil => simp [strncmp] at h
      | cons a s =>
          cases t with
          | nil => simp [strncmp] at h
          | cons b t =>
              simp only [strncmp, List.cons_append] at h ⊢
              split
              · next hab => rwa [if_pos hab] at h
              · next hab =>
                  rw [if_neg hab] at h
                  split
                  · next ha => rwa [if_pos ha] at h
                  · next ha =>
                      rw [if_neg ha] at h
                      exact ih h

/-- The comparison reads behind a block that ends within the text. -/
theorem strncmp_eq_none_iff {text : List UInt8} (hz : 0 ∉ text) (s t : List UInt8) :
    strncmp s (text ++ t) text.length = none ↔ s <+: text ∧ s.length < text.length := by
  induction text generalizing s with
  | nil => cases s <;> simp [strncmp]
  | cons b text ih =>
      obtain ⟨hb, hrest⟩ := List.ne_and_not_mem_of_not_mem_cons hz
      cases s with
      | nil => simp [strncmp]
      | cons a s =>
          simp only [List.cons_append, List.length_cons, strncmp, List.cons_prefix_cons,
            Nat.add_lt_add_iff_right]
          by_cases hab : a = b
          · subst hab
            simp only [ne_eq, not_true_eq_false, if_false, if_neg hb.symm, true_and]
            exact ih hrest s
          · simp [hab]

/-- `isdigit` on an ASCII byte. -/
def isdigit (c : UInt8) : Bool := 48 ≤ c.toNat && c.toNat ≤ 57

/-- The value of a digit. -/
def digitVal (c : UInt8) : Nat := c.toNat - 48

/-- The number that the digits `ds` denote when they follow the number `v`. -/
def valueFrom (v : Nat) (ds : List UInt8) : Nat := ds.foldl (fun v c => v * 10 + digitVal c) v

/-- The number that a digit string denotes. -/
abbrev value (ds : List UInt8) : Nat := valueFrom 0 ds

@[simp] theorem valueFrom_nil (v : Nat) : valueFrom v [] = v := rfl

@[simp] theorem valueFrom_cons (v : Nat) (c : UInt8) (ds : List UInt8) :
    valueFrom v (c :: ds) = valueFrom (v * 10 + digitVal c) ds := by
  simp only [valueFrom, List.foldl_cons]

theorem le_valueFrom (v : Nat) (ds : List UInt8) : v ≤ valueFrom v ds := by
  induction ds generalizing v with
  | nil => exact le_rfl
  | cons c ds ih =>
      calc
        v ≤ v * 10 + digitVal c := by omega
        _ ≤ valueFrom v (c :: ds) := ih _

/-- The loop `while (isdigit(*p)) value = value * 10 + (*p++ - '0')`: the number
read and the pointer behind the digits. -/
def scanDigits : Int → List UInt8 → Option (Int × List UInt8)
  | _, [] => none
  | v, c :: p =>
      if isdigit c then scanDigits (wrap (v * 10 + (c.toNat - 48))) p
      else some (v, c :: p)

/-- The loop stops behind a digit run and has read its value when that is an
`int`: every intermediate value is then one, too. -/
theorem scanDigits_append {ds : List UInt8} (hds : ∀ c ∈ ds, isdigit c = true) {c : UInt8}
    (hc : isdigit c = false) {v : Nat} (hmax : (valueFrom v ds : Int) ≤ intMax) (p : List UInt8) :
    scanDigits v (ds ++ c :: p) = some ((valueFrom v ds : Int), c :: p) := by
  induction ds generalizing v with
  | nil => simp [scanDigits, hc]
  | cons d ds ih =>
      have hd : isdigit d = true := hds d (by simp)
      have hval : (v : Int) * 10 + (d.toNat - 48) = ((v * 10 + digitVal d : Nat) : Int) := by
        simp only [isdigit, Bool.and_eq_true, decide_eq_true_eq] at hd
        unfold digitVal
        omega
      have hle : ((v * 10 + digitVal d : Nat) : Int) ≤ intMax := by
        have := le_valueFrom (v * 10 + digitVal d) ds
        rw [valueFrom_cons] at hmax
        omega
      rw [List.cons_append, scanDigits, if_pos hd, hval, wrap_of_range (by omega) hle]
      exact ih (fun e he => hds e (by simp [he])) hmax

/-- The number in `value` behind the digits `ds`. -/
def accumulate (v : Int) (ds : List UInt8) : Int :=
  ds.foldl (fun v c => wrap (v * 10 + (c.toNat - 48))) v

theorem scanDigits_run {ds : List UInt8} (hds : ∀ c ∈ ds, isdigit c = true) {c : UInt8}
    (hc : isdigit c = false) (v : Int) (p : List UInt8) :
    scanDigits v (ds ++ c :: p) = some (accumulate v ds, c :: p) := by
  induction ds generalizing v with
  | nil => simp [scanDigits, hc, accumulate]
  | cons d ds ih =>
      have hd : isdigit d = true := hds d (by simp)
      rw [List.cons_append, scanDigits, if_pos hd]
      exact ih (fun e he => hds e (by simp [he])) _

theorem scanDigits_eq_none_iff (v : Int) (p : List UInt8) :
    scanDigits v p = none ↔ ∀ c ∈ p, isdigit c = true := by
  induction p generalizing v with
  | nil => simp [scanDigits]
  | cons c p ih =>
      by_cases hc : isdigit c = true <;> simp [scanDigits, hc, ih]

theorem int_digit {c : UInt8} (hc : isdigit c = true) : (c.toNat : Int) - 48 = digitVal c := by
  simp only [isdigit, Bool.and_eq_true, decide_eq_true_eq] at hc
  unfold digitVal
  omega

theorem wrap_wrap_mul_add (x y : Int) : wrap (wrap x * 10 + y) = wrap (x * 10 + y) := by
  unfold wrap
  rw [← Int.bmod_add_bmod, Int.bmod_mul_bmod, Int.bmod_add_bmod]

@[simp] theorem accumulate_cons (v : Int) (c : UInt8) (ds : List UInt8) :
    accumulate v (c :: ds) = accumulate (wrap (v * 10 + (c.toNat - 48))) ds := by
  simp only [accumulate, List.foldl_cons]

/-- The loop computes the number that the digits denote modulo the range of `int`. -/
theorem accumulate_eq {ds : List UInt8} (hds : ∀ c ∈ ds, isdigit c = true) (v : Nat) :
    accumulate (wrap v) ds = wrap (valueFrom v ds) := by
  induction ds generalizing v with
  | nil => rw [accumulate, List.foldl_nil, valueFrom_nil]
  | cons d ds ih =>
      have hd : isdigit d = true := hds d (by simp)
      have hcast : ((v * 10 + digitVal d : Nat) : Int) = (v : Int) * 10 + digitVal d := by
        omega
      rw [accumulate_cons, int_digit hd, wrap_wrap_mul_add, ← hcast, valueFrom_cons]
      exact ih (fun e he => hds e (by simp [he])) _

theorem accumulate_zero {ds : List UInt8} (hds : ∀ c ∈ ds, isdigit c = true) :
    accumulate 0 ds = wrap (value ds) := by
  have hzero : wrap ((0 : Nat) : Int) = 0 := wrap_of_range le_rfl (by decide)
  have hacc := accumulate_eq hds 0
  rwa [hzero] at hacc

/-- The sums `value * 10 + (*p - '0')` that the loop computes. -/
def sums : Int → List UInt8 → List Int
  | _, [] => []
  | v, c :: p =>
      let sum := v * 10 + (c.toNat - 48)
      if isdigit c then sum :: sums (wrap sum) p else []

theorem sums_cons {c : UInt8} (hc : isdigit c = true) (v : Nat) (p : List UInt8) :
    sums v (c :: p) =
      ((v * 10 + digitVal c : Nat) : Int) :: sums (wrap ((v * 10 + digitVal c : Nat) : Int)) p := by
  have hsum : (v : Int) * 10 + ((c.toNat : Int) - 48) = ((v * 10 + digitVal c : Nat) : Int) := by
    rw [int_digit hc]
    omega
  rw [sums, hsum]
  exact if_pos hc

/-- The sums on a run of digits are all in the range of `int` exactly when the
number of the run is. -/
theorem sums_le_intMax_iff {ds : List UInt8} (hds : ∀ c ∈ ds, isdigit c = true) {c : UInt8}
    (hc : isdigit c = false) {v : Nat} (hv : (v : Int) ≤ intMax) (p : List UInt8) :
    (∀ x ∈ sums v (ds ++ c :: p), intMin ≤ x ∧ x ≤ intMax) ↔ (valueFrom v ds : Int) ≤ intMax := by
  induction ds generalizing v with
  | nil => simpa [sums, hc] using hv
  | cons d ds ih =>
      have hd : isdigit d = true := hds d List.mem_cons_self
      have hrest : ∀ e ∈ ds, isdigit e = true := fun e he => hds e (List.mem_cons_of_mem d he)
      have hle := le_valueFrom (v * 10 + digitVal d) ds
      rw [List.cons_append, sums_cons hd, List.forall_mem_cons, valueFrom_cons]
      by_cases hmax : ((v * 10 + digitVal d : Nat) : Int) ≤ intMax
      · rw [wrap_of_range (by omega) hmax, ih hrest hmax]
        have hmin : intMin ≤ ((v * 10 + digitVal d : Nat) : Int) := by
          unfold intMin
          omega
        simp only [hmin, hmax, and_self, true_and]
      · constructor
        · intro h
          exact absurd h.1.2 hmax
        · intro h
          omega

/-- The decimal digits of a number, most significant first. -/
def decimal (n : Nat) : List UInt8 :=
  if n = 0 then [48] else ((Nat.digits 10 n).map fun d => UInt8.ofNat (48 + d)).reverse

/-- The text that `%d` prints. -/
def formatInt (n : Int) : List UInt8 :=
  if n < 0 then 45 :: decimal n.natAbs else decimal n.natAbs

theorem digitVal_ofNat {d : Nat} (hd : d < 10) : digitVal (UInt8.ofNat (48 + d)) = d := by
  rw [digitVal, UInt8.toNat_ofNat', Nat.mod_eq_of_lt (by omega)]
  omega

/-- A digit loop reads what `%d` prints. -/
theorem value_decimal (n : Nat) : value (decimal n) = n := by
  unfold decimal
  split
  · next h => simp [value, digitVal, h]
  · calc
      value ((Nat.digits 10 n).map fun d => UInt8.ofNat (48 + d)).reverse
          = ((Nat.digits 10 n).map fun d => UInt8.ofNat (48 + d)).foldr
              (fun c v => v * 10 + digitVal c) 0 := by
            simp only [value, valueFrom, List.foldl_reverse]
      _ = (Nat.digits 10 n).foldr (fun d v => v * 10 + d) 0 := by
            rw [List.foldr_map]
            refine List.foldr_ext _ _ 0 fun d hd v => ?_
            rw [digitVal_ofNat (Nat.digits_lt_base (by decide) hd)]
      _ = Nat.ofDigits 10 (Nat.digits 10 n) := by
            rw [Nat.ofDigits_eq_foldr]
            refine List.foldr_ext _ _ 0 fun d hd v => ?_
            simp only [Nat.cast_id]
            ring
      _ = n := Nat.ofDigits_digits 10 n

theorem isdigit_of_mem_decimal {n : Nat} {c : UInt8} (hc : c ∈ decimal n) : isdigit c = true := by
  unfold decimal at hc
  split at hc
  · cases List.mem_singleton.mp hc
    rfl
  · obtain ⟨d, hd, rfl⟩ := List.mem_map.mp (List.mem_reverse.mp hc)
    have hlt : d < 10 := Nat.digits_lt_base (by decide) hd
    simp only [isdigit, UInt8.toNat_ofNat', Bool.and_eq_true, decide_eq_true_eq]
    omega

theorem decimal_ne_nil (n : Nat) : decimal n ≠ [] := by
  unfold decimal
  split
  · exact List.cons_ne_nil _ _
  · next h => simpa [Nat.digits_eq_nil_iff_eq_zero] using h

theorem digitVal_lt {c : UInt8} (hc : isdigit c = true) : digitVal c < 10 := by
  simp only [isdigit, Bool.and_eq_true, decide_eq_true_eq] at hc
  unfold digitVal
  omega

theorem ofNat_digitVal {c : UInt8} (hc : isdigit c = true) : UInt8.ofNat (48 + digitVal c) = c := by
  simp only [isdigit, Bool.and_eq_true, decide_eq_true_eq] at hc
  have hsum : 48 + digitVal c = c.toNat := by
    unfold digitVal
    omega
  rw [hsum, UInt8.ofNat_toNat]

theorem value_eq_ofDigits (ds : List UInt8) :
    value ds = Nat.ofDigits 10 (ds.reverse.map digitVal) := by
  rw [Nat.ofDigits_eq_foldr, List.foldr_map, List.foldr_reverse]
  simp only [value, valueFrom, Nat.cast_id]
  congr 1
  funext v c
  ring

/-- A digit run without superfluous zeros is what `%d` prints of its number. -/
theorem decimal_value {ds : List UInt8} (hds : ∀ c ∈ ds, isdigit c = true) (hne : ds ≠ [])
    (hzero : ds.head? = some 48 → ds = [48]) : decimal (value ds) = ds := by
  by_cases h : ds.head? = some 48
  · rw [hzero h]
    rfl
  · have hdigits : Nat.digits 10 (value ds) = ds.reverse.map digitVal := by
      rw [value_eq_ofDigits]
      apply Nat.digits_ofDigits 10 (by decide)
      · intro d hd
        obtain ⟨c, hc, rfl⟩ := List.mem_map.mp hd
        exact digitVal_lt (hds c (List.mem_reverse.mp hc))
      · intro hlist hlast
        obtain ⟨c, rest, rfl⟩ := List.exists_cons_of_ne_nil hne
        have hc : isdigit c = true := hds c List.mem_cons_self
        have hval : digitVal c = 0 := by simpa using hlast
        have hback := ofNat_digitVal hc
        rw [hval] at hback
        exact h (by simp [← hback])
    have hpos : value ds ≠ 0 := by
      intro hval
      rw [hval, Nat.digits_zero] at hdigits
      simp [hne] at hdigits
    have hmap : (ds.reverse.map digitVal).map (fun d => UInt8.ofNat (48 + d)) = ds.reverse := by
      calc
        (ds.reverse.map digitVal).map (fun d => UInt8.ofNat (48 + d))
          = ds.reverse.map (fun c => UInt8.ofNat (48 + digitVal c)) := List.map_map
        _ = ds.reverse.map id := List.map_congr_left fun c hc =>
            ofNat_digitVal (hds c (List.mem_reverse.mp hc))
        _ = ds.reverse := List.map_id _
    rw [decimal, if_neg hpos, hdigits, hmap, List.reverse_reverse]

theorem decimal_injective : Function.Injective decimal := fun m n h => by
  rw [← value_decimal m, h, value_decimal]

theorem isdigit_or_minus_of_mem_formatInt {n : Int} {c : UInt8} (hc : c ∈ formatInt n) :
    isdigit c = true ∨ c = 45 := by
  unfold formatInt at hc
  split at hc
  · rcases List.mem_cons.mp hc with rfl | hc
    · exact .inr rfl
    · exact .inl (isdigit_of_mem_decimal hc)
  · exact .inl (isdigit_of_mem_decimal hc)

theorem formatInt_injective : Function.Injective formatInt := by
  intro m n h
  have hminus : ∀ k : Nat, (45 : UInt8) ∉ decimal k := fun k hk =>
    absurd (isdigit_of_mem_decimal hk) (by decide)
  unfold formatInt at h
  split at h <;> split at h
  · have := decimal_injective (List.cons.inj h).2
    omega
  · exact absurd (h ▸ List.mem_cons_self) (hminus n.natAbs)
  · exact absurd (h ▸ List.mem_cons_self) (hminus m.natAbs)
  · have := decimal_injective h
    omega

end C
