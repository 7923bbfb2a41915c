import SgMuni.C.Strtod
import Mathlib.Data.List.DropRight

/-!
# The text of a double

The conversions of `printf` and `scanf` for a `double`: `%1.15g` prints significant decimal
digits without the zeros at their end, in the style of `%f` or, for very small and very large
numbers, in that of `%e`.
-/

namespace C

/-- The decimal digits of a number, rounded to a precision, and the exponent of the first one. -/
def significant (precision : ℕ) (x : ℚ) : ℕ × ℤ :=
  let e := Int.log 10 |x|
  let m := (roundEven (|x| / 10 ^ (e + 1 - precision))).toNat
  if m = 10 ^ precision then (10 ^ (precision - 1), e + 1) else (m, e)

/-- Digits without the zeros at their end. -/
def trim (ds : List UInt8) : List UInt8 := ds.rdropWhile (· == 48)

section Trim

variable {ds : List UInt8}

theorem trim_start (ds : List UInt8) : trim ds <+: ds := List.rdropWhile_prefix _ _

theorem isdigit_trim (hds : ∀ c ∈ ds, isdigit c = true) : ∀ c ∈ trim ds, isdigit c = true :=
  fun c hc => hds c ((trim_start ds).subset hc)

end Trim

/-- What `%1.*g` prints of a number. -/
def generalNumeral (precision : ℕ) (x : ℚ) : Numeral :=
  let e := (significant precision x).2
  let ds := decimal (significant precision x).1
  have hds : ∀ c ∈ ds, isdigit c = true := fun _ hc => isdigit_of_mem_decimal hc
  have hne : ds ≠ [] := decimal_ne_nil _
  if e < -4 ∨ precision ≤ e then {
    negative := decide (x < 0)
    int := ds.take 1
    frac := trim (ds.drop 1)
    exp := some e
    isdigit_int := fun c hc => hds c (List.mem_of_mem_take hc)
    isdigit_frac := isdigit_trim fun c hc => hds c (List.mem_of_mem_drop hc)
    int_ne_nil := by simpa [List.take_eq_nil_iff] using hne }
  else if hneg : e < 0 then {
    negative := decide (x < 0)
    int := [48]
    frac := trim (List.replicate (-e - 1).toNat 48 ++ ds)
    exp := none
    isdigit_int := List.forall_mem_singleton.mpr rfl
    isdigit_frac := isdigit_trim fun c hc => (List.mem_append.mp hc).elim
      (fun hzero => List.eq_of_mem_replicate hzero ▸ rfl) (hds c)
    int_ne_nil := List.cons_ne_nil _ _ }
  else {
    negative := decide (x < 0)
    int := ds.take (e + 1).toNat
    frac := trim (ds.drop (e + 1).toNat)
    exp := none
    isdigit_int := fun c hc => hds c (List.mem_of_mem_take hc)
    isdigit_frac := isdigit_trim fun c hc => hds c (List.mem_of_mem_drop hc)
    int_ne_nil := by
      rw [Ne, List.take_eq_nil_iff, not_or]
      exact ⟨by omega, hne⟩ }

def formatGeneral (precision : ℕ) (x : ℚ) : List UInt8 := (generalNumeral precision x).text

/-- What `printf` and `strtod` make of one number: the text is read back to its end. -/
theorem strtod_formatGeneral (precision : ℕ) (x : ℚ) {s : List UInt8} (hs : Stops s) :
    strtod (formatGeneral precision x ++ s) = some ((generalNumeral precision x).number, s) :=
  (generalNumeral precision x).strtod_text hs

example : formatGeneral 15 (3 / 2) = [49, 46, 53] := by decide +kernel

section Length

variable {x : ℚ} {m k precision : ℕ} {e : ℤ}

theorem length_decimal_le (hk : 0 < k) (hm : m < 10 ^ k) : (decimal m).length ≤ k := by
  unfold decimal
  split_ifs
  · exact hk
  · rw [List.length_reverse, List.length_map]
    exact Nat.digits_length_le_iff (by decide) _ |>.mpr hm

/-- The text of an `int` is short. -/
theorem length_formatInt_le {n : ℤ} (hlo : intMin ≤ n) (hhi : n ≤ intMax) :
    (formatInt n).length ≤ 11 := by
  unfold intMin at hlo
  unfold intMax at hhi
  have hdecimal : (decimal n.natAbs).length ≤ 10 := length_decimal_le (by decide) (by omega)
  unfold formatInt
  split_ifs
  · rw [List.length_cons]
    omega
  · omega

theorem significant_lt (hprecision : 0 < precision) (x : ℚ) :
    (significant precision x).1 < 10 ^ precision := by
  have hscale : (0 : ℚ) < 10 ^ (Int.log 10 |x| + 1 - precision) := zpow_pos (by norm_num) _
  have hquot : |(|x| / 10 ^ (Int.log 10 |x| + 1 - precision))| ≤ ((10 ^ precision : ℤ) : ℚ) := by
    have hlog : |x| < (10 : ℚ) ^ (Int.log 10 |x| + 1) := Int.lt_zpow_succ_log_self (by decide) _
    rw [abs_of_nonneg (div_nonneg (abs_nonneg x) hscale.le), div_le_iff₀ hscale]
    calc
      |x| ≤ (10 : ℚ) ^ (Int.log 10 |x| + 1) := hlog.le
      _ = (10 : ℚ) ^ (precision : ℤ) * 10 ^ (Int.log 10 |x| + 1 - precision) := by
        rw [← zpow_add₀ (by norm_num)]
        congr 1
        ring
      _ = ((10 ^ precision : ℤ) : ℚ) * 10 ^ (Int.log 10 |x| + 1 - precision) := by
        push_cast
        rfl
  have hround := (abs_le.mp (abs_roundEven_le hquot)).2
  unfold significant
  dsimp only
  split_ifs with hcarry
  · exact Nat.pow_lt_pow_right (by decide) (by omega)
  · refine lt_of_le_of_ne ?_ hcarry
    rw [Int.toNat_le]
    exact_mod_cast hround

theorem two_zpow_le {k : ℤ} (hk : 0 ≤ k) : (2 : ℚ) ^ (4 * k) ≤ 10 ^ (2 * k) := by
  rw [zpow_mul, zpow_mul]
  exact zpow_le_zpow_left₀ hk (by norm_num) (by norm_num)

/-- The exponents of the doubles have at most three digits. -/
theorem significant_exponent (hx : Representable x) (precision : ℕ) :
    |(significant precision x).2| < 1000 := by
  have hlog : -538 ≤ Int.log 10 |x| ∧ Int.log 10 |x| < 538 := by
    obtain rfl | hne := eq_or_ne x 0
    · simp
    have hpos := abs_pos.mpr hne
    have hpow : (2 : ℚ) ^ (1074 : ℤ) ≤ 10 ^ (538 : ℤ) :=
      (zpow_le_zpow_right₀ one_le_two (by decide)).trans (two_zpow_le (k := 269) (by decide))
    have hlow : (10 : ℚ) ^ (-538 : ℤ) ≤ 2 ^ (-1074 : ℤ) := by
      rw [zpow_neg, zpow_neg]
      exact inv_anti₀ (zpow_pos two_pos _) hpow
    have hhigh : |x| < 2 ^ (1024 : ℤ) := by
      rw [zpow_ofNat]
      exact hx.2
    rw [← Int.zpow_le_iff_le_log (by decide) hpos, ← Int.lt_zpow_iff_log_lt (by decide) hpos]
    exact ⟨hlow.trans (le_abs_of_nearest hx.1 hne),
      hhigh.trans_le ((zpow_le_zpow_right₀ one_le_two (by decide)).trans hpow)⟩
  unfold significant
  dsimp only
  rw [abs_lt]
  split_ifs <;> dsimp only <;> omega

theorem length_exponentText_le (he : |e| < 1000) : (exponentText e).length ≤ 5 := by
  obtain ⟨hlo, hhi⟩ := abs_lt.mp he
  have hdigits : (decimal e.natAbs).length ≤ 3 := length_decimal_le (by decide) (by omega)
  unfold exponentText
  split_ifs with hneg hshort hshort
  all_goals
    simp only [List.length_cons, List.length_append, List.length_nil]
    try have hone := length_decimal_le (k := 1) (by decide) hshort
    omega

theorem Numeral.length_text_le (n : Numeral) : n.text.length ≤
    n.int.length + n.frac.length + 2 + ((n.exp.map exponentText).getD []).length := by
  have hsign : (if n.negative = true then [(45 : UInt8)] else []).length ≤ 1 := by
    split_ifs <;> simp
  have hpoint : (pointText n.frac).length ≤ n.frac.length + 1 := by
    unfold pointText
    split_ifs <;> simp
  simp only [text, List.length_append]
  omega

/-- The text of a `double` is short. -/
theorem length_formatGeneral_le (hx : Representable x) (hprecision : 0 < precision) :
    (formatGeneral precision x).length ≤ precision + 7 := by
  have hds := length_decimal_le hprecision (significant_lt hprecision x)
  have hexp := length_exponentText_le (significant_exponent hx precision)
  refine (generalNumeral precision x).length_text_le.trans ?_
  unfold generalNumeral
  dsimp only
  split_ifs with hstyle hneg
  · have hfrac := (trim_start ((decimal (significant precision x).1).drop 1)).length_le
    simp only [List.length_drop] at hfrac
    simp only [List.length_take, Option.map_some, Option.getD_some]
    omega
  · have hfrac := (trim_start (List.replicate (-(significant precision x).2 - 1).toNat 48 ++
      decimal (significant precision x).1)).length_le
    simp only [List.length_append, List.length_replicate] at hfrac
    simp only [List.length_singleton, Option.map_none, Option.getD_none, List.length_nil]
    omega
  · have hfrac := (trim_start ((decimal (significant precision x).1).drop
      ((significant precision x).2 + 1).toNat)).length_le
    simp only [List.length_drop] at hfrac
    simp only [List.length_take, Option.map_none, Option.getD_none, List.length_nil]
    omega

end Length

section Value

variable {x : ℚ} {precision : ℕ}

theorem value_append (ds es : List UInt8) :
    value (ds ++ es) = value ds * 10 ^ es.length + value es := by
  rw [value_eq_ofDigits, value_eq_ofDigits, value_eq_ofDigits, List.reverse_append, List.map_append,
    Nat.ofDigits_append, List.length_map, List.length_reverse]
  ring

theorem value_zeros (k : ℕ) : value (List.replicate k 48) = 0 := by
  induction k with
  | zero => rfl
  | succ k ih => exact ih

theorem exists_zeros (ds : List UInt8) : ∃ k, ds = trim ds ++ List.replicate k 48 := by
  refine ⟨(ds.rtakeWhile (· == 48)).length, ?_⟩
  rw [← List.eq_replicate_of_mem fun c hc => by simpa using List.mem_rtakeWhile_imp hc]
  exact List.rdropWhile_append_rtakeWhile.symm

/-- The zeros at the end do not change the value. -/
theorem value_trim (int frac : List UInt8) (e : ℤ) :
    (value (int ++ trim frac) : ℚ) * 10 ^ (e - (trim frac).length) =
      value (int ++ frac) * 10 ^ (e - frac.length) := by
  obtain ⟨k, hk⟩ := exists_zeros frac
  have hvalue : value (int ++ frac) = value (int ++ trim frac) * 10 ^ k := by
    conv_lhs => rw [hk, ← List.append_assoc, value_append, value_zeros, List.length_replicate]
    exact Nat.add_zero _
  have hlength : (frac.length : ℤ) = (trim frac).length + k := by
    conv_lhs => rw [hk, List.length_append, List.length_replicate]
    exact Nat.cast_add _ _
  rw [hvalue, hlength, ← sub_sub, zpow_sub₀ (by norm_num : (10 : ℚ) ≠ 0) _ (k : ℤ), zpow_natCast]
  push_cast
  field_simp

/-- The first digit of a number other than zero is none. -/
theorem le_significant (hx : x ≠ 0) (hprecision : 0 < precision) :
    10 ^ (precision - 1) ≤ (significant precision x).1 := by
  have hscale : (0 : ℚ) < 10 ^ (Int.log 10 |x| + 1 - precision) := zpow_pos (by norm_num) _
  have hlow : (10 : ℚ) ^ Int.log 10 |x| ≤ |x| :=
    Int.zpow_log_le_self (by decide) (abs_pos.mpr hx)
  have hquot : ((10 ^ (precision - 1) : ℤ) : ℚ) ≤ |x| / 10 ^ (Int.log 10 |x| + 1 - precision) := by
    rw [le_div_iff₀ hscale]
    refine le_of_eq_of_le ?_ hlow
    push_cast
    rw [← zpow_natCast, ← zpow_add₀ (by norm_num)]
    congr 1
    omega
  have hround : (10 ^ (precision - 1) : ℤ) ≤
      roundEven (|x| / 10 ^ (Int.log 10 |x| + 1 - precision)) :=
    (Int.le_floor.mpr hquot).trans (roundEven_bounds _).1
  unfold significant
  dsimp only
  split_ifs
  · exact le_rfl
  · zify
    exact hround.trans (Int.self_le_toNat _)

theorem length_significant (hx : x ≠ 0) (hprecision : 0 < precision) :
    (decimal (significant precision x).1).length = precision := by
  refine le_antisymm (length_decimal_le hprecision (significant_lt hprecision x)) ?_
  have hlow := le_significant hx hprecision
  have hpos : (significant precision x).1 ≠ 0 := by
    have := Nat.pow_pos (n := precision - 1) (show 0 < 10 by decide)
    omega
  have hlength : precision - 1 < (Nat.digits 10 (significant precision x).1).length :=
    (Nat.lt_digits_length_iff (by decide) _).mpr hlow
  rw [decimal, if_neg hpos, List.length_reverse, List.length_map]
  omega

theorem negative_generalNumeral (precision : ℕ) (x : ℚ) :
    (generalNumeral precision x).negative = decide (x < 0) := by
  unfold generalNumeral
  dsimp only
  split_ifs <;> rfl

/-- Both styles write the same digits with the same exponent. -/
theorem magnitude_generalNumeral (hx : x ≠ 0) (hprecision : 0 < precision) :
    (generalNumeral precision x).magnitude =
      (significant precision x).1 * 10 ^ ((significant precision x).2 + 1 - precision) := by
  have hlength := length_significant hx hprecision
  have hvalue : value (decimal (significant precision x).1) = (significant precision x).1 :=
    value_decimal _
  unfold Numeral.magnitude generalNumeral
  dsimp only
  split_ifs with hstyle hneg
  · rw [value_trim, List.take_append_drop, hvalue, List.length_drop, hlength, Option.getD_some]
    congr 2
    omega
  · have hzeros := value_zeros ((-(significant precision x).2 - 1).toNat + 1)
    rw [value_trim, ← List.append_assoc, List.singleton_append, ← List.replicate_succ, value_append,
      hzeros, Nat.zero_mul, Nat.zero_add, hvalue, List.length_append, List.length_replicate,
      hlength, Option.getD_none]
    congr 2
    omega
  · rw [value_trim, List.take_append_drop, hvalue, List.length_drop, hlength, Option.getD_none]
    congr 2
    omega

/-- The digits are the ones of the number, rounded at the last one. -/
theorem abs_magnitude_sub_le (hx : x ≠ 0) (hprecision : 0 < precision) :
    |(generalNumeral precision x).magnitude - (|x|)| ≤
      10 ^ (Int.log 10 |x| + 1 - precision) / 2 := by
  set scale : ℚ := 10 ^ (Int.log 10 |x| + 1 - precision) with hscale
  have hpos : 0 < scale := zpow_pos (by norm_num) _
  have hround := abs_roundEven_sub_le (|x| / scale)
  have hmagnitude : (generalNumeral precision x).magnitude = roundEven (|x| / scale) * scale := by
    have hnonneg : 0 ≤ roundEven (|x| / scale) :=
      (Int.floor_nonneg.mpr (div_nonneg (abs_nonneg x) hpos.le)).trans (roundEven_bounds _).1
    have hcast : ((roundEven (|x| / scale)).toNat : ℚ) = roundEven (|x| / scale) := by
      exact_mod_cast Int.toNat_of_nonneg hnonneg
    rw [magnitude_generalNumeral hx hprecision]
    unfold significant
    dsimp only
    rw [← hscale]
    split_ifs with hcarry
    · rw [← hcast, hcarry, hscale]
      push_cast
      rw [← zpow_natCast, ← zpow_natCast, ← zpow_add₀ (by norm_num), ← zpow_add₀ (by norm_num)]
      congr 1
      omega
    · rw [hcast]
  have hscaled : roundEven (|x| / scale) * scale - |x| =
      (roundEven (|x| / scale) - |x| / scale) * scale := by
    rw [sub_mul, div_mul_cancel₀ _ hpos.ne']
  rw [hmagnitude, hscaled, abs_mul, abs_of_pos hpos]
  linarith [mul_le_mul_of_nonneg_right hround hpos.le]

theorem abs_number_sub (precision : ℕ) (x : ℚ) :
    |(generalNumeral precision x).number - x| =
      |(generalNumeral precision x).magnitude - (|x|)| := by
  rw [Numeral.number, negative_generalNumeral]
  simp only [decide_eq_true_eq]
  split_ifs with hneg
  · rw [abs_of_neg hneg, ← abs_neg]
    congr 1
    ring
  · rw [abs_of_nonneg (not_lt.mp hneg)]

/-- The text with seventeen digits tells a `double` from all others. -/
theorem toDouble_generalNumeral (hx : Representable x) :
    toDouble (generalNumeral 17 x).number = .finite x hx := by
  refine toDouble_eq (nearest_of_near hx.1 ?_) hx
  obtain rfl | hne := eq_or_ne x 0
  · have hzero : (generalNumeral 17 0).number = 0 := by decide +kernel
    simp [hzero]
  calc
    |(generalNumeral 17 x).number - x| = |(generalNumeral 17 x).magnitude - (|x|)| :=
      abs_number_sub 17 x
    _ ≤ 10 ^ (Int.log 10 |x| + 1 - (17 : ℕ)) / 2 := abs_magnitude_sub_le hne (by decide)
    _ = 10 ^ Int.log 10 |x| / (2 * 10 ^ 16) := by
      rw [show Int.log 10 |x| + 1 - (17 : ℕ) = Int.log 10 |x| - 16 by omega,
        zpow_sub₀ (by norm_num), div_div, mul_comm]
      rfl
    _ ≤ |x| / (2 * 10 ^ 16) :=
      div_le_div_of_nonneg_right (Int.zpow_log_le_self (by decide) (abs_pos.mpr hne))
        (by norm_num)

end Value

end C
