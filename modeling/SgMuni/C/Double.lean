import SgMuni.C.Text
import Mathlib.Data.Int.Log
import Mathlib.Data.Rat.Floor

/-!
# Doubles

The values of type `double`, the rounding of a number to the `double` next to it, and the
conversion to `int`.

## Implementation notes

A finite `double` is given by its value, so that a zero has no sign.
-/

namespace C

/-- The nearest integer, and the even one of two. -/
def roundEven (x : ℚ) : ℤ :=
  if x - ⌊x⌋ < 1 / 2 then ⌊x⌋
  else if 1 / 2 < x - ⌊x⌋ then ⌊x⌋ + 1
  else if ⌊x⌋ % 2 = 0 then ⌊x⌋
  else ⌊x⌋ + 1

/-- The distance of the doubles around a number. -/
def ulp (x : ℚ) : ℚ := 2 ^ max (Int.log 2 |x| - 52) (-1074)

/-- The nearest number of 53 binary digits above the smallest `double`. -/
def nearest (x : ℚ) : ℚ := roundEven (x / ulp x) * ulp x

/-- A number that is the value of a `double`. -/
def Representable (x : ℚ) : Prop := nearest x = x ∧ |x| < 2 ^ 1024

section Rounding

variable {x : ℚ} {n : ℤ}

theorem roundEven_intCast (n : ℤ) : roundEven n = n := by
  simp [roundEven]

theorem roundEven_bounds (x : ℚ) : ⌊x⌋ ≤ roundEven x ∧ roundEven x ≤ ⌊x⌋ + 1 := by
  unfold roundEven
  split_ifs <;> omega

/-- Rounding passes no integer. -/
theorem abs_roundEven_le (hx : |x| ≤ n) : |roundEven x| ≤ n := by
  obtain ⟨hlo, hhi⟩ := abs_le.mp hx
  obtain ⟨hfloor, hceil⟩ := roundEven_bounds x
  have hlow : -n ≤ ⌊x⌋ := Int.le_floor.mpr (by exact_mod_cast hlo)
  refine abs_le.mpr ⟨hlow.trans hfloor, ?_⟩
  obtain hlt | heq := hhi.lt_or_eq
  · exact hceil.trans (Int.floor_lt.mpr hlt)
  · rw [heq, roundEven_intCast]

theorem abs_roundEven_sub_le (x : ℚ) : |(roundEven x : ℚ) - x| ≤ 1 / 2 := by
  have hlo := Int.floor_le x
  have hhi := Int.lt_floor_add_one x
  unfold roundEven
  split_ifs
  all_goals
    rw [abs_le]
    push_cast
    constructor <;> linarith

/-- The nearest integer of a number is the only one that is so near. -/
theorem roundEven_eq (h : |x - n| < 1 / 2) : roundEven x = n := by
  have hround := abs_le.mp (abs_roundEven_sub_le x)
  have hnear := abs_lt.mp h
  have hlo : (n : ℚ) - 1 < roundEven x := by linarith
  have hhi : (roundEven x : ℚ) < n + 1 := by linarith
  have hlo' : n - 1 < roundEven x := by exact_mod_cast hlo
  have hhi' : roundEven x < n + 1 := by exact_mod_cast hhi
  omega

theorem ulp_pos (x : ℚ) : 0 < ulp x := zpow_pos two_pos _

theorem le_ulp (x : ℚ) : (2 : ℚ) ^ (-1074 : ℤ) ≤ ulp x :=
  zpow_le_zpow_right₀ one_le_two (le_max_right _ _)

/-- A number has at most 53 binary digits above its last one. -/
theorem abs_lt_ulp (x : ℚ) : |x| < 2 ^ 53 * ulp x := by
  have hulp : (2 : ℚ) ^ (Int.log 2 |x| - 52) ≤ ulp x :=
    zpow_le_zpow_right₀ one_le_two (le_max_left _ _)
  calc
    |x| < (2 : ℚ) ^ (Int.log 2 |x| + 1) := Int.lt_zpow_succ_log_self (by decide) _
    _ = 2 ^ (53 : ℤ) * 2 ^ (Int.log 2 |x| - 52) := by
      rw [← zpow_add₀ two_ne_zero]
      congr 1
      ring
    _ ≤ 2 ^ 53 * ulp x := mul_le_mul_of_nonneg_left hulp (by positivity)

theorem abs_div_ulp_le (x : ℚ) : |x / ulp x| ≤ ((2 ^ 53 : ℤ) : ℚ) := by
  rw [abs_div, abs_of_pos (ulp_pos x), div_le_iff₀ (ulp_pos x)]
  push_cast
  exact (abs_lt_ulp x).le

/-- A number of 53 binary digits that are not below the last one of the smallest `double`. -/
theorem nearest_of_digits {k j : ℤ} (hk : |k| < 2 ^ 53) (hj : -1074 ≤ j) :
    nearest (k * 2 ^ j) = k * 2 ^ j := by
  obtain rfl | hne := eq_or_ne k 0
  · simp [nearest, roundEven]
  have hscale : (0 : ℚ) < 2 ^ j := zpow_pos two_pos j
  have hpos : 0 < |(k : ℚ) * 2 ^ j| :=
    abs_pos.mpr (mul_ne_zero (Int.cast_ne_zero.mpr hne) hscale.ne')
  have hlog : Int.log 2 |(k : ℚ) * 2 ^ j| < 53 + j := by
    rw [← Int.lt_zpow_iff_log_lt (by decide) hpos, abs_mul, abs_of_pos hscale]
    push_cast
    rw [zpow_add₀ two_ne_zero]
    exact mul_lt_mul_of_pos_right (by exact_mod_cast hk) hscale
  obtain ⟨m, hm⟩ : ∃ m : ℕ, max (Int.log 2 |(k : ℚ) * 2 ^ j| - 52) (-1074) = j - m :=
    ⟨(j - max (Int.log 2 |(k : ℚ) * 2 ^ j| - 52) (-1074)).toNat, by omega⟩
  have hquot : (k : ℚ) * 2 ^ j / ulp (k * 2 ^ j) = ((k * 2 ^ m : ℤ) : ℚ) := by
    rw [ulp, hm, zpow_sub₀ two_ne_zero, zpow_natCast]
    push_cast
    field_simp
  rw [nearest, hquot, roundEven_intCast, ← hquot, div_mul_cancel₀ _ (ulp_pos _).ne']

/-- Rounding up may give one binary digit more, which is then a single one. -/
theorem nearest_of_digits_le {k j : ℤ} (hk : |k| ≤ 2 ^ 53) (hj : -1074 ≤ j) :
    nearest (k * 2 ^ j) = k * 2 ^ j := by
  obtain hlt | heq := hk.lt_or_eq
  · exact nearest_of_digits hlt hj
  obtain ⟨k', hk', hlt⟩ : ∃ k', k = k' * 2 ∧ |k'| < 2 ^ 53 := by
    rcases abs_choice k with hsign | hsign
    · exact ⟨2 ^ 52, by omega, by norm_num⟩
    · exact ⟨-2 ^ 52, by omega, by norm_num⟩
  have hshift : (k : ℚ) * 2 ^ j = k' * 2 ^ (j + 1) := by
    rw [hk', zpow_add_one₀ two_ne_zero]
    push_cast
    ring
  rw [hshift]
  exact nearest_of_digits hlt (by omega)

theorem nearest_nearest (x : ℚ) : nearest (nearest x) = nearest x :=
  nearest_of_digits_le (abs_roundEven_le (abs_div_ulp_le x)) (le_max_right _ _)

/-- The values of type `double` other than zero have a smallest size. -/
theorem le_abs_of_nearest (h : nearest x = x) (hne : x ≠ 0) : (2 : ℚ) ^ (-1074 : ℤ) ≤ |x| := by
  have hround : roundEven (x / ulp x) ≠ 0 := by
    intro hzero
    refine hne (h.symm.trans ?_)
    rw [nearest, hzero, Int.cast_zero, zero_mul]
  have hone : (1 : ℚ) ≤ |(roundEven (x / ulp x) : ℚ)| := by
    exact_mod_cast Int.one_le_abs hround
  calc
    (2 : ℚ) ^ (-1074 : ℤ) ≤ ulp x := le_ulp x
    _ = 1 * ulp x := (one_mul _).symm
    _ ≤ |(roundEven (x / ulp x) : ℚ)| * ulp x := mul_le_mul_of_nonneg_right hone (ulp_pos x).le
    _ = |nearest x| := by rw [nearest, abs_mul, abs_of_pos (ulp_pos x)]
    _ = |x| := by rw [h]

/-- A number near to one of 53 binary digits is not larger than all numbers of its length. -/
theorem log_le_of_near {y : ℚ} (hx : nearest x = x) (hne : x ≠ 0)
    (hy : |y - x| ≤ |x| / (2 * 10 ^ 16)) : Int.log 2 |y| ≤ Int.log 2 |x| := by
  by_contra hlog
  set l := Int.log 2 |x| with hl
  have hpos : 0 < |x| := abs_pos.mpr hne
  have hlow : (2 : ℚ) ^ l ≤ |x| := Int.zpow_log_le_self (by decide) hpos
  have hhigh : |x| < (2 : ℚ) ^ (l + 1) := Int.lt_zpow_succ_log_self (by decide) _
  have hmin : -1074 ≤ l := by
    rw [hl, ← Int.zpow_le_iff_le_log (by decide) hpos]
    exact le_abs_of_nearest hx hne
  have hypos : 0 < |y| := by
    have htri := abs_sub_abs_le_abs_sub x y
    rw [abs_sub_comm] at htri
    linarith
  have hpow : (2 : ℚ) ^ (l + 1) ≤ |y| := by
    have := (Int.zpow_le_iff_le_log (b := 2) (by decide) hypos).mpr
      (show l + 1 ≤ Int.log 2 |y| by omega)
    exact_mod_cast this
  -- The power of two between them is a multiple of the last binary digit.
  obtain ⟨n, hn⟩ : ∃ n : ℕ, l + 1 = n + max (l - 52) (-1074) :=
    ⟨(l + 1 - max (l - 52) (-1074)).toNat, by omega⟩
  have hmultiple : (2 : ℚ) ^ (l + 1) = ((2 ^ n : ℤ) : ℚ) * ulp x := by
    rw [ulp, ← hl, hn, zpow_add₀ two_ne_zero, zpow_natCast]
    push_cast
    rfl
  obtain ⟨k, hk⟩ : ∃ k : ℤ, |x| = k * ulp x := by
    refine ⟨|roundEven (x / ulp x)|, ?_⟩
    rw [Int.cast_abs, ← abs_of_pos (ulp_pos x), ← abs_mul, abs_of_pos (ulp_pos x)]
    exact congrArg abs hx.symm
  have hstep : |x| + ulp x ≤ 2 ^ (l + 1) := by
    have hlt : k < 2 ^ n := by
      rw [hmultiple, hk] at hhigh
      exact Int.cast_lt.mp (lt_of_mul_lt_mul_right hhigh (ulp_pos x).le)
    have hle : ((k + 1 : ℤ) : ℚ) ≤ ((2 ^ n : ℤ) : ℚ) := Int.cast_le.mpr hlt
    calc
      |x| + ulp x = ((k + 1 : ℤ) : ℚ) * ulp x := by
        rw [hk]
        push_cast
        ring
      _ ≤ ((2 ^ n : ℤ) : ℚ) * ulp x := mul_le_mul_of_nonneg_right hle (ulp_pos x).le
      _ = 2 ^ (l + 1) := hmultiple.symm
  have hulp : (2 : ℚ) ^ l ≤ 2 ^ 52 * ulp x := by
    calc
      (2 : ℚ) ^ l = 2 ^ (52 : ℤ) * 2 ^ (l - 52) := by
        rw [← zpow_add₀ two_ne_zero]
        congr 1
        ring
      _ ≤ 2 ^ 52 * ulp x :=
        mul_le_mul_of_nonneg_left (zpow_le_zpow_right₀ one_le_two (le_max_left _ _))
          (by positivity)
  have hgap : |y| - |x| ≤ |y - x| := abs_sub_abs_le_abs_sub y x
  rw [zpow_add_one₀ two_ne_zero] at hhigh hpow hstep
  linarith

/-- Sixteen decimal digits behind the first one tell a number of 53 binary digits from all
others. -/
theorem nearest_of_near {y : ℚ} (hx : nearest x = x) (hy : |y - x| ≤ |x| / (2 * 10 ^ 16)) :
    nearest y = x := by
  obtain rfl | hne := eq_or_ne x 0
  · obtain rfl : y = 0 := by simpa using hy
    exact hx
  have hlog := log_le_of_near hx hne hy
  have hpos : 0 < |x| := abs_pos.mpr hne
  have hgap : |x| - |y| ≤ |y - x| := by
    rw [abs_sub_comm]
    exact abs_sub_abs_le_abs_sub x y
  obtain ⟨n, hn⟩ : ∃ n : ℕ, max (Int.log 2 |x| - 52) (-1074) =
      n + max (Int.log 2 |y| - 52) (-1074) :=
    ⟨(max (Int.log 2 |x| - 52) (-1074) - max (Int.log 2 |y| - 52) (-1074)).toNat, by omega⟩
  have hulp : ulp x = 2 ^ n * ulp y := by
    rw [ulp, hn, zpow_add₀ two_ne_zero, zpow_natCast, ulp]
  obtain ⟨k, hk⟩ : ∃ k : ℤ, x = k * ulp y := by
    refine ⟨roundEven (x / ulp x) * 2 ^ n, hx.symm.trans ?_⟩
    rw [nearest]
    generalize roundEven (x / ulp x) = m
    rw [hulp]
    push_cast
    ring
  have hsize := abs_lt_ulp y
  have hnear : |y / ulp y - k| < 1 / 2 := by
    have hscaled : y / ulp y - k = (y - x) / ulp y := by
      rw [sub_div, hk, mul_div_cancel_right₀ _ (ulp_pos y).ne']
    rw [hscaled, abs_div, abs_of_pos (ulp_pos y), div_lt_iff₀ (ulp_pos y)]
    linarith
  rw [nearest, roundEven_eq hnear]
  exact hk.symm

end Rounding

/-- A `double`. -/
inductive Double
  | nan
  | infinite (negative : Bool)
  | finite (value : ℚ) (representable : Representable value)
deriving DecidableEq

/-- The `double` next to a number. -/
def toDouble (x : ℚ) : Double :=
  if h : |nearest x| < 2 ^ 1024 then .finite (nearest x) ⟨nearest_nearest x, h⟩
  else .infinite (decide (x < 0))

theorem toDouble_eq {x y : ℚ} (h : nearest y = x) (hx : Representable x) :
    toDouble y = .finite x hx := by
  subst h
  exact dif_pos hx.2

/-- The conversion of a `double` to `int`, with saturation. -/
def saturate : Double → ℤ
  -- The conversion is undefined, and no text of digits has this value.
  | .nan => 0
  | .infinite negative => if negative then intMin else intMax
  | .finite x _ =>
      if intMax ≤ x then intMax
      else if x ≤ intMin then intMin
      else if 0 ≤ x then ⌊x⌋
      else ⌈x⌉

section Integers

variable {n : ℤ}

/-- The numbers of type `int` are doubles. -/
theorem representable_int (hlo : intMin ≤ n) (hhi : n ≤ intMax) : Representable n := by
  have hsmall : |n| < 2 ^ 53 := by
    unfold intMin at hlo
    unfold intMax at hhi
    rw [abs_lt]
    omega
  have hcast : |(n : ℚ)| < 2 ^ 53 := by exact_mod_cast hsmall
  refine ⟨?_, hcast.trans (pow_lt_pow_right₀ one_lt_two (by decide))⟩
  simpa using nearest_of_digits (j := 0) hsmall (by decide)

theorem toDouble_int (hlo : intMin ≤ n) (hhi : n ≤ intMax) :
    toDouble n = .finite n (representable_int hlo hhi) :=
  toDouble_eq (representable_int hlo hhi).1 _

theorem saturate_int (hlo : intMin ≤ n) (hhi : n ≤ intMax) : saturate (toDouble n) = n := by
  rw [toDouble_int hlo hhi, saturate]
  split_ifs with hmax hmin
  · exact le_antisymm (Int.cast_le.mp hmax) hhi
  · exact le_antisymm hlo (Int.cast_le.mp hmin)
  · exact Int.floor_intCast n
  · exact Int.ceil_intCast n

/-- The conversion gives an `int`. -/
theorem saturate_range (d : Double) : intMin ≤ saturate d ∧ saturate d ≤ intMax := by
  cases d with
  | nan => decide
  | infinite negative => cases negative <;> decide
  | finite x =>
      unfold saturate
      dsimp only
      split_ifs with hmax hmin hpos
      · decide
      · decide
      · exact ⟨(show intMin ≤ 0 by decide).trans (Int.floor_nonneg.mpr hpos),
          Int.floor_le_iff.mpr ((not_le.mp hmax).trans (lt_add_one _))⟩
      · exact ⟨(Int.le_ceil_iff.mpr (by linarith [not_le.mp hmin])),
          (Int.ceil_le.mpr (not_le.mp hmax).le)⟩

end Integers

end C
