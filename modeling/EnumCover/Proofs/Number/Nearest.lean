import Mathlib.Algebra.Order.Field.Power
import Mathlib.Tactic.FieldSimp
import Mathlib.Tactic.Linarith
import Mathlib.Tactic.Positivity
import Mathlib.Tactic.Ring
import EnumCover.Proofs.Json.Printing
import EnumCover.Proofs.Number.Positional
import EnumCover.Proofs.Number.Rounding

namespace EnumCover

theorem cast_twoPow (n : Nat) : ((twoPow n : ℕ) : ℚ) = 2 ^ n := by
  rw [twoPow_eq, Nat.cast_pow, Nat.cast_ofNat]

theorem tenPow_add (a b : Nat) : tenPow (a + b) = tenPow a * tenPow b := Nat.pow_add 10 a b

theorem tenPow_le_tenPow {a b : Nat} (h : a ≤ b) : tenPow a ≤ tenPow b :=
  Nat.pow_le_pow_right (by decide) h

theorem le_log2_of_twoPow_le {n k : Nat} (hn : n ≠ 0) (h : twoPow k ≤ n) : k ≤ n.log2 :=
  (Nat.le_log2 hn).mpr h

theorem lt_tenPow_length (n : Nat) : n < tenPow (decimalDigits n).length := by
  obtain ⟨ds, hchars, hn⟩ :=
    (Digit.natOfDigits?_eq_some_iff (by decide) _ _).mp (natOfDigits?_decimalDigits n)
  have hlt := Digit.positional_lt (by decide) ds
  rwa [hn, ← List.length_map (f := Digit.char), hchars] at hlt

namespace Binary64

theorem infinityWord_pos : 0 < infinityWord := Nat.mul_pos (by decide) (twoPow_pos 52)

section Extremes

variable {num den : Nat}

theorem ofRatio?_eq_none_of_large (negative : Bool) (hden : 0 < den)
    (h : twoPow 1024 * den ≤ num) : ofRatio? negative num den = none := by
  have hquot : twoPow 2098 ≤ num * one / den := by
    rw [Nat.le_div_iff_mul_le hden]
    calc twoPow 2098 * den
      _ = twoPow 1024 * den * one := by
        rw [show 2098 = 1024 + 1074 from rfl, twoPow_add, ← one, Nat.mul_right_comm]
      _ ≤ num * one := Nat.mul_le_mul_right _ h
  have hpos := twoPow_pos 2098
  have hlog : 2098 ≤ (num * one / den).log2 := le_log2_of_twoPow_le (by omega) hquot
  have hshift : 2046 ≤ unitShift (num * one) den := by
    unfold unitShift
    omega
  have hword : infinityWord ≤ roundMagnitude (num * one) den := by
    have hsignificand := (significand_bounds (num * one) den).2.resolve_left (by omega)
    calc infinityWord
      _ = 2046 * twoPow 52 + twoPow 52 := Nat.succ_mul 2046 (twoPow 52)
      _ ≤ unitShift (num * one) den * twoPow 52 +
          divNearest (num * one) (den * twoPow (unitShift (num * one) den)) :=
        Nat.add_le_add (Nat.mul_le_mul_right _ hshift) hsignificand
  rw [ofRatio?_eq, if_neg (by omega)]

theorem ofRatio?_of_small (negative : Bool) (h : 2 * (num * one) < den) :
    ofRatio? negative num den = some (ofWord negative 0) := by
  have hquot : num * one / den = 0 := Nat.div_eq_of_lt (by omega)
  have hword : roundMagnitude (num * one) den = 0 := by
    have hmod : num * one % den = num * one := Nat.mod_eq_of_lt (by omega)
    simp only [roundMagnitude, hquot, Nat.log2_zero, Nat.zero_sub, Nat.zero_mul, Nat.zero_add]
    rw [show den * twoPow 0 = den from Nat.mul_one den]
    simp only [divNearest, hquot, hmod, if_pos h]
  rw [ofRatio?_eq, hword, if_pos infinityWord_pos]

end Extremes

section Error

variable {den : Nat}

/-- Twice the error of a rounded quotient is at most the divisor. -/
theorem divNearest_error (num : Nat) (hden : 0 < den) :
    2 * num ≤ 2 * (divNearest num den * den) + den ∧
      2 * (divNearest num den * den) ≤ 2 * num + den := by
  have hsplit := Nat.div_add_mod' num den
  have hlt := Nat.mod_lt num hden
  have hsucc : (num / den + 1) * den = num / den * den + den := Nat.succ_mul _ _
  unfold divNearest
  dsimp only
  split
  · omega
  · split
    · omega
    · rcases Nat.mod_two_eq_zero_or_one (num / den) with heven | hodd
      · rw [heven, Nat.add_zero]
        omega
      · rw [hodd]
        omega

theorem rounded_error (num : Nat) (hden : 0 < den) :
    |(rounded num den : ℚ) - num / den| ≤ twoPow (unitShift num den) / 2 := by
  have hpos : (0 : ℚ) < den := Nat.cast_pos.mpr hden
  obtain ⟨hlow, hhigh⟩ := divNearest_error num
    (Nat.mul_pos hden (twoPow_pos (unitShift num den)))
  unfold rounded
  generalize divNearest num (den * twoPow (unitShift num den)) = q at hlow hhigh ⊢
  generalize twoPow (unitShift num den) = u at hlow hhigh ⊢
  have hlow' : (2 * num : ℚ) ≤ 2 * (q * (den * u)) + den * u := by exact_mod_cast hlow
  have hhigh' : (2 * (q * (den * u)) : ℚ) ≤ 2 * num + den * u := by exact_mod_cast hhigh
  have hratio : (num / den * den : ℚ) = num := div_mul_cancel₀ _ hpos.ne'
  push_cast
  rw [abs_le]
  constructor
  · apply le_of_mul_le_mul_right _ hpos
    linarith
  · apply le_of_mul_le_mul_right _ hpos
    linarith

/-- A unit is at most the 2 ^ 52nd part of what is rounded, except in the lowest place. -/
theorem rounded_error_cases (num : Nat) (hden : 0 < den) :
    |(rounded num den : ℚ) - num / den| ≤ 1 / 2 ∨
      |(rounded num den : ℚ) - num / den| ≤ rounded num den / 2 ^ 53 := by
  have herror := rounded_error num hden
  rcases (significand_bounds num den).2 with hlowest | hsignificand
  · left
    rw [hlowest] at herror
    exact herror.trans_eq (by rw [cast_twoPow, pow_zero])
  · right
    have hunit : twoPow 52 * twoPow (unitShift num den) ≤ rounded num den :=
      Nat.mul_le_mul_right _ hsignificand
    have hunit' : (2 ^ 52 * twoPow (unitShift num den) : ℚ) ≤ rounded num den := by
      exact_mod_cast hunit
    apply herror.trans
    rw [div_le_div_iff₀ (by norm_num) (by norm_num)]
    linarith

end Error

section Integers

theorem magnitude_of_toInt? {x : Binary64} {n : Int} (h : x.toInt? = some n) :
    x.magnitude = n.natAbs * one ∧ (x.negative = false → 0 ≤ n) := by
  unfold toInt? at h
  split at h
  · next hwhole =>
    have hmod : x.magnitude % one = 0 := by
      rw [Bool.and_eq_true, beq_iff_eq] at hwhole
      exact hwhole.2
    have habs : n.natAbs = x.magnitude / one := by
      rw [← Option.some.inj h]
      split <;> simp only [Int.natAbs_neg, Int.natAbs_natCast]
    rw [habs, Nat.div_mul_cancel (Nat.dvd_of_mod_eq_zero hmod)]
    refine ⟨rfl, fun hnegative => ?_⟩
    rw [← Option.some.inj h, hnegative]
    exact Int.natCast_nonneg _
  · cases h

theorem toInt?_of_magnitude {x : Binary64} {n : Nat} (hfinite : x.isFinite = true)
    (hnegative : x.negative = false) (h : x.magnitude = n * one) : x.toInt? = some (n : Int) := by
  have hdiv : n * one / one = n := Nat.mul_div_cancel _ one_pos
  simp only [toInt?, hfinite, hnegative, h, Nat.mul_mod_left, beq_self_eq_true, Bool.and_self,
    if_true, hdiv, Bool.false_eq_true, if_false]

theorem roundMagnitude_mul (num den : Nat) {c : Nat} (hc : 0 < c) :
    roundMagnitude (num * c) (den * c) = roundMagnitude num den := by
  unfold roundMagnitude
  dsimp only
  rw [Nat.mul_div_mul_right _ _ hc, Nat.mul_right_comm den, divNearest_mul_mul hc]

theorem ofRatio?_mul (negative : Bool) {n c : Nat} (hc : 0 < c) :
    ofRatio? negative (n * c) c = ofRatio? negative n 1 := by
  have hword := roundMagnitude_mul (n * one) 1 hc
  rw [Nat.one_mul, Nat.mul_right_comm] at hword
  rw [ofRatio?_eq, ofRatio?_eq, hword]

theorem isShort_mul_one_iff (n : Nat) : IsShort (n * one) ↔ IsShort n := by
  constructor
  · intro h
    rcases Nat.lt_or_ge n (twoPow 53) with hlt | hge
    · exact ⟨n, 0, hlt, (Nat.mul_one n).symm⟩
    · have hne : n ≠ 0 := by
        have := twoPow_pos 53
        omega
      have hlog : 53 ≤ n.log2 := le_log2_of_twoPow_le hne hge
      rw [isShort_iff] at h ⊢
      rw [one, log2_mul_twoPow hne, show n.log2 + 1074 - 52 = n.log2 - 52 + 1074 by omega,
        twoPow_add] at h
      exact Nat.dvd_of_mul_dvd_mul_right (twoPow_pos 1074) h
  · rintro ⟨m, e, hm, rfl⟩
    exact ⟨m, e + 1074, hm, by rw [twoPow_add, ← one, Nat.mul_assoc]⟩

/-- The number nearest to a natural number is that number exactly if it is short. -/
theorem toInt?_eq_some_iff_isShort {n : Nat} {x : Binary64} (h : ofRatio? false n 1 = some x) :
    x.toInt? = some (n : Int) ↔ IsShort n := by
  obtain ⟨hfinite, hnegative, hmagnitude⟩ := of_ofRatio?_eq_some h
  rw [← isShort_mul_one_iff, ← rounded_eq_self_iff, ← hmagnitude]
  constructor
  · intro hn
    exact (magnitude_of_toInt? hn).1
  · exact toInt?_of_magnitude hfinite hnegative

end Integers

end Binary64

namespace Decimal

/-- The number without its sign is `numerator / denominator`. -/
def numerator (d : Decimal) : Nat := d.digits * tenPow d.exponent.toNat

def denominator (d : Decimal) : Nat := tenPow (-d.exponent).toNat

theorem denominator_pos (d : Decimal) : 0 < d.denominator := tenPow_pos _

theorem ofRatio?_tenPow_of_large (negative : Bool) {n e : Nat} (hn : 0 < n) (he : reach ≤ e) :
    Binary64.ofRatio? negative (n * tenPow e) 1 = none := by
  apply Binary64.ofRatio?_eq_none_of_large negative (by decide)
  calc twoPow 1024 * 1
    _ ≤ tenPow reach := by decide +kernel
    _ ≤ tenPow e := tenPow_le_tenPow he
    _ ≤ n * tenPow e := Nat.le_mul_of_pos_left _ hn

theorem ofRatio?_tenPow_of_small (negative : Bool) {n e : Nat}
    (he : reach + (decimalDigits n).length ≤ e) :
    Binary64.ofRatio? negative n (tenPow e) = some (Binary64.ofWord negative 0) := by
  apply Binary64.ofRatio?_of_small
  have hone : 2 * Binary64.one ≤ tenPow reach := by decide +kernel
  calc 2 * (n * Binary64.one)
    _ = 2 * Binary64.one * n := by ring
    _ < 2 * Binary64.one * tenPow (decimalDigits n).length :=
      Nat.mul_lt_mul_of_pos_left (lt_tenPow_length n) (Nat.mul_pos (by decide) Binary64.one_pos)
    _ ≤ tenPow reach * tenPow (decimalDigits n).length := Nat.mul_le_mul_right _ hone
    _ ≤ tenPow e := by
      rw [← tenPow_add]
      exact tenPow_le_tenPow he

/-- Bringing the exponent within reach changes no answer. -/
theorem toBinary64?_eq (d : Decimal) :
    d.toBinary64? = Binary64.ofRatio? d.negative d.numerator d.denominator := by
  obtain ⟨negative, n, exponent⟩ := d
  cases exponent with
  | ofNat e =>
    have hden : denominator ⟨negative, n, .ofNat e⟩ = 1 :=
      congrArg tenPow (Int.toNat_neg_natCast e)
    rw [hden]
    change Binary64.ofRatio? negative (n * tenPow (min e reach)) 1 =
      Binary64.ofRatio? negative (n * tenPow e) 1
    rcases Nat.le_total e reach with he | he
    · rw [Nat.min_eq_left he]
    · rw [Nat.min_eq_right he]
      rcases Nat.eq_zero_or_pos n with rfl | hn
      · rw [Nat.zero_mul, Nat.zero_mul]
      · rw [ofRatio?_tenPow_of_large negative hn le_rfl, ofRatio?_tenPow_of_large negative hn he]
  | negSucc e =>
    have hden : denominator ⟨negative, n, .negSucc e⟩ = tenPow (e + 1) := rfl
    have hnum : numerator ⟨negative, n, .negSucc e⟩ = n := Nat.mul_one n
    rw [hden, hnum]
    change Binary64.ofRatio? negative n
      (tenPow (min (e + 1) (reach + (decimalDigits n).length))) = _
    rcases Nat.le_total (e + 1) (reach + (decimalDigits n).length) with he | he
    · rw [Nat.min_eq_left he]
    · rw [Nat.min_eq_right he, ofRatio?_tenPow_of_small negative le_rfl,
        ofRatio?_tenPow_of_small negative he]

/-- The number that the numeral denotes, without its sign. -/
def magnitude (d : Decimal) : ℚ := d.digits * 10 ^ d.exponent

theorem magnitude_nonneg (d : Decimal) : 0 ≤ d.magnitude := by
  unfold magnitude
  positivity

theorem magnitude_eq (d : Decimal) : d.magnitude = d.numerator / d.denominator := by
  obtain ⟨negative, n, exponent⟩ := d
  cases exponent with
  | ofNat e =>
    simp [magnitude, numerator, denominator, tenPow]
  | negSucc e =>
    simp [magnitude, numerator, denominator, tenPow, zpow_negSucc, div_eq_mul_inv]

section Integers

variable {d : Decimal}

theorem toBinary64?_of_magnitude_eq {n : Nat} (h : d.magnitude = n) :
    d.toBinary64? = Binary64.ofRatio? d.negative n 1 := by
  have hpos : (0 : ℚ) < d.denominator := Nat.cast_pos.mpr d.denominator_pos
  have hnum : d.numerator = n * d.denominator := by
    rw [magnitude_eq, div_eq_iff hpos.ne'] at h
    exact_mod_cast h
  rw [toBinary64?_eq, hnum, Binary64.ofRatio?_mul _ d.denominator_pos]

/-- An integer that a numeral without sign is rounded to is off by at most its 2 ^ 53rd part. Only
zero is no such part of itself; what is rounded to zero is at most half of the least positive
number. -/
theorem toInt?_error {x : Binary64} {n : Int} (hsign : d.negative = false)
    (hx : d.toBinary64? = some x) (hn : x.toInt? = some n) :
    |d.magnitude - n| ≤ n / 2 ^ 53 ∨ n = 0 ∧ d.magnitude ≤ 1 / 2 ^ 1075 := by
  rw [toBinary64?_eq] at hx
  obtain ⟨-, hnegative, hmagnitude⟩ := Binary64.of_ofRatio?_eq_some hx
  obtain ⟨habs, hnonneg⟩ := Binary64.magnitude_of_toInt? hn
  obtain ⟨k, rfl⟩ := Int.eq_ofNat_of_zero_le (hnonneg (hnegative.trans hsign))
  rw [Int.natAbs_natCast, hmagnitude] at habs
  have hcases := Binary64.rounded_error_cases (d.numerator * Binary64.one) d.denominator_pos
  have hone : (0 : ℚ) < Binary64.one := Nat.cast_pos.mpr Binary64.one_pos
  -- both errors are counted in the least positive number
  have hscale : |((k * Binary64.one : ℕ) : ℚ) - (d.numerator * Binary64.one : ℕ) / d.denominator| =
      |d.magnitude - k| * Binary64.one := by
    have hterm : ((k * Binary64.one : ℕ) : ℚ) - (d.numerator * Binary64.one : ℕ) / d.denominator =
        (k - d.magnitude) * Binary64.one := by
      rw [magnitude_eq]
      push_cast
      ring
    rw [hterm, abs_mul, abs_of_pos hone, abs_sub_comm]
  rw [habs, hscale] at hcases
  rw [Int.cast_natCast]
  rcases hcases with hlowest | hpart
  · have hsmall : |d.magnitude - k| ≤ 1 / 2 ^ 1075 := by
      apply le_of_mul_le_mul_right _ hone
      apply hlowest.trans_eq
      rw [Binary64.one, cast_twoPow, pow_succ _ 1074]
      field_simp
    rcases Nat.eq_zero_or_pos k with rfl | hk
    · right
      rw [Nat.cast_zero, sub_zero] at hsmall
      exact ⟨rfl, (le_abs_self _).trans hsmall⟩
    · left
      calc |d.magnitude - k|
        _ ≤ 1 / 2 ^ 1075 := hsmall
        _ ≤ 1 / 2 ^ 53 := one_div_pow_le_one_div_pow_of_le (by norm_num) (by norm_num)
        _ ≤ k / 2 ^ 53 := by
          apply div_le_div_of_nonneg_right _ (by positivity)
          exact_mod_cast hk
  · left
    apply le_of_mul_le_mul_right _ hone
    apply hpart.trans_eq
    push_cast
    ring

/-- Up to 15 digits that are not scaled up, and not down to nothing, leave room for one integer
only: the one that they denote. -/
theorem magnitude_eq_of_toInt? {x : Binary64} {n : Int} (hsign : d.negative = false)
    (hdigits : d.digits < 10 ^ 15) (hlow : -323 ≤ d.exponent) (hhigh : d.exponent ≤ 0)
    (hx : d.toBinary64? = some x) (hn : x.toInt? = some n) : d.magnitude = n := by
  obtain ⟨k, hk⟩ := Int.eq_ofNat_of_zero_le (Int.neg_nonneg.mpr hhigh)
  have hpow : (0 : ℚ) < 10 ^ k := by positivity
  -- in units of the last digit the numeral and every integer are whole
  have hscaled : d.magnitude * 10 ^ k = d.digits := by
    rw [magnitude, ← neg_neg d.exponent, hk, zpow_neg, zpow_natCast,
      inv_mul_cancel_right₀ hpow.ne']
  have hsmall : (d.digits : ℚ) < 10 ^ 15 := by exact_mod_cast hdigits
  rcases toInt?_error hsign hx hn with herror | ⟨rfl, hzero⟩
  · have hwhole : |(d.digits : ℚ) - n * 10 ^ k| ≤ n * 10 ^ k / 2 ^ 53 := by
      calc |(d.digits : ℚ) - n * 10 ^ k|
        _ = |d.magnitude - n| * 10 ^ k := by
          rw [← hscaled, ← sub_mul, abs_mul, abs_of_pos hpow]
        _ ≤ n / 2 ^ 53 * 10 ^ k := mul_le_mul_of_nonneg_right herror hpow.le
        _ = n * 10 ^ k / 2 ^ 53 := div_mul_eq_mul_div _ _ _
    have hone : |(d.digits : ℚ) - n * 10 ^ k| < 1 := by
      have hnear := (abs_le.mp hwhole).1
      apply hwhole.trans_lt
      linarith
    have hdigits_eq : (d.digits : ℤ) = n * 10 ^ k := by
      have hint : |(d.digits : ℤ) - n * 10 ^ k| < 1 := by exact_mod_cast hone
      exact sub_eq_zero.mp (Int.abs_lt_one_iff.mp hint)
    apply mul_right_cancel₀ hpow.ne'
    rw [hscaled]
    exact_mod_cast hdigits_eq
  · have hleast : 10 ^ 323 < 2 ^ 1075 := by decide +kernel
    have hnone : (d.digits : ℚ) < 1 := by
      calc (d.digits : ℚ)
        _ = d.magnitude * 10 ^ k := hscaled.symm
        _ ≤ 1 / 2 ^ 1075 * 10 ^ 323 :=
          mul_le_mul hzero (pow_le_pow_right₀ (by norm_num) (by omega)) hpow.le (by positivity)
        _ < 1 := by
          rw [one_div_mul_eq_div, div_lt_one (by positivity)]
          exact_mod_cast hleast
    have hdigits_eq : d.digits = 0 := Nat.lt_one_iff.mp (by exact_mod_cast hnone)
    rw [magnitude, hdigits_eq]
    simp

end Integers

end Decimal

end EnumCover
