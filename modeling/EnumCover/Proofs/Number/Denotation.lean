import EnumCover.Proofs.Number.Nearest

namespace EnumCover

namespace Binary64

section Fields

variable (x : Binary64)

theorem fraction_lt : x.fraction < twoPow 52 := Nat.mod_lt _ (twoPow_pos 52)

theorem word_eq :
    x.word = (if x.negative then twoPow 63 else 0) + x.biasedExponent * twoPow 52 + x.fraction := by
  have hlt : x.word < 2 ^ 64 := x.bits.toNat_lt
  simp only [biasedExponent, fraction, twoPow_eq]
  cases hnegative : x.negative with
  | false =>
    have hsmall : ¬2 ^ 63 ≤ x.word := of_decide_eq_false hnegative
    rw [if_neg Bool.false_ne_true]
    omega
  | true =>
    have hlarge : 2 ^ 63 ≤ x.word := of_decide_eq_true hnegative
    rw [if_pos rfl]
    omega

variable {x} {y : Binary64}

theorem eq_of_fields (hnegative : x.negative = y.negative)
    (hexponent : x.biasedExponent = y.biasedExponent) (hfraction : x.fraction = y.fraction) :
    x = y := by
  have hword : x.word = y.word := by
    rw [x.word_eq, y.word_eq, hnegative, hexponent, hfraction]
  have hbits : x.bits = y.bits := UInt64.toNat_inj.mp hword
  cases x
  cases y
  exact congrArg mk hbits

end Fields

section Magnitudes

variable {x y : Binary64}

theorem twoPow_le_significand (h : 0 < x.shift) : twoPow 52 ≤ x.significand := by
  unfold shift at h
  rw [significand, if_neg (by omega)]
  exact Nat.le_add_right _ _

theorem magnitude_lt (x : Binary64) : x.magnitude < twoPow 52 * twoPow (x.shift + 1) := by
  calc x.magnitude
    _ < twoPow 53 * twoPow x.shift := Nat.mul_lt_mul_of_pos_right x.significand_lt (twoPow_pos _)
    _ = twoPow 52 * twoPow (x.shift + 1) := by
      rw [← twoPow_add, ← twoPow_add]
      congr 1
      omega

theorem magnitude_lt_of_shift_lt (h : x.shift < y.shift) : x.magnitude < y.magnitude := by
  calc x.magnitude
    _ < twoPow 52 * twoPow (x.shift + 1) := x.magnitude_lt
    _ ≤ twoPow 52 * twoPow y.shift := Nat.mul_le_mul_left _ (twoPow_le_twoPow h)
    _ ≤ y.magnitude := Nat.mul_le_mul_right _ (twoPow_le_significand (by omega))

theorem fields_eq_of_magnitude_eq (h : x.magnitude = y.magnitude) :
    x.biasedExponent = y.biasedExponent ∧ x.fraction = y.fraction := by
  have hshift : x.shift = y.shift := by
    rcases Nat.lt_trichotomy x.shift y.shift with hlt | heq | hgt
    · exact absurd h (magnitude_lt_of_shift_lt hlt).ne
    · exact heq
    · exact absurd h (magnitude_lt_of_shift_lt hgt).ne'
  have hsignificand : x.significand = y.significand := by
    rw [magnitude, magnitude, hshift] at h
    exact Nat.eq_of_mul_eq_mul_right (twoPow_pos _) h
  have hx := x.fraction_lt
  have hy := y.fraction_lt
  -- the exponents 0 and 1 have the same place, but only the latter has a leading one
  unfold shift at hshift
  unfold significand at hsignificand
  split at hsignificand <;> split at hsignificand <;> omega

/-- Every magnitude is a multiple of a given unit, or too small to fill 53 bits of it. -/
theorem twoPow_dvd_magnitude_or_lt (y : Binary64) (k : Nat) :
    twoPow k ∣ y.magnitude ∨ 0 < k ∧ y.magnitude < twoPow 52 * twoPow k := by
  rcases Nat.lt_or_ge y.shift k with hlt | hge
  · right
    refine ⟨by omega, ?_⟩
    apply Nat.lt_of_lt_of_le y.magnitude_lt
    exact Nat.mul_le_mul_left _ (twoPow_le_twoPow hlt)
  · left
    exact Nat.dvd_mul_left_of_dvd (Nat.pow_dvd_pow 2 hge) _

end Magnitudes

section Denotation

/-- The number that sign, exponent and fraction denote. Without an exponent the significand has no
leading one. -/
def toRat (x : Binary64) : ℚ :=
  (if x.negative then -1 else 1) *
    if x.biasedExponent = 0 then (x.fraction : ℚ) / 2 ^ 52 * 2 ^ (-1022 : ℤ)
    else (1 + (x.fraction : ℚ) / 2 ^ 52) * 2 ^ ((x.biasedExponent : ℤ) - 1023)

/-- The number counted in `2 ^ -1074`. -/
def units (x : Binary64) : Int := if x.negative then -x.magnitude else x.magnitude

theorem natAbs_units (x : Binary64) : x.units.natAbs = x.magnitude := by
  unfold units
  split <;> omega

theorem one_cast_ne_zero : (one : ℚ) ≠ 0 := Nat.cast_ne_zero.mpr one_pos.ne'

theorem toRat_eq (x : Binary64) : x.toRat = x.units / one := by
  have hmagnitude : (x.magnitude : ℚ) / one =
      if x.biasedExponent = 0 then (x.fraction : ℚ) / 2 ^ 52 * 2 ^ (-1022 : ℤ)
      else (1 + (x.fraction : ℚ) / 2 ^ 52) * 2 ^ ((x.biasedExponent : ℤ) - 1023) := by
    have hone : (one : ℚ) = 2 ^ 52 * 2 ^ 1022 := by rw [one, cast_twoPow, ← pow_add]
    rw [magnitude, significand, shift, hone, Nat.cast_mul, cast_twoPow]
    split
    · next hzero =>
      rw [hzero, zpow_neg, zpow_ofNat, Nat.zero_sub, pow_zero]
      field_simp
    · next hexponent =>
      obtain ⟨k, hk⟩ := Nat.exists_eq_succ_of_ne_zero hexponent
      have hplace : ((x.biasedExponent : ℤ) - 1023) = (k : ℤ) - (1022 : ℕ) := by omega
      rw [hplace, hk, Nat.succ_sub_one, zpow_sub₀ (by norm_num), zpow_natCast, zpow_natCast,
        Nat.cast_add, cast_twoPow]
      field_simp
  rw [toRat, ← hmagnitude, units]
  split
  · push_cast
    ring
  · push_cast
    ring

variable {x y : Binary64}

theorem toRat_eq_intCast_iff (n : Int) : x.toRat = n ↔ x.units = n * one := by
  rw [toRat_eq, div_eq_iff one_cast_ne_zero]
  norm_cast

/-- A finite number is taken for an integer exactly if it denotes that integer. -/
theorem toInt?_eq_some_iff (h : x.isFinite = true) (n : Int) :
    x.toInt? = some n ↔ x.toRat = n := by
  rw [toRat_eq_intCast_iff]
  constructor
  · intro hn
    rw [toInt?, h, Bool.true_and] at hn
    split at hn
    · next hmod =>
      have hwhole : ((x.magnitude / one : ℕ) : ℤ) * one = x.magnitude := by
        exact_mod_cast Nat.div_mul_cancel (Nat.dvd_of_mod_eq_zero (eq_of_beq hmod))
      rw [← Option.some.inj hn, units]
      split
      · rw [Int.neg_mul, hwhole]
      · rw [hwhole]
    · cases hn
  · intro hn
    have hmagnitude : x.magnitude = n.natAbs * one := by
      rw [← natAbs_units, hn, Int.natAbs_mul, Int.natAbs_natCast]
    have hdiv : n.natAbs * one / one = n.natAbs := Nat.mul_div_cancel _ one_pos
    have hsigned : (if x.negative then -(n.natAbs : ℤ) else n.natAbs) = n := by
      apply Int.eq_of_mul_eq_mul_right (Nat.cast_ne_zero.mpr one_pos.ne')
      rw [← hn, units, hmagnitude]
      split
      · rw [Nat.cast_mul, Int.neg_mul]
      · rw [Nat.cast_mul]
    rw [toInt?, h, hmagnitude, Nat.mul_mod_left, hdiv]
    exact congrArg some hsigned

/-- Two numbers denote the same one only if they are the same word or both zero. -/
theorem toRat_eq_toRat_iff :
    x.toRat = y.toRat ↔ x = y ∨ x.magnitude = 0 ∧ y.magnitude = 0 := by
  have hunits : x.toRat = y.toRat ↔ x.units = y.units := by
    rw [toRat_eq, toRat_eq, div_left_inj' one_cast_ne_zero, Int.cast_inj]
  rw [hunits]
  constructor
  · intro h
    have hmagnitude : x.magnitude = y.magnitude := by
      rw [← natAbs_units, ← natAbs_units, h]
    by_cases hnegative : x.negative = y.negative
    · obtain ⟨hexponent, hfraction⟩ := fields_eq_of_magnitude_eq hmagnitude
      exact .inl (eq_of_fields hnegative hexponent hfraction)
    · right
      rw [units, units, Bool.eq_not_of_ne hnegative] at h
      cases hy : y.negative <;> simp only [hy, Bool.not_true, Bool.not_false, if_true, if_false,
        Bool.false_eq_true] at h <;> omega
  · rintro (rfl | ⟨hx, hy⟩)
    · rfl
    · unfold units
      rw [hx, hy]
      split <;> split <;> rfl

end Denotation

section Distance

/-- The finite number is one of those nearest to a rational number. -/
def IsNearest (x : Binary64) (q : ℚ) : Prop :=
  x.isFinite = true ∧ ∀ y : Binary64, y.isFinite = true → |x.toRat - q| ≤ |y.toRat - q|

variable {num den : Nat}

/-- No multiple of the divisor is nearer than the rounded quotient. -/
theorem divNearest_nearest (num : Nat) (hden : 0 < den) (k : Nat) :
    ((divNearest num den * den : ℕ) - num : ℤ).natAbs ≤ ((k * den : ℕ) - num : ℤ).natAbs := by
  obtain ⟨hlow, hhigh⟩ := divNearest_error num hden
  have hside : k * den = divNearest num den * den ∨ k * den + den ≤ divNearest num den * den ∨
      divNearest num den * den + den ≤ k * den := by
    rcases Nat.lt_trichotomy k (divNearest num den) with hlt | heq | hgt
    · right
      left
      rw [← Nat.succ_mul]
      exact Nat.mul_le_mul_right den hlt
    · left
      rw [heq]
    · right
      right
      rw [← Nat.succ_mul]
      exact Nat.mul_le_mul_right den hgt
  omega

theorem rounded_nearest (num : Nat) (hden : 0 < den) (y : Binary64) :
    ((rounded num den * den : ℕ) - num : ℤ).natAbs ≤
      ((y.magnitude * den : ℕ) - num : ℤ).natAbs := by
  have hunit : 0 < den * twoPow (unitShift num den) := Nat.mul_pos hden (twoPow_pos _)
  have hrounded : rounded num den * den =
      divNearest num (den * twoPow (unitShift num den)) * (den * twoPow (unitShift num den)) := by
    rw [rounded, Nat.mul_assoc, Nat.mul_comm den]
  rw [hrounded]
  rcases twoPow_dvd_magnitude_or_lt y (unitShift num den) with ⟨k, hk⟩ | ⟨hpos, hlt⟩
  · have hmultiple : y.magnitude * den = k * (den * twoPow (unitShift num den)) := by
      rw [hk]
      ring
    rw [hmultiple]
    exact divNearest_nearest num hunit k
  · -- the least multiple with 53 bits lies between the magnitude and what is rounded
    have hbetween := divNearest_nearest num hunit (twoPow 52)
    have hbelow : y.magnitude * den < twoPow 52 * (den * twoPow (unitShift num den)) := by
      calc y.magnitude * den
        _ < twoPow 52 * twoPow (unitShift num den) * den := Nat.mul_lt_mul_of_pos_right hlt hden
        _ = twoPow 52 * (den * twoPow (unitShift num den)) := by ring
    have hle : twoPow 52 * (den * twoPow (unitShift num den)) ≤ num := by
      have hquotient := twoPow_le_quotient hpos
      rw [Nat.le_div_iff_mul_le hden, twoPow_add] at hquotient
      calc twoPow 52 * (den * twoPow (unitShift num den))
        _ = twoPow 52 * twoPow (unitShift num den) * den := by ring
        _ ≤ num := hquotient
    omega

/-- Distances to a ratio, compared in whole units. -/
theorem distance_eq (x : Binary64) (hden : 0 < den) :
    |x.toRat - num / den| = ((x.units * den - (num * one : ℕ) : ℤ).natAbs : ℚ) / (one * den) := by
  have hpos : (0 : ℚ) < one * den := by
    exact_mod_cast Nat.mul_pos one_pos hden
  have hterm : x.toRat - num / den = (x.units * den - (num * one : ℕ) : ℤ) / (one * den) := by
    have hne : (den : ℚ) ≠ 0 := Nat.cast_ne_zero.mpr hden.ne'
    rw [toRat_eq, div_sub_div _ _ one_cast_ne_zero hne, mul_comm (one : ℚ)]
    push_cast
    rfl
  rw [hterm, abs_div, abs_of_pos hpos, Nat.cast_natAbs, Int.cast_abs]

/-- Rounding a ratio gives a number nearest to it. -/
theorem isNearest_of_ofRatio? {x : Binary64} (hden : 0 < den)
    (h : ofRatio? false num den = some x) : x.IsNearest (num / den) := by
  obtain ⟨hfinite, hnegative, hmagnitude⟩ := of_ofRatio?_eq_some h
  refine ⟨hfinite, fun y _ => ?_⟩
  have hx : x.units * den = (rounded (num * one) den * den : ℕ) := by
    rw [units, hnegative, hmagnitude, if_neg Bool.false_ne_true, Nat.cast_mul]
  have hy : y.units * den = (y.magnitude * den : ℕ) ∨ y.units * den = -(y.magnitude * den : ℕ) := by
    rw [units, Nat.cast_mul]
    split
    · right
      rw [Int.neg_mul]
    · left
      rfl
  have hnearest := rounded_nearest (num * one) hden y
  rw [distance_eq x hden, distance_eq y hden, hx]
  apply div_le_div_of_nonneg_right _ (mul_nonneg (Nat.cast_nonneg _) (Nat.cast_nonneg _))
  apply Nat.cast_le.mpr
  omega

end Distance

end Binary64

end EnumCover
