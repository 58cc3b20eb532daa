import Mathlib.Algebra.Group.Nat.Defs
import EnumCover.Number.Decimal

namespace EnumCover

theorem twoPow_eq (n : Nat) : twoPow n = 2 ^ n := rfl

theorem twoPow_add (a b : Nat) : twoPow (a + b) = twoPow a * twoPow b := Nat.pow_add 2 a b

theorem twoPow_le_twoPow {a b : Nat} (h : a ≤ b) : twoPow a ≤ twoPow b :=
  Nat.pow_le_pow_right (by decide) h

theorem twoPow_log2_le {n : Nat} (hn : n ≠ 0) : twoPow n.log2 ≤ n := Nat.log2_self_le hn

theorem lt_twoPow_log2 (n : Nat) : n < twoPow (n.log2 + 1) := Nat.lt_log2_self

theorem log2_lt_of_lt_twoPow {n k : Nat} (hn : n ≠ 0) (h : n < twoPow k) : n.log2 < k :=
  (Nat.log2_lt hn).mpr h

theorem log2_mul_twoPow {n : Nat} (hn : n ≠ 0) (k : Nat) : (n * twoPow k).log2 = n.log2 + k := by
  have hpos := twoPow_pos k
  rw [Nat.log2_eq_iff (Nat.mul_ne_zero hn (by omega)), Nat.add_right_comm]
  change twoPow _ ≤ _ ∧ _ < twoPow _
  rw [twoPow_add, twoPow_add _ k]
  exact ⟨Nat.mul_le_mul_right _ (twoPow_log2_le hn),
    Nat.mul_lt_mul_of_pos_right (lt_twoPow_log2 n) hpos⟩

namespace Binary64

section Division

variable {num den : Nat}

theorem divNearest_cases (num den : Nat) :
    divNearest num den = num / den ∨ divNearest num den = num / den + 1 := by
  unfold divNearest
  dsimp only
  split
  · exact .inl rfl
  · split
    · exact .inr rfl
    · omega

/-- Rounding changes nothing exactly if the quotient is whole. -/
theorem divNearest_mul_eq_iff (hden : 0 < den) : divNearest num den * den = num ↔ den ∣ num := by
  constructor
  · intro h
    exact ⟨divNearest num den, by rw [Nat.mul_comm, h]⟩
  · intro h
    have hmod := Nat.mod_eq_zero_of_dvd h
    have hq : divNearest num den = num / den := by
      unfold divNearest
      rw [hmod]
      exact if_pos (by omega)
    rw [hq, Nat.div_mul_cancel h]

theorem divNearest_mul_mul {c : Nat} (hc : 0 < c) :
    divNearest (num * c) (den * c) = divNearest num den := by
  unfold divNearest
  dsimp only
  rw [Nat.mul_div_mul_right _ _ hc, Nat.mul_mod_mul_right, ← Nat.mul_assoc 2]
  simp only [Nat.mul_lt_mul_right hc]

end Division

section Words

variable {w : Nat}

/-- The number with the given sign and the given word below the sign. -/
def ofWord (negative : Bool) (w : Nat) : Binary64 :=
  ⟨UInt64.ofNat (w + if negative then twoPow 63 else 0)⟩

theorem word_ofWord (negative : Bool) (h : w < infinityWord) :
    (ofWord negative w).word = w + if negative then twoPow 63 else 0 := by
  rw [word, ofWord, UInt64.toNat_ofNat']
  apply Nat.mod_eq_of_lt
  simp only [infinityWord, twoPow_eq] at h ⊢
  split <;> omega

theorem negative_ofWord (negative : Bool) (h : w < infinityWord) :
    (ofWord negative w).negative = negative := by
  rw [Binary64.negative, word_ofWord negative h]
  cases negative with
  | false =>
    rw [decide_eq_false_iff_not, if_neg Bool.false_ne_true]
    simp only [infinityWord, twoPow_eq] at h ⊢
    omega
  | true =>
    rw [decide_eq_true_iff, if_pos rfl]
    exact Nat.le_add_left _ _

theorem biasedExponent_ofWord (negative : Bool) (h : w < infinityWord) :
    (ofWord negative w).biasedExponent = w / twoPow 52 := by
  rw [biasedExponent, word_ofWord negative h]
  simp only [infinityWord, twoPow_eq] at h ⊢
  split <;> omega

theorem fraction_ofWord (negative : Bool) (h : w < infinityWord) :
    (ofWord negative w).fraction = w % twoPow 52 := by
  rw [fraction, word_ofWord negative h]
  simp only [twoPow_eq]
  split <;> omega

theorem isFinite_ofWord (negative : Bool) (h : w < infinityWord) :
    (ofWord negative w).isFinite = true := by
  have hlt : w / twoPow 52 < 2047 := Nat.div_lt_of_lt_mul (by rwa [Nat.mul_comm])
  rw [isFinite, biasedExponent_ofWord negative h, bne_iff_ne]
  omega

/-- A significand of 53 bits, or of fewer bits in the lowest place, and its exponent read back from
the word. A significand that was rounded up to 54 bits reads back as half of it in the next
place. -/
theorem magnitude_ofWord {s q : Nat} (negative : Bool) (hq : q ≤ twoPow 53)
    (hs : s = 0 ∨ twoPow 52 ≤ q) (h : s * twoPow 52 + q < infinityWord) :
    (ofWord negative (s * twoPow 52 + q)).magnitude = q * twoPow s := by
  have hpos := twoPow_pos 52
  rw [magnitude, significand, shift, biasedExponent_ofWord negative h, fraction_ofWord negative h,
    Nat.mul_add_mod_self_right, Nat.add_comm, Nat.add_mul_div_right _ _ hpos]
  rw [twoPow_succ] at hq
  rcases Nat.lt_or_ge q (twoPow 52) with hsmall | hnormal
  · obtain rfl : s = 0 := hs.resolve_right (by omega)
    rw [Nat.div_eq_of_lt hsmall, Nat.mod_eq_of_lt hsmall]
    rfl
  · rcases Nat.lt_or_ge q (2 * twoPow 52) with hlt | hge
    · have hdiv : q / twoPow 52 = 1 := Nat.div_eq_of_lt_le (by omega) (by omega)
      have hmod : twoPow 52 + q % twoPow 52 = q := by
        have hdm := Nat.div_add_mod q (twoPow 52)
        rwa [hdiv, Nat.mul_one] at hdm
      rw [hdiv, if_neg (by omega), hmod, Nat.add_sub_cancel_left]
    · obtain rfl : q = 2 * twoPow 52 := by omega
      rw [Nat.mul_div_cancel _ hpos, if_neg (by omega), Nat.mul_mod_left, Nat.add_zero,
        show 2 + s - 1 = s + 1 by omega, twoPow_succ s, Nat.mul_left_comm, Nat.mul_assoc]

end Words

theorem one_pos : 0 < one := twoPow_pos 1074

/-- The power of two that is the unit of the significand. -/
def unitShift (num den : Nat) : Nat := (num / den).log2 - 52

/-- The multiple of the unit nearest to a ratio. -/
def rounded (num den : Nat) : Nat :=
  divNearest num (den * twoPow (unitShift num den)) * twoPow (unitShift num den)

theorem twoPow_le_quotient {num den : Nat} (h : 0 < unitShift num den) :
    twoPow (52 + unitShift num den) ≤ num / den := by
  have hlog : (num / den).log2 = 52 + unitShift num den := by
    unfold unitShift at h ⊢
    omega
  have hne : num / den ≠ 0 := by
    intro hzero
    rw [hzero, Nat.log2_zero] at hlog
    omega
  rw [← hlog]
  exact twoPow_log2_le hne

/-- The rounded significand has 53 bits, but it may be one more than that allows, and fewer bits in
the lowest place. -/
theorem significand_bounds (num den : Nat) :
    divNearest num (den * twoPow (unitShift num den)) ≤ twoPow 53 ∧
      (unitShift num den = 0 ∨ twoPow 52 ≤ divNearest num (den * twoPow (unitShift num den))) := by
  have hcases := divNearest_cases num (den * twoPow (unitShift num den))
  have hpos := twoPow_pos (unitShift num den)
  rw [← Nat.div_div_eq_div_mul] at hcases
  have hupper : num / den / twoPow (unitShift num den) < twoPow 53 := by
    rw [Nat.div_lt_iff_lt_mul hpos, ← twoPow_add]
    apply Nat.lt_of_lt_of_le (lt_twoPow_log2 _)
    apply twoPow_le_twoPow
    unfold unitShift
    omega
  refine ⟨by omega, ?_⟩
  rcases Nat.eq_zero_or_pos (unitShift num den) with hzero | hshift
  · exact .inl hzero
  · have hlower : twoPow 52 ≤ num / den / twoPow (unitShift num den) := by
      rw [Nat.le_div_iff_mul_le hpos, ← twoPow_add]
      exact twoPow_le_quotient hshift
    omega

theorem ofRatio?_eq (negative : Bool) (num den : Nat) : ofRatio? negative num den =
    if roundMagnitude (num * one) den < infinityWord then
      some (ofWord negative (roundMagnitude (num * one) den)) else none := rfl

theorem of_ofRatio?_eq_some {negative : Bool} {num den : Nat} {x : Binary64}
    (h : ofRatio? negative num den = some x) : x.isFinite = true ∧ x.negative = negative ∧
      x.magnitude = rounded (num * one) den := by
  rw [ofRatio?_eq] at h
  split at h
  · next hlt =>
    obtain rfl := Option.some.inj h
    obtain ⟨hq, hs⟩ := significand_bounds (num * one) den
    exact ⟨isFinite_ofWord negative hlt, negative_ofWord negative hlt,
      magnitude_ofWord negative hq hs hlt⟩
  · cases h

section Naturals

variable {n : Nat}

/-- The number has at most 53 significant bits. -/
def IsShort (n : Nat) : Prop := ∃ m e, m < twoPow 53 ∧ n = m * twoPow e

theorem isShort_iff (n : Nat) : IsShort n ↔ twoPow (n.log2 - 52) ∣ n := by
  constructor
  · rintro ⟨m, e, hm, rfl⟩
    rcases Nat.eq_zero_or_pos m with rfl | hpos
    · rw [Nat.zero_mul]
      exact Nat.dvd_zero _
    · have hlog : m.log2 < 53 := log2_lt_of_lt_twoPow (by omega) hm
      rw [log2_mul_twoPow (by omega)]
      exact Nat.dvd_trans (Nat.pow_dvd_pow 2 (by omega)) (Nat.dvd_mul_left _ _)
  · rintro ⟨m, hm⟩
    refine ⟨m, n.log2 - 52, ?_, by rw [Nat.mul_comm, ← hm]⟩
    apply Nat.lt_of_mul_lt_mul_left (a := twoPow (n.log2 - 52))
    rw [← hm, ← twoPow_add]
    apply Nat.lt_of_lt_of_le (lt_twoPow_log2 n)
    apply twoPow_le_twoPow
    omega

/-- A natural number is rounded to itself exactly if it is short. -/
theorem rounded_eq_self_iff (n : Nat) : rounded n 1 = n ↔ IsShort n := by
  rw [isShort_iff, rounded, unitShift, Nat.div_one, Nat.one_mul]
  exact divNearest_mul_eq_iff (twoPow_pos _)

/-- Whether a natural number is counted in ones or in `2 ^ -1074` does not matter from 53 bits on:
its unit is no fraction. -/
theorem rounded_mul_one (h : twoPow 52 ≤ n) : rounded (n * one) 1 = rounded n 1 * one := by
  have hne : n ≠ 0 := by
    have hpos := twoPow_pos 52
    omega
  have hlog : 52 ≤ n.log2 := (Nat.le_log2 hne).mpr h
  have hshift : unitShift (n * one) 1 = unitShift n 1 + 1074 := by
    rw [unitShift, unitShift, Nat.div_one, Nat.div_one, one, log2_mul_twoPow hne]
    omega
  rw [rounded, rounded, hshift, twoPow_add, ← one, ← Nat.mul_assoc 1,
    divNearest_mul_mul one_pos, Nat.mul_assoc]

theorem toInt?_of_ofRatio?_eq_some {negative : Bool} {x : Binary64} (h : twoPow 52 ≤ n)
    (hx : ofRatio? negative n 1 = some x) :
    x.toInt? = some (if negative then -(rounded n 1 : Int) else rounded n 1) := by
  obtain ⟨hfinite, hnegative, hmagnitude⟩ := of_ofRatio?_eq_some hx
  rw [rounded_mul_one h] at hmagnitude
  have hdiv : rounded n 1 * one / one = rounded n 1 := Nat.mul_div_cancel _ one_pos
  simp only [toInt?, hfinite, hnegative, hmagnitude, Nat.mul_mod_left, beq_self_eq_true,
    Bool.and_self, if_true, hdiv]

theorem exists_ofRatio?_eq_some (negative : Bool) (h : n < twoPow 1023) :
    ∃ x, ofRatio? negative n 1 = some x := by
  have hlt : roundMagnitude (n * one) 1 < infinityWord := by
    have hshift : unitShift (n * one) 1 ≤ 2044 := by
      rcases Nat.eq_zero_or_pos n with rfl | hpos
      · rw [Nat.zero_mul]
        exact Nat.zero_le _
      · have hlog : n.log2 < 1023 := log2_lt_of_lt_twoPow (by omega) h
        rw [unitShift, Nat.div_one, one, log2_mul_twoPow (by omega)]
        omega
    have hle : unitShift (n * one) 1 * twoPow 52 ≤ 2044 * twoPow 52 := Nat.mul_le_mul_right _ hshift
    have hq := (significand_bounds (n * one) 1).1
    have hpos := twoPow_pos 52
    rw [twoPow_succ] at hq
    change unitShift (n * one) 1 * twoPow 52 +
      divNearest (n * one) (1 * twoPow (unitShift (n * one) 1)) < 2047 * twoPow 52
    omega
  exact ⟨_, by rw [ofRatio?_eq, if_pos hlt]⟩

end Naturals

end Binary64

end EnumCover
