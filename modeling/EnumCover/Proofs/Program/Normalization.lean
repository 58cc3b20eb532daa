import EnumCover.Proofs.Number.Denotation
import EnumCover.Proofs.Program.Floats
import EnumCover.Proofs.Program.Recoding

namespace EnumCover

/-- Conversion to a signed integer of 128 bits: the fraction is dropped, and a number out of range
becomes the end of the range that is next to it. -/
def Binary64.toInt128 (x : Binary64) : Int :=
  max (-(2 ^ 127)) (min (2 ^ 127 - 1) (x.toRat.num.tdiv x.toRat.den))

namespace Value

theorem exists_isNearest_integerBound :
    ∃ b : Binary64, b.IsNearest (10 ^ 38) ∧ b.toRat = integerBound := by
  have hround : Binary64.ofRatio? false (10 ^ 38) 1 = some ⟨0x47D2CED32A16A1B1⟩ := by
    decide +kernel
  have hint : Binary64.toInt? ⟨0x47D2CED32A16A1B1⟩ = some (integerBound : Int) := by
    decide +kernel
  have hnearest := Binary64.isNearest_of_ofRatio? Nat.one_pos hround
  have hratio : ((10 ^ 38 : ℕ) : ℚ) / (1 : ℕ) = 10 ^ 38 := by norm_num
  rw [hratio] at hnearest
  exact ⟨_, hnearest, (Binary64.toInt?_eq_some_iff hnearest.1 _).mp hint⟩

theorem range_of_natAbs_lt {n : Int} (h : n.natAbs < integerBound) :
    -(2 ^ 127) ≤ n ∧ n < 2 ^ 127 := by
  unfold integerBound at h
  omega

section Finite

variable {x y : Binary64}

theorem ofFloat_eq_int_iff_toRat (h : x.isFinite = true) (n : Int) :
    ofFloat x = int n ↔ x.toRat = n ∧ |x.toRat| < integerBound := by
  rw [ofFloat_eq_int, Binary64.toInt?_eq_some_iff h]
  apply and_congr_right
  intro hn
  rw [hn, ← Int.cast_abs, Int.abs_eq_natAbs, Int.cast_natCast, Nat.cast_lt]

theorem ofFloat_eq_float (h : x.isFinite = true)
    (hno : ¬∃ n : Int, x.toRat = n ∧ |x.toRat| < integerBound) : ofFloat x = float x := by
  rcases ofFloat_cases x with ⟨n, hn⟩ | hkept
  · exact absurd ⟨n, (ofFloat_eq_int_iff_toRat h n).mp hn⟩ hno
  · exact hkept

/-- The integer is what conversion gives: there is no fraction to drop, and it is in range. -/
theorem toInt128_of_ofFloat (h : x.isFinite = true) {n : Int} (hn : ofFloat x = int n) :
    x.toInt128 = n := by
  have hrange := range_of_natAbs_lt ((ofFloat_eq_int x n).mp hn).2
  rw [Binary64.toInt128, ((ofFloat_eq_int_iff_toRat h n).mp hn).1, Rat.num_intCast,
    Rat.den_intCast, Nat.cast_one, Int.tdiv_one]
  omega

theorem ofFloat_of_magnitude_eq_zero (h : x.isFinite = true) (hzero : x.magnitude = 0) :
    ofFloat x = int 0 := by
  have hunits : x.units = 0 := Int.natAbs_eq_zero.mp (x.natAbs_units.trans hzero)
  have hrat : x.toRat = 0 := by rw [Binary64.toRat_eq, hunits, Int.cast_zero, zero_div]
  rw [ofFloat_eq_int_iff_toRat h, hrat, Int.cast_zero, abs_zero]
  exact ⟨rfl, by norm_num [integerBound]⟩

/-- Equal constants denote equal numbers, and the other way around. -/
theorem ofFloat_eq_ofFloat_iff (hx : x.isFinite = true) (hy : y.isFinite = true) :
    ofFloat x = ofFloat y ↔ x.toRat = y.toRat := by
  constructor
  · intro h
    rcases ofFloat_cases x with ⟨n, hn⟩ | hkept
    · have hxn := ((ofFloat_eq_int_iff_toRat hx n).mp hn).1
      have hyn := ((ofFloat_eq_int_iff_toRat hy n).mp (h.symm.trans hn)).1
      rw [hxn, hyn]
    · rw [hkept] at h
      rcases ofFloat_cases y with ⟨m, hm⟩ | hm
      · rw [hm] at h
        cases h
      · rw [hm] at h
        rw [float.inj h]
  · intro h
    rcases Binary64.toRat_eq_toRat_iff.mp h with rfl | ⟨hzero, hzero'⟩
    · rfl
    · rw [ofFloat_of_magnitude_eq_zero hx hzero, ofFloat_of_magnitude_eq_zero hy hzero']

end Finite

end Value

/-- The constant of a finite number is the integer that it denotes, where it denotes one below the
floating-point number nearest to ten to the power 38, and the word itself otherwise. The integer is
the one that conversion to 128 bits gives. Two numbers are the same constant exactly if they denote
the same number. -/
theorem float_constants_denote (x y : Binary64) (hx : x.isFinite = true)
    (hy : y.isFinite = true) :
    (∃ b : Binary64, b.IsNearest (10 ^ 38) ∧ b.toRat = Value.integerBound) ∧
    (∀ n : Int, Value.ofFloat x = .int n ↔ x.toRat = n ∧ |x.toRat| < Value.integerBound) ∧
    (∀ n : Int, Value.ofFloat x = .int n → x.toInt128 = n) ∧
    ((¬∃ n : Int, x.toRat = n ∧ |x.toRat| < Value.integerBound) → Value.ofFloat x = .float x) ∧
    (Value.ofFloat x = Value.ofFloat y ↔ x.toRat = y.toRat) := by
  refine ⟨Value.exists_isNearest_integerBound, Value.ofFloat_eq_int_iff_toRat hx, ?_, ?_, ?_⟩
  · intro n hn
    exact Value.toInt128_of_ofFloat hx hn
  · exact Value.ofFloat_eq_float hx
  · exact Value.ofFloat_eq_ofFloat_iff hx hy

/-- The two zeros are one constant, and the least positive number is another. -/
theorem float_constants_denote_zeros :
    let zero : Binary64 := ⟨0⟩
    let minusZero : Binary64 := ⟨0x8000000000000000⟩
    let least : Binary64 := ⟨1⟩
    (zero.isFinite = true ∧ minusZero.isFinite = true ∧ least.isFinite = true) ∧
      Value.ofFloat minusZero = Value.ofFloat zero ∧ Value.ofFloat zero ≠ Value.ofFloat least := by
  intro zero minusZero least
  have hzero : zero.isFinite = true := by decide
  have hminus : minusZero.isFinite = true := by decide
  have hleast : least.isFinite = true := by decide
  have hrat : minusZero.toRat = zero.toRat := by
    rw [Binary64.toRat_eq_toRat_iff]
    exact .inr ⟨by decide, by decide⟩
  have hdiffer : zero.toRat ≠ least.toRat := by
    rw [ne_eq, Binary64.toRat_eq_toRat_iff]
    exact not_or.mpr ⟨by decide, fun h => absurd h.2 (by decide)⟩
  refine ⟨⟨hzero, hminus, hleast⟩, ?_, ?_⟩
  · exact (float_constants_denote minusZero zero hminus hzero).2.2.2.2.mpr hrat
  · intro h
    exact hdiffer ((float_constants_denote zero least hzero hleast).2.2.2.2.mp h)

end EnumCover
