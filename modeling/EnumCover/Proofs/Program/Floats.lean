import EnumCover.Proofs.Number.Nearest
import EnumCover.Proofs.Program.Integers

namespace EnumCover

namespace Literal

open Json (ExponentSpelling NumeralSpelling)

/-- A decimal floating-point literal as it is written, but for separators: digits with an optional
point among them, and an optional exponent. -/
structure FloatSpelling where
  whole : List Char
  part : Option (List Char)
  exponent : Option ExponentSpelling
  isDigit : (whole ++ part.getD []).all isDecimalDigit = true
  nonempty : whole ++ part.getD [] ≠ []

namespace FloatSpelling

def partChars : Option (List Char) → List Char
  | some ds => '.' :: ds
  | none => []

def chars (s : FloatSpelling) : List Char :=
  s.whole ++ (partChars s.part ++ NumeralSpelling.exponentChars s.exponent)

/-- The text is the literal with separators in any place. -/
def IsSpelledBy (s : FloatSpelling) (raw : String) : Prop := raw.toList.filter (· != '_') = s.chars

def exponentValue (s : FloatSpelling) : Int := (s.exponent.map ExponentSpelling.value).getD 0

/-- The number that the literal denotes. -/
def value (s : FloatSpelling) : ℚ :=
  (decimalValue s.whole + decimalValue (s.part.getD []) / 10 ^ (s.part.getD []).length) *
    10 ^ s.exponentValue

/-- The literal with its point moved behind the last digit. -/
def decimal (s : FloatSpelling) : Decimal where
  negative := false
  digits := decimalValue (s.whole ++ s.part.getD [])
  exponent := s.exponentValue - (s.part.getD []).length

/-- At most 15 digits, scaled neither up nor down to where nothing is left of them. -/
structure IsModerate (s : FloatSpelling) : Prop where
  digits_lt : s.decimal.digits < 10 ^ 15
  exponent_ge : -323 ≤ s.decimal.exponent
  exponent_le : s.decimal.exponent ≤ 0

variable (s : FloatSpelling)

theorem isDigit_whole : ∀ c ∈ s.whole, isDecimalDigit c = true :=
  fun c hc => List.all_eq_true.mp s.isDigit c (List.mem_append_left _ hc)

theorem isDigit_part : ∀ c ∈ s.part.getD [], isDecimalDigit c = true :=
  fun c hc => List.all_eq_true.mp s.isDigit c (List.mem_append_right _ hc)

theorem magnitude_decimal : s.decimal.magnitude = s.value := by
  rw [Decimal.magnitude, decimal, decimalValue_append s.isDigit_whole s.isDigit_part, value,
    zpow_sub₀ (by norm_num)]
  push_cast
  rw [zpow_natCast]
  field_simp

theorem exists_chars_cons :
    ∃ c rest, s.chars = c :: rest ∧ (isDecimalDigit c = true ∨ c = '.') := by
  have hne := s.nonempty
  unfold chars
  cases hwhole : s.whole with
  | cons c rest =>
    have hc := s.isDigit_whole c (by rw [hwhole]; exact List.mem_cons_self)
    exact ⟨c, _, List.cons_append, .inl hc⟩
  | nil =>
    cases hpart : s.part with
    | some ds => exact ⟨'.', _, rfl, .inr rfl⟩
    | none =>
      rw [hwhole, hpart] at hne
      exact absurd rfl hne

theorem splitSign_chars : Decimal.splitSign s.chars = (false, s.chars) := by
  obtain ⟨c, rest, hchars, hc⟩ := s.exists_chars_cons
  have hminus : c ≠ '-' := by
    rintro rfl
    revert hc
    decide
  have hplus : c ≠ '+' := by
    rintro rfl
    revert hc
    decide
  simp [hchars, Decimal.splitSign, hminus, hplus]

theorem exponentPart?_exponentChars (e : Option ExponentSpelling) :
    Decimal.exponentPart? (NumeralSpelling.exponentChars e) =
      some ((e.map ExponentSpelling.value).getD 0) := by
  cases e with
  | none => rfl
  | some e =>
    have hsign := Json.splitSign_signChars e.negative? e.digits []
    rw [List.append_nil, List.append_nil] at hsign
    obtain ⟨hne, hdigits⟩ := e.digits.2
    have hall : e.digits.1.all isDecimalDigit = true := List.all_eq_true.mpr hdigits
    simp [NumeralSpelling.exponentChars, ExponentSpelling.chars, Decimal.exponentPart?, e.mark_eq,
      hsign, hne, hall, ExponentSpelling.value]

theorem ofChars?_chars : Decimal.ofChars? s.chars = some s.decimal := by
  have hends : Json.EndsNumeral [] := by simp [Json.EndsNumeral]
  obtain ⟨hexponent, hpoint⟩ := Json.endsDigits_exponentChars s.exponent hends
  rw [List.append_nil] at hexponent hpoint
  have hrest : Json.EndsDigits (partChars s.part ++ NumeralSpelling.exponentChars s.exponent) := by
    cases s.part with
    | none => exact hexponent
    | some ds =>
      intro c hc
      cases hc
      decide
  obtain ⟨htake, hdrop⟩ := hrest.span_append s.isDigit_whole
  obtain ⟨htake', hdrop'⟩ := hexponent.span_append s.isDigit_part
  have hne := s.nonempty
  have hvalue := exponentPart?_exponentChars s.exponent
  rw [Decimal.ofChars?, splitSign_chars]
  unfold chars decimal exponentValue
  simp only [htake, hdrop]
  cases hpart : s.part with
  | none =>
    rw [hpart] at hne
    simp only [partChars, List.nil_append, Option.getD_none, List.append_nil] at hne ⊢
    generalize NumeralSpelling.exponentChars s.exponent = es at hpoint hvalue
    split
    · exact absurd rfl hpoint
    · simp only [List.append_nil, if_neg hne, hvalue, Option.map_some]
  | some ds =>
    rw [hpart] at htake' hdrop' hne
    rw [Option.getD_some] at htake' hdrop' hne
    simp only [partChars, List.cons_append, htake', hdrop', if_neg hne, hvalue, Option.map_some,
      Option.getD_some]

theorem mem_signChars {negative? : Option Bool} {c : Char}
    (h : c ∈ ExponentSpelling.signChars negative?) : c ∈ ['-', '+'] := by
  rcases negative? with _ | _ | _
  · cases h
  · exact List.mem_cons_of_mem _ h
  · exact List.mem_append_left ['+'] h

theorem isDigit_or_mark {c : Char} (h : c ∈ s.chars) :
    isDecimalDigit c = true ∨ c ∈ ['.', 'e', 'E', '-', '+'] := by
  rcases List.mem_append.mp h with hwhole | hrest
  · exact .inl (s.isDigit_whole c hwhole)
  rcases List.mem_append.mp hrest with hpart | hexponent
  · have hdigits := s.isDigit_part
    cases hs : s.part with
    | none =>
      rw [hs] at hpart
      cases hpart
    | some ds =>
      rw [hs] at hpart hdigits
      rcases List.mem_cons.mp hpart with rfl | hc
      · exact .inr (by decide)
      · exact .inl (hdigits c hc)
  · cases hs : s.exponent with
    | none =>
      rw [hs] at hexponent
      cases hexponent
    | some e =>
      rw [hs] at hexponent
      rcases List.mem_append.mp hexponent with hmark | hdigit
      · right
        rcases List.mem_cons.mp hmark with rfl | hsign
        · rcases e.mark_eq with hm | hm <;> simp [hm]
        · exact List.mem_append_right ['.', 'e', 'E'] (mem_signChars hsign)
      · exact .inl (e.digits.2.2 c hdigit)

theorem not_isHexadecimal : isHexadecimal s.chars = false := by
  have hx : 'x' ∉ s.chars := fun h => absurd (s.isDigit_or_mark h) (by decide)
  have hX : 'X' ∉ s.chars := fun h => absurd (s.isDigit_or_mark h) (by decide)
  unfold isHexadecimal
  split
  · next c cs hchars =>
    rw [hchars] at hx hX
    simp only [List.mem_cons, not_or] at hx hX
    simp [Ne.symm hx.2.1, Ne.symm hX.2.1]
  · rfl

theorem float?_of_isSpelledBy {raw : String} (h : s.IsSpelledBy raw) :
    float? raw = s.decimal.toBinary64? := by
  have hchars : dropSeparators raw.toList = s.chars := h
  rw [float?, hchars, not_isHexadecimal, ofChars?_chars]
  rfl

end FloatSpelling

end Literal

theorem Value.ofFloat_eq_int (x : Binary64) (n : Int) :
    ofFloat x = int n ↔ x.toInt? = some n ∧ n.natAbs < integerBound := by
  cases hx : x.toInt? with
  | none => simp [ofFloat, hx]
  | some k =>
    rw [ofFloat_eq_int_iff hx, Option.some.injEq, and_comm]
    exact and_congr_right fun h => by rw [h]

theorem Literal.value?_float_eq_int (raw : String) (n : Int) :
    value? .float raw = some (.int n) ↔
      ∃ x, float? raw = some x ∧ x.toInt? = some n ∧ n.natAbs < Value.integerBound := by
  simp only [value?, Option.map_eq_some_iff, Value.ofFloat_eq_int]

/-- A literal of moderate size is taken for no integer but the one that it denotes. In general, an
integer that a literal denotes is kept exactly if it has at most 53 significant bits and is below the
bound up to which floating-point numbers are taken for integers; and whatever integer a literal is
taken for, it is off by at most the 2 ^ 53rd part of it, or is zero for a number that is at most half
of the least positive floating-point number. -/
theorem float_literal_integer_exact_iff (s : Literal.FloatSpelling) (raw : String)
    (h : s.IsSpelledBy raw) (n : Int) :
    (s.IsModerate → Literal.value? .float raw = some (.int n) → s.value = n) ∧
    (s.value = n → (Literal.value? .float raw = some (.int n) ↔
      Binary64.IsShort n.natAbs ∧ n.natAbs < Value.integerBound)) ∧
    (Literal.value? .float raw = some (.int n) →
      |s.value - n| ≤ n / 2 ^ 53 ∨ n = 0 ∧ s.value ≤ 1 / 2 ^ 1075) := by
  rw [Literal.value?_float_eq_int, s.float?_of_isSpelledBy h, ← s.magnitude_decimal]
  refine ⟨?_, ?_, ?_⟩
  · rintro ⟨hdigits, hge, hle⟩ ⟨x, hx, hn, -⟩
    exact Decimal.magnitude_eq_of_toInt? rfl hdigits hge hle hx hn
  · intro hvalue
    have hnonneg : (0 : ℚ) ≤ n := hvalue ▸ s.decimal.magnitude_nonneg
    obtain ⟨k, rfl⟩ := Int.eq_ofNat_of_zero_le (Int.cast_nonneg_iff.mp hnonneg)
    rw [Int.cast_natCast] at hvalue
    rw [Decimal.toBinary64?_of_magnitude_eq hvalue, Int.natAbs_natCast]
    constructor
    · rintro ⟨x, hx, hn, hbound⟩
      exact ⟨(Binary64.toInt?_eq_some_iff_isShort hx).mp hn, hbound⟩
    · rintro ⟨hshort, hbound⟩
      have hlarge : k < twoPow 1023 := Nat.lt_trans hbound (by decide +kernel)
      obtain ⟨x, hx⟩ := Binary64.exists_ofRatio?_eq_some false hlarge
      exact ⟨x, hx, (Binary64.toInt?_eq_some_iff_isShort hx).mpr hshort, hbound⟩
  · rintro ⟨x, hx, hn, -⟩
    exact Decimal.toInt?_error rfl hx hn

/-- A number of moderate size, and one of 65 bits, the last 64 of them zero, both written with a
point and an exponent. -/
theorem float_literal_integer_exact_iff_scaled :
    let s : Literal.FloatSpelling := ⟨"1844674407370955161".toList, some ['6'],
      some ⟨'e', .inl rfl, none, Json.digits 1⟩, rfl, List.cons_ne_nil _ _⟩
    let t : Literal.FloatSpelling := ⟨['2'], some ['5', '0'],
      some ⟨'e', .inl rfl, none, Json.digits 1⟩, rfl, List.cons_ne_nil _ _⟩
    (s.IsSpelledBy "1_844674407370955161.6e1" ∧ s.value = 18446744073709551616 ∧
      Literal.value? .float "1_844674407370955161.6e1" = some (.int 18446744073709551616)) ∧
    (t.IsSpelledBy "2.50e1" ∧ t.IsModerate ∧ Literal.value? .float "2.50e1" = some (.int 25) ∧
      t.value = (25 : Int)) := by
  intro s t
  have hspelled : s.IsSpelledBy "1_844674407370955161.6e1" ∧ t.IsSpelledBy "2.50e1" := by
    unfold Literal.FloatSpelling.IsSpelledBy
    decide +kernel
  have hvalue : s.value = (18446744073709551616 : Int) := by
    have hwhole : decimalValue s.whole = 1844674407370955161 := by decide +kernel
    have hpart : decimalValue (s.part.getD []) = 6 := by decide +kernel
    have hexponent : s.exponentValue = 1 := by decide +kernel
    rw [Literal.FloatSpelling.value, hwhole, hpart, hexponent]
    norm_num [s]
  have hshort : Binary64.IsShort (18446744073709551616 : Int).natAbs :=
    ⟨1, 64, by decide, by decide⟩
  have hmoderate : t.IsModerate := ⟨by decide +kernel, by decide +kernel, by decide +kernel⟩
  have hkept : Literal.value? .float "2.50e1" = some (.int 25) := by decide +kernel
  exact ⟨⟨hspelled.1, hvalue,
      ((float_literal_integer_exact_iff s _ hspelled.1 _).2.1 hvalue).mpr ⟨hshort, by decide⟩⟩,
    hspelled.2, hmoderate, hkept,
    (float_literal_integer_exact_iff t _ hspelled.2 25).1 hmoderate hkept⟩

/-- The least odd number of 54 bits is taken for its neighbour below, and a number between zero and
one for zero. -/
theorem float_literal_taken_for_neighbour :
    let s : Literal.FloatSpelling :=
      ⟨"9007199254740993".toList, some ['0'], none, rfl, List.cons_ne_nil _ _⟩
    let t : Literal.FloatSpelling :=
      ⟨['1'], none, some ⟨'e', .inl rfl, some true, Json.digits 400⟩, rfl, List.cons_ne_nil _ _⟩
    (s.IsSpelledBy "9007199254740993.0" ∧ s.value = 9007199254740993 ∧
      Literal.value? .float "9007199254740993.0" = some (.int 9007199254740992)) ∧
    (t.IsSpelledBy "1e-400" ∧ 0 < t.value ∧ Literal.value? .float "1e-400" = some (.int 0)) := by
  intro s t
  have hs : s.value = 9007199254740993 := by
    have hwhole : decimalValue s.whole = 9007199254740993 := by decide +kernel
    have hpart : decimalValue (s.part.getD []) = 0 := by decide +kernel
    have hexponent : s.exponentValue = 0 := rfl
    rw [Literal.FloatSpelling.value, hwhole, hpart, hexponent]
    norm_num
  have ht : 0 < t.value := by
    have hwhole : decimalValue t.whole = 1 := by decide +kernel
    rw [Literal.FloatSpelling.value, hwhole]
    positivity
  unfold Literal.FloatSpelling.IsSpelledBy
  exact ⟨⟨by decide +kernel, hs, by decide +kernel⟩, by decide +kernel, ht, by decide +kernel⟩

end EnumCover
