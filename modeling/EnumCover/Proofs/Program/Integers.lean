import EnumCover.Proofs.Json.Printing
import EnumCover.Proofs.Number.Rounding
import EnumCover.Snapshot.Reader

namespace EnumCover

theorem toList_integerText (n : Nat) : (integerText n).toList = decimalDigits n :=
  String.toList_ofList

theorem digit?_isSome_of_mem_decimalDigits {n : Nat} {c : Char} (h : c ∈ decimalDigits n) :
    (digit? 10 c).isSome = true :=
  digit?_isSome_of_natOfDigitsFrom? (natOfDigits?_decimalDigits n) c h

namespace Literal

theorem dropSeparators_decimalDigits (n : Nat) :
    dropSeparators (decimalDigits n) = decimalDigits n := by
  rw [dropSeparators, List.filter_eq_self]
  intro c hc
  rw [bne_iff_ne]
  rintro rfl
  exact absurd (digit?_isSome_of_mem_decimalDigits hc) (by decide)

theorem radixAndDigits_of_head {cs : List Char} (h : cs.head? = some '0' → cs = ['0']) :
    radixAndDigits cs = (10, cs) := by
  unfold radixAndDigits
  split
  · cases h rfl
  · rfl

theorem splitSign_decimalDigits (n : Nat) :
    Decimal.splitSign (decimalDigits n) = (false, decimalDigits n) := by
  unfold Decimal.splitSign
  split
  · next cs hcs =>
    exact absurd (digit?_isSome_of_mem_decimalDigits (hcs ▸ List.mem_cons_self)) (by decide)
  · next cs hcs =>
    exact absurd (digit?_isSome_of_mem_decimalDigits (hcs ▸ List.mem_cons_self)) (by decide)
  · rfl

theorem signedInteger?_decimalDigits {n : Nat} (h : n < twoPow 127) :
    signedInteger? 10 (decimalDigits n) = some (n : Int) := by
  have hne : decimalDigits n ≠ [] := Nat.toDigits_ne_nil
  have hrange : -(twoPow 127 : Int) ≤ n ∧ (n : Int) < twoPow 127 := by
    constructor
    · omega
    · exact Int.ofNat_lt.mpr h
  rw [signedInteger?, splitSign_decimalDigits]
  dsimp only
  rw [if_neg hne, natOfDigits?_decimalDigits, Option.bind_some]
  exact if_pos hrange

/-- A decimal of 128 bits is the literal of its number. -/
theorem value?_integerText {n : Nat} (h : n < twoPow 127) :
    value? .int (integerText n) = some (.int n) := by
  have hradix : radixAndDigits (decimalDigits n) = (10, decimalDigits n) :=
    radixAndDigits_of_head (Json.digits_no_zero n)
  have hinteger : integer? (integerText n) = some (n : Int) := by
    rw [integer?, toList_integerText, dropSeparators_decimalDigits, hradix]
    exact signedInteger?_decimalDigits h
  rw [value?, hinteger, Option.map_some]

end Literal

namespace Value

theorem readText_integerText {n : Nat} {j : Json} {v : Value}
    (hj : (Json.integerSpelling n).numeral.toJson? = some j) (hv : ofJson? j = some v) :
    readText Value.read (integerText n) = .value v := by
  let s : Json.Padded Json.Spelling := ⟨.none, .number (Json.integerSpelling n), .none⟩
  have htext : Json.Spelling.text s = integerText n := by
    simp [s, Json.Spelling.text, Json.Spelling.chars, Json.integerSpelling_chars, integerText,
      Json.Blanks.none]
  obtain ⟨node, stop, hparse, hagrees, -⟩ := Json.Spelling.parse_text s
  rw [htext] at hparse
  change Node.Alike node (.number 0 (Json.integerSpelling n).numeral) at hagrees
  cases hagrees
  simp [readText, hparse, Document.read, Value.read, Node.toJson, hj, Reading.andThen, hv,
    Stop.check]

theorem readText_integerText_word {n : Nat} (h : n < twoPow 64) :
    readText Value.read (integerText n) = .value (.int n) := by
  have hword : Json.IsWord n := by
    have hpos := twoPow_pos 63
    constructor <;> omega
  exact readText_integerText (Json.integerSpelling_toJson? hword) rfl

/-- A longer decimal is read as the nearest floating-point number, a whole one. -/
theorem exists_readText_integerText_wide {n : Nat} (hwide : twoPow 64 ≤ n) (h : n < twoPow 1023) :
    ∃ x : Binary64, x.toInt? = some (Binary64.rounded n 1 : Int) ∧
      readText Value.read (integerText n) = .value (ofFloat x) := by
  obtain ⟨x, hx⟩ := Binary64.exists_ofRatio?_eq_some false h
  have hbits : twoPow 52 ≤ n := Nat.le_trans (twoPow_le_twoPow (by omega)) hwide
  refine ⟨x, Binary64.toInt?_of_ofRatio?_eq_some hbits hx, ?_⟩
  have hfinite := (Binary64.of_ofRatio?_eq_some hx).1
  apply readText_integerText (j := .float x hfinite) _ rfl
  have hnot : ¬n < twoPow 64 := by omega
  have hfloat : (Decimal.mk false n 0).toBinary64? = some x := by
    rw [← hx]
    change Binary64.ofRatio? false (n * 1) 1 = _
    rw [Nat.mul_one]
  simp [Json.integerSpelling, Json.NumeralSpelling.numeral, Numeral.toJson?, Numeral.toFloat?,
    Json.digits, hnot, hfloat, Json.ofFloat?_of_isFinite hfinite]

/-- The value of a whole floating-point number is an integer exactly if it is below the bound. -/
theorem ofFloat_eq_int_iff {x : Binary64} {k : Int} (hx : x.toInt? = some k) (n : Int) :
    ofFloat x = int n ↔ k.natAbs < integerBound ∧ k = n := by
  simp only [ofFloat, hx]
  split
  · next h => simp [h]
  · next h => simp [h]

end Value

/-- Every decimal of 128 bits is read as the value of a declared constant and has a value as a
literal. The two are the same exactly if the number has 64 bits, or if it has at most 53 significant
bits and is below the bound up to which floating-point numbers are taken for integers. Beyond 64
bits this rests on the assumption of `Numeral.toFloat?` that the nearest number is read. -/
theorem declared_integer_eq_literal_iff (n : Nat) (h : n < twoPow 127) :
    ∃ v, readText Value.read (integerText n) = .value v ∧
      Literal.value? .int (integerText n) = some (.int n) ∧
      (v = .int n ↔ n < twoPow 64 ∨ n < Value.integerBound ∧ Binary64.IsShort n) := by
  rcases Nat.lt_or_ge n (twoPow 64) with hword | hwide
  · refine ⟨.int n, Value.readText_integerText_word hword, Literal.value?_integerText h, ?_⟩
    exact iff_of_true rfl (.inl hword)
  · have hlarge : n < twoPow 1023 := Nat.lt_of_lt_of_le h (twoPow_le_twoPow (by omega))
    obtain ⟨x, hx, hread⟩ := Value.exists_readText_integerText_wide hwide hlarge
    refine ⟨.ofFloat x, hread, Literal.value?_integerText h, ?_⟩
    have hnot : ¬n < twoPow 64 := by omega
    rw [Value.ofFloat_eq_int_iff hx, Int.natAbs_natCast, Int.natCast_inj, or_iff_right hnot,
      ← Binary64.rounded_eq_self_iff]
    constructor
    · rintro ⟨hbound, hself⟩
      rw [hself] at hbound
      exact ⟨hbound, hself⟩
    · rintro ⟨hbound, hself⟩
      rw [hself]
      exact ⟨hbound, rfl⟩

/-- A number of 65 bits, the last twelve of them zero. -/
theorem declared_integer_eq_literal_iff_beyond_words :
    let n : Nat := 18446744073709555712
    ¬n < twoPow 64 ∧ n < twoPow 127 ∧ readText Value.read (integerText n) = .value (.int n) := by
  intro n
  have h : n < twoPow 127 := by decide
  obtain ⟨v, hread, -, hiff⟩ := declared_integer_eq_literal_iff n h
  have hshort : Binary64.IsShort n := ⟨4503599627370497, 12, by decide, by decide⟩
  have hv := hiff.mpr (.inr ⟨by decide, hshort⟩)
  exact ⟨by decide, h, hv ▸ hread⟩

/-- The least number that a declared constant and a literal do not agree on. -/
theorem wide_constant_differs_from_literal :
    integerText 18446744073709551617 = "18446744073709551617" ∧
      readText Value.read "18446744073709551617" = .value (.int 18446744073709551616) ∧
      Literal.value? .int "18446744073709551617" = some (.int 18446744073709551617) := by
  decide +kernel

end EnumCover
