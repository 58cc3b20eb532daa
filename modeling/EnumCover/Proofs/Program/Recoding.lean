import EnumCover.Proofs.Json.Printing
import EnumCover.Program.Value

namespace EnumCover

instance (n : Int) : Decidable (Json.IsWord n) :=
  inferInstanceAs (Decidable (-(twoPow 63 : Int) ≤ n ∧ n < twoPow 64))

namespace Value

/-- An integer beyond 64 bits, signed or not. -/
def IsWide : Value → Prop
  | int n => ¬Json.IsWord n
  | bool _ | float _ | str _ => False

theorem toJson_of_isWord {n : Int} (h : Json.IsWord n) : (int n).toJson = .int n := if_pos h

theorem toJson_of_isWide {n : Int} (h : (int n).IsWide) : (int n).toJson = .str (integerText n) :=
  if_neg h

theorem ofFloat_cases (x : Binary64) : (∃ n, ofFloat x = int n) ∨ ofFloat x = float x := by
  unfold ofFloat
  split
  · split
    · exact .inl ⟨_, rfl⟩
    · exact .inr rfl
  · exact .inr rfl

theorem toJson_of_isFinite {x : Binary64} (h : x.isFinite = true) :
    (float x).toJson = .float x h := by
  rw [toJson, Json.ofFloat?_of_isFinite h, Option.getD_some]

theorem ofFloat_of_ofJson? {j : Json} {x : Binary64} (h : ofJson? j = some (float x)) :
    x.isFinite = true ∧ ofFloat x = float x := by
  cases j with
  | float y hfinite =>
    have hy : ofFloat y = float x := Option.some.inj h
    rcases ofFloat_cases y with ⟨n, hn⟩ | hn
    · rw [hn] at hy
      cases hy
    · rw [hn] at hy
      cases hy
      exact ⟨hfinite, hn⟩
  | bool | int | str | null | arr | obj => cases h

theorem ofJson?_toJson_of_not_isWide {j : Json} {v : Value} (h : ofJson? j = some v)
    (hv : ¬v.IsWide) : ofJson? v.toJson = some v := by
  cases v with
  | bool b => rfl
  | str s => rfl
  | int n => rw [toJson_of_isWord (not_not.mp hv), ofJson?]
  | float x =>
    obtain ⟨hfinite, hsame⟩ := ofFloat_of_ofJson? h
    rw [toJson_of_isFinite hfinite, ofJson?, hsame]

theorem ofJson?_toJson_of_isWide {n : Int} (h : (int n).IsWide) :
    ofJson? (int n).toJson = some (str (integerText n)) := by
  rw [toJson_of_isWide h, ofJson?]

end Value

/-- A constant that was read from JSON comes back from its own JSON value, unless it is an integer
beyond 64 bits: such a one comes back as the string of its digits. -/
theorem recoded_constant_eq_iff (j : Json) (v : Value) (h : Value.ofJson? j = some v) :
    (Value.ofJson? v.toJson = some v ↔ ¬v.IsWide) ∧
      ∀ n, v = .int n → v.IsWide → Value.ofJson? v.toJson = some (.str (integerText n)) := by
  have hwide : ∀ n, v = .int n → v.IsWide →
      Value.ofJson? v.toJson = some (.str (integerText n)) := by
    rintro n rfl hv
    exact Value.ofJson?_toJson_of_isWide hv
  refine ⟨⟨?_, Value.ofJson?_toJson_of_not_isWide h⟩, hwide⟩
  intro hback hv
  cases v with
  | int n =>
    rw [hwide n rfl hv] at hback
    cases hback
  | bool | float | str => exact hv

/-- The largest integer of 64 bits, and a floating-point number that is no integer. -/
theorem recoded_constant_eq_iff_kept :
    let half : Binary64 := ⟨0x3FE0000000000000⟩
    Value.ofJson? (.int 18446744073709551615) = some (.int 18446744073709551615) ∧
    Value.ofJson? (Value.int 18446744073709551615).toJson = some (.int 18446744073709551615) ∧
    Value.ofJson? (.float half (by decide)) = some (.float half) ∧
    Value.ofJson? (Value.float half).toJson = some (.float half) := by
  intro half
  have hword : ¬(Value.int 18446744073709551615).IsWide := not_not.mpr (by decide)
  have hhalf : Value.ofJson? (.float half (by decide)) = some (.float half) := by decide +kernel
  exact ⟨rfl, (recoded_constant_eq_iff (.int 18446744073709551615) _ rfl).1.mpr hword, hhalf,
    (recoded_constant_eq_iff (.float half (by decide)) _ hhalf).1.mpr not_false⟩

/-- Ten to the power 20 is read as an integer, and comes back as a string. -/
theorem wide_constant_recoded_as_string :
    let x : Binary64 := ⟨0x4415AF1D78B58C40⟩
    Value.ofJson? (.float x (by decide)) = some (.int 100000000000000000000) ∧
    (Value.int 100000000000000000000).toJson = .str "100000000000000000000" ∧
    Value.ofJson? (Value.int 100000000000000000000).toJson = some (.str "100000000000000000000") ∧
    Value.str "100000000000000000000" ≠ .int 100000000000000000000 := by
  have hwide : (Value.int 100000000000000000000).IsWide := show ¬Json.IsWord _ by decide
  have htext : integerText 100000000000000000000 = "100000000000000000000" := by decide +kernel
  refine ⟨by decide +kernel, ?_, ?_, by decide⟩
  · rw [Value.toJson_of_isWide hwide, htext]
  · rw [Value.ofJson?_toJson_of_isWide hwide, htext]

end EnumCover
