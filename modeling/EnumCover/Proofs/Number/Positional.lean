import Mathlib.Data.Nat.Digits.Defs
import Mathlib.Tactic.Ring
import EnumCover.Number.Digits

namespace EnumCover

theorem digit?_lt {radix d : Nat} {c : Char} (h : digit? radix c = some d) : d < radix := by
  have hfilter := (Option.filter_eq_some_iff.mp h).2
  simpa using hfilter

/-- Digits that were read before count for as many more places as digits follow. -/
theorem natOfDigitsFrom?_eq (radix start : Nat) (cs : List Char) :
    natOfDigitsFrom? radix start cs =
      (natOfDigits? radix cs).map (start * radix ^ cs.length + ·) := by
  rw [natOfDigits?]
  induction cs generalizing start with
  | nil => simp [natOfDigitsFrom?]
  | cons c cs ih =>
    simp only [natOfDigitsFrom?]
    cases digit? radix c with
    | none => rfl
    | some d =>
      simp only [Option.bind_some, List.length_cons]
      rw [ih (radix * start + d), ih (radix * 0 + d), Option.map_map]
      congr 1
      funext n
      simp only [Function.comp_apply]
      ring

theorem natOfDigits?_append (radix : Nat) (xs ys : List Char) :
    natOfDigits? radix (xs ++ ys) = (natOfDigits? radix xs).bind fun m =>
      (natOfDigits? radix ys).map (m * radix ^ ys.length + ·) := by
  rw [natOfDigits?, natOfDigitsFrom?_append]
  exact congrArg _ (funext fun m => natOfDigitsFrom?_eq radix m ys)

section Decimal

variable {xs ys : List Char}

theorem natOfDigits?_eq_decimalValue (h : ∀ c ∈ xs, isDecimalDigit c = true) :
    natOfDigits? 10 xs = some (decimalValue xs) := by
  suffices hsome : (natOfDigits? 10 xs).isSome = true by
    obtain ⟨n, hn⟩ := Option.isSome_iff_exists.mp hsome
    rw [decimalValue, hn, Option.getD_some]
  induction xs with
  | nil => rfl
  | cons c xs ih =>
    obtain ⟨hc, hxs⟩ := List.forall_mem_cons.mp h
    obtain ⟨d, hd⟩ := Option.isSome_iff_exists.mp hc
    rw [natOfDigits?, natOfDigitsFrom?, hd, Option.bind_some, natOfDigitsFrom?_eq,
      Option.isSome_map]
    exact ih hxs

theorem decimalValue_append (hx : ∀ c ∈ xs, isDecimalDigit c = true)
    (hy : ∀ c ∈ ys, isDecimalDigit c = true) :
    decimalValue (xs ++ ys) = decimalValue xs * 10 ^ ys.length + decimalValue ys := by
  rw [decimalValue, natOfDigits?_append, natOfDigits?_eq_decimalValue hx,
    natOfDigits?_eq_decimalValue hy]
  rfl

end Decimal

/-- A digit as it is written: one of the characters that stand for its value. -/
structure Digit (radix : Nat) where
  value : Fin radix
  char : Char
  char_eq : char = value.1.digitChar ∨ char = value.1.digitChar.toUpper

namespace Digit

variable {radix : Nat}

/-- The number that digits spell, the last of them in the lowest place. -/
def positional (ds : List (Digit radix)) : Nat := Nat.ofDigits radix (ds.map (·.value.1)).reverse

theorem positional_cons (d : Digit radix) (ds : List (Digit radix)) :
    positional (d :: ds) = d.value * radix ^ ds.length + positional ds := by
  rw [positional, List.map_cons, List.reverse_cons, Nat.ofDigits_append, Nat.ofDigits_singleton,
    List.length_reverse, List.length_map, ← positional]
  ring

theorem positional_lt (h : 1 < radix) (ds : List (Digit radix)) :
    positional ds < radix ^ ds.length := by
  have hlt : ∀ n ∈ (ds.map (·.value.1)).reverse, n < radix := by
    intro n hn
    obtain ⟨d, -, rfl⟩ := List.mem_map.mp (List.mem_reverse.mp hn)
    exact d.value.2
  have hpow := Nat.ofDigits_lt_base_pow_length h hlt
  rwa [List.length_reverse, List.length_map] at hpow

theorem digit?_eq_filter (h : radix ≤ 16) (c : Char) :
    digit? radix c = (digit? 16 c).filter (· < radix) := by
  unfold digit?
  dsimp only
  rw [Option.filter_filter]
  congr 1
  funext n
  rw [← Bool.decide_and, decide_eq_decide]
  omega

theorem digit?_char (h : radix ≤ 16) (d : Digit radix) : digit? radix d.char = some d.value.1 := by
  have table : ∀ n : Fin 16, digit? 16 n.1.digitChar = some n.1 ∧
      digit? 16 n.1.digitChar.toUpper = some n.1 := by decide
  have hlt := d.value.2
  have hchar : digit? 16 d.char = some d.value.1 := by
    obtain ⟨hlower, hupper⟩ := table ⟨d.value.1, by omega⟩
    rcases d.char_eq with hc | hc
    · rw [hc, hlower]
    · rw [hc, hupper]
  rw [digit?_eq_filter h, hchar, Option.filter_some, if_pos (decide_eq_true hlt)]

theorem toNat_lt_of_digit? {c : Char} {n : Nat} (h : digit? 16 c = some n) : c.toNat < 128 := by
  have hle (a : Char) (ha : a.toNat < 128) (hc : c ≤ a) : c.toNat < 128 :=
    Nat.lt_of_le_of_lt hc ha
  obtain ⟨hvalue, -⟩ := Option.filter_eq_some_iff.mp h
  split at hvalue
  · next hc => exact hle '9' (by decide) hc.2
  · split at hvalue
    · next hc => exact hle 'z' (by decide) hc.2
    · split at hvalue
      · next hc => exact hle 'Z' (by decide) hc.2
      · cases hvalue

theorem exists_of_digit? (h : radix ≤ 16) {c : Char} {n : Nat} (hc : digit? radix c = some n) :
    ∃ d : Digit radix, d.char = c ∧ d.value.1 = n := by
  have table : ∀ k : Fin 128, ∀ n ∈ digit? 16 (Char.ofNat k.1),
      Char.ofNat k.1 = n.digitChar ∨ Char.ofNat k.1 = n.digitChar.toUpper := by decide
  have hlt := digit?_lt hc
  rw [digit?_eq_filter h] at hc
  obtain ⟨hc, -⟩ := Option.filter_eq_some_iff.mp hc
  have hentry := table ⟨c.toNat, toNat_lt_of_digit? hc⟩ n
  rw [Char.ofNat_toNat] at hentry
  exact ⟨⟨⟨n, hlt⟩, c, hentry hc⟩, rfl, rfl⟩

theorem natOfDigits?_map_char (h : radix ≤ 16) (ds : List (Digit radix)) :
    natOfDigits? radix (ds.map char) = some (positional ds) := by
  induction ds with
  | nil => rfl
  | cons d ds ih =>
    rw [List.map_cons, natOfDigits?, natOfDigitsFrom?, digit?_char h, Option.bind_some,
      natOfDigitsFrom?_eq, ih, Option.map_some, positional_cons, List.length_map, Nat.mul_zero,
      Nat.zero_add]

theorem exists_of_natOfDigits? (h : radix ≤ 16) {cs : List Char} {n : Nat}
    (hn : natOfDigits? radix cs = some n) : ∃ ds : List (Digit radix), ds.map char = cs := by
  induction cs generalizing n with
  | nil => exact ⟨[], rfl⟩
  | cons c cs ih =>
    obtain ⟨d, hd, hn⟩ := Option.bind_eq_some_iff.mp hn
    rw [natOfDigitsFrom?_eq] at hn
    obtain ⟨m, hm, -⟩ := Option.map_eq_some_iff.mp hn
    obtain ⟨digit, hdigit, -⟩ := exists_of_digit? h hd
    obtain ⟨ds, hds⟩ := ih hm
    exact ⟨digit :: ds, by rw [List.map_cons, hdigit, hds]⟩

/-- The reader of digits accepts what is written with digits, and gives the positional value. -/
theorem natOfDigits?_eq_some_iff (h : radix ≤ 16) (cs : List Char) (n : Nat) :
    natOfDigits? radix cs = some n ↔
      ∃ ds : List (Digit radix), ds.map char = cs ∧ positional ds = n := by
  constructor
  · intro hn
    obtain ⟨ds, rfl⟩ := exists_of_natOfDigits? h hn
    rw [natOfDigits?_map_char h] at hn
    exact ⟨ds, rfl, Option.some.inj hn⟩
  · rintro ⟨ds, rfl, rfl⟩
    exact natOfDigits?_map_char h ds

end Digit

end EnumCover
