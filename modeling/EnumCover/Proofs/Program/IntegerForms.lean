import EnumCover.Proofs.Number.Positional
import EnumCover.Proofs.Program.Integers

namespace EnumCover

namespace Digit

variable {radix : Nat}

theorem char_ne (h : radix ≤ 16) (d : Digit radix) {c : Char} (hc : digit? radix c = none) :
    d.char ≠ c := by
  rintro rfl
  rw [digit?_char h] at hc
  cases hc

theorem char_eq_zero_iff (h : radix ≤ 16) (d : Digit radix) : d.char = '0' ↔ d.value.1 = 0 := by
  constructor
  · intro hchar
    have hvalue := digit?_char h d
    rw [hchar, digit?_eq_filter h, show digit? 16 '0' = some 0 from rfl] at hvalue
    exact (Option.mem_some_iff.mp (Option.filter_eq_some_iff.mp hvalue).1).symm
  · intro hvalue
    rcases d.char_eq with hc | hc
    · rw [hc, hvalue]
      rfl
    · rw [hc, hvalue]
      rfl

end Digit

namespace Literal

open Json.ExponentSpelling (signChars)

/-- The letters that name a radix behind a zero. -/
def radixLetters : List (Char × Nat) :=
  [('x', 16), ('X', 16), ('o', 8), ('O', 8), ('b', 2), ('B', 2)]

/-- What stands before the digits of an integer literal: nothing for a decimal, a zero for an octal
one, or a zero and the letter of a radix. -/
inductive Lead where
  | decimal
  | zero
  | letter (c : Char) (radix : Nat) (h : (c, radix) ∈ radixLetters)

namespace Lead

def radix : Lead → Nat
  | decimal => 10
  | zero => 8
  | letter _ radix _ => radix

def chars : Lead → List Char
  | decimal => []
  | zero => ['0']
  | letter c _ _ => ['0', c]

theorem radix_le (l : Lead) : l.radix ≤ 16 := by
  cases l with
  | decimal => decide
  | zero => decide
  | letter c radix h =>
    have hall : ∀ e ∈ radixLetters, e.2 ≤ 16 := by decide
    exact hall _ h

theorem separator_notMem_chars (l : Lead) : '_' ∉ l.chars := by
  cases l with
  | decimal => exact List.not_mem_nil
  | zero => decide
  | letter c radix h =>
    have hall : ∀ e ∈ radixLetters, '_' ∉ ['0', e.1] := by decide
    exact hall _ h

/-- What may follow the lead, so that it is not taken for another one. -/
def Introduces : Lead → List Char → Prop
  | decimal, cs => cs.head? = some '0' → cs = ['0']
  | zero, cs => ∃ c rest, cs = c :: rest ∧ ∀ radix, (c, radix) ∉ radixLetters
  | letter _ _ _, _ => True

theorem radixAndDigits_append {l : Lead} {cs : List Char} (h : l.Introduces cs) :
    radixAndDigits (l.chars ++ cs) = (l.radix, cs) := by
  cases l with
  | decimal => exact radixAndDigits_of_head h
  | zero =>
    obtain ⟨c, rest, rfl, hc⟩ := h
    have hne (d : Char) (radix : Nat) (hd : (d, radix) ∈ radixLetters) : c ≠ d := by
      rintro rfl
      exact hc radix hd
    have hx := hne 'x' 16 (by decide)
    have hX := hne 'X' 16 (by decide)
    have ho := hne 'o' 8 (by decide)
    have hO := hne 'O' 8 (by decide)
    have hb := hne 'b' 2 (by decide)
    have hB := hne 'B' 2 (by decide)
    simp [chars, radix, radixAndDigits, hx, hX, ho, hO, hb, hB]
  | letter c radix hc =>
    simp only [radixLetters, List.mem_cons, Prod.mk.injEq, List.not_mem_nil, or_false] at hc
    rcases hc with ⟨rfl, rfl⟩ | ⟨rfl, rfl⟩ | ⟨rfl, rfl⟩ | ⟨rfl, rfl⟩ | ⟨rfl, rfl⟩ | ⟨rfl, rfl⟩ <;>
      rfl

theorem digit_notMem_radixLetters (d : Digit 8) (radix : Nat) : (d.char, radix) ∉ radixLetters := by
  have hnone : ∀ e ∈ radixLetters, digit? 8 e.1 = none := by decide
  intro h
  exact d.char_ne (by decide) (hnone _ h) rfl

theorem exists_introduces (cs : List Char) :
    ∃ (l : Lead) (rest : List Char), cs = l.chars ++ rest ∧ l.Introduces rest := by
  match cs with
  | [] => exact ⟨decimal, [], rfl, nofun⟩
  | [c] => exact ⟨decimal, [c], rfl, fun h => congrArg (fun d => [d]) (Option.some.inj h)⟩
  | c :: d :: rest =>
    by_cases hzero : c = '0'
    · rw [hzero]
      by_cases hletter : ∃ radix, (d, radix) ∈ radixLetters
      · obtain ⟨radix, hd⟩ := hletter
        exact ⟨letter d radix hd, rest, rfl, trivial⟩
      · exact ⟨zero, d :: rest, rfl, d, rest, rfl, not_exists.mp hletter⟩
    · exact ⟨decimal, c :: d :: rest, rfl, fun h => absurd (Option.some.inj h) hzero⟩

end Lead

section Signs

variable {radix : Nat}

/-- A signed integer of 128 bits. -/
def Fits (n : Int) : Prop := -(2 ^ 127) ≤ n ∧ n < 2 ^ 127

instance (n : Int) : Decidable (Fits n) := inferInstanceAs (Decidable (_ ∧ _))

def signed (sign : Option Bool) (n : Nat) : Int := if sign = some true then -n else n

theorem splitSign_signChars (h : radix ≤ 16) (sign : Option Bool) (d : Digit radix)
    (cs : List Char) :
    Decimal.splitSign (signChars sign ++ d.char :: cs) = (sign == some true, d.char :: cs) := by
  match sign with
  | some true => rfl
  | some false => rfl
  | none =>
    have hminus : d.char ≠ '-' := d.char_ne h rfl
    have hplus : d.char ≠ '+' := d.char_ne h rfl
    simp [signChars, Decimal.splitSign, hminus, hplus]

theorem signedInteger?_digits (h : radix ≤ 16) (sign : Option Bool) (d : Digit radix)
    (ds : List (Digit radix)) :
    signedInteger? radix (signChars sign ++ (d :: ds).map Digit.char) =
      if Fits (signed sign (Digit.positional (d :: ds))) then
        some (signed sign (Digit.positional (d :: ds))) else none := by
  have hdigits := Digit.natOfDigits?_map_char h (d :: ds)
  rw [List.map_cons] at hdigits ⊢
  rw [signedInteger?, splitSign_signChars h]
  dsimp only
  rw [if_neg (List.cons_ne_nil _ _), hdigits, Option.bind_some]
  simp only [beq_iff_eq]
  rfl

theorem exists_of_signedInteger? (h : radix ≤ 16) {cs : List Char} {v : Int}
    (hv : signedInteger? radix cs = some v) :
    ∃ (sign : Option Bool) (d : Digit radix) (ds : List (Digit radix)),
      cs = signChars sign ++ (d :: ds).map Digit.char := by
  obtain ⟨sign, hcs⟩ := Json.exists_sign cs
  unfold signedInteger? at hv
  dsimp only at hv
  split at hv
  · cases hv
  · next hne =>
    obtain ⟨n, hn, -⟩ := Option.bind_eq_some_iff.mp hv
    obtain ⟨ds, hds⟩ := Digit.exists_of_natOfDigits? h hn
    cases ds with
    | nil => exact absurd hds.symm hne
    | cons d ds => exact ⟨sign, d, ds, by rw [hds]; exact hcs⟩

end Signs

/-- What evaluation takes an integer literal for once its separators are dropped. -/
structure IntegerParts where
  lead : Lead
  /-- A minus sign, a plus sign or none. -/
  sign : Option Bool
  first : Digit lead.radix
  rest : List (Digit lead.radix)
  /-- A zero in front of more digits is not a decimal one. -/
  no_zero : lead = .decimal → sign = none → first.value.1 = 0 → rest = []

namespace IntegerParts

variable (p : IntegerParts)

def body : List Char := signChars p.sign ++ (p.first :: p.rest).map Digit.char

def chars : List Char := p.lead.chars ++ p.body

def value : Int := signed p.sign (Digit.positional (p.first :: p.rest))

/-- The text is the literal with separators in any place. -/
def IsSpelledBy (raw : String) : Prop := raw.toList.filter (· != '_') = p.chars

theorem introduces : p.lead.Introduces p.body := by
  obtain ⟨lead, sign, first, rest, no_zero⟩ := p
  cases lead with
  | decimal =>
    intro hhead
    match sign with
    | none =>
      have hfirst : first.char = '0' := Option.some.inj hhead
      have hrest := no_zero rfl rfl ((first.char_eq_zero_iff (by decide)).mp hfirst)
      change first.char :: rest.map Digit.char = ['0']
      rw [hfirst, hrest, List.map_nil]
    | some true => exact absurd (Option.some.inj hhead) (by decide)
    | some false => exact absurd (Option.some.inj hhead) (by decide)
  | zero =>
    match sign with
    | none => exact ⟨_, _, rfl, Lead.digit_notMem_radixLetters first⟩
    | some true => exact ⟨_, _, rfl, by simp [radixLetters]⟩
    | some false => exact ⟨_, _, rfl, by simp [radixLetters]⟩
  | letter c radix hc => trivial

variable {p} {raw : String}

theorem integer?_of_isSpelledBy (h : p.IsSpelledBy raw) :
    integer? raw = if Fits p.value then some p.value else none := by
  have hchars : dropSeparators raw.toList = p.lead.chars ++ p.body := h
  rw [integer?, hchars, Lead.radixAndDigits_append p.introduces]
  exact signedInteger?_digits p.lead.radix_le p.sign p.first p.rest

theorem exists_of_integer? {v : Int} (h : integer? raw = some v) :
    ∃ p : IntegerParts, p.IsSpelledBy raw ∧ p.value = v := by
  obtain ⟨lead, cs, hraw, hcs⟩ := Lead.exists_introduces (dropSeparators raw.toList)
  have hv := h
  rw [integer?, hraw, Lead.radixAndDigits_append hcs] at hv
  obtain ⟨sign, first, rest, rfl⟩ := exists_of_signedInteger? lead.radix_le hv
  have hno_zero : lead = .decimal → sign = none → first.value.1 = 0 → rest = [] := by
    rintro rfl rfl hvalue
    have hfirst := (first.char_eq_zero_iff (by decide)).mpr hvalue
    have hbody : first.char :: rest.map Digit.char = ['0'] := hcs (congrArg some hfirst)
    exact List.map_eq_nil_iff.mp (List.cons.inj hbody).2
  let p : IntegerParts := ⟨lead, sign, first, rest, hno_zero⟩
  have hspelled : p.IsSpelledBy raw := hraw
  refine ⟨p, hspelled, ?_⟩
  rw [integer?_of_isSpelledBy hspelled] at h
  split at h
  · exact Option.some.inj h
  · cases h

end IntegerParts

/-- A digit and the separators in front of it. -/
structure SpacedDigit (radix : Nat) where
  gap : Nat
  digit : Digit radix

structure IntegerSpelling where
  lead : Lead
  first : SpacedDigit lead.radix
  rest : List (SpacedDigit lead.radix)
  /-- A decimal starts with a digit, and with a zero only if it is zero. -/
  decimal : lead = .decimal → first.gap = 0 ∧ (first.digit.value.1 = 0 → rest = [])

namespace SpacedDigit

variable {radix : Nat}

def chars (d : SpacedDigit radix) : List Char := List.replicate d.gap '_' ++ [d.digit.char]

theorem filter_flatMap_chars (h : radix ≤ 16) (ds : List (SpacedDigit radix)) :
    (ds.flatMap chars).filter (· != '_') = (ds.map digit).map Digit.char := by
  have hdigit (d : SpacedDigit radix) : d.chars.filter (· != '_') = [d.digit.char] := by
    have hne : d.digit.char ≠ '_' := d.digit.char_ne h rfl
    simp [chars, hne]
  induction ds with
  | nil => rfl
  | cons d ds ih =>
    rw [List.flatMap_cons, List.filter_append, hdigit, ih]
    rfl

end SpacedDigit

namespace IntegerSpelling

variable (s : IntegerSpelling)

def digits : List (SpacedDigit s.lead.radix) := s.first :: s.rest

def chars : List Char := s.lead.chars ++ s.digits.flatMap SpacedDigit.chars

def text : String := String.ofList s.chars

theorem toList_text : s.text.toList = s.chars := String.toList_ofList

/-- The positional value of the digits. -/
def value : Nat := Digit.positional (s.digits.map SpacedDigit.digit)

def parts : IntegerParts where
  lead := s.lead
  sign := none
  first := s.first.digit
  rest := s.rest.map SpacedDigit.digit
  no_zero hlead _ hzero := by rw [(s.decimal hlead).2 hzero, List.map_nil]

theorem isSpelledBy_parts {raw : String} (h : raw.toList = s.chars) : s.parts.IsSpelledBy raw := by
  have hlead : s.lead.chars.filter (· != '_') = s.lead.chars := by
    rw [List.filter_eq_self]
    intro c hc
    rw [bne_iff_ne]
    rintro rfl
    exact s.lead.separator_notMem_chars hc
  rw [IntegerParts.IsSpelledBy, h, chars, List.filter_append, hlead,
    SpacedDigit.filter_flatMap_chars s.lead.radix_le]
  rfl

theorem value?_text :
    value? .int s.text = if s.value ≤ 2 ^ 127 - 1 then some (.int s.value) else none := by
  have hvalue : s.parts.value = s.value := rfl
  have hfits : Fits s.value ↔ s.value ≤ 2 ^ 127 - 1 := by
    unfold Fits
    omega
  rw [value?, IntegerParts.integer?_of_isSpelledBy (s.isSpelledBy_parts s.toList_text), hvalue]
  simp only [hfits]
  split <;> rfl

end IntegerSpelling

end Literal

/-- An integer literal in any radix, with separators between its digits or behind its lead, has the
positional value of its digits, or none if that takes more than 127 bits. So literals that spell the
same number have the same value. -/
theorem integer_literal_positional (s : Literal.IntegerSpelling) :
    Literal.value? .int s.text =
      (if s.value ≤ 2 ^ 127 - 1 then some (.int s.value) else none) ∧
    ∀ t : Literal.IntegerSpelling, t.value = s.value →
      Literal.value? .int t.text = Literal.value? .int s.text := by
  refine ⟨s.value?_text, ?_⟩
  intro t ht
  rw [t.value?_text, s.value?_text, ht]

end EnumCover
