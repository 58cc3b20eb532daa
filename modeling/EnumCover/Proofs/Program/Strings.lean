import Mathlib.Algebra.BigOperators.Group.List.Basic
import EnumCover.Program.Literal
import EnumCover.Proofs.Number.Positional

namespace EnumCover

namespace Literal

abbrev DigitRun (radix count : Nat) := { ds : List (Digit radix) // ds.length = count }

namespace DigitRun

variable {radix count : Nat}

def chars (ds : DigitRun radix count) : List Char := ds.1.map Digit.char

def value (ds : DigitRun radix count) : Nat := Digit.positional ds.1

theorem length_chars (ds : DigitRun radix count) : ds.chars.length = count := by
  rw [chars, List.length_map, ds.2]

theorem value_lt (h : 1 < radix) (ds : DigitRun radix count) : ds.value < radix ^ count := by
  have hlt := Digit.positional_lt h ds.1
  rwa [ds.2] at hlt

theorem fixedDigits?_chars (h : radix ≤ 16) (ds : DigitRun radix count) (rest : List Char) :
    fixedDigits? radix count (ds.chars ++ rest) = some (ds.value, rest) := by
  have htake : (ds.chars ++ rest).take count = ds.chars := List.take_left' ds.length_chars
  have hdrop : (ds.chars ++ rest).drop count = rest := List.drop_left' ds.length_chars
  have hdigits : natOfDigits? radix ds.chars = some ds.value := Digit.natOfDigits?_map_char h ds.1
  rw [fixedDigits?, htake, hdrop, if_pos ds.length_chars, hdigits, Option.map_some]

theorem exists_of_fixedDigits? (h : radix ≤ 16) {cs rest : List Char} {n : Nat}
    (hn : fixedDigits? radix count cs = some (n, rest)) :
    ∃ ds : DigitRun radix count, cs = ds.chars ++ rest ∧ ds.value = n := by
  unfold fixedDigits? at hn
  dsimp only at hn
  split at hn
  · next hlen =>
    obtain ⟨m, hm, heq⟩ := Option.map_eq_some_iff.mp hn
    obtain ⟨rfl, rfl⟩ := Prod.mk.inj heq
    obtain ⟨ds, hchars, rfl⟩ := (Digit.natOfDigits?_eq_some_iff h _ _).mp hm
    have hcount : ds.length = count := by rw [← hlen, ← hchars, List.length_map]
    refine ⟨⟨ds, hcount⟩, ?_, rfl⟩
    rw [chars, hchars, List.take_append_drop]
  · cases hn

end DigitRun

/-- The characters with an escape of one letter or sign, after that letter or sign. -/
def letterEscapes : List (Char × Char) :=
  [('a', '\x07'), ('b', '\x08'), ('f', '\x0c'), ('n', '\n'), ('r', '\r'), ('t', '\t'),
    ('v', '\x0b'), ('\\', '\\'), ('"', '"')]

/-- An element of a string between double quotes, as it is written. -/
inductive StringElement where
  | plain (c : Char) (h : c ≠ '\\')
  | letter (c e : Char) (h : (c, e) ∈ letterEscapes)
  | hexByte (ds : DigitRun 16 2)
  | octalByte (ds : DigitRun 8 3) (h : ds.value ≤ 255)
  | shortCode (ds : DigitRun 16 4) (c : Char) (h : c.toNat = ds.value)
  | longCode (ds : DigitRun 16 8) (c : Char) (h : c.toNat = ds.value)

namespace StringElement

def chars : StringElement → List Char
  | plain c _ => [c]
  | letter c _ _ => ['\\', c]
  | hexByte ds => '\\' :: 'x' :: ds.chars
  | octalByte ds _ => '\\' :: ds.chars
  | shortCode ds _ _ => '\\' :: 'u' :: ds.chars
  | longCode ds _ _ => '\\' :: 'U' :: ds.chars

/-- A numbered byte stands for itself, a character for its encoding. -/
def bytes : StringElement → List UInt8
  | hexByte ds | octalByte ds _ => [UInt8.ofNat ds.value]
  | plain c _ | letter _ c _ | shortCode _ c _ | longCode _ c _ => String.utf8EncodeChar c

end StringElement

section Escapes

theorem simpleEscape?_eq_some_iff (c e : Char) :
    simpleEscape? '"' c = some e ↔ (c, e) ∈ letterEscapes := by
  constructor
  · intro h
    unfold simpleEscape? at h
    split at h
    case h_9 =>
      split at h
      · next hc =>
        obtain rfl := Option.some.inj h
        rw [hc]
        decide
      · cases h
    all_goals
      obtain rfl := Option.some.inj h
      decide
  · intro h
    simp only [letterEscapes, List.mem_cons, Prod.mk.injEq, List.not_mem_nil, or_false] at h
    rcases h with ⟨rfl, rfl⟩ | ⟨rfl, rfl⟩ | ⟨rfl, rfl⟩ | ⟨rfl, rfl⟩ | ⟨rfl, rfl⟩ | ⟨rfl, rfl⟩ |
      ⟨rfl, rfl⟩ | ⟨rfl, rfl⟩ | ⟨rfl, rfl⟩ <;> rfl

theorem byte?_eq_some_iff (n : Nat) (e : Escape) :
    byte? n = some e ↔ n ≤ 255 ∧ e = .byte (UInt8.ofNat n) := by
  unfold byte?
  split
  · next h =>
    rw [Option.some.injEq, eq_comm, and_iff_right (by omega)]
  · next h =>
    simp only [reduceCtorEq, false_iff, not_and]
    omega

theorem scalar?_eq_some_iff (n : Nat) (c : Char) : scalar? n = some c ↔ c.toNat = n := by
  rw [scalar?]
  constructor
  · intro h
    by_cases hvalid : n.isValidChar
    · rw [dif_pos hvalid] at h
      obtain rfl := Option.some.inj h
      rfl
    · rw [dif_neg hvalid] at h
      cases h
  · rintro rfl
    have hvalid : c.toNat.isValidChar := c.valid
    rw [dif_pos hvalid]
    rfl

/-- An escape that gives a number in a fixed number of digits. -/
theorem numbered_eq_some_iff {radix : Nat} (hradix : radix ≤ 16) (count : Nat)
    (f : Nat → Option Escape) (cs rest : List Char) (e : Escape) :
    ((fixedDigits? radix count cs).bind fun r => (f r.1).map (·, r.2)) = some (e, rest) ↔
      ∃ ds : DigitRun radix count, cs = ds.chars ++ rest ∧ f ds.value = some e := by
  constructor
  · intro h
    obtain ⟨⟨n, after⟩, hdigits, h⟩ := Option.bind_eq_some_iff.mp h
    obtain ⟨e', he, heq⟩ := Option.map_eq_some_iff.mp h
    obtain ⟨rfl, rfl⟩ := Prod.mk.inj heq
    obtain ⟨ds, hcs, rfl⟩ := DigitRun.exists_of_fixedDigits? hradix hdigits
    exact ⟨ds, hcs, he⟩
  · rintro ⟨ds, rfl, he⟩
    rw [ds.fixedDigits?_chars hradix, Option.bind_some, he, Option.map_some]

def code? (n : Nat) : Option Escape := (scalar? n).map .char

theorem code?_eq_some_iff (n : Nat) (e : Escape) :
    code? n = some e ↔ ∃ c : Char, c.toNat = n ∧ e = .char c := by
  simp only [code?, Option.map_eq_some_iff, scalar?_eq_some_iff, eq_comm (a := Escape.char _)]

theorem exists_element_of_escape? {cs rest : List Char} {e : Escape}
    (h : escape? '"' cs = some (e, rest)) :
    ∃ el : StringElement, '\\' :: cs = el.chars ++ rest ∧ el.bytes = e.bytes := by
  cases cs with
  | nil => cases h
  | cons c cs =>
    rw [escape?] at h
    cases hletter : simpleEscape? '"' c with
    | some e' =>
      rw [hletter] at h
      obtain ⟨rfl, rfl⟩ := Prod.mk.inj (Option.some.inj h)
      exact ⟨.letter c e' ((simpleEscape?_eq_some_iff c e').mp hletter), rfl, rfl⟩
    | none =>
      rw [hletter] at h
      dsimp only at h
      split at h
      · obtain ⟨ds, rfl, he⟩ := (numbered_eq_some_iff (by decide) 2 byte? _ _ _).mp h
        obtain ⟨-, rfl⟩ := (byte?_eq_some_iff _ _).mp he
        exact ⟨.hexByte ds, rfl, rfl⟩
      · obtain ⟨ds, rfl, he⟩ := (numbered_eq_some_iff (by decide) 4 code? _ _ _).mp h
        obtain ⟨c, hc, rfl⟩ := (code?_eq_some_iff _ _).mp he
        exact ⟨.shortCode ds c hc, rfl, rfl⟩
      · obtain ⟨ds, rfl, he⟩ := (numbered_eq_some_iff (by decide) 8 code? _ _ _).mp h
        obtain ⟨c, hc, rfl⟩ := (code?_eq_some_iff _ _).mp he
        exact ⟨.longCode ds c hc, rfl, rfl⟩
      · obtain ⟨ds, hcs, he⟩ := (numbered_eq_some_iff (by decide) 3 byte? _ _ _).mp h
        obtain ⟨hle, rfl⟩ := (byte?_eq_some_iff _ _).mp he
        exact ⟨.octalByte ds hle, congrArg _ hcs, rfl⟩

theorem escape?_octal (d : Digit 8) (cs : List Char) :
    escape? '"' (d.char :: cs) =
      (fixedDigits? 8 3 (d.char :: cs)).bind fun r => (byte? r.1).map (·, r.2) := by
  have table : ∀ n : Fin 8, n.1.digitChar.toUpper = n.1.digitChar ∧
      simpleEscape? '"' n.1.digitChar = none ∧ n.1.digitChar ≠ 'x' ∧ n.1.digitChar ≠ 'u' ∧
        n.1.digitChar ≠ 'U' := by decide
  obtain ⟨hupper, hletter, hx, hu, hU⟩ := table d.value
  have hchar : d.char = d.value.1.digitChar := d.char_eq.elim id (·.trans hupper)
  rw [← hchar] at hletter hx hu hU
  simp only [escape?, hletter]

theorem StringElement.plain_or_escape? (el : StringElement) (rest : List Char) :
    (∃ c h, el = plain c h) ∨ ∃ cs e, el.chars = '\\' :: cs ∧
      escape? '"' (cs ++ rest) = some (e, rest) ∧ e.bytes = el.bytes := by
  cases el with
  | plain c h => exact .inl ⟨c, h, rfl⟩
  | letter c e h =>
    refine .inr ⟨[c], .char e, rfl, ?_, rfl⟩
    rw [List.singleton_append, escape?, (simpleEscape?_eq_some_iff c e).mpr h]
  | hexByte ds =>
    have hle : ds.value ≤ 255 := Nat.le_of_lt_succ (ds.value_lt (by decide))
    refine .inr ⟨'x' :: ds.chars, .byte (UInt8.ofNat ds.value), rfl, ?_, rfl⟩
    exact (numbered_eq_some_iff (by decide) 2 byte? _ _ _).mpr
      ⟨ds, rfl, (byte?_eq_some_iff _ _).mpr ⟨hle, rfl⟩⟩
  | octalByte ds h =>
    obtain ⟨d, tail, hds⟩ := List.exists_cons_of_length_eq_add_one ds.2
    have hchars : ds.chars ++ rest = d.char :: (tail.map Digit.char ++ rest) := by
      rw [DigitRun.chars, hds]
      rfl
    refine .inr ⟨ds.chars, .byte (UInt8.ofNat ds.value), rfl, ?_, rfl⟩
    rw [hchars, escape?_octal, ← hchars]
    exact (numbered_eq_some_iff (by decide) 3 byte? _ _ _).mpr
      ⟨ds, rfl, (byte?_eq_some_iff _ _).mpr ⟨h, rfl⟩⟩
  | shortCode ds c h =>
    refine .inr ⟨'u' :: ds.chars, .char c, rfl, ?_, rfl⟩
    exact (numbered_eq_some_iff (by decide) 4 code? _ _ _).mpr
      ⟨ds, rfl, (code?_eq_some_iff _ _).mpr ⟨c, h, rfl⟩⟩
  | longCode ds c h =>
    refine .inr ⟨'U' :: ds.chars, .char c, rfl, ?_, rfl⟩
    exact (numbered_eq_some_iff (by decide) 8 code? _ _ _).mpr
      ⟨ds, rfl, (code?_eq_some_iff _ _).mpr ⟨c, h, rfl⟩⟩

end Escapes

section Elements

theorem StringElement.chars_ne_nil (el : StringElement) : el.chars ≠ [] := by
  cases el <;> exact List.cons_ne_nil _ _

theorem stringBytes?_plain {c : Char} (h : c ≠ '\\') (fuel : Nat) (cs : List Char) :
    stringBytes? (fuel + 1) (c :: cs) =
      (stringBytes? fuel cs).map (String.utf8EncodeChar c ++ ·) := by
  rw [stringBytes?]
  exact h

/-- One unit of fuel reads one element. -/
theorem stringBytes?_element (fuel : Nat) (el : StringElement) (rest : List Char) :
    stringBytes? (fuel + 1) (el.chars ++ rest) = (stringBytes? fuel rest).map (el.bytes ++ ·) := by
  rcases el.plain_or_escape? rest with ⟨c, hc, rfl⟩ | ⟨cs, e, hchars, hescape, hbytes⟩
  · rw [StringElement.chars, List.singleton_append, stringBytes?_plain hc]
    rfl
  · rw [hchars, List.cons_append, stringBytes?, hescape, ← hbytes]
    rfl

/-- Text made of elements, with all their bytes. -/
def Spells (cs : List Char) (bs : List UInt8) : Prop :=
  ∃ els : List StringElement, cs = els.flatMap (·.chars) ∧ bs = els.flatMap (·.bytes)

theorem Spells.nil : Spells [] [] := ⟨[], rfl, rfl⟩

theorem Spells.cons (el : StringElement) {cs : List Char} {bs : List UInt8} (h : Spells cs bs) :
    Spells (el.chars ++ cs) (el.bytes ++ bs) := by
  obtain ⟨els, rfl, rfl⟩ := h
  exact ⟨el :: els, rfl, rfl⟩

theorem stringBytes?_elements {fuel : Nat} {els : List StringElement} (h : els.length ≤ fuel) :
    stringBytes? fuel (els.flatMap (·.chars)) = some (els.flatMap (·.bytes)) := by
  induction els generalizing fuel with
  | nil => rw [List.flatMap_nil, List.flatMap_nil, stringBytes?]
  | cons el els ih =>
    obtain ⟨fuel, rfl⟩ := Nat.exists_eq_add_one_of_ne_zero (Nat.ne_zero_of_lt h)
    rw [List.flatMap_cons, stringBytes?_element, ih (Nat.le_of_succ_le_succ h)]
    rfl

theorem spells_of_stringBytes? {fuel : Nat} {cs : List Char} {bs : List UInt8}
    (h : stringBytes? fuel cs = some bs) : Spells cs bs := by
  induction fuel generalizing cs bs with
  | zero =>
    cases cs with
    | nil =>
      obtain rfl := Option.some.inj h
      exact .nil
    | cons c cs => cases h
  | succ fuel ih =>
    cases cs with
    | nil =>
      obtain rfl := Option.some.inj h
      exact .nil
    | cons c cs =>
      by_cases hc : c = '\\'
      · rw [hc, stringBytes?] at h
        obtain ⟨⟨e, rest⟩, hescape, h⟩ := Option.bind_eq_some_iff.mp h
        obtain ⟨tail, htail, rfl⟩ := Option.map_eq_some_iff.mp h
        obtain ⟨el, hchars, hbytes⟩ := exists_element_of_escape? hescape
        rw [hc, hchars, ← hbytes]
        exact .cons el (ih htail)
      · rw [stringBytes?_plain hc] at h
        obtain ⟨tail, htail, rfl⟩ := Option.map_eq_some_iff.mp h
        exact .cons (.plain c hc) (ih htail)

theorem stringBytes?_eq_some_iff (cs : List Char) (bs : List UInt8) :
    stringBytes? cs.length cs = some bs ↔ Spells cs bs := by
  refine ⟨spells_of_stringBytes?, ?_⟩
  rintro ⟨els, rfl, rfl⟩
  apply stringBytes?_elements
  have hone : ∀ n ∈ els.map (·.chars.length), 1 ≤ n := by
    intro n hn
    obtain ⟨el, -, rfl⟩ := List.mem_map.mp hn
    exact List.length_pos_iff.mpr el.chars_ne_nil
  calc els.length = (els.map (·.chars.length)).length := (List.length_map _).symm
    _ ≤ (els.map (·.chars.length)).sum := List.length_le_sum_of_one_le _ hone
    _ = (els.flatMap (·.chars)).length := List.length_flatMap.symm

end Elements

section Texts

theorem decodeBytes?_eq_some_iff (bytes : List UInt8) (s : String) :
    decodeBytes? bytes = some s ↔ bytes = s.toList.flatMap String.utf8EncodeChar := by
  rw [← List.toByteArray_inj, ← List.utf8Encode, String.utf8Encode_toList, decodeBytes?]
  unfold String.fromUTF8?
  constructor
  · intro h
    split at h
    · obtain rfl := Option.some.inj h
      rfl
    · cases h
  · intro h
    have hvalid : bytes.toByteArray.IsValidUTF8 := h ▸ s.isValidUTF8
    rw [dif_pos hvalid, Option.some.injEq]
    exact String.toByteArray_inj.mp h

theorem unquoted?_eq_some_iff (quote : Char) (cs inner : List Char) :
    unquoted? quote cs = some inner ↔ cs = quote :: inner ++ [quote] := by
  cases cs with
  | nil => simp [unquoted?]
  | cons c cs =>
    rw [unquoted?]
    constructor
    · intro h
      split at h
      · next hquotes =>
        obtain ⟨rfl, hlast⟩ := hquotes
        obtain rfl := Option.some.inj h
        rw [List.cons_append, List.dropLast_append_getLast? _ hlast]
      · cases h
    · rintro ⟨⟩
      simp

/-- A text between back quotes. -/
def IsRawSpelling (raw s : String) : Prop :=
  ∃ inner, raw.toList = '\x60' :: inner ++ ['\x60'] ∧ s.toList = inner.filter (· != '\r')

/-- A text between double quotes, its encoding in the bytes of all elements together. -/
def IsQuotedSpelling (raw s : String) : Prop :=
  ∃ inner, raw.toList = '"' :: inner ++ ['"'] ∧
    Spells inner (s.toList.flatMap String.utf8EncodeChar)

def IsStringSpelling (raw s : String) : Prop := IsRawSpelling raw s ∨ IsQuotedSpelling raw s

theorem quotedString?_eq_some_iff (raw s : String) :
    ((unquoted? '"' raw.toList).bind fun inner =>
      (stringBytes? inner.length inner).bind decodeBytes?) = some s ↔ IsQuotedSpelling raw s := by
  simp only [Option.bind_eq_some_iff, unquoted?_eq_some_iff, stringBytes?_eq_some_iff,
    decodeBytes?_eq_some_iff, exists_eq_right, IsQuotedSpelling]

theorem string?_eq_some_iff (raw s : String) : string? raw = some s ↔ IsStringSpelling raw s := by
  rw [string?, IsStringSpelling]
  cases hraw : unquoted? '\x60' raw.toList with
  | some inner =>
    rw [unquoted?_eq_some_iff] at hraw
    have hquoted : ¬ IsQuotedSpelling raw s := by
      rintro ⟨body, hbody, -⟩
      rw [hraw] at hbody
      exact absurd (List.cons.inj hbody).1 (by decide)
    rw [or_iff_left hquoted, Option.some.injEq, ← String.toList_inj, String.toList_ofList, eq_comm]
    constructor
    · intro hs
      exact ⟨inner, hraw, hs⟩
    · rintro ⟨inner', hraw', hs⟩
      rw [hraw, List.cons_append, List.cons_append, List.cons.injEq, and_iff_right rfl,
        List.append_cancel_right_eq] at hraw'
      rw [hs, hraw']
  | none =>
    have hnot : ¬ IsRawSpelling raw s := by
      rintro ⟨inner, hinner, -⟩
      rw [(unquoted?_eq_some_iff _ _ _).mpr hinner] at hraw
      cases hraw
    rw [or_iff_right hnot]
    exact quotedString?_eq_some_iff raw s

end Texts

end Literal

/-- The literals of strings are the spellings of texts: a literal has a text for its value exactly
when it spells that text, and no value when it spells none, so that all spellings of a text have the
same value. -/
theorem string_literal_denotes_iff (raw : String) :
    (∀ s, Literal.value? .string raw = some (.str s) ↔ Literal.IsStringSpelling raw s) ∧
    (Literal.value? .string raw = none ↔ ∀ s, ¬ Literal.IsStringSpelling raw s) ∧
    ∀ other s, Literal.IsStringSpelling raw s → Literal.IsStringSpelling other s →
      Literal.value? .string raw = Literal.value? .string other := by
  have hvalue (raw s : String) :
      Literal.value? .string raw = some (.str s) ↔ Literal.IsStringSpelling raw s := by
    rw [Literal.value?, Option.map_eq_some_iff, ← Literal.string?_eq_some_iff]
    constructor
    · rintro ⟨t, ht, heq⟩
      obtain rfl := Value.str.inj heq
      exact ht
    · intro hs
      exact ⟨s, hs, rfl⟩
  refine ⟨hvalue raw, ?_, ?_⟩
  · rw [Literal.value?, Option.map_eq_none_iff, Option.eq_none_iff_forall_ne_some]
    simp only [ne_eq, Literal.string?_eq_some_iff]
  · intro other s hraw hother
    rw [(hvalue raw s).mpr hraw, (hvalue other s).mpr hother]

-- Two elements of one byte each, which make one character together.
example : Literal.value? .string "\"\\xc3\\251\"" = some (.str "\u00e9") := by decide

end EnumCover
