import EnumCover.Proofs.Json.Spelling
import Mathlib.Data.List.TakeWhile

namespace EnumCover

namespace Json

def StartsToken (cs : List Char) : Prop := ∀ c ∈ cs.head?, ¬ IsBlank c

theorem skipBlanksFrom_of_startsToken {cs : List Char} (h : StartsToken cs) (line : Nat) :
    Cursor.skipBlanksFrom line cs = ⟨line, cs⟩ := by
  cases cs with
  | nil => rfl
  | cons c cs =>
    have hc : ¬ IsBlank c := h c rfl
    simp only [IsBlank, not_or] at hc
    simp [Cursor.skipBlanksFrom, hc]

/-- Blanks before a token are passed, and the line breaks among them are counted. -/
theorem skipBlanks_append (line : Nat) (b : Blanks) {rest : List Char} (h : StartsToken rest) :
    Cursor.skipBlanks ⟨line, b.1 ++ rest⟩ = ⟨line + b.1.count '\n', rest⟩ := by
  obtain ⟨b, hb⟩ := b
  simp only [Cursor.skipBlanks]
  induction b generalizing line with
  | nil => simpa using skipBlanksFrom_of_startsToken h line
  | cons c b ih =>
    obtain ⟨hc, hb'⟩ := List.forall_mem_cons.mp hb
    rcases hc with rfl | hc
    · rw [List.cons_append, Cursor.skipBlanksFrom, if_pos rfl, ih _ hb', List.count_cons_self]
      congr 1
      omega
    · have hne : c ≠ '\n' := by rcases hc with rfl | rfl | rfl <;> decide
      rw [List.cons_append, Cursor.skipBlanksFrom, if_neg hne, if_pos hc, ih _ hb',
        List.count_cons_of_ne hne]

theorem exists_blanks (c : Cursor) : ∃ b : Blanks, c.rest = b.1 ++ c.skipBlanks.rest := by
  obtain ⟨line, cs⟩ := c
  simp only [Cursor.skipBlanks]
  induction cs generalizing line with
  | nil => exact ⟨⟨[], by simp⟩, rfl⟩
  | cons c cs ih =>
    by_cases hc : IsBlank c
    · obtain ⟨line', hskip⟩ : ∃ line', Cursor.skipBlanksFrom line (c :: cs) =
          Cursor.skipBlanksFrom line' cs := by
        rcases hc with rfl | hc
        · exact ⟨line + 1, by simp [Cursor.skipBlanksFrom]⟩
        · have hne : c ≠ '\n' := by rcases hc with rfl | rfl | rfl <;> decide
          exact ⟨line, by rw [Cursor.skipBlanksFrom, if_neg hne, if_pos hc]⟩
      obtain ⟨⟨b, hb⟩, h⟩ := ih line'
      refine ⟨⟨c :: b, List.forall_mem_cons.mpr ⟨hc, hb⟩⟩, ?_⟩
      rw [hskip, List.cons_append, ← h]
    · have hstart : StartsToken (c :: cs) := by
        intro d hd
        cases hd
        exact hc
      exact ⟨⟨[], by simp⟩, by rw [skipBlanksFrom_of_startsToken hstart]; rfl⟩

theorem scanString_plain {line : Nat} {c : Char} {cs rest : List Char} {us : List StringUnit}
    (h : c ≠ '"' ∧ c ≠ '\\' ∧ 0x20 ≤ c.toNat) (hcs : scanString line cs = (us, .ok rest)) :
    scanString line (c :: cs) = (.char c :: us, .ok rest) := by
  obtain ⟨hq, hb, hc⟩ := h
  have hc' : ¬ c.toNat < 0x20 := by omega
  unfold scanString
  split <;> simp_all

theorem scanString_escape {line : Nat} {c e : Char} {cs rest : List Char} {us : List StringUnit}
    (h : StringUnit.escape? c = some e) (hcs : scanString line cs = (us, .ok rest)) :
    scanString line ('\\' :: c :: cs) = (.char e :: us, .ok rest) := by
  have hu : c ≠ 'u' := by
    rintro rfl
    cases h
  rw [scanString]
  · simp [hu, h, hcs]
  · simp [hu]

theorem scanString_pieces (line : Nat) (ps : List StringPiece) (rest : List Char) :
    scanString line (ps.flatMap StringPiece.chars ++ '"' :: rest) =
      (ps.map StringPiece.unit, .ok rest) := by
  induction ps with
  | nil => simp [scanString]
  | cons p ps ih =>
    rw [List.flatMap_cons, List.append_assoc]
    cases p with
    | plain c h => exact scanString_plain h ih
    | escape c e h => exact scanString_escape h ih
    | code a b c d n h =>
      simp [StringPiece.chars, StringPiece.unit, scanString, h, ih]

theorem exists_pieces {line : Nat} {cs rest : List Char} {us : List StringUnit}
    (h : scanString line cs = (us, .ok rest)) :
    ∃ ps : List StringPiece, cs = ps.flatMap StringPiece.chars ++ '"' :: rest := by
  -- The string ends, or it goes on with a code unit, an escape or a plain character. All other
  -- cases end in an error.
  fun_induction scanString line cs generalizing us with
  | case1 => cases h
  | case2 cs =>
    cases h
    exact ⟨[], rfl⟩
  | case3 a b c d cs n hn us' r hr ih =>
    cases h
    obtain ⟨ps, rfl⟩ := ih hr
    exact ⟨.code a b c d n hn :: ps, rfl⟩
  | case4 => cases h
  | case5 => cases h
  | case6 c cs _ hu e he us' r hr ih =>
    cases h
    obtain ⟨ps, rfl⟩ := ih hr
    exact ⟨.escape c e he :: ps, rfl⟩
  | case7 => cases h
  | case8 => cases h
  | case9 => cases h
  | case10 c cs hq _ _ hb hc us' r hr ih =>
    cases h
    obtain ⟨ps, rfl⟩ := ih hr
    exact ⟨.plain c ⟨hq, hb, by omega⟩ :: ps, rfl⟩

theorem stringTail_quoted (line : Nat) (ps : List StringPiece) (rest : List Char) :
    stringTail line (ps.flatMap StringPiece.chars ++ '"' :: rest) =
      .ok (ps.map StringPiece.unit, rest) := by
  rw [stringTail, scanString_pieces]

theorem exists_pieces_of_stringTail {line : Nat} {cs rest : List Char} {us : List StringUnit}
    (h : stringTail line cs = .ok (us, rest)) :
    ∃ ps : List StringPiece, cs = ps.flatMap StringPiece.chars ++ '"' :: rest := by
  unfold stringTail at h
  split at h
  · cases h
    exact exists_pieces ‹_›
  · cases h

def EndsDigits (cs : List Char) : Prop := ∀ c ∈ cs.head?, isDecimalDigit c = false

theorem EndsDigits.span_append {ds rest : List Char} (h : EndsDigits rest)
    (hds : ∀ d ∈ ds, isDecimalDigit d = true) :
    (ds ++ rest).takeWhile isDecimalDigit = ds ∧ (ds ++ rest).dropWhile isDecimalDigit = rest := by
  have htake : rest.takeWhile isDecimalDigit = [] := by
    cases rest with
    | nil => rfl
    | cons c cs => simp [h c rfl]
  have hdrop : rest.dropWhile isDecimalDigit = rest := by
    cases rest with
    | nil => rfl
    | cons c cs => simp [h c rfl]
  constructor
  · rw [List.takeWhile_append_of_pos hds, htake, List.append_nil]
  · rw [List.dropWhile_append_of_pos hds, hdrop]

theorem digitRun_append (line : Nat) (ds : Digits) {rest : List Char} (h : EndsDigits rest) :
    digitRun line (ds.1 ++ rest) = .ok (ds.1, rest) := by
  obtain ⟨ds, hne, hds⟩ := ds
  obtain ⟨h₁, h₂⟩ := h.span_append hds
  cases ds with
  | nil => exact absurd rfl hne
  | cons d ds => simp only [digitRun, h₁, h₂]

theorem exists_digits {line : Nat} {cs ds rest : List Char}
    (h : digitRun line cs = .ok (ds, rest)) : ∃ D : Digits, D.1 = ds ∧ cs = ds ++ rest := by
  unfold digitRun at h
  split at h
  · cases h
  · rename_i hne
    cases h
    refine ⟨⟨_, hne, fun d hd => ?_⟩, rfl, List.takeWhile_append_dropWhile.symm⟩
    exact List.mem_takeWhile_imp hd

theorem Digits.exists_cons (ds : Digits) :
    ∃ d rest, ds.1 = d :: rest ∧ isDecimalDigit d = true := by
  obtain ⟨ds, hne, hds⟩ := ds
  cases ds with
  | nil => exact absurd rfl hne
  | cons d rest => exact ⟨d, rest, rfl, hds d (by simp)⟩

theorem Digits.head_ne {ds : Digits} {d c : Char} {rest : List Char} (h : ds.1 = d :: rest)
    (hc : isDecimalDigit c = false) : d ≠ c := by
  rintro rfl
  have := ds.2.2 d (by simp [h])
  simp_all

theorem wholePart_append (line : Nat) (ds : Digits) (hz : ds.1.head? = some '0' → ds.1 = ['0'])
    {rest : List Char} (h : EndsDigits rest) :
    wholePart line (ds.1 ++ rest) = .ok (ds.1, rest) := by
  obtain ⟨d, ds', hd, hdigit⟩ := ds.exists_cons
  by_cases hd0 : d = '0'
  · have hz := hz (by simp [hd, hd0])
    rw [hz]
    cases rest with
    | nil => simp [wholePart]
    | cons c cs => simp [wholePart, h c rfl]
  · have hrun := digitRun_append line ds h
    rw [hd] at hrun ⊢
    rw [List.cons_append, wholePart]
    · exact hrun
    · simp [hd0]

theorem exists_whole {line : Nat} {cs ds rest : List Char}
    (h : wholePart line cs = .ok (ds, rest)) :
    ∃ D : Digits, D.1 = ds ∧ (D.1.head? = some '0' → D.1 = ['0']) ∧ cs = ds ++ rest := by
  unfold wholePart at h
  split at h
  · split at h
    · cases h
    · cases h
      have hzero : ∀ d ∈ ['0'], isDecimalDigit d = true := List.forall_mem_singleton.mpr rfl
      exact ⟨⟨['0'], List.cons_ne_nil _ _, hzero⟩, rfl, fun _ => rfl, rfl⟩
  · rename_i hne
    obtain ⟨D, rfl, rfl⟩ := exists_digits h
    refine ⟨D, rfl, fun hz => ?_, rfl⟩
    obtain ⟨d, ds, hd, -⟩ := D.exists_cons
    simp only [hd, List.head?_cons, Option.some.injEq] at hz
    exact (hne _ (by rw [hd, hz]; rfl)).elim

theorem fractionPart_append (line : Nat) (p : Option Digits) {rest : List Char}
    (h : EndsDigits rest) (hdot : rest.head? ≠ some '.') :
    fractionPart line (NumeralSpelling.partChars p ++ rest) =
      .ok ((p.map Subtype.val).getD [], rest) := by
  cases p with
  | none =>
    simp only [NumeralSpelling.partChars, List.nil_append]
    unfold fractionPart
    split
    · simp at hdot
    · rfl
  | some ds => exact digitRun_append line ds h

theorem exists_fraction {line : Nat} {cs ds rest : List Char}
    (h : fractionPart line cs = .ok (ds, rest)) :
    ∃ p : Option Digits, cs = NumeralSpelling.partChars p ++ rest := by
  unfold fractionPart at h
  split at h
  · obtain ⟨D, rfl, rfl⟩ := exists_digits h
    exact ⟨some D, rfl⟩
  · cases h
    exact ⟨none, rfl⟩

theorem splitSign_signChars (negative? : Option Bool) (ds : Digits) (rest : List Char) :
    Decimal.splitSign (ExponentSpelling.signChars negative? ++ ds.1 ++ rest) =
      (negative? == some true, ds.1 ++ rest) := by
  match negative? with
  | some true => rfl
  | some false => rfl
  | none =>
    obtain ⟨d, ds', hd, -⟩ := ds.exists_cons
    have hminus : d ≠ '-' := Digits.head_ne hd (by decide)
    have hplus : d ≠ '+' := Digits.head_ne hd (by decide)
    simp [ExponentSpelling.signChars, hd, Decimal.splitSign, hminus, hplus]

theorem exists_sign (cs : List Char) :
    ∃ negative?, cs = ExponentSpelling.signChars negative? ++ (Decimal.splitSign cs).2 := by
  unfold Decimal.splitSign
  split
  · exact ⟨some true, rfl⟩
  · exact ⟨some false, rfl⟩
  · exact ⟨none, rfl⟩

theorem exponentPart_append (line : Nat) (e : Option ExponentSpelling) {rest : List Char}
    (h : EndsDigits rest) (he : rest.head? ≠ some 'e') (hE : rest.head? ≠ some 'E') :
    exponentPart line (NumeralSpelling.exponentChars e ++ rest) =
      .ok (e.map ExponentSpelling.value, rest) := by
  cases e with
  | none =>
    cases rest with
    | nil => rfl
    | cons c cs =>
      have : ¬ (c = 'e' ∨ c = 'E') := by simpa using And.intro he hE
      simp [NumeralSpelling.exponentChars, exponentPart, this]
  | some e =>
    have hrun := digitRun_append line e.digits h
    have hsign := splitSign_signChars e.negative? e.digits rest
    simp only [NumeralSpelling.exponentChars, ExponentSpelling.chars, List.cons_append,
      exponentPart, if_pos e.mark_eq, hsign, hrun]
    simp [Except.map, ExponentSpelling.value]

theorem exists_exponent {line : Nat} {cs rest : List Char} {x : Option Int}
    (h : exponentPart line cs = .ok (x, rest)) :
    ∃ e : Option ExponentSpelling, cs = NumeralSpelling.exponentChars e ++ rest := by
  unfold exponentPart at h
  split at h
  · rename_i c cs
    split at h
    · rename_i hc
      obtain ⟨negative?, hcs⟩ := exists_sign cs
      cases hrun : digitRun line (Decimal.splitSign cs).2 with
      | error l => simp [hrun, Except.map] at h
      | ok r =>
        obtain ⟨D, hD, hds⟩ := exists_digits hrun
        simp only [hrun, Except.map, Except.ok.injEq, Prod.mk.injEq] at h
        obtain ⟨-, rfl⟩ := h
        refine ⟨some ⟨c, hc, negative?, D⟩, ?_⟩
        rw [hds, ← hD] at hcs
        simp [NumeralSpelling.exponentChars, ExponentSpelling.chars, hcs]
    · cases h
      exact ⟨none, rfl⟩
  · cases h
    exact ⟨none, rfl⟩

/-- The text does not go on with anything that belongs to a numeral. -/
def EndsNumeral (cs : List Char) : Prop :=
  ∀ c ∈ cs.head?, isDecimalDigit c = false ∧ c ≠ '.' ∧ c ≠ 'e' ∧ c ≠ 'E'

theorem EndsNumeral.endsDigits {cs : List Char} (h : EndsNumeral cs) : EndsDigits cs :=
  fun c hc => (h c hc).1

theorem EndsNumeral.head?_ne {cs : List Char} (h : EndsNumeral cs) :
    cs.head? ≠ some '.' ∧ cs.head? ≠ some 'e' ∧ cs.head? ≠ some 'E' :=
  ⟨fun hc => (h _ hc).2.1 rfl, fun hc => (h _ hc).2.2.1 rfl, fun hc => (h _ hc).2.2.2 rfl⟩

theorem endsDigits_exponentChars (e : Option ExponentSpelling) {rest : List Char}
    (h : EndsNumeral rest) :
    EndsDigits (NumeralSpelling.exponentChars e ++ rest) ∧
      (NumeralSpelling.exponentChars e ++ rest).head? ≠ some '.' := by
  cases e with
  | none => exact ⟨h.endsDigits, h.head?_ne.1⟩
  | some e =>
    -- an exponent starts with its mark, which is neither a digit nor a point
    refine ⟨fun c hc => ?_, fun hc => ?_⟩
    · cases hc
      rcases e.mark_eq with hm | hm <;> rw [hm] <;> decide
    · have hm : e.mark = '.' := by
        simpa [NumeralSpelling.exponentChars, ExponentSpelling.chars] using hc
      rcases e.mark_eq with h | h <;> rw [hm] at h <;> cases h

theorem endsDigits_partChars (p : Option Digits) {rest : List Char} (h : EndsDigits rest) :
    EndsDigits (NumeralSpelling.partChars p ++ rest) := by
  cases p with
  | none => exact h
  | some ds =>
    intro c hc
    cases hc
    decide

def splitMinus : List Char → Bool × List Char
  | '-' :: cs => (true, cs)
  | cs => (false, cs)

theorem numeral_eq_ok_iff {line : Nat} {cs rest : List Char} {m : Numeral} :
    numeral line cs = .ok (m, rest) ↔
      ∃ whole cs₁ part cs₂ e, wholePart line (splitMinus cs).2 = .ok (whole, cs₁) ∧
        fractionPart line cs₁ = .ok (part, cs₂) ∧ exponentPart line cs₂ = .ok (e, rest) ∧
        m = ⟨(splitMinus cs).1, whole, part, e.getD 0, part.isEmpty && e.isNone⟩ := by
  -- The three parts of a numeral follow one another, and each can fail.
  have hnumeral : numeral line cs = (wholePart line (splitMinus cs).2).bind fun w =>
      (fractionPart line w.2).bind fun p => (exponentPart line p.2).bind fun e =>
        .ok (⟨(splitMinus cs).1, w.1, p.1, e.1.getD 0, p.1.isEmpty && e.1.isNone⟩, e.2) := rfl
  rw [hnumeral]
  rcases hw : wholePart line (splitMinus cs).2 with l | ⟨whole, cs₁⟩
  · simp [Except.bind]
  rcases hp : fractionPart line cs₁ with l | ⟨part, cs₂⟩
  · simp [Except.bind, hp]
  rcases he : exponentPart line cs₂ with l | ⟨e, cs₃⟩
  · simp [Except.bind, hp, he]
  · constructor
    · intro h
      simp only [Except.bind, hp, he] at h
      cases h
      exact ⟨whole, cs₁, part, cs₂, e, rfl, hp, he, rfl⟩
    · rintro ⟨_, _, _, _, _, ⟨⟩, hp', he', rfl⟩
      cases hp.symm.trans hp'
      cases he.symm.trans he'
      simp [Except.bind, hp, he]

theorem numeral_chars (line : Nat) (n : NumeralSpelling) {rest : List Char}
    (h : EndsNumeral rest) : numeral line (n.chars ++ rest) = .ok (n.numeral, rest) := by
  obtain ⟨hexp, hdot⟩ := endsDigits_exponentChars n.exponent h
  have hw := wholePart_append line n.whole n.whole_eq (endsDigits_partChars n.part hexp)
  have hp := fractionPart_append line n.part hexp hdot
  have he := exponentPart_append line n.exponent h.endsDigits h.head?_ne.2.1 h.head?_ne.2.2
  have hs : splitMinus (n.chars ++ rest) =
      (n.negative, n.whole.1 ++ (NumeralSpelling.partChars n.part ++
        (NumeralSpelling.exponentChars n.exponent ++ rest))) := by
    obtain ⟨d, ds, hd, -⟩ := n.whole.exists_cons
    have hminus : d ≠ '-' := Digits.head_ne hd (by decide)
    cases hn : n.negative <;> simp [NumeralSpelling.chars, splitMinus, hn, hd, hminus]
  have hpart : ((n.part.map Subtype.val).getD []).isEmpty = n.part.isNone := by
    cases n.part with
    | none => rfl
    | some ds =>
      obtain ⟨d, ds', hd, -⟩ := ds.exists_cons
      simp [hd]
  refine numeral_eq_ok_iff.mpr ⟨_, _, _, _, _, by rw [hs]; exact hw, hp, he, ?_⟩
  rw [hs, hpart, Option.isNone_map]
  rfl

theorem exists_numeral {line : Nat} {cs rest : List Char} {m : Numeral}
    (h : numeral line cs = .ok (m, rest)) : ∃ n : NumeralSpelling, cs = n.chars ++ rest := by
  obtain ⟨whole, cs₁, part, cs₂, e, hw, hp, he, -⟩ := numeral_eq_ok_iff.mp h
  obtain ⟨W, rfl, hz, h'⟩ := exists_whole hw
  obtain ⟨p, rfl⟩ := exists_fraction hp
  obtain ⟨e, rfl⟩ := exists_exponent he
  refine ⟨⟨(splitMinus cs).1, W, hz, p, e⟩, ?_⟩
  have hcs : cs = (if (splitMinus cs).1 then ['-'] else []) ++ (splitMinus cs).2 := by
    unfold splitMinus
    split <;> rfl
  rw [h'] at hcs
  simpa [NumeralSpelling.chars] using hcs

end Json

end EnumCover
